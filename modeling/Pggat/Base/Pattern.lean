import Mathlib.Data.List.Basic

/-! Patterns of lists: a sequence of segments, each one element or a run of elements with a property. -/
namespace Pggat.Base

inductive Segment (α : Type) where
  | one (P : α → Prop)
  | many (P : α → Prop)

variable {α : Type}

def Matches : List (Segment α) → List α → Prop
  | [], l => l = []
  | .one P :: u, l => ∃ a r, l = a :: r ∧ P a ∧ Matches u r
  | .many P :: u, l => ∃ q r, l = q ++ r ∧ (∀ a ∈ q, P a) ∧ Matches u r

namespace Matches
variable {P : α → Prop} {u w : List (Segment α)} {a : α} {l r : List α}

@[simp] theorem nil_iff : Matches [] l ↔ l = [] := Iff.rfl

@[simp] theorem one_nil : ¬ Matches (.one P :: u) [] := by
  intro ⟨a,r,h,_⟩
  cases h

@[simp] theorem one_cons : Matches (.one P :: u) (a :: l) ↔ P a ∧ Matches u l := by
  constructor
  · intro ⟨b,r,h,hp⟩
    cases h
    exact hp
  · intro h
    exact ⟨a,l,rfl,h⟩

@[simp] theorem many_nil : Matches (.many P :: u) [] ↔ Matches u [] := by
  constructor
  · intro ⟨q,r,h,_,hr⟩
    obtain ⟨_,rfl⟩ := List.nil_eq_append_iff.mp h
    exact hr
  · intro h
    exact ⟨[],[],rfl,by simp,h⟩

@[simp] theorem many_cons : Matches (.many P :: u) (a :: l) ↔ P a ∧ Matches (.many P :: u) l ∨ Matches u (a :: l) := by
  constructor
  · intro ⟨q,r,h,hq,hr⟩
    cases q with
    | nil =>
      rw [show a :: l = r from h]
      exact .inr hr
    | cons b q =>
      cases h
      exact .inl ⟨hq a (by simp),q,r,rfl,fun x hx => hq x (by simp [hx]),hr⟩
  · intro h
    rcases h with ⟨ha,q,r,rfl,hq,hr⟩ | h
    · exact ⟨a :: q,r,rfl,by simpa using ⟨ha,hq⟩,hr⟩
    · exact ⟨[],a :: l,rfl,by simp,h⟩

theorem skip (h : Matches u l) : Matches (.many P :: u) l := ⟨[],l,rfl,by simp,h⟩

variable {Q : α → Prop}

theorem mono (h : Matches (.many P :: u) l) (hp : ∀ a, P a → Q a) : Matches (.many Q :: u) l := by
  obtain ⟨q,r,hl,hq,hr⟩ := h
  exact ⟨q,r,hl,fun a ha => hp a (hq a ha),hr⟩

theorem merge (h : Matches (.many P :: .many Q :: u) l) (hp : ∀ a, Q a → P a) :
    Matches (.many P :: u) l := by
  obtain ⟨q,_,rfl,hq,t,r,rfl,ht,hr⟩ := h
  refine ⟨q ++ t,r,by simp,fun a ha => ?_,hr⟩
  rcases List.mem_append.mp ha with ha | ha
  · exact hq a ha
  · exact hp a (ht a ha)

theorem merge_one (h : Matches (.many P :: .one Q :: u) l) (hp : ∀ a, Q a → P a) :
    Matches (.many P :: u) l := by
  obtain ⟨q,_,rfl,hq,a,r,rfl,ha,hr⟩ := h
  exact merge (Q := Q) ⟨q,a :: r,rfl,hq,[a],r,rfl,by simpa using ha,hr⟩ hp

theorem append (h : Matches u l) (h' : Matches w r) : Matches (u ++ w) (l ++ r) := by
  induction u generalizing l with
  | nil =>
    cases h
    exact h'
  | cons p u ih =>
    cases p with
    | one P =>
      obtain ⟨a,t,rfl,ha,ht⟩ := h
      exact ⟨a,t ++ r,rfl,ha,ih ht⟩
    | many P =>
      obtain ⟨q,t,rfl,hq,ht⟩ := h
      exact ⟨q,t ++ r,by simp,hq,ih ht⟩

theorem many_iff : Matches [.many P] l ↔ ∀ a ∈ l, P a := by
  constructor
  · intro ⟨q,r,h,hq,hr⟩
    cases hr
    simpa [h] using hq
  · intro h
    exact ⟨l,[],by simp,h,rfl⟩

theorem snoc (h : Matches u l) (ha : P a) : Matches (u ++ [.one P]) (l ++ [a]) := h.append (by simpa using ha)

theorem open_end (h : Matches u l) : Matches (u ++ [.many P]) l := by
  simpa using h.append (r := []) (w := [.many P]) (by simp)

theorem extend (h : Matches (u ++ [.many P]) l) (ha : P a) : Matches (u ++ [.many P]) (l ++ [a]) := by
  induction u generalizing l with
  | nil =>
    have hl := many_iff.mp h
    refine many_iff.mpr fun x hx => ?_
    rcases List.mem_append.mp hx with hx | hx
    · exact hl x hx
    · rw [List.mem_singleton.mp hx]
      exact ha
  | cons p u ih =>
    cases p with
    | one P =>
      obtain ⟨b,t,rfl,hb,ht⟩ := h
      exact ⟨b,t ++ [a],rfl,hb,ih ht⟩
    | many P =>
      obtain ⟨q,t,rfl,hq,ht⟩ := h
      exact ⟨q,t ++ [a],by simp,hq,ih ht⟩

end Matches
end Pggat.Base
