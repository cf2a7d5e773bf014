import Mathlib.Data.List.Basic
import Mathlib.Data.List.Forall2
import Mathlib.Data.List.Perm.Basic

/-! Rules for loops over lists, as left folds of a state. -/
namespace Pggat.Base
variable {σ α : Type}

/-- What each turn keeps, the loop keeps. -/
theorem foldl_keeps {P : σ → Prop} {body : σ → α → σ} {l : List α} (h : ∀ x ∈ l, ∀ s, P s → P (body s x)) {s : σ}
    (hs : P s) : P (l.foldl body s) := by
  induction l generalizing s with
  | nil => exact hs
  | cons x l ih =>
    exact ih (fun y hy => h y (List.mem_cons_of_mem x hy)) (h x List.mem_cons_self s hs)

/-- Turns that hit establish `Q`, which every turn keeps; the others keep `P`. -/
theorem foldl_reaches {P Q : σ → Prop} {body : σ → α → σ} {l : List α} (hit : α → Prop)
    (hits : ∀ x ∈ l, hit x → ∀ s, P s → Q (body s x)) (misses : ∀ x ∈ l, ¬ hit x → ∀ s, P s → P (body s x))
    (keeps : ∀ x ∈ l, ∀ s, Q s → Q (body s x)) (some : ∃ x ∈ l, hit x) {s : σ} (hs : P s) : Q (l.foldl body s) := by
  induction l generalizing s with
  | nil => obtain ⟨x,hx,-⟩ := some; cases hx
  | cons x l ih =>
    have tail {R : α → Prop} (h : ∀ y ∈ x :: l, R y) : ∀ y ∈ l, R y := fun y hy => h y (List.mem_cons_of_mem x hy)
    by_cases hx : hit x
    · exact foldl_keeps (tail keeps) (hits x List.mem_cons_self hx s hs)
    · refine ih (tail hits) (tail misses) (tail keeps) ?_ (misses x List.mem_cons_self hx s hs)
      obtain ⟨y,hy,hit⟩ := some
      obtain rfl | hy := List.mem_cons.mp hy
      · exact absurd hit hx
      · exact ⟨y,hy,hit⟩

theorem foldlM_ok {ε : Type} {body : σ → α → Except ε σ} {next : σ → α → σ} {l : List α}
    (h : ∀ x ∈ l, ∀ s, body s x = .ok (next s x)) (s : σ) : l.foldlM body s = .ok (l.foldl next s) := by
  induction l generalizing s with
  | nil => rfl
  | cons x l ih =>
    rw [List.foldlM_cons,h x List.mem_cons_self,List.foldl_cons]
    exact ih (fun y hy => h y (List.mem_cons_of_mem x hy)) _

theorem foldlM_error {ε : Type} {body : σ → α → Except ε σ} {l : List α} {x : α} (hx : x ∈ l)
    (h : ∀ s s', body s x ≠ .ok s') (s s' : σ) : l.foldlM body s ≠ .ok s' := by
  induction l generalizing s with
  | nil => cases hx
  | cons y l ih =>
    rw [List.foldlM_cons]
    intro hs
    cases hb : body s y with
    | error e =>
      rw [hb] at hs
      cases hs
    | ok s₁ =>
      rw [hb] at hs
      rcases List.mem_cons.mp hx with rfl | hx
      · exact h s s₁ hb
      · exact ih hx s₁ hs

theorem bind_eq_ok {ε α β : Type} {x : Except ε α} {f : α → Except ε β} {b : β} :
    (x >>= f) = .ok b ↔ ∃ a, x = .ok a ∧ f a = .ok b := by
  cases x with
  | error e => exact ⟨nofun,nofun⟩
  | ok a =>
    constructor
    · exact fun h => ⟨a,rfl,h⟩
    · rintro ⟨_,h,h'⟩
      cases h
      exact h'

/-- The results of a loop that maps a list, one for each element. -/
theorem mapM_eq_ok {ε β : Type} {f : α → Except ε β} {l : List α} {l' : List β} :
    l.mapM f = .ok l' ↔ List.Forall₂ (fun x y => f x = .ok y) l l' := by
  induction l generalizing l' with
  | nil =>
    rw [List.mapM_nil,List.forall₂_nil_left_iff]
    exact ⟨fun h => (Except.ok.inj h).symm,fun h => h ▸ rfl⟩
  | cons x l ih =>
    rw [List.mapM_cons,bind_eq_ok,List.forall₂_cons_left_iff]
    constructor
    · rintro ⟨y,hx,h⟩
      obtain ⟨ys,hl,h⟩ := bind_eq_ok.mp h
      exact ⟨y,ys,hx,ih.mp hl,(Except.ok.inj h).symm⟩
    · rintro ⟨y,ys,hx,hl,rfl⟩
      exact ⟨y,hx,bind_eq_ok.mpr ⟨ys,ih.mpr hl,rfl⟩⟩

theorem exists_mapM_eq_ok {ε β : Type} {f : α → Except ε β} {l : List α} (h : ∀ x ∈ l, ∃ y, f x = .ok y) :
    ∃ l', l.mapM f = .ok l' := by
  simp only [mapM_eq_ok]
  induction l with
  | nil => exact ⟨[],.nil⟩
  | cons x l ih =>
    rw [List.forall_mem_cons] at h
    obtain ⟨y,hy⟩ := h.1
    obtain ⟨ys,hys⟩ := ih h.2
    exact ⟨y :: ys,.cons hy hys⟩

/-- Two steps that come to the same in either order, wherever one of the orders succeeds. -/
def Swaps {ε : Type} (f g : σ → Except ε σ) : Prop := ∀ s s', (f s >>= g) = .ok s' ↔ (g s >>= f) = .ok s'

theorem Swaps.symm {ε : Type} {f g : σ → Except ε σ} (h : Swaps f g) : Swaps g f := fun s s' => (h s s').symm

theorem swaps_ok {ε : Type} (f : α → Except ε α) : Swaps f .ok := by
  intro v w
  rw [bind_eq_ok]
  constructor
  · rintro ⟨u,hf,hu⟩
    cases hu
    exact hf
  · intro h
    exact ⟨w,h,rfl⟩

theorem map_eq_ok {ε α β : Type} {f : α → β} {x : Except ε α} {b : β} : f <$> x = .ok b ↔ ∃ a, x = .ok a ∧ f a = b := by
  cases x with
  | error e => exact ⟨nofun,nofun⟩
  | ok a =>
    constructor
    · intro h
      cases h
      exact ⟨a,rfl,rfl⟩
    · rintro ⟨_,h,rfl⟩
      cases h
      rfl

/-- Steps inside a part of a value swap if they swap in the part. -/
theorem Swaps.lift {ε β : Type} {f g : α → Except ε α} (h : Swaps f g) (inside : β → α) (put : β → α → β)
    (inside_put : ∀ v a, inside (put v a) = a) (put_put : ∀ v a b, put (put v a) b = put v b) :
    Swaps (fun v => put v <$> f (inside v)) (fun v => put v <$> g (inside v)) := by
  have one (f g : α → Except ε α) (v w : β) :
      (put v <$> f (inside v) >>= fun v => put v <$> g (inside v)) = .ok w ↔
        ∃ b, (f (inside v) >>= g) = .ok b ∧ put v b = w := by
    simp only [bind_eq_ok,map_eq_ok]
    constructor
    · rintro ⟨u,⟨a,hf,rfl⟩,b,hg,rfl⟩
      rw [inside_put] at hg
      exact ⟨b,⟨a,hf,hg⟩,(put_put v a b).symm⟩
    · rintro ⟨b,⟨a,hf,hg⟩,rfl⟩
      exact ⟨put v a,⟨a,hf,rfl⟩,b,by rw [inside_put]; exact hg,put_put v a b⟩
  intro v w
  rw [one,one]
  exact exists_congr fun b => and_congr_left fun _ => h (inside v) b

theorem swaps_sides {ε β : Type} (f : α → Except ε α) (g : β → Except ε β) :
    Swaps (fun v : α × β => (·,v.2) <$> f v.1) (fun v => (v.1,·) <$> g v.2) := by
  intro v w
  simp only [bind_eq_ok,map_eq_ok]
  constructor
  · rintro ⟨u,⟨a,hf,rfl⟩,b,hg,rfl⟩
    exact ⟨_,⟨b,hg,rfl⟩,a,hf,rfl⟩
  · rintro ⟨u,⟨b,hg,rfl⟩,a,hf,rfl⟩
    exact ⟨_,⟨a,hf,rfl⟩,b,hg,rfl⟩

end Pggat.Base
