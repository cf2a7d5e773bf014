import Mathlib.Data.List.Basic
import Mathlib.Order.Basic

/-! Messages sent over two queues that are read independently of each other.
Each entry carries the number of its message; what was sent and what was taken is recorded. -/
namespace Pggat.Base

structure Lanes (α β : Type) where
  left : List (Nat × α) := []
  right : List (Nat × β) := []
  sent : List (α ⊕ β) := []
  taken : List (α ⊕ β) := []

namespace Lanes
variable {α β κ : Type}

def sendLeft (l : Lanes α β) (a : α) : Lanes α β :=
  { l with left := l.left ++ [(l.sent.length,a)], sent := l.sent ++ [.inl a] }

def sendRight (l : Lanes α β) (b : β) : Lanes α β :=
  { l with right := l.right ++ [(l.sent.length,b)], sent := l.sent ++ [.inr b] }

def takeLeft (l : Lanes α β) : Option (α × Lanes α β) :=
  match l.left with
  | [] => none
  | (_,a) :: left => some (a,{ l with left := left, taken := l.taken ++ [.inl a] })

def takeRight (l : Lanes α β) : Option (β × Lanes α β) :=
  match l.right with
  | [] => none
  | (_,b) :: right => some (b,{ l with right := right, taken := l.taken ++ [.inr b] })

def Waits (l : Lanes α β) (n : Nat) : α ⊕ β → Prop
  | .inl a => (n,a) ∈ l.left
  | .inr b => (n,b) ∈ l.right

def LeftTurn (key : α ⊕ β → κ) (l : Lanes α β) : Prop :=
  ∀ e ∈ l.left.head?, ∀ e' ∈ l.right, key (.inr e'.2) = key (.inl e.2) → e.1 < e'.1

def RightTurn (key : α ⊕ β → κ) (l : Lanes α β) : Prop :=
  ∀ e ∈ l.right.head?, ∀ e' ∈ l.left, key (.inl e'.2) = key (.inr e.2) → e.1 < e'.1

instance [DecidableEq κ] (key : α ⊕ β → κ) (l : Lanes α β) : Decidable (l.LeftTurn key) := by
  unfold LeftTurn; infer_instance

instance [DecidableEq κ] (key : α ⊕ β → κ) (l : Lanes α β) : Decidable (l.RightTurn key) := by
  unfold RightTurn; infer_instance

/-- The entries are numbered as they were sent, in either queue in the order of sending. -/
structure Numbered (l : Lanes α β) : Prop where
  sent : ∀ n m, l.Waits n m → l.sent[n]? = some m
  left : l.left.Pairwise (·.1 < ·.1)
  right : l.right.Pairwise (·.1 < ·.1)

variable {l : Lanes α β} {n : Nat} {m : α ⊕ β}

theorem Numbered.lt (h : l.Numbered) (hw : l.Waits n m) : n < l.sent.length :=
  (List.getElem?_eq_some_iff.mp (h.sent n m hw)).1

theorem Numbered.initial : ({} : Lanes α β).Numbered where
  sent _ m h := by cases m <;> cases h
  left := .nil
  right := .nil

/-- What sending a message does. -/
structure Sent (l l' : Lanes α β) (m : α ⊕ β) : Prop where
  sent : l'.sent = l.sent ++ [m]
  taken : l'.taken = l.taken
  waits : ∀ n m', l'.Waits n m' ↔ l.Waits n m' ∨ n = l.sent.length ∧ m' = m

/-- What taking a message does. -/
structure Took (l l' : Lanes α β) (n : Nat) (m : α ⊕ β) : Prop where
  before : l.Waits n m
  sent : l'.sent = l.sent
  taken : l'.taken = l.taken ++ [m]
  waits : ∀ n' m', l'.Waits n' m' ↔ l.Waits n' m' ∧ n' ≠ n

theorem sendLeft_sent (l : Lanes α β) (a : α) : l.Sent (l.sendLeft a) (.inl a) where
  sent := rfl
  taken := rfl
  waits n m := by cases m <;> simp [Waits,sendLeft]

theorem sendRight_sent (l : Lanes α β) (b : β) : l.Sent (l.sendRight b) (.inr b) where
  sent := rfl
  taken := rfl
  waits n m := by cases m <;> simp [Waits,sendRight]

variable {l' : Lanes α β} {m' : α ⊕ β}

theorem Sent.numbered (hs : l.Sent l' m) (h : l.Numbered)
    (hw : l'.Waits n m') : l'.sent[n]? = some m' := by
  rw [hs.sent]
  rcases (hs.waits n m').mp hw with hw | ⟨rfl,rfl⟩
  · rw [List.getElem?_append_left (h.lt hw)]
    exact h.sent n m' hw
  · exact List.getElem?_concat_length

theorem Numbered.sendLeft (h : l.Numbered) (a : α) : (l.sendLeft a).Numbered where
  sent _ _ hw := (l.sendLeft_sent a).numbered h hw
  left := by
    refine List.pairwise_append.mpr ⟨h.left,List.pairwise_singleton _ _,fun e he e' he' => ?_⟩
    exact List.mem_singleton.mp he' ▸ h.lt (m := .inl e.2) he
  right := h.right

theorem Numbered.sendRight (h : l.Numbered) (b : β) : (l.sendRight b).Numbered where
  sent _ _ hw := (l.sendRight_sent b).numbered h hw
  left := h.left
  right := by
    refine List.pairwise_append.mpr ⟨h.right,List.pairwise_singleton _ _,fun e he e' he' => ?_⟩
    exact List.mem_singleton.mp he' ▸ h.lt (m := .inr e.2) he

theorem Numbered.unique (h : l.Numbered) (hw : l.Waits n m)
    (hw' : l.Waits n m') : m = m' :=
  Option.some.inj ((h.sent n m hw).symm.trans (h.sent n m' hw'))

variable {a : α}

theorem takeLeft_some (h : l.takeLeft = some (a,l')) :
    ∃ n left, l.left = (n,a) :: left ∧ l' = { l with left := left, taken := l.taken ++ [.inl a] } := by
  fun_cases takeLeft l with
  | case1 => simp_all [takeLeft]
  | case2 n a' left hl =>
    simp only [takeLeft,hl,Option.some.injEq,Prod.mk.injEq] at h
    obtain ⟨rfl,rfl⟩ := h
    exact ⟨n,left,hl,rfl⟩

variable {b : β}

theorem takeRight_some (h : l.takeRight = some (b,l')) :
    ∃ n right, l.right = (n,b) :: right ∧ l' = { l with right := right, taken := l.taken ++ [.inr b] } := by
  fun_cases takeRight l with
  | case1 => simp_all [takeRight]
  | case2 n b' right hl =>
    simp only [takeRight,hl,Option.some.injEq,Prod.mk.injEq] at h
    obtain ⟨rfl,rfl⟩ := h
    exact ⟨n,right,hl,rfl⟩

variable {γ : Type} {n' : Nat}

theorem mem_tail_iff {c c' : γ} {q : List (Nat × γ)} (h : ((n,c) :: q).Pairwise (·.1 < ·.1)) :
    (n',c') ∈ q ↔ (n',c') ∈ (n,c) :: q ∧ n' ≠ n := by
  have above := (List.pairwise_cons.mp h).1
  constructor
  · exact fun hm => ⟨List.mem_cons_of_mem _ hm,Nat.ne_of_gt (above _ hm)⟩
  · rintro ⟨hm,ne⟩
    rcases List.mem_cons.mp hm with e | hm
    · cases e
      exact absurd rfl ne
    · exact hm

theorem takeLeft_took (h : l.Numbered) {left : List (Nat × α)}
    (hl : l.left = (n,a) :: left) : l.Took { l with left := left, taken := l.taken ++ [.inl a] } n (.inl a) where
  before := by simp [Waits,hl]
  sent := rfl
  taken := rfl
  waits n' m := by
    cases m with
    | inl a' =>
      have grows := h.left
      rw [hl] at grows
      simpa [Waits,hl] using mem_tail_iff grows
    | inr b =>
      refine ⟨fun hb => ⟨hb,?_⟩,And.left⟩
      rintro rfl
      have first : l.Waits n' (.inl a) := by simp [Waits,hl]
      exact nomatch h.unique first (show l.Waits n' (.inr b) from hb)

theorem takeRight_took (h : l.Numbered) {right : List (Nat × β)}
    (hl : l.right = (n,b) :: right) : l.Took { l with right := right, taken := l.taken ++ [.inr b] } n (.inr b) where
  before := by simp [Waits,hl]
  sent := rfl
  taken := rfl
  waits n' m := by
    cases m with
    | inl a =>
      refine ⟨fun ha => ⟨ha,?_⟩,And.left⟩
      rintro rfl
      have first : l.Waits n' (.inr b) := by simp [Waits,hl]
      exact nomatch h.unique first (show l.Waits n' (.inl a) from ha)
    | inr b' =>
      have grows := h.right
      rw [hl] at grows
      simpa [Waits,hl] using mem_tail_iff grows

theorem Took.numbered (ht : l.Took l' n m) (h : l.Numbered) (hw : l'.Waits n' m') : l'.sent[n']? = some m' :=
  ht.sent ▸ h.sent n' m' ((ht.waits n' m').mp hw).1

theorem filter_take {p : γ → Bool} {s : List γ} {c : Nat} (h : c ≤ n)
    (none : ∀ i x, c ≤ i → i < n → s[i]? = some x → ¬ p x) : (s.take n).filter p = (s.take c).filter p := by
  induction h with
  | refl => rfl
  | @step n hn ih =>
    rw [List.take_add_one,List.filter_append,ih fun i x hi lt => none i x hi (Nat.lt_succ_of_lt lt)]
    cases hx : s[n]? with
    | none => simp
    | some x => simp [none n x hn (Nat.lt_succ_self n) hx]

/-- A key's messages up to some number are taken, in order, and the later ones wait. -/
def InOrder [DecidableEq κ] (key : α ⊕ β → κ) (l : Lanes α β) (k : κ) : Prop :=
  ∃ c ≤ l.sent.length, (∀ n m, l.sent[n]? = some m → key m = k → (l.Waits n m ↔ c ≤ n)) ∧
    l.taken.filter (key · = k) = (l.sent.take c).filter (key · = k)

section
variable [DecidableEq κ] {key : α ⊕ β → κ} {l l' : Lanes α β} {k : κ}

theorem InOrder.initial : ({} : Lanes α β).InOrder key k := ⟨0,Nat.le_refl 0,fun _ _ h => by simp at h,rfl⟩

variable {m : α ⊕ β}

theorem InOrder.send (h : l.InOrder key k) (hs : l.Sent l' m) : l'.InOrder key k := by
  obtain ⟨c,hc,waits,taken⟩ := h
  have longer : c ≤ l'.sent.length := by rw [hs.sent,List.length_append]; omega
  refine ⟨c,longer,fun n m' hm hk => ?_,?_⟩
  · rw [hs.waits]
    rw [hs.sent] at hm
    rcases Nat.lt_or_ge n l.sent.length with lt | ge
    · rw [List.getElem?_append_left lt] at hm
      rw [← waits n m' hm hk]
      exact or_iff_left fun e => absurd e.1 (Nat.ne_of_lt lt)
    · rw [List.getElem?_append_right ge,List.getElem?_singleton] at hm
      split at hm
      · have e : n = l.sent.length := by omega
        exact ⟨fun _ => e ▸ hc,fun _ => .inr ⟨e,(Option.some.inj hm).symm⟩⟩
      · cases hm
  · rw [hs.taken,hs.sent,List.take_append_of_le_length hc]
    exact taken

/-- Taking a message out of its queue keeps the order if no message with its key that waits is earlier. -/
theorem InOrder.take {n : Nat} (h : l.InOrder key k) (hn : l.Numbered) (ht : l.Took l' n m)
    (first : ∀ n' m', l.Waits n' m' → key m' = key m → n ≤ n') : l'.InOrder key k := by
  obtain ⟨c,hc,waits,taken⟩ := h
  have sent := hn.sent n m ht.before
  by_cases hk : key m = k
  · have hcn : c ≤ n := (waits n m sent hk).mp ht.before
    have hlt := hn.lt ht.before
    refine ⟨n + 1,ht.sent ▸ hlt,fun n' m' hm hk' => ?_,?_⟩
    · rw [ht.sent] at hm
      rw [ht.waits,waits n' m' hm hk']
      constructor
      · rintro ⟨hw,ne⟩
        have le := first n' m' ((waits n' m' hm hk').mpr hw) (hk'.trans hk.symm)
        omega
      · intro lt
        omega
    · have between : ∀ i x, c ≤ i → i < n → l.sent[i]? = some x → ¬ (key x = k) := fun i x hi lt hx hk' =>
        absurd (first i x ((waits i x hx hk').mpr hi) (hk'.trans hk.symm)) (Nat.not_le.mpr lt)
      rw [ht.taken,ht.sent,List.take_add_one,sent,List.filter_append,List.filter_append,taken,
        filter_take hcn (by simpa using between)]
      rfl
  · refine ⟨c,ht.sent ▸ hc,fun n' m' hm hk' => ?_,?_⟩
    · rw [ht.sent] at hm
      rw [ht.waits,← waits n' m' hm hk']
      refine and_iff_left fun e => hk ?_
      subst e
      exact Option.some.inj (sent.symm.trans hm) ▸ hk'
    · rw [ht.taken,ht.sent,List.filter_append,taken]
      simp [hk]

/-- Once both queues are empty, the messages with a key were taken in the order in which they were sent. -/
theorem InOrder.drained (h : l.InOrder key k) (hl : l.left = []) (hr : l.right = []) :
    l.taken.filter (key · = k) = l.sent.filter (key · = k) := by
  obtain ⟨c,hc,waits,taken⟩ := h
  have none (n : Nat) (m : α ⊕ β) : ¬ l.Waits n m := by cases m <;> simp [Waits,hl,hr]
  have after : ∀ i x, c ≤ i → i < l.sent.length → l.sent[i]? = some x → ¬ (key x = k) := fun i x hi _ hx hk =>
    none i x ((waits i x hx hk).mpr hi)
  rw [taken,← filter_take hc (by simpa using after),List.take_length]

/-- Numbered queues from which every key's messages are taken in order. -/
structure Orderly (key : α ⊕ β → κ) (l : Lanes α β) : Prop where
  numbered : l.Numbered
  inOrder : ∀ k, l.InOrder key k

namespace Orderly

theorem initial : ({} : Lanes α β).Orderly key := ⟨.initial,fun _ => .initial⟩

theorem sendLeft (h : l.Orderly key) (a : α) : (l.sendLeft a).Orderly key :=
  ⟨h.numbered.sendLeft a,fun k => (h.inOrder k).send (l.sendLeft_sent a)⟩

theorem sendRight (h : l.Orderly key) (b : β) : (l.sendRight b).Orderly key :=
  ⟨h.numbered.sendRight b,fun k => (h.inOrder k).send (l.sendRight_sent b)⟩

theorem takeLeft (h : l.Orderly key) {a : α} (ht : l.takeLeft = some (a,l')) (turn : l.LeftTurn key) :
    l'.Orderly key := by
  obtain ⟨n,left,hl,rfl⟩ := takeLeft_some ht
  have grows := h.numbered.left
  rw [hl] at grows
  have took := takeLeft_took h.numbered hl
  refine ⟨⟨fun _ _ => took.numbered h.numbered,grows.tail,h.numbered.right⟩,fun k =>
    (h.inOrder k).take h.numbered took fun n' m' hw hk => ?_⟩
  cases m' with
  | inl a' =>
    rcases List.mem_cons.mp (hl ▸ hw : (n',a') ∈ (n,a) :: left) with e | hm
    · cases e
      exact Nat.le_refl n
    · exact Nat.le_of_lt ((List.pairwise_cons.mp grows).1 _ hm)
  | inr b => exact Nat.le_of_lt (turn (n,a) (by simp [hl]) (n',b) hw hk)

theorem takeRight (h : l.Orderly key) {b : β} (ht : l.takeRight = some (b,l')) (turn : l.RightTurn key) :
    l'.Orderly key := by
  obtain ⟨n,right,hr,rfl⟩ := takeRight_some ht
  have grows := h.numbered.right
  rw [hr] at grows
  have took := takeRight_took h.numbered hr
  refine ⟨⟨fun _ _ => took.numbered h.numbered,h.numbered.left,grows.tail⟩,fun k =>
    (h.inOrder k).take h.numbered took fun n' m' hw hk => ?_⟩
  cases m' with
  | inl a => exact Nat.le_of_lt (turn (n,b) (by simp [hr]) (n',a) hw hk)
  | inr b' =>
    rcases List.mem_cons.mp (hr ▸ hw : (n',b') ∈ (n,b) :: right) with e | hm
    · cases e
      exact Nat.le_refl n
    · exact Nat.le_of_lt ((List.pairwise_cons.mp grows).1 _ hm)

end Orderly
end
end Lanes
end Pggat.Base
