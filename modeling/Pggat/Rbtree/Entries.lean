import Pggat.Base.Ascending
import Pggat.Rbtree.Tree

/-! What a tree holds, in the order of its keys. Rotations and colour changes keep it, and the operations change it as
they change a map. -/
namespace Pggat.Rbtree
open Pggat.Base
variable {K V : Type}

namespace Tree
variable {n n' : Tree K V}

def entries : Tree K V → List (Nat × K × V)
  | .nil => []
  | .node id _ k v l r => l.entries ++ (id,k,v) :: r.entries

def ids (n : Tree K V) : List Nat := n.entries.map Prod.fst

def pairs (n : Tree K V) : List (K × V) := n.entries.map Prod.snd

def keys (n : Tree K V) : List K := n.pairs.map Prod.fst

@[simp] theorem pairs_nil : (nil : Tree K V).pairs = [] := rfl

@[simp] theorem ids_nil : (nil : Tree K V).ids = [] := rfl

@[simp] theorem pairs_node (id : Nat) (c : Color) (k : K) (v : V) (l r : Tree K V) :
    (node id c k v l r).pairs = l.pairs ++ (k,v) :: r.pairs := by
  simp [pairs,entries]

@[simp] theorem ids_node (id : Nat) (c : Color) (k : K) (v : V) (l r : Tree K V) :
    (node id c k v l r).ids = l.ids ++ id :: r.ids := by
  simp [ids,entries]

theorem length_entries (n : Tree K V) : n.entries.length = n.size := by
  induction n with
  | nil => rfl
  | node id c k v l r ihl ihr =>
    simp only [entries,size,List.length_append,List.length_cons,ihl,ihr]
    omega

theorem entries_rotateRight (h : rotateRight n = some n') : n'.entries = n.entries := by
  unfold rotateRight at h
  split at h
  · cases h
    simp [entries]
  · cases h

theorem entries_rotateLeft (h : rotateLeft n = some n') : n'.entries = n.entries := by
  unfold rotateLeft at h
  split at h
  · cases h
    simp [entries]
  · cases h

theorem entries_flipColors (h : flipColors n = some n') : n'.entries = n.entries := by
  unfold flipColors at h
  split at h
  · cases h
    simp [entries]
  · cases h

private theorem entries_right {id : Nat} {c : Color} {k : K} {v : V} {l r r' : Tree K V} (h : r'.entries = r.entries) :
    (node id c k v l r').entries = (node id c k v l r).entries := by
  simp only [entries,h]

theorem entries_moveRedLeft (h : moveRedLeft n = some n') : n'.entries = n.entries := by
  unfold moveRedLeft at h
  split at h
  · rename_i id c k v l rid rc rk rv rl rr hf
    rw [← entries_flipColors hf]
    split at h
    · obtain ⟨r,hr,h⟩ := Option.bind_eq_some_iff.mp h
      obtain ⟨m,hm,h⟩ := Option.bind_eq_some_iff.mp h
      rw [entries_flipColors h,entries_rotateLeft hm,entries_right (entries_rotateRight hr)]
    · cases h
      rfl
  · cases h

theorem entries_moveRedRight (h : moveRedRight n = some n') : n'.entries = n.entries := by
  unfold moveRedRight at h
  split at h
  · rename_i id c k v lid lc lk lv ll lr r hf
    rw [← entries_flipColors hf]
    split at h
    · obtain ⟨m,hm,h⟩ := Option.bind_eq_some_iff.mp h
      rw [entries_flipColors h,entries_rotateRight hm]
    · cases h
      rfl
  · cases h

theorem entries_balance (h : balance n = some n') : n'.entries = n.entries := by
  obtain ⟨m',hm',h⟩ := Option.bind_eq_some_iff.mp h
  obtain ⟨m,hm,hm'⟩ := Option.bind_eq_some_iff.mp hm'
  have h₁ : m.entries = n.entries := by
    unfold balanceRight at hm
    split at hm
    · cases hm
    · split at hm
      · exact entries_rotateLeft hm
      · cases hm
        rfl
  have h₂ : m'.entries = m.entries := by
    unfold balanceLeft at hm'
    split at hm'
    · cases hm'
    · split at hm'
      · exact entries_rotateRight hm'
      · cases hm'
        rfl
    · cases hm'
      rfl
  have h₃ : n'.entries = m'.entries := by
    unfold balanceColors at h
    split at h
    · cases h
    · split at h
      · exact entries_flipColors h
      · cases h
        rfl
  rw [h₃,h₂,h₁]

theorem entries_openLeft (h : openLeft n = some n') : n'.entries = n.entries := by
  unfold openLeft at h
  split at h
  · split at h
    · exact entries_moveRedLeft h
    · cases h
      rfl
  · cases h

theorem entries_openRight (h : openRight n = some n') : n'.entries = n.entries := by
  unfold openRight at h
  split at h
  · split at h
    · exact entries_moveRedRight h
    · cases h
      rfl
  · cases h

theorem entries_leanRight (h : leanRight n = some n') : n'.entries = n.entries := by
  unfold leanRight at h
  split at h
  · cases h
  · split at h
    · exact entries_rotateRight h
    · cases h
      rfl

end Tree
end Pggat.Rbtree
