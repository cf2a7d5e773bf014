import Pggat.Rbtree.Valid

/-! A tree answers like the sorted map that the calls have made. -/
namespace Pggat.Rbtree
open Pggat.Base
variable {K V : Type}

/-- The last value set for each key and not deleted since. -/
def contents [LinearOrder K] (ops : List (Op K V)) : K → Option V := ops.foldl (fun m op => op.change m) fun _ => none

namespace Tree

theorem max_eq_getLast (n : Tree K V) : n.max = n.pairs.getLast? := by
  induction n with
  | nil => rfl
  | node id c k v l r _ ihr =>
    cases r with
    | nil => simp [max]
    | node id' c' k' v' l' r' =>
      have hne : (node id' c' k' v' l' r').pairs ≠ [] := by simp
      rw [max,ihr,pairs_node id,List.getLast?_append,List.getLast?_cons,List.getLast?_eq_some_getLast hne]
      rfl

variable [LinearOrder K] {n : Tree K V} {key : K}

theorem next_eq_head (ha : Ascending n.pairs) : n.next key = (n.pairs.filter (key < ·.1)).head? := by
  induction n with
  | nil => rfl
  | node id c k v l r ihl ihr =>
    rw [pairs_node] at ha ⊢
    obtain ⟨hal,har,hl,hr⟩ := Ascending.middle_iff.mp ha
    rw [next,List.filter_append]
    rcases lt_trichotomy k key with hk | rfl | hk
    · have hnone := (filter_lt_of_lt fun p hp => (hl p hp).trans hk).2
      rw [if_neg hk.ne,if_pos hk,ihr har,hnone,List.nil_append,List.filter_cons_of_neg (by simpa using hk.le)]
    · rw [if_pos rfl,min_eq_head,(filter_lt_of_lt hl).2,List.nil_append,List.filter_cons_of_neg (by simp),
        (filter_lt_of_gt hr).2]
    · rw [if_neg hk.ne',if_neg hk.not_gt,ihl hal,List.head?_append,List.filter_cons_of_pos (by simpa using hk),
        List.head?_cons]

theorem prev_eq_getLast (ha : Ascending n.pairs) : n.prev key = (n.pairs.filter (·.1 < key)).getLast? := by
  induction n with
  | nil => rfl
  | node id c k v l r ihl ihr =>
    rw [pairs_node] at ha ⊢
    obtain ⟨hal,har,hl,hr⟩ := Ascending.middle_iff.mp ha
    rw [prev,List.filter_append]
    rcases lt_trichotomy k key with hk | rfl | hk
    · rw [if_neg hk.ne,if_neg hk.not_gt,ihr har,List.getLast?_append,List.filter_cons_of_pos (by simpa using hk)]
      cases hf : r.pairs.filter (·.1 < key) with
      | nil => simp
      | cons e es => simp [List.getLast?_cons]
    · rw [if_pos rfl,max_eq_getLast,List.filter_cons_of_neg (by simp),(filter_lt_of_gt hr).1,List.append_nil,
        (filter_lt_of_lt hl).1]
    · have hnone := (filter_lt_of_gt fun p hp => hk.trans (hr p hp)).1
      rw [if_neg hk.ne',if_pos hk,ihl hal,List.filter_cons_of_neg (by simpa using hk.le),hnone,List.append_nil]

end Tree

namespace RBTree
variable [LinearOrder K] {T : RBTree K V} {m : K → Option V}

/-- `for k, v, ok := T.Min(); ok; k, v, ok = T.Next(k)`, with a bound on the number of turns. -/
def iterate (T : RBTree K V) : Nat → Option (K × V) → Option (List (K × V))
  | _, none => some []
  | 0, some _ => none
  | turns+1, some e => (T.iterate turns (T.next e.1)).map (e :: ·)

private theorem Inv.get_eq (hT : T.Inv) (hm : Represents m T.root.pairs) (key : K) : T.get key = m key := by
  apply Option.ext
  intro v
  rw [RBTree.get,Tree.get_eq_some_iff hT.ascending,hm]

private theorem Inv.min_foremost (hT : T.Inv) (hm : Represents m T.root.pairs) :
    Foremost (· ≤ ·) m (fun _ => True) T.min := by
  have h : Foremost (· ≤ ·) m (fun _ => True) (T.root.pairs.filter fun _ => decide True).head? :=
    foremost_head hm hT.ascending
  rwa [List.filter_eq_self.mpr (by simp),← Tree.min_eq_head] at h

private theorem Inv.max_foremost (hT : T.Inv) (hm : Represents m T.root.pairs) :
    Foremost (· ≥ ·) m (fun _ => True) T.max := by
  have h : Foremost (· ≥ ·) m (fun _ => True) (T.root.pairs.filter fun _ => decide True).getLast? :=
    foremost_getLast hm hT.ascending
  rwa [List.filter_eq_self.mpr (by simp),← Tree.max_eq_getLast] at h

private theorem Inv.next_foremost (hT : T.Inv) (hm : Represents m T.root.pairs) (key : K) :
    Foremost (· ≤ ·) m (key < ·) (T.next key) := by
  rw [RBTree.next,Tree.next_eq_head hT.ascending]
  exact foremost_head hm hT.ascending

private theorem Inv.prev_foremost (hT : T.Inv) (hm : Represents m T.root.pairs) (key : K) :
    Foremost (· ≥ ·) m (· < key) (T.prev key) := by
  rw [RBTree.prev,Tree.prev_eq_getLast hT.ascending]
  exact foremost_getLast hm hT.ascending

private theorem Inv.iterate_eq (hT : T.Inv) {ps qs : List (K × V)} (he : T.root.pairs = ps ++ qs) :
    T.iterate qs.length qs.head? = some qs := by
  induction qs generalizing ps with
  | nil => rfl
  | cons e qs ih =>
    have ha := he ▸ hT.ascending
    obtain ⟨-,-,hps,hqs⟩ := Ascending.middle_iff.mp ha
    have hnext : T.next e.1 = qs.head? := by
      rw [RBTree.next,Tree.next_eq_head hT.ascending,he,List.filter_append,(filter_lt_of_lt hps).2,
        List.nil_append,List.filter_cons_of_neg (by simp),(filter_lt_of_gt hqs).2]
    rw [List.length_cons,List.head?_cons,iterate,hnext,ih (by rw [he, List.append_cons]),Option.map_some]

end RBTree

/-- After every sequence of calls the queries answer as the sorted map does that the calls have made. -/
theorem calls_sort [LinearOrder K] (ops : List (Op K V)) :
    ∃ T, ({} : RBTree K V).applyAll ops = some T ∧
      (∀ key, T.get key = contents ops key) ∧
      Foremost (· ≤ ·) (contents ops) (fun _ => True) T.min ∧
      Foremost (· ≥ ·) (contents ops) (fun _ => True) T.max ∧
      (∀ key, Foremost (· ≤ ·) (contents ops) (key < ·) (T.next key)) ∧
      (∀ key, Foremost (· ≥ ·) (contents ops) (· < key) (T.prev key)) ∧
      ∃ turns es, T.iterate turns T.min = some es ∧ Ascending es ∧ Represents (contents ops) es := by
  obtain ⟨T,h,hT,hm⟩ := RBTree.inv_empty.applyAll RBTree.represents_empty ops
  refine ⟨T,h,hT.get_eq hm,hT.min_foremost hm,hT.max_foremost hm,hT.next_foremost hm,hT.prev_foremost hm,
    T.root.pairs.length,T.root.pairs,?_,hT.ascending,hm⟩
  rw [RBTree.min,Tree.min_eq_head]
  exact hT.iterate_eq (List.nil_append _).symm

end Pggat.Rbtree
