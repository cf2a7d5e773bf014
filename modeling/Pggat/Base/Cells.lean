import Pggat.Base.Maps

/-! Objects on a heap that holders refer to, each by a reference of its own or by none. What one holder does to its
object is invisible to the others. -/
namespace Pggat.Base

/-- `own` are the references of the holders. No two holders have the same one. -/
structure Cells (β : Type) where
  heap : Nat → β
  next : Nat
  own : Nat → Option Nat
  bounded : ∀ i p, own i = some p → p < next
  apart : ∀ i j p, own i = some p → own j = some p → i = j

namespace Cells
variable {β : Type} (c : Cells β)

def vacant (b : β) : Cells β := ⟨fun _ => b,0,fun _ => none,nofun,nofun⟩

def get (i : Nat) : Option β := (c.own i).map c.heap

def write (i : Nat) (b : β) : Cells β :=
  { c with heap := (c.own i).elim c.heap fun p => Function.update c.heap p b }

def make (i : Nat) (b : β) : Cells β where
  heap := Function.update c.heap c.next b
  next := c.next + 1
  own := Function.update c.own i (some c.next)
  bounded j p h := by
    by_cases e : j = i
    · rw [e,Function.update_self] at h
      cases h
      exact Nat.lt_succ_self _
    · rw [Function.update_of_ne e] at h
      exact Nat.lt_trans (c.bounded j p h) (Nat.lt_succ_self _)
  apart j k p hj hk := by
    have fresh (j : Nat) : c.own j ≠ some c.next := fun h => absurd (c.bounded j _ h) (Nat.lt_irrefl _)
    by_cases ej : j = i <;> by_cases ek : k = i
    · rw [ej,ek]
    · rw [ej,Function.update_self] at hj
      rw [Function.update_of_ne ek,← hj] at hk
      exact absurd hk (fresh k)
    · rw [ek,Function.update_self] at hk
      rw [Function.update_of_ne ej,← hk] at hj
      exact absurd hj (fresh j)
    · rw [Function.update_of_ne ej] at hj
      rw [Function.update_of_ne ek] at hk
      exact c.apart j k p hj hk

theorem get_write_self (i : Nat) (b : β) : (c.write i b).get i = (c.get i).map fun _ => b := by
  cases hi : c.own i with
  | none => simp [get,write,hi]
  | some p => simp [get,write,hi]

variable {i j : Nat}

theorem get_write_of_ne (b : β) (h : j ≠ i) : (c.write i b).get j = c.get j := by
  cases hi : c.own i with
  | none => simp [get,write,hi]
  | some p =>
    cases hj : c.own j with
    | none => simp [get,write,hj]
    | some q =>
      have ne : q ≠ p := fun e => h (c.apart j i q hj (e ▸ hi))
      simp [get,write,hi,hj,ne]

theorem get_make_self (i : Nat) (b : β) : (c.make i b).get i = some b := by
  simp [get,make]

theorem get_make_of_ne (b : β) (h : j ≠ i) : (c.make i b).get j = c.get j := by
  simp only [get,make,Function.update_of_ne h]
  cases hj : c.own j with
  | none => rfl
  | some q => exact congrArg some (Function.update_of_ne (Nat.ne_of_lt (c.bounded j q hj)) b c.heap)

end Cells

/-- Maps of several holders. A map that has not been made is empty. -/
abbrev Tables (K V : Type) := Cells (Map K V)

namespace Tables
variable {K V : Type} (c : Tables K V)

def table (i : Nat) : Map K V := (c.get i).getD ∅

def clear (i : Nat) : Tables K V := c.write i ∅

def ensure (i : Nat) : Tables K V := if (c.get i).isSome then c else c.make i ∅

variable {i j : Nat}

theorem table_write_of_ne (m : Map K V) (h : j ≠ i) : table (c.write i m) j = table c j := by
  rw [table,c.get_write_of_ne m h]; rfl

theorem table_write_self {m : Map K V} (h : c.get i = none → m = ∅) : table (c.write i m) i = m := by
  rw [table,c.get_write_self]
  cases hi : c.get i with
  | none => exact (h hi).symm
  | some _ => rfl

theorem table_clear (i : Nat) : table (clear c i) i = ∅ := table_write_self c fun _ => rfl

theorem table_ensure (i j : Nat) : table (ensure c i) j = table c j := by
  rw [ensure]
  split
  · rfl
  · rename_i absent
    by_cases e : j = i
    · rw [Option.not_isSome_iff_eq_none] at absent
      rw [e,table,table,c.get_make_self,absent]
      rfl
    · rw [table,c.get_make_of_ne _ e]
      rfl

private theorem isSome_ensure (i : Nat) : ((ensure c i).get i).isSome := by
  rw [ensure]
  split
  · assumption
  · rw [c.get_make_self]
    rfl

variable [DecidableEq K]

def remove (i : Nat) (k : K) : Tables K V := c.write i ((table c i).erase k)

def store (i : Nat) (k : K) (v : V) : Tables K V :=
  (ensure c i).write i ((table (ensure c i) i).insert k v)

theorem table_remove (i : Nat) (k : K) : table (remove c i k) i = (table c i).erase k := by
  refine table_write_self c fun h => ?_
  rw [table,h]
  rfl

theorem table_store (i : Nat) (k : K) (v : V) : table (store c i k v) i = (table c i).insert k v := by
  have made := isSome_ensure c i
  rw [store,table_write_self _ fun h => by simp [h] at made,table_ensure]

theorem table_store_of_ne (k : K) (v : V) (h : j ≠ i) : table (store c i k v) j = table c j := by
  rw [store,table_write_of_ne _ _ h,table_ensure]

def storeAll (i : Nat) (l : List (Sigma fun _ : K => V)) : Tables K V := l.foldl (fun c e => store c i e.1 e.2) c

theorem table_storeAll_of_ne (h : j ≠ i) (l : List (Sigma fun _ : K => V)) :
    table (storeAll c i l) j = table c j := by
  induction l generalizing c with
  | nil => rfl
  | cons e l ih => exact (ih (store c i e.1 e.2)).trans (table_store_of_ne c _ _ h)

/-- Entries with distinct keys replace what there was. -/
theorem get_storeAll (i : Nat) {l : List (Sigma fun _ : K => V)} (distinct : l.NodupKeys) (k : K) :
    (table (storeAll c i l) i).get k = (l.dlookup k).or ((table c i).get k) := by
  induction l generalizing c with
  | nil => rfl
  | cons e l ih =>
    obtain ⟨k',v⟩ := e
    obtain ⟨absent,distinct⟩ := List.nodupKeys_cons.mp distinct
    rw [storeAll,List.foldl_cons]
    refine (ih (store c i k' v) distinct).trans ?_
    rw [table_store,Map.get_insert]
    by_cases hk : k = k'
    · subst hk
      rw [List.dlookup_eq_none.mpr absent,List.dlookup_cons_eq,if_pos rfl]
      rfl
    · rw [List.dlookup_cons_ne _ _ hk,if_neg hk]

theorem get_storeAll_entries (i : Nat) (m : Map K V) (h : table c i = ∅) (k : K) :
    (table (storeAll c i m.entries) i).get k = m.get k := by
  rw [get_storeAll c i m.nodupKeys,h]
  exact Option.or_none

end Tables
end Pggat.Base
