import Mathlib.Data.List.Basic
import Mathlib.Logic.Function.Basic

/-! Slices that share their arrays, as in Go. Every slice starts at the first cell of its array, and the array with
number 0 is empty. -/
namespace Pggat.Base

structure Slice where
  array : Nat := 0
  len : Nat := 0
  deriving DecidableEq, Repr

/-- The arrays made so far, with all their cells. -/
structure Arrays (α : Type) where
  cells : Nat → List α := fun _ => []
  next : Nat := 1

namespace Arrays
variable {α : Type} (h : Arrays α) (s : Slice)

def read : List α := (h.cells s.array).take s.len

/-- Overwrite the cells of a slice. -/
def write (l : List α) : Arrays α :=
  { h with cells := Function.update h.cells s.array (l ++ (h.cells s.array).drop s.len) }

/-- `append` of one element. If the array is full, the elements move to a new one that has `spare` cells more. -/
def append (x : α) (spare : List α) : Arrays α × Slice :=
  if s.len < (h.cells s.array).length then
    ({ h with cells := Function.update h.cells s.array ((h.cells s.array).set s.len x) },⟨s.array,s.len + 1⟩)
  else
    ({ cells := Function.update h.cells h.next (h.read s ++ x :: spare), next := h.next + 1 },⟨h.next,s.len + 1⟩)

/-- `slices.Remove`: the cells after the element move up, and the element moves to the last cell. -/
def remove [DecidableEq α] (x : α) : Arrays α × Slice :=
  if x ∈ h.read s then (h.write s ((h.read s).erase x ++ [x]),⟨s.array,s.len - 1⟩) else (h,s)

/-- The slice lies within an array that was made. -/
structure Valid : Prop where
  made : s.array < h.next
  fits : s.len ≤ (h.cells s.array).length

variable {h s}

theorem Valid.length_read (hv : h.Valid s) : (h.read s).length = s.len := by
  rw [read,List.length_take]
  exact Nat.min_eq_left hv.fits

theorem cells_write (l : List α) : (h.write s l).cells s.array = l ++ (h.cells s.array).drop s.len :=
  Function.update_self ..

variable {l : List α}

private theorem Valid.length_write (hv : h.Valid s) (hl : l.length = s.len) :
    ((h.write s l).cells s.array).length = (h.cells s.array).length := by
  have fits := hv.fits
  rw [cells_write,List.length_append,List.length_drop,hl]
  omega

theorem read_write (hl : l.length = s.len) : (h.write s l).read s = l := by
  rw [read,cells_write,← hl,List.take_left']
  rfl

theorem Valid.write (hv : h.Valid s) (hl : l.length = s.len) : (h.write s l).Valid s :=
  ⟨hv.made,(hv.length_write hl).symm ▸ hv.fits⟩

theorem Valid.shorten (hv : h.Valid s) (n : Nat) (hn : n ≤ s.len) : h.Valid ⟨s.array,n⟩ :=
  ⟨hv.made,Nat.le_trans hn hv.fits⟩

theorem read_shorten {n : Nat} (hn : n ≤ s.len) : h.read ⟨s.array,n⟩ = (h.read s).take n := by
  rw [read,read,List.take_take,Nat.min_eq_left hn]

theorem Valid.append (hv : h.Valid s) (x : α) (spare : List α) :
    (h.append s x spare).1.Valid (h.append s x spare).2 := by
  rw [Arrays.append]
  split
  · rename_i room
    exact ⟨hv.made,by simpa using Nat.succ_le_of_lt room⟩
  · refine ⟨Nat.lt_succ_self _,?_⟩
    simp only [Function.update_self,List.length_append,hv.length_read,List.length_cons]
    omega

theorem Valid.read_append (hv : h.Valid s) (x : α) (spare : List α) :
    (h.append s x spare).1.read (h.append s x spare).2 = h.read s ++ [x] := by
  rw [Arrays.append]
  split
  · rename_i room
    simp only [read,Function.update_self]
    rw [List.take_add_one,List.take_set_of_le (Nat.le_refl _)]
    simp [room]
  · have hl := hv.length_read
    simp only [read,Function.update_self] at hl ⊢
    rw [List.take_append,hl,Nat.add_sub_cancel_left]
    simp [List.take_of_length_le,hl]

variable {s' : Slice}

/-- An element appended to one slice is not seen through another that is no longer. -/
theorem read_append_other (made : s'.array < h.next)
    (hs : s'.array = s.array → s'.len ≤ s.len) (x : α) (spare : List α) :
    (h.append s x spare).1.read s' = h.read s' := by
  rw [Arrays.append]
  split
  · by_cases same : s'.array = s.array
    · simp only [read,same,Function.update_self]
      exact List.take_set_of_le (hs same)
    · simp only [read,Function.update_of_ne same]
  · simp only [read,Function.update_of_ne (Nat.ne_of_lt made)]

theorem Valid.append_other (hv : h.Valid s') (x : α) (spare : List α) :
    (h.append s x spare).1.Valid s' := by
  rw [Arrays.append]
  split
  · refine ⟨hv.made,?_⟩
    by_cases same : s'.array = s.array
    · simpa [same] using same ▸ hv.fits
    · simpa [same] using hv.fits
  · exact ⟨Nat.lt_succ_of_lt hv.made,by simpa [Nat.ne_of_lt hv.made] using hv.fits⟩

theorem len_append_other (made : s'.array < h.next) (hs : s'.array = s.array → s'.len ≤ s.len) (x : α)
    (spare : List α) (same : s'.array = (h.append s x spare).2.array) : s'.len ≤ (h.append s x spare).2.len := by
  rw [Arrays.append] at same ⊢
  split at same
  · rename_i room
    simp only [room,if_true]
    exact Nat.le_succ_of_le (hs same)
  · exact absurd same (Nat.ne_of_lt made)

variable {y : α} {a : Nat}

/-- What appending leaves in any array was there before or is new. -/
theorem mem_cells_append {x : α} {spare : List α} (hy : y ∈ (h.append s x spare).1.cells a) :
    (∃ a', y ∈ h.cells a') ∨ y = x ∨ y ∈ spare := by
  rw [Arrays.append] at hy
  split at hy
  · by_cases same : a = s.array
    · simp only [same,Function.update_self] at hy
      rcases List.mem_or_eq_of_mem_set hy with hy | rfl
      · exact .inl ⟨_,hy⟩
      · exact .inr (.inl rfl)
    · simp only [Function.update_of_ne same] at hy
      exact .inl ⟨a,hy⟩
  · by_cases new : a = h.next
    · simp only [new,Function.update_self] at hy
      rcases List.mem_append.mp hy with hy | hy
      · exact .inl ⟨_,List.mem_of_mem_take hy⟩
      · exact .inr (List.mem_cons.mp hy)
    · simp only [Function.update_of_ne new] at hy
      exact .inl ⟨a,hy⟩

theorem mem_cells_write (hy : y ∈ (h.write s l).cells a) :
    (∃ a', y ∈ h.cells a') ∨ y ∈ l := by
  by_cases same : a = s.array
  · rw [same,cells_write] at hy
    rcases List.mem_append.mp hy with hy | hy
    · exact .inr hy
    · exact .inl ⟨_,List.mem_of_mem_drop hy⟩
  · simp only [write,Function.update_of_ne same] at hy
    exact .inl ⟨a,hy⟩

section Remove
variable [DecidableEq α] {x : α}

theorem length_remove (hx : x ∈ h.read s) (hv : h.Valid s) : ((h.read s).erase x ++ [x]).length = s.len := by
  have pos := List.length_pos_of_mem hx
  rw [List.length_append,List.length_erase_of_mem hx,List.length_singleton,← hv.length_read]
  omega

theorem Valid.remove (hv : h.Valid s) (x : α) : (h.remove s x).1.Valid (h.remove s x).2 := by
  rw [Arrays.remove]
  split
  · rename_i hx
    exact (hv.write (length_remove hx hv)).shorten _ (Nat.sub_le ..)
  · exact hv

theorem Valid.read_remove (hv : h.Valid s) (x : α) :
    (h.remove s x).1.read (h.remove s x).2 = (h.read s).erase x := by
  rw [Arrays.remove]
  split
  · rename_i hx
    have length : ((h.read s).erase x).length = s.len - 1 := by rw [List.length_erase_of_mem hx,hv.length_read]
    rw [read_shorten (Nat.sub_le ..),read_write (length_remove hx hv),List.take_left' length]
  · rename_i hx
    exact (List.erase_of_not_mem hx).symm

theorem mem_cells_remove {y : α} {a : Nat} (hy : y ∈ (h.remove s x).1.cells a) : ∃ a', y ∈ h.cells a' := by
  rw [Arrays.remove] at hy
  split at hy
  · rename_i hx
    rcases mem_cells_write hy with hy | hy
    · exact hy
    · refine ⟨s.array,List.mem_of_mem_take (i := s.len) ?_⟩
      rcases List.mem_append.mp hy with hy | hy
      · exact List.mem_of_mem_erase hy
      · exact List.mem_singleton.mp hy ▸ hx
  · exact ⟨a,hy⟩

end Remove
end Arrays
end Pggat.Base
