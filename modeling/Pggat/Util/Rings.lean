import Pggat.Base.Cells
import Pggat.Util.Ring

/-! Rings of several holders. A ring is a value, but its buffer is on the heap: an operation writes into the buffer, or
into a new one when the ring grows. -/
namespace Pggat.Util
open Base

structure Rings (α : Type) where
  bufs : Cells (List α) := .vacant []
  head : Nat → Nat := fun _ => 0
  tail : Nat → Nat := fun _ => 0
  length : Nat → Nat := fun _ => 0

namespace Rings
variable {α : Type} (R : Rings α)

def ring (i : Nat) : Ring α where
  buf := (R.bufs.get i).getD []
  head := R.head i
  tail := R.tail i
  length := R.length i

/-- The ring of a holder after an operation. Only growth changes the size of the buffer. -/
def save (i : Nat) (r : Ring α) : Rings α where
  bufs := if r.buf.length = (R.ring i).buf.length then R.bufs.write i r.buf else R.bufs.make i r.buf
  head := Function.update R.head i r.head
  tail := Function.update R.tail i r.tail
  length := Function.update R.length i r.length

def items (i : Nat) : List α := (R.ring i).items

def clear (i : Nat) : Rings α := R.save i (R.ring i).clear

def Wf : Prop := ∀ i, (R.ring i).Wf

theorem save_self (i : Nat) (r : Ring α) : (R.save i r).ring i = r := by
  have buf : ((R.save i r).bufs.get i).getD [] = r.buf := by
    rw [save]
    split
    · rename_i same
      rw [Cells.get_write_self]
      cases hi : R.bufs.get i with
      | none =>
        rw [ring,hi] at same
        exact (List.length_eq_zero_iff.mp same).symm
      | some _ => rfl
    · rw [Cells.get_make_self]
      rfl
  rw [ring,buf]
  simp [save]

variable {i j : Nat}

theorem save_of_ne (r : Ring α) (h : j ≠ i) : (R.save i r).ring j = R.ring j := by
  have buf : (R.save i r).bufs.get j = R.bufs.get j := by
    rw [save]
    split
    · exact Cells.get_write_of_ne _ _ h
    · exact Cells.get_make_of_ne _ _ h
  rw [ring,buf]
  simp [save,ring,h]

variable {R}

variable {r : Ring α}

private theorem Wf.save (h : R.Wf) (i : Nat) (hr : r.Wf) : (R.save i r).Wf := by
  intro j
  by_cases e : j = i
  · rw [e,R.save_self]
    exact hr
  · rw [R.save_of_ne r e]
    exact h j

/-- The ring of one holder has changed to one with these items. -/
structure Becomes (R R' : Rings α) (i : Nat) (l : List α) : Prop where
  wf : R'.Wf
  items : R'.items i = l
  others : ∀ j ≠ i, R'.ring j = R.ring j

theorem Becomes.save (h : R.Wf) (i : Nat) (hr : r.Wf) : Becomes R (R.save i r) i r.items where
  wf := h.save i hr
  items := congrArg Ring.items (R.save_self i r)
  others _ ne := R.save_of_ne r ne

theorem Becomes.others_items {R' : Rings α} {l : List α} (h : Becomes R R' i l) (ne : j ≠ i) :
    R'.items j = R.items j :=
  congrArg Ring.items (h.others j ne)

theorem Wf.clear (h : R.Wf) (i : Nat) : Becomes R (R.clear i) i [] := by
  have saved := Becomes.save h i (R.ring i).wf_clear
  rwa [Ring.items_clear] at saved

theorem wf_empty : ({} : Rings α).Wf := fun _ => Ring.wf_empty

variable [Inhabited α]

def pushBack (R : Rings α) (i : Nat) (value : α) : Option (Rings α) := ((R.ring i).pushBack value).map (R.save i)

def popFront (R : Rings α) (i : Nat) : Option (Option α × Rings α) :=
  (R.ring i).popFront.map fun p => (p.1,R.save i p.2)

/-- What another ring has at an index is pushed. -/
def pushNth (i j : Nat) (R : Rings α) (n : Nat) : Option (Rings α) := ((R.ring j).get n).bind (R.pushBack i)

/-- What another ring holds is pushed, from its front on. -/
def pushAll (R : Rings α) (i j : Nat) : Option (Rings α) := (List.range (R.length j)).foldlM (pushNth i j) R

theorem Wf.pushBack (h : R.Wf) (i : Nat) (value : α) :
    ∃ R', R.pushBack i value = some R' ∧ Becomes R R' i (R.items i ++ [value]) := by
  obtain ⟨r,hr,wf,items⟩ := (h i).pushBack value
  have saved := Becomes.save h i wf
  rw [items] at saved
  exact ⟨_,by rw [Rings.pushBack,hr,Option.map_some],saved⟩

theorem Wf.popFront (h : R.Wf) (i : Nat) :
    ∃ R', R.popFront i = some ((R.items i).head?,R') ∧ Becomes R R' i (R.items i).tail := by
  obtain ⟨r,hr,wf,items⟩ := (h i).popFront
  have saved := Becomes.save h i wf
  rw [items] at saved
  exact ⟨_,by rw [Rings.popFront,hr,Option.map_some]; rfl,saved⟩

private theorem Wf.pushAll_take (h : R.Wf) (ne : j ≠ i) (k : Nat) (hk : k ≤ R.length j) :
    ∃ R', (List.range k).foldlM (pushNth i j) R = some R' ∧
      Becomes R R' i (R.items i ++ (R.items j).take k) := by
  induction k with
  | zero => exact ⟨R,rfl,h,by rw [List.take_zero,List.append_nil],fun _ _ => rfl⟩
  | succ k ih =>
    obtain ⟨R₁,pushed,becomes⟩ := ih (Nat.le_of_succ_le hk)
    have fits := (h j).toFits
    have next : k < (R.items j).length := by
      rw [items,fits.length_items]
      exact hk
    have got : (R₁.ring j).get k = some ((R.items j)[k]) := by
      rw [becomes.others j ne,fits.get (Int.natCast_nonneg k),Int.toNat_natCast]
      exact List.getElem?_eq_getElem next
    obtain ⟨R₂,last,becomes₂⟩ := becomes.wf.pushBack i ((R.items j)[k])
    refine ⟨R₂,?_,becomes₂.wf,?_,fun l hl => (becomes₂.others l hl).trans (becomes.others l hl)⟩
    · rw [List.range_succ,List.foldlM_append,pushed]
      simp [pushNth,got,last]
    · rw [becomes₂.items,becomes.items,List.append_assoc,List.take_succ_eq_append_getElem next]

theorem Wf.pushAll (h : R.Wf) (ne : j ≠ i) :
    ∃ R', R.pushAll i j = some R' ∧ Becomes R R' i (R.items i ++ R.items j) := by
  obtain ⟨R',pushed,becomes⟩ := h.pushAll_take ne (R.length j) (Nat.le_refl _)
  have length : (R.items j).length ≤ R.length j := Nat.le_of_eq (h j).toFits.length_items
  rw [List.take_of_length_le length] at becomes
  exact ⟨R',pushed,becomes⟩

end Rings
end Pggat.Util
