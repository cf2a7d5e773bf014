import Pggat.Base.Circular

/-! `ring.Ring`, a queue in a buffer that wraps around and grows. An index out of range, or another panic, is `none`. -/
namespace Pggat.Util
open Base

structure Ring (α : Type) where
  buf : List α := []
  head : Nat := 0
  tail : Nat := 0
  length : Nat := 0
  deriving DecidableEq, Repr

namespace Ring
variable {α : Type} [Inhabited α]

def makeRing (length capacity : Nat) : Option (Ring α) :=
  if capacity < length then none
  else some { buf := List.replicate capacity default, tail := length, length := length }

/-- The old buffer is copied from its head on. -/
def grow (r : Ring α) : Option (Ring α) :=
  let size := if r.buf.length * 2 = 0 then 2 else r.buf.length * 2
  if r.head ≤ r.buf.length then
    some { r with
      buf := r.buf.drop r.head ++ r.buf.take r.head ++ List.replicate (size - r.buf.length) default
      head := 0
      tail := r.length }
  else none

def store (r : Ring α) (i : Nat) (value : α) : Option (Ring α) :=
  if i < r.buf.length then some { r with buf := r.buf.set i value } else none

def incHead (r : Ring α) : Option (Ring α) :=
  if r.length = 0 then none
  else some { r with length := r.length - 1, head := Circular.next r.head r.buf.length }

def decHead (r : Ring α) : Option (Ring α) :=
  (if r.length = r.buf.length then r.grow else some r).map fun r =>
    { r with length := r.length + 1, head := Circular.prev r.head r.buf.length }

def incTail (r : Ring α) : Option (Ring α) :=
  (if r.length = r.buf.length then r.grow else some r).map fun r =>
    { r with length := r.length + 1, tail := Circular.next r.tail r.buf.length }

def decTail (r : Ring α) : Option (Ring α) :=
  if r.length = 0 then none
  else some { r with length := r.length - 1, tail := Circular.prev r.tail r.buf.length }

def tailSub1 (r : Ring α) : Nat := Circular.prev r.tail r.buf.length

def popFront (r : Ring α) : Option (Option α × Ring α) :=
  if r.length = 0 then some (none,r)
  else r.buf[r.head]?.bind fun front => ((r.store r.head default).bind incHead).map (some front,·)

def popBack (r : Ring α) : Option (Option α × Ring α) :=
  if r.length = 0 then some (none,r)
  else r.decTail.bind fun r => r.buf[r.tail]?.bind fun back => (r.store r.tail default).map (some back,·)

def clear (r : Ring α) : Ring α := { r with head := 0, tail := 0, length := 0 }

def pushFront (r : Ring α) (value : α) : Option (Ring α) := r.decHead.bind fun r => r.store r.head value

def pushBack (r : Ring α) (value : α) : Option (Ring α) := r.incTail.bind fun r => r.store r.tailSub1 value

/-- The buffer at an integer index. -/
def load (r : Ring α) (i : Int) : Option α := if i < 0 then none else r.buf[i.toNat]?

def get (r : Ring α) (n : Int) : Option α :=
  if r.length ≤ n then none
  else
    let ptr := r.head + n
    r.load (if r.buf.length ≤ ptr then ptr - r.buf.length else ptr)

/-- What the ring holds, from front to back. -/
def items (r : Ring α) : List α := Circular.window r.buf r.head r.length

def back (r : Ring α) : Nat := Circular.slot r.head r.length r.buf.length

/-- The length fits into the buffer and the head is in it. -/
structure Fits (r : Ring α) : Prop where
  length : r.length ≤ r.buf.length
  head : r.head < r.buf.length ∨ r.head = 0 ∧ r.buf.length = 0

/-- Besides, the tail is behind the last item. -/
structure Wf (r : Ring α) : Prop extends r.Fits where
  tail : r.tail = r.back

/-- Nothing happened at the back. -/
structure SameBack (r r' : Ring α) : Prop where
  tail : r'.tail = r.tail
  back : r'.back = r.back
  size : r'.buf.length = r.buf.length

section Facts
omit [Inhabited α]
variable {r r' : Ring α}

theorem wf_empty : ({} : Ring α).Wf := ⟨⟨Nat.le_refl _,.inr ⟨rfl,rfl⟩⟩,rfl⟩

theorem Fits.length_items (h : r.Fits) : r.items.length = r.length := Circular.length_window h.length

theorem Fits.items_eq_nil (h : r.Fits) : r.items = [] ↔ r.length = 0 := by
  rw [← List.length_eq_zero_iff,h.length_items]

theorem Fits.head_lt (h : r.Fits) (hn : 0 < r.buf.length) : r.head < r.buf.length := by
  have := h.head
  omega

theorem Fits.size_pos (h : r.Fits) (h0 : r.length ≠ 0) : 0 < r.buf.length := by
  have := h.length
  omega

theorem Wf.of_sameBack (h : r.Wf) (hf : r'.Fits) (hs : SameBack r r') : r'.Wf :=
  ⟨hf,by rw [hs.tail,h.tail,hs.back]⟩

theorem Wf.prev_tail (h : r.Wf) (h0 : r.length ≠ 0) :
    Circular.prev r.tail r.buf.length = Circular.slot r.head (r.length - 1) r.buf.length := by
  rw [h.tail,back,Circular.slot_pred (h.head_lt (h.size_pos h0)) (Nat.pos_of_ne_zero h0) h.length]

end Facts

variable {r : Ring α}

omit [Inhabited α] in
theorem store_of_lt {i : Nat} (hi : i < r.buf.length) (value : α) :
    r.store i value = some { r with buf := r.buf.set i value } := if_pos hi

theorem Fits.grow (h : r.Fits) (hfull : r.length = r.buf.length) :
    ∃ s, r.grow = some s ∧ s.Wf ∧ s.items = r.items ∧ s.length = r.length ∧ s.length < s.buf.length := by
  have hhead : r.head ≤ r.buf.length := by
    have := h.head
    omega
  obtain ⟨size,hsize,hlt⟩ : ∃ size, (if r.buf.length * 2 = 0 then 2 else r.buf.length * 2) = size ∧
      r.buf.length < size := by
    refine ⟨_,rfl,?_⟩
    split
    · omega
    · omega
  let buf := r.buf.drop r.head ++ r.buf.take r.head ++ List.replicate (size - r.buf.length) (default : α)
  have hlen : buf.length = size := by
    simp only [buf,List.length_append,List.length_drop,List.length_take,List.length_replicate]
    omega
  let s : Ring α := { r with buf := buf, head := 0, tail := r.length }
  have hroom : s.length < s.buf.length := by
    show r.length < buf.length
    omega
  refine ⟨s,?_,⟨⟨Nat.le_of_lt hroom,.inl (Nat.zero_lt_of_lt hroom)⟩,?_⟩,?_,rfl,hroom⟩
  · rw [Ring.grow,if_pos hhead]
    simp only [hsize]
    rfl
  · show r.length = Circular.slot 0 r.length buf.length
    have := Circular.slot_cases 0 r.length buf.length
    omega
  · exact Circular.window_rebase _ h.length

variable {s : Ring α}

theorem pushBack_full (hfull : r.length = r.buf.length) (hg : r.grow = some s)
    (hroom : s.length < s.buf.length) (value : α) : r.pushBack value = s.pushBack value := by
  simp only [Ring.pushBack,incTail,if_pos hfull,if_neg (Nat.ne_of_lt hroom),hg]

theorem pushFront_full (hfull : r.length = r.buf.length) (hg : r.grow = some s)
    (hroom : s.length < s.buf.length) (value : α) : r.pushFront value = s.pushFront value := by
  simp only [Ring.pushFront,decHead,if_pos hfull,if_neg (Nat.ne_of_lt hroom),hg]

theorem pushBack_room (hroom : r.length < r.buf.length) (value : α) :
    r.pushBack value = store { r with length := r.length + 1, tail := Circular.next r.tail r.buf.length }
      (Circular.prev (Circular.next r.tail r.buf.length) r.buf.length) value := by
  simp only [Ring.pushBack,incTail,if_neg (Nat.ne_of_lt hroom),Option.map_some,Option.bind_some,tailSub1]

private theorem Wf.pushBack_unfull (h : r.Wf) (hroom : r.length < r.buf.length) (value : α) :
    ∃ r', r.pushBack value = some r' ∧ r'.Wf ∧ r'.items = r.items ++ [value] := by
  have hhead := h.head_lt (Nat.zero_lt_of_lt hroom)
  have htail : r.tail < r.buf.length := h.tail ▸ Circular.slot_lt hhead h.length
  rw [pushBack_room hroom,Circular.prev_next htail,store_of_lt (by exact htail)]
  refine ⟨_,rfl,⟨⟨?_,?_⟩,?_⟩,?_⟩
  · rw [List.length_set]
    exact hroom
  · rw [List.length_set]
    exact .inl hhead
  · rw [back,List.length_set]
    show Circular.next r.tail _ = Circular.slot r.head (r.length + 1) _
    rw [Circular.slot_succ hhead hroom,h.tail,back]
  · rw [h.tail]
    exact Circular.window_append hhead hroom

theorem Wf.pushBack (h : r.Wf) (value : α) :
    ∃ r', r.pushBack value = some r' ∧ r'.Wf ∧ r'.items = r.items ++ [value] := by
  by_cases hfull : r.length = r.buf.length
  · obtain ⟨s,hs,hw,hitems,-,hroom⟩ := h.grow hfull
    rw [pushBack_full hfull hs hroom,← hitems]
    exact hw.pushBack_unfull hroom value
  · exact h.pushBack_unfull (Nat.lt_of_le_of_ne h.length hfull) value

theorem Fits.pushFront_unfull (h : r.Fits) (hroom : r.length < r.buf.length) (value : α) :
    ∃ r', r.pushFront value = some r' ∧ r'.Fits ∧ r'.items = value :: r.items ∧ SameBack r r' := by
  have hhead := h.head_lt (Nat.zero_lt_of_lt hroom)
  have hprev : Circular.prev r.head r.buf.length < r.buf.length :=
    Circular.prev_lt (Nat.zero_lt_of_lt hroom) (Nat.le_of_lt hhead)
  simp only [Ring.pushFront,decHead,if_neg (Nat.ne_of_lt hroom),Option.map_some,Option.bind_some]
  rw [store_of_lt (by exact hprev)]
  refine ⟨_,rfl,⟨?_,?_⟩,?_,⟨rfl,?_,List.length_set⟩⟩
  · rw [List.length_set]
    exact hroom
  · rw [List.length_set]
    exact .inl hprev
  · exact Circular.window_cons hhead hroom
  · rw [back,List.length_set]
    exact Circular.slot_prev hroom

theorem Wf.pushFront (h : r.Wf) (value : α) :
    ∃ r', r.pushFront value = some r' ∧ r'.Wf ∧ r'.items = value :: r.items := by
  obtain ⟨s,hs,hw,hitems,hroom⟩ : ∃ s, r.pushFront value = Ring.pushFront s value ∧ s.Wf ∧ s.items = r.items ∧
      s.length < s.buf.length := by
    by_cases hfull : r.length = r.buf.length
    · obtain ⟨s,hs,hw,hitems,-,hroom⟩ := h.grow hfull
      exact ⟨s,pushFront_full hfull hs hroom value,hw,hitems,hroom⟩
    · exact ⟨r,rfl,h,rfl,Nat.lt_of_le_of_ne h.length hfull⟩
  obtain ⟨r',hr,hf,hr',hsame⟩ := hw.pushFront_unfull hroom value
  exact ⟨r',hs.trans hr,hw.of_sameBack hf hsame,by rw [hr',hitems]⟩

theorem Fits.popFront (h : r.Fits) :
    ∃ r', r.popFront = some (r.items.head?,r') ∧ r'.Fits ∧ r'.items = r.items.tail ∧ SameBack r r' := by
  by_cases h0 : r.length = 0
  · have hnil := h.items_eq_nil.mpr h0
    refine ⟨r,?_,h,by rw [hnil,List.tail_nil],⟨rfl,rfl,rfl⟩⟩
    rw [hnil,Ring.popFront,if_pos h0,List.head?_nil]
  · have hhead := h.head_lt (h.size_pos h0)
    have hpos := Nat.pos_of_ne_zero h0
    have hlen := h.length
    have hfirst : r.items.head? = r.buf[r.head]? := Circular.head?_window hhead hpos hlen
    simp only [Ring.popFront,if_neg h0,store_of_lt hhead,Option.bind_some,incHead,Option.map_some,hfirst,
      List.getElem?_eq_getElem hhead,List.length_set]
    refine ⟨_,rfl,⟨?_,?_⟩,?_,⟨rfl,?_,List.length_set⟩⟩
    · rw [List.length_set]
      exact Nat.le_trans (Nat.sub_le ..) hlen
    · rw [List.length_set]
      exact .inl (Circular.next_lt hhead)
    · exact Circular.window_tail hhead hpos hlen
    · rw [back,List.length_set]
      show Circular.slot (Circular.next r.head _) (r.length - 1) _ = Circular.slot r.head r.length _
      rw [Circular.slot_next hhead (by omega),Nat.sub_add_cancel hpos]

theorem Wf.popFront (h : r.Wf) :
    ∃ r', r.popFront = some (r.items.head?,r') ∧ r'.Wf ∧ r'.items = r.items.tail := by
  obtain ⟨r',hr,hf,hitems,hsame⟩ := h.toFits.popFront
  exact ⟨r',hr,h.of_sameBack hf hsame,hitems⟩

theorem Fits.popBack (h : r.Fits) (h0 : r.length ≠ 0)
    (ht : Circular.prev r.tail r.buf.length = Circular.slot r.head (r.length - 1) r.buf.length) :
    ∃ r', r.popBack = some (r.items.getLast?,r') ∧ r'.Wf ∧ r'.items = r.items.dropLast := by
  have hhead := h.head_lt (h.size_pos h0)
  have hpos := Nat.pos_of_ne_zero h0
  have hlen := h.length
  have hlt : Circular.slot r.head (r.length - 1) r.buf.length < r.buf.length := Circular.slot_lt hhead (by omega)
  have hlast : r.items.getLast? = r.buf[Circular.slot r.head (r.length - 1) r.buf.length]? :=
    Circular.getLast?_window hhead hpos hlen
  simp only [Ring.popBack,if_neg h0,decTail,Option.bind_some,ht,hlast,List.getElem?_eq_getElem hlt]
  rw [store_of_lt (by exact hlt)]
  refine ⟨_,rfl,⟨⟨?_,?_⟩,?_⟩,?_⟩
  · rw [List.length_set]
    exact Nat.le_trans (Nat.sub_le ..) hlen
  · rw [List.length_set]
    exact .inl hhead
  · rw [back,List.length_set]
  · exact Circular.window_dropLast hhead hpos hlen

theorem popBack_empty (h0 : r.length = 0) : r.popBack = some (none,r) := if_pos h0

omit [Inhabited α] in
theorem wf_clear (r : Ring α) : r.clear.Wf := by
  refine ⟨⟨Nat.zero_le _,?_⟩,?_⟩
  · show 0 < r.buf.length ∨ 0 = 0 ∧ r.buf.length = 0
    omega
  · show 0 = Circular.slot 0 0 r.buf.length
    have := Circular.slot_cases 0 0 r.buf.length
    omega

omit [Inhabited α] in
@[simp] theorem items_clear (r : Ring α) : r.clear.items = [] := Circular.window_zero

omit [Inhabited α] in
private theorem load_natCast (r : Ring α) (i : Nat) : r.load i = r.buf[i]? := by
  rw [load,if_neg (by omega),Int.toNat_natCast]

omit [Inhabited α] in
theorem Fits.get (h : r.Fits) {n : Int} (hn : 0 ≤ n) : r.get n = r.items[n.toNat]? := by
  obtain ⟨i,rfl⟩ := Int.eq_ofNat_of_zero_le hn
  rw [Int.toNat_natCast,Ring.get]
  by_cases hi : r.length ≤ i
  · rw [if_pos (by omega),List.getElem?_eq_none (by rwa [h.length_items])]
  · have hlen := h.length
    have hhead := h.head_lt (by omega)
    have hptr : (if (r.buf.length : Int) ≤ r.head + i then (r.head + i : Int) - r.buf.length else r.head + i) =
        (Circular.slot r.head i r.buf.length : Int) := by
      rcases Circular.slot_cases r.head i r.buf.length with ⟨hc,hs⟩ | ⟨hc,hs⟩
      · rw [if_neg (by omega),hs]
        omega
      · rw [if_pos (by omega),hs]
        omega
    rw [if_neg (by omega),items,Circular.getElem?_window (Nat.le_of_lt hhead) hlen (by omega),← load_natCast,
      ← hptr]

end Ring
end Pggat.Util
