import Mathlib.Data.List.Basic

/-! A list read from some place on, around its end: places as numbers, and the items of a window that starts at `head`. -/
namespace Pggat.Base.Circular

def next (i n : Nat) : Nat := if i + 1 = n then 0 else i + 1

def prev (i n : Nat) : Nat := if i = 0 then n - 1 else i - 1

/-- The place of the `i`th item of a window that starts at `head`. -/
def slot (head i n : Nat) : Nat := if head + i < n then head + i else head + i - n

theorem next_cases (i n : Nat) : i + 1 = n ∧ next i n = 0 ∨ i + 1 ≠ n ∧ next i n = i + 1 := by
  by_cases h : i + 1 = n
  · exact .inl ⟨h,if_pos h⟩
  · exact .inr ⟨h,if_neg h⟩

theorem prev_cases (i n : Nat) : i = 0 ∧ prev i n = n - 1 ∨ i ≠ 0 ∧ prev i n = i - 1 := by
  by_cases h : i = 0
  · exact .inl ⟨h,if_pos h⟩
  · exact .inr ⟨h,if_neg h⟩

theorem slot_cases (head i n : Nat) :
    head + i < n ∧ slot head i n = head + i ∨ n ≤ head + i ∧ slot head i n = head + i - n := by
  by_cases h : head + i < n
  · exact .inl ⟨h,if_pos h⟩
  · exact .inr ⟨Nat.le_of_not_lt h,if_neg h⟩

section Places
variable {head i j n : Nat}

theorem slot_zero (hh : head < n) : slot head 0 n = head := if_pos hh

theorem slot_lt (hh : head < n) (hi : i ≤ n) : slot head i n < n := by
  have := slot_cases head i n
  omega

theorem slot_ne (hi : i < j) (hj : j < n) : slot head i n ≠ slot head j n := by
  have := slot_cases head i n
  have := slot_cases head j n
  omega

theorem head_ne_slot (hi : i + 1 < n) : head ≠ slot head (i + 1) n := by
  have := slot_cases head (i + 1) n
  omega

theorem slot_succ (hh : head < n) (hi : i < n) : slot head (i + 1) n = next (slot head i n) n := by
  have := slot_cases head i n
  have := slot_cases head (i + 1) n
  have := next_cases (slot head i n) n
  omega

theorem slot_pred (hh : head < n) (h0 : 0 < i) (hi : i ≤ n) : slot head (i - 1) n = prev (slot head i n) n := by
  have := slot_cases head i n
  have := slot_cases head (i - 1) n
  have := prev_cases (slot head i n) n
  omega

theorem slot_next (hh : head < n) (hi : i < n) : slot (next head n) i n = slot head (i + 1) n := by
  have := slot_cases (next head n) i n
  have := slot_cases head (i + 1) n
  have := next_cases head n
  omega

theorem slot_prev (hi : i < n) : slot (prev head n) (i + 1) n = slot head i n := by
  have := slot_cases (prev head n) (i + 1) n
  have := slot_cases head i n
  have := prev_cases head n
  omega

theorem next_lt (hh : head < n) : next head n < n := by
  have := next_cases head n
  omega

theorem prev_lt (hn : 0 < n) (hh : head ≤ n) : prev head n < n := by
  have := prev_cases head n
  omega

theorem prev_next (hi : i < n) : prev (next i n) n = i := by
  have := next_cases i n
  have := prev_cases (next i n) n
  omega

end Places

/-- `count` items from `head` on. -/
def window {α : Type} (buf : List α) (head count : Nat) : List α := (buf.drop head ++ buf.take head).take count

section Windows
variable {α : Type} {buf : List α} {head count i : Nat} {value : α}

theorem length_window (hc : count ≤ buf.length) : (window buf head count).length = count := by
  rw [window,List.length_take,List.length_append,List.length_drop,List.length_take]
  omega

theorem getElem?_window (hh : head ≤ buf.length) (hc : count ≤ buf.length) (hi : i < count) :
    (window buf head count)[i]? = buf[slot head i buf.length]? := by
  rw [window,List.getElem?_take_of_lt hi,List.getElem?_append,List.length_drop]
  rcases slot_cases head i buf.length with ⟨h,hs⟩ | ⟨h,hs⟩
  · rw [if_pos (by omega),List.getElem?_drop,hs]
  · rw [if_neg (by omega),List.getElem?_take_of_lt (by omega),hs]
    congr 1
    omega

private theorem ext_of_lt {l m : List α} (hl : l.length = m.length) (h : ∀ i < m.length, l[i]? = m[i]?) : l = m := by
  apply List.ext_getElem?
  intro i
  by_cases hi : i < m.length
  · exact h i hi
  · rw [List.getElem?_eq_none (by omega),List.getElem?_eq_none (by omega)]

theorem window_append (hh : head < buf.length) (hc : count < buf.length) :
    window (buf.set (slot head count buf.length) value) head (count + 1) = window buf head count ++ [value] := by
  have hlen : (buf.set (slot head count buf.length) value).length = buf.length := List.length_set
  apply ext_of_lt
  · rw [length_window (by omega),List.length_append,length_window (by omega),List.length_singleton]
  · intro i hi
    rw [List.length_append,length_window (by omega),List.length_singleton] at hi
    rw [getElem?_window (by omega) (by omega) hi,hlen]
    by_cases hlt : i < count
    · rw [List.getElem?_set_ne (slot_ne hlt hc).symm,List.getElem?_append_left (by rw [length_window (by omega)]; omega),
        getElem?_window (by omega) (by omega) hlt]
    · obtain rfl : i = count := by omega
      rw [List.getElem?_set_self (slot_lt hh (by omega)),List.getElem?_append_right (Nat.le_of_eq (length_window (by omega))),
        length_window (by omega),Nat.sub_self,List.getElem?_cons_zero]

theorem window_cons (hh : head < buf.length) (hc : count < buf.length) :
    window (buf.set (prev head buf.length) value) (prev head buf.length) (count + 1) =
      value :: window buf head count := by
  have hlen : (buf.set (prev head buf.length) value).length = buf.length := List.length_set
  have hp : prev head buf.length < buf.length := prev_lt (by omega) (by omega)
  apply ext_of_lt
  · rw [length_window (by omega),List.length_cons,length_window (by omega)]
  · intro i hi
    rw [List.length_cons,length_window (by omega)] at hi
    rw [getElem?_window (by omega) (by omega) hi,hlen]
    cases i with
    | zero => rw [slot_zero hp,List.getElem?_set_self hp,List.getElem?_cons_zero]
    | succ i =>
      rw [List.getElem?_set_ne (head_ne_slot (by omega)),slot_prev (by omega),List.getElem?_cons_succ,
        getElem?_window (by omega) (by omega) (by omega)]

/-- The first item leaves the window, whatever is put in its place. -/
theorem window_tail (hh : head < buf.length) (h0 : 0 < count) (hc : count ≤ buf.length) :
    window (buf.set head value) (next head buf.length) (count - 1) = (window buf head count).tail := by
  have hlen : (buf.set head value).length = buf.length := List.length_set
  have hn := next_lt hh
  apply ext_of_lt
  · rw [length_window (by omega),List.length_tail,length_window hc]
  · intro i hi
    rw [List.length_tail,length_window hc] at hi
    rw [getElem?_window (by omega) (by omega) hi,hlen,slot_next hh (by omega),
      List.getElem?_set_ne (head_ne_slot (by omega)),List.getElem?_tail,getElem?_window (by omega) hc (by omega)]

/-- The last item leaves the window, whatever is put in its place. -/
theorem window_dropLast (hh : head < buf.length) (h0 : 0 < count) (hc : count ≤ buf.length) :
    window (buf.set (slot head (count - 1) buf.length) value) head (count - 1) =
      (window buf head count).dropLast := by
  have hlen : (buf.set (slot head (count - 1) buf.length) value).length = buf.length := List.length_set
  apply ext_of_lt
  · rw [length_window (by omega),List.length_dropLast,length_window hc]
  · intro i hi
    rw [List.length_dropLast,length_window hc] at hi
    have hne : slot head i buf.length ≠ slot head (count - 1) buf.length := slot_ne hi (by omega)
    rw [getElem?_window (by omega) (by omega) hi,hlen,List.getElem?_set_ne hne.symm,List.dropLast_eq_take,
      List.getElem?_take_of_lt (by rwa [length_window hc]),getElem?_window (by omega) hc (by omega)]

/-- A list turned to start at the window, with more behind it, has the same window at its start. -/
theorem window_rebase (more : List α) (hc : count ≤ buf.length) :
    window (buf.drop head ++ buf.take head ++ more) 0 count = window buf head count := by
  rw [window,List.drop_zero,List.take_zero,List.append_nil,List.take_append_of_le_length,window]
  rw [List.length_append,List.length_drop,List.length_take]
  omega

theorem head?_window (hh : head < buf.length) (h0 : 0 < count) (hc : count ≤ buf.length) :
    (window buf head count).head? = buf[head]? := by
  rw [List.head?_eq_getElem?,getElem?_window (by omega) hc h0,slot_zero hh]

theorem getLast?_window (hh : head < buf.length) (h0 : 0 < count) (hc : count ≤ buf.length) :
    (window buf head count).getLast? = buf[slot head (count - 1) buf.length]? := by
  rw [List.getLast?_eq_getElem?,length_window hc,getElem?_window (by omega) hc (by omega)]

@[simp] theorem window_zero : window buf head 0 = [] := List.take_zero

end Windows
end Pggat.Base.Circular
