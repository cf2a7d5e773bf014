import Pggat.Util.Ring

/-! The calls of a `ring.Ring`, and the same calls made to a plain list. -/
namespace Pggat.Util
open Base

inductive Call (α : Type) where
  | pushFront (value : α)
  | pushBack (value : α)
  | popFront
  | popBack
  | get (n : Int)
  | length
  | clear
  deriving DecidableEq, Repr

inductive Answer (α : Type) where
  | done
  | popped (item : Option α)
  | got (item : α)
  | size (n : Nat)
  deriving DecidableEq, Repr

/-- The answers to some calls. A panic, which is the last one, is `none`. -/
def trace {α σ : Type} (call : σ → Call α → Option (Answer α × σ)) : σ → List (Call α) → List (Option (Answer α))
  | _, [] => []
  | s, c :: calls =>
    match call s c with
    | none => [none]
    | some (a,s) => some a :: trace call s calls

section Traces
variable {α σ τ : Type} {call : σ → Call α → Option (Answer α × σ)} {s : σ} {c : Call α} {calls : List (Call α)}

theorem trace_none (h : call s c = none) : trace call s (c :: calls) = [none] := by
  rw [trace,h]

theorem trace_some {a : Answer α} {s' : σ} (h : call s c = some (a,s')) :
    trace call s (c :: calls) = some a :: trace call s' calls := by
  rw [trace,h]

theorem trace_congr {t : σ} (h : call s c = call t c) : trace call s (c :: calls) = trace call t (c :: calls) := by
  rw [trace,trace,h]

end Traces

/-- A list under the calls. Only `get` beyond the length panics. -/
def Deque.call {α : Type} (l : List α) : Call α → Option (Answer α × List α)
  | .pushFront value => some (.done,value :: l)
  | .pushBack value => some (.done,l ++ [value])
  | .popFront => some (.popped l.head?,l.tail)
  | .popBack => some (.popped l.getLast?,l.dropLast)
  | .get n => if n < 0 then none else l[n.toNat]?.map (.got ·,l)
  | .length => some (.size l.length,l)
  | .clear => some (.done,[])

namespace Ring
variable {α : Type} [Inhabited α] {r : Ring α}

def call (r : Ring α) : Call α → Option (Answer α × Ring α)
  | .pushFront value => (r.pushFront value).map (.done,·)
  | .pushBack value => (r.pushBack value).map (.done,·)
  | .popFront => r.popFront.map fun p => (.popped p.1,p.2)
  | .popBack => r.popBack.map fun p => (.popped p.1,p.2)
  | .get n => (r.get n).map (.got ·,r)
  | .length => some (.size r.length,r)
  | .clear => some (.done,r.clear)

/-- A ring and a list give the same answer and are left as two that hold the same. -/
def Answers (P : Ring α → Prop) (r : Ring α) (c : Call α) : Prop :=
  (r.call c = none ∧ Deque.call r.items c = none) ∨
    ∃ a r', r.call c = some (a,r') ∧ Deque.call r.items c = some (a,r'.items) ∧ P r'

private theorem Fits.answers_get {P : Ring α → Prop} (h : r.Fits) (hp : P r) {n : Int} (hn : 0 ≤ n) :
    Answers P r (.get n) := by
  simp only [Answers,call,Deque.call,h.get hn,if_neg (Int.not_lt.mpr hn)]
  cases r.items[n.toNat]? with
  | none => exact .inl ⟨rfl,rfl⟩
  | some item => exact .inr ⟨_,_,rfl,rfl,hp⟩

private theorem Fits.answers_length {P : Ring α → Prop} (h : r.Fits) (hp : P r) : Answers P r .length := by
  refine .inr ⟨_,_,rfl,?_,hp⟩
  rw [Deque.call,h.length_items]

private theorem answers_clear {P : Ring α → Prop} (r : Ring α) (hp : P r.clear) : Answers P r .clear := by
  refine .inr ⟨_,_,rfl,?_,hp⟩
  rw [Deque.call,items_clear]

private theorem Wf.answers (h : r.Wf) {c : Call α} (hget : ∀ n, c = .get n → 0 ≤ n) : Answers Wf r c := by
  cases c with
  | pushFront value =>
    obtain ⟨r',hr,hw,hitems⟩ := h.pushFront value
    exact .inr ⟨.done,r',by rw [call,hr,Option.map_some],by rw [Deque.call,hitems],hw⟩
  | pushBack value =>
    obtain ⟨r',hr,hw,hitems⟩ := h.pushBack value
    exact .inr ⟨.done,r',by rw [call,hr,Option.map_some],by rw [Deque.call,hitems],hw⟩
  | popFront =>
    obtain ⟨r',hr,hw,hitems⟩ := h.popFront
    exact .inr ⟨_,r',by rw [call,hr,Option.map_some],by rw [Deque.call,hitems],hw⟩
  | popBack =>
    by_cases h0 : r.length = 0
    · have hnil := h.items_eq_nil.mpr h0
      refine .inr ⟨_,r,by rw [call,popBack_empty h0,Option.map_some],?_,h⟩
      rw [Deque.call,hnil,List.getLast?_nil,List.dropLast_nil]
    · obtain ⟨r',hr,hw,hitems⟩ := h.toFits.popBack h0 (h.prev_tail h0)
      exact .inr ⟨_,r',by rw [call,hr,Option.map_some],by rw [Deque.call,hitems],hw⟩
  | get n => exact h.answers_get h (hget n rfl)
  | length => exact h.answers_length h
  | clear => exact answers_clear r (wf_clear r)

theorem Wf.trace_eq (h : r.Wf) {calls : List (Call α)} (hget : ∀ n, .get n ∈ calls → 0 ≤ n) :
    trace call r calls = trace Deque.call r.items calls := by
  induction calls generalizing r with
  | nil => rfl
  | cons c calls ih =>
    rcases h.answers (fun n hn => hget n (hn ▸ List.mem_cons_self)) with ⟨hr,hl⟩ | ⟨a,r',hr,hl,hw⟩
    · rw [trace_none hr,trace_none hl]
    · rw [trace_some hr,trace_some hl,ih hw (fun n hn => hget n (List.mem_cons_of_mem _ hn))]

/-- The tail is one place behind the buffer, where it should be at the first place. -/
structure Stale (r : Ring α) : Prop extends r.Fits where
  tail : r.tail = r.buf.length
  back : r.back = 0
  size : 0 < r.buf.length

omit [Inhabited α] in
theorem Stale.of_sameBack {r r' : Ring α} (h : r.Stale) (hf : r'.Fits) (hs : SameBack r r') : r'.Stale :=
  ⟨hf,by rw [hs.tail,hs.size,h.tail],by rw [hs.back,h.back],by rw [hs.size]; exact h.size⟩

omit [Inhabited α] in
theorem Stale.prev_tail (h : r.Stale) (h0 : r.length ≠ 0) :
    Circular.prev r.tail r.buf.length = Circular.slot r.head (r.length - 1) r.buf.length := by
  have hback := Circular.slot_pred (h.head_lt h.size) (Nat.pos_of_ne_zero h0) h.length
  rw [show Circular.slot r.head r.length r.buf.length = 0 from h.back] at hback
  rw [hback,h.tail]
  have := h.size
  have := Circular.prev_cases r.buf.length r.buf.length
  have := Circular.prev_cases 0 r.buf.length
  omega

private theorem Stale.pushBack (h : r.Stale) (hroom : r.length < r.buf.length) (value : α) :
    r.pushBack value = none := by
  rw [pushBack_room hroom,h.tail]
  apply if_neg
  have := Circular.next_cases r.buf.length r.buf.length
  have := Circular.prev_cases (Circular.next r.buf.length r.buf.length) r.buf.length
  show ¬ _ < r.buf.length
  omega

end Ring

/-- Whether something is pushed to the back of a ring that holds less than its capacity and was, since it was made
full, neither cleared nor filled beyond the capacity nor popped at the back. -/
def pushesBehind {α : Type} (capacity : Nat) : Nat → List (Call α) → Bool
  | _, [] => false
  | count, .pushFront _ :: calls => count < capacity && pushesBehind capacity (count + 1) calls
  | count, .pushBack _ :: _ => count < capacity
  | count, .popFront :: calls => pushesBehind capacity (count - 1) calls
  | count, .popBack :: calls => count = 0 && pushesBehind capacity count calls
  | count, .get n :: calls => n < count && pushesBehind capacity count calls
  | count, .length :: calls => pushesBehind capacity count calls
  | _, .clear :: _ => false

namespace Ring
variable {α : Type} [Inhabited α] {r : Ring α} {calls : List (Call α)}

private theorem trace_step_iff {r r' : Ring α} {c : Call α} {a : Answer α} {l : List α}
    (hr : r.call c = some (a,r')) (hl : Deque.call l c = some (a,r'.items)) :
    trace call r (c :: calls) = trace Deque.call l (c :: calls) ↔
      trace call r' calls = trace Deque.call r'.items calls := by
  rw [trace_some hr,trace_some hl,List.cons.injEq,and_iff_right rfl]

private theorem Fits.trace_grown (h : r.Fits) (hfull : r.length = r.buf.length) {c : Call α}
    (hget : ∀ n, .get n ∈ c :: calls → 0 ≤ n)
    (hc : ∀ s, r.grow = some s → s.length < s.buf.length → r.call c = s.call c) :
    trace call r (c :: calls) = trace Deque.call r.items (c :: calls) := by
  obtain ⟨s,hs,hw,hitems,-,hroom⟩ := h.grow hfull
  rw [trace_congr (hc s hs hroom),← hitems]
  exact hw.trace_eq hget

theorem Stale.trace_iff (h : r.Stale) (hget : ∀ n, .get n ∈ calls → 0 ≤ n) :
    trace call r calls = trace Deque.call r.items calls ↔ pushesBehind r.buf.length r.length calls = false := by
  induction calls generalizing r with
  | nil => exact ⟨fun _ => rfl,fun _ => rfl⟩
  | cons c calls ih =>
    have hrest : ∀ n, .get n ∈ calls → 0 ≤ n := fun n hn => hget n (List.mem_cons_of_mem _ hn)
    have hle := h.length
    cases c with
    | pushFront value =>
      by_cases hfull : r.length = r.buf.length
      · have heq := h.trace_grown hfull hget fun s hs hroom => by
          simp only [call,pushFront_full hfull hs hroom]
        simp only [heq,pushesBehind,hfull,Nat.lt_irrefl,decide_false,Bool.false_and]
      · have hroom := Nat.lt_of_le_of_ne hle hfull
        obtain ⟨r',hr,hf,hitems,hsame⟩ := h.pushFront_unfull hroom value
        have hlen : r'.length = r.length + 1 := by
          rw [← hf.length_items,hitems,List.length_cons,h.length_items]
        rw [trace_step_iff (a := .done) (by rw [call, hr, Option.map_some]) (by rw [Deque.call, hitems]),
          ih (h.of_sameBack hf hsame) hrest,hsame.size,hlen,pushesBehind,decide_eq_true hroom,Bool.true_and]
    | pushBack value =>
      by_cases hfull : r.length = r.buf.length
      · have heq := h.trace_grown hfull hget fun s hs hroom => by
          simp only [call,pushBack_full hfull hs hroom]
        simp only [heq,pushesBehind,hfull,Nat.lt_irrefl,decide_false]
      · have hroom := Nat.lt_of_le_of_ne hle hfull
        have hnone : r.call (.pushBack value) = none := by rw [call,h.pushBack hroom,Option.map_none]
        have hlist : Deque.call r.items (.pushBack value) = some (.done,r.items ++ [value]) := rfl
        simp only [trace_none hnone,trace_some hlist,pushesBehind,decide_eq_true hroom,List.cons.injEq,
          reduceCtorEq,false_and]
    | popFront =>
      obtain ⟨r',hr,hf,hitems,hsame⟩ := h.toFits.popFront
      have hlen : r'.length = r.length - 1 := by
        rw [← hf.length_items,hitems,List.length_tail,h.length_items]
      rw [trace_step_iff (by rw [call, hr, Option.map_some]) (by rw [Deque.call, hitems]),
        ih (h.of_sameBack hf hsame) hrest,hsame.size,hlen,pushesBehind]
    | popBack =>
      by_cases h0 : r.length = 0
      · have hnil := h.items_eq_nil.mpr h0
        rw [trace_step_iff (by rw [call, popBack_empty h0, Option.map_some])
          (by rw [Deque.call, hnil, List.getLast?_nil, List.dropLast_nil]),ih h hrest,pushesBehind,
          decide_eq_true h0,Bool.true_and]
      · obtain ⟨r',hr,hw,hitems⟩ := h.toFits.popBack h0 (h.prev_tail h0)
        rw [trace_step_iff (by rw [call, hr, Option.map_some]) (by rw [Deque.call, hitems]),hw.trace_eq hrest,
          pushesBehind,decide_eq_false h0,Bool.false_and]
        exact ⟨fun _ => rfl,fun _ => rfl⟩
    | get n =>
      have hn := hget n List.mem_cons_self
      have hget : r.call (.get n) = (r.items[n.toNat]?).map (.got ·,r) := by rw [call,h.get hn]
      have hlist : Deque.call r.items (.get n) = (r.items[n.toNat]?).map (.got ·,r.items) :=
        if_neg (Int.not_lt.mpr hn)
      by_cases hlt : n < r.length
      · have hi : n.toNat < r.items.length := by
          rw [h.length_items]
          omega
        rw [List.getElem?_eq_getElem hi,Option.map_some] at hget hlist
        rw [trace_step_iff hget hlist,ih h hrest,pushesBehind,decide_eq_true hlt,Bool.true_and]
      · have hi : r.items.length ≤ n.toNat := by
          rw [h.length_items]
          omega
        rw [List.getElem?_eq_none hi,Option.map_none] at hget hlist
        simp only [trace_none hget,trace_none hlist,pushesBehind,decide_eq_false hlt,Bool.false_and]
    | length =>
      rw [trace_step_iff rfl (by rw [Deque.call, h.length_items]),ih h hrest,pushesBehind]
    | clear =>
      rw [trace_step_iff rfl (by rw [Deque.call, items_clear]),(wf_clear r).trace_eq hrest,pushesBehind]
      exact ⟨fun _ => rfl,fun _ => rfl⟩

omit [Inhabited α] in
private theorem wf_of_lt {length : Nat} {buf : List α} (h : length < buf.length) :
    ({ buf := buf, tail := length, length := length } : Ring α).Wf := by
  refine ⟨⟨Nat.le_of_lt h,.inl (Nat.zero_lt_of_lt h)⟩,?_⟩
  show length = Circular.slot 0 length buf.length
  have := Circular.slot_cases 0 length buf.length
  omega

omit [Inhabited α] in
private theorem stale_of_full {buf : List α} (h : 0 < buf.length) :
    ({ buf := buf, tail := buf.length, length := buf.length } : Ring α).Stale := by
  refine ⟨⟨Nat.le_refl _,.inl h⟩,rfl,?_,h⟩
  show Circular.slot 0 buf.length buf.length = 0
  have := Circular.slot_cases 0 buf.length buf.length
  omega

omit [Inhabited α] in
private theorem items_made {length : Nat} {buf : List α} :
    ({ buf := buf, tail := length, length := length } : Ring α).items = buf.take length := by
  rw [items,Circular.window,List.drop_zero,List.take_zero,List.append_nil]

/-- A ring answers every series of calls like a plain list, unless it was made full and something is pushed behind the
tail it was made with. -/
theorem calls_answered (hget : ∀ n, .get n ∈ calls → 0 ≤ n) :
    trace call ({} : Ring α) calls = trace Deque.call [] calls ∧
      ∀ length capacity, length ≤ capacity → ∃ r : Ring α, makeRing length capacity = some r ∧
        (trace call r calls = trace Deque.call (List.replicate length default) calls ↔
          ¬ (0 < length ∧ length = capacity ∧ pushesBehind capacity length calls = true)) := by
  refine ⟨wf_empty.trace_eq hget,?_⟩
  intro length capacity hle
  refine ⟨_,if_neg (Nat.not_lt.mpr hle),?_⟩
  have hsize : (List.replicate capacity (default : α)).length = capacity := List.length_replicate
  have hitems : ({ buf := List.replicate capacity default, tail := length, length := length } : Ring α).items =
      List.replicate length default := by
    rw [items_made,List.take_replicate,Nat.min_eq_left hle]
  by_cases hlt : length < capacity
  · have hw : ({ buf := List.replicate capacity default, tail := length, length := length } : Ring α).Wf :=
      wf_of_lt (by rwa [hsize])
    rw [← hitems,hw.trace_eq hget]
    exact ⟨fun _ hfull => Nat.ne_of_lt hlt hfull.2.1,fun _ => rfl⟩
  obtain rfl : length = capacity := Nat.le_antisymm hle (Nat.le_of_not_lt hlt)
  by_cases hpos : 0 < length
  · have hs := @stale_of_full α (List.replicate length default) (by rwa [hsize])
    rw [hsize] at hs
    have hiff := hs.trace_iff hget
    simp only [hitems,hsize] at hiff
    rw [hiff]
    simp only [hpos,true_and,Bool.not_eq_true]
  · obtain rfl : length = 0 := Nat.eq_zero_of_not_pos hpos
    exact ⟨fun _ h => hpos h.1,fun _ => wf_empty.trace_eq hget⟩

/-- A ring made with one item in one place, popped and pushed. -/
theorem calls_answered_one : ∃ r : Ring Nat, makeRing 1 1 = some r ∧
    (trace call r [.popBack,.pushBack 5,.get 0] = trace Deque.call [0] [.popBack,.pushBack 5,.get 0] ↔
      ¬ (0 < 1 ∧ 1 = 1 ∧ pushesBehind 1 1 [.popBack,.pushBack 5,.get 0] = true)) :=
  (calls_answered (fun n hn => by simp at hn; omega)).2 1 1 (by decide)

/-- The same with the front popped: the list takes the value and the ring panics. -/
theorem pushBack_outside : ∃ r : Ring Nat, makeRing 1 1 = some r ∧
    trace call r [.popFront,.pushBack 5] = [some (.popped (some 0)),none] ∧
    trace Deque.call (List.replicate 1 0) [.popFront,.pushBack 5] = [some (.popped (some 0)),some .done] :=
  ⟨_,rfl,rfl,rfl⟩

end Ring
end Pggat.Util
