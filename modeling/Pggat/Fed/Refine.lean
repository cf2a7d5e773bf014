import Pggat.Fed.Unread
import Pggat.Fed.Wire

/-! The buffered decoder does what the bytes say: where their demands are met it returns the value they
stand for or an error, and where one is not it panics or never returns. -/
namespace Pggat.Fed
open Pggat.Base

/-- The decoder's bytes ahead and what is left of its packet. -/
def Decoder.wire (d : Decoder) : Wire := ⟨d.unread,d.packetLength - d.packetPos⟩

section Limit
variable (limit : Schema → Nat)

/-- What a computation of the decoder makes of a reading. -/
def Agrees {α : Type} (read : List Demand × Option (α × Wire)) (res : Except Failure α × Decoder) : Prop :=
  ((∀ x ∈ read.1, x.Met limit) → match read.2 with
    | some (a,w) => ∃ d, res = (.ok a,d) ∧ d.wire = w
    | none => ∃ e d, res = (.error (.error e),d)) ∧
  ((∃ x ∈ read.1, ¬ x.Met limit) → ∃ d, res = (.error .panic,d) ∨ res = (.error .hang,d))

def Simulates {α : Type} (m : DecodeM α) (r : Reading α) : Prop := ∀ d, Agrees limit (r d.wire) (m d)

namespace Simulates
variable {limit} {α β : Type}

theorem pure (a : α) : Simulates limit (Pure.pure a) (Pure.pure a) := by
  intro d
  exact ⟨fun _ => ⟨d,rfl,rfl⟩,by rintro ⟨x,hx,_⟩; cases hx⟩

variable {m : DecodeM α} {r : Reading α}

theorem bind {f : α → DecodeM β} {g : α → Reading β}
    (h : Simulates limit m r) (hf : ∀ a, Simulates limit (f a) (g a)) : Simulates limit (m >>= f) (r >>= g) := by
  intro d
  obtain ⟨hmet,hunmet⟩ := h d
  by_cases hall : ∀ x ∈ (r d.wire).1, x.Met limit
  · have hres := hmet hall
    rcases hrd : r d.wire with ⟨ds,_ | ⟨a,w⟩⟩
    · rw [hrd] at hres hall
      obtain ⟨e,d',hd⟩ := hres
      rw [Reading.bind_none hrd,Action.bind_error hd]
      exact ⟨fun _ => ⟨e,d',rfl⟩,fun ⟨x,hx,hn⟩ => absurd (hall x hx) hn⟩
    · rw [hrd] at hres hall
      obtain ⟨d',hd,rfl⟩ := hres
      rw [Reading.bind_some hrd,Action.bind_ok hd]
      obtain ⟨hmet',hunmet'⟩ := hf a d'
      refine ⟨fun h' => hmet' fun x hx => h' x (List.mem_append_right _ hx),?_⟩
      rintro ⟨x,hx,hn⟩
      rcases List.mem_append.mp hx with hx | hx
      · exact absurd (hall x hx) hn
      · exact hunmet' ⟨x,hx,hn⟩
  · obtain ⟨x,hx,hn⟩ : ∃ x ∈ (r d.wire).1, ¬ x.Met limit := by simpa using hall
    refine ⟨fun h' => absurd (h' x ?_) hn,fun _ => ?_⟩
    · rcases hrd : r d.wire with ⟨ds,_ | ⟨a,w⟩⟩
      · rw [hrd] at hx
        rw [Reading.bind_none hrd]
        exact hx
      · rw [hrd] at hx
        rw [Reading.bind_some hrd]
        exact List.mem_append_left _ hx
    · obtain ⟨d',hd | hd⟩ := hunmet ⟨x,hx,hn⟩
      · exact ⟨d',.inl (Action.bind_error hd)⟩
      · exact ⟨d',.inr (Action.bind_error hd)⟩

theorem number (w : Nat) : Simulates limit (Decoder.uint w) (Reading.number w) := by
  intro d
  obtain ⟨d',hr,moved⟩ := Decoder.uint_spec w d
  unfold Reading.number
  by_cases hlen : w ≤ d.unread.length
  · rw [if_pos (show w ≤ d.wire.bytes.length from hlen),hr,if_pos hlen]
    refine ⟨fun _ => ⟨d',rfl,?_⟩,by simp⟩
    simp only [Decoder.wire,moved.unread,moved.packetLength,moved.packetPos,Wire.mk.injEq,true_and]
    omega
  · rw [if_neg (show ¬ w ≤ d.wire.bytes.length from hlen),hr,if_neg hlen]
    exact ⟨fun _ => ⟨_,d',rfl⟩,by simp⟩

theorem text : Simulates limit Decoder.string Reading.text := by
  intro d
  have hs := Decoder.string_spec d
  unfold Reading.text
  simp only [Decoder.StringRead,List.nil_append] at hs
  cases hc : Decoder.cutZero d.unread with
  | none =>
    rw [hc] at hs
    obtain ⟨d',hr,-⟩ := hs
    simp only [Decoder.wire,hc,hr]
    exact ⟨fun _ => ⟨_,d',rfl⟩,by simp⟩
  | some c =>
    rw [hc] at hs
    obtain ⟨d',hr,moved⟩ := hs
    simp only [Decoder.wire,hc,hr]
    refine ⟨fun _ => ⟨d',rfl,?_⟩,by simp⟩
    simp only [Decoder.wire,moved.unread,moved.packetLength,moved.packetPos,Wire.mk.injEq,true_and]
    omega

theorem announce (elem : Schema) (n : Int) :
    Simulates limit (resize (limit elem) n) (Reading.announce elem n) := by
  intro d
  unfold resize Reading.announce
  by_cases hn : n < 0 ∨ (limit elem : Int) < n
  · rw [if_pos hn]
    refine ⟨fun h => ?_,fun _ => ⟨d,.inl rfl⟩⟩
    have : 0 ≤ n ∧ n ≤ limit elem := h (.slice elem n) (by simp)
    omega
  · rw [if_neg hn,if_neg (by omega)]
    refine ⟨fun _ => ⟨d,rfl,rfl⟩,?_⟩
    rintro ⟨x,hx,hne⟩
    rw [List.mem_singleton.mp hx] at hne
    exact absurd (show 0 ≤ n ∧ n ≤ limit elem by omega) hne

theorem stop (e : Error) : Simulates (α := α) limit (Action.throw (.error e)) (Reading.stop []) := by
  intro d
  exact ⟨fun _ => ⟨e,d,rfl⟩,by rintro ⟨x,hx,_⟩; cases hx⟩

theorem endless : Simulates (α := α) limit (Action.throw .hang) (Reading.stop [.endless]) := by
  intro d
  exact ⟨fun h => (h .endless (by simp [Reading.stop])).elim,fun _ => ⟨d,.inr rfl⟩⟩

theorem times (h : Simulates limit m r) (n : Nat) :
    Simulates limit (Fed.times n m) (Reading.times n r) := by
  induction n with
  | zero => exact pure []
  | succ n ih => exact h.bind fun v => ih.bind fun vs => pure (v :: vs)

theorem untilZero {first : DecodeM Value} {rest : DecodeM (List Value)} {rfirst : Reading Value}
    {rrest : Reading (List Value)} (hfirst : Simulates limit first rfirst) (hrest : Simulates limit rest rrest)
    (fuel : Nat) : Simulates limit (Fed.untilZero fuel first rest) (Reading.untilZero fuel rfirst rrest) := by
  induction fuel with
  | zero => exact endless
  | succ fuel ih =>
    refine hfirst.bind fun v => ?_
    split
    · exact pure []
    · exact hrest.bind fun vs => ih.bind fun more => pure _

theorem untilEnd {elem : DecodeM Value} {relem : Reading Value} (h : Simulates limit elem relem) (fuel : Nat) :
    Simulates limit (Fed.untilEnd fuel elem) (Reading.untilEnd fuel relem) := by
  induction fuel with
  | zero => exact endless
  | succ fuel ih =>
    intro d
    unfold Fed.untilEnd Reading.untilEnd
    have hleft : d.wire.left ≤ 0 ↔ d.packetPos ≥ d.packetLength := by
      simp only [Decoder.wire]
      omega
    by_cases hp : d.packetPos ≥ d.packetLength
    · rw [if_pos hp,if_pos (hleft.mpr hp)]
      exact pure [] d
    · rw [if_neg hp,if_neg (mt hleft.mp hp)]
      exact (h.bind fun v => ih.bind fun vs => pure (v :: vs)) d

theorem basic (b : Basic) : Simulates limit (decodeBasic b) b.read := by
  cases b with
  | int t => exact (number t.bytes).bind fun n => pure _
  | float32 => exact (number 4).bind fun n => pure _
  | float64 => exact (number 8).bind fun n => pure _
  | string => exact text.bind fun s => pure _

end Simulates

variable {limit}

mutual

theorem decode_simulates : ∀ s : Schema, Simulates limit (decode limit s) s.read
  | .basic b => .basic b
  | .array n elem => ((decode_simulates elem).times n).bind fun _ => .pure _
  | .struct fields => (decodeFields_simulates fields).bind fun _ => .pure _
  | .map pre items => (Simulates.number pre.bytes).bind fun n =>
    (decodeItem_simulates (pre.value n) items).bind fun _ => .pure _
  | .lengthPrefixedSlice pre elem => (Simulates.number pre.bytes).bind fun n =>
    (Simulates.announce elem (pre.toInt n)).bind fun _ => ((decode_simulates elem).times _).bind fun _ => .pure _
  | .nullableLengthPrefixedSlice pre elem => by
    refine (Simulates.number pre.bytes).bind fun n => ?_
    split
    · exact .pure Value.null
    · exact (Simulates.announce elem (pre.toInt n)).bind fun _ => ((decode_simulates elem).times _).bind fun _ => .pure _
  | .zeroTerminatedSlice first rest => fun d =>
    (((decode_simulates first).untilZero (decodeFields_simulates rest) _).bind fun _ => .pure _) d
  | .remaining elem => fun d => (((decode_simulates elem).untilEnd _).bind fun _ => .pure _) d

theorem decodeFields_simulates : ∀ fields : Fields, Simulates limit (decodeFields limit fields) fields.read
  | .nil => .pure []
  | .cons field fields => (decode_simulates field).bind fun _ => (decodeFields_simulates fields).bind fun _ => .pure _

theorem decodeItem_simulates (type : Int) : ∀ items : Items,
    Simulates limit (decodeItem limit type items) (items.read type)
  | .nil => .stop .invalidFormat
  | .cons t item items => by
    unfold decodeItem Items.read
    split
    · exact decode_simulates item
    · exact decodeItem_simulates type items

end

end Limit
end Pggat.Fed
