import Pggat.Fed.Emitted
import Pggat.Fed.WellFormed

/-! The encode template writes the bytes that stand for a value and the length template counts them. -/
namespace Pggat.Fed
open Pggat.Base Encoder

/-- Within a packet, the computation writes `bs` on every working connection. -/
def Writes (m : EncodeM Unit) (bs : List UInt8) : Prop := Adds m bs bs.length

namespace Writes

theorem nil : Writes (pure ()) [] := Adds.pure

theorem bind {m : EncodeM Unit} {f : Unit → EncodeM Unit} {bs bs' : List UInt8} (h : Writes m bs)
    (h' : Writes (f ()) bs') : Writes (m >>= f) (bs ++ bs') := by
  rw [Writes,List.length_append]
  exact Adds.bind h h'

theorem uint (t : IntType) (v : Nat) : Writes (Encoder.uint t.bytes v) (beBytes t.bytes v) := by
  rw [Writes,length_beBytes]
  exact Adds.uint (by cases t <;> decide) v

theorem string (s : GoString) : Writes (Encoder.string s) (s ++ [0]) := by
  rw [Writes,List.length_append]
  exact Adds.string s

theorem each {f : Value → EncodeM Unit} {bytes : Value → List UInt8} {vs : List Value}
    (h : ∀ v ∈ vs, Writes (f v) (bytes v)) : Writes (Fed.each f vs) (vs.flatMap bytes) := by
  induction vs with
  | nil => exact nil
  | cons v vs ih =>
    rw [List.flatMap_cons]
    exact (h v (by simp)).bind (ih fun x hx => h x (List.mem_cons_of_mem v hx))

end Writes

theorem sumEach_eq {f : Value → Option Nat} {bytes : Value → List UInt8} {vs : List Value}
    (h : ∀ v ∈ vs, f v = some (bytes v).length) : sumEach f vs = some (vs.flatMap bytes).length := by
  induction vs with
  | nil => rfl
  | cons v vs ih =>
    rw [sumEach,h v (by simp),ih fun x hx => h x (List.mem_cons_of_mem v hx)]
    simp

section Zero
variable (limit : Schema → Nat)

theorem Value.allZero_replicate {v : Value} (h : v.isZero = true) (n : Nat) :
    Value.allZero (List.replicate n v) = true := by
  induction n with
  | zero => rfl
  | succ n ih => simp [List.replicate_succ,Value.allZero,h,ih]

mutual

theorem Schema.zero_spec : ∀ s : Schema, s.Comparable → s.WellFormed limit s.zero ∧ s.zero.isZero = true
  | .basic (.int t), _ => ⟨by simp [Schema.WellFormed,Schema.zero],rfl⟩
  | .basic .float32, _ => ⟨by simp [Schema.WellFormed,Schema.zero],rfl⟩
  | .basic .float64, _ => ⟨by simp [Schema.WellFormed,Schema.zero],rfl⟩
  | .basic .string, _ => ⟨by simp [Schema.WellFormed,Schema.zero],rfl⟩
  | .array n elem, h => by
    obtain ⟨hw,hz⟩ := elem.zero_spec h
    refine ⟨⟨List.length_replicate,fun v hv => ?_⟩,Value.allZero_replicate hz n⟩
    rw [List.eq_of_mem_replicate hv]
    exact hw
  | .struct fields, h => fields.zero_spec h

theorem Fields.zero_spec : ∀ fields : Fields, fields.Comparable →
    fields.WellFormed limit fields.zero ∧ Value.allZero fields.zero = true
  | .nil, _ => ⟨trivial,rfl⟩
  | .cons field fields, h => by
    obtain ⟨hw,hz⟩ := field.zero_spec h.1
    obtain ⟨hw',hz'⟩ := fields.zero_spec h.2
    exact ⟨⟨hw,hw'⟩,by simp [Fields.zero,Value.allZero,hz,hz']⟩

end

end Zero

/-- The encoder writes `bs` and the length template counts them. -/
def Coded (m : EncodeM Unit) (n : Option Nat) (bs : List UInt8) : Prop := Writes m bs ∧ n = some bs.length

section Limit
variable {limit : Schema → Nat}

theorem coded_each {f : Value → EncodeM Unit} {len : Value → Option Nat} {bytes : Value → List UInt8} {vs : List Value}
    (h : ∀ v ∈ vs, Coded (f v) (len v) (bytes v)) : Coded (each f vs) (sumEach len vs) (vs.flatMap bytes) :=
  ⟨Writes.each fun v hv => (h v hv).1,sumEach_eq fun v hv => (h v hv).2⟩

variable {m : EncodeM Unit} {n : Option Nat} {bs : List UInt8}

theorem Coded.prefixed {t : IntType} {i : Nat}
    (h : Coded m n bs) : Coded (do Encoder.uint t.bytes i; m) (n.map (t.bytes + ·)) (beBytes t.bytes i ++ bs) :=
  ⟨(Writes.uint t i).bind h.1,by simp [h.2]⟩

theorem Coded.bind {f : Unit → EncodeM Unit} {n' : Option Nat} {bs' : List UInt8}
    (h : Coded m n bs) (h' : Coded (f ()) n' bs') :
    Coded (m >>= f) (do let k ← n; let k' ← n'; some (k + k')) (bs ++ bs') :=
  ⟨h.1.bind h'.1,by simp [h.2,h'.2]⟩

variable {last : Bool} {field : Schema} {fields : Fields}

theorem Fields.Regular.head
    (h : (Fields.cons field fields).Regular last) : ∃ last', field.Regular last' := by
  cases fields with
  | nil => exact ⟨last,h⟩
  | cons _ _ => exact ⟨false,h.1⟩

theorem Fields.Regular.tail
    (h : (Fields.cons field fields).Regular last) : fields.Regular last := by
  cases fields with
  | nil => exact trivial
  | cons _ _ => exact h.2

mutual

theorem encode_coded : ∀ (s : Schema) (last : Bool) (v : Value), s.Regular last → s.WellFormed limit v →
    Coded (encode s v) (length s v) (s.bytes v)
  | .basic (.int t), _, .int n, _, _ => ⟨.uint t n,by simp [length,Schema.bytes]⟩
  | .basic .float32, _, .float _ n, _, _ => ⟨.uint .uint32 n,by simp [length,Schema.bytes]⟩
  | .basic .float64, _, .float _ n, _, _ => ⟨.uint .uint64 n,by simp [length,Schema.bytes]⟩
  | .basic .string, _, .str s, _, _ => ⟨.string s,by simp [length,Schema.bytes]⟩
  | .array _ elem, _, .list vs, hr, hw => coded_each fun v hv => encode_coded elem false v hr (hw.2 v hv)
  | .struct fields, last, .list vs, hr, hw => encodeFields_coded fields last vs hr hw
  | .map pre items, last, .item type v, hr, hw => (encodeItem_coded type items last v hr hw.2).prefixed
  | .lengthPrefixedSlice _ elem, _, .list vs, hr, hw =>
    (coded_each fun v hv => encode_coded elem false v hr (hw.2 v hv)).prefixed
  | .nullableLengthPrefixedSlice pre _, _, .null, _, _ => ⟨.uint pre _,by simp [length,Schema.bytes]⟩
  | .nullableLengthPrefixedSlice _ elem, _, .list vs, hr, hw =>
    (coded_each fun v hv => encode_coded elem false v hr (hw.2 v hv)).prefixed
  | .zeroTerminatedSlice first rest, _, .list vs, hr, hw => by
    have hend := encode_coded first false first.zero hr.2.1 (first.zero_spec limit hr.1).1
    refine Coded.bind (coded_each fun v hv => ?_) hend
    obtain ⟨x,xs,rfl,hx,_,hxs⟩ := hw v hv
    exact (encode_coded first false x hr.2.1 hx).bind (encodeFields_coded rest false xs hr.2.2 hxs)
  | .remaining elem, _, .list vs, hr, hw => coded_each fun v hv => encode_coded elem false v hr.2.2 (hw v hv)

theorem encodeFields_coded : ∀ (fields : Fields) (last : Bool) (vs : List Value), fields.Regular last →
    fields.WellFormed limit vs → Coded (encodeFields fields vs) (lengthFields fields vs) (fields.bytes vs)
  | .nil, _, [], _, _ => ⟨.nil,rfl⟩
  | .cons field fields, last, v :: vs, hr, hw => by
    obtain ⟨last',hhead⟩ := hr.head
    exact (encode_coded field last' v hhead hw.1).bind (encodeFields_coded fields last vs hr.tail hw.2)

theorem encodeItem_coded (type : Int) : ∀ (items : Items) (last : Bool) (v : Value), items.Regular last →
    items.WellFormed limit type v → Coded (encodeItem type items v) (lengthItem type items v) (items.bytes type v)
  | .cons t item items, last, v, hr, hw => by
    unfold encodeItem lengthItem Items.bytes
    unfold Items.WellFormed at hw
    split
    · rename_i ht
      rw [if_pos ht] at hw
      exact encode_coded item last v hr.1 hw
    · rename_i ht
      rw [if_neg ht] at hw
      exact encodeItem_coded type items last v hr.2 hw

end

end Limit
end Pggat.Fed
