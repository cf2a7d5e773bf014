import Pggat.Fed.Encoder
import Pggat.Fed.Schema

/-! The encode and length templates, constructor by constructor. The type checker rejects a value of
another type than the schema's; here it panics, as the nil interface of a map does in the source. -/
namespace Pggat.Fed
open Pggat.Base

mutual

/-- The zero value of the generated type. The nil slice is the empty list and the nil interface `null`. -/
def Schema.zero : Schema → Value
  | .basic (.int _) => .int 0
  | .basic .float32 => .float 4 0
  | .basic .float64 => .float 8 0
  | .basic .string => .str []
  | .array n elem => .list (List.replicate n elem.zero)
  | .struct fields => .list fields.zero
  | .map _ _ => .null
  | .lengthPrefixedSlice _ _ => .list []
  | .nullableLengthPrefixedSlice _ _ => .null
  | .zeroTerminatedSlice _ _ => .list []
  | .remaining _ => .list []

def Fields.zero : Fields → List Value
  | .nil => []
  | .cons field fields => field.zero :: fields.zero

end

def each (f : Value → EncodeM Unit) : List Value → EncodeM Unit
  | [] => pure ()
  | v :: vs => do
    f v
    each f vs

/-- The fields of an element of a zero terminated slice. -/
def element (first : Value → EncodeM Unit) (rest : List Value → EncodeM Unit) : Value → EncodeM Unit
  | .list (v :: vs) => do
    first v
    rest vs
  | _ => Action.throw .panic

mutual

def encode : Schema → Value → EncodeM Unit
  | .basic (.int t), .int n => Encoder.uint t.bytes n
  | .basic .float32, .float _ n => Encoder.uint 4 n
  | .basic .float64, .float _ n => Encoder.uint 8 n
  | .basic .string, .str s => Encoder.string s
  | .array _ elem, .list vs => each (fun v => encode elem v) vs
  | .struct fields, .list vs => encodeFields fields vs
  | .map pre items, .item type v => do
    Encoder.uint pre.bytes (pre.ofInt type)
    encodeItem type items v
  | .lengthPrefixedSlice pre elem, .list vs => do
    Encoder.uint pre.bytes (pre.ofInt vs.length)
    each (fun v => encode elem v) vs
  | .nullableLengthPrefixedSlice pre _, .null => Encoder.uint pre.bytes (pre.ofInt (-1))
  | .nullableLengthPrefixedSlice pre elem, .list vs => do
    Encoder.uint pre.bytes (pre.ofInt vs.length)
    each (fun v => encode elem v) vs
  | .zeroTerminatedSlice first rest, .list vs => do
    each (element (fun v => encode first v) fun vs => encodeFields rest vs) vs
    encode first first.zero
  | .remaining elem, .list vs => each (fun v => encode elem v) vs
  | _, _ => Action.throw .panic

def encodeFields : Fields → List Value → EncodeM Unit
  | .nil, [] => pure ()
  | .cons field fields, v :: vs => do
    encode field v
    encodeFields fields vs
  | _, _ => Action.throw .panic

def encodeItem (type : Int) : Items → Value → EncodeM Unit
  | .nil, _ => Action.throw .panic
  | .cons t item items, v => if type = t then encode item v else encodeItem type items v

end

/-- The sum over a range; `none` when a summand panics. -/
def sumEach (f : Value → Option Nat) : List Value → Option Nat
  | [] => some 0
  | v :: vs => do
    let n ← f v
    let m ← sumEach f vs
    some (n + m)

def sumElement (first : Value → Option Nat) (rest : List Value → Option Nat) : Value → Option Nat
  | .list (v :: vs) => do
    let n ← first v
    let m ← rest vs
    some (n + m)
  | _ => none

mutual

/-- The length template. -/
def length : Schema → Value → Option Nat
  | .basic (.int t), .int _ => some t.bytes
  | .basic .float32, .float _ _ => some 4
  | .basic .float64, .float _ _ => some 8
  | .basic .string, .str s => some (s.length + 1)
  | .array _ elem, .list vs => sumEach (fun v => length elem v) vs
  | .struct fields, .list vs => lengthFields fields vs
  | .map pre items, .item type v => (lengthItem type items v).map (pre.bytes + ·)
  | .lengthPrefixedSlice pre elem, .list vs => (sumEach (fun v => length elem v) vs).map (pre.bytes + ·)
  | .nullableLengthPrefixedSlice pre _, .null => some pre.bytes
  | .nullableLengthPrefixedSlice pre elem, .list vs => (sumEach (fun v => length elem v) vs).map (pre.bytes + ·)
  | .zeroTerminatedSlice first rest, .list vs => do
    let n ← sumEach (sumElement (fun v => length first v) fun vs => lengthFields rest vs) vs
    let m ← length first first.zero
    some (n + m)
  | .remaining elem, .list vs => sumEach (fun v => length elem v) vs
  | _, _ => none

def lengthFields : Fields → List Value → Option Nat
  | .nil, [] => some 0
  | .cons field fields, v :: vs => do
    let n ← length field v
    let m ← lengthFields fields vs
    some (n + m)
  | _, _ => none

def lengthItem (type : Int) : Items → Value → Option Nat
  | .nil, _ => none
  | .cons t item items, v => if type = t then length item v else lengthItem type items v

end

/-- `Codec.WritePacket` of a generated packet. -/
def writePacket (type : UInt8) (schema : Schema) (v : Value) : EncodeM Unit :=
  match length schema v with
  | none => Action.throw .panic
  | some n => do
    Encoder.next type n
    encode schema v

mutual

/-- The bytes that stand for a value. -/
def Schema.bytes : Schema → Value → List UInt8
  | .basic (.int t), .int n => beBytes t.bytes n
  | .basic .float32, .float _ n => beBytes 4 n
  | .basic .float64, .float _ n => beBytes 8 n
  | .basic .string, .str s => s ++ [0]
  | .array _ elem, .list vs => vs.flatMap fun v => elem.bytes v
  | .struct fields, .list vs => fields.bytes vs
  | .map pre items, .item type v => beBytes pre.bytes (pre.ofInt type) ++ items.bytes type v
  | .lengthPrefixedSlice pre elem, .list vs =>
    beBytes pre.bytes (pre.ofInt vs.length) ++ vs.flatMap fun v => elem.bytes v
  | .nullableLengthPrefixedSlice pre _, .null => beBytes pre.bytes (pre.ofInt (-1))
  | .nullableLengthPrefixedSlice pre elem, .list vs =>
    beBytes pre.bytes (pre.ofInt vs.length) ++ vs.flatMap fun v => elem.bytes v
  | .zeroTerminatedSlice first rest, .list vs =>
    (vs.flatMap fun v => match v with
      | .list (v :: vs) => first.bytes v ++ rest.bytes vs
      | _ => []) ++ first.bytes first.zero
  | .remaining elem, .list vs => vs.flatMap fun v => elem.bytes v
  | _, _ => []

def Fields.bytes : Fields → List Value → List UInt8
  | .cons field fields, v :: vs => field.bytes v ++ fields.bytes vs
  | _, _ => []

def Items.bytes (type : Int) : Items → Value → List UInt8
  | .nil, _ => []
  | .cons t item items, v => if type = t then item.bytes v else items.bytes type v

end

end Pggat.Fed
