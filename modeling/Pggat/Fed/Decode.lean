import Pggat.Fed.Decoder
import Pggat.Fed.Schema

/-! The decode template, constructor by constructor. `limit` is the longest slice of an element type that
`make` allocates; a longer or negative length panics. Growing a slice by one element never does. -/
namespace Pggat.Fed
open Pggat.Base

/-- `slices.Resize` or `make` of a slice of `n` elements. -/
def resize (limit n : Int) : DecodeM Unit := if n < 0 ∨ limit < n then Action.throw .panic else pure ()

/-- `for i := 0; i < n; i++` -/
def times {α : Type} : Nat → DecodeM α → DecodeM (List α)
  | 0, _ => pure []
  | n+1, m => do
    let v ← m
    let vs ← times n m
    pure (v :: vs)

/-- Elements until a first field is zero. -/
def untilZero : (fuel : Nat) → DecodeM Value → DecodeM (List Value) → DecodeM (List Value)
  | 0, _, _ => Action.throw .hang
  | fuel+1, first, rest => do
    let v ← first
    if v.isZero then pure [] else
    let vs ← rest
    let more ← untilZero fuel first rest
    pure (.list (v :: vs) :: more)

/-- Elements until the position reaches the length of the packet. -/
def untilEnd : (fuel : Nat) → DecodeM Value → DecodeM (List Value)
  | 0, _ => Action.throw .hang
  | fuel+1, elem => fun d =>
    if d.packetPos ≥ d.packetLength then (.ok [],d) else
    (do
      let v ← elem
      let vs ← untilEnd fuel elem
      pure (v :: vs) : DecodeM (List Value)) d

def decodeBasic : Basic → DecodeM Value
  | .int t => do
    let n ← Decoder.uint t.bytes
    pure (.int n)
  | .float32 => do
    let n ← Decoder.uint 4
    pure (.float 4 n)
  | .float64 => do
    let n ← Decoder.uint 8
    pure (.float 8 n)
  | .string => do
    let s ← Decoder.string
    pure (.str s)

section Limit
variable (limit : Schema → Nat)

mutual

/-- A loop that takes a byte in every turn ends within the unread bytes. -/
def decode : Schema → DecodeM Value
  | .basic b => decodeBasic b
  | .array n elem => do
    let vs ← times n (decode elem)
    pure (.list vs)
  | .struct fields => do
    let vs ← decodeFields fields
    pure (.list vs)
  | .map pre items => do
    let n ← Decoder.uint pre.bytes
    let v ← decodeItem (pre.value n) items
    pure (.item (pre.value n) v)
  | .lengthPrefixedSlice pre elem => do
    let n ← Decoder.uint pre.bytes
    resize (limit elem) (pre.toInt n)
    let vs ← times (pre.toInt n).toNat (decode elem)
    pure (.list vs)
  | .nullableLengthPrefixedSlice pre elem => do
    let n ← Decoder.uint pre.bytes
    if pre.value n = -1 then pure .null else
    resize (limit elem) (pre.toInt n)
    let vs ← times (pre.toInt n).toNat (decode elem)
    pure (.list vs)
  | .zeroTerminatedSlice first rest => fun d =>
    (do
      let vs ← untilZero (d.unread.length + 1) (decode first) (decodeFields rest)
      pure (.list vs) : DecodeM Value) d
  | .remaining elem => fun d =>
    (do
      let vs ← untilEnd (d.unread.length + 1) (decode elem)
      pure (.list vs) : DecodeM Value) d

def decodeFields : Fields → DecodeM (List Value)
  | .nil => pure []
  | .cons field fields => do
    let v ← decode field
    let vs ← decodeFields fields
    pure (v :: vs)

/-- The item of a map whose type is the decoded prefix. -/
def decodeItem (type : Int) : Items → DecodeM Value
  | .nil => Action.throw (.error .invalidFormat)
  | .cons t item items => if type = t then decode item else decodeItem type items

end

/-- `Decoder.Next` and then the generated `ReadFrom` of a packet with the given type. -/
def readPacket (typed : Bool) (type : UInt8) (schema : Schema) : DecodeM Value := fun d =>
  match Decoder.next typed d with
  | (.error e,d) => (.error e,d)
  | (.ok _,d) => if d.packetType ≠ type then (.error (.error .unexpectedPacket),d) else decode limit schema d

end Limit
end Pggat.Fed
