import Pggat.Base.Runes
import Pggat.Base.Bytes

/-! Packet schemas as `protocol.yaml` writes them, and the values of the types generated from them. -/
namespace Pggat.Fed
open Pggat.Base

inductive IntType where
  | uint8 | uint16 | uint32 | uint64
  | int8 | int16 | int32 | int64
  deriving DecidableEq, Repr

namespace IntType

def bytes : IntType → Nat
  | uint8 | int8 => 1
  | uint16 | int16 => 2
  | uint32 | int32 => 4
  | uint64 | int64 => 8

def isSigned : IntType → Bool
  | uint8 | uint16 | uint32 | uint64 => false
  | int8 | int16 | int32 | int64 => true

/-- The number that a pattern of `t.bytes` bytes stands for. -/
def value (t : IntType) (n : Nat) : Int := if t.isSigned then signed t.bytes n else n

/-- Go's `int(x)`: a `uint64` from 2 ^ 63 on turns negative. -/
def toInt (t : IntType) (n : Nat) : Int := if t = uint64 then signed 8 n else t.value n

/-- Go's conversion of a length or a tag to the type, as a pattern. -/
def ofInt (t : IntType) (i : Int) : Nat := (i % 256 ^ t.bytes).toNat

end IntType

inductive Basic where
  | int (t : IntType)
  | float32
  | float64
  | string
  deriving DecidableEq, Repr

mutual

/-- A packet without payload is the struct without fields. The first field of an element decides where
a zero terminated slice ends. -/
inductive Schema where
  | basic (b : Basic)
  | array (length : Nat) (elem : Schema)
  | struct (fields : Fields)
  | map (pre : IntType) (items : Items)
  | lengthPrefixedSlice (pre : IntType) (elem : Schema)
  | nullableLengthPrefixedSlice (pre : IntType) (elem : Schema)
  | zeroTerminatedSlice (first : Schema) (rest : Fields)
  | remaining (elem : Schema)

inductive Fields where
  | nil
  | cons (field : Schema) (fields : Fields)

inductive Items where
  | nil
  | cons (type : Int) (item : Schema) (items : Items)

end

/-- A Go value. Numbers are the patterns of their bits, arrays, structs and slices are lists, `null` is the
nil slice of a nullable one, and a map value carries the tag of its item. -/
inductive Value where
  | int (n : Nat)
  | float (w n : Nat)
  | str (s : GoString)
  | list (vs : List Value)
  | null
  | item (type : Int) (v : Value)

mutual

/-- Go's comparison with the zero value of a comparable type. Both float zeros are equal to it, and a
decoded map value is never the nil interface. -/
def Value.isZero : Value → Bool
  | .int n => n = 0
  | .float w n => n = 0 || 2 * n = 256 ^ w
  | .str s => s = []
  | .list vs => Value.allZero vs
  | .null => true
  | .item _ _ => false

def Value.allZero : List Value → Bool
  | [] => true
  | v :: vs => v.isZero && Value.allZero vs

end

end Pggat.Fed
