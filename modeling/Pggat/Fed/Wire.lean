import Pggat.Fed.Decode

/-! What the bytes of a packet say under a schema, read from a plain list of bytes. Besides its value a
reading lists the demands the bytes make on a decoder: the lengths they announce for slices, and loops
that no byte would end. -/
namespace Pggat.Fed
open Pggat.Base

/-- The bytes ahead and how many of them, counted from here, belong to the packet. -/
structure Wire where
  bytes : List UInt8
  left : Int

inductive Demand where
  | slice (elem : Schema) (length : Int)
  | endless

/-- A slice has a length that can be allocated, and every loop ends. -/
def Demand.Met (limit : Schema → Nat) : Demand → Prop
  | .slice elem n => 0 ≤ n ∧ n ≤ limit elem
  | .endless => False

def Reading (α : Type) : Type := Wire → List Demand × Option (α × Wire)

namespace Reading
variable {α : Type}

instance : Monad Reading where
  pure a := fun w => ([],some (a,w))
  bind r f := fun w =>
    match r w with
    | (ds,none) => (ds,none)
    | (ds,some (a,w)) => (ds ++ (f a w).1,(f a w).2)

variable {β : Type} {r : Reading α} {f : α → Reading β} {w : Wire} {ds : List Demand}

theorem bind_some {w' : Wire} {a : α}
    (h : r w = (ds,some (a,w'))) : (r >>= f) w = (ds ++ (f a w').1,(f a w').2) := by
  show (match r w with
    | (ds,none) => (ds,none)
    | (ds,some (a,w)) => (ds ++ (f a w).1,(f a w).2)) = _
  rw [h]

theorem bind_none
    (h : r w = (ds,none)) : (r >>= f) w = (ds,none) := by
  show (match r w with
    | (ds,none) => (ds,none)
    | (ds,some (a,w)) => (ds ++ (f a w).1,(f a w).2)) = _
  rw [h]

def stop (ds : List Demand) : Reading α := fun _ => (ds,none)

def number (n : Nat) : Reading Nat := fun w =>
  if n ≤ w.bytes.length then ([],some (beNat (w.bytes.take n),⟨w.bytes.drop n,w.left - n⟩)) else ([],none)

def text : Reading GoString := fun w =>
  match Decoder.cutZero w.bytes with
  | some (s,rest) => ([],some (s,⟨rest,w.left - (s.length + 1)⟩))
  | none => ([],none)

/-- The bytes announce a slice of `n` elements. -/
def announce (elem : Schema) (n : Int) : Reading Unit := fun w =>
  ([.slice elem n],if n < 0 then none else some ((),w))

def times : Nat → Reading α → Reading (List α)
  | 0, _ => pure []
  | n+1, r => do
    let v ← r
    let vs ← times n r
    pure (v :: vs)

def untilZero : (fuel : Nat) → Reading Value → Reading (List Value) → Reading (List Value)
  | 0, _, _ => stop [.endless]
  | fuel+1, first, rest => do
    let v ← first
    if v.isZero then pure [] else
    let vs ← rest
    let more ← untilZero fuel first rest
    pure (.list (v :: vs) :: more)

def untilEnd : (fuel : Nat) → Reading Value → Reading (List Value)
  | 0, _ => stop [.endless]
  | fuel+1, elem => fun w =>
    if w.left ≤ 0 then ([],some ([],w)) else
    (do
      let v ← elem
      let vs ← untilEnd fuel elem
      pure (v :: vs) : Reading (List Value)) w

theorem untilEnd_end (fuel : Nat) (elem : Reading Value) (h : w.left ≤ 0) :
    untilEnd (fuel + 1) elem w = ([],some ([],w)) := if_pos h

theorem untilEnd_turn (fuel : Nat) (elem : Reading Value) (h : ¬ w.left ≤ 0) :
    untilEnd (fuel + 1) elem w = (do
      let v ← elem
      let vs ← untilEnd fuel elem
      pure (v :: vs) : Reading (List Value)) w := if_neg h

end Reading

def Basic.read : Basic → Reading Value
  | .int t => do
    let n ← Reading.number t.bytes
    pure (.int n)
  | .float32 => do
    let n ← Reading.number 4
    pure (.float 4 n)
  | .float64 => do
    let n ← Reading.number 8
    pure (.float 8 n)
  | .string => do
    let s ← Reading.text
    pure (.str s)

mutual

/-- A loop with more turns than there are bytes would never end: one of its turns takes no byte. -/
def Schema.read : Schema → Reading Value
  | .basic b => b.read
  | .array n elem => do
    let vs ← Reading.times n elem.read
    pure (.list vs)
  | .struct fields => do
    let vs ← fields.read
    pure (.list vs)
  | .map pre items => do
    let n ← Reading.number pre.bytes
    let v ← items.read (pre.value n)
    pure (.item (pre.value n) v)
  | .lengthPrefixedSlice pre elem => do
    let n ← Reading.number pre.bytes
    Reading.announce elem (pre.toInt n)
    let vs ← Reading.times (pre.toInt n).toNat elem.read
    pure (.list vs)
  | .nullableLengthPrefixedSlice pre elem => do
    let n ← Reading.number pre.bytes
    if pre.value n = -1 then pure .null else
    Reading.announce elem (pre.toInt n)
    let vs ← Reading.times (pre.toInt n).toNat elem.read
    pure (.list vs)
  | .zeroTerminatedSlice first rest => fun w =>
    (do
      let vs ← Reading.untilZero (w.bytes.length + 1) first.read rest.read
      pure (.list vs) : Reading Value) w
  | .remaining elem => fun w =>
    (do
      let vs ← Reading.untilEnd (w.bytes.length + 1) elem.read
      pure (.list vs) : Reading Value) w

def Fields.read : Fields → Reading (List Value)
  | .nil => pure []
  | .cons field fields => do
    let v ← field.read
    let vs ← fields.read
    pure (v :: vs)

def Items.read (type : Int) : Items → Reading Value
  | .nil => Reading.stop []
  | .cons t item items => if type = t then item.read else items.read type

end

end Pggat.Fed
