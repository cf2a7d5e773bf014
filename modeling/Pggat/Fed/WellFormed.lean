import Pggat.Fed.Encode
import Mathlib.Tactic.NormNum

/-! Which values a schema's packets can carry, and which schemas carry them back. -/
namespace Pggat.Fed
open Pggat.Base

def IntType.Fits (t : IntType) (i : Int) : Prop :=
  if t.isSigned then -256 ^ t.bytes ≤ 2 * i ∧ 2 * i < 256 ^ t.bytes else 0 ≤ i ∧ i < 256 ^ t.bytes

theorem IntType.ofInt_lt (t : IntType) (i : Int) : t.ofInt i < 256 ^ t.bytes := by
  have h := Int.emod_lt_of_pos i (show (0 : Int) < 256 ^ t.bytes by positivity)
  have h' := Int.emod_nonneg i (show (256 : Int) ^ t.bytes ≠ 0 by positivity)
  rw [ofInt,Int.toNat_lt h']
  push_cast
  exact h

variable {t : IntType} {i : Int}

theorem IntType.value_ofInt (h : t.Fits i) : t.value (t.ofInt i) = i := by
  cases t <;> simp [Fits,isSigned,bytes,value,ofInt,signed] at h ⊢ <;> omega

theorem IntType.toInt_ofInt (h : t.Fits i) (hi : i < 2 ^ 63) : t.toInt (t.ofInt i) = i := by
  unfold toInt
  split
  · rename_i ht
    subst ht
    simp [Fits,isSigned,bytes,ofInt,signed] at h ⊢
    omega
  · exact value_ofInt h

section Limit
variable (limit : Schema → Nat)

/-- A slice of `n` elements that Go can hold and whose length fits the prefix. -/
structure SliceLength (pre : IntType) (elem : Schema) (n : Nat) : Prop where
  fits : pre.Fits n
  int : (n : Int) < 2 ^ 63
  held : n ≤ limit elem

mutual

/-- Values of the generated type: strings without a zero byte, lengths that fit their prefix, elements of
zero terminated slices with a first field that is not zero, and maps with a listed type. -/
def Schema.WellFormed : Schema → Value → Prop
  | .basic (.int t), .int n => n < 256 ^ t.bytes
  | .basic .float32, .float w n => w = 4 ∧ n < 256 ^ 4
  | .basic .float64, .float w n => w = 8 ∧ n < 256 ^ 8
  | .basic .string, .str s => 0 ∉ s
  | .array n elem, .list vs => vs.length = n ∧ ∀ v ∈ vs, elem.WellFormed v
  | .struct fields, .list vs => fields.WellFormed vs
  | .map pre items, .item type v => pre.Fits type ∧ items.WellFormed type v
  | .lengthPrefixedSlice pre elem, .list vs => SliceLength limit pre elem vs.length ∧ ∀ v ∈ vs, elem.WellFormed v
  | .nullableLengthPrefixedSlice pre _, .null => pre.Fits (-1)
  | .nullableLengthPrefixedSlice pre elem, .list vs =>
    SliceLength limit pre elem vs.length ∧ ∀ v ∈ vs, elem.WellFormed v
  | .zeroTerminatedSlice first rest, .list vs => ∀ v ∈ vs, ∃ x xs, v = .list (x :: xs) ∧
    first.WellFormed x ∧ x.isZero = false ∧ rest.WellFormed xs
  | .remaining elem, .list vs => ∀ v ∈ vs, elem.WellFormed v
  | _, _ => False

def Fields.WellFormed : Fields → List Value → Prop
  | .nil, [] => True
  | .cons field fields, v :: vs => field.WellFormed v ∧ fields.WellFormed vs
  | _, _ => False

def Items.WellFormed (type : Int) : Items → Value → Prop
  | .nil, _ => False
  | .cons t item items, v => if type = t then item.WellFormed v else items.WellFormed type v

end

end Limit

mutual

/-- Types whose zero value can be written: the numbers, the strings, and arrays and structs of them. -/
def Schema.Comparable : Schema → Prop
  | .basic _ => True
  | .array _ elem => elem.Comparable
  | .struct fields => fields.Comparable
  | _ => False

def Fields.Comparable : Fields → Prop
  | .nil => True
  | .cons field fields => field.Comparable ∧ fields.Comparable

end

mutual

/-- Types whose values take at least one byte. -/
def Schema.Wide : Schema → Prop
  | .basic _ => True
  | .array n elem => 0 < n ∧ elem.Wide
  | .struct fields => fields.Wide
  | .map _ _ => True
  | .lengthPrefixedSlice _ _ => True
  | .nullableLengthPrefixedSlice _ _ => True
  | .zeroTerminatedSlice first _ => first.Wide
  | .remaining _ => False

def Fields.Wide : Fields → Prop
  | .nil => False
  | .cons field fields => field.Wide ∨ fields.Wide

end

mutual

/-- A slice up to the end of the packet stands last and has elements of at least one byte, and the end of
every zero terminated slice can be written. -/
def Schema.Regular (last : Bool) : Schema → Prop
  | .basic _ => True
  | .array _ elem => elem.Regular false
  | .struct fields => fields.Regular last
  | .map _ items => items.Regular last
  | .lengthPrefixedSlice _ elem => elem.Regular false
  | .nullableLengthPrefixedSlice _ elem => elem.Regular false
  | .zeroTerminatedSlice first rest => first.Comparable ∧ first.Regular false ∧ rest.Regular false
  | .remaining elem => last = true ∧ elem.Wide ∧ elem.Regular false

def Fields.Regular (last : Bool) : Fields → Prop
  | .nil => True
  | .cons field .nil => field.Regular last
  | .cons field fields => field.Regular false ∧ fields.Regular last

def Items.Regular (last : Bool) : Items → Prop
  | .nil => True
  | .cons _ item items => item.Regular last ∧ items.Regular last

end

end Pggat.Fed
