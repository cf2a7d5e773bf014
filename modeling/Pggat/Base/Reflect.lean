import Mathlib.Data.Fin.Tuple.Basic
import Mathlib.Logic.Function.Basic
import Pggat.Base.Encodings
import Pggat.Base.Loops

/-! Go's types and their values as `reflect` shows them. -/
namespace Pggat.Base.Reflect

/-- The sizes of integers; `int` and `uint` have 64 bits. -/
inductive Width where
  | w8 | w16 | w32 | w64
  deriving DecidableEq, Repr

def Width.bits : Width → Nat
  | w8 => 8
  | w16 => 16
  | w32 => 32
  | w64 => 64

inductive ScalarKind where
  | string
  | bool
  | int (w : Width)
  | uint (w : Width)
  | float (double : Bool)
  deriving DecidableEq, Repr

structure Field where
  name : GoString
  exported : Bool := true
  tags : List (GoString × GoString) := []
  deriving DecidableEq, Repr

/-- The tag of a field, or its name. -/
def Field.called (field : Field) (tag : GoString) : GoString := (field.tags.lookup tag).getD field.name

/-- The type of the keys of a map. -/
inductive KeyTy (C : Type) where
  | scalar (kind : ScalarKind)
  | custom (c : C)

mutual

/-- A type. Those in `C` are defined with an underlying type and a method of their own that reads a text; `other` is any
kind that is read nowhere. -/
inductive Ty (C : Type) where
  | scalar (kind : ScalarKind)
  | custom (c : C) (underlying : Ty C)
  | other
  | ptr (elem : Ty C)
  | slice (elem : Ty C)
  | array (length : Nat) (elem : Ty C)
  | struct (fields : Fields C)
  | map (key : KeyTy C) (elem : Ty C)

inductive Fields (C : Type) where
  | nil
  | cons (field : Field) (type : Ty C) (rest : Fields C)

end

/-- Values that are not modelled: floating point numbers, and keys with a method of their own. -/
structure Carriers (C : Type) where
  Float : Bool → Type
  decEq : ∀ double, DecidableEq (Float double)
  zeroFloat : ∀ double, Float double
  Key : C → Type
  decEqKey : ∀ c, DecidableEq (Key c)

section
variable {C : Type} (env : Carriers C)

def ScalarKind.Val : ScalarKind → Type
  | .string => GoString
  | .bool => Bool
  | .int w => BitVec w.bits
  | .uint w => BitVec w.bits
  | .float double => env.Float double

instance : ∀ kind : ScalarKind, DecidableEq (kind.Val env)
  | .string => inferInstanceAs (DecidableEq GoString)
  | .bool => inferInstanceAs (DecidableEq Bool)
  | .int w => inferInstanceAs (DecidableEq (BitVec w.bits))
  | .uint w => inferInstanceAs (DecidableEq (BitVec w.bits))
  | .float double => env.decEq double

def ScalarKind.zero : (kind : ScalarKind) → kind.Val env
  | .string => ([] : GoString)
  | .bool => false
  | .int w => (0 : BitVec w.bits)
  | .uint w => (0 : BitVec w.bits)
  | .float double => env.zeroFloat double

def KeyTy.Val : KeyTy C → Type
  | .scalar kind => kind.Val env
  | .custom c => env.Key c

instance : ∀ key : KeyTy C, DecidableEq (key.Val env)
  | .scalar kind => inferInstanceAs (DecidableEq (kind.Val env))
  | .custom c => env.decEqKey c

mutual

/-- The values of a type. `none` is the nil pointer and the nil map. -/
def Ty.Val : Ty C → Type
  | .scalar kind => kind.Val env
  | .custom _ t => t.Val
  | .other => Unit
  | .ptr t => Option t.Val
  | .slice t => List t.Val
  | .array n t => Fin n → t.Val
  | .struct fields => fields.Val
  | .map key t => Option (key.Val env → Option t.Val)

def Fields.Val : Fields C → Type
  | .nil => Unit
  | .cons _ t rest => t.Val × rest.Val

end

mutual

def Ty.zero : (t : Ty C) → t.Val env
  | .scalar kind => kind.zero env
  | .custom _ t => t.zero
  | .other => ()
  | .ptr _ => none
  | .slice _ => []
  | .array _ t => fun _ => t.zero
  | .struct fields => fields.zero
  | .map _ _ => none

def Fields.zero : (fields : Fields C) → fields.Val env
  | .nil => ()
  | .cons _ t rest => (t.zero,rest.zero)

end

end

/-- How floating point numbers are parsed, and the methods that read a text. -/
structure Env (C : Type) extends Carriers C where
  parseFloat : ∀ double, GoString → Option (Float double)
  readKey : ∀ c, GoString → Option (Key c)
  unmarshal : C → (t : Ty C) → GoString → t.Val toCarriers → Option (t.Val toCarriers)

instance {C : Type} : CoeOut (Env C) (Carriers C) := ⟨Env.toCarriers⟩

/-- `SetMapIndex`, on a map that is made first if it is nil. -/
def setMapIndex {K V : Type} [DecidableEq K] (m : Option (K → Option V)) (k : K) (v : V) : Option (K → Option V) :=
  some (Function.update (m.getD fun _ => none) k (some v))

/-- Results for each index in turn, or the first error. -/
def sequence {ε α : Type} : {n : Nat} → (Fin n → Except ε α) → Except ε (Fin n → α)
  | 0, _ => .ok Fin.elim0
  | _+1, f => do
    let x ← f 0
    let xs ← sequence fun i => f i.succ
    return Fin.cons x xs

theorem sequence_eq_ok {ε α : Type} {n : Nat} {f : Fin n → Except ε α} {g : Fin n → α} :
    sequence f = .ok g ↔ ∀ i, f i = .ok (g i) := by
  induction n with
  | zero => exact ⟨fun _ i => i.elim0,fun _ => congrArg Except.ok (funext fun i => i.elim0)⟩
  | succ n ih =>
    constructor
    · intro h
      obtain ⟨x,hx,h⟩ := bind_eq_ok.mp h
      obtain ⟨xs,hxs,h⟩ := bind_eq_ok.mp h
      cases h
      exact Fin.cases hx (ih.mp hxs)
    · intro h
      refine bind_eq_ok.mpr ⟨g 0,h 0,bind_eq_ok.mpr ⟨fun i => g i.succ,ih.mpr fun i => h i.succ,?_⟩⟩
      exact congrArg Except.ok (Fin.cons_self_tail g)

end Pggat.Base.Reflect
