import Mathlib.Data.Finset.Card
import Pggat.Base.Maps
import Pggat.Base.Runes
import Pggat.Base.Slices

/-! The kitchen: recipes with their limits, the connections made from them, and what the chef does while it holds its
mutex. -/
namespace Pggat.Kitchen
open Pggat.Base

abbrev Conn := Nat
abbrev RecipeId := Nat

/-- `pool.Recipe` without its dialer. -/
structure Recipe where
  priority : Int := 0
  minConnections : Int := 0
  maxConnections : Int := 0
  count : Int := 0
  deriving DecidableEq, Repr

namespace Recipe

def allocateInitial (r : Recipe) : Nat × Recipe :=
  if r.minConnections ≤ r.count then (0,r)
  else ((r.minConnections - r.count).toNat,{ r with count := r.minConnections })

def allocate (r : Recipe) : Option Recipe :=
  if r.maxConnections ≠ 0 ∧ r.maxConnections ≤ r.count then none else some { r with count := r.count + 1 }

def tryFree (r : Recipe) : Option Recipe :=
  if r.count ≤ r.minConnections then none else some { r with count := r.count - 1 }

def free (r : Recipe) : Recipe := { r with count := r.count - 1 }

end Recipe

def maxInt : Int := 0x7FFFFFFFFFFFFFFF

/-- Every `Learn` has a `pool.Recipe` of its own, so it and the `kitchen.Recipe` made of it have one number: `recipes`
are the former, `score` and `conns` the fields of the latter. `order` is a slice that running `Cook`s share. Connections
are numbered as they are opened; `opened` are those that nobody has closed, and `broken` those for which nothing can be
flushed any more. -/
structure Chef where
  recipes : RecipeId → Recipe := fun _ => {}
  made : Nat := 0
  score : RecipeId → Int := fun _ => 0
  conns : RecipeId → List Conn := fun _ => []
  byName : Map GoString RecipeId := ∅
  byConn : Map Conn RecipeId := ∅
  order : Slice := {}
  arrays : Arrays RecipeId := {}
  dialed : Nat := 0
  origin : Conn → RecipeId := fun _ => 0
  opened : Finset Conn := ∅
  broken : Finset Conn := ∅

namespace Chef

def setRecipe (s : Chef) (r : RecipeId) (recipe : Recipe) : Chef :=
  { s with recipes := Function.update s.recipes r recipe }

def free (s : Chef) (r : RecipeId) : Chef := s.setRecipe r (s.recipes r).free

def connect (s : Chef) (r : RecipeId) : Chef :=
  { s with
    dialed := s.dialed + 1
    origin := Function.update s.origin s.dialed r
    opened := Insert.insert s.dialed s.opened }

def learned (s : Chef) : List RecipeId := s.byName.entries.map (·.2)

/-- `Close` of a connection. It returns before it closes the socket when `Flush` fails, and the chef drops the error. -/
def shut (s : Chef) (conn : Conn) : Chef :=
  { s with opened := if conn ∈ s.broken then s.opened else s.opened.erase conn }

/-- A connection leaves the kitchen, and its slot is free again. -/
def drop (s : Chef) (r : RecipeId) (conn : Conn) : Chef :=
  { (s.free r).shut conn with
    byConn := s.byConn.erase conn
    conns := Function.update s.conns r ((s.conns r).erase conn) }

/-- A connection that has been dialed comes into the kitchen. -/
def insert (s : Chef) (r : RecipeId) (conn : Conn) : Chef :=
  { s with
    byConn := s.byConn.insert conn r
    conns := Function.update s.conns r (conn :: s.conns r) }

def removeOrder (s : Chef) (r : RecipeId) : Chef :=
  { s with arrays := (s.arrays.remove s.order r).1, order := (s.arrays.remove s.order r).2 }

def appendOrder (s : Chef) (r : RecipeId) (spare : Nat) : Chef :=
  { s with
    arrays := (s.arrays.append s.order r (List.replicate spare 0)).1
    order := (s.arrays.append s.order r (List.replicate spare 0)).2 }

/-- `forget`, which returns the connections that it closed. -/
def forget (s : Chef) (name : GoString) : List Conn × Chef :=
  match s.byName.get name with
  | none => ([],s)
  | some r =>
    let conns := s.conns r
    let s := { s with byName := s.byName.erase name }
    (conns,(conns.foldl (fun s conn => s.drop r conn) s).removeOrder r)

/-- The section of `Learn` under the mutex. A new array of `order` has `spare` more cells. -/
def learn (s : Chef) (name : GoString) (r : RecipeId) (added : List Conn) (spare : Nat) : List Conn × Chef :=
  let (removed,s) := s.forget name
  let s := { s with byName := s.byName.insert name r }
  (removed,(added.foldl (fun s conn => s.insert r conn) s).appendOrder r spare)

def burn (s : Chef) (conn : Conn) : Chef :=
  match s.byConn.get conn with
  | none => s
  | some r => s.drop r conn

def ignite (s : Chef) (conn : Conn) : Bool × Chef :=
  match s.byConn.get conn with
  | none => (false,s)
  | some r =>
    match (s.recipes r).tryFree with
    | none => (false,s)
    | some _ => (true,s.drop r conn)

def close (s : Chef) : Chef :=
  s.byConn.entries.foldl (fun s e => s.drop e.2 e.1) { s with byName := ∅, order := { s.order with len := 0 } }

def rating (s : Chef) (r : RecipeId) : Int :=
  if s.score r = maxInt then s.score r else s.score r + (s.recipes r).priority

/-- What `Cook` sorts by. -/
def less (s : Chef) (a b : RecipeId) : Prop :=
  s.rating a < s.rating b ∨ (s.rating a = s.rating b ∧ (s.conns a).length < (s.conns b).length)

instance (s : Chef) (a b : RecipeId) : Decidable (s.less a b) := by unfold less; infer_instance

/-- A result that `sort.Slice` may have. -/
def Arranges (s : Chef) (l : List RecipeId) : Prop :=
  l.Perm (s.arrays.read s.order) ∧ l.Pairwise fun a b => ¬ s.less b a

instance (s : Chef) (l : List RecipeId) : Decidable (s.Arranges l) := by unfold Arranges; infer_instance

def arrange (s : Chef) (l : List RecipeId) : Chef := { s with arrays := s.arrays.write s.order l }

/-- The next recipe of a slice, from an index on, that has a slot to allocate. -/
def candidate (s : Chef) (slice : Slice) (i : Nat) : Option (RecipeId × Nat) :=
  ((s.arrays.read slice).zipIdx.drop i).find? fun e => (s.recipes e.1).allocate.isSome

/-- The recipes that a `Cook` tries from an index on until it comes to the candidate. -/
def tries (s : Chef) (slice : Slice) (i : Nat) : List RecipeId :=
  match s.candidate slice i with
  | none => (s.arrays.read slice).drop i
  | some (_,j) => ((s.arrays.read slice).take (j + 1)).drop i

def allocate (s : Chef) (r : RecipeId) : Chef :=
  s.setRecipe r ((s.recipes r).allocate.getD (s.recipes r))

end Chef
end Pggat.Kitchen
