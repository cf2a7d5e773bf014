import Pggat.Base.Runs
import Pggat.Kitchen.Chef

/-! Calls of the chef that run side by side. A step is a section under the chef's mutex, a stage of a dial or one use of
a recipe's mutex; `Learn` and `Cook` dial without the chef's mutex. The peer of a connection may be gone at any time. -/
namespace Pggat.Kitchen
open Pggat.Base

/-- How far `Dial` has come: a socket may be opened, and then the handshake on it succeeds or fails. -/
inductive Dial where
  | starting
  | connected (conn : Conn)
  | ready (conn : Conn)
  | failed
  deriving DecidableEq, Repr

inductive Result where
  | learned (removed added : List Conn)
  | forgot (removed : List Conn)
  | cooked (conn : Conn)
  | failed
  | noRecipes
  deriving DecidableEq, Repr

/-- Where a call is. `Learn` has `left` slots that it has not dialed for, and `Cook` has `known` recipes at its start and
has `tried` some of the slice that it goes through. -/
inductive Thread where
  | idle
  | learning (name : GoString) (recipe : RecipeId) (left : Nat) (added : List Conn) (socket : Option Conn)
  | freeing (name : GoString) (recipe : RecipeId) (left : Nat) (added : List Conn)
  | scoring (known : List RecipeId) (visited : List RecipeId) (recipe : RecipeId) (dial : Dial)
  | tasted (known : List RecipeId) (visited : List RecipeId) (recipe : RecipeId) (score : Option Int)
  | cooking (known tried : List RecipeId) (slice : Slice) (index : Nat) (recipe : RecipeId) (dial : Dial)
  | done (known tried : List RecipeId) (result : Result)
  deriving DecidableEq, Repr

/-- How `Cook` goes on while it holds the mutex: it comes to a recipe whose ratings have expired, or has scored all and
sorts them. -/
inductive Going where
  | score (name : GoString)
  | sort (order : List RecipeId)
  deriving DecidableEq, Repr

inductive Event where
  | learn (name : GoString) (priority minConnections maxConnections : Int)
  | connect (t : Nat)
  | refuse (t : Nat)
  | accept (t : Nat) (ok : Bool)
  | free (t : Nat)
  | enter (t : Nat) (spare : Nat)
  | forget (name : GoString)
  | cook (going : Going)
  | taste (t : Nat) (score : Option Int)
  | scored (t : Nat) (going : Going)
  | finish (t : Nat)
  | burn (conn : Conn)
  | ignite (conn : Conn)
  | close
  | sever (conn : Conn)
  deriving DecidableEq, Repr

namespace Thread

/-- The recipe that is dialed, where a socket can be opened. -/
def dials : Thread → Option RecipeId
  | learning _ r (_+1) _ none => some r
  | scoring _ _ r .starting => some r
  | cooking _ _ _ _ r .starting => some r
  | _ => none

def connect (conn : Conn) : Thread → Thread
  | learning name r left added _ => .learning name r left added (some conn)
  | scoring known visited r _ => .scoring known visited r (.connected conn)
  | cooking known tried slice i r _ => .cooking known tried slice i r (.connected conn)
  | th => th

def refuse : Thread → Thread
  | learning name r left added _ => .freeing name r left added
  | scoring known visited r _ => .scoring known visited r .failed
  | cooking known tried slice i r _ => .cooking known tried slice i r .failed
  | th => th

/-- The handshake is over. A socket on which it failed stays open. -/
def accept (ok : Bool) : Thread → Option Thread
  | learning name r (left+1) added (some conn) =>
    some (if ok then .learning name r left (added ++ [conn]) none else .freeing name r (left + 1) added)
  | scoring known visited r (.connected conn) => some (.scoring known visited r (if ok then .ready conn else .failed))
  | cooking known tried slice i r (.connected conn) =>
    some (.cooking known tried slice i r (if ok then .ready conn else .failed))
  | _ => none

theorem dials_some {th : Thread} {r : RecipeId} (h : th.dials = some r) :
    (∃ name left added, th = learning name r (left + 1) added none) ∨
    (∃ known visited, th = scoring known visited r .starting) ∨
    ∃ known tried slice i, th = cooking known tried slice i r .starting := by
  unfold dials at h
  split at h
  · cases h; exact .inl ⟨_,_,_,rfl⟩
  · cases h; exact .inr (.inl ⟨_,_,rfl⟩)
  · cases h; exact .inr (.inr ⟨_,_,_,_,rfl⟩)
  · cases h

theorem accept_some {th th' : Thread} {ok : Bool} (h : th.accept ok = some th') :
    (∃ name r left added conn, th = learning name r (left + 1) added (some conn) ∧
      th' = if ok then learning name r left (added ++ [conn]) none else freeing name r (left + 1) added) ∨
    (∃ known visited r conn, th = scoring known visited r (.connected conn) ∧
      th' = scoring known visited r (if ok then .ready conn else .failed)) ∨
    ∃ known tried slice i r conn, th = cooking known tried slice i r (.connected conn) ∧
      th' = cooking known tried slice i r (if ok then .ready conn else .failed) := by
  unfold accept at h
  split at h
  · cases h; exact .inl ⟨_,_,_,_,_,rfl,rfl⟩
  · cases h; exact .inr (.inl ⟨_,_,_,_,rfl,rfl⟩)
  · cases h; exact .inr (.inr ⟨_,_,_,_,_,_,rfl,rfl⟩)
  · cases h

end Thread

structure System extends Chef where
  threads : Nat → Thread := fun _ => .idle
  started : Nat := 0

namespace System

def goto (s : System) (t : Nat) (th : Thread) : System := { s with threads := Function.update s.threads t th }

def spawn (s : System) (th : Thread) : System :=
  { s with threads := Function.update s.threads s.started th, started := s.started + 1 }

/-- The loop of `Cook` over the slice from an index on, up to the next dial or its end. -/
def cookFrom (s : System) (t : Nat) (known tried : List RecipeId) (slice : Slice) (i : Nat) : System :=
  let tried := tried ++ s.tries slice i
  match s.candidate slice i with
  | none => s.goto t (.done known tried .noRecipes)
  | some (r,j) => { s with toChef := s.toChef.allocate r }.goto t (.cooking known tried slice j r .starting)

/-- `Cook` from a recipe to score or from the sort on. Without critics no rating expires. -/
def goOn (critics : Bool) (s : System) (t : Nat) (known : List RecipeId) (visited : List RecipeId) :
    Going → Option System
  | .score name =>
    match s.byName.get name with
    | none => none
    | some r =>
      if critics ∧ r ∉ visited then some (s.goto t (.scoring known (r :: visited) r .starting)) else none
  | .sort l =>
    if s.Arranges l then
      let s := { s with toChef := s.toChef.arrange l }
      some (s.cookFrom t known [] s.order 0)
    else none

/-- `Learn` up to its first dial. -/
def startLearn (s : System) (name : GoString) (priority minConnections maxConnections : Int) : System :=
  let (n,recipe) := Recipe.allocateInitial
    { priority := priority, minConnections := minConnections, maxConnections := maxConnections }
  let r := s.made
  { s with toChef := { s.toChef.setRecipe r recipe with made := r + 1 } }.spawn (.learning name r n [] none)

/-- The section of `Learn` under the mutex, once it has dialed and freed. -/
def enter (s : System) (t : Nat) (name : GoString) (r : RecipeId) (added : List Conn) (spare : Nat) : System :=
  let (removed,chef) := s.toChef.learn name r added spare
  { s with toChef := chef }.goto t (.done [] [] (.learned removed added))

/-- `Cook` is back under the mutex after a dial. -/
def finish (s : System) (t : Nat) (known tried : List RecipeId) (slice : Slice) (i : Nat) (r : RecipeId) :
    Dial → Option System
  | .ready conn => some ({ s with toChef := s.toChef.insert r conn }.goto t (.done known tried (.cooked conn)))
  | .failed =>
    let s := { s with toChef := s.toChef.free r }
    if i + 1 = s.order.len then some (s.goto t (.done known tried .failed))
    else some (s.cookFrom t known tried slice (i + 1))
  | _ => none

def step (critics : Bool) (s : System) : Event → Option System
  | .learn name priority minConnections maxConnections =>
    some (s.startLearn name priority minConnections maxConnections)
  | .connect t =>
    (s.threads t).dials.map fun r =>
      { s with toChef := s.toChef.connect r }.goto t ((s.threads t).connect s.dialed)
  | .refuse t => (s.threads t).dials.map fun _ => s.goto t (s.threads t).refuse
  | .accept t ok => ((s.threads t).accept ok).map (s.goto t)
  | .free t =>
    match s.threads t with
    | .freeing name r (left+1) added =>
      some ({ s with toChef := s.toChef.free r }.goto t (.freeing name r left added))
    | _ => none
  | .enter t spare =>
    match s.threads t with
    | .learning name r 0 added _ | .freeing name r 0 added => some (s.enter t name r added spare)
    | _ => none
  | .forget name =>
    let (removed,chef) := s.toChef.forget name
    some ({ s with toChef := chef }.spawn (.done [] [] (.forgot removed)))
  | .cook going => goOn critics (s.spawn .idle) s.started s.learned [] going
  | .taste t score =>
    match s.threads t with
    | .scoring known visited r (.ready conn) =>
      some ({ s with toChef := s.toChef.shut conn }.goto t (.tasted known visited r score))
    | _ => none
  | .scored t going =>
    match s.threads t with
    | .scoring known visited r .failed =>
      goOn critics { s with score := Function.update s.score r maxInt } t known visited going
    | .tasted known visited r score =>
      goOn critics { s with score := Function.update s.score r (score.getD maxInt) } t known visited going
    | _ => none
  | .finish t =>
    match s.threads t with
    | .cooking known tried slice i r dial => s.finish t known tried slice i r dial
    | _ => none
  | .burn conn => some { s with toChef := s.toChef.burn conn }
  | .ignite conn => some { s with toChef := (s.toChef.ignite conn).2 }
  | .close => some { s with toChef := s.toChef.close }
  | .sever conn => if conn < s.dialed then some { s with broken := insert conn s.broken } else none

end System
end Pggat.Kitchen
