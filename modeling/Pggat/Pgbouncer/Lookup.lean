import Pggat.Base.Runs
import Pggat.Pgbouncer.Config

/-! The pools of the `pgbouncer` handler and the calls of `lookup`. A step of a call is one access to what the calls
share: the map of pools, its mutex or a pool. -/
namespace Pggat.Pgbouncer
open Pggat.Base Pggat.Auth
open Pggat.Ps (Fold)

/-- `pool` is the address of a pool or nil. -/
structure PoolAndCredentials where
  pool : Option Nat := none
  creds : Option Credentials
  deriving DecidableEq, Repr

abbrev Key := GoString × GoString

/-- `recipes` are those of the pool at an address. -/
structure Module (fold : Fold) where
  pools : Map Key PoolAndCredentials := ∅
  mu : Bool := false
  recipes : Nat → GoString → Option (Recipe fold) := fun _ _ => none

/-- How an auth query ends. Without a row the result keeps its zero value. -/
inductive Answer where
  | failed
  | result (username : GoString) (password : Option GoString)
  deriving DecidableEq, Repr

/-- The password of a user that an auth query returns. -/
def Answer.password (user : GoString) : Answer → Option GoString
  | .failed => none
  | .result username password => if username ≠ user then none else some (password.getD [])

/-- Where a call is: at the access of `lookup` to the map, at the start of `tryCreate`, before the auth query of
`getPassword`, before `tryCreate` locks the mutex, stores the pool and adds its recipe, or at the return. -/
inductive Stage (fold : Fold) where
  | lookup
  | tryCreate
  | query (db : Database fold) (authPool : PoolAndCredentials)
  | lock (db : Database fold) (password : GoString)
  | store (db : Database fold) (p : PoolAndCredentials)
  | addRecipe (db : Database fold) (p : PoolAndCredentials)
  | returned (p : Option PoolAndCredentials)

/-- A `getPassword` that waits for the pool of the auth user. -/
structure Frame (fold : Fold) where
  user : GoString
  db : Database fold

/-- A call of `lookup`, and the calls for the same database that it was made from, the last one first. -/
structure Call (fold : Fold) where
  user : GoString
  database : GoString
  waiting : List (Frame fold) := []
  stage : Stage fold := .lookup

/-- What a step of a call leads to. -/
inductive Next (fold : Fold) where
  | goes (T : Module fold) (c : Call fold)
  | ends (T : Module fold) (p : Option PoolAndCredentials)
  | blocks
  | panics (T : Module fold)

def recipeName : GoString := ascii "pgbouncer".toList

section
variable {fold : Fold} (cfg : Config fold)

namespace Call

/-- `tryCreate` between the password and the lock. -/
def create (c : Call fold) (db : Database fold) : Option GoString → Call fold
  | none => { c with stage := .returned none }
  | some password => { c with stage := if cfg.Pools db c.user then .lock db password else .returned none }

/-- `tryCreate`, up to the lock or the auth user's `lookup`. -/
def tryCreate (c : Call fold) : Call fold :=
  match cfg.database c.database with
  | none => { c with stage := .returned none }
  | some db =>
    match cfg.getPassword c.user c.database with
    | .known password => c.create cfg db (some password)
    | .refused => c.create cfg db none
    | .ask authUser => { c with user := authUser, waiting := ⟨c.user,db⟩ :: c.waiting, stage := .lookup }

/-- `AddRecipe` at the end of `tryCreate`. The mutex is unlocked behind it, also in a panic. -/
def addRecipe (c : Call fold) (T : Module fold) (db : Database fold) (p : PoolAndCredentials) : Next fold :=
  match p.pool with
  | none => .panics { T with mu := false }
  | some a =>
    let recipe := cfg.recipe db c.user c.database p.creds
    .goes { T with
        mu := false
        recipes := Function.update T.recipes a (Function.update (T.recipes a) recipeName (some recipe)) }
      { c with stage := .returned (some p) }

/-- A step of a call, with the answer to the auth query that it may be about to make. The pool that `tryCreate` stores
is the zero value of its type: nothing is made of the configuration that it puts together. -/
def step (answer : Answer) (T : Module fold) (c : Call fold) : Next fold :=
  match c.stage with
  | .lookup =>
    match T.pools.get (c.user,c.database) with
    | some p => .goes T { c with stage := .returned (some p) }
    | none => .goes T { c with stage := .tryCreate }
  | .tryCreate => .goes T (c.tryCreate cfg)
  | .query db authPool =>
    match authPool.pool with
    | none => .panics T
    | some _ => .goes T (c.create cfg db (answer.password c.user))
  | .lock db password =>
    if T.mu then .blocks
    else .goes { T with mu := true } { c with stage := .store db { creds := fromString c.user password } }
  | .store db p =>
    .goes { T with pools := AList.insert (c.user,c.database) p T.pools } { c with stage := .addRecipe db p }
  | .addRecipe db p => c.addRecipe cfg T db p
  | .returned p =>
    match c.waiting with
    | [] => .ends T p
    | frame :: waiting =>
      match p with
      | some p => .goes T { c with user := frame.user, waiting := waiting, stage := .query frame.db p }
      | none => .goes T (create cfg { c with user := frame.user, waiting := waiting } frame.db none)

/-- The steps of a call that nothing interferes with. -/
def run (answers : GoString → Answer) : Nat → Module fold → Call fold → Next fold
  | 0, T, c => .goes T c
  | n+1, T, c =>
    match c.step cfg (answers c.user) T with
    | .goes T c => run answers n T c
    | r => r

end Call
end
end Pggat.Pgbouncer
