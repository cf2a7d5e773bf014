import Pggat.Pgbouncer.Lookup

/-! Calls of `Handle` that run side by side, until `Cleanup`. A pool is stored before its recipe is added, and it is
never made at all. -/
namespace Pggat.Pgbouncer
open Pggat.Base Pggat.Auth
open Pggat.Frontends (Conn Code)
open Pggat.Ps (Fold CIString)

/-- The error of a connection that is turned down before its pool is looked up. -/
structure Refusal where
  code : Code
  message : GoString
  deriving DecidableEq, Repr

def unsupportedParameter {fold : Fold} (key : CIString fold) : Refusal where
  code := .featureNotSupported
  message := ascii "Startup parameter \"".toList ++ key.val ++ ascii "\" is not supported".toList

/-- The checks of `Handle`. -/
def Config.refuses {fold : Fold} (cfg : Config fold) (conn : Conn fold) : Option Refusal :=
  if cfg.pgBouncer.clientTLSSSLMode.isRequired ∧ conn.ssl = false then
    some ⟨.invalidPassword,ascii "SSL is required".toList⟩
  else (conn.initialParameters.keys.find? fun key => cfg.supports key = false).map unsupportedParameter

/-- Where a call of `Handle` is. -/
inductive Handler (fold : Fold) where
  | refused (e : Refusal)
  | looking (c : Call fold)
  | routed
  | authenticating (p : PoolAndCredentials)
  | rejected
  | serving (pool : Nat)
  | panicking

/-- An entry that was stored, and whether its pool was there and had its recipe at the time. -/
structure Published where
  key : Key
  entry : PoolAndCredentials
  ready : Bool
  deriving DecidableEq, Repr

/-- `published` is everything that was stored and `found` what lookups returned. A panic ends the process, though not
at once. -/
structure System (fold : Fold) where
  module : Module fold := {}
  handlers : Nat → Option (Handler fold) := fun _ => none
  crashed : Bool := false
  published : List Published := []
  found : List (Key × PoolAndCredentials) := []

inductive Event (fold : Fold) where
  | handle (t : Nat) (conn : Conn fold)
  | step (t : Nat) (answer : Answer)
  | authenticate (t : Nat) (ok : Bool)
  | crash (t : Nat)

def PoolAndCredentials.ready {fold : Fold} (p : PoolAndCredentials) (T : Module fold) : Bool :=
  match p.pool with
  | none => false
  | some a => (T.recipes a recipeName).isSome

section
variable {fold : Fold}

def Call.key (c : Call fold) : Key := (c.user,c.database)

def Call.publishes (T : Module fold) (c : Call fold) : List Published :=
  match c.stage with
  | .store _ p => [⟨c.key,p,p.ready T⟩]
  | _ => []

def Call.finds (c : Call fold) : List (Key × PoolAndCredentials) :=
  match c.stage with
  | .returned (some p) => [(c.key,p)]
  | _ => []

/-- The call is about to find an entry or to store over one. -/
def Call.meets (T : Module fold) (c : Call fold) : Bool :=
  match c.stage with
  | .lookup | .store _ _ => (T.pools.get c.key).isSome
  | _ => false

namespace System

def setHandler (s : System fold) (t : Nat) (h : Handler fold) : System fold :=
  { s with handlers := Function.update s.handlers t (some h) }

def advance (s : System fold) (t : Nat) (c : Call fold) : Next fold → Option (System fold)
  | .goes T c' => some { s.setHandler t (.looking c') with
      module := T
      published := c.publishes s.module ++ s.published
      found := c'.finds ++ s.found }
  | .ends T (some p) => some { s.setHandler t (.authenticating p) with module := T }
  | .ends T none => some { s.setHandler t .routed with module := T }
  | .blocks => none
  | .panics T => some { s.setHandler t .panicking with module := T }

def step (cfg : Config fold) (s : System fold) (e : Event fold) : Option (System fold) :=
  if s.crashed then none
  else
    match e with
    | .handle t conn =>
      match s.handlers t with
      | some _ => none
      | none =>
        match cfg.refuses conn with
        | some e => some (s.setHandler t (.refused e))
        | none => some (s.setHandler t (.looking ⟨conn.user,conn.database,[],.lookup⟩))
    | .step t answer =>
      match s.handlers t with
      | some (.looking c) => s.advance t c (c.step cfg answer s.module)
      | _ => none
    | .authenticate t ok =>
      match s.handlers t with
      | some (.authenticating p) =>
        if ok = false then some (s.setHandler t .rejected)
        else
          match p.pool with
          | none => some (s.setHandler t .panicking)
          | some a => some (s.setHandler t (.serving a))
      | _ => none
    | .crash t =>
      match s.handlers t with
      | some .panicking => some { s with crashed := true }
      | _ => none

/-- One working pool for each user and database: the pool that a lookup returns was there and had its recipe when it
was stored, the lookups of a key agree, and nothing was stored over it. -/
structure Sound (s : System fold) : Prop where
  ready : ∀ e ∈ s.found, ∃ v ∈ s.published, v.key = e.1 ∧ v.entry = e.2 ∧ v.ready = true
  same : ∀ e ∈ s.found, ∀ e' ∈ s.found, e.1 = e'.1 → e.2.pool = e'.2.pool
  once : (s.published.map Published.key).Nodup

/-- The event is a `Load` or a `Store` that meets an entry of its key. -/
def meets (s : System fold) : Event fold → Bool
  | .step t _ =>
    match s.handlers t with
    | some (.looking c) => c.meets s.module
    | _ => false
  | _ => false

def Apart (s : System fold) (e : Event fold) : Prop := s.meets e = false

instance (s : System fold) (e : Event fold) : Decidable (s.Apart e) := inferInstanceAs (Decidable (_ = _))

end System
end
end Pggat.Pgbouncer
