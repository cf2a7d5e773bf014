import Pggat.Kitchen.Returns
import Pggat.Spool.Roster

/-! The servers that a pool knows, next to its kitchen. The operations of the pool work under the chef's mutex first and
under the pool's own afterwards; a step is one section of either. -/
namespace Pggat.Spool
open Pggat.Base

/-- `ScaleDown` holds the pool's mutex for the whole of its loop; between `Ignite` and the removal of the server it has
`ignited` a connection. -/
inductive Sweep where
  | off
  | looking
  | ignited (server : Uuid) (conn : Kitchen.Conn)
  deriving DecidableEq, Repr

/-- `settled` are the calls of the chef that the pool is through with, `removing` the servers between the two sections of
`RemoveServer`. -/
structure Members extends Kitchen.System, Roster where
  settled : Nat → Bool := fun _ => false
  removing : List Uuid := []
  sweep : Sweep := .off
  closing : Bool := false
  closed : Bool := false

namespace Members

inductive Event where
  | kitchen (e : Kitchen.Event)
  | settle (t : Nat)
  | burn (server : Uuid)
  | delete (server : Uuid)
  | scaleDown
  | ignite (server : Uuid)
  | drop
  | unlock
  | close
  | clear
  deriving DecidableEq, Repr

def step (critics : Bool) (s : Members) : Event → Option Members
  | .kitchen e =>
    if e.calls then (s.toSystem.step critics e).map fun kitchen => { s with toSystem := kitchen } else none
  | .settle t =>
    let removed := (s.threads t).removed
    let added := (s.threads t).added
    if (s.threads t).returned ∧ s.settled t = false ∧ (s.sweep = .off ∨ removed = [] ∧ added = []) then
      some { s with
        toRoster := s.toRoster.settle removed added
        settled := Function.update s.settled t true }
    else none
  | .burn server =>
    if server < s.created then
      some { s with toChef := s.toChef.burn (s.servers server), removing := server :: s.removing }
    else none
  | .delete server =>
    if server ∈ s.removing ∧ s.sweep = .off then
      some { s with
        toRoster := s.toRoster.deleteServer server (s.servers server)
        removing := s.removing.erase server }
    else none
  | .scaleDown => if s.sweep = .off then some { s with sweep := .looking } else none
  | .ignite server =>
    match s.sweep, s.serversByID.get server with
    | .looking, some conn =>
      let (ok,chef) := s.toChef.ignite conn
      some { s with toChef := chef, sweep := if ok then .ignited server conn else .looking }
    | _, _ => none
  | .drop =>
    match s.sweep with
    | .ignited server conn =>
      some { s with toRoster := s.toRoster.deleteServer server conn, sweep := .looking }
    | _ => none
  | .unlock => if s.sweep = .looking then some { s with sweep := .off } else none
  | .close => if s.closed then none else some { s with toChef := s.toChef.close, closing := true, closed := true }
  | .clear =>
    if s.closing ∧ s.sweep = .off then some { s with serversByID := ∅, serversByConn := ∅, closing := false } else none

def Quiet (s : Members) : Prop :=
  (∀ t < s.started, s.settled t = true) ∧ s.removing = [] ∧ s.sweep = .off ∧ s.closing = false

end Members
end Pggat.Spool
