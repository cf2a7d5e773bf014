import Pggat.Auth.Authenticate
import Pggat.Discovery.Reports

/-! Whom `Handle` serves: every pool keeps the credentials of a discovered user, and a client has to prove those. -/
namespace Pggat.Discovery
open Pggat.Base Pggat.Auth

inductive Handled where
  | next
  | failed (failure : Failure)
  | served (p : PoolAndCredentials) (conn : Conn)

/-- `Handle` of the module on a new connection. -/
def Module.handle (m : Module) (lib : Library) (random : Random) (conn : Conn) : Handled :=
  match m.getPool conn.user conn.database with
  | none => .next
  | some p =>
    match authenticateConn lib random p.creds conn with
    | (.error failure,_) => .failed failure
    | (.ok (),conn) => .served p conn

def Event.users : Event → List User
  | .added cluster => cluster.users
  | .removed _ => []
  | .reconcile clusters _ => clusters.flatMap Cluster.users

/-- A discovered user or the replica user that is derived from one. -/
def Holder (S : User → Prop) (user : User) : Prop := S user ∨ ∃ u, S u ∧ user = toReplicaUser u

/-- The credentials are those of the user that the pool is for. -/
def Owned (S : User → Prop) (key : Key) (p : PoolAndCredentials) : Prop :=
  ∃ user, Holder S user ∧ key.1 = user.username ∧ p.creds = fromString user.username user.password

private theorem Holder.password {S : User → Prop} (hS : ∀ user, S user → user.password ≠ []) {user : User}
    (h : Holder S user) : user.password ≠ [] := by
  rcases h with h | ⟨u,h,rfl⟩
  · exact hS user h
  · exact hS u h

end Pggat.Discovery
