import Pggat.Base.Custody
import Pggat.Base.Runs
import Pggat.Spool.Server

/-! Clients served side by side by one pool. A serve loop is a table of statements; each statement has one effect
on what is shared: the record that `Cancel` reads, and the servers that the poolers can hand out. -/
namespace Pggat.Pools
open Pggat.Spool Pggat.Base

/-- How a statement ends. `given` and `nothing` are the results of `Acquire`; `clean` and `dirty` say whether the
reset query of `Release` succeeded. -/
inductive Choice where
  | go
  | ready
  | unready
  | ok
  | err
  | serverErr
  | readOnly
  | given (server : Uuid)
  | nothing
  | clean
  | dirty
  deriving DecidableEq, Repr

/-- The effect of one statement; `ι` names the spool pools that the pool has. -/
inductive Op (ι : Type) where
  | pass
  | addClient
  | removeClient
  | setState (state : ConnState) (peer : Option Uuid) (replica : Bool)
  | acquire (server : ι × Uuid)
  | release (server : ι × Uuid)
  | removeServer (server : ι × Uuid)
  deriving DecidableEq, Repr

/-- `Client`, with the place of its goroutine in the serve loop. -/
structure Client (κ : Type) where
  place : κ
  registered : Bool := false
  state : ConnState := .idle
  peer : Option Uuid := none
  peerIsReplica : Bool := false
  deriving DecidableEq, Repr

def Client.found {κ : Type} (client : Client κ) : Option Uuid := if client.registered then client.peer else none

/-- A serve loop: the statement at each place, given which spool pools have recipes, and the server in its
variables there. -/
structure Loop (ι κ : Type) where
  next : (ι → Bool) → κ → Choice → Option (Op ι × κ)
  held : κ → Option (ι × Uuid)

/-- `servers` are those registered with the poolers, `pooled` those that a pooler can hand out, `made` all there
have been, and `recipes` says of which spool pools the chef has a recipe. -/
structure System (ι κ : Type) where
  clients : Uuid → Client κ
  servers : List (ι × Uuid) := []
  pooled : List (ι × Uuid) := []
  made : List (ι × Uuid) := []
  recipes : ι → Bool := fun _ => false

inductive Event (ι : Type) where
  | client (client : Uuid) (choice : Choice)
  | addServer (server : ι × Uuid)
  | removeServer (server : ι × Uuid)
  | setRecipes (pool : ι) (present : Bool)
  deriving DecidableEq, Repr

section Steps
variable {ι κ : Type} [DecidableEq ι]

namespace System

def setClient (s : System ι κ) (id : Uuid) (client : Client κ) : System ι κ :=
  { s with clients := Function.update s.clients id client }

def dropServer (s : System ι κ) (server : ι × Uuid) : System ι κ :=
  { s with servers := s.servers.filter (· ≠ server), pooled := s.pooled.filter (· ≠ server) }

/-- The effect of a statement of client `id`, which goes on to `place`. -/
def exec (s : System ι κ) (id : Uuid) (place : κ) : Op ι → Option (System ι κ)
  | .pass => some (s.setClient id { s.clients id with place := place })
  | .addClient => some (s.setClient id { place := place, registered := true })
  | .removeClient => some (s.setClient id { s.clients id with place := place, registered := false })
  | .setState state peer replica =>
    some (s.setClient id
      { s.clients id with place := place, state := state, peer := peer, peerIsReplica := replica })
  | .acquire server =>
    if server ∈ s.pooled then
      some ({ s with pooled := s.pooled.filter (· ≠ server) }.setClient id { s.clients id with place := place })
    else none
  | .release server =>
    let pooled := if server ∈ s.servers then server :: s.pooled else s.pooled
    some ({ s with pooled := pooled }.setClient id { s.clients id with place := place })
  | .removeServer server => some ((s.dropServer server).setClient id { s.clients id with place := place })

def peerOf (s : System ι κ) (id : Uuid) : Option Uuid := (s.clients id).found

end System

namespace Loop

/-- A new server has an id of its own. -/
def step (loop : Loop ι κ) (s : System ι κ) : Event ι → Option (System ι κ)
  | .client id choice =>
    match loop.next s.recipes (s.clients id).place choice with
    | some (op,place) => s.exec id place op
    | none => none
  | .addServer server =>
    if server.2 ∉ s.made.map Prod.snd then
      some { s with servers := server :: s.servers, pooled := server :: s.pooled, made := server :: s.made }
    else none
  | .removeServer server => some (s.dropServer server)
  | .setRecipes pool present => some { s with recipes := Function.update s.recipes pool present }

/-- A server given back is not the one recorded for the client that gives it back. -/
def Prompt (loop : Loop ι κ) (s : System ι κ) : Event ι → Prop
  | .client id choice =>
    match loop.next s.recipes (s.clients id).place choice with
    | some (.release server,_) => s.peerOf id ≠ some server.2
    | _ => True
  | _ => True

instance (loop : Loop ι κ) (s : System ι κ) (e : Event ι) : Decidable (loop.Prompt s e) := by
  cases e with
  | client id choice => dsimp only [Prompt]; split <;> infer_instance
  | addServer _ => exact .isTrue trivial
  | removeServer _ => exact .isTrue trivial
  | setRecipes _ _ => exact .isTrue trivial

end Loop
end Steps
end Pggat.Pools
