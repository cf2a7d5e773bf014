import Pggat.Base.Action
import Pggat.Base.Maps
import Pggat.Base.Runes

/-! The `ps` middlewares and their sync, which brings the parameters of a client and a server together. -/
namespace Pggat.Ps
open Pggat.Base

/-- Go's `strings.ToLower`, which leaves alone what is lower case already. -/
structure Fold where
  toLower : GoString → GoString
  idempotent : ∀ s, toLower (toLower s) = toLower s

abbrev CIString (fold : Fold) := { s : GoString // fold.toLower s = s }

def makeCIString (fold : Fold) (value : GoString) : CIString fold := ⟨fold.toLower value,fold.idempotent value⟩

theorem makeCIString_val {fold : Fold} (name : CIString fold) : makeCIString fold name.val = name := Subtype.ext name.2

/-- `ParameterStatus` -/
structure Status where
  key : GoString
  value : GoString
  deriving DecidableEq, Repr

abbrev Parameters (fold : Fold) := Map (CIString fold) GoString

structure Client (fold : Fold) where
  synced : Bool := false
  parameters : Parameters fold := ∅

/-- `reported` is what the server has last reported of each parameter. -/
structure Server (fold : Fold) where
  parameters : Parameters fold := ∅
  reported : CIString fold → Option GoString := fun _ => none

/-- `Server.ReadPacket` of a `ParameterStatus`. -/
def Server.readStatus {fold : Fold} (s : Server fold) (p : Status) : Server fold where
  parameters := s.parameters.insert (makeCIString fold p.key) p.value
  reported := Function.update s.reported (makeCIString fold p.key) (some p.value)

/-- What a server sends for a `SET`; without `ok` the connection fails behind it. A `SET` that it rejects has no
reports. -/
structure Reaction where
  reports : List Status := []
  ok : Bool := true

inductive Fault where
  | client
  | server
  deriving DecidableEq, Repr

/-- The server's reactions to the `SET`s that it is sent, and which writes to the client succeed. -/
structure Peers (fold : Fold) where
  react : Nat → CIString fold → GoString → Reaction
  takes : Nat → Bool

/-- A client that is paired with a server. `sets` are the parameters that were set on the server and `delivered`
what was written to the client. -/
structure Pair (fold : Fold) where
  client : Client fold
  server : Server fold
  sets : List (CIString fold × GoString) := []
  delivered : List Status := []

def orEmpty (value : Option GoString) : GoString := value.getD []

section
variable {fold : Fold} (peers : Peers fold)

/-- `client.WritePacket` of a `ParameterStatus`. -/
def writeStatus (p : Status) : Action Fault (Pair fold) Unit := fun st =>
  if st.client.synced ∧ orEmpty (st.client.parameters.get (makeCIString fold p.key)) = p.value then (.ok (),st)
  else
    let client := { st.client with parameters := st.client.parameters.insert (makeCIString fold p.key) p.value }
    if peers.takes st.delivered.length then (.ok (),{ st with client := client, delivered := st.delivered ++ [p] })
    else (.error .client,{ st with client := client })

/-- `backends.SetParameter`, with no peer. -/
def setParameter (name : CIString fold) (value : GoString) : Action Fault (Pair fold) Unit := fun st =>
  let reaction := peers.react st.sets.length name value
  let st' := { st with server := reaction.reports.foldl Server.readStatus st.server, sets := st.sets ++ [(name,value)] }
  if reaction.ok then (.ok (),st') else (.error .server,st')

/-- The entry that `sync` makes itself. -/
def setEntry (name : CIString fold) (value : GoString) : Action Fault (Pair fold) Unit := fun st =>
  (.ok (),{ st with server := { st.server with parameters := st.server.parameters.insert name value } })

/-- `sync` of one parameter; `tell` says that there is a client to write to. -/
def sync (tell : Bool) (tracking : List (CIString fold)) (name : CIString fold) : Action Fault (Pair fold) Unit := fun st =>
  let value := st.client.parameters.get name
  let expected := st.server.parameters.get name
  if orEmpty value = orEmpty expected then
    if tell ∧ ¬ st.client.synced then writeStatus peers ⟨name.val,orEmpty expected⟩ st else (.ok (),st)
  else if value.isSome ∧ name ∈ tracking then
    (do
      setParameter peers name (orEmpty value)
      setEntry name (orEmpty value)
      if tell ∧ ¬ st.client.synced then writeStatus peers ⟨name.val,orEmpty value⟩) st
  else if tell ∧ expected.isSome then writeStatus peers ⟨name.val,orEmpty expected⟩ st
  else (.ok (),st)

/-- Parameters of the server that the client has are skipped by the second loop. -/
def syncAbsent (tell : Bool) (tracking : List (CIString fold)) (name : CIString fold) : Action Fault (Pair fold) Unit := fun st =>
  if (st.client.parameters.get name).isSome then (.ok (),st) else sync peers tell tracking name st

/-- An order of iteration over any map. -/
structure Range (fold : Fold) where
  order : Parameters fold → List (CIString fold)
  lists : ∀ m : Parameters fold, Map.Lists m (order m)

def clientLoop (tell : Bool) (tracking : List (CIString fold)) (clients : Range fold) : Action Fault (Pair fold) Unit :=
  fun st => Action.each (sync peers tell tracking) (clients.order st.client.parameters) st

def serverLoop (tell : Bool) (tracking : List (CIString fold)) (servers : Range fold) : Action Fault (Pair fold) Unit :=
  fun st => Action.each (syncAbsent peers tell tracking) (servers.order st.server.parameters) st

/-- `SyncMiddleware` -/
def syncMiddleware (tracking : List (CIString fold)) (clients servers : Range fold) : Action Fault (Pair fold) Unit := do
  clientLoop peers false tracking clients
  serverLoop peers false tracking servers

def markSynced : Action Fault (Pair fold) Unit := fun st =>
  (.ok (),{ st with client := { st.client with synced := true } })

/-- `Sync` -/
def syncConn (tracking : List (CIString fold)) (clients servers : Range fold) : Action Fault (Pair fold) Unit := do
  clientLoop peers true tracking clients
  serverLoop peers true tracking servers
  markSynced

end
end Pggat.Ps
