import Pggat.Base.Runs
import Pggat.Spool.Pooler

/-! The server pool, the clients that acquire and release its servers, and the scan of `ScaleDown`.
A step is one call on the pooler, the kitchen or a server's state, or one critical section of the
pool's mutex; `ScaleDown` holds that mutex from `scaleDown` to `unlock`. -/
namespace Pggat.Spool
open Pggat.Base

structure Config where
  idleTimeout : Int
  resetQuery : Bool

/-- Where a client is. It is `given` a server by the pooler, and holds it once the pool has found it among
its servers and marked it. After `released` the server is back in the pooler. -/
inductive Phase where
  | out
  | acquiring
  | given (server : Uuid)
  | missed (server : Uuid)
  | holding (server : Uuid)
  | resetting (server : Uuid)
  | releasing (server : Uuid)
  | released (server : Uuid)
  | removing (server : Uuid)
  | burnt (server : Uuid)
  | deleting (server : Uuid)
  deriving DecidableEq, Repr

def Phase.holds : Phase → Option Uuid
  | holding s | resetting s | releasing s | removing s | burnt s | deleting s => some s
  | out | acquiring | given _ | missed _ | released _ => none

inductive Stage where
  | next
  | condemned (server : Uuid)
  | ignited (server : Uuid)
  deriving DecidableEq, Repr

/-- A running `ScaleDown`: its argument, the duration it will return, the servers it has seen, and
what it does with the current one. -/
structure Scan where
  now : Int
  m : Int
  seen : List Uuid := []
  stage : Stage := .next

/-- `servers` are the server objects by id, also those that left the pool, and `ids` all ids ever made.
`byConn` are the connections that the kitchen knows, `leaving` those it was told to forget, and
`ignited` those that `ScaleDown` closed. -/
structure Pool (σ : Type) where
  pooler : σ
  clock : Int := 1
  servers : Uuid → Server := fun _ => .newServer 0
  ids : List Uuid := []
  serversByID : List Uuid := []
  byConn : List Uuid := []
  leaving : List Uuid := []
  ignited : List Uuid := []
  scan : Option Scan := none
  clients : Uuid → Phase := fun _ => .out

inductive Event where
  | tick (d : Nat)
  | addServer (id : Uuid)
  | forget (id : Uuid)
  | removeServer (id : Uuid)
  | readMetrics (id : Uuid)
  | acquire (client : Uuid)
  | receive (client : Uuid)
  | timeout (client : Uuid)
  | lookup (client : Uuid)
  | discard (client : Uuid)
  | pair (client : Uuid)
  | activate (client : Uuid)
  | transactionComplete (client : Uuid)
  | release (client : Uuid)
  | resetDone (client : Uuid) (ok : Bool)
  | giveBack (client : Uuid)
  | setIdle (client : Uuid)
  | remove (client : Uuid)
  | burn (client : Uuid)
  | unpool (client : Uuid)
  | delete (client : Uuid)
  | scaleDown (now : Int)
  | look (server : Uuid)
  | ignite (tryFree : Bool)
  | drop
  | unlock
  | close
  | clear
  deriving DecidableEq, Repr

namespace Pool
variable {σ : Type} (config : Config) (P : Pooler σ)

def goto (st : Pool σ) (client : Uuid) (phase : Phase) : Pool σ :=
  { st with clients := Function.update st.clients client phase }

def setServer (st : Pool σ) (id : Uuid) (s : Server) : Pool σ := { st with servers := Function.update st.servers id s }

def setState (st : Pool σ) (id : Uuid) (state : ConnState) (peer : Option Uuid) : Pool σ :=
  st.setServer id ((st.servers id).setState st.clock state peer)

/-- `addServer` under the mutex, for a connection the kitchen has just made. -/
def addServer (st : Pool σ) (id : Uuid) : Pool σ :=
  { st.setServer id (.newServer st.clock) with
    ids := id :: st.ids
    serversByID := id :: st.serversByID
    byConn := id :: st.byConn
    pooler := P.addServer id st.pooler }

/-- `delete(T.serversByID, ..)` and `T.pooler.DeleteServer` -/
def deleteServer (st : Pool σ) (id : Uuid) : Pool σ :=
  { st with serversByID := st.serversByID.filter (· ≠ id), pooler := P.deleteServer id st.pooler }

/-- What `T.pooler.Acquire` returned. -/
def take (st : Pool σ) (client : Uuid) (server : Option Uuid) : Pool σ :=
  st.goto client (server.elim .out .given)

def acquire (st : Pool σ) (client : Uuid) : Pool σ :=
  match P.acquire client st.pooler with
  | (.refused,p) => { st with pooler := p }
  | (.server id,p) => { st with pooler := p }.take client (some id)
  | (.wait,p) => { st with pooler := p }.goto client .acquiring

/-- The section of `Acquire` under the read lock. -/
def lookup (st : Pool σ) (client server : Uuid) : Pool σ :=
  if server ∈ st.serversByID then (st.setState server .pairing (some client)).goto client (.holding server)
  else st.goto client (.missed server)

/-- The start of `Release`. -/
def release (st : Pool σ) (client server : Uuid) : Pool σ :=
  if config.resetQuery then (st.setState server .runningResetQuery none).goto client (.resetting server)
  else st.goto client (.releasing server)

/-- `ScaleDown` looks at one server. -/
def look (st : Pool σ) (scan : Scan) (server : Uuid) : Pool σ :=
  { st with scan := some (
    let scan := { scan with seen := server :: scan.seen }
    let (since,state,_) := (st.servers server).getState
    if state ≠ .idle then scan else
    let idle := scan.now - since
    if idle > config.idleTimeout then { scan with stage := .condemned server } else
    let remaining := config.idleTimeout - idle
    { scan with m := if idle < scan.m then remaining else scan.m }) }

/-- `Chef.Ignite` of a condemned server, which closes the connection if the recipe lets it. -/
def ignite (st : Pool σ) (scan : Scan) (server : Uuid) (tryFree : Bool) : Pool σ :=
  if server ∈ st.byConn ∧ tryFree = true then
    { st with
      byConn := st.byConn.erase server
      ignited := server :: st.ignited
      scan := some { scan with stage := .ignited server } }
  else { st with scan := some { scan with stage := .next } }

def locked (st : Pool σ) : Bool := st.scan.isSome

def scanStep (st : Pool σ) (scan : Scan) : Event → Option (Pool σ)
  | .look server => if scan.stage = .next ∧ server ∈ st.serversByID ∧ server ∉ scan.seen then
      some (look config st scan server) else none
  | .ignite tryFree =>
    match scan.stage with
    | .condemned server => some (st.ignite scan server tryFree)
    | _ => none
  | .drop =>
    match scan.stage with
    | .ignited server => some { deleteServer P st server with scan := some { scan with stage := .next } }
    | _ => none
  | .unlock => if scan.stage = .next ∧ ∀ id ∈ st.serversByID, id ∈ scan.seen then some { st with scan := none } else none
  | _ => none

def clientStep (st : Pool σ) (client : Uuid) : Phase → Event → Option (Pool σ)
  | .out, .acquire _ => some (acquire P st client)
  | .acquiring, .receive _ => (P.receive client st.pooler).map fun r => { st with pooler := r.2 }.take client r.1
  | .acquiring, .timeout _ => (P.timeout client st.pooler).map fun r => { st with pooler := r.2 }.take client r.1
  | .given server, .lookup _ => if st.locked then none else some (st.lookup client server)
  | .missed server, .discard _ => some ({ st with pooler := P.deleteServer server st.pooler }.goto client .out)
  | .holding server, .pair _ => some (st.setState server .pairing (some client))
  | .holding server, .activate _ => some (st.setState server .active (some client))
  | .holding server, .transactionComplete _ => some (st.setServer server (st.servers server).transactionComplete)
  | .holding server, .release _ => some (release config st client server)
  | .resetting server, .resetDone _ ok => some (st.goto client (if ok then .releasing server else .removing server))
  | .releasing server, .giveBack _ => some ({ st with pooler := P.release server st.pooler }.goto client (.released server))
  | .released server, .setIdle _ => some ((st.setState server .idle none).goto client .out)
  | .holding server, .remove _ => some (st.goto client (.removing server))
  | .removing server, .burn _ => some ({ st with byConn := st.byConn.erase server }.goto client (.burnt server))
  | .burnt server, .unpool _ => some ({ st with pooler := P.deleteServer server st.pooler }.goto client (.deleting server))
  | .deleting server, .delete _ => if st.locked then none else some ((deleteServer P st server).goto client .out)
  | _, _ => none

def actor : Event → Option Uuid
  | .acquire c | .receive c | .timeout c | .lookup c | .discard c | .pair c | .activate c | .transactionComplete c
  | .release c | .resetDone c _ | .giveBack c | .setIdle c | .remove c | .burn c | .unpool c | .delete c => some c
  | _ => none

/-- Steps of the pool itself, outside `ScaleDown`. -/
def poolStep (st : Pool σ) : Event → Option (Pool σ)
  | .tick d => some { st with clock := st.clock + d }
  | .addServer id => if st.locked ∨ id ∈ st.ids then none else some (addServer P st id)
  | .forget id => if id ∈ st.byConn then
      some { st with byConn := st.byConn.erase id, leaving := id :: st.leaving } else none
  | .removeServer id => if st.locked ∨ id ∉ st.leaving then none else
      some { deleteServer P st id with leaving := st.leaving.erase id }
  | .readMetrics id => if id ∈ st.serversByID then some (st.setServer id ((st.servers id).readMetrics st.clock).2) else none
  | .scaleDown now => if st.locked ∨ st.clock < now then none else
      some { st with scan := some { now := now, m := config.idleTimeout } }
  | .close => some { st with byConn := [], pooler := P.close st.pooler }
  | .clear => if st.locked then none else some { st with serversByID := [] }
  | _ => none

def step (st : Pool σ) (e : Event) : Option (Pool σ) :=
  match actor e, st.scan with
  | some client, _ => clientStep config P st client (st.clients client) e
  | none, some scan => (scanStep config P st scan e).orElse fun _ => poolStep config P st e
  | none, none => poolStep config P st e

def Held (st : Pool σ) (server : Uuid) : Prop := ∃ client, (st.clients client).holds = some server

def Ignites (st : Pool σ) (e : Event) (server : Uuid) : Prop :=
  ∃ scan, st.scan = some scan ∧ scan.stage = .condemned server ∧ server ∈ st.byConn ∧ e = .ignite true

/-- The last step of a `Release` marks the server idle before anyone has acquired it again. -/
def Prompt (st : Pool σ) : Event → Prop
  | .setIdle client => ∀ server, st.clients client = .released server → ¬ st.Held server
  | _ => True

end Pool
end Pggat.Spool
