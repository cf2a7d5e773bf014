import Pggat.Spool.Server

/-! The pooler interface of the pool and its `lifo` implementation. A blocked `Acquire` goes on when its
channel offers something or its timer fires. -/
namespace Pggat.Spool

/-- How the first critical section of `Acquire` ends. -/
inductive Acquired where
  | refused
  | server (id : Uuid)
  | wait
  deriving DecidableEq, Repr

/-- The operations of `pool.Pooler`. A receive that finds nothing is `none`; a result without a server is
`uuid.Nil`. -/
structure Pooler (σ : Type) where
  addServer : Uuid → σ → σ
  deleteServer : Uuid → σ → σ
  acquire : Uuid → σ → Acquired × σ
  receive : Uuid → σ → Option (Option Uuid × σ)
  timeout : Uuid → σ → Option (Option Uuid × σ)
  release : Uuid → σ → σ
  close : σ → σ

/-- A channel with room for one server. -/
structure Ready where
  buffered : Option Uuid := none
  closed : Bool := false

/-- The `lifo` pooler. A channel serves one `Acquire` at a time and is empty when it goes back to the free
list, so the waiters' channels are named by their clients. -/
structure Lifo where
  servers : List Uuid := []
  queue : List Uuid := []
  waiters : List Uuid := []
  ready : Uuid → Ready := fun _ => {}
  closed : Bool := false

namespace Lifo

/-- `Release`, which `AddServer` shares. -/
def release (server : Uuid) (T : Lifo) : Lifo :=
  if server ∉ T.servers then T else
  match T.waiters with
  | c :: waiters => { T with waiters := waiters, ready := Function.update T.ready c { buffered := some server } }
  | [] => { T with queue := T.queue ++ [server] }

def addServer (server : Uuid) (T : Lifo) : Lifo :=
  release server { T with servers := server :: T.servers.erase server }

def deleteServer (server : Uuid) (T : Lifo) : Lifo :=
  { T with queue := T.queue.erase server, servers := T.servers.erase server }

def acquire (client : Uuid) (T : Lifo) : Acquired × Lifo :=
  if T.closed then (.refused,T) else
  match T.queue.getLast? with
  | some server => (.server server,{ T with queue := T.queue.dropLast })
  | none => (.wait,{ T with waiters := T.waiters ++ [client], ready := Function.update T.ready client {} })

def receive (client : Uuid) (T : Lifo) : Option (Option Uuid × Lifo) :=
  match (T.ready client).buffered with
  | some server => some (some server,{ T with ready := Function.update T.ready client {} })
  | none => if (T.ready client).closed then some (none,T) else none

/-- A timed out `Acquire` leaves the waiters, or takes what it was sent before it could. -/
def timeout (client : Uuid) (T : Lifo) : Option (Option Uuid × Lifo) :=
  if client ∈ T.waiters then some (none,{ T with waiters := T.waiters.erase client }) else receive client T

def close (T : Lifo) : Lifo :=
  { T with
    closed := true
    servers := []
    queue := []
    waiters := []
    ready := fun c => if c ∈ T.waiters then { closed := true } else T.ready c }

end Lifo

def lifo : Pooler Lifo where
  addServer := Lifo.addServer
  deleteServer := Lifo.deleteServer
  acquire := Lifo.acquire
  receive := Lifo.receive
  timeout := Lifo.timeout
  release := Lifo.release
  close := Lifo.close

end Pggat.Spool
