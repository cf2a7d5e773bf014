import Pggat.Base.Maps

/-! The rob scheduler: workers are handed to users in the order of their strides.
Every function here is the body of one critical section of the scheduler's mutex.
Ids are the non-nil uuids, `none` stands for `uuid.Nil`, and since ids are never
reused the pointers to users and workers are their ids. -/
namespace Pggat.Rob
open Pggat.Base

abbrev Uuid := Nat
abbrev Chan := Nat

structure User where
  stride : Int
  scheduled : Bool := false
  worker : Option Uuid := none
  deriving DecidableEq, Repr

structure Worker where
  user : Option Uuid := none
  since : Int := 0
  deriving DecidableEq, Repr

structure Job where
  user : Uuid
  ready : Chan
  deriving DecidableEq, Repr

/-- A channel of capacity one. -/
structure Channel where
  buffered : Option Uuid := none
  closed : Bool := false
  deriving DecidableEq, Repr

/-- What a receive sees: a buffered value comes before the close. -/
inductive Receipt where
  | value (id : Uuid)
  | closed
  | empty
  deriving DecidableEq, Repr

def Channel.receive (ch : Channel) : Receipt :=
  match ch.buffered with
  | some id => .value id
  | none => if ch.closed then .closed else .empty

/-- `chans` is the heap of channels made so far, `waiting` the token of capacity one.
`cc` is the free list of channels, its top first. -/
structure Scheduler where
  cc : List Chan := []
  waiting : Bool := false
  closed : Bool := false
  queue : List Uuid := []
  workers : Map Uuid Worker := ∅
  floor : Int := 0
  users : Map Uuid User := ∅
  schedule : Map Int Job := ∅
  chans : Chan → Channel := fun _ => {}
  nextChan : Chan := 0

namespace Scheduler

/-- A send blocks on a full channel and panics on a closed one. -/
def send (T : Scheduler) (c : Chan) (id : Uuid) : Option Scheduler :=
  if T.chans c = {} then some { T with chans := Function.update T.chans c ⟨some id,false⟩ } else none

/-- The channel after its buffered value was received. -/
def drain (T : Scheduler) (c : Chan) : Scheduler :=
  { T with chans := Function.update T.chans c { T.chans c with buffered := none } }

/-- `close(c)` -/
def shut (T : Scheduler) (c : Chan) : Scheduler :=
  { T with chans := Function.update T.chans c { T.chans c with closed := true } }

/-- `T.cc.Put(c)` -/
def putChan (T : Scheduler) (c : Chan) : Scheduler := { T with cc := c :: T.cc }

/-- `T.cc.Get()`, or a new channel when the free list is empty. -/
def getChan (T : Scheduler) : Chan × Scheduler :=
  match T.cc with
  | c :: cc => (c,{ T with cc := cc })
  | [] => (T.nextChan,{ T with
      nextChan := T.nextChan + 1
      chans := Function.update T.chans T.nextChan {} })

/-- Charge the time since the worker was handed out to its previous user. -/
def detach (now : Int) (T : Scheduler) (id : Uuid) : Scheduler :=
  match T.workers.get id with
  | some ⟨some user,since⟩ => { T with
      users := T.users.modify user fun u => { u with stride := u.stride + (now - since), worker := none }
      workers := T.workers.insert id ⟨none,now⟩ }
  | _ => T

/-- `none` when the send under the mutex would block. -/
def releaseWorker (now : Int) (T : Scheduler) (id : Uuid) : Option Scheduler :=
  let T := T.detach now id
  match T.schedule.minEntry with
  | none => some { T with queue := T.queue ++ [id] }
  | some (stride,job) =>
    send { T with
      floor := stride
      schedule := T.schedule.erase stride
      users := T.users.modify job.user fun u => { u with worker := some id, scheduled := false }
      workers := T.workers.insert id ⟨some job.user,now⟩ } job.ready id

def release (now : Int) (T : Scheduler) (id : Uuid) : Option Scheduler :=
  if T.closed then some T else
  match T.workers.get id with
  | none => some T
  | some _ => T.releaseWorker now id

def addWorker (now : Int) (T : Scheduler) (id : Uuid) : Option Scheduler :=
  if T.closed then some T else
  { T with workers := T.workers.insert id {} }.releaseWorker now id

def deleteWorker (T : Scheduler) (id : Uuid) : Scheduler :=
  if T.closed then T else
  match T.workers.get id with
  | none => T
  | some _ => { T with workers := T.workers.erase id, queue := T.queue.erase id }

def addUser (T : Scheduler) (id : Uuid) : Scheduler :=
  if T.closed then T else
  let stride := match T.schedule.maxEntry with
    | some (s,_) => s + 1
    | none => T.floor
  { T with users := T.users.insert id { stride := stride } }

def deleteUser (T : Scheduler) (id : Uuid) : Scheduler :=
  if T.closed then T else
  match T.users.get id with
  | none => T
  | some u =>
    let T := { T with users := T.users.erase id }
    if u.scheduled then
      match T.schedule.get u.stride with
      | some job => { T.shut job.ready with schedule := T.schedule.erase u.stride }
      | none => T
    else T

/-- How the first critical section of `Acquire` ends. -/
inductive Acquired where
  | refused
  | worker (id : Uuid)
  | wait (ready : Chan)
  deriving DecidableEq, Repr

def acquire (now : Int) (T : Scheduler) (user : Uuid) : Acquired × Scheduler :=
  if T.closed then (.refused,T) else
  match T.users.get user with
  | none => (.refused,T)
  | some u =>
    match T.queue.getLast? with
    | some id => (.worker id,{ T with
        queue := T.queue.dropLast
        users := T.users.insert user { u with worker := some id }
        workers := T.workers.insert id ⟨some user,now⟩ })
    | none =>
      let (ready,T) := T.getChan
      let stride := T.schedule.firstFree (max u.stride T.floor)
      (.wait ready,{ T with
        schedule := T.schedule.insert stride ⟨user,ready⟩
        users := T.users.insert user { u with stride := stride, scheduled := true }
        waiting := true })

/-- The critical section of an `Acquire` whose timer fired, with the id it returns.
`none` when the receive in its last branch blocks with the mutex held. -/
def timeout (now : Int) (T : Scheduler) (user : Uuid) (c : Chan) : Option (Option Uuid × Scheduler) :=
  match T.users.get user with
  | none =>
    match (T.chans c).receive with
    | .value id => (((T.drain c).putChan c).release now id).map (none,·)
    | .closed | .empty => some (none,T)
  | some u =>
    match T.schedule.get u.stride with
    | some _ => some (none,{ T.putChan c with
        users := T.users.insert user { u with scheduled := false }
        schedule := T.schedule.erase u.stride })
    | none =>
      match (T.chans c).receive with
      | .value id => some (some id,(T.drain c).putChan c)
      | .closed => some (none,T)
      | .empty => none

/-- The number of users whose `Scheduled` flag is set. -/
def waiters (T : Scheduler) : Nat := (T.users.entries.filter fun e => e.2.scheduled).length

def close (T : Scheduler) : Scheduler :=
  if T.closed then T else
  { T.schedule.entries.foldl (fun T e => T.shut e.2.ready) T with
    closed := true
    users := ∅
    workers := ∅
    schedule := ∅
    queue := [] }

end Scheduler
end Pggat.Rob
