import Pggat.Base.Runs
import Pggat.Rob.Scheduler

/-! The scheduler and its callers. A step is one critical section, one receive,
one timer or one return of a channel to the free list, in any order. -/
namespace Pggat.Rob
open Pggat.Base

/-- `pending` is the channel of each user's outstanding `Acquire`, which has a timer when `timed`.
Once `fired` it has left its select and waits for the mutex. `held` are the workers returned to
callers and `returning` the channels received from and not yet put back into the free list. -/
structure System where
  sched : Scheduler := {}
  pending : Uuid → Option Chan := fun _ => none
  timed : Uuid → Bool := fun _ => false
  fired : Uuid → Bool := fun _ => false
  returning : List Chan := []
  held : List (Uuid × Uuid) := []
  workerIds : List Uuid := []
  userIds : List Uuid := []

inductive Event where
  | addWorker (now : Int) (id : Uuid)
  | deleteWorker (id : Uuid)
  | addUser (id : Uuid)
  | deleteUser (id : Uuid)
  | acquire (now : Int) (user : Uuid) (timed : Bool)
  | receive (user : Uuid)
  | recycle (c : Chan)
  | timer (user : Uuid)
  | timeout (now : Int) (user : Uuid)
  | release (now : Int) (user worker : Uuid)
  | close
  deriving DecidableEq, Repr

namespace System

/-- The outstanding `Acquire` of a user ends and returns a worker, or `uuid.Nil`. -/
def finish (s : System) (user : Uuid) (id : Option Uuid) : System :=
  { s with
    pending := Function.update s.pending user none
    held := id.elim s.held fun id => (user,id) :: s.held }

/-- The select of `Acquire` takes what its channel offers. -/
def receive (s : System) (user : Uuid) (c : Chan) : Option System :=
  match (s.sched.chans c).receive with
  | .value id => some { s.finish user (some id) with
      sched := s.sched.drain c
      returning := c :: s.returning }
  | .closed => some (s.finish user none)
  | .empty => none

def step (s : System) : Event → Option System
  | .addWorker now id => (s.sched.addWorker now id).map fun T =>
      { s with sched := T, workerIds := id :: s.workerIds }
  | .deleteWorker id => some { s with sched := s.sched.deleteWorker id }
  | .addUser id => some { s with sched := s.sched.addUser id, userIds := id :: s.userIds }
  | .deleteUser id => some { s with sched := s.sched.deleteUser id }
  | .acquire now user timed =>
    match s.sched.acquire now user with
    | (.refused,_) => some s
    | (.worker id,T) => some { s with sched := T, held := (user,id) :: s.held }
    | (.wait c,T) => some { s with
        sched := T
        pending := Function.update s.pending user (some c)
        timed := Function.update s.timed user timed
        fired := Function.update s.fired user false }
  | .receive user =>
    match s.pending user with
    | some c => if s.fired user then none else s.receive user c
    | none => none
  | .recycle c => if c ∈ s.returning then
      some { s with sched := s.sched.putChan c, returning := s.returning.erase c } else none
  | .timer user => if s.timed user ∧ (s.pending user).isSome then
      some { s with fired := Function.update s.fired user true } else none
  | .timeout now user =>
    match s.pending user with
    | some c => if s.fired user then
        (s.sched.timeout now user c).map fun r => { s.finish user r.1 with sched := r.2 } else none
    | none => none
  | .release now user worker => (s.sched.release now worker).map fun T =>
      { s with sched := T, held := s.held.erase (user,worker) }
  | .close => some { s with sched := s.sched.close }

/-- The usage assumptions: ids are unique, a user has one `Acquire` outstanding and holds no
worker of the pool while waiting, and a worker is released by the caller that holds it. -/
def Usage (s : System) : Event → Prop
  | .addWorker _ id => id ∉ s.workerIds
  | .addUser id => id ∉ s.userIds
  | .acquire _ user _ => s.pending user = none ∧ ∀ p ∈ s.held, p.1 = user → p.2 ∉ s.sched.workers
  | .release _ user worker => (user,worker) ∈ s.held
  | _ => True

instance (s : System) : (e : Event) → Decidable (s.Usage e)
  | .addWorker _ _ | .addUser _ => inferInstanceAs (Decidable (¬ _))
  | .acquire _ _ _ => inferInstanceAs (Decidable (_ ∧ _))
  | .release _ _ _ => inferInstanceAs (Decidable (_ ∈ _))
  | .deleteWorker _ | .deleteUser _ | .receive _ | .recycle _ | .timer _ | .timeout _ _ | .close =>
    inferInstanceAs (Decidable True)

/-- A timed out `Acquire` whose user is registered finds under the user's stride its own job or none. -/
def OwnSlot (s : System) : Event → Prop
  | .timeout _ user => ∀ c ∈ s.pending user, ∀ u ∈ s.sched.users.get user,
      ∀ job ∈ s.sched.schedule.get u.stride, job.ready = c
  | _ => True

instance (s : System) : (e : Event) → Decidable (s.OwnSlot e)
  | .timeout _ _ => inferInstanceAs (Decidable (∀ _ ∈ _, _))
  | .addWorker _ _ | .deleteWorker _ | .addUser _ | .deleteUser _ | .acquire _ _ _ | .receive _ | .recycle _
  | .timer _ | .release _ _ _ | .close => inferInstanceAs (Decidable True)

/-- Where a worker can be. -/
inductive Place where
  | queued
  | heldBy (user : Uuid)
  | bufferedFor (user : Uuid)
  deriving DecidableEq, Repr

/-- Worker `id` is at a place: in the queue, held by a caller, or buffered in the channel of an
`Acquire` that has not returned. -/
def At (s : System) (id : Uuid) : Place → Prop
  | .queued => id ∈ s.sched.queue
  | .heldBy user => (user,id) ∈ s.held
  | .bufferedFor user => ∃ c, s.pending user = some c ∧ (s.sched.chans c).buffered = some id

@[simp] theorem at_queued (s : System) (id : Uuid) : s.At id .queued ↔ id ∈ s.sched.queue := Iff.rfl

@[simp] theorem at_heldBy (s : System) (id user : Uuid) : s.At id (.heldBy user) ↔ (user,id) ∈ s.held := Iff.rfl

@[simp] theorem at_bufferedFor (s : System) (id user : Uuid) : s.At id (.bufferedFor user) ↔
    ∃ c, s.pending user = some c ∧ (s.sched.chans c).buffered = some id := Iff.rfl

end System
end Pggat.Rob
