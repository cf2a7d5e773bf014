import Pggat.Base.Runs
import Pggat.Rob.System
import Pggat.Spool.Pooler

/-! The scale loop and the poolers that wake it. A step is one critical section of the pooler, one timer, or
one move of the loop: into its select, to one evaluation of `Waiters`, or through `ScaleUp`. -/
namespace Pggat.Spool
open Pggat.Base

/-- What the loop sees of a pooler. `offers` are the steps that try a send on `Waiting()`, which has room for a
token if `buffered`. -/
structure Signal (σ ε : Type) where
  step : σ → ε → Option σ
  waiters : σ → Nat
  buffered : Bool
  token : σ → Bool
  take : σ → σ
  offers : σ → ε → Bool
  adds : ε → Bool

inductive LifoEvent where
  | addServer (server : Uuid)
  | deleteServer (server : Uuid)
  | acquire (client : Uuid)
  | receive (client : Uuid)
  | timeout (client : Uuid)
  | release (server : Uuid)
  | close
  deriving DecidableEq, Repr

def Lifo.step (T : Lifo) : LifoEvent → Option Lifo
  | .addServer server => some (T.addServer server)
  | .deleteServer server => some (T.deleteServer server)
  | .acquire client => some (T.acquire client).2
  | .receive client => (T.receive client).map (·.2)
  | .timeout client => (T.timeout client).map (·.2)
  | .release server => some (T.release server)
  | .close => some T.close

/-- The `lifo` pooler makes its channel without a buffer. -/
def lifoSignal : Signal Lifo LifoEvent where
  step := Lifo.step
  waiters T := T.waiters.length
  buffered := false
  token _ := false
  take T := T
  offers T
    | .acquire client => (T.acquire client).1 = .wait
    | _ => false
  adds
    | .addServer _ => true
    | _ => false

/-- The first critical section of the scheduler's `Acquire` puts the user into the schedule. -/
def waits (T : Rob.Scheduler) (now : Int) (user : Uuid) : Bool :=
  match (T.acquire now user).1 with
  | .wait _ => true
  | _ => false

/-- The `rob` pooler makes its channel with room for one token. -/
def robSignal : Signal Rob.System Rob.Event where
  step := Rob.System.step
  waiters s := s.sched.waiters
  buffered := true
  token s := s.sched.waiting
  take s := { s with sched := { s.sched with waiting := false } }
  offers s
    | .acquire now user _ => waits s.sched now user
    | _ => false
  adds
    | .addWorker _ _ => true
    | _ => false

namespace ScaleLoop

structure Config where
  idleTimeout : Int
  reconnectInitialTime : Int
  reconnectMaxTime : Int

inductive Timer where
  | stopped
  | armed
  | fired
  deriving DecidableEq, Repr

/-- Where the loop is. On its way into the select it is `entering`, and once it has found no case ready it is
`blocked`. It evaluates `Waiters` in the case of the backoff timer or in that of a waiting client. -/
inductive Stage where
  | starting
  | entering
  | blocked
  | checking (backingOff : Bool)
  | scaling (backingOff : Bool)
  | scalingDown
  | returned
  deriving DecidableEq, Repr

/-- The loop will evaluate `Waiters` or has ended. -/
def Stage.attends : Stage → Bool
  | checking _ | scaling _ | returned => true
  | starting | entering | blocked | scalingDown => false

structure Loop where
  stage : Stage := .starting
  backoff : Timer := .stopped
  idle : Timer := .stopped
  backoffAmount : Int := 0
  closed : Bool := false
  deriving DecidableEq, Repr

inductive Case where
  | closed
  | backoff
  | waiting
  | idle
  deriving DecidableEq, Repr

inductive Event (ε : Type) where
  | pooler (e : ε)
  | start
  | fireBackoff
  | fireIdle
  | close
  | select (c : Case)
  | block
  | check
  | scaleUp (server : Option ε)
  | scaledDown
  deriving DecidableEq, Repr

/-- A product of durations, in 64 bits. -/
def wrap (d : Int) : Int := d.bmod 0x10000000000000000

/-- The loop has taken a case of its select. -/
def Loop.select (l : Loop) : Case → Loop
  | .closed => { l with stage := .returned }
  | .backoff => { l with
      backoff := .stopped
      stage := if l.backoffAmount = 0 then .entering else .checking true }
  | .waiting => { l with stage := if l.backoffAmount ≠ 0 then .entering else .checking false }
  | .idle => { l with idle := .stopped, stage := .scalingDown }

/-- All waiters were given a server. -/
def Loop.caughtUp (l : Loop) (backingOff : Bool) : Loop :=
  { l with stage := .entering, backoffAmount := if backingOff then 0 else l.backoffAmount }

/-- `ScaleUp` failed: start backing off, or do so for longer. -/
def Loop.failed (config : Config) (l : Loop) (backingOff : Bool) : Loop :=
  let amount := if backingOff then min config.reconnectMaxTime (wrap (2 * l.backoffAmount)) else config.reconnectInitialTime
  { l with stage := .entering, backoffAmount := amount, backoff := if amount ≠ 0 then .armed else l.backoff }

end ScaleLoop

open ScaleLoop

/-- A pooler with the loop that scales its pool. -/
structure ScaleLoop (σ : Type) where
  pooler : σ
  loop : Loop := {}

namespace ScaleLoop
variable {σ ε : Type}

/-- A blocked loop goes on with the case that has become ready; otherwise the case waits for it. -/
def wake (s : ScaleLoop σ) (c : Case) (pending : Loop) : ScaleLoop σ :=
  { s with loop := if s.loop.stage = .blocked then s.loop.select c else pending }

variable (config : Config) (P : Signal σ ε)

def ready (s : ScaleLoop σ) : Case → Bool
  | .closed => s.loop.closed
  | .backoff => s.loop.backoff = .fired
  | .waiting => P.token s.pooler
  | .idle => s.loop.idle = .fired

/-- A send on `Waiting()` reaches a blocked loop at once. -/
def poolerStep (s : ScaleLoop σ) (e : ε) : Option (ScaleLoop σ) :=
  (P.step s.pooler e).map fun p =>
    if P.offers s.pooler e = true ∧ s.loop.stage = .blocked then ⟨P.take p,s.loop.select .waiting⟩ else { s with pooler := p }

/-- The loop takes a case that is ready. -/
def take (s : ScaleLoop σ) (c : Case) : ScaleLoop σ :=
  { pooler := if c = .waiting then P.take s.pooler else s.pooler, loop := s.loop.select c }

def step (s : ScaleLoop σ) : Event ε → Option (ScaleLoop σ)
  | .pooler e => poolerStep P s e
  | .start => if s.loop.stage = .starting then
      some { s with loop := { s.loop with
        stage := .entering
        idle := if config.idleTimeout ≠ 0 then .armed else .stopped } } else none
  | .fireBackoff => if s.loop.backoff = .armed then some (s.wake .backoff { s.loop with backoff := .fired }) else none
  | .fireIdle => if s.loop.idle = .armed then some (s.wake .idle { s.loop with idle := .fired }) else none
  | .close => some ({ s with loop := { s.loop with closed := true } }.wake .closed { s.loop with closed := true })
  | .select c => if s.loop.stage = .entering ∧ ready P s c = true then some (take P s c) else none
  | .block => if s.loop.stage = .entering ∧ ∀ c ∈ [Case.closed, .backoff, .waiting, .idle], ready P s c = false then
      some { s with loop := { s.loop with stage := .blocked } } else none
  | .check =>
    match s.loop.stage with
    | .checking backingOff => some ⟨s.pooler,
        if P.waiters s.pooler > 0 then { s.loop with stage := .scaling backingOff } else s.loop.caughtUp backingOff⟩
    | _ => none
  | .scaleUp server =>
    match s.loop.stage, server with
    | .scaling backingOff, some e => if P.adds e = true then (P.step s.pooler e).map fun p =>
        { pooler := p, loop := { s.loop with stage := .checking backingOff } } else none
    | .scaling backingOff, none => some { s with loop := s.loop.failed config backingOff }
    | _, _ => none
  | .scaledDown => if s.loop.stage = .scalingDown then
      some { s with loop := { s.loop with stage := .entering, idle := .armed } } else none

/-- The loop sleeps with nothing to wake it but a new send. -/
def Asleep (s : ScaleLoop σ) : Prop :=
  s.loop.stage = .blocked ∧ P.token s.pooler = false ∧ s.loop.backoff = .stopped

/-- A send on a channel without a buffer comes while the loop is blocked, will evaluate `Waiters` again, or is
backing off. -/
def Heard (s : ScaleLoop σ) : Event ε → Prop
  | .pooler e => P.offers s.pooler e = true →
      P.buffered = true ∨ s.loop.stage = .blocked ∨ s.loop.stage.attends = true ∨ s.loop.backoff ≠ .stopped
  | _ => True

end ScaleLoop
end Pggat.Spool
