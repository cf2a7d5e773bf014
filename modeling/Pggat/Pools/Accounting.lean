import Pggat.Base.Meter
import Pggat.Spool.Server

/-! The time that servers and clients spend in their states, and what `ReadMetrics` says about it. -/
namespace Pggat.Pools
open Base Spool

/-- `basic.Client`. The peer is given by its id. -/
structure BasicClient where
  txnCount : Nat := 0
  lastMetricsRead : Int := 0
  state : ConnState := .idle
  peer : Option Uuid := none
  since : Int
  util : ConnState → Int := fun _ => 0

namespace BasicClient

def newClient (now : Int) : BasicClient := { since := now }

def setState (T : BasicClient) (now : Int) (state : ConnState) (peer : Option Uuid) : BasicClient :=
  let since := if T.since < T.lastMetricsRead then now - T.lastMetricsRead else now - T.since
  { T with
    util := Function.update T.util T.state (T.util T.state + since)
    state := state
    peer := peer
    since := now }

def transactionComplete (T : BasicClient) : BasicClient := { T with txnCount := T.txnCount + 1 }

def readMetrics (T : BasicClient) (now : Int) : Conn × BasicClient :=
  let since := if T.since < T.lastMetricsRead then now - T.lastMetricsRead else now - T.since
  ({ time := now, state := T.state, peer := T.peer, since := T.since
     utilization := Function.update T.util T.state (T.util T.state + since)
     transactionCount := T.txnCount },
   { T with util := fun _ => 0, txnCount := 0, lastMetricsRead := now })

end BasicClient

/-- `hybrid.Client` -/
structure HybridClient where
  txnCount : Nat := 0
  lastMetricsRead : Int := 0
  state : ConnState := .idle
  peer : Option Uuid := none
  peerIsReplica : Bool := false
  since : Int
  util : ConnState → Int := fun _ => 0

namespace HybridClient

def newClient (now : Int) : HybridClient := { since := now }

def setState (T : HybridClient) (now : Int) (state : ConnState) (peer : Option Uuid) (replica : Bool) : HybridClient :=
  let since := if T.since < T.lastMetricsRead then now - T.lastMetricsRead else now - T.since
  { T with
    util := Function.update T.util T.state (T.util T.state + since)
    state := state
    peer := peer
    peerIsReplica := replica
    since := now }

def transactionComplete (T : HybridClient) : HybridClient := { T with txnCount := T.txnCount + 1 }

def readMetrics (T : HybridClient) (now : Int) : Conn × HybridClient :=
  let since := if T.since < T.lastMetricsRead then now - T.lastMetricsRead else now - T.since
  ({ time := now, state := T.state, peer := T.peer, since := T.since
     utilization := Function.update T.util T.state (T.util T.state + since)
     transactionCount := T.txnCount },
   { T with util := fun _ => 0, txnCount := 0, lastMetricsRead := now })

end HybridClient

/-- A call on a server or a client, with the time at which it takes the mutex and, for `SetState`, the peer. -/
inductive Call (π : Type) where
  | setState (now : Int) (state : ConnState) (peer : π)
  | transactionComplete
  | readMetrics (now : Int)
  deriving DecidableEq, Repr

namespace Call
variable {π : Type}

/-- What the call means for the time that is added up. -/
def tick : Call π → Tick ConnState
  | .setState now state _ => .change now state
  | .transactionComplete => .count
  | .readMetrics now => .read now

def isComplete : Call π → Bool
  | .transactionComplete => true
  | _ => false

end Call

def onServer (T : Server) : Call (Option Uuid) → Option Conn × Server
  | .setState now state peer => (none,T.setState now state peer)
  | .transactionComplete => (none,T.transactionComplete)
  | .readMetrics now => (some (T.readMetrics now).1,(T.readMetrics now).2)

def onBasic (T : BasicClient) : Call (Option Uuid) → Option Conn × BasicClient
  | .setState now state peer => (none,T.setState now state peer)
  | .transactionComplete => (none,T.transactionComplete)
  | .readMetrics now => (some (T.readMetrics now).1,(T.readMetrics now).2)

def onHybrid (T : HybridClient) : Call (Option Uuid × Bool) → Option Conn × HybridClient
  | .setState now state peer => (none,T.setState now state peer.1 peer.2)
  | .transactionComplete => (none,T.transactionComplete)
  | .readMetrics now => (some (T.readMetrics now).1,(T.readMetrics now).2)

/-- The calls and a last reading come in the order of their times. -/
def Clocked {π : Type} (created : Int) (calls : List (Call π)) (stop : Int) : Prop :=
  (created :: ((calls.map Call.tick).filterMap Tick.time ++ [stop])).Pairwise (· ≤ ·)

/-- The results of `ReadMetrics` add up to the time spent in each state until the last one and to the number of
transactions completed before it. -/
structure Accounted {π : Type} (created : Int) (calls : List (Call π)) (stop : Int) (results : List Conn) : Prop where
  times : ∀ s, (results.map (·.utilization s)).sum =
    timeIn (stateAt .idle ((calls.map Call.tick).filterMap Tick.changed)) s created stop
  count : (results.map (·.transactionCount)).sum = calls.countP Call.isComplete

def shown (m : Conn) : Reading ConnState := ⟨m.utilization,m.transactionCount⟩

private theorem countP_isComplete {π : Type} (calls : List (Call π)) :
    (calls.map Call.tick).count .count = calls.countP Call.isComplete := by
  rw [List.count,List.countP_map]
  apply List.countP_congr
  intro c _
  cases c <;> simp [Call.tick,Call.isComplete]

private theorem accounted {σ π : Type} {on : σ → Call π → Option Conn × σ} {T : σ} {created : Int}
    (view : σ → Meter ConnState)
    (hview : ∀ T c, (view T).step c.tick = ((on T c).1.map shown,view (on T c).2))
    (hnew : view T = { state := .idle, since := created }) (h0 : 0 ≤ created) {calls : List (Call π)} {stop : Int}
    (hc : Clocked created calls stop) : Accounted created calls stop (outputs on T (calls ++ [.readMetrics stop])) := by
  have hout : (outputs on T (calls ++ [.readMetrics stop])).map shown =
      Meter.readings { state := .idle, since := created } (calls.map Call.tick ++ [.read stop]) := by
    rw [map_outputs view Call.tick shown hview,hnew,List.map_append]
    rfl
  constructor
  · intro s
    have hstart : Meter.charged { state := .idle, since := created } created s = 0 := by
      have helapsed : Meter.elapsed ({ state := .idle, since := created } : Meter ConnState) created = 0 := by
        show (if created < 0 then created - 0 else created - created) = 0
        rw [if_neg (Int.not_lt.mpr h0),Int.sub_self]
      rw [Meter.charged_apply,helapsed,ite_self,Int.add_zero]
    have hsum := Meter.sum_readings (m := { state := .idle, since := created }) (Int.le_refl created) h0 hc s
    rw [hstart,Int.zero_add,← hout,List.map_map] at hsum
    exact hsum
  · have hcount := Meter.sum_counts { state := .idle, since := created } (calls.map Call.tick) stop
    rw [← hout,List.map_map,countP_isComplete,Nat.zero_add] at hcount
    exact hcount

def serverMeter (T : Server) : Meter ConnState :=
  { lastRead := T.lastMetricsRead, state := T.state, since := T.since, util := T.util, counted := T.txnCount }

def basicMeter (T : BasicClient) : Meter ConnState :=
  { lastRead := T.lastMetricsRead, state := T.state, since := T.since, util := T.util, counted := T.txnCount }

def hybridMeter (T : HybridClient) : Meter ConnState :=
  { lastRead := T.lastMetricsRead, state := T.state, since := T.since, util := T.util, counted := T.txnCount }

/-- Servers and the clients of both pools account for all of their time and all of their transactions. -/
theorem metrics_accounted {created : Int} (h0 : 0 ≤ created) :
    (∀ calls stop, Clocked created calls stop →
      Accounted created calls stop (outputs onServer (.newServer created) (calls ++ [.readMetrics stop]))) ∧
    (∀ calls stop, Clocked created calls stop →
      Accounted created calls stop (outputs onBasic (.newClient created) (calls ++ [.readMetrics stop]))) ∧
    ∀ calls stop, Clocked created calls stop →
      Accounted created calls stop (outputs onHybrid (.newClient created) (calls ++ [.readMetrics stop])) := by
  refine ⟨fun calls stop => accounted serverMeter ?_ rfl h0,fun calls stop => accounted basicMeter ?_ rfl h0,
    fun calls stop => accounted hybridMeter ?_ rfl h0⟩
  · intro T c
    cases c <;> rfl
  · intro T c
    cases c <;> rfl
  · intro T c
    cases c <;> rfl

/-- A server that is made at 5, becomes active at 7 and idle at 10, and is read at 8 and at 12. -/
theorem metrics_accounted_server : Accounted 5 [.setState 7 .active (some 1),.readMetrics 8,.setState 10 .idle none] 12
    (outputs onServer (.newServer 5)
      [.setState 7 .active (some 1),.readMetrics 8,.setState 10 .idle none,.readMetrics 12]) :=
  (metrics_accounted (by decide)).1 _ _ (by unfold Clocked; decide)

example : (outputs onServer (.newServer 5)
    [.setState 7 .active (some 1),.readMetrics 8,.setState 10 .idle none,.readMetrics 12]).map
      (fun m => (m.utilization .idle,m.utilization .active)) = [(2,1),(2,2)] := by decide

end Pggat.Pools
