import Mathlib.Logic.Function.Basic

/-! A pooled server connection and what the metrics record about it. Times count from Go's zero time. -/
namespace Pggat.Spool

abbrev Uuid := Nat

inductive ConnState where
  | idle
  | active
  | awaitingServer
  | pairing
  | runningResetQuery
  deriving DecidableEq, Repr

structure Server where
  txnCount : Nat := 0
  lastMetricsRead : Int := 0
  state : ConnState := .idle
  peer : Option Uuid := none
  since : Int
  util : ConnState → Int := fun _ => 0

/-- `metrics.Conn` -/
structure Conn where
  time : Int
  state : ConnState
  peer : Option Uuid
  since : Int
  utilization : ConnState → Int
  transactionCount : Nat

namespace Server

def newServer (now : Int) : Server := { since := now }

/-- How long the server has been in its state since the metrics were last read. -/
def elapsed (s : Server) (now : Int) : Int :=
  if s.since < s.lastMetricsRead then now - s.lastMetricsRead else now - s.since

def setState (s : Server) (now : Int) (state : ConnState) (peer : Option Uuid) : Server :=
  { s with
    util := Function.update s.util s.state (s.util s.state + s.elapsed now)
    state := state
    peer := peer
    since := now }

def getState (s : Server) : Int × ConnState × Option Uuid := (s.since,s.state,s.peer)

def transactionComplete (s : Server) : Server := { s with txnCount := s.txnCount + 1 }

def readMetrics (s : Server) (now : Int) : Conn × Server :=
  ({ time := now, state := s.state, peer := s.peer, since := s.since
     utilization := Function.update s.util s.state (s.util s.state + s.elapsed now)
     transactionCount := s.txnCount },
   { s with util := fun _ => 0, txnCount := 0, lastMetricsRead := now })

@[simp] theorem setState_state (s : Server) (now : Int) (state : ConnState) (peer : Option Uuid) :
    (s.setState now state peer).state = state := rfl

end Server
end Pggat.Spool
