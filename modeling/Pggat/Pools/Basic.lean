import Pggat.Pools.Tenure

/-! `Pool.serve` of the basic pool, which gives servers back after each transaction or at the end of a session. -/
namespace Pggat.Pools.Basic
open Pggat.Spool

inductive ParameterStatusSync where
  | none
  | initial
  | dynamic
  deriving DecidableEq, Repr

structure Config where
  releaseAfterTransaction : Bool
  parameterStatusSync : ParameterStatusSync
  extendedQuerySync : Bool
  deriving DecidableEq, Repr

/-- Whether `pair` has anything to synchronise. -/
def Config.syncs (config : Config) : Bool := config.parameterStatusSync != .none || config.extendedQuerySync

/-- The statements of `serve` that matter to others. `first` says that the client has not been told that it is
ready; `leaving` is the deferred cleanup, entered with the server variable and whether `serverErr` is set. -/
inductive Place where
  | arriving
  | starting
  | acquiring (first : Bool)
  | pairing (first : Bool) (server : Uuid)
  | syncing (first : Bool) (server : Uuid)
  | greeting (server : Uuid)
  | top (server : Option Uuid)
  | releasing (server : Uuid)
  | reading (server : Option Uuid)
  | bouncing (server : Uuid)
  | leaving (server : Option Uuid) (failed : Bool)
  | departing
  | gone
  deriving DecidableEq, Repr

/-- Where `serve` goes on once the server is paired. -/
def paired (first : Bool) (server : Uuid) : Place := if first then .greeting server else .bouncing server

open Place in
def serve (config : Config) : Place → Choice → Option (Op Unit × Place)
  | arriving, .go => some (.addClient,starting)
  | starting, .ready => some (.pass,top none)
  | starting, .unready => some (.setState .awaitingServer none false,acquiring true)
  | acquiring first, .given server => some (.acquire ((),server),pairing first server)
  | acquiring _, .nothing => some (.pass,leaving none false)
  | pairing first server, .go =>
    if config.syncs then some (.setState .pairing (some server) false,syncing first server)
    else some (.setState .active (some server) false,paired first server)
  | syncing first server, .ok => some (.setState .active (some server) false,paired first server)
  | syncing _ server, .err => some (.pass,leaving (some server) false)
  | syncing _ server, .serverErr => some (.pass,leaving (some server) true)
  | greeting server, .ok => some (.pass,top (some server))
  | greeting server, .err => some (.pass,leaving (some server) false)
  | top (some server), .go =>
    if config.releaseAfterTransaction then some (.setState .idle none false,releasing server)
    else some (.pass,reading (some server))
  | top none, .go => some (.pass,reading none)
  | releasing server, .clean => some (.release ((),server),reading none)
  | releasing server, .dirty => some (.removeServer ((),server),reading none)
  | reading server, .err => some (.pass,leaving server false)
  | reading (some server), .ok => some (.pass,bouncing server)
  | reading none, .ok => some (.setState .awaitingServer none false,acquiring false)
  | bouncing server, .ok => some (.pass,top (some server))
  | bouncing server, .err => some (.pass,leaving (some server) false)
  | bouncing server, .serverErr => some (.pass,leaving (some server) true)
  | leaving none _, .go => some (.pass,departing)
  | leaving (some server) true, .go => some (.removeServer ((),server),departing)
  | leaving (some server) false, .clean => some (.release ((),server),departing)
  | leaving (some server) false, .dirty => some (.removeServer ((),server),departing)
  | departing, .go => some (.removeClient,gone)
  | _, _ => none

def Place.server : Place → Option Uuid
  | pairing _ server | syncing _ server | greeting server | releasing server | bouncing server => some server
  | top server | reading server | leaving server _ => server
  | arriving | starting | acquiring _ | departing | gone => none

def loop (config : Config) : Loop Unit Place where
  next _ := serve config
  held place := place.server.map ((),·)

def initial : System Unit Place := Loop.initial fun _ => .arriving

private theorem paired_fits (first : Bool) (server : Uuid) (state : ConnState) :
    (Op.setState state (some server) false).Fits (some ((),server)) ((paired first server).server.map ((),·)) := by
  cases first <;> exact ⟨rfl,(),rfl⟩

theorem serve_sound (config : Config) : (loop config).Sound := by
  intro recipes place choice op place'
  change serve config place choice = some (op,place') → _
  fun_cases serve config place choice <;> intro h <;> cases h
  all_goals
    first
    | exact rfl
    | exact ⟨rfl,rfl⟩
    | exact ⟨rfl,(),rfl⟩
    | exact paired_fits ..

end Pggat.Pools.Basic
