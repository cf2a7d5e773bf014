import Pggat.Pools.Tenure

/-! `Pool.serve` of the hybrid pool: `serveRW` tries a replica and falls back to the primary, `serveOnly` keeps to
one of the two. -/
namespace Pggat.Pools.Hybrid
open Pggat.Spool

inductive Kind where
  | primary
  | replica
  deriving DecidableEq, Repr

/-- `hybrid.mode`: `wo` and `ro` are `only true` and `only false`. -/
inductive Mode where
  | rw
  | only (write : Bool)
  deriving DecidableEq, Repr

/-- What a server is acquired for. `fallback` follows a statement that the replica refused. -/
inductive Use where
  | rw (kind : Kind)
  | fallback
  | only (write : Bool)
  deriving DecidableEq, Repr

def Use.kind : Use → Kind
  | rw kind => kind
  | fallback => .primary
  | only write => if write then .primary else .replica

def Use.mode : Use → Mode
  | rw _ | fallback => .rw
  | only write => .only write

/-- The flag that the loop of a mode passes to `SetState` with no peer. -/
def Mode.flag : Mode → Bool
  | rw => false
  | only _ => true

/-- The statements of `serveRW` and `serveOnly` that matter to others. `choosing` asks whether the replica pool is
empty, `replaying` reads the packet again for the primary, `refused` is the branch of `ErrReadOnly`. -/
inductive Place where
  | arriving (mode : Mode)
  | starting (mode : Mode)
  | choosing (first : Bool)
  | acquiring (use : Use) (first : Bool)
  | pairing (use : Use) (first : Bool) (server : Uuid)
  | syncing (use : Use) (first : Bool) (server : Uuid)
  | greeting (use : Use) (server : Uuid)
  | bouncing (use : Use) (server : Uuid)
  | refused (server : Uuid)
  | replaying (use : Use)
  | top (mode : Mode) (held : Option (Kind × Uuid))
  | reading (mode : Mode)
  | leaving (held : Option (Kind × Uuid)) (failed : Bool)
  | departing
  | gone
  deriving DecidableEq, Repr

/-- Where the loop of a mode goes on once it has recorded that it awaits a server. -/
def awaiting (first : Bool) : Mode → Place
  | .rw => .choosing first
  | .only write => .acquiring (.only write) first

/-- `pair` and `PairPrimary` up to the synchronisation of parameters and prepared statements. -/
def pair (first : Bool) (server : Uuid) : Use → Op Kind × Place
  | .fallback => (.pass,.syncing .fallback first server)
  | use => (.setState .pairing (some server) true,.syncing use first server)

/-- `pair` and `PairPrimary` once the server is synchronised. -/
def paired (first : Bool) (server : Uuid) (use : Use) : Op Kind × Place :=
  (.setState .active (some server) (use != .fallback),
    if first then .greeting use server else .bouncing use server)

open Place in
def serve (recipes : Kind → Bool) : Place → Choice → Option (Op Kind × Place)
  | arriving mode, .go => some (.addClient,starting mode)
  | starting mode, .ready => some (.pass,top mode none)
  | starting mode, .unready => some (.setState .awaitingServer none mode.flag,awaiting true mode)
  | choosing first, .go =>
    if recipes .replica then some (.pass,acquiring (.rw .replica) first)
    else if first then some (.pass,acquiring (.rw .primary) true)
    else some (.pass,replaying (.rw .primary))
  | replaying use, .ok => some (.setState .awaitingServer none false,acquiring use false)
  | replaying _, .err => some (.pass,leaving none false)
  | acquiring use first, .given server => some (.acquire (use.kind,server),pairing use first server)
  | acquiring _ _, .nothing => some (.pass,leaving none false)
  | pairing use first server, .go => some (pair first server use)
  | syncing use first server, .ok => some (paired first server use)
  | syncing .fallback _ _, .err => none
  | syncing use _ server, .err => some (.pass,leaving (some (use.kind,server)) false)
  | syncing use _ server, .serverErr => some (.pass,leaving (some (use.kind,server)) true)
  | greeting use server, .ok => some (.pass,top use.mode (some (use.kind,server)))
  | greeting use server, .err => some (.pass,leaving (some (use.kind,server)) false)
  | bouncing use server, .ok => some (.pass,top use.mode (some (use.kind,server)))
  | bouncing use server, .err => some (.pass,leaving (some (use.kind,server)) false)
  | bouncing use server, .serverErr => some (.pass,leaving (some (use.kind,server)) true)
  | bouncing (.rw .replica) server, .readOnly => some (.pass,refused server)
  | bouncing use server, .readOnly => some (.pass,leaving (some (use.kind,server)) false)
  | refused server, .clean => some (.release (.replica,server),replaying .fallback)
  | refused server, .dirty => some (.removeServer (.replica,server),replaying .fallback)
  | top mode (some server), .clean => some (.release server,top mode none)
  | top mode (some server), .dirty => some (.removeServer server,top mode none)
  | top mode none, .go => some (.setState .idle none mode.flag,reading mode)
  | reading mode, .ok => some (.setState .awaitingServer none mode.flag,awaiting false mode)
  | reading _, .err => some (.pass,leaving none false)
  | leaving none _, .go => some (.pass,departing)
  | leaving (some server) true, .go => some (.removeServer server,departing)
  | leaving (some server) false, .clean => some (.release server,departing)
  | leaving (some server) false, .dirty => some (.removeServer server,departing)
  | departing, .go => some (.removeClient,gone)
  | _, _ => none

/-- The server in `primary`, `replica` or `server`: at most one of the variables is set. -/
def Place.held : Place → Option (Kind × Uuid)
  | pairing use _ server | syncing use _ server | greeting use server | bouncing use server =>
    some (use.kind,server)
  | refused server => some (.replica,server)
  | top _ held | leaving held _ => held
  | arriving _ | starting _ | choosing _ | acquiring _ _ | replaying _ | reading _ | departing | gone => none

def loop : Loop Kind Place where
  next := serve
  held := Place.held

/-- Each client comes with the mode of its startup parameters. -/
def initial (mode : Uuid → Mode) : System Kind Place := Loop.initial fun id => .arriving (mode id)

private theorem awaiting_held (first : Bool) (mode : Mode) : (awaiting first mode).held = none := by
  cases mode <;> rfl

private theorem pair_fits (first : Bool) (server : Uuid) (use : Use) :
    (pair first server use).1.Fits (some (use.kind,server)) (pair first server use).2.held := by
  cases use <;> simp [pair,Op.Fits,Place.held]

private theorem paired_fits (first : Bool) (server : Uuid) (use : Use) :
    (paired first server use).1.Fits (some (use.kind,server)) (paired first server use).2.held := by
  cases first <;> simp [paired,Op.Fits,Place.held]

private theorem serve_fits (recipes : Kind → Bool) (place : Place) (choice : Choice) (r : Op Kind × Place) :
    serve recipes place choice = some r → r.1.Fits place.held r.2.held := by
  fun_cases serve recipes place choice <;> intro h <;> cases h
  all_goals
    first
    | exact rfl
    | exact ⟨rfl,rfl⟩
    | exact awaiting_held ..
    | exact pair_fits ..
    | exact paired_fits ..

theorem serve_sound : loop.Sound :=
  fun recipes place choice op place' => serve_fits recipes place choice (op,place')

/-- The spool pool that `Cancel` is passed on to, and the server to cancel at. -/
def cancel (s : System Kind Place) (id : Uuid) : Option (Kind × Uuid) :=
  (s.peerOf id).map fun peer => (if (s.clients id).peerIsReplica then .replica else .primary,peer)

end Pggat.Pools.Hybrid
