import Pggat.Backends.Packet
import Mathlib.Data.List.Basic

/-! A server that follows the protocol. It answers the messages in its inbox when the bouncer reads from
it; everything that the protocol leaves open is in the fate that each message carries. -/
namespace Pggat.Backends
open Pggat.Base Packets

/-- What a server is answering. -/
inductive Context where
  | simple
  | function
  | sync
  | extended
  deriving DecidableEq, Repr

namespace Context

def notices : List UInt8 := [typeNoticeResponse, typeParameterStatus, typeNotificationResponse]

def replies : Context → List UInt8
  | simple => [typeCommandComplete, typeRowDescription, typeDataRow, typeEmptyQueryResponse] ++ notices
  | function => typeFunctionCallResponse :: notices
  | sync => notices
  | extended =>
    [typeParseComplete, typeBindComplete, typeCloseComplete, typeRowDescription, typeNoData, typeParameterDescription,
      typeCommandComplete, typeDataRow, typeEmptyQueryResponse, typePortalSuspended] ++ notices

/-- What can come between the packets of copied data. -/
def copied : List UInt8 := typeCopyData :: notices

def copies : Context → Bool
  | simple => true
  | extended => true
  | function => false
  | sync => false

end Context

abbrev Reply (types : List UInt8) := { p : Packet // p.type ∈ types }

/-- A part of an answer. After `patience` more messages the server raises an error in the middle of a
`COPY FROM STDIN`; a `COPY TO STDOUT` fails when it has an `error`. -/
inductive Item (c : Context) where
  | reply (p : Reply c.replies)
  | error (error : List UInt8)
  | copyOut (may : c.copies = true) (format : List UInt8) (data : List (Reply Context.copied)) (error : Option (List UInt8))
  | copyIn (may : c.copies = true) (format : List UInt8) (patience : Nat) (error : List UInt8)

structure Job (c : Context) where
  items : List (Item c)
  state : UInt8

/-- What the server makes of a message, in each context that it may be read in. -/
structure Fate where
  answer : (c : Context) → List (Item c)
  state : Packet → UInt8

structure Message where
  packet : Packet
  fate : Fate

inductive Kind where
  | asks (c : Context)
  | flush
  | copyData
  | copyDone
  | copyFail
  | foreign
  deriving DecidableEq

def kindOf (type : UInt8) : Kind :=
  if type = typeQuery then .asks .simple
  else if type = typeFunctionCall then .asks .function
  else if type = typeSync then .asks .sync
  else if type ∈ [typeParse, typeBind, typeClose, typeDescribe, typeExecute] then .asks .extended
  else if type = typeFlush then .flush
  else if type = typeCopyData then .copyData
  else if type = typeCopyDone then .copyDone
  else if type = typeCopyFail then .copyFail
  else .foreign

namespace Message

def kind (m : Message) : Kind := kindOf m.packet.type

def job (m : Message) (c : Context) : Job c := ⟨m.fate.answer c,m.fate.state m.packet⟩

end Message

inductive Mode where
  | ready
  | skipping
  | closed
  | running (c : Context) (job : Job c)
  | copyingOut (c : Context) (data : List (Reply Context.copied)) (error : Option (List UInt8)) (job : Job c)
  | copyingIn (c : Context) (patience : Nat) (error : List UInt8) (synced : Bool) (job : Job c)

/-- `synced` above and `early` are history: a `Sync` was read in the middle of the copying, and the server
left a copying of an extended query by an error before it had read one. `ready` are the transaction states
that it has sent, the last one first. The message written next has the fate `fates turn`. -/
structure Server where
  inbox : List Message := []
  mode : Mode := .ready
  early : Bool := false
  ready : List UInt8 := []
  fates : Nat → Fate
  turn : Nat := 0

/-- After an error the rest of the statement is dropped, and in an extended query everything up to the
next `Sync`. -/
def Mode.failed {c : Context} (job : Job c) : Mode := if c = .extended then .skipping else .running c ⟨[],job.state⟩

namespace Server

def write (s : Server) (p : Packet) : Server :=
  { s with inbox := s.inbox ++ [⟨p,s.fates s.turn⟩], turn := s.turn + 1 }

def accept (s : Server) (m : Message) : Server :=
  match m.kind with
  | .asks c => { s with mode := .running c (m.job c) }
  | .foreign => { s with mode := .closed }
  | _ => s

def skip (s : Server) (m : Message) : Server :=
  if m.kind = .asks .sync then { s with mode := .running .sync (m.job .sync) } else s

def fail (s : Server) {c : Context} (job : Job c) (error : List UInt8) : Option Packet × Server :=
  (some ⟨typeMarkiplierResponse,error⟩,{ s with mode := .failed job })

def finish (s : Server) {c : Context} (job : Job c) : Option Packet × Server :=
  if c = .extended then (none,{ s with mode := .ready })
  else (some (readyForQuery job.state),{ s with mode := .ready, ready := job.state :: s.ready })

def answer (s : Server) {c : Context} (job : Job c) : Item c → Option Packet × Server
  | .reply p => (some p.val,{ s with mode := .running c job })
  | .error error => s.fail job error
  | .copyOut _ format data error => (some ⟨typeCopyOutResponse,format⟩,{ s with mode := .copyingOut c data error job })
  | .copyIn _ format patience error =>
    (some ⟨typeCopyInResponse,format⟩,{ s with mode := .copyingIn c patience error false job })

def copyOut (s : Server) {c : Context} (error : Option (List UInt8)) (job : Job c) :
    List (Reply Context.copied) → Option Packet × Server
  | p :: data => (some p.val,{ s with mode := .copyingOut c data error job })
  | [] =>
    match error with
    | some error => s.fail job error
    | none => (some ⟨typeCopyDone,[]⟩,{ s with mode := .running c job })

def failIn (s : Server) {c : Context} (error : List UInt8) (synced : Bool) (job : Job c) : Option Packet × Server :=
  fail { s with early := s.early || (c = .extended && !synced) } job error

def copyIn (s : Server) {c : Context} (patience : Nat) (error : List UInt8) (synced : Bool) (job : Job c) (m : Message) :
    Option Packet × Server :=
  match m.kind with
  | .copyData => (none,{ s with mode := .copyingIn c patience error synced job })
  | .flush => (none,{ s with mode := .copyingIn c patience error synced job })
  | .asks .sync => (none,{ s with mode := .copyingIn c patience error true job })
  | .copyDone => (none,{ s with mode := .running c job })
  | _ => s.failIn error synced job

/-- One step: the packet that it sends, if any; none when the server waits. -/
def step (s : Server) : Option (Option Packet × Server) :=
  match s.mode with
  | .closed => none
  | .ready =>
    match s.inbox with
    | [] => none
    | m :: inbox => some (none,accept { s with inbox := inbox } m)
  | .skipping =>
    match s.inbox with
    | [] => none
    | m :: inbox => some (none,skip { s with inbox := inbox } m)
  | .running c ⟨[],state⟩ => some (finish s (c := c) ⟨[],state⟩)
  | .running c ⟨i :: items,state⟩ => some (answer s (c := c) ⟨items,state⟩ i)
  | .copyingOut _ data error job => some (copyOut s error job data)
  | .copyingIn _ 0 error synced job => some (failIn s error synced job)
  | .copyingIn _ (patience+1) error synced job =>
    match s.inbox with
    | [] => none
    | m :: inbox => some (copyIn { s with inbox := inbox } patience error synced job m)

/-- A bound on the steps before the server sends a packet or waits. -/
def silence (s : Server) : Nat := 2 * s.inbox.length + match s.mode with
  | .running _ _ => 1
  | _ => 0

def settle : Nat → Server → Option Packet × Server
  | 0, s => (none,s)
  | n+1, s =>
    match s.step with
    | none => (none,s)
    | some (some p,s) => (some p,s)
    | some (none,s) => settle n s

/-- The next packet, none when the server waits for the bouncer. -/
def read (s : Server) : Option Packet × Server := settle (s.silence + 1) s

/-- The server is between requests and what it has not read it will ignore. -/
def Drained (s : Server) : Prop :=
  match s.mode with
  | .ready => ∀ m ∈ s.inbox, m.kind ∈ [.flush, .copyData, .copyDone, .copyFail]
  | _ => False

end Server
end Pggat.Backends
