import Pggat.Base.Prog
import Pggat.Backends.Packet

/-! The bouncer, which runs a client's transaction on a server. It is written over the operations of the
two connections. -/
namespace Pggat.Backends
open Pggat.Base Packets

/-- The connections to the server and the peer. A value of `ρ` is a packet at the bouncer, which need not
have been read in full. -/
structure World (σ ρ ε : Type) where
  type : ρ → UInt8
  made : Packet → ρ
  serverRead : Action ε σ ρ
  serverWrite : ρ → Action ε σ Unit
  peerRead : Action ε σ ρ
  peerWrite : ρ → Action ε σ Unit
  toReadyForQuery : ρ → Action ε σ UInt8

inductive Fault (ε : Type) where
  | io (e : ε)
  | unexpectedPacket (type : UInt8)
  | expectedIdle
  | hang
  deriving DecidableEq

def Packet.Own (p : Packet) : Prop := p = Packets.sync ∨ (∃ reason, p = copyFail reason) ∨ ∃ q, p = Packets.query q

/-- `peer` says that the peer has not been dropped. -/
structure ServerToPeerBinding (σ ρ ε : Type) where
  world : σ
  peer : Bool := true
  packet : ρ
  peerError : Option (Fault ε) := none
  txState : UInt8 := 0

def idle : UInt8 := typeOf 'I'

def abort : GoString := ascii ['A', 'B', 'O', 'R', 'T', ';']

def peerFailed : GoString := ascii ['p', 'e', 'e', 'r', ' ', 'f', 'a', 'i', 'l', 'e', 'd']

namespace Bouncer
variable {σ ρ ε : Type}

abbrev M (σ ρ ε : Type) := Prog (Fault ε) (ServerToPeerBinding σ ρ ε)

def io {α : Type} (m : Action ε σ α) : Action (Fault ε) (ServerToPeerBinding σ ρ ε) α := fun b =>
  match m b.world with
  | (.ok a,s) => (.ok a,{ b with world := s })
  | (.error e,s) => (.error (.io e),{ b with world := s })

def modify (f : ServerToPeerBinding σ ρ ε → ServerToPeerBinding σ ρ ε) : M σ ρ ε Unit :=
  Prog.lift fun b => (.ok (),f b)

def get : M σ ρ ε (ServerToPeerBinding σ ρ ε) := Prog.lift fun b => (.ok b,b)

def setPacket (p : ρ) : M σ ρ ε Unit := modify fun b => { b with packet := p }

def peerOK (b : ServerToPeerBinding σ ρ ε) : Bool := b.peer && b.peerError.isNone

def failed (b : ServerToPeerBinding σ ρ ε) (e : Fault ε) : ServerToPeerBinding σ ρ ε :=
  { b with peer := false, peerError := some e }

def peerFail (e : Fault ε) : M σ ρ ε Unit := modify fun b => failed b e

def forever {α : Type} (body : M σ ρ ε (Option α)) : M σ ρ ε α := Prog.loop .hang body

variable (w : World σ ρ ε)

def errUnexpectedPacket (b : ServerToPeerBinding σ ρ ε) : Fault ε := .unexpectedPacket (w.type b.packet)

def serverRead : M σ ρ ε Unit := do
  let p ← Prog.lift (io w.serverRead)
  setPacket p

def serverWrite : M σ ρ ε Unit := Prog.lift fun b => io (w.serverWrite b.packet) b

def readPeer : Action (Fault ε) (ServerToPeerBinding σ ρ ε) Bool := fun b =>
  if peerOK b then
    match w.peerRead b.world with
    | (.ok p,s) => (.ok true,{ b with world := s, packet := p })
    | (.error e,s) => (.ok false,failed { b with world := s } (.io e))
  else (.ok false,b)

def peerRead : M σ ρ ε Bool := Prog.lift (readPeer w)

def writePeer : Action (Fault ε) (ServerToPeerBinding σ ρ ε) Unit := fun b =>
  if peerOK b then
    match w.peerWrite b.packet b.world with
    | (.ok _,s) => (.ok (),{ b with world := s })
    | (.error e,s) => (.ok (),failed { b with world := s } (.io e))
  else (.ok (),b)

def peerWrite : M σ ρ ε Unit := Prog.lift (writePeer w)

def packetType : M σ ρ ε UInt8 := do
  let b ← get
  pure (w.type b.packet)

def unexpected {α : Type} : M σ ρ ε α := do
  let b ← get
  Prog.throw (errUnexpectedPacket w b)

def peerUnexpected : M σ ρ ε Unit := do
  let b ← get
  peerFail (errUnexpectedPacket w b)

/-- A turn of the loop of `copyIn`; the other turns below are named alike. -/
def copyInTurn : M σ ρ ε (Option Unit) := do
  if ← peerRead w then
    let type ← packetType w
    if type = typeCopyData then
      serverWrite w
      pure none
    else if type = typeCopyDone ∨ type = typeCopyFail then
      serverWrite w
      pure (some ())
    else
      peerUnexpected w
      pure none
  else
    setPacket (w.made (copyFail peerFailed))
    serverWrite w
    pure (some ())

def copyIn : M σ ρ ε Unit := do
  peerWrite w
  forever (copyInTurn w)

def copyOutRelayed : List UInt8 := [typeCopyData, typeNoticeResponse, typeParameterStatus, typeNotificationResponse]

def copyOutPacket : M σ ρ ε (Option Unit) := do
  let type ← packetType w
  if type ∈ copyOutRelayed then
    peerWrite w
    pure none
  else if type = typeCopyDone ∨ type = typeMarkiplierResponse then
    peerWrite w
    pure (some ())
  else unexpected w

def copyOutTurn : M σ ρ ε (Option Unit) := do
  serverRead w
  copyOutPacket w

def copyOut : M σ ρ ε Unit := do
  peerWrite w
  forever (copyOutTurn w)

/-- The end of a response: the transaction state is taken over and relayed. -/
def ready : M σ ρ ε Unit := do
  let b ← get
  let state ← Prog.lift (io (w.toReadyForQuery b.packet))
  setPacket (w.made (readyForQuery state))
  modify fun b => { b with txState := state }
  peerWrite w

/-- A packet in a loop that relays an answer up to its `ReadyForQuery`: the packets that it passes on, what the
loop does after a `COPY FROM STDIN` where copying is possible, and what it returns in the end. -/
def answerPacket {α : Type} (relayed : List UInt8) (copied : Option (Option α)) (done : α) : M σ ρ ε (Option α) := do
  let type ← packetType w
  if type ∈ relayed then
    peerWrite w
    pure none
  else if type = typeReadyForQuery then
    ready w
    pure (some done)
  else
    match copied with
    | none => unexpected w
    | some result =>
      if type = typeCopyInResponse then
        copyIn w
        pure result
      else if type = typeCopyOutResponse then
        copyOut w
        pure none
      else unexpected w

def turn {α : Type} (relayed : List UInt8) (copied : Option (Option α)) (done : α) : M σ ρ ε (Option α) := do
  serverRead w
  answerPacket w relayed copied done

def queryRelayed : List UInt8 :=
  [typeCommandComplete, typeRowDescription, typeDataRow, typeEmptyQueryResponse, typeMarkiplierResponse,
    typeNoticeResponse, typeParameterStatus, typeNotificationResponse]

def query : M σ ρ ε Unit := do
  serverWrite w
  forever (turn w queryRelayed (some none) ())

def queryString (q : GoString) : M σ ρ ε Unit := do
  setPacket (w.made (Packets.query q))
  query w

def functionCallRelayed : List UInt8 :=
  [typeMarkiplierResponse, typeFunctionCallResponse, typeNoticeResponse, typeParameterStatus, typeNotificationResponse]

def functionCall : M σ ρ ε Unit := do
  serverWrite w
  forever (turn w functionCallRelayed none ())

def syncRelayed : List UInt8 :=
  [typeParseComplete, typeBindComplete, typeCloseComplete, typeMarkiplierResponse, typeRowDescription, typeNoData,
    typeParameterDescription, typeCommandComplete, typeDataRow, typeEmptyQueryResponse, typePortalSuspended,
    typeNoticeResponse, typeParameterStatus, typeNotificationResponse]

/-- Whether the server answered the `Sync`; one that arrives in the middle of a `COPY FROM STDIN` it ignores. -/
def sync : M σ ρ ε Bool := do
  serverWrite w
  forever (turn w syncRelayed (some (some false)) true)

def syncForPeerTurn : M σ ρ ε (Option Unit) := do
  setPacket (w.made Packets.sync)
  if ← sync w then pure (some ()) else pure none

/-- `Sync` for a peer that is gone, until the server answers one. -/
def syncForPeer : M σ ρ ε Unit := forever (syncForPeerTurn w)

def eqpForwarded : List UInt8 := [typeParse, typeBind, typeClose, typeDescribe, typeExecute, typeFlush]

def eqpTurn : M σ ρ ε (Option Unit) := do
  if ← peerRead w then
    let type ← packetType w
    if type = typeSync then
      if ← sync w then pure (some ()) else pure none
    else if type ∈ eqpForwarded then
      serverWrite w
      pure none
    else
      peerUnexpected w
      pure none
  else
    syncForPeer w
    pure (some ())

def eqp : M σ ρ ε Unit := do
  serverWrite w
  forever (eqpTurn w)

/-- A `Sync` outside of a batch is answered without the server. -/
def phonySync : M σ ρ ε Unit := do
  let b ← get
  setPacket (w.made (readyForQuery b.txState))
  peerWrite w

/-- What the bouncer does with a packet that the client sends outside of a request. -/
def request : M σ ρ ε Unit := do
  let type ← packetType w
  if type = typeQuery then query w
  else if type = typeFunctionCall then functionCall w
  else if type = typeSync then phonySync w
  else if type ∈ eqpForwarded then eqp w
  else peerUnexpected w

def abortTransaction : M σ ρ ε Unit := do
  queryString w abort
  let b ← get
  if b.txState ≠ idle then Prog.throw .expectedIdle else pure ()

def afterRequest : M σ ρ ε (Option Unit) := do
  let b ← get
  if b.txState = idle then pure (some ())
  else if ← peerRead w then pure none
  else
    abortTransaction w
    pure (some ())

def transactionTurn : M σ ρ ε (Option Unit) := do
  request w
  afterRequest w

def transaction : M σ ρ ε Unit := forever (transactionTurn w)

/-- `Transaction`: the server error, the peer error and the connections. -/
def transactionOn (n : Nat) (world : σ) (initialPacket : ρ) : Option (Fault ε) × Option (Fault ε) × σ :=
  match transaction w n { world := world, packet := initialPacket } with
  | (.ok _,b) => (none,b.peerError,b.world)
  | (.error e,b) => (some e,b.peerError,b.world)

end Bouncer
end Pggat.Backends
