import Pggat.Fed.Cursor

/-! The middleware of the hybrid pool. It records what the client sends, and after `Primary` the record is read
again before anything new is. -/
namespace Pggat.Hybrid
open Pggat.Base Pggat.Fed

/-- `fed.Packet`: `writeTo` puts the payload into an encoder. -/
structure Packet where
  type : UInt8
  length : Int
  writeTo : EncodeM Unit

/-- `PendingPacket`: the payload is still to be read from the decoder. -/
def Packet.pending (d : Decoder) : Packet where
  type := d.packetType
  length := d.packetLength
  writeTo e := ((Relay.writeTo ⟨e,d⟩).1,(Relay.writeTo ⟨e,d⟩).2.encoder)

/-- `pos` bytes of `buf` have been read. -/
structure Buffer where
  buf : List UInt8
  pos : Nat
  pos_le : pos ≤ buf.length

namespace Buffer

def empty : Buffer := ⟨[],0,Nat.le_refl 0⟩

def buffered (b : Buffer) : Nat := b.buf.length - b.pos

def rest (b : Buffer) : List UInt8 := b.buf.drop b.pos

theorem advance_le (b : Buffer) (n : Nat) : b.pos + min n b.buffered ≤ b.buf.length := by
  have := b.pos_le
  simp only [buffered]
  omega

/-- Up to `n` bytes. There is no chunk at the end, where `Read` returns `io.EOF`. -/
def read (b : Buffer) (n : Nat) : Option { bs : List UInt8 // bs.length ≤ n } × Buffer :=
  if b.buffered = 0 then (none,b)
  else (some ⟨b.rest.take n,List.length_take_le n b.rest⟩,⟨b.buf,b.pos + min n b.buffered,b.advance_le n⟩)

def write (b : Buffer) (bs : List UInt8) : Buffer where
  buf := b.buf ++ bs
  pos := b.pos
  pos_le := by
    rw [List.length_append]
    exact Nat.le_add_right_of_le b.pos_le

def resetRead (b : Buffer) : Buffer := ⟨b.buf,0,Nat.zero_le _⟩

/-- What reads of a whole decoder buffer return, one after the other. -/
def chunksLoop : (fuel : Nat) → Buffer → List Chunk
  | 0, _ => []
  | fuel+1, b =>
    match b.read defaultBufferSize with
    | (none,_) => []
    | (some c,b) => c :: chunksLoop fuel b

/-- Each chunk has a byte, so the fuel is enough. -/
def chunks (b : Buffer) : List Chunk := chunksLoop b.buffered b

end Buffer

/-- The writer of `bufEnc` and the reader of `bufDec` are `buf`. -/
structure Middleware where
  primary : Bool := false
  buf : Buffer := .empty
  bufEnc : Encoder := {}
  bufDec : Decoder := {}

abbrev MiddlewareM := Action Failure Middleware

namespace Middleware

/-- `NewMiddleware` -/
def new : Middleware := {}

/-- An operation of `bufEnc`. What it writes goes to `buf`. -/
def encoding (op : EncodeM Unit) : MiddlewareM Unit := fun T =>
  let (r,e) := op { T.bufEnc with out := [] }
  (r,{ T with bufEnc := e, buf := T.buf.write e.out })

/-- `bufDec` with the chunks that it will get from `buf`. -/
def decoder (T : Middleware) : Decoder := { T.bufDec with reads := T.buf.chunks, stop := .eof }

/-- An operation has left `d` of `bufDec`, and the chunks it did not take in `buf`. -/
def took (T : Middleware) (d : Decoder) : Middleware :=
  { T with bufDec := d, buf := ⟨T.buf.buf,T.buf.buf.length - (d.reads.map Subtype.val).flatten.length,Nat.sub_le _ _⟩ }

def decoding (op : DecodeM Unit) : MiddlewareM Unit := fun T =>
  let (r,d) := op T.decoder
  (r,T.took d)

def pending : MiddlewareM Packet := fun T => (.ok (.pending T.decoder),T)

/-- Whether anything is left to be read from `bufDec`. -/
def Drained (T : Middleware) : Prop := T.buf.buffered = 0 ∧ T.bufDec.buffer.length = 0

instance (T : Middleware) : Decidable T.Drained := inferInstanceAs (Decidable (_ ∧ _))

def preRead (typed : Bool) : MiddlewareM (Option Packet) := fun T =>
  if T.primary = false then (.ok none,T) else
  if T.Drained then (.ok none,T) else
  (do
    decoding (Decoder.next typed)
    let p ← pending
    pure (some p) : MiddlewareM (Option Packet)) T

def record (packet : Packet) : MiddlewareM Unit := do
  encoding (Encoder.next packet.type packet.length)
  encoding packet.writeTo
  encoding Encoder.flush

def readPacket (packet : Packet) : MiddlewareM Packet := fun T =>
  if T.primary then (.ok packet,T) else
  (do
    record packet
    decoding (Decoder.next (packet.type ≠ 0))
    pending : MiddlewareM Packet) T

/-- `Reset` of the encoder empties its buffer only. -/
def reset (T : Middleware) : Middleware :=
  { primary := false
    buf := .empty
    bufEnc := { T.bufEnc with buffer := [] }
    bufDec := { T.bufDec with buffer := [], packetLength := 0, packetPos := 0 } }

/-- `Primary` -/
def toPrimary (T : Middleware) : Middleware :=
  { T with
    primary := true
    buf := T.buf.resetRead
    bufDec := { T.bufDec with buffer := [], packetLength := 0, packetPos := 0 } }

end Middleware

/-- A client connection whose last middleware is `m`. `live` are the packets that the client still sends, as the
middlewares in front of `m` hand them on. -/
structure Conn where
  live : List Packet
  m : Middleware

abbrev ConnM := Action Failure Conn

namespace Conn

def onMiddleware {α : Type} (op : MiddlewareM α) : ConnM α := fun c =>
  let (r,m) := op c.m
  (r,{ c with m })

/-- `readPacket`: the codec's. -/
def receive : ConnM Packet := fun c =>
  match c.live with
  | [] => (.error (.error .eof),c)
  | p :: live => (.ok p,{ c with live })

/-- `ReadPacket`: a packet of `PreRead` goes through `ReadPacket` of the middleware too. -/
def readPacket (typed : Bool) : ConnM Packet := do
  match ← onMiddleware (Middleware.preRead typed) with
  | some p => onMiddleware (Middleware.readPacket p)
  | none => do
    let p ← receive
    onMiddleware (Middleware.readPacket p)

def reset (c : Conn) : Conn := { c with m := c.m.reset }

def toPrimary (c : Conn) : Conn := { c with m := c.m.toPrimary }

end Conn
end Pggat.Hybrid
