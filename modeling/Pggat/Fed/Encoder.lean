import Pggat.Fed.Decoder

/-! The buffered encoder of a connection. -/
namespace Pggat.Fed
open Pggat.Base

/-- `buffer` holds the bytes not yet written, `out` those the connection took, and `broken` says that
its writes fail. -/
structure Encoder where
  buffer : List UInt8 := []
  out : List UInt8 := []
  broken : Bool := false
  packetType : UInt8 := 0
  packetLength : Int := 0
  packetPos : Int := 0

abbrev EncodeM := Action Failure Encoder

namespace Encoder

def flush : EncodeM Unit := fun e =>
  if e.buffer = [] then (.ok (),e)
  else if e.broken then (.error (.error .closed),{ e with buffer := [] })
  else (.ok (),{ e with buffer := [], out := e.out ++ e.buffer })

def reserve (n : Nat) : EncodeM Unit := fun e =>
  if e.buffer.length + n > defaultBufferSize then flush e else (.ok (),e)

def put (bs : List UInt8) : EncodeM Unit := fun e => (.ok (),{ e with buffer := e.buffer ++ bs })

def advance (n : Nat) : EncodeM Unit := fun e => (.ok (),{ e with packetPos := e.packetPos + n })

def writeByte (b : UInt8) : EncodeM Unit := do
  reserve 1
  put [b]

def writeType (type : UInt8) : EncodeM Unit := if type ≠ 0 then writeByte type else pure ()

/-- The length field counts itself and wraps at 32 bits. -/
def writeLength (length : Int) : EncodeM Unit := do
  reserve 4
  put (beBytes 4 ((length + 4) % 256 ^ 4).toNat)

def startPacket (type : UInt8) (length : Int) : EncodeM Unit := fun e =>
  (.ok (),{ e with packetType := type, packetLength := length, packetPos := 0 })

def next (type : UInt8) (length : Int) : EncodeM Unit := fun e =>
  if e.packetPos ≠ e.packetLength then (.error (.error .wrongNumberOfBytes),e) else
  (do
    writeType type
    writeLength length
    startPacket type length : EncodeM Unit) e

/-- `Uint8`; the position moves even when the write fails. -/
def uint8 (b : UInt8) : EncodeM Unit := fun e =>
  let (r,e) := writeByte b e
  (r,{ e with packetPos := e.packetPos + 1 })

/-- `Uint16`, `Uint32` and `Uint64` -/
def uintWide (w v : Nat) : EncodeM Unit := do
  reserve w
  put (beBytes w v)
  advance w

def uint (w v : Nat) : EncodeM Unit := if w = 1 then uint8 (UInt8.ofNat v) else uintWide w v

/-- Copy what fits, flush a full buffer, and return what is left of the string. -/
def stringTurn (v : List UInt8) : EncodeM (List UInt8) := fun e =>
  let n := min (defaultBufferSize - e.buffer.length) v.length
  let e := { e with buffer := e.buffer ++ v.take n, packetPos := e.packetPos + n }
  if e.buffer.length ≥ defaultBufferSize then
    let (r,e) := flush e
    (r.map fun _ => v.drop n,e)
  else (.ok (v.drop n),e)

/-- A turn copies a byte or finds a full buffer, which only the first can. -/
def stringLoop : (fuel : Nat) → List UInt8 → EncodeM Unit
  | _, [] => pure ()
  | 0, _ => Action.throw .hang
  | fuel+1, v => do
    let v ← stringTurn v
    stringLoop fuel v

def string (v : List UInt8) : EncodeM Unit := do
  stringLoop (v.length + 1) v
  writeByte 0
  advance 1

end Encoder
end Pggat.Fed
