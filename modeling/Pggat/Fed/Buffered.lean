import Pggat.Fed.Decoder

/-! The decoder with its buffer and its two cursors, over a reader that decides how much each read returns. -/
namespace Pggat.Fed
open Pggat.Base

/-- A reader of a finite stream. The read number `n` returns `sizes n` bytes, but at least one and no more than
there is room for. The last bytes come together with `io.EOF` when the reader is `joined`. -/
structure Reader where
  stream : List UInt8
  sizes : Nat → Nat
  joined : Bool := false
  turn : Nat := 0

def Reader.read (r : Reader) (room : Nat) : List UInt8 × Option Error × Reader :=
  if r.stream = [] then ([],some .eof,r) else
  let n := min (max 1 (r.sizes r.turn)) room
  (r.stream.take n,if r.joined = true ∧ r.stream.drop n = [] then some .eof else none,
    { r with stream := r.stream.drop n, turn := r.turn + 1 })

structure BufferedDecoder where
  buffer : List UInt8
  bufferWrite : Nat := 0
  bufferRead : Nat := 0
  reader : Reader
  packetType : UInt8 := 0
  packetLength : Int := 0
  packetPos : Int := 0

abbrev BufferedM := Action Failure BufferedDecoder

def overwrite (buffer : List UInt8) (start : Nat) (bs : List UInt8) : List UInt8 :=
  buffer.take start ++ (bs ++ buffer.drop (start + bs.length))

namespace BufferedDecoder

/-- `NewDecoder` -/
def new (r : Reader) : BufferedDecoder := { buffer := List.replicate defaultBufferSize 0, reader := r }

/-- `buffer[bufferRead:bufferWrite]` -/
def window (d : BufferedDecoder) : List UInt8 := (d.buffer.drop d.bufferRead).take (d.bufferWrite - d.bufferRead)

def refill (d : BufferedDecoder) : Option Error × BufferedDecoder :=
  if d.bufferWrite ≥ defaultBufferSize then (none,d) else
  let (bs,e,r) := d.reader.read (defaultBufferSize - d.bufferWrite)
  (e,{ d with
    buffer := overwrite d.buffer d.bufferWrite bs, bufferWrite := d.bufferWrite + bs.length, reader := r })

def advance (d : BufferedDecoder) (count : Nat) : BufferedDecoder :=
  if d.bufferRead + count = d.bufferWrite then { d with bufferRead := 0, bufferWrite := 0 }
  else { d with bufferRead := d.bufferRead + count }

def discardLoop : (fuel n : Nat) → BufferedM Unit
  | 0, _ => fun d => (.error .hang,d)
  | fuel+1, n => fun d =>
    if n = 0 then (.ok (),d) else
    let count := if d.bufferWrite ≠ 0 then min n (d.bufferWrite - d.bufferRead) else 0
    let d' := if d.bufferWrite ≠ 0 then d.advance count else d
    if d'.bufferWrite ≠ 0 then (.ok (),d') else
    match d'.refill with
    | (some e,d) => (.error (.error e),d)
    | (none,d) => discardLoop fuel (n - count) d

/-- The reads of a whole buffer that return bytes and no error. -/
def chunksLoop : (fuel : Nat) → Reader → List Chunk
  | 0, _ => []
  | fuel+1, r =>
    match r.read defaultBufferSize with
    | (_,some _,_) => []
    | (bs,none,r) => ⟨bs.take defaultBufferSize,List.length_take_le _ _⟩ :: chunksLoop fuel r

def chunks (d : BufferedDecoder) : List Chunk := chunksLoop d.reader.stream.length d.reader

/-- A turn takes what is in the buffer or another chunk. -/
def discard (n : Nat) : BufferedM Unit := fun d => discardLoop (d.chunks.length + 2) n d

/-- `read` of `n` bytes. A buffer that is larger than the decoder's is filled from the reader. -/
def read (d : BufferedDecoder) (n : Nat) : List UInt8 × Option Error × BufferedDecoder :=
  if n = 0 then ([],none,d)
  else if d.bufferWrite ≠ 0 then (d.window.take n,none,d.advance (min n d.window.length))
  else if n > defaultBufferSize then
    let (bs,e,r) := d.reader.read n
    (bs,e,{ d with reader := r })
  else
    let (e,d) := d.refill
    (d.window.take n,e,d.advance (min n d.window.length))

def readFullLoop : (fuel want : Nat) → (got : List UInt8) → BufferedM (List UInt8)
  | 0, _, _ => fun d => (.error .hang,d)
  | fuel+1, want, got => fun d =>
    if want ≤ got.length then (.ok got,d) else
    match d.read (want - got.length) with
    | (bs,none,d) => readFullLoop fuel want (got ++ bs) d
    | (bs,some e,d) => (.error (.error (if e = .eof ∧ got ++ bs ≠ [] then .unexpectedEOF else e)),d)

def readFull (want : Nat) : BufferedM (List UInt8) := fun d => readFullLoop (d.chunks.length + 3) want [] d

/-- `Read` into a buffer of `n` bytes. The slice expression panics behind the end of the packet. -/
def readRest (d : BufferedDecoder) (n : Nat) : Except Failure (List UInt8 × Option Error) × BufferedDecoder :=
  let rem := d.packetLength - d.packetPos
  if rem = 0 then (.ok ([],some .eof),d) else
  if rem < 0 then (.error .panic,d) else
  let (bs,e,d) := d.read (min n rem.toNat)
  (.ok (bs,e),{ d with packetPos := d.packetPos + bs.length })

def readByte : BufferedM UInt8 := fun d =>
  let rem := d.packetLength - d.packetPos
  if rem < 0 then (.error (.error .overranReadBuffer),d) else
  match discard rem.toNat d with
  | (.error e,d) => (.error e,d)
  | (.ok _,d) =>
    match readFull 1 { d with packetType := 0, packetLength := 0, packetPos := 0 } with
    | (.error e,d) => (.error e,d)
    | (.ok bs,d) => (.ok (bs.headD 0),d)

def next (typed : Bool) : BufferedM Unit := fun d =>
  let rem := d.packetLength - d.packetPos
  if rem < 0 then (.error (.error .overranReadBuffer),d) else
  match discard rem.toNat d with
  | (.error e,d) => (.error e,d)
  | (.ok _,d) =>
    match readFull (if typed then 5 else 4) d with
    | (.error e,d) => (.error e,d)
    | (.ok bs,d) =>
      let header := if typed then bs else 0 :: bs
      (.ok (),{ d with
        packetType := header.headD 0
        packetLength := (beNat (header.drop 1) : Int) - 4
        packetPos := 0 })

def uint (w : Nat) : BufferedM Nat := fun d =>
  let (r,d) := readFull w d
  (r.map beNat,{ d with packetPos := d.packetPos + w })

def stringLoop : (fuel : Nat) → (builder : List UInt8) → BufferedM (List UInt8)
  | 0, _ => fun d => (.error .hang,d)
  | fuel+1, builder => fun d =>
    match d.refill with
    | (some e,d) => (.error (.error e),{ d with packetPos := d.packetPos + builder.length })
    | (none,d) =>
      match Decoder.cutZero d.window with
      | some (s,_) => (.ok (builder ++ s),{ d.advance (s.length + 1) with
          packetPos := d.packetPos + (builder ++ s).length + 1 })
      | none => stringLoop fuel (builder ++ d.window) { d with bufferRead := 0, bufferWrite := 0 }

def string : BufferedM (List UInt8) := fun d =>
  match (if d.bufferWrite = 0 then d.refill else (none,d)) with
  | (some e,d) => (.error (.error e),d)
  | (none,d) =>
    match Decoder.cutZero d.window with
    | some (s,_) => (.ok s,{ d.advance (s.length + 1) with packetPos := d.packetPos + s.length + 1 })
    | none => stringLoop (d.chunks.length + 1) d.window { d with bufferRead := 0, bufferWrite := 0 }

end BufferedDecoder
end Pggat.Fed
