import Pggat.Base.Action
import Pggat.Base.Bytes

/-! The buffered decoder of a connection. It refills its buffer only when that is empty, so the buffer
is the list of its unread bytes and every read of the connection asks for a whole buffer. -/
namespace Pggat.Fed
open Pggat.Base

def defaultBufferSize : Nat := 4096

abbrev Chunk := { bs : List UInt8 // bs.length ≤ defaultBufferSize }

inductive Error where
  | eof
  | unexpectedEOF
  | closed
  | overranReadBuffer
  | wrongNumberOfBytes
  | unexpectedPacket
  | invalidFormat
  deriving DecidableEq, Repr

/-- How a computation ends without a value: with an error, a panic, or never. -/
inductive Failure where
  | error (e : Error)
  | panic
  | hang
  deriving DecidableEq, Repr

/-- `reads` are the chunks that the connection still delivers before every read returns `stop`. -/
structure Decoder where
  buffer : List UInt8 := []
  reads : List Chunk := []
  stop : Error := .eof
  packetType : UInt8 := 0
  packetLength : Int := 0
  packetPos : Int := 0

abbrev DecodeM := Action Failure Decoder

namespace Decoder

def unread (d : Decoder) : List UInt8 := d.buffer ++ (d.reads.map Subtype.val).flatten

def refill (d : Decoder) : Option Error × Decoder :=
  match d.reads with
  | c :: cs => (none,{ d with buffer := d.buffer ++ c.val, reads := cs })
  | [] => (some d.stop,d)

/-- Up to `n` bytes, from the buffer or else from one refill. -/
def read (d : Decoder) (n : Nat) : List UInt8 × Option Error × Decoder :=
  if d.buffer = [] then
    let (e,d) := d.refill
    (d.buffer.take n,e,{ d with buffer := d.buffer.drop n })
  else (d.buffer.take n,none,{ d with buffer := d.buffer.drop n })

def readFullLoop : (fuel want : Nat) → (got : List UInt8) → DecodeM (List UInt8)
  | 0, _, _ => fun d => (.error .hang,d)
  | fuel+1, want, got => fun d =>
    if want ≤ got.length then (.ok got,d) else
    match d.read (want - got.length) with
    | (bs,none,d) => readFullLoop fuel want (got ++ bs) d
    | (bs,some e,d) => (.error (.error (if e = .eof ∧ got ++ bs ≠ [] then .unexpectedEOF else e)),d)

/-- Each turn of the loop takes the buffer or a chunk, so the fuel is enough. -/
def readFull (want : Nat) : DecodeM (List UInt8) := fun d => readFullLoop (d.reads.length + 3) want [] d

def discardLoop : (fuel n : Nat) → DecodeM Unit
  | 0, _ => fun d => (.error .hang,d)
  | fuel+1, n => fun d =>
    if n = 0 then (.ok (),d) else
    let count := min n d.buffer.length
    if count < d.buffer.length then (.ok (),{ d with buffer := d.buffer.drop count }) else
    match refill { d with buffer := [] } with
    | (none,d) => discardLoop fuel (n - count) d
    | (some e,d) => (.error (.error e),d)

def discard (n : Nat) : DecodeM Unit := fun d => discardLoop (d.reads.length + 2) n d

/-- Skip what is left of the packet and read the next header. -/
def next (typed : Bool) : DecodeM Unit := fun d =>
  let rem := d.packetLength - d.packetPos
  if rem < 0 then (.error (.error .overranReadBuffer),d) else
  match discard rem.toNat d with
  | (.error e,d) => (.error e,d)
  | (.ok _,d) =>
    match readFull (if typed then 5 else 4) d with
    | (.error e,d) => (.error e,d)
    | (.ok bs,d) =>
      let header := if typed then bs else 0 :: bs
      (.ok (),{ d with
        packetType := header.headD 0
        packetLength := (beNat (header.drop 1) : Int) - 4
        packetPos := 0 })

/-- `ReadByte`: skip what is left of the packet and read a byte that belongs to none. -/
def readByte : DecodeM UInt8 := fun d =>
  let rem := d.packetLength - d.packetPos
  if rem < 0 then (.error (.error .overranReadBuffer),d) else
  match discard rem.toNat d with
  | (.error e,d) => (.error e,d)
  | (.ok _,d) =>
    match readFull 1 { d with packetType := 0, packetLength := 0, packetPos := 0 } with
    | (.error e,d) => (.error e,d)
    | (.ok bs,d) => (.ok (bs.headD 0),d)

/-- A fixed-width number; the position moves even when the read fails. -/
def uint (w : Nat) : DecodeM Nat := fun d =>
  let (r,d) := readFull w d
  (r.map beNat,{ d with packetPos := d.packetPos + w })

/-- The bytes before the first zero byte and those behind it. -/
def cutZero : List UInt8 → Option (List UInt8 × List UInt8)
  | [] => none
  | b :: t => if b = 0 then some ([],t) else (cutZero t).map fun r => (b :: r.1,r.2)

theorem cutZero_eq_some {bs s rest : List UInt8} :
    cutZero bs = some (s,rest) ↔ bs = s ++ 0 :: rest ∧ 0 ∉ s := by
  induction bs generalizing s with
  | nil => simp [cutZero]
  | cons b t ih =>
    rw [cutZero]
    by_cases hb : b = 0
    · rcases s with _ | ⟨b',s⟩
      · simp [hb]
      · simp only [hb,if_true,Option.some.injEq,Prod.mk.injEq,List.cons_append,List.cons.injEq,List.mem_cons,not_or]
        exact ⟨nofun,fun h => absurd h.1.1 h.2.1⟩
    · rw [if_neg hb,Option.map_eq_some_iff]
      constructor
      · rintro ⟨⟨s',rest'⟩,hc,he⟩
        cases he
        obtain ⟨rfl,hs⟩ := ih.mp hc
        exact ⟨rfl,by simp [hs,Ne.symm hb]⟩
      · rintro ⟨he,hs⟩
        rcases s with _ | ⟨b',s⟩
        · cases he
          exact absurd rfl hb
        · cases he
          exact ⟨(s,rest),ih.mpr ⟨rfl,fun h => hs (List.mem_cons_of_mem _ h)⟩,rfl⟩

def stringLoop : (fuel : Nat) → (builder : List UInt8) → DecodeM (List UInt8)
  | 0, _ => fun d => (.error .hang,d)
  | fuel+1, builder => fun d =>
    match d.refill with
    | (some e,d) => (.error (.error e),{ d with packetPos := d.packetPos + builder.length })
    | (none,d) =>
      match cutZero d.buffer with
      | some (s,rest) => (.ok (builder ++ s),{ d with
          buffer := rest, packetPos := d.packetPos + (builder ++ s).length + 1 })
      | none => stringLoop fuel (builder ++ d.buffer) { d with buffer := [] }

/-- A zero-terminated string, from the buffer alone when it holds the terminator. -/
def string : DecodeM (List UInt8) := fun d =>
  match (if d.buffer = [] then d.refill else (none,d)) with
  | (some e,d) => (.error (.error e),d)
  | (none,d) =>
    match cutZero d.buffer with
    | some (s,rest) => (.ok s,{ d with buffer := rest, packetPos := d.packetPos + s.length + 1 })
    | none => stringLoop (d.reads.length + 1) d.buffer { d with buffer := [] }

end Decoder
end Pggat.Fed
