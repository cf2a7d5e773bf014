import Pggat.Fed.Unread

/-! Parsing of a plain sequence of bytes, and that the decoder computes it: the results, the errors and the position
in the packet are those of the bytes alone. -/
namespace Pggat.Fed
open Pggat.Base

/-- The bytes of a stream that are left, and the packet that has been entered. -/
structure Plain where
  bytes : List UInt8
  packetType : UInt8 := 0
  packetLength : Int := 0
  packetPos : Int := 0
  deriving DecidableEq

abbrev PlainM := Action Failure Plain

namespace Plain

def take (n : Nat) : PlainM (List UInt8) := fun p =>
  (if n ≤ p.bytes.length then .ok (p.bytes.take n)
    else .error (.error (if p.bytes = [] then .eof else .unexpectedEOF)),
    { p with bytes := p.bytes.drop n })

/-- Bytes are skipped on the way to others, so the stream goes on behind them. -/
def skip (n : Nat) : PlainM Unit := fun p =>
  (if n = 0 ∨ n < p.bytes.length then .ok () else .error (.error .eof),{ p with bytes := p.bytes.drop n })

def leave : PlainM Unit := fun p =>
  if p.packetLength - p.packetPos < 0 then (.error (.error .overranReadBuffer),p)
  else skip (p.packetLength - p.packetPos).toNat p

def enter (type : UInt8) (length : Int) : PlainM Unit := fun p =>
  (.ok (),{ p with packetType := type, packetLength := length, packetPos := 0 })

def next (typed : Bool) : PlainM Unit := do
  leave
  let bs ← take (if typed then 5 else 4)
  let header := if typed then bs else 0 :: bs
  enter (header.headD 0) ((beNat (header.drop 1) : Int) - 4)

def readByte : PlainM UInt8 := do
  leave
  enter 0 0
  let bs ← take 1
  pure (bs.headD 0)

/-- The position moves even when the number is cut short. -/
def uint (w : Nat) : PlainM Nat := fun p =>
  let (r,p) := take w p
  (r.map beNat,{ p with packetPos := p.packetPos + w })

def string : PlainM (List UInt8) := fun p =>
  match Decoder.cutZero p.bytes with
  | some (s,rest) => (.ok s,{ p with bytes := rest, packetPos := p.packetPos + s.length + 1 })
  | none => (.error (.error .eof),{ p with bytes := [], packetPos := p.packetPos + p.bytes.length })

/-- What is left of the packet, as far as the stream has it. -/
def rest : PlainM (List UInt8) := fun p =>
  let rem := p.packetLength - p.packetPos
  if rem < 0 then (.error .panic,p) else
  (.ok (p.bytes.take rem.toNat),{ p with
    bytes := p.bytes.drop rem.toNat, packetPos := p.packetPos + (p.bytes.take rem.toNat).length })

end Plain

namespace Decoder

abbrev plain (d : Decoder) : Plain := ⟨d.unread,d.packetType,d.packetLength,d.packetPos⟩

/-- The decoder has done what the parser of the plain bytes does. -/
structure Parsed {α : Type} (r : Except Failure α × Decoder) (p : Except Failure α × Plain) : Prop where
  same : p = (r.1,r.2.plain)
  stop : r.2.stop = .eof

theorem plain_of_same {d d' : Decoder} (hs : SamePacket d d') : d'.plain = { d.plain with bytes := d'.unread } := by
  simp only [plain,hs.packetType,hs.packetLength,hs.packetPos]

theorem Moved.plain {d d' : Decoder} {rest : List UInt8} {count : Nat} (h : Moved d d' rest count) :
    d'.plain = { d.plain with bytes := rest, packetPos := d.packetPos + count } := by
  simp only [Decoder.plain,h.unread,h.packetType,h.packetLength,h.packetPos]

variable {d : Decoder}

private theorem short_eof (hstop : d.stop = .eof) :
    d.short [] = if d.unread = [] then .eof else .unexpectedEOF := by
  simp only [short,hstop,List.nil_append]
  split <;> simp_all

theorem readFull_plain (want : Nat) (hstop : d.stop = .eof) :
    Parsed (readFull want d) (Plain.take want d.plain) := by
  obtain ⟨d',hr,hu,hs⟩ := readFull_spec want d
  rw [hr,short_eof hstop]
  exact ⟨by rw [plain_of_same hs,hu]; rfl,hs.stop.trans hstop⟩

private theorem discard_plain (n : Nat) (hstop : d.stop = .eof) (hne : ∀ c ∈ d.reads, c.val ≠ []) :
    Parsed (discard n d) (Plain.skip n d.plain) := by
  obtain ⟨d',hu,hs,⟨hd,hmore⟩ | ⟨hd,hn,hle⟩⟩ := discard_spec n d <;>
    refine ⟨?_,by rw [hd]; exact hs.stop.trans hstop⟩ <;> rw [hd,plain_of_same hs,hu,Plain.skip]
  · have hmore' : n = 0 ∨ n < d.unread.length :=
      hmore.imp_right fun h => h.resolve_right fun ⟨c,hc,hnil⟩ => hne c hc hnil
    rw [if_pos hmore']
  · rw [if_neg (show ¬ (n = 0 ∨ n < d.unread.length) by omega),hstop]

theorem uint_plain (w : Nat) (hstop : d.stop = .eof) :
    Parsed (uint w d) (Plain.uint w d.plain) := by
  obtain ⟨hsame,hstop'⟩ := readFull_plain w hstop
  refine ⟨?_,hstop'⟩
  simp only [Plain.uint,uint,hsame]
  rfl

theorem leave_plain {α : Type} {k : DecodeM α} {k' : PlainM α} (hstop : d.stop = .eof)
    (hne : ∀ c ∈ d.reads, c.val ≠ []) (hk : ∀ d : Decoder, d.stop = .eof → Parsed (k d) (k' d.plain)) : Parsed
      (if d.packetLength - d.packetPos < 0 then (.error (.error .overranReadBuffer),d) else
        match discard (d.packetLength - d.packetPos).toNat d with
        | (.error e,d) => (.error e,d)
        | (.ok _,d) => k d)
      ((Plain.leave >>= fun _ => k') d.plain) := by
  by_cases hrem : d.packetLength - d.packetPos < 0
  · rw [if_pos hrem]
    exact ⟨Action.bind_error (if_pos hrem),hstop⟩
  obtain ⟨hsame,hstop'⟩ := discard_plain (d.packetLength - d.packetPos).toNat hstop hne
  have hleave : Plain.leave d.plain = _ := (if_neg hrem).trans hsame
  rw [if_neg hrem]
  rcases hd : discard (d.packetLength - d.packetPos).toNat d with ⟨e | _,d₁⟩ <;> rw [hd] at hleave hstop'
  · exact ⟨Action.bind_error hleave,hstop'⟩
  · rw [Action.bind_ok hleave]
    exact hk d₁ hstop'

theorem next_plain (typed : Bool) (hstop : d.stop = .eof) (hne : ∀ c ∈ d.reads, c.val ≠ []) :
    Parsed (next typed d) (Plain.next typed d.plain) := by
  refine leave_plain hstop hne fun d₁ hstop₁ => ?_
  obtain ⟨hsame,hstop₂⟩ := readFull_plain (if typed then 5 else 4) hstop₁
  rcases hr : readFull (if typed then 5 else 4) d₁ with ⟨e | bs,d₂⟩ <;> rw [hr] at hsame hstop₂
  · exact ⟨Action.bind_error hsame,hstop₂⟩
  · exact ⟨Action.bind_ok hsame,hstop₂⟩

theorem readByte_plain (hstop : d.stop = .eof) (hne : ∀ c ∈ d.reads, c.val ≠ []) :
    Parsed (readByte d) (Plain.readByte d.plain) := by
  refine leave_plain hstop hne fun d₁ hstop₁ => ?_
  have henter : Plain.enter 0 0 d₁.plain =
      (.ok (),plain { d₁ with packetType := 0, packetLength := 0, packetPos := 0 }) := rfl
  obtain ⟨hsame,hstop₂⟩ := @readFull_plain { d₁ with packetType := 0, packetLength := 0, packetPos := 0 } 1 hstop₁
  rw [Action.bind_ok henter]
  rcases hr : readFull 1 { d₁ with packetType := 0, packetLength := 0, packetPos := 0 } with ⟨e | bs,d₂⟩ <;>
    rw [hr] at hsame hstop₂
  · exact ⟨Action.bind_error hsame,hstop₂⟩
  · exact ⟨Action.bind_ok hsame,hstop₂⟩

theorem string_plain (hstop : d.stop = .eof) : Parsed (string d) (Plain.string d.plain) := by
  have hspec := string_spec d
  rw [StringRead] at hspec
  cases hz : cutZero d.unread with
  | some sr =>
    rw [hz] at hspec
    obtain ⟨d',hr,moved⟩ := hspec
    refine ⟨?_,by rw [hr]; exact moved.stop.trans hstop⟩
    simp only [Plain.string,hz,hr,moved.plain,List.nil_append,Int.natCast_succ,Int.add_assoc]
  | none =>
    rw [hz] at hspec
    obtain ⟨d',hr,moved⟩ := hspec
    refine ⟨?_,by rw [hr]; exact moved.stop.trans hstop⟩
    simp only [Plain.string,hz,hr,moved.plain,List.nil_append,hstop]

end Decoder
end Pggat.Fed
