import Pggat.Fed.BufferOps
import Pggat.Fed.Plain

/-! The calls that a user makes on a decoder, in any order, and the same calls on the plain bytes. -/
namespace Pggat.Fed
open Pggat.Base

inductive Width where
  | uint8
  | uint16
  | uint32
  | uint64
  deriving DecidableEq, Repr

def Width.bytes : Width → Nat
  | .uint8 => 1
  | .uint16 => 2
  | .uint32 => 4
  | .uint64 => 8

inductive Call where
  | next (typed : Bool)
  | readByte
  | uint (w : Width)
  | string
  deriving DecidableEq, Repr

/-- What a call returns. -/
inductive Returned where
  | unit
  | byte (b : UInt8)
  | number (n : Nat)
  | bytes (bs : List UInt8)
  deriving DecidableEq, Repr

namespace Call

def run : Call → BufferedM Returned
  | .next typed => (fun _ => .unit) <$> BufferedDecoder.next typed
  | .readByte => .byte <$> BufferedDecoder.readByte
  | .uint w => .number <$> BufferedDecoder.uint w.bytes
  | .string => .bytes <$> BufferedDecoder.string

def decode : Call → DecodeM Returned
  | .next typed => (fun _ => .unit) <$> Decoder.next typed
  | .readByte => .byte <$> Decoder.readByte
  | .uint w => .number <$> Decoder.uint w.bytes
  | .string => .bytes <$> Decoder.string

def parse : Call → PlainM Returned
  | .next typed => (fun _ => .unit) <$> Plain.next typed
  | .readByte => .byte <$> Plain.readByte
  | .uint w => .number <$> Plain.uint w.bytes
  | .string => .bytes <$> Plain.string

end Call

variable {α β : Type}

private theorem BufferedDecoder.Follows.map {j : Bool} (f : α → β) {m : BufferedM α} {m' : DecodeM α}
    {d : BufferedDecoder} {v : Decoder} (h : Follows j (m d) (m' v)) : Follows j ((f <$> m) d) ((f <$> m') v) := by
  rw [Action.map_apply,Action.map_apply]
  obtain ⟨hw,hj,hsame | ⟨hjoin,⟨e,he⟩,e',he'⟩⟩ := h
  · rw [hsame]
    exact ⟨hw,hj,.inl rfl⟩
  · refine ⟨hw,hj,.inr ⟨hjoin,⟨e,?_⟩,e',?_⟩⟩
    · rw [he]
      rfl
    · rw [he']
      rfl

private theorem Decoder.Parsed.map (f : α → β) {m : DecodeM α} {m' : PlainM α} {d : Decoder} {p : Plain}
    (h : Parsed (m d) (m' p)) : Parsed ((f <$> m) d) ((f <$> m') p) := by
  rw [Action.map_apply,Action.map_apply,h.same]
  exact ⟨rfl,h.stop⟩

namespace Call
open BufferedDecoder Decoder

theorem run_follows (c : Call) {d : BufferedDecoder} (h : d.Wf) :
    Follows d.reader.joined (c.run d) (c.decode d.view) := by
  cases c with
  | next typed => exact (next_follows typed h).map _
  | readByte => exact (readByte_follows h).map _
  | uint w =>
    have hw : w.bytes ≤ defaultBufferSize := by
      cases w <;> decide
    exact (uint_follows h hw).map _
  | string => exact (string_follows h).map _

theorem decode_plain (c : Call) {d : Decoder} (hstop : d.stop = .eof) (hne : ∀ c ∈ d.reads, c.val ≠ []) :
    Parsed (c.decode d) (c.parse d.plain) := by
  cases c with
  | next typed => exact (next_plain typed hstop hne).map _
  | readByte => exact (readByte_plain hstop hne).map _
  | uint w => exact (uint_plain w.bytes hstop).map _
  | string => exact (string_plain hstop).map _

end Call

namespace BufferedDecoder

/-- What the decoder and its reader still have. -/
abbrev plain (d : BufferedDecoder) : Plain := ⟨d.window ++ d.reader.stream,d.packetType,d.packetLength,d.packetPos⟩

variable {d : BufferedDecoder}

private theorem view_plain (hj : d.reader.joined = false) : d.view.plain = d.plain := by
  simp only [Decoder.plain,Decoder.unread,view,chunks_flatten hj]

theorem run_parse (c : Call) (h : d.Wf) (hj : d.reader.joined = false) :
    (c.run d).2.Wf ∧ (c.run d).2.reader.joined = false ∧ c.parse d.plain = ((c.run d).1,(c.run d).2.plain) := by
  obtain ⟨hw,hj',hsame⟩ := c.run_follows h
  rw [hj] at hj' hsame
  refine ⟨hw,hj',?_⟩
  have hparsed := (c.decode_plain (show d.view.stop = .eof from rfl) fun _ => chunks_nonempty).same
  rcases hsame with hsame | ⟨hf,-⟩
  · rw [← view_plain hj,hparsed,hsame,view_plain hj']
  · cases hf

/-- What a `read` of `n` bytes does to a decoder. -/
structure Took (n : Nat) (d : BufferedDecoder) (bs : List UInt8) (e : Option Error) (d' : BufferedDecoder) : Prop where
  wf : d'.Wf
  joined : d'.reader.joined = d.reader.joined
  length : bs.length ≤ n
  plain : d.plain = { d'.plain with bytes := bs ++ d'.plain.bytes }
  progress : e = none → bs ≠ []
  ends : e ≠ none → d.reader.joined = false → bs = [] ∧ d'.plain.bytes = []

theorem plain_advance (h : d.Wf) (count : Nat) :
    (d.advance count).plain = { d.plain with bytes := d.window.drop count ++ d.reader.stream } := by
  have hp : (d.advance count).packetType = d.packetType ∧ (d.advance count).packetLength = d.packetLength ∧
      (d.advance count).packetPos = d.packetPos := by
    unfold advance
    split
    · exact ⟨rfl,rfl,rfl⟩
    · exact ⟨rfl,rfl,rfl⟩
  simp only [plain,window_advance h,advance_reader,hp]

variable {n : Nat}

private theorem took_window (h : d.Wf) (hn : 0 < n) (hw : d.window ≠ []) :
    Took n d (d.window.take n) none (d.advance (min n d.window.length)) := by
  have hpos := List.length_pos_iff.mpr hw
  refine ⟨h.advance (Nat.min_le_right _ _),congrArg _ (advance_reader _ _),?_,?_,fun _ => ?_,fun he => absurd rfl he⟩
  · rw [List.length_take]
    omega
  · rw [plain_advance h,drop_min,← List.append_assoc,List.take_append_drop]
  · rw [← List.length_pos_iff,List.length_take]
    omega

theorem read_took (h : d.Wf) (hn : 0 < n) :
    ∃ bs e d', d.read n = (bs,e,d') ∧ Took n d bs e d' := by
  have hn0 : n ≠ 0 := Nat.pos_iff_ne_zero.mp hn
  by_cases hw : d.bufferWrite = 0
  · have hnil := h.window_nil.mpr hw
    by_cases hdirect : n > defaultBufferSize
    · rcases hr : d.reader.read n with ⟨bs,e,r⟩
      obtain ⟨hlen,hs,hj,hsome,hend⟩ := Reader.read_spec hn hr
      refine ⟨bs,e,{ d with reader := r },?_,⟨h.buffer,h.read_le,h.write_le,h.meet⟩,hj,hlen,?_,hsome,fun he hf => ?_⟩
      · simp only [read,if_neg hn0,if_neg (not_not.mpr hw),if_pos hdirect,hr]
      · simp only [plain,show window { d with reader := r } = d.window from rfl,hnil,hs,List.nil_append]
      · simp only [show window { d with reader := r } = d.window from rfl,hnil,List.nil_append]
        exact hend he hf
    · rcases hr : d.reader.read defaultBufferSize with ⟨bs,e,r⟩
      obtain ⟨hlen,hs,hj,hsome,hend⟩ := Reader.read_spec defaultBufferSize_pos hr
      obtain ⟨d₁,hrefill,hwf,hwindow,hd⟩ := refill_empty h hw hr hlen
      have hplain : d.plain = { d₁.plain with bytes := bs ++ r.stream } := by
        rw [hd]
        simp only [plain,hnil,hs,List.nil_append]
      have hreader : d₁.reader = r := by rw [hd]
      refine ⟨d₁.window.take n,e,d₁.advance (min n d₁.window.length),?_,hwf.advance (Nat.min_le_right _ _),?_,?_,?_,
        fun he => ?_,fun he hf => ?_⟩
      · simp only [read,if_neg hn0,if_neg (not_not.mpr hw),if_neg hdirect,hrefill]
      · rw [advance_reader,hreader]
        exact hj
      · rw [List.length_take]
        omega
      · rw [plain_advance hwf,drop_min,← List.append_assoc,List.take_append_drop,hplain,hwindow,hreader]
      · exact (took_window hwf hn (by rw [hwindow]; exact hsome he)).progress rfl
      · obtain ⟨hbs,hrest⟩ := hend he hf
        rw [plain_advance hwf,hwindow,hreader,hbs,hrest,List.take_nil,List.drop_nil]
        exact ⟨rfl,rfl⟩
  · have hne : d.window ≠ [] := mt h.window_nil.mp hw
    refine ⟨_,_,_,?_,took_window h hn hne⟩
    simp only [read,if_neg hn0,if_pos hw]

end BufferedDecoder
end Pggat.Fed
