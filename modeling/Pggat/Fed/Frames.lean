import Pggat.Fed.Calls
import Pggat.Fed.Relay

/-! Whole frames that are relayed from one connection to another, between their two buffers. -/
namespace Pggat.Fed
open Pggat.Base

namespace BufferedDecoder

variable {d : BufferedDecoder} {n : Nat}

private theorem read_end {d' : BufferedDecoder} (h : d.Wf) (hn : 0 < n) {bs : List UInt8} {e : Error}
    (hr : d.read n = (bs,some e,d')) : e = .eof ∧ (bs = [] → d'.plain.bytes = []) := by
  have hn0 : n ≠ 0 := Nat.pos_iff_ne_zero.mp hn
  by_cases hw : d.bufferWrite = 0
  · by_cases hdirect : n > defaultBufferSize
    · simp only [read,if_neg hn0,if_neg (not_not.mpr hw),if_pos hdirect,Prod.mk.injEq] at hr
      obtain ⟨rfl,he,rfl⟩ := hr
      obtain ⟨rfl,-,-,ended,-,-⟩ := Reader.read_error (Prod.ext rfl (Prod.ext he rfl))
      refine ⟨rfl,fun _ => ?_⟩
      show d.window ++ _ = []
      rw [h.window_nil.mpr hw,ended,List.append_nil]
    · rcases hread : d.reader.read defaultBufferSize with ⟨bs',e',r⟩
      have hlen := (Reader.read_spec defaultBufferSize_pos hread).1
      obtain ⟨d₁,hrefill,hwf,hwindow,hd⟩ := refill_empty h hw hread hlen
      simp only [read,if_neg hn0,if_neg (not_not.mpr hw),if_neg hdirect,hrefill,Prod.mk.injEq] at hr
      obtain ⟨rfl,rfl,rfl⟩ := hr
      obtain ⟨rfl,-,-,ended,-,-⟩ := Reader.read_error hread
      refine ⟨rfl,fun none => ?_⟩
      have empty : d₁.window = [] := by
        rcases List.take_eq_nil_iff.mp none with zero | nil
        · exact absurd zero hn0
        · exact nil
      rw [plain_advance hwf,empty,List.drop_nil,hd,ended,List.append_nil]
  · simp only [read,if_neg hn0,if_pos hw,Prod.mk.injEq,reduceCtorEq,false_and,and_false] at hr

instance : Source BufferedDecoder where
  packetType := packetType
  packetLength := packetLength
  packetPos := packetPos
  readRest := readRest
  bytes d := d.plain.bytes
  turns d := d.plain.bytes.length
  Wf := Wf
  readRest_spec := by
    intro d n h hn within
    by_cases ended : d.packetLength - d.packetPos = 0
    · exact ⟨[],some .eof,d,if_pos ended,h,Nat.zero_le _,rfl,rfl,(Int.add_zero _).symm,within,
        fun _ => .inl ⟨by omega,rfl⟩,fun h => absurd rfl h⟩
    have behind : ¬ d.packetLength - d.packetPos < 0 := by omega
    obtain ⟨bs,e,d',hr,took⟩ := read_took h (show 0 < min n (d.packetLength - d.packetPos).toNat by omega)
    have length := took.length
    obtain ⟨bytes,-,same,start⟩ := Plain.mk.inj took.plain
    replace same : d.packetLength = d'.packetLength := same
    replace start : d.packetPos = d'.packetPos := start
    refine ⟨bs,e,{ d' with packetPos := d'.packetPos + bs.length },?_,took.wf.packet ..,by omega,bytes,same.symm,
      congrArg (· + _) start.symm,?_,?_⟩
    · rw [readRest,if_neg ended,if_neg behind,hr]
    · show d'.packetPos + bs.length ≤ d'.packetLength
      omega
    · cases e with
      | none =>
        have some := List.length_pos_iff.mpr (took.progress rfl)
        have total : d.plain.bytes.length = bs.length + d'.plain.bytes.length :=
          (congrArg List.length bytes).trans List.length_append
        show d'.plain.bytes.length < d.plain.bytes.length
        omega
      | some e =>
        obtain ⟨eof,none⟩ := read_end h (by omega) hr
        exact ⟨fun nil => .inr ⟨by omega,none nil⟩,fun _ => eof⟩

end BufferedDecoder

/-- A frame on the wire. Frames without a type byte open a connection. -/
structure Frame where
  typed : Bool
  type : UInt8
  payload : List UInt8
  fits : payload.length + 4 < 256 ^ 4

namespace Frame

def bytes (f : Frame) : List UInt8 :=
  (if f.typed then [f.type] else []) ++ beBytes 4 (f.payload.length + 4) ++ f.payload

/-- The decoder has read the header of a frame. -/
structure Pending (f : Frame) (d : BufferedDecoder) : Prop extends d.Wf where
  packetType : d.packetType = if f.typed then f.type else 0
  packetLength : d.packetLength = f.payload.length
  packetPos : d.packetPos = 0

variable {rest : List UInt8}

private theorem next_plain (f : Frame) {p : Plain} (ended : p.packetPos = p.packetLength)
    (bytes : p.bytes = f.bytes ++ rest) :
    Plain.next f.typed p = (.ok (),⟨f.payload ++ rest,if f.typed then f.type else 0,f.payload.length,0⟩) := by
  have fits := f.fits
  have none : p.packetLength - p.packetPos = 0 := by omega
  have left : Plain.leave p = (.ok (),p) := by simp [Plain.leave,Plain.skip,none]
  have size : beNat (beBytes 4 (f.payload.length + 4)) = f.payload.length + 4 := by
    rw [beNat_beBytes,Nat.mod_eq_of_lt fits]
  have header : (beBytes 4 (f.payload.length + 4)).length = 4 := length_beBytes ..
  rw [Plain.next,Action.bind_ok left]
  cases typed : f.typed with
  | false =>
    have split : p.bytes = beBytes 4 (f.payload.length + 4) ++ (f.payload ++ rest) := by simp [bytes,Frame.bytes,typed]
    have taken : Plain.take 4 p =
        (.ok (beBytes 4 (f.payload.length + 4)),{ p with bytes := f.payload ++ rest }) := by
      simp [Plain.take,split,header,List.take_left',List.drop_left']
    simp only [Bool.false_eq_true,if_false]
    rw [Action.bind_ok taken]
    simp [Plain.enter,size]
  | true =>
    have split : p.bytes = (f.type :: beBytes 4 (f.payload.length + 4)) ++ (f.payload ++ rest) := by
      simp [bytes,Frame.bytes,typed]
    have taken : Plain.take 5 p =
        (.ok (f.type :: beBytes 4 (f.payload.length + 4)),{ p with bytes := f.payload ++ rest }) := by
      simp [Plain.take,split,header,List.take_left',List.drop_left']
    simp only [if_true]
    rw [Action.bind_ok taken]
    simp [Plain.enter,size]

theorem next_pending (f : Frame) {d : BufferedDecoder} (wf : d.Wf) (joined : d.reader.joined = false)
    (ended : d.packetPos = d.packetLength) (bytes : d.plain.bytes = f.bytes ++ rest) :
    ∃ d', BufferedDecoder.next f.typed d = (.ok (),d') ∧ f.Pending d' ∧ d'.plain.bytes = f.payload ++ rest := by
  obtain ⟨wf',-,same⟩ := BufferedDecoder.run_parse (.next f.typed) wf joined
  simp only [Call.run,Call.parse,Action.map_apply] at wf' same
  rw [f.next_plain (p := d.plain) ended bytes] at same
  rcases result : BufferedDecoder.next f.typed d with ⟨e | _,d'⟩
  · rw [result] at same
    cases (Prod.mk.inj same).1
  · rw [result] at same wf'
    obtain ⟨after,type,length,pos⟩ := Plain.mk.inj (Prod.mk.inj same).2
    exact ⟨d',rfl,⟨wf',type.symm,length.symm,pos.symm⟩,after.symm⟩

private theorem headerBytes_eq {f : Frame} (named : f.typed = true → f.type ≠ 0) :
    Encoder.headerBytes (if f.typed then f.type else 0) f.payload.length ++ f.payload = f.bytes := by
  have fits := f.fits
  have length : (((f.payload.length : Int) + 4) % 256 ^ 4).toNat = f.payload.length + 4 := by omega
  rw [Encoder.headerBytes,bytes,length]
  cases typed : f.typed with
  | false => simp
  | true => simp [named typed]

end Frame

namespace Relay

/-- A relayed packet is copied exactly, whatever the two buffers hold and however the source comes: with a type that is
not zero or none at all, the destination gets the bytes of the frame once and the source is at its end. If the source
ends before, there is an error. -/
theorem relay_exact (f : Frame) (named : f.typed = true → f.type ≠ 0) {p : Relay BufferedDecoder}
    (works : p.encoder.Open) (balanced : p.encoder.packetPos = p.encoder.packetLength) (pending : f.Pending p.decoder) :
    (∀ rest, p.decoder.plain.bytes = f.payload ++ rest → ∃ q, relay p = (.ok (),q) ∧
      q.encoder.out = p.encoder.emitted ++ f.bytes ∧ q.encoder.buffer = [] ∧
      q.encoder.packetPos = q.encoder.packetLength ∧
      q.decoder.packetPos = q.decoder.packetLength ∧ q.decoder.plain.bytes = rest) ∧
    (p.decoder.plain.bytes.length < f.payload.length → ∃ e, (relay p).1 = .error (.error e)) := by
  obtain ⟨whole,short⟩ := writePacket_spec works pending.toWf balanced pending.packetPos pending.packetLength
  refine ⟨fun rest arrived => ?_,fun less => ?_⟩
  · replace arrived : Source.bytes p.decoder = f.payload ++ rest := arrived
    obtain ⟨q,done,works',wf,counted,-,emitted,after,ended⟩ := whole (by rw [arrived,List.length_append]; omega)
    obtain ⟨r,flushed,last,same,empty⟩ := flush_moved works' wf
    rw [arrived,List.take_left,show Source.packetType p.decoder = _ from pending.packetType,
      Frame.headerBytes_eq named] at emitted
    rw [arrived,List.drop_left] at after
    refine ⟨r,(Action.bind_ok done).trans flushed,?_,empty,?_,?_,?_⟩
    · have out := last.emitted
      rwa [List.append_nil,emitted,Encoder.emitted,empty,List.append_nil] at out
    · have sum : r.encoder.packetPos + (0 : Nat) = q.encoder.packetPos + (0 : Nat) := last.packetPos
      rw [last.packetLength]
      omega
    · rw [same]
      exact ended
    · rw [same]
      exact after
  · obtain ⟨e,q,done⟩ := short less
    exact ⟨e,by rw [relay,Action.bind_error done]⟩

/-- A packet for a destination that has nothing, of a source that gives a byte at a time. -/
def byteByByte (type : UInt8) (length : Int) (stream : List UInt8) : Relay BufferedDecoder where
  encoder := {}
  decoder := { BufferedDecoder.new ⟨stream,fun _ => 1,false,0⟩ with packetType := type, packetLength := length }

private theorem pending_byteByByte (f : Frame) (stream : List UInt8) :
    f.Pending (byteByByte (if f.typed then f.type else 0) f.payload.length stream).decoder :=
  ⟨BufferedDecoder.Wf.new _ |>.packet _ _ _,rfl,rfl,rfl⟩

theorem relay_exact_ready : ∃ q, relay (byteByByte 0x5A 1 [0x49, 0x5A]) = (.ok (),q) ∧
    q.encoder.out = [0x5A, 0, 0, 0, 5, 0x49] ∧ q.decoder.plain.bytes = [0x5A] := by
  let f : Frame := ⟨true,0x5A,[0x49],by decide⟩
  obtain ⟨q,done,out,-,-,-,rest⟩ := (relay_exact f (by decide) ⟨rfl,by decide⟩ rfl
    (pending_byteByByte f [0x49, 0x5A])).1 [0x5A] (by decide)
  exact ⟨q,done,out.trans (by decide),rest⟩

/-- The type byte of a packet that has been read is lost if it is zero, which stands for none. -/
theorem relay_zero_type : ∃ f : Frame, ∃ d : BufferedDecoder,
    BufferedDecoder.next f.typed (.new ⟨f.bytes,fun _ => 1,false,0⟩) = (.ok (),d) ∧
    (relay ⟨{},d⟩).1 = .ok () ∧ (relay ⟨{},d⟩).2.encoder.out ≠ f.bytes := by
  let f : Frame := ⟨true,0,[],by decide⟩
  obtain ⟨d,read,pending,-⟩ := f.next_pending (BufferedDecoder.Wf.new ⟨f.bytes,fun _ => 1,false,0⟩) rfl rfl rfl
  obtain ⟨q,done,works,wf,-,-,emitted,-,-⟩ :=
    (writePacket_spec (p := ⟨{},d⟩) ⟨rfl,Nat.zero_le _⟩ pending.toWf rfl pending.packetPos pending.packetLength).1
      (Nat.zero_le _)
  obtain ⟨r,flushed,last,-,empty⟩ := flush_moved works wf
  have relayed : relay ⟨{},d⟩ = (.ok (),r) := (Action.bind_ok done).trans flushed
  have out := last.emitted
  rw [List.append_nil,emitted,show Source.packetType d = 0 from pending.packetType,Encoder.emitted,empty,
    List.append_nil] at out
  refine ⟨f,d,read,by rw [relayed],?_⟩
  rw [relayed,out,show List.take f.payload.length _ = [] from List.take_zero]
  show ({} : Encoder).emitted ++ (Encoder.headerBytes 0 f.payload.length ++ []) ≠ f.bytes
  decide

end Relay
end Pggat.Fed
