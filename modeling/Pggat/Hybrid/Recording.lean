import Pggat.Fed.RoundTrip
import Pggat.Hybrid.Middleware

/-! What the middleware's encoder and decoder do with `buf`, in terms of the bytes recorded and the bytes left. -/
namespace Pggat.Hybrid
open Pggat.Base Pggat.Fed Encoder

namespace Buffer

theorem length_rest (b : Buffer) : b.rest.length = b.buffered := List.length_drop

private theorem rest_advance (b : Buffer) (n : Nat) :
    rest ⟨b.buf,b.pos + min n b.buffered,b.advance_le n⟩ = b.rest.drop n := by
  show b.buf.drop (b.pos + min n b.buffered) = b.rest.drop n
  rw [← List.drop_drop,← b.length_rest]
  rcases Nat.le_total n b.rest.length with hle | hle
  · rw [Nat.min_eq_left hle]
    rfl
  · rw [Nat.min_eq_right hle,List.drop_eq_nil_of_le hle]
    exact List.drop_eq_nil_of_le (Nat.le_refl _)

theorem rest_write (b : Buffer) (bs : List UInt8) : (b.write bs).rest = b.rest ++ bs :=
  List.drop_append_of_le_length b.pos_le

private theorem chunksLoop_flatten (fuel : Nat) (b : Buffer) (h : b.buffered ≤ fuel) :
    ((chunksLoop fuel b).map Subtype.val).flatten = b.rest := by
  induction fuel generalizing b with
  | zero =>
    have hrest : b.rest = [] := List.length_eq_zero_iff.mp (b.length_rest.trans (Nat.le_zero.mp h))
    rw [hrest]
    rfl
  | succ fuel ih =>
    by_cases hb : b.buffered = 0
    · have hrest : b.rest = [] := List.length_eq_zero_iff.mp (b.length_rest.trans hb)
      simp only [chunksLoop,read,if_pos hb]
      rw [hrest]
      rfl
    · simp only [chunksLoop,read,if_neg hb,List.map_cons,List.flatten_cons]
      have hless : buffered ⟨b.buf,b.pos + min defaultBufferSize b.buffered,b.advance_le _⟩ ≤ fuel := by
        simp only [buffered,defaultBufferSize] at h hb ⊢
        omega
      rw [ih _ hless,rest_advance,List.take_append_drop]

theorem chunks_flatten (b : Buffer) : (b.chunks.map Subtype.val).flatten = b.rest :=
  chunksLoop_flatten b.buffered b (Nat.le_refl _)

end Buffer

namespace Middleware

def unread (T : Middleware) : List UInt8 := T.bufDec.buffer ++ T.buf.rest

theorem decoder_unread (T : Middleware) : T.decoder.unread = T.unread := by
  rw [Decoder.unread,unread]
  exact congrArg (T.bufDec.buffer ++ ·) T.buf.chunks_flatten

theorem drained_iff (T : Middleware) : T.Drained ↔ T.unread = [] := by
  rw [unread,List.append_eq_nil_iff,Drained,← Buffer.length_rest,List.length_eq_zero_iff,List.length_eq_zero_iff]
  exact And.comm

theorem took_unread (T : Middleware) {d : Decoder} (h : d.reads <:+ T.decoder.reads) : (T.took d).unread = d.unread := by
  obtain ⟨cs,hcs⟩ := h
  have hrest : T.buf.rest = (cs.map Subtype.val).flatten ++ (d.reads.map Subtype.val).flatten := by
    rw [← Buffer.chunks_flatten,← List.flatten_append,← List.map_append]
    exact congrArg (fun l => (List.map Subtype.val l).flatten) hcs.symm
  have hbuf : T.buf.buf = T.buf.buf.take T.buf.pos ++ ((cs.map Subtype.val).flatten ++ (d.reads.map Subtype.val).flatten) := by
    rw [← hrest]
    exact (List.take_append_drop _ _).symm
  have hpos : (T.took d).buf.rest = (d.reads.map Subtype.val).flatten := by
    rw [← List.append_assoc] at hbuf
    generalize T.buf.buf.take T.buf.pos ++ (cs.map Subtype.val).flatten = front at hbuf
    show T.buf.buf.drop (T.buf.buf.length - (d.reads.map Subtype.val).flatten.length) = _
    rw [hbuf,List.length_append,Nat.add_sub_cancel]
    exact List.drop_left
  exact congrArg (d.buffer ++ ·) hpos

/-- The encoder is between two packets and has handed all of them to `buf`. -/
structure Recorded (T : Middleware) (bytes : List UInt8) : Prop where
  works : T.bufEnc.broken = false
  flushed : T.bufEnc.buffer = []
  balanced : T.bufEnc.packetPos = T.bufEnc.packetLength
  buf : T.buf.buf = bytes

/-- The decoder has the packet with this payload in front of it, and `rest` behind it. -/
structure Facing (T : Middleware) (type : UInt8) (payload rest : List UInt8) : Prop where
  packetType : T.bufDec.packetType = type
  packetLength : T.bufDec.packetLength = payload.length
  packetPos : T.bufDec.packetPos = 0
  unread : T.unread = payload ++ rest

/-- The decoder is between two packets, with `rest` behind it. -/
structure Behind (T : Middleware) (rest : List UInt8) : Prop where
  balanced : T.bufDec.packetPos = T.bufDec.packetLength
  unread : T.unread = rest

/-- The reader of a packet has read all of it, in whatever pieces. -/
structure Consumed (T T' : Middleware) : Prop where
  primary : T'.primary = T.primary
  buf : T'.buf.buf = T.buf.buf
  bufEnc : T'.bufEnc = T.bufEnc
  packetPos : T'.bufDec.packetPos = T'.bufDec.packetLength
  unread : T'.unread = T.unread.drop (T.bufDec.packetLength - T.bufDec.packetPos).toNat

end Middleware

/-- On a working encoder, `writeTo` adds the payload that the length announces. -/
structure Packet.Carries (p : Packet) (payload : List UInt8) : Prop where
  length : p.length = payload.length
  writes : ∀ e : Encoder, e.Open → ∃ e', p.writeTo e = (.ok (),e') ∧ e'.Open ∧
    e'.emitted = e.emitted ++ payload ∧ e'.packetLength = e.packetLength ∧ e'.packetPos = e.packetPos + payload.length

/-- A well-formed typed packet. -/
structure Message extends Packet where
  payload : List UInt8
  typed : type ≠ 0
  fits : payload.length + 4 < 2 ^ 32
  carries : toPacket.Carries payload

namespace Message

def frame (m : Message) : List UInt8 := headerBytes m.type m.payload.length ++ m.payload

def Same (m : Message) (p : Packet) : Prop := p.type = m.type ∧ p.Carries m.payload

end Message

namespace Middleware
variable {T : Middleware}

variable {type : UInt8} {payload rest : List UInt8}

theorem Facing.writeTo (h : T.Facing type payload rest) {e : Encoder} (he : e.Open) :
    ∃ q, Relay.writeTo ⟨e,T.decoder⟩ = (.ok (),q) ∧ Relay.Moved ⟨e,T.decoder⟩ q payload 0 := by
  have bytes : Source.bytes T.decoder = payload ++ rest := T.decoder_unread.trans h.unread
  have left : Source.packetLength T.decoder - Source.packetPos T.decoder = payload.length := by
    show T.bufDec.packetLength - T.bufDec.packetPos = payload.length
    rw [h.packetLength,h.packetPos,Int.sub_zero]
  obtain ⟨q,hq,hm⟩ := (Relay.writeTo_spec (p := ⟨e,T.decoder⟩) he trivial left).1
    (by rw [bytes,List.length_append]; exact Nat.le_add_right _ _)
  rw [bytes,List.take_left] at hm
  exact ⟨q,hq,hm⟩

theorem Facing.carries (h : T.Facing type payload rest) :
    (Packet.pending T.decoder).type = type ∧ (Packet.pending T.decoder).Carries payload := by
  refine ⟨h.packetType,h.packetLength,fun e he => ?_⟩
  obtain ⟨q,hq,hm⟩ := h.writeTo he
  refine ⟨q.encoder,?_,hm.toOpen,hm.emitted,hm.packetLength,?_⟩
  · simp only [Packet.pending,hq]
  · simpa using hm.packetPos

variable {e : Encoder}

theorem Facing.consumed (h : T.Facing type payload rest)
    (he : e.Open) : T.Consumed (T.took (Relay.writeTo ⟨e,T.decoder⟩).2.decoder) := by
  obtain ⟨q,hq,hm⟩ := h.writeTo he
  have hreads := writeTo_reads ⟨e,T.decoder⟩
  have hpos : q.decoder.packetPos = T.bufDec.packetPos + payload.length := hm.sourcePos
  have hlength : q.decoder.packetLength = T.bufDec.packetLength := hm.sourceLength
  have hbytes : payload ++ rest = payload ++ q.decoder.unread := (T.decoder_unread.trans h.unread).symm.trans hm.bytes
  rw [hq] at hreads ⊢
  refine ⟨rfl,rfl,rfl,?_,?_⟩
  · show q.decoder.packetPos = q.decoder.packetLength
    rw [hpos,hlength,h.packetLength,h.packetPos,Int.zero_add]
  · rw [T.took_unread hreads,← List.append_cancel_left hbytes,h.unread,h.packetLength,h.packetPos,Int.sub_zero]
    exact List.drop_left.symm

variable {T' : Middleware}

theorem Facing.behind (h : T.Facing type payload rest)
    (hc : T.Consumed T') : T'.Behind rest := by
  refine ⟨hc.packetPos,?_⟩
  rw [hc.unread,h.unread,h.packetLength,h.packetPos,Int.sub_zero]
  exact List.drop_left

variable {bytes : List UInt8}

theorem Recorded.consumed (h : T.Recorded bytes) (hc : T.Consumed T') :
    T'.Recorded bytes := by
  obtain ⟨works,flushed,balanced,buf⟩ := h
  rw [← hc.bufEnc] at works flushed balanced
  exact ⟨works,flushed,balanced,hc.buf.trans buf⟩

theorem next_facing {m : Message} (h : T.Behind (m.frame ++ rest)) :
    ∃ T', decoding (Decoder.next (m.type ≠ 0)) T = (.ok (),T') ∧ T'.Facing m.type m.payload rest ∧
      T'.primary = T.primary ∧ T'.bufEnc = T.bufEnc ∧ T'.buf.buf = T.buf.buf := by
  have hup : T.decoder.upcoming (m.type ≠ 0) = some (m.type,(m.payload.length : Int),m.payload ++ rest) := by
    have hzero : T.decoder.packetLength - T.decoder.packetPos = 0 := by
      show T.bufDec.packetLength - T.bufDec.packetPos = 0
      rw [h.balanced,Int.sub_self]
    have hheader := header_headerBytes m.type m.payload.length (m.payload ++ rest)
    rw [announced_eq m.fits] at hheader
    rw [Decoder.upcoming,hzero,if_neg (by decide),decoder_unread,h.unread,Message.frame,List.append_assoc]
    exact hheader
  have hnext := Decoder.next_spec (m.type ≠ 0) T.decoder
  rw [hup] at hnext
  obtain ⟨d,hn,hbytes,htype,hlength,hpos⟩ := hnext
  have hreads := Decoder.next_reads (m.type ≠ 0) T.decoder
  rw [hn] at hreads
  refine ⟨T.took d,?_,⟨htype,hlength,hpos,(T.took_unread hreads).trans hbytes⟩,rfl,rfl,rfl⟩
  simp only [decoding,hn]

private theorem encoding_ok {op : EncodeM Unit} (h : op { T.bufEnc with out := [] } = (.ok (),e)) :
    encoding op T = (.ok (),{ T with bufEnc := e, buf := T.buf.write e.out }) := by
  simp only [encoding,h]

private theorem record_spec (m : Message) (h : T.Recorded bytes) :
    ∃ T', record m.toPacket T = (.ok (),T') ∧ T'.Recorded (bytes ++ m.frame) ∧ T'.primary = T.primary ∧
      T'.bufDec = T.bufDec ∧ T'.buf.rest = T.buf.rest ++ m.frame := by
  have hopen : Encoder.Open { T.bufEnc with out := [] } := ⟨h.works,by simp [h.flushed]⟩
  obtain ⟨e₁,hn,ho₁,he₁,_,hl₁,hp₁⟩ := Encoder.next_spec m.type m.length hopen h.balanced
  obtain ⟨e₂,hw,ho₂,he₂,hl₂,hp₂⟩ := m.carries.writes { e₁ with out := [] } ⟨ho₁.works,ho₁.fits⟩
  obtain ⟨e₃,hf,ha₃⟩ := Encoder.Adds.flush { e₂ with out := [] } ⟨ho₂.works,ho₂.fits⟩
  have hflushed : e₃.buffer = [] := Encoder.Adds.flush_buffer (e := { e₂ with out := [] }) ⟨ho₂.works,ho₂.fits⟩ hf
  have hout : e₁.out ++ (e₂.out ++ e₃.out) = m.frame := by
    have hout₁ : e₁.out ++ e₁.buffer = headerBytes m.type m.payload.length := by
      rw [← m.carries.length]
      simpa [Encoder.emitted,h.flushed] using he₁
    have hout₂ : e₂.out ++ e₂.buffer = e₁.buffer ++ m.payload := by simpa [Encoder.emitted] using he₂
    have hout₃ : e₃.out = e₂.buffer := by simpa [Encoder.emitted,hflushed] using ha₃.emitted
    rw [hout₃,hout₂,← List.append_assoc,hout₁,Message.frame]
  let T' : Middleware := { T with bufEnc := e₃, buf := ((T.buf.write e₁.out).write e₂.out).write e₃.out }
  refine ⟨T',?_,⟨ha₃.works,hflushed,?_,?_⟩,rfl,rfl,?_⟩
  · exact (Action.bind_ok (encoding_ok hn)).trans
      ((Action.bind_ok (encoding_ok (T := { T with bufEnc := e₁, buf := T.buf.write e₁.out }) hw)).trans
        (encoding_ok (T := { T with bufEnc := e₂, buf := (T.buf.write e₁.out).write e₂.out }) hf))
  · have hpos : e₃.packetPos = e₂.packetPos + (0 : Nat) := ha₃.packetPos
    have hlength : e₃.packetLength = e₂.packetLength := ha₃.packetLength
    have hpos₂ : e₂.packetPos = e₁.packetPos + m.payload.length := hp₂
    have hlength₂ : e₂.packetLength = e₁.packetLength := hl₂
    have := m.carries.length
    show e₃.packetPos = e₃.packetLength
    omega
  · show T.buf.buf ++ e₁.out ++ e₂.out ++ e₃.out = bytes ++ m.frame
    rw [← hout,h.buf]
    simp only [List.append_assoc]
  · show (((T.buf.write e₁.out).write e₂.out).write e₃.out).rest = T.buf.rest ++ m.frame
    rw [← hout,Buffer.rest_write,Buffer.rest_write,Buffer.rest_write]
    simp only [List.append_assoc]

theorem readPacket_records (m : Message) (hp : T.primary = false) (hr : T.Recorded bytes)
    (hb : T.Behind []) :
    ∃ T', readPacket m.toPacket T = (.ok (.pending T'.decoder),T') ∧ T'.primary = false ∧
      T'.Recorded (bytes ++ m.frame) ∧ T'.Facing m.type m.payload [] := by
  obtain ⟨T₁,h₁,hr₁,hp₁,hd₁,hrest₁⟩ := record_spec m hr
  have hb₁ : T₁.Behind (m.frame ++ []) := by
    refine ⟨by rw [hd₁]; exact hb.balanced,?_⟩
    rw [unread,hd₁,hrest₁,← List.append_assoc]
    show T.unread ++ m.frame = m.frame ++ []
    rw [hb.unread,List.nil_append,List.append_nil]
  obtain ⟨T₂,h₂,hf,hp₂,he₂,hbuf₂⟩ := next_facing hb₁
  refine ⟨T₂,?_,hp₂.trans (hp₁.trans hp),?_,hf⟩
  · rw [readPacket,if_neg (by simp [hp]),Action.bind_ok h₁,Action.bind_ok h₂]
    rfl
  · exact ⟨by rw [he₂]; exact hr₁.works,by rw [he₂]; exact hr₁.flushed,by rw [he₂]; exact hr₁.balanced,hbuf₂.trans hr₁.buf⟩

end Middleware
end Pggat.Hybrid
