import Pggat.Fed.Buffered
import Pggat.Fed.Unread

/-! What the cursors of the buffer enclose, and what a refill adds to it. -/
namespace Pggat.Fed
open Pggat.Base

namespace Reader

variable {r r' : Reader} {room : Nat} {bs : List UInt8}

theorem read_ok (hroom : 0 < room) (h : r.read room = (bs,none,r')) :
    bs ≠ [] ∧ bs.length ≤ room ∧ r.stream = bs ++ r'.stream ∧ r'.joined = r.joined := by
  unfold read at h
  by_cases hs : r.stream = []
  · rw [if_pos hs] at h
    cases h
  · have hpos := List.length_pos_iff.mpr hs
    simp only [if_neg hs,Prod.mk.injEq] at h
    obtain ⟨rfl,-,rfl⟩ := h
    refine ⟨?_,?_,(List.take_append_drop _ _).symm,rfl⟩
    · simp only [← List.length_pos_iff,List.length_take]
      omega
    · simp only [List.length_take]
      omega

theorem read_shortens (hroom : 0 < room)
    (h : r.read room = (bs,none,r')) : r'.stream.length < r.stream.length := by
  obtain ⟨hne,-,hs,-⟩ := read_ok hroom h
  have hpos := List.length_pos_iff.mpr hne
  rw [hs,List.length_append]
  omega

/-- A read ends with an error at the end of the stream. The bytes before it come along when the reader joins them. -/
theorem read_error {e : Error} (h : r.read room = (bs,some e,r')) :
    e = .eof ∧ bs.length ≤ room ∧ r.stream = bs ∧ r'.stream = [] ∧ r'.joined = r.joined ∧
      (r.joined = false → bs = [] ∧ r' = r) := by
  unfold read at h
  by_cases hs : r.stream = []
  · rw [if_pos hs] at h
    cases h
    exact ⟨rfl,Nat.zero_le _,hs,hs,rfl,fun _ => ⟨rfl,rfl⟩⟩
  · simp only [if_neg hs,Prod.mk.injEq] at h
    obtain ⟨rfl,he,rfl⟩ := h
    split at he
    · rename_i hj
      cases he
      refine ⟨rfl,?_,?_,hj.2,rfl,fun hf => by rw [hf] at hj; cases hj.1⟩
      · simp only [List.length_take]
        omega
      · conv_lhs => rw [← List.take_append_drop (min (max 1 (r.sizes r.turn)) room) r.stream]
        rw [hj.2,List.append_nil]
    · cases he

theorem read_spec {e : Option Error} (hroom : 0 < room)
    (h : r.read room = (bs,e,r')) : bs.length ≤ room ∧ r.stream = bs ++ r'.stream ∧ r'.joined = r.joined ∧
      (e = none → bs ≠ []) ∧ (e ≠ none → r.joined = false → bs = [] ∧ r'.stream = []) := by
  cases e with
  | none =>
    obtain ⟨hne,hlen,hs,hj⟩ := read_ok hroom h
    exact ⟨hlen,hs,hj,fun _ => hne,fun he => absurd rfl he⟩
  | some e =>
    obtain ⟨-,hlen,hs,hs',hj,hend⟩ := read_error h
    refine ⟨hlen,?_,hj,?_,fun _ hf => ⟨(hend hf).1,hs'⟩⟩
    · rw [hs,hs',List.append_nil]
    · intro he
      cases he

end Reader

theorem defaultBufferSize_pos : 0 < defaultBufferSize := by decide

namespace BufferedDecoder

variable {fuel : Nat} {r : Reader}

private theorem chunksLoop_fuel {fuel' : Nat} (h : r.stream.length ≤ fuel) (h' : r.stream.length ≤ fuel') :
    chunksLoop fuel r = chunksLoop fuel' r := by
  induction fuel generalizing fuel' r with
  | zero =>
    have hs : r.stream = [] := List.length_eq_zero_iff.mp (Nat.le_zero.mp h)
    cases fuel' with
    | zero => rfl
    | succ fuel' => simp only [chunksLoop,Reader.read,if_pos hs]
  | succ fuel ih =>
    cases fuel' with
    | zero =>
      have hs : r.stream = [] := List.length_eq_zero_iff.mp (Nat.le_zero.mp h')
      simp only [chunksLoop,Reader.read,if_pos hs]
    | succ fuel' =>
      rcases hr : r.read defaultBufferSize with ⟨bs,_ | e,r'⟩
      · have hless := Reader.read_shortens defaultBufferSize_pos hr
        simp only [chunksLoop,hr]
        exact congrArg _ (ih (by omega) (by omega))
      · simp only [chunksLoop,hr]

variable {d : BufferedDecoder} {bs : List UInt8}

theorem chunks_read
    (h : d.reader.read defaultBufferSize = (bs,none,r)) (hlen : bs.length ≤ defaultBufferSize) :
    d.chunks = ⟨bs,hlen⟩ :: { d with reader := r }.chunks := by
  have hless := Reader.read_shortens defaultBufferSize_pos h
  obtain ⟨n,hn⟩ : ∃ n, d.reader.stream.length = n + 1 := ⟨d.reader.stream.length - 1,by omega⟩
  simp only [chunks,hn,chunksLoop,h,List.take_of_length_le hlen]
  exact congrArg _ (chunksLoop_fuel (by omega) (Nat.le_refl _))

theorem chunks_read_error {e : Error}
    (h : d.reader.read defaultBufferSize = (bs,some e,r)) : d.chunks = [] := by
  unfold chunks
  cases d.reader.stream.length with
  | zero => rfl
  | succ n => simp only [chunksLoop,h]

variable {c : Chunk}

private theorem chunksLoop_nonempty (hc : c ∈ chunksLoop fuel r) : c.val ≠ [] := by
  induction fuel generalizing r with
  | zero => cases hc
  | succ fuel ih =>
    rcases hr : r.read defaultBufferSize with ⟨bs,_ | e,r'⟩
    · obtain ⟨hne,hlen,-,-⟩ := Reader.read_ok defaultBufferSize_pos hr
      simp only [chunksLoop,hr,List.mem_cons] at hc
      rcases hc with rfl | hc
      · show bs.take defaultBufferSize ≠ []
        rw [List.take_of_length_le hlen]
        exact hne
      · exact ih hc
    · simp only [chunksLoop,hr] at hc
      cases hc

theorem chunks_nonempty (hc : c ∈ d.chunks) : c.val ≠ [] := chunksLoop_nonempty hc

private theorem chunksLoop_flatten (hj : r.joined = false) (hf : r.stream.length ≤ fuel) :
    ((chunksLoop fuel r).map Subtype.val).flatten = r.stream := by
  induction fuel generalizing r with
  | zero => exact (List.length_eq_zero_iff.mp (Nat.le_zero.mp hf)).symm
  | succ fuel ih =>
    rcases hr : r.read defaultBufferSize with ⟨bs,_ | e,r'⟩
    · have hless := Reader.read_shortens defaultBufferSize_pos hr
      obtain ⟨-,hlen,hstream,hjoined⟩ := Reader.read_ok defaultBufferSize_pos hr
      simp only [chunksLoop,hr,List.map_cons,List.flatten_cons,List.take_of_length_le hlen]
      rw [ih (hjoined.trans hj) (by omega)]
      exact hstream.symm
    · obtain ⟨-,-,hstream,-,-,hend⟩ := Reader.read_error hr
      simp only [chunksLoop,hr,hstream,(hend hj).1]
      rfl

/-- The chunks of a reader that reports the end of the stream by itself are the stream. -/
theorem chunks_flatten (hj : d.reader.joined = false) :
    (d.chunks.map Subtype.val).flatten = d.reader.stream :=
  chunksLoop_flatten hj (Nat.le_refl _)

theorem drop_min (bs : List UInt8) (n : Nat) : bs.drop (min n bs.length) = bs.drop n := by
  rcases Nat.le_total n bs.length with h | h
  · rw [Nat.min_eq_left h]
  · rw [Nat.min_eq_right h,List.drop_length,List.drop_eq_nil_of_le h]

/-- The cursors are in order and inside the buffer. They meet at the start only. -/
structure Wf (d : BufferedDecoder) : Prop where
  buffer : d.buffer.length = defaultBufferSize
  read_le : d.bufferRead ≤ d.bufferWrite
  write_le : d.bufferWrite ≤ defaultBufferSize
  meet : d.bufferRead = d.bufferWrite → d.bufferWrite = 0

def view (d : BufferedDecoder) : Decoder where
  buffer := d.window
  reads := d.chunks
  packetType := d.packetType
  packetLength := d.packetLength
  packetPos := d.packetPos

theorem Wf.new (r : Reader) : (new r).Wf := ⟨List.length_replicate,Nat.le_refl _,Nat.zero_le _,fun _ => rfl⟩

theorem Wf.window_length (h : d.Wf) : d.window.length = d.bufferWrite - d.bufferRead := by
  have := h.buffer
  have := h.write_le
  simp only [window,List.length_take,List.length_drop]
  omega

theorem Wf.window_nil (h : d.Wf) : d.window = [] ↔ d.bufferWrite = 0 := by
  have := h.read_le
  have := h.meet
  rw [← List.length_eq_zero_iff,h.window_length]
  omega

theorem Wf.read_zero (h : d.Wf) (hw : d.bufferWrite = 0) : d.bufferRead = 0 :=
  Nat.le_zero.mp (hw ▸ h.read_le)

theorem Wf.advance (h : d.Wf) {count : Nat} (hc : count ≤ d.window.length) :
    (d.advance count).Wf := by
  have := h.read_le
  rw [h.window_length] at hc
  unfold BufferedDecoder.advance
  split
  · exact ⟨h.buffer,Nat.le_refl _,Nat.zero_le _,fun _ => rfl⟩
  · rename_i hne
    exact ⟨h.buffer,by simp only; omega,h.write_le,fun he => absurd he hne⟩

theorem Wf.emptied (h : d.Wf) : Wf { d with bufferRead := 0, bufferWrite := 0 } :=
  ⟨h.buffer,Nat.le_refl _,Nat.zero_le _,fun _ => rfl⟩

theorem Wf.packet (h : d.Wf) (type : UInt8) (length pos : Int) :
    Wf { d with packetType := type, packetLength := length, packetPos := pos } :=
  ⟨h.buffer,h.read_le,h.write_le,h.meet⟩

theorem window_advance (h : d.Wf) (count : Nat) :
    (d.advance count).window = d.window.drop count := by
  have hlen := h.window_length
  unfold advance
  split
  · rename_i he
    rw [List.drop_eq_nil_of_le (by omega)]
    exact List.take_zero
  · simp only [window,List.drop_take,List.drop_drop]
    congr 1
    omega

theorem advance_reader (d : BufferedDecoder) (count : Nat) : (d.advance count).reader = d.reader := by
  unfold advance
  split
  · rfl
  · rfl

theorem view_advance (h : d.Wf) (count : Nat) :
    (d.advance count).view = { d.view with buffer := d.view.buffer.drop count } := by
  have hw := window_advance h count
  have hch : (d.advance count).chunks = d.chunks := by
    simp only [chunks,advance_reader]
  have hp : (d.advance count).packetType = d.packetType ∧ (d.advance count).packetLength = d.packetLength ∧
      (d.advance count).packetPos = d.packetPos := by
    unfold advance
    split
    · exact ⟨rfl,rfl,rfl⟩
    · exact ⟨rfl,rfl,rfl⟩
  simp only [view,hw,hch,hp]

theorem view_emptied (d : BufferedDecoder) :
    view { d with bufferRead := 0, bufferWrite := 0 } = { d.view with buffer := [] } := by
  simp only [view,window,Nat.sub_self,List.take_zero]
  rfl

theorem refill_empty (h : d.Wf) (hw : d.bufferWrite = 0) {e : Option Error} (hr : d.reader.read defaultBufferSize = (bs,e,r)) (hlen : bs.length ≤ defaultBufferSize) :
    ∃ d', d.refill = (e,d') ∧ d'.Wf ∧ d'.window = bs ∧
      d' = { d with buffer := d'.buffer, bufferWrite := bs.length, reader := r } := by
  have hbuffer := h.buffer
  have hzero := h.read_zero hw
  have hrefill : d.refill = (e,{ d with
      buffer := overwrite d.buffer 0 bs, bufferWrite := bs.length, reader := r }) := by
    have hroom : ¬ 0 ≥ defaultBufferSize := by decide
    simp only [refill,hw,if_neg hroom,Nat.sub_zero,hr,Nat.zero_add]
  refine ⟨_,hrefill,⟨?_,?_,hlen,?_⟩,?_,rfl⟩
  · simp only [overwrite,List.take_zero,List.nil_append,List.length_append,List.length_drop]
    omega
  · simp only [hzero]
    omega
  · intro he
    simp only [hzero] at he
    exact he.symm
  · simp [window,overwrite,hzero]

theorem refill_chunk (h : d.Wf) (hw : d.bufferWrite = 0) {cs : List Chunk}
    (hc : d.chunks = c :: cs) : ∃ d', d.refill = (none,d') ∧ d'.Wf ∧ d'.window = c.val ∧
      d'.reader.joined = d.reader.joined ∧ d'.view = { d.view with buffer := c.val, reads := cs } := by
  rcases hr : d.reader.read defaultBufferSize with ⟨bs,_ | e,r⟩
  · obtain ⟨-,hlen,-,hjoined⟩ := Reader.read_ok defaultBufferSize_pos hr
    rw [chunks_read hr hlen] at hc
    obtain ⟨rfl,hcs⟩ := List.cons.inj hc
    obtain ⟨d',hrefill,hwf,hwindow,hd⟩ := refill_empty h hw hr hlen
    refine ⟨d',hrefill,hwf,hwindow,?_,?_⟩
    · rw [hd]
      exact hjoined
    · have hch : d'.chunks = cs := by
        rw [hd,← hcs]
        rfl
      have hp : d'.packetType = d.packetType ∧ d'.packetLength = d.packetLength ∧ d'.packetPos = d.packetPos := by
        rw [hd]
        exact ⟨rfl,rfl,rfl⟩
      simp only [view,hwindow,hch,hp]
  · rw [chunks_read_error hr] at hc
    cases hc

/-- A refill of an empty buffer, when no chunk is left. A reader that joins the end to its last bytes has filled
the buffer. -/
theorem refill_end (h : d.Wf) (hw : d.bufferWrite = 0) (hc : d.chunks = []) :
    ∃ d', d.refill = (some .eof,d') ∧ d'.Wf ∧ d'.reader.joined = d.reader.joined ∧
      (d.reader.joined = false → d'.view = d.view) := by
  rcases hr : d.reader.read defaultBufferSize with ⟨bs,_ | e,r⟩
  · rw [chunks_read hr (Reader.read_ok defaultBufferSize_pos hr).2.1] at hc
    cases hc
  · obtain ⟨rfl,hlen,-,-,hjoined,hend⟩ := Reader.read_error hr
    obtain ⟨d',hrefill,hwf,hwindow,hd⟩ := refill_empty h hw hr hlen
    refine ⟨d',hrefill,hwf,?_,fun hj => ?_⟩
    · rw [hd]
      exact hjoined
    · obtain ⟨rfl,rfl⟩ := hend hj
      have hwindow' : d'.window = d.window := hwindow.trans (h.window_nil.mpr hw).symm
      rw [view,hwindow',hd]
      rfl

end BufferedDecoder
end Pggat.Fed
