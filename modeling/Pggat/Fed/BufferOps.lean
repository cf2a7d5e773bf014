import Pggat.Fed.BufferView

/-! The cursors of the buffer are an implementation of the list of unread bytes: each operation of the buffered
decoder is the one of `Decoder` on what the cursors enclose. -/
namespace Pggat.Fed
open Pggat.Base
namespace BufferedDecoder

/-- The buffered decoder ends as its view does. When the reader joins the end to its last bytes, both fail. -/
structure Follows {α : Type} (j : Bool) (r : Except Failure α × BufferedDecoder) (v : Except Failure α × Decoder) :
    Prop where
  wf : r.2.Wf
  joined : r.2.reader.joined = j
  same : v = (r.1,r.2.view) ∨ j = true ∧ (∃ f, r.1 = .error f) ∧ ∃ f, v.1 = .error f

variable {α : Type} {j : Bool} {r : Except Failure α × BufferedDecoder} {v : Except Failure α × Decoder}

theorem Follows.exact (hw : r.2.Wf) (hj : r.2.reader.joined = j) (h : v = (r.1,r.2.view)) :
    Follows j r v := ⟨hw,hj,.inl h⟩

variable {d d' : BufferedDecoder}

theorem Follows.ends {v : Decoder} {f f' : Failure} (hw : d'.Wf)
    (hj : d'.reader.joined = d.reader.joined) (h : d.reader.joined = false → f = f' ∧ d'.view = v) :
    @Follows α d.reader.joined (.error f,d') (.error f',v) := by
  refine ⟨hw,hj,?_⟩
  cases hd : d.reader.joined with
  | false =>
    obtain ⟨rfl,rfl⟩ := h hd
    exact .inl rfl
  | true => exact .inr ⟨rfl,⟨f,rfl⟩,f',rfl⟩

theorem Follows.cases
    (h : Follows j r v) :
    (∃ a d, r = (.ok a,d) ∧ v = (.ok a,d.view) ∧ d.Wf ∧ d.reader.joined = j) ∨
    (∃ f d f' v', r = (.error f,d) ∧ v = (.error f',v') ∧ ∀ β : Type, @Follows β j (.error f,d) (.error f',v')) := by
  obtain ⟨hw,hj,rfl | ⟨hjoin,⟨f,hf⟩,f',hf'⟩⟩ := h
  · obtain ⟨f | a,d⟩ := r
    · exact .inr ⟨f,d,f,d.view,rfl,rfl,fun _ => ⟨hw,hj,.inl rfl⟩⟩
    · exact .inl ⟨a,d,rfl,rfl,hw,hj⟩
  · obtain ⟨_,d⟩ := r
    obtain ⟨_,v⟩ := v
    cases hf
    cases hf'
    exact .inr ⟨f,d,f',v,rfl,rfl,fun _ => ⟨hw,hj,.inr ⟨hjoin,⟨f,rfl⟩,f',rfl⟩⟩⟩

theorem refill_view_end (hc : d.chunks = []) : d.view.refill = (some .eof,d.view) := by
  simp only [Decoder.refill,view,hc]

theorem refill_view_chunk (h : d.Wf) (hw : d.bufferWrite = 0) {c : Chunk} {cs : List Chunk}
    (hc : d.chunks = c :: cs) (hv : d'.view = { d.view with buffer := c.val, reads := cs }) :
    d.view.refill = (none,d'.view) := by
  rw [hv]
  simp only [Decoder.refill,view,hc,h.window_nil.mpr hw,List.nil_append]

private theorem discarded (h : d.Wf) (n : Nat) : ∃ d' : BufferedDecoder,
    (if d.bufferWrite ≠ 0 then d.advance (if d.bufferWrite ≠ 0 then min n (d.bufferWrite - d.bufferRead) else 0)
      else d) = d' ∧
    d'.Wf ∧ d'.reader = d.reader ∧ d'.window = d.window.drop (min n d.window.length) ∧
    d'.view = { d.view with buffer := d'.window } := by
  by_cases hw : d.bufferWrite = 0
  · rw [if_neg (not_not.mpr hw)]
    refine ⟨d,rfl,h,rfl,?_,rfl⟩
    rw [h.window_nil.mpr hw,List.drop_nil]
  · simp only [if_pos hw,← h.window_length]
    have hcount : min n d.window.length ≤ d.window.length := Nat.min_le_right _ _
    refine ⟨_,rfl,h.advance hcount,advance_reader _ _,window_advance h _,?_⟩
    rw [view_advance h,window_advance h]
    rfl

private theorem discardLoop_follows (fuel n : Nat) (h : d.Wf) :
    Follows d.reader.joined (discardLoop fuel n d) (Decoder.discardLoop fuel n d.view) := by
  induction fuel generalizing n d with
  | zero => exact .exact h rfl rfl
  | succ fuel ih =>
    simp only [discardLoop,Decoder.discardLoop]
    by_cases hn : n = 0
    · simp only [if_pos hn]
      exact .exact h rfl rfl
    have hcount : (if d.bufferWrite ≠ 0 then min n (d.bufferWrite - d.bufferRead) else 0) =
        min n d.window.length := by
      rw [h.window_length]
      split
      · rfl
      · have := h.read_le
        omega
    obtain ⟨d',hd,hwf,hreader,hwindow,hview⟩ := discarded h n
    simp only [if_neg hn,hd]
    rw [hcount]
    by_cases hempty : d'.bufferWrite = 0
    · have hall : ¬ min n d.view.buffer.length < d.view.buffer.length := by
        have := hwindow ▸ hwf.window_nil.mpr hempty
        rw [List.drop_eq_nil_iff] at this
        exact Nat.not_lt.mpr this
      have hview' : { d.view with buffer := [] } = d'.view := by
        rw [hview,hwf.window_nil.mpr hempty]
      simp only [if_neg (not_not.mpr hempty),if_neg hall,hview']
      cases hc : d'.chunks with
      | nil =>
        obtain ⟨d'',hr,hwf'',hj,hsame⟩ := refill_end hwf hempty hc
        simp only [hr,refill_view_end hc,← hreader]
        exact .ends hwf'' hj fun hf => ⟨rfl,hsame hf⟩
      | cons c cs =>
        obtain ⟨d'',hr,hwf'',-,hj,hv'⟩ := refill_chunk hwf hempty hc
        simp only [hr,refill_view_chunk hwf hempty hc hv',← hreader,← hj]
        exact ih (n - min n d.window.length) hwf''
    · have hpart : min n d.view.buffer.length < d.view.buffer.length := by
        have hne := mt hwf.window_nil.mp hempty
        rw [hwindow,List.drop_eq_nil_iff] at hne
        exact Nat.not_le.mp hne
      rw [if_pos hempty,if_pos hpart]
      refine .exact hwf (congrArg _ hreader) ?_
      rw [hview,hwindow]
      rfl

theorem discard_follows (n : Nat) (h : d.Wf) :
    Follows d.reader.joined (discard n d) (Decoder.discard n d.view) :=
  discardLoop_follows _ n h

private theorem read_follows (h : d.Wf) {n : Nat} (hn : 0 < n) (hsize : n ≤ defaultBufferSize) :
    (∃ bs d', d.read n = (bs,none,d') ∧ d'.Wf ∧ d'.reader.joined = d.reader.joined ∧
      d.view.read n = (bs,none,d'.view)) ∨
    (∃ bs d', d.read n = (bs,some .eof,d') ∧ d'.Wf ∧ d'.reader.joined = d.reader.joined ∧
      d.view.read n = ([],some .eof,d.view) ∧ (d.reader.joined = false → bs = [] ∧ d'.view = d.view)) := by
  have hn0 : n ≠ 0 := Nat.pos_iff_ne_zero.mp hn
  by_cases hw : d.bufferWrite = 0
  · have hbuffer : d.view.buffer = [] := h.window_nil.mpr hw
    have hdirect : ¬ n > defaultBufferSize := Nat.not_lt.mpr hsize
    simp only [read,if_neg hn0,if_neg (not_not.mpr hw),if_neg hdirect,Decoder.read,if_pos hbuffer]
    cases hc : d.chunks with
    | nil =>
      obtain ⟨d',hr,hwf,hj,hsame⟩ := refill_end h hw hc
      have hcount : min n d'.window.length ≤ d'.window.length := Nat.min_le_right _ _
      refine .inr ⟨d'.window.take n,_,by rw [hr],hwf.advance hcount,?_,?_,fun hf => ?_⟩
      · rw [advance_reader]
        exact hj
      · simp only [refill_view_end hc,hbuffer,List.take_nil,List.drop_nil]
        rw [← hbuffer]
      · have hview := hsame hf
        have hnil : d'.window = [] := (congrArg Decoder.buffer hview).trans hbuffer
        refine ⟨by rw [hnil,List.take_nil],?_⟩
        rw [view_advance hwf,hview,hbuffer,List.drop_nil,← hbuffer]
    | cons c cs =>
      obtain ⟨d',hr,hwf,-,hj,hv'⟩ := refill_chunk h hw hc
      have hcount : min n d'.window.length ≤ d'.window.length := Nat.min_le_right _ _
      refine .inl ⟨d'.window.take n,_,by rw [hr],hwf.advance hcount,?_,?_⟩
      · rw [advance_reader]
        exact hj
      · simp only [refill_view_chunk h hw hc hv',view_advance hwf]
        rw [show d'.view.buffer = d'.window from rfl,drop_min]
  · have hbuffer : d.view.buffer ≠ [] := mt h.window_nil.mp hw
    have hcount : min n d.window.length ≤ d.window.length := Nat.min_le_right _ _
    simp only [read,if_neg hn0,if_pos hw,Decoder.read,if_neg hbuffer]
    refine .inl ⟨_,_,rfl,h.advance hcount,?_,?_⟩
    · rw [advance_reader]
    · rw [view_advance h,show d.view.buffer = d.window from rfl,drop_min]

variable {want : Nat}

private theorem readFullLoop_follows (fuel : Nat) (got : List UInt8) (h : d.Wf)
    (hsize : want ≤ defaultBufferSize) :
    Follows d.reader.joined (readFullLoop fuel want got d) (Decoder.readFullLoop fuel want got d.view) := by
  induction fuel generalizing got d with
  | zero => exact .exact h rfl rfl
  | succ fuel ih =>
    simp only [readFullLoop,Decoder.readFullLoop]
    by_cases hdone : want ≤ got.length
    · simp only [if_pos hdone]
      exact .exact h rfl rfl
    simp only [if_neg hdone]
    rcases read_follows h (show 0 < want - got.length by omega) (by omega) with
      ⟨bs,d',hr,hwf,hj,hv⟩ | ⟨bs,d',hr,hwf,hj,hv,hsame⟩
    · simp only [hr,hv,← hj]
      exact ih (got ++ bs) hwf
    · simp only [hr,hv]
      refine .ends hwf hj fun hf => ?_
      obtain ⟨rfl,hview⟩ := hsame hf
      exact ⟨rfl,hview⟩

theorem readFull_follows (h : d.Wf) (hsize : want ≤ defaultBufferSize) :
    Follows d.reader.joined (readFull want d) (Decoder.readFull want d.view) :=
  readFullLoop_follows _ [] h hsize

theorem uint_follows {w : Nat} (h : d.Wf) (hsize : w ≤ defaultBufferSize) :
    Follows d.reader.joined (uint w d) (Decoder.uint w d.view) := by
  simp only [uint,Decoder.uint]
  obtain ⟨hw,hj,hsame | ⟨hjoin,⟨e,he⟩,e',he'⟩⟩ := readFull_follows h hsize
  · rw [hsame]
    exact .exact (hw.packet _ _ _) hj rfl
  · refine ⟨hw.packet _ _ _,hj,.inr ⟨hjoin,⟨e,?_⟩,e',?_⟩⟩
    · rw [he]
      rfl
    · rw [he']
      rfl

/-- Both skip what is left of the packet before they go on. -/
theorem leave_follows {k : BufferedM α} {k' : DecodeM α} (h : d.Wf)
    (hk : ∀ d' : BufferedDecoder, d'.Wf → Follows d'.reader.joined (k d') (k' d'.view)) : Follows d.reader.joined
      (if d.packetLength - d.packetPos < 0 then (.error (.error .overranReadBuffer),d) else
        match discard (d.packetLength - d.packetPos).toNat d with
        | (.error e,d) => (.error e,d)
        | (.ok _,d) => k d)
      (if d.view.packetLength - d.view.packetPos < 0 then (.error (.error .overranReadBuffer),d.view) else
        match Decoder.discard (d.view.packetLength - d.view.packetPos).toNat d.view with
        | (.error e,d) => (.error e,d)
        | (.ok _,d) => k' d) := by
  by_cases hrem : d.packetLength - d.packetPos < 0
  · rw [if_pos hrem,if_pos (show d.view.packetLength - d.view.packetPos < 0 from hrem)]
    exact .exact h rfl rfl
  rw [if_neg hrem,if_neg (show ¬ d.view.packetLength - d.view.packetPos < 0 from hrem)]
  rcases (discard_follows (d.packetLength - d.packetPos).toNat h).cases with
    ⟨_,d₁,hd,hv,hwf,hj⟩ | ⟨_,_,_,_,hd,hv,hfail⟩
  · rw [hd,show Decoder.discard (d.view.packetLength - d.view.packetPos).toNat d.view = _ from hv,← hj]
    exact hk d₁ hwf
  · rw [hd,show Decoder.discard (d.view.packetLength - d.view.packetPos).toNat d.view = _ from hv]
    exact hfail _

theorem next_follows (typed : Bool) (h : d.Wf) :
    Follows d.reader.joined (next typed d) (Decoder.next typed d.view) := by
  have hsize : (if typed then 5 else 4) ≤ defaultBufferSize := by
    cases typed
    · decide
    · decide
  refine leave_follows h fun d₁ hwf => ?_
  rcases (readFull_follows hwf hsize).cases with ⟨bs,d₂,hr,hv,hwf',hj⟩ | ⟨_,_,_,_,hr,hv,hfail⟩
  · simp only [hr,hv]
    exact .exact (hwf'.packet _ _ _) hj rfl
  · simp only [hr,hv]
    exact hfail _

theorem readByte_follows (h : d.Wf) :
    Follows d.reader.joined (readByte d) (Decoder.readByte d.view) := by
  refine leave_follows h fun d₁ hwf => ?_
  rcases (readFull_follows (hwf.packet 0 0 0) (show 1 ≤ defaultBufferSize by decide)).cases with
    ⟨bs,d₂,hr,hv,hwf',hj⟩ | ⟨_,_,_,_,hr,hv,hfail⟩
  · simp only [hr,show Decoder.readFull 1 { d₁.view with packetType := 0, packetLength := 0, packetPos := 0 } = _ from hv]
    exact .exact hwf' hj rfl
  · simp only [hr,show Decoder.readFull 1 { d₁.view with packetType := 0, packetLength := 0, packetPos := 0 } = _ from hv]
    exact hfail _

variable {s rest : List UInt8}

private theorem view_cut (h : d.Wf) (hc : Decoder.cutZero d.window = some (s,rest)) :
    (d.advance (s.length + 1)).Wf ∧ (d.advance (s.length + 1)).view = { d.view with buffer := rest } := by
  have hw := (Decoder.cutZero_eq_some.mp hc).1
  have hlen : s.length + 1 ≤ d.window.length := by
    rw [hw,List.length_append,List.length_cons]
    omega
  have hdrop : d.view.buffer.drop (s.length + 1) = rest := by
    show d.window.drop (s.length + 1) = rest
    rw [hw,← List.drop_drop,List.drop_left]
    rfl
  refine ⟨h.advance hlen,?_⟩
  rw [view_advance h,hdrop]

theorem cut_follows (h : d.Wf) {out : List UInt8}
    (hc : Decoder.cutZero d.window = some (s,rest)) (k : Int) :
    Follows d.reader.joined
      ((.ok out : Except Failure _),{ d.advance (s.length + 1) with packetPos := d.packetPos + k })
      (.ok out,{ d.view with buffer := rest, packetPos := d.view.packetPos + k }) := by
  obtain ⟨hwf,hview⟩ := view_cut h hc
  refine .exact (hwf.packet _ _ _) (congrArg Reader.joined (advance_reader _ _)) ?_
  show _ = (_,{ (d.advance (s.length + 1)).view with packetPos := d.packetPos + k })
  rw [hview]
  rfl

private theorem stringLoop_follows (fuel : Nat) (builder : List UInt8) (h : d.Wf) (hw : d.bufferWrite = 0) :
    Follows d.reader.joined (stringLoop fuel builder d) (Decoder.stringLoop fuel builder d.view) := by
  induction fuel generalizing builder d with
  | zero => exact .exact h rfl rfl
  | succ fuel ih =>
    simp only [stringLoop,Decoder.stringLoop]
    cases hc : d.chunks with
    | nil =>
      obtain ⟨d',hr,hwf,hj,hsame⟩ := refill_end h hw hc
      simp only [hr,refill_view_end hc]
      refine .ends (hwf.packet _ _ _) hj fun hf => ⟨rfl,?_⟩
      show { d'.view with packetPos := d'.view.packetPos + builder.length } = _
      rw [hsame hf]
    | cons c cs =>
      obtain ⟨d',hr,hwf,-,hj,hv'⟩ := refill_chunk h hw hc
      simp only [hr,refill_view_chunk h hw hc hv',← hj,show d'.view.buffer = d'.window from rfl]
      cases hz : Decoder.cutZero d'.window with
      | some sr =>
        simp only [Int.add_assoc]
        exact cut_follows hwf hz _
      | none =>
        simp only
        rw [← view_emptied]
        exact ih (builder ++ d'.window) hwf.emptied rfl

private theorem string_buffered (h : d.Wf) (hw : d.bufferWrite ≠ 0) :
    Follows d.reader.joined (string d) (Decoder.string d.view) := by
  have hbuffer : d.view.buffer ≠ [] := mt h.window_nil.mp hw
  simp only [string,Decoder.string,if_neg hw,if_neg hbuffer]
  simp only [show d.view.buffer = d.window from rfl]
  cases hz : Decoder.cutZero d.window with
  | some sr =>
    simp only [Int.add_assoc]
    exact cut_follows h hz _
  | none =>
    simp only
    rw [← view_emptied]
    exact stringLoop_follows _ _ h.emptied rfl

theorem string_follows (h : d.Wf) :
    Follows d.reader.joined (string d) (Decoder.string d.view) := by
  by_cases hw : d.bufferWrite = 0
  · have hbuffer : d.view.buffer = [] := h.window_nil.mpr hw
    cases hc : d.chunks with
    | nil =>
      obtain ⟨d',hr,hwf,hj,hsame⟩ := refill_end h hw hc
      simp only [string,Decoder.string,if_pos hw,if_pos hbuffer,hr,refill_view_end hc]
      exact .ends hwf hj fun hf => ⟨rfl,hsame hf⟩
    | cons c cs =>
      obtain ⟨d',hr,hwf,hwindow,hj,hv'⟩ := refill_chunk h hw hc
      have hne : d'.window ≠ [] := by
        rw [hwindow]
        exact chunks_nonempty (hc ▸ List.mem_cons_self)
      have hw' : d'.bufferWrite ≠ 0 := mt hwf.window_nil.mpr hne
      have hstring : string d = string d' := by
        simp only [string,if_pos hw,if_neg hw',hr]
      have hview : Decoder.string d.view = Decoder.string d'.view := by
        simp only [Decoder.string,if_pos hbuffer,if_neg (show d'.view.buffer ≠ [] from hne),
          refill_view_chunk h hw hc hv']
      rw [hstring,hview,← hj]
      exact string_buffered hwf hw'
  · exact string_buffered h hw

end BufferedDecoder
end Pggat.Fed
