import Pggat.Fed.Chunking

/-! A reader may report the end of the stream together with its last bytes. The decoder then sees the error first and
loses the bytes, so a call works only with what came before the last read. -/
namespace Pggat.Fed
open Pggat.Base

/-- The bytes that the call is about are there. -/
def Call.Enough (c : Call) (p : Plain) : Prop :=
  match c with
  | .next typed => 0 ≤ p.packetLength - p.packetPos ∧
      (p.packetLength - p.packetPos).toNat + (if typed then 5 else 4) ≤ p.bytes.length
  | .readByte => 0 ≤ p.packetLength - p.packetPos ∧ (p.packetLength - p.packetPos).toNat + 1 ≤ p.bytes.length
  | .uint w => w.bytes ≤ p.bytes.length
  | .string => 0 ∈ p.bytes

instance (c : Call) (p : Plain) : Decidable (c.Enough p) :=
  match c with
  | .next _ => inferInstanceAs (Decidable (_ ∧ _))
  | .readByte => inferInstanceAs (Decidable (_ ∧ _))
  | .uint w => inferInstanceAs (Decidable (w.bytes ≤ p.bytes.length))
  | .string => inferInstanceAs (Decidable (0 ∈ p.bytes))

namespace Plain

variable {n : Nat} {p : Plain}

theorem take_enough (h : n ≤ p.bytes.length) :
    take n p = (.ok (p.bytes.take n),{ p with bytes := p.bytes.drop n }) := by
  rw [take,if_pos h]

theorem take_short (h : ¬ n ≤ p.bytes.length) : ∃ e p', take n p = (.error e,p') := by
  rw [take,if_neg h]
  exact ⟨_,_,rfl⟩

theorem leave_enough (hn : 0 < n) (hrem : 0 ≤ p.packetLength - p.packetPos)
    (h : (p.packetLength - p.packetPos).toNat + n ≤ p.bytes.length) :
    leave p = (.ok (),{ p with bytes := p.bytes.drop (p.packetLength - p.packetPos).toNat }) := by
  rw [leave,if_neg (by omega),skip,if_pos (by omega)]

/-- Without `n` more bytes behind the packet, it is not left or they are not found. -/
theorem leave_short
    (h : ¬ (0 ≤ p.packetLength - p.packetPos ∧ (p.packetLength - p.packetPos).toNat + n ≤ p.bytes.length)) :
    (∃ e p', leave p = (.error e,p')) ∨ ∃ p', leave p = (.ok (),p') ∧ ¬ n ≤ p'.bytes.length := by
  rw [leave]
  by_cases hrem : p.packetLength - p.packetPos < 0
  · rw [if_pos hrem]
    exact .inl ⟨_,_,rfl⟩
  · rw [if_neg hrem,skip]
    split
    · refine .inr ⟨_,rfl,?_⟩
      simp only [List.length_drop]
      omega
    · exact .inl ⟨_,_,rfl⟩

def append (p : Plain) (more : List UInt8) : Plain := { p with bytes := p.bytes ++ more }

/-- What succeeds does the same with more bytes behind. -/
def Extends {α : Type} (m : PlainM α) : Prop :=
  ∀ p a p', m p = (.ok a,p') → ∀ more, m (p.append more) = (.ok a,p'.append more)

namespace Extends
variable {α β : Type}

theorem pure (a : α) : Extends (Pure.pure a) := by
  intro p b p' h more
  cases h
  rfl

theorem bind {m : PlainM α} {f : α → PlainM β} (hm : Extends m) (hf : ∀ a, Extends (f a)) : Extends (m >>= f) := by
  intro p b p' h more
  obtain ⟨a,p₁,hp,h⟩ := Action.bind_ok_inv h
  rw [Action.bind_ok (hm p a p₁ hp more),hf a p₁ b p' h more]

theorem map {m : PlainM α} (hm : Extends m) (f : α → β) : Extends (f <$> m) := hm.bind fun a => pure (f a)

theorem enter (type : UInt8) (length : Int) : Extends (enter type length) := by
  intro p a p' h more
  cases h
  rfl

theorem take (n : Nat) : Extends (take n) := by
  intro p a p' h more
  by_cases hn : n ≤ p.bytes.length
  · rw [take_enough hn] at h
    cases h
    have hn' : n ≤ (p.append more).bytes.length := hn.trans (by simp [append])
    rw [take_enough hn']
    simp only [append,List.take_append_of_le_length hn,List.drop_append_of_le_length hn]
  · obtain ⟨e,p₁,he⟩ := take_short hn
    rw [he] at h
    cases h

private theorem skip (n : Nat) : Extends (skip n) := by
  intro p a p' h more
  unfold Plain.skip at h ⊢
  by_cases hn : n = 0 ∨ n < p.bytes.length
  · rw [if_pos hn] at h
    cases h
    have hn' : n = 0 ∨ n < (p.append more).bytes.length := by
      simp only [append,List.length_append]
      omega
    rw [if_pos hn']
    simp only [append,List.drop_append_of_le_length (show n ≤ p.bytes.length by omega)]
  · rw [if_neg hn] at h
    cases h

theorem leave : Extends leave := by
  intro p a p' h more
  by_cases hrem : p.packetLength - p.packetPos < 0
  · rw [Plain.leave,if_pos hrem] at h
    cases h
  · have hp : Plain.leave p = Plain.skip (p.packetLength - p.packetPos).toNat p := if_neg hrem
    have hmore : Plain.leave (p.append more) = Plain.skip (p.packetLength - p.packetPos).toNat (p.append more) :=
      if_neg hrem
    rw [hmore]
    exact skip _ p a p' (hp ▸ h) more

private theorem uint (w : Nat) : Extends (uint w) := by
  intro p a p' h more
  unfold Plain.uint at h ⊢
  rcases ht : Plain.take w p with ⟨e | bs,p₁⟩
  · rw [ht] at h
    cases h
  · rw [ht] at h
    rw [take w p bs p₁ ht more]
    cases h
    rfl

private theorem string : Extends string := by
  intro p a p' h more
  unfold Plain.string at h ⊢
  split at h
  · rename_i hc
    cases h
    simp only [append,Decoder.cutZero_append,hc]
  · cases h

end Extends

end Plain

theorem Decoder.cutZero_none_iff {bs : List UInt8} : cutZero bs = none ↔ 0 ∉ bs := by
  induction bs with
  | nil => simp [cutZero]
  | cons b t ih =>
    rw [cutZero]
    by_cases hb : b = 0
    · simp [hb]
    · rw [if_neg hb,Option.map_eq_none_iff,ih,List.mem_cons,not_or]
      exact ⟨fun h => ⟨Ne.symm hb,h⟩,fun h => h.2⟩

namespace Call
open Plain

private theorem result_error {α : Type} {f : α → Returned} {m : PlainM α} {p : Plain} (h : ∃ e p', m p = (.error e,p')) :
    ∃ e, ((f <$> m) p).1 = .error e := by
  obtain ⟨e,p',h⟩ := h
  rw [Action.map_apply,h]
  exact ⟨e,rfl⟩

theorem parse_extends (c : Call) : Extends c.parse := by
  cases c with
  | next typed => exact (Extends.leave.bind fun _ => (Extends.take _).bind fun _ => .enter _ _).map _
  | readByte => exact (Extends.leave.bind fun _ => (Extends.enter 0 0).bind fun _ =>
      (Extends.take 1).bind fun _ => .pure _).map _
  | uint w => exact (Extends.uint w.bytes).map _
  | string => exact Extends.string.map _

theorem parse_enough {c : Call} {p : Plain} (h : c.Enough p) : ∃ v p', c.parse p = (.ok v,p') := by
  cases c with
  | next typed =>
    have hn : 0 < if typed then 5 else 4 := by
      cases typed
      · decide
      · decide
    have hlen := h.2
    rw [parse,Action.map_apply,Plain.next,Action.bind_ok (leave_enough hn h.1 h.2),Action.bind_ok (take_enough ?_)]
    · exact ⟨_,_,rfl⟩
    · simp only [List.length_drop]
      omega
  | readByte =>
    have henter : ∀ q : Plain, Plain.enter 0 0 q = (.ok (),{ q with packetType := 0, packetLength := 0, packetPos := 0 }) :=
      fun _ => rfl
    have hlen := h.2
    rw [parse,Action.map_apply,Plain.readByte,Action.bind_ok (leave_enough Nat.one_pos h.1 h.2),
      Action.bind_ok (henter _),Action.bind_ok (take_enough ?_)]
    · exact ⟨_,_,rfl⟩
    · simp only [List.length_drop]
      omega
  | uint w =>
    rw [parse,Action.map_apply,Plain.uint,take_enough h]
    exact ⟨_,_,rfl⟩
  | string =>
    cases hz : Decoder.cutZero p.bytes with
    | none => exact absurd h (Decoder.cutZero_none_iff.mp hz)
    | some sr =>
      simp only [parse,Action.map_apply,Plain.string,hz]
      exact ⟨_,_,rfl⟩

theorem parse_short {c : Call} {p : Plain} (h : ¬ c.Enough p) : ∃ e, (c.parse p).1 = .error e := by
  cases c with
  | next typed =>
    apply result_error
    rcases leave_short h with ⟨e,p',hl⟩ | ⟨p',hl,hshort⟩
    · exact ⟨e,p',Action.bind_error hl⟩
    · obtain ⟨e,p'',ht⟩ := take_short hshort
      exact ⟨e,p'',(Action.bind_ok hl).trans (Action.bind_error ht)⟩
  | readByte =>
    apply result_error
    rcases leave_short h with ⟨e,p',hl⟩ | ⟨p',hl,hshort⟩
    · exact ⟨e,p',Action.bind_error hl⟩
    · have henter : Plain.enter 0 0 p' =
          (.ok (),{ p' with packetType := 0, packetLength := 0, packetPos := 0 }) := rfl
      obtain ⟨e,p'',ht⟩ := @take_short 1 { p' with packetType := 0, packetLength := 0, packetPos := 0 } hshort
      exact ⟨e,p'',(Action.bind_ok hl).trans ((Action.bind_ok henter).trans (Action.bind_error ht))⟩
  | uint w =>
    apply result_error
    obtain ⟨e,p',ht⟩ := take_short h
    rw [Plain.uint,ht]
    exact ⟨e,_,rfl⟩
  | string =>
    apply result_error
    rw [Plain.string,Decoder.cutZero_none_iff.mpr h]
    exact ⟨_,_,rfl⟩

end Call

namespace BufferedDecoder
variable {d : BufferedDecoder}

/-- The same decoder on a reader that reports the end by itself. -/
def apart (d : BufferedDecoder) : BufferedDecoder := { d with reader := { d.reader with joined := false } }

/-- What the buffer and the reads before the last one hold. -/
def early (d : BufferedDecoder) : Plain := d.view.plain

def after : List Op → BufferedDecoder → BufferedDecoder
  | [], d => d
  | op :: ops, d => after ops (op.run d).2

theorem after_keeps (ops : List Op) (h : d.Wf) :
    (after ops d).Wf ∧ (after ops d).reader.joined = d.reader.joined := by
  induction ops generalizing d with
  | nil => exact ⟨h,rfl⟩
  | cons op ops ih =>
    obtain ⟨hw,hj⟩ := op.run_keeps h
    obtain ⟨hw',hj'⟩ := ih hw
    exact ⟨hw',hj'.trans hj⟩

private theorem chunksLoop_prefix (fuel : Nat) (r : Reader) :
    ((chunksLoop fuel r).map Subtype.val).flatten <+: r.stream := by
  induction fuel generalizing r with
  | zero => exact List.nil_prefix
  | succ fuel ih =>
    rcases hr : r.read defaultBufferSize with ⟨bs,_ | e,r'⟩
    · obtain ⟨-,hlen,hs,-⟩ := Reader.read_ok defaultBufferSize_pos hr
      simp only [chunksLoop,hr,List.map_cons,List.flatten_cons,List.take_of_length_le hlen,hs]
      exact (List.prefix_append_right_inj bs).mpr (ih r')
    · simp only [chunksLoop,hr]
      exact List.nil_prefix

private theorem early_prefix (d : BufferedDecoder) : ∃ more, d.plain = d.early.append more := by
  obtain ⟨more,hmore⟩ := chunksLoop_prefix d.reader.stream.length d.reader
  refine ⟨more,?_⟩
  rw [plain,← hmore,← List.append_assoc]
  rfl

theorem run_early (h : d.Wf) (c : Call) :
    c.parse d.early = ((c.run d).1,(c.run d).2.early) ∨
      (∃ e, (c.parse d.early).1 = .error e) ∧ ∃ e, (c.run d).1 = .error e := by
  have hparsed := (c.decode_plain (show d.view.stop = .eof from rfl) fun _ => chunks_nonempty).same
  rw [early,hparsed]
  rcases (c.run_follows h).same with hsame | ⟨-,⟨f,hf⟩,f',hf'⟩
  · rw [hsame]
    exact .inl rfl
  · exact .inr ⟨⟨_,hf'⟩,_,hf⟩

theorem run_apart (h : d.Wf) (c : Call) :
    c.parse d.plain = ((c.run d.apart).1,(c.run d.apart).2.plain) :=
  (run_parse (d := d.apart) c ⟨h.buffer,h.read_le,h.write_le,h.meet⟩ rfl).2.2

/-- A call whose bytes come before the last read does the same on the two kinds of readers. -/
theorem run_same (h : d.Wf) {c : Call} (hc : c.Enough d.early) :
    (∃ v, (c.run d.apart).1 = .ok v ∧ (c.run d).1 = .ok v) ∧ seen (c.run d) = seen (c.run d.apart) := by
  obtain ⟨more,hmore⟩ := d.early_prefix
  obtain ⟨v,p,hp⟩ := Call.parse_enough hc
  have happart := run_apart h c
  rw [hmore,c.parse_extends _ _ _ hp more,Prod.mk.injEq] at happart
  rcases run_early h c with hrun | ⟨⟨e,he⟩,-⟩
  · rw [hp,Prod.mk.injEq] at hrun
    refine ⟨⟨v,happart.1.symm,hrun.1.symm⟩,?_⟩
    have hstate := happart.2.symm.trans (congrArg (Plain.append · more) hrun.2)
    simp only [Plain.append,Plain.mk.injEq] at hstate
    simp only [seen,Seen.mk.injEq]
    exact ⟨hrun.1.symm.trans happart.1,hstate.2.1.symm,hstate.2.2.1.symm,hstate.2.2.2.symm⟩
  · rw [hp] at he
    cases he

theorem run_iff_early (h : d.Wf) (c : Call) :
    (∃ v, (c.run d.apart).1 = .ok v ∧ (c.run d).1 = .ok v) ↔ c.Enough d.early := by
  refine ⟨?_,fun hc => (run_same h hc).1⟩
  rintro ⟨v,-,hv⟩
  by_contra hshort
  obtain ⟨e,he⟩ := Call.parse_short hshort
  rcases run_early h c with hrun | ⟨-,e',he'⟩
  · rw [hrun,hv] at he
    cases he
  · rw [hv] at he'
    cases he'

end BufferedDecoder

/-- A read into this room returns the last bytes of the stream. -/
def Reader.Last (r : Reader) (room : Nat) : Prop := r.stream.drop (min (max 1 (r.sizes r.turn)) room) = []

instance (r : Reader) (room : Nat) : Decidable (r.Last room) := inferInstanceAs (Decidable (_ = []))

private theorem Reader.read_joined {r : Reader} (hs : r.stream ≠ []) (hj : r.joined = true) (room : Nat) :
    ∃ bs r', r.read room = (bs,if r.Last room then some .eof else none,r') ∧
      { r with joined := false }.read room = (bs,none,{ r' with joined := false }) := by
  refine ⟨r.stream.take (min (max 1 (r.sizes r.turn)) room),
    { r with stream := r.stream.drop (min (max 1 (r.sizes r.turn)) room), turn := r.turn + 1 },?_,?_⟩
  · simp only [read,if_neg hs,hj,true_and]
    rfl
  · simp [read,hs]

namespace BufferedDecoder

/-- How much room the reader is given by a `read` of `n` bytes. -/
def room (n : Nat) : Nat := if n > defaultBufferSize then n else defaultBufferSize

private theorem read_joined {d : BufferedDecoder} (h : d.Wf) (hj : d.reader.joined = true) {n : Nat} (hn : n ≠ 0)
    (hw : d.bufferWrite = 0) (hs : d.reader.stream ≠ []) : ∃ bs d₁ d₂,
      d.read n = (bs,if d.reader.Last (room n) then some .eof else none,d₁) ∧ d.apart.read n = (bs,none,d₂) := by
  obtain ⟨bs,r,hr,hr'⟩ := Reader.read_joined hs hj (room n)
  by_cases hdirect : n > defaultBufferSize
  · rw [show room n = n from if_pos hdirect] at hr hr' ⊢
    refine ⟨bs,{ d with reader := r },{ d with reader := { r with joined := false } },?_,?_⟩
    · simp only [read,if_neg hn,if_neg (not_not.mpr hw),if_pos hdirect,hr]
    · simp only [read,apart,if_neg hn,if_neg (not_not.mpr hw),if_pos hdirect,hr']
  · rw [show room n = defaultBufferSize from if_neg hdirect] at hr hr' ⊢
    have hlen := (Reader.read_spec defaultBufferSize_pos hr).1
    obtain ⟨d₁,hrefill,-,hwindow,-⟩ := refill_empty h hw hr hlen
    obtain ⟨d₂,hrefill',-,hwindow',-⟩ := refill_empty (d := d.apart) ⟨h.buffer,h.read_le,h.write_le,h.meet⟩ hw hr' hlen
    have hw' : ¬ d.apart.bufferWrite ≠ 0 := not_not.mpr hw
    refine ⟨bs.take n,d₁.advance (min n bs.length),d₂.advance (min n bs.length),?_,?_⟩
    · simp only [read,if_neg hn,if_neg (not_not.mpr hw),if_neg hdirect,hrefill,hwindow]
    · simp only [read,if_neg hn,if_neg hw',if_neg hdirect,hrefill',hwindow']

/-- A `Read` returns the same on the two kinds of readers unless it makes the last read of the stream. -/
theorem readRest_iff {d : BufferedDecoder} (h : d.Wf) (hj : d.reader.joined = true)
    (hrem : 0 ≤ d.packetLength - d.packetPos) (hs : d.plain.bytes ≠ []) (n : Nat) :
    (d.readRest n).1 = (d.apart.readRest n).1 ↔
      min n (d.packetLength - d.packetPos).toNat = 0 ∨ d.window ≠ [] ∨
        ¬ d.reader.Last (room (min n (d.packetLength - d.packetPos).toNat)) := by
  have hneg : ¬ d.packetLength - d.packetPos < 0 := by omega
  by_cases hzero : d.packetLength - d.packetPos = 0
  · simp [readRest,apart,hzero]
  have hresult : ∀ d' : BufferedDecoder, d'.packetLength = d.packetLength → d'.packetPos = d.packetPos →
      (d'.readRest n).1 = .ok ((d'.read (min n (d.packetLength - d.packetPos).toNat)).1,
        (d'.read (min n (d.packetLength - d.packetPos).toNat)).2.1) := by
    intro d' hl hp
    simp only [readRest,hl,hp,if_neg hzero,if_neg hneg]
  rw [hresult d rfl rfl,hresult d.apart rfl rfl]
  generalize min n (d.packetLength - d.packetPos).toNat = k
  by_cases hk : k = 0
  · simp [read,hk]
  by_cases hw : d.bufferWrite = 0
  · have hnil := h.window_nil.mpr hw
    have hstream : d.reader.stream ≠ [] := by
      intro hempty
      apply hs
      show d.window ++ d.reader.stream = []
      rw [hnil,hempty]
      rfl
    obtain ⟨bs,d₁,d₂,hr,hr'⟩ := read_joined h hj hk hw hstream
    rw [hr,hr',hnil]
    by_cases hlast : d.reader.Last (room k)
    · simp [hlast,hk]
    · simp [hlast]
  · have hne : d.window ≠ [] := mt h.window_nil.mp hw
    simp [read,hk,hw,hne,apart]
    rfl

/-- A reader reports the end of the stream together with its last bytes, to a decoder after any steps. -/
theorem joined_end (stream : List UInt8) (sizes : Nat → Nat) (ops : List Op) :
    let d := after ops (new { stream, sizes, joined := true })
    (∀ c : Call, (c.Enough d.plain → ∃ v, (c.run d.apart).1 = .ok v) ∧
      ((∃ v, (c.run d.apart).1 = .ok v ∧ (c.run d).1 = .ok v) ↔ c.Enough d.early) ∧
      (c.Enough d.early → seen (c.run d) = seen (c.run d.apart))) ∧
    (0 ≤ d.packetLength - d.packetPos → d.plain.bytes ≠ [] → ∀ n,
      ((d.readRest n).1 = (d.apart.readRest n).1 ↔
        min n (d.packetLength - d.packetPos).toNat = 0 ∨ d.window ≠ [] ∨
          ¬ d.reader.Last (room (min n (d.packetLength - d.packetPos).toNat)))) := by
  intro d
  obtain ⟨hw,hj⟩ := after_keeps ops (Wf.new { stream, sizes, joined := true })
  refine ⟨fun c => ⟨fun hc => ?_,run_iff_early hw c,fun hc => (run_same hw hc).2⟩,readRest_iff hw hj⟩
  obtain ⟨v,p,hp⟩ := Call.parse_enough hc
  exact ⟨v,(congrArg Prod.fst (run_apart hw c)).symm.trans (congrArg Prod.fst hp)⟩

/-- A `ReadyForQuery` that comes with the end of the stream is not read. -/
theorem joined_end_loses : ∃ (stream : List UInt8) (sizes : Nat → Nat),
    let d := new { stream, sizes, joined := true }
    (Call.next true).Enough d.plain ∧ ((Call.next true).run d.apart).1 = .ok .unit ∧
      ((Call.next true).run d).1 = .error (.error .unexpectedEOF) :=
  ⟨[90,0,0,0,5,73],fun _ => 6,by decide,rfl,rfl⟩

/-- Its header comes before the end, and then the payload. -/
theorem joined_end_header :
    let d := new { stream := [90,0,0,0,5,73], sizes := fun _ => 5, joined := true }
    (Call.next true).Enough d.early ∧ seen ((Call.next true).run d) = seen ((Call.next true).run d.apart) := by
  have henough : (Call.next true).Enough
      (new { stream := [90,0,0,0,5,73], sizes := fun _ => 5, joined := true }).early := by
    decide
  exact ⟨henough,((joined_end [90,0,0,0,5,73] (fun _ => 5) []).1 (.next true)).2.2 henough⟩

end BufferedDecoder
end Pggat.Fed
