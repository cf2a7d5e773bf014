import Pggat.Fed.Decoder

/-! What the decoder's operations do, in terms of its unread bytes alone: neither the buffer nor the
way the connection cut the bytes into chunks shows in a result. -/
namespace Pggat.Fed
open Pggat.Base
namespace Decoder

/-- The two decoders are at the same place of the same packet, and their streams end alike. -/
structure SamePacket (d d' : Decoder) : Prop where
  packetType : d'.packetType = d.packetType
  packetLength : d'.packetLength = d.packetLength
  packetPos : d'.packetPos = d.packetPos
  stop : d'.stop = d.stop

/-- The stream has moved on to these bytes, and the position in the packet by so many. -/
structure Moved (d d' : Decoder) (rest : List UInt8) (count : Nat) : Prop where
  unread : d'.unread = rest
  packetType : d'.packetType = d.packetType
  packetLength : d'.packetLength = d.packetLength
  packetPos : d'.packetPos = d.packetPos + count
  stop : d'.stop = d.stop

theorem SamePacket.refl (d : Decoder) : SamePacket d d := ⟨rfl,rfl,rfl,rfl⟩

variable {d d' : Decoder}

theorem SamePacket.trans {d'' : Decoder} (h : SamePacket d d') (h' : SamePacket d' d'') : SamePacket d d'' :=
  ⟨h'.packetType.trans h.packetType,h'.packetLength.trans h.packetLength,h'.packetPos.trans h.packetPos,
    h'.stop.trans h.stop⟩

theorem Moved.of_same {x : Decoder} {rest : List UInt8} {count : Nat} (h : Moved d x rest count) (hs : SamePacket d d') :
    Moved d' x rest count :=
  ⟨h.unread,h.packetType.trans hs.packetType.symm,h.packetLength.trans hs.packetLength.symm,
    by rw [hs.packetPos,h.packetPos],h.stop.trans hs.stop.symm⟩

/-- Turns that the buffer and the chunks are good for. -/
def rounds (d : Decoder) : Nat := d.reads.length + if d.buffer = [] then 0 else 1

/-- A read takes bytes off the front. It returns as many as asked for or uses up a turn. -/
theorem read_spec (d : Decoder) (n : Nat) :
    (∃ bs d', d.read n = (bs,none,d') ∧ bs ++ d'.unread = d.unread ∧ bs.length ≤ n ∧ SamePacket d d' ∧
      (bs.length = n ∨ d'.rounds < d.rounds)) ∨
    (d.read n = ([],some d.stop,d) ∧ d.unread = []) := by
  unfold read refill
  by_cases hb : d.buffer = []
  · rw [if_pos hb]
    cases hr : d.reads with
    | nil =>
      refine .inr ⟨?_,by simp [unread,hb,hr]⟩
      simp only [hb,List.take_nil,List.drop_nil]
      rw [← hb]
    | cons c cs =>
      refine .inl ⟨_,_,rfl,?_,?_,⟨rfl,rfl,rfl,rfl⟩,?_⟩
      · simp [unread,hb,hr,← List.append_assoc]
      · simp
      · simp only [hb,List.nil_append,List.length_take,rounds,hr,List.length_cons]
        by_cases hn : n ≤ c.val.length
        · exact .inl (by omega)
        · have hd : c.val.drop n = [] := List.drop_eq_nil_of_le (by omega)
          exact .inr (by simp [hd])
  · rw [if_neg hb]
    refine .inl ⟨_,_,rfl,?_,?_,⟨rfl,rfl,rfl,rfl⟩,?_⟩
    · simp [unread,← List.append_assoc]
    · simp
    · simp only [List.length_take,rounds,hb]
      by_cases hn : n ≤ d.buffer.length
      · exact .inl (by omega)
      · have hd : d.buffer.drop n = [] := List.drop_eq_nil_of_le (by omega)
        exact .inr (by simp [hd])

/-- The error of a read that has got some bytes and finds too few. -/
def short (got : List UInt8) (d : Decoder) : Error :=
  if d.stop = .eof ∧ got ++ d.unread ≠ [] then .unexpectedEOF else d.stop

private theorem readFullLoop_spec (fuel want : Nat) (got : List UInt8) (d : Decoder) (hf : d.rounds + 2 ≤ fuel) :
    ∃ d', readFullLoop fuel want got d = (if want ≤ got.length + d.unread.length
        then .ok (got ++ d.unread.take (want - got.length)) else .error (.error (d.short got)),d') ∧
      d'.unread = d.unread.drop (want - got.length) ∧ SamePacket d d' := by
  induction fuel generalizing got d with
  | zero => omega
  | succ fuel ih =>
    simp only [readFullLoop]
    by_cases hw : want ≤ got.length
    · have h0 : want - got.length = 0 := by omega
      rw [if_pos hw,if_pos (Nat.le_add_right_of_le hw),h0,List.take_zero,List.append_nil,List.drop_zero]
      exact ⟨d,rfl,rfl,SamePacket.refl d⟩
    · rw [if_neg hw]
      rcases read_spec d (want - got.length) with ⟨bs,d',hr,hu,hlen,hs,hprog⟩ | ⟨hr,hu⟩
      · rw [hr,← hu,List.length_append]
        rcases hprog with hall | hless
        · obtain ⟨fuel,rfl⟩ : ∃ k, fuel = k + 1 := ⟨fuel - 1,by omega⟩
          have hdone : want ≤ (got ++ bs).length := by simp only [List.length_append]; omega
          simp only [readFullLoop,if_pos hdone,← hall,List.take_left,List.drop_left]
          exact ⟨d',by rw [if_pos (by omega)],rfl,hs⟩
        · obtain ⟨d'',hl,hu',hs'⟩ := ih (got ++ bs) d' (by omega)
          have hsub : want - got.length = bs.length + (want - (got ++ bs).length) := by
            simp only [List.length_append]
            omega
          have hshort : d'.short (got ++ bs) = d.short got := by
            rw [short,short,hs.stop,List.append_assoc,hu]
          refine ⟨d'',?_,?_,hs.trans hs'⟩
          · rw [hsub,List.take_length_add_append,← List.append_assoc,← Nat.add_assoc,← List.length_append,← hshort]
            exact hl
          · rw [hsub,List.drop_length_add_append]
            exact hu'
      · rw [hr,short,hu,if_neg (by simpa using hw)]
        exact ⟨d,rfl,by rw [hu,List.drop_nil],SamePacket.refl d⟩

theorem readFull_spec (want : Nat) (d : Decoder) :
    ∃ d', readFull want d = (if want ≤ d.unread.length then .ok (d.unread.take want) else .error (.error (d.short [])),d') ∧
      d'.unread = d.unread.drop want ∧ SamePacket d d' := by
  have hf : d.rounds + 2 ≤ d.reads.length + 3 := by
    unfold rounds
    split <;> omega
  simpa [readFull] using readFullLoop_spec (d.reads.length + 3) want [] d hf

theorem uint_spec (w : Nat) (d : Decoder) :
    ∃ d', uint w d = (if w ≤ d.unread.length then .ok (beNat (d.unread.take w)) else .error (.error (d.short [])),d') ∧
      Moved d d' (d.unread.drop w) w := by
  obtain ⟨d',hr,hu,hs⟩ := readFull_spec w d
  refine ⟨{ d' with packetPos := d'.packetPos + w },?_,hu,hs.packetType,hs.packetLength,congrArg (· + _) hs.packetPos,hs.stop⟩
  simp only [uint,hr]
  split <;> rfl

theorem cutZero_append (u v : List UInt8) : cutZero (u ++ v) =
    match cutZero u with
    | some (s,rest) => some (s,rest ++ v)
    | none => (cutZero v).map fun r => (u ++ r.1,r.2) := by
  induction u with
  | nil => simp [cutZero]
  | cons b u ih =>
    simp only [List.cons_append,cutZero]
    split
    · rfl
    · rw [ih]
      cases cutZero u with
      | none => simp [Option.map_map,Function.comp_def]
      | some r => rfl

/-- A string was read up to its terminator, `before` bytes of it earlier; without one the stream has ended. -/
def StringRead (d : Decoder) (before : List UInt8) (r : Except Failure (List UInt8) × Decoder) : Prop :=
  match cutZero d.unread with
  | some (s,rest) => ∃ d', r = (.ok (before ++ s),d') ∧ Moved d d' rest ((before ++ s).length + 1)
  | none => ∃ d', r = (.error (.error d.stop),d') ∧ Moved d d' [] (before ++ d.unread).length

theorem StringRead.congr {before : List UInt8} {r : Except Failure (List UInt8) × Decoder}
    (h : StringRead d before r) (hu : d.unread = d'.unread) (hs : SamePacket d d') : StringRead d' before r := by
  rw [StringRead,hu] at h
  rw [StringRead,hs.stop]
  split at h <;> obtain ⟨x,hx,hm⟩ := h <;> exact ⟨x,hx,hm.of_same hs⟩

/-- Looking for the terminator in the buffer and then in the chunks is looking for it in both. -/
theorem scan_spec (builder : List UInt8) (d : Decoder) (r : Except Failure (List UInt8) × Decoder)
    (h : StringRead { d with buffer := [] } (builder ++ d.buffer) r) : StringRead d builder
      (match cutZero d.buffer with
      | some (s,rest) => (.ok (builder ++ s),{ d with
          buffer := rest, packetPos := d.packetPos + (builder ++ s).length + 1 })
      | none => r) := by
  simp only [StringRead,unread,List.nil_append] at h
  simp only [StringRead,unread,cutZero_append]
  cases hc : cutZero d.buffer with
  | some c => exact ⟨_,rfl,rfl,rfl,rfl,Int.add_assoc ..,rfl⟩
  | none =>
    cases hr : cutZero (d.reads.map Subtype.val).flatten with
    | none =>
      rw [hr] at h
      obtain ⟨x,hx,hm⟩ := h
      exact ⟨x,hx,List.append_assoc .. ▸ hm.of_same ⟨rfl,rfl,rfl,rfl⟩⟩
    | some c =>
      rw [hr] at h
      simp only [List.append_assoc] at h
      obtain ⟨x,hx,hm⟩ := h
      exact ⟨x,hx,hm.of_same ⟨rfl,rfl,rfl,rfl⟩⟩

private theorem stringLoop_spec (fuel : Nat) (builder : List UInt8) (d : Decoder) (hb : d.buffer = [])
    (hf : d.reads.length + 1 ≤ fuel) : StringRead d builder (stringLoop fuel builder d) := by
  induction fuel generalizing builder d with
  | zero => omega
  | succ fuel ih =>
    unfold stringLoop refill
    cases hr : d.reads with
    | nil =>
      have hu : d.unread = [] := by simp [unread,hb,hr]
      simp only [StringRead,hu,cutZero,List.append_nil]
      exact ⟨_,rfl,by simp [unread,hb,hr],rfl,rfl,rfl,rfl⟩
    | cons c cs =>
      have hnext := scan_spec builder { d with buffer := c.val, reads := cs } _
        (ih (builder ++ c.val) { d with buffer := [], reads := cs } rfl (by
          rw [hr,List.length_cons] at hf
          exact Nat.le_of_succ_le_succ hf))
      have hu : unread { d with buffer := c.val, reads := cs } = d.unread := by simp [unread,hb,hr]
      simp only [hb,List.nil_append]
      exact hnext.congr hu ⟨rfl,rfl,rfl,rfl⟩

theorem string_spec (d : Decoder) : StringRead d [] (string d) := by
  have hscan : ∀ d : Decoder, StringRead d []
      (match cutZero d.buffer with
      | some (s,rest) => (.ok s,{ d with buffer := rest, packetPos := d.packetPos + s.length + 1 })
      | none => stringLoop (d.reads.length + 1) d.buffer { d with buffer := [] }) := fun d =>
    scan_spec [] d _ (stringLoop_spec _ d.buffer { d with buffer := [] } rfl (Nat.le_refl _))
  unfold string refill
  by_cases hb : d.buffer = []
  · rw [if_pos hb]
    cases hr : d.reads with
    | nil =>
      have hu : d.unread = [] := by simp [unread,hb,hr]
      simp only [StringRead,hu,cutZero]
      exact ⟨d,rfl,hu,rfl,rfl,(Int.add_zero _).symm,rfl⟩
    | cons c cs =>
      have hnext := hscan { d with buffer := c.val, reads := cs }
      have hu : unread { d with buffer := c.val, reads := cs } = d.unread := by simp [unread,hb,hr]
      simp only [hb,List.nil_append]
      exact hnext.congr hu ⟨rfl,rfl,rfl,rfl⟩
  · rw [if_neg hb]
    exact hscan d

/-- Unless the connection delivers an empty chunk, bytes are discarded only if there are more to come. -/
theorem discardLoop_spec (fuel n : Nat) (d : Decoder) (hf : d.reads.length + 1 ≤ fuel) :
    ∃ d', d'.unread = d.unread.drop n ∧ SamePacket d d' ∧
      (discardLoop fuel n d = (.ok (),d') ∧ (n = 0 ∨ n < d.unread.length ∨ ∃ c ∈ d.reads, c.val = []) ∨
      discardLoop fuel n d = (.error (.error d.stop),d') ∧ n ≠ 0 ∧ d.unread.length ≤ n) := by
  induction fuel generalizing n d with
  | zero => omega
  | succ fuel ih =>
    rw [discardLoop]
    by_cases hn : n = 0
    · rw [hn]
      exact ⟨d,rfl,SamePacket.refl d,.inl ⟨rfl,.inl rfl⟩⟩
    simp only [if_neg hn]
    have hlen : d.buffer.length ≤ d.unread.length := by simp [unread]
    by_cases hc : min n d.buffer.length < d.buffer.length
    · have hm : min n d.buffer.length = n := by omega
      rw [if_pos hc,hm]
      refine ⟨{ d with buffer := d.buffer.drop n },?_,⟨rfl,rfl,rfl,rfl⟩,.inl ⟨rfl,.inr (.inl (by omega))⟩⟩
      rw [unread,unread,List.drop_append_of_le_length (by omega)]
    · have hm : min n d.buffer.length = d.buffer.length := by omega
      rw [if_neg hc,hm]
      unfold refill
      cases hr : d.reads with
      | nil =>
        have hu : d.unread = d.buffer := by simp [unread,hr]
        refine ⟨{ d with buffer := [], reads := [] },?_,⟨rfl,rfl,rfl,rfl⟩,.inr ⟨rfl,hn,by rw [hu]; omega⟩⟩
        rw [List.drop_eq_nil_of_le (by rw [hu]; omega)]
        rfl
      | cons c cs =>
        rw [hr] at hf
        have hu : d.unread = d.buffer ++ unread { d with buffer := c.val, reads := cs } := by simp [unread,hr]
        obtain ⟨d',hu',hs,hresult⟩ := ih (n - d.buffer.length) { d with buffer := c.val, reads := cs }
          (Nat.le_of_succ_le_succ hf)
        refine ⟨d',?_,⟨hs.1,hs.2,hs.3,hs.4⟩,?_⟩
        · rw [hu',hu,List.drop_append,List.drop_eq_nil_of_le (show d.buffer.length ≤ n by omega),List.nil_append]
        · rw [hu,List.length_append]
          refine hresult.imp (fun ⟨hl,hmore⟩ => ⟨hl,?_⟩) fun ⟨hl,_,hle⟩ => ⟨hl,hn,by omega⟩
          by_cases hempty : c.val = []
          · exact .inr (.inr ⟨c,List.mem_cons_self,hempty⟩)
          · have hpos := List.length_pos_iff.mpr hempty
            have hcl : c.val.length ≤ (unread { d with buffer := c.val, reads := cs }).length := by simp [unread]
            rcases hmore with hz | hlt | ⟨c',hc',hnil⟩
            · exact .inr (.inl (by omega))
            · exact .inr (.inl (by omega))
            · exact .inr (.inr ⟨c',List.mem_cons_of_mem _ hc',hnil⟩)

theorem discard_spec (n : Nat) (d : Decoder) :
    ∃ d', d'.unread = d.unread.drop n ∧ SamePacket d d' ∧
      (discard n d = (.ok (),d') ∧ (n = 0 ∨ n < d.unread.length ∨ ∃ c ∈ d.reads, c.val = []) ∨
      discard n d = (.error (.error d.stop),d') ∧ n ≠ 0 ∧ d.unread.length ≤ n) :=
  discardLoop_spec _ n d (Nat.le_succ _)

/-- The type and the length of a header, and the bytes behind it. -/
def header (typed : Bool) (bytes : List UInt8) : Option (UInt8 × Int × List UInt8) :=
  let n := if typed then 5 else 4
  let bs := if typed then bytes.take n else 0 :: bytes.take n
  if n ≤ bytes.length then some (bs.headD 0,(beNat (bs.drop 1) : Int) - 4,bytes.drop n) else none

variable {typed : Bool}

theorem header_shortens {bytes rest : List UInt8} {type : UInt8} {length : Int}
    (h : header typed bytes = some (type,length,rest)) : rest.length < bytes.length := by
  unfold header at h
  by_cases hlen : (if typed then 5 else 4) ≤ bytes.length
  · simp only [if_pos hlen,Option.some.injEq,Prod.mk.injEq] at h
    rw [← h.2.2,List.length_drop]
    split at hlen <;> simp_all <;> omega
  · simp [if_neg hlen] at h

/-- The header that `next` reads, behind what is left of the packet. -/
def upcoming (typed : Bool) (d : Decoder) : Option (UInt8 × Int × List UInt8) :=
  if d.packetLength - d.packetPos < 0 then none else
  header typed (d.unread.drop (d.packetLength - d.packetPos).toNat)

theorem next_spec (typed : Bool) (d : Decoder) :
    match d.upcoming typed with
    | some (type,length,bytes) => ∃ d', next typed d = (.ok (),d') ∧ d'.unread = bytes ∧ d'.packetType = type ∧
        d'.packetLength = length ∧ d'.packetPos = 0
    | none => ∃ e d', next typed d = (.error (.error e),d') ∧ (0 ≤ d.packetLength - d.packetPos → d'.unread = []) := by
  unfold next upcoming
  by_cases hrem : d.packetLength - d.packetPos < 0
  · simp only [if_pos hrem]
    exact ⟨_,_,rfl,fun h => by omega⟩
  simp only [if_neg hrem]
  obtain ⟨d',hu,-,⟨hd,-⟩ | ⟨hd,-,hle⟩⟩ := discard_spec (d.packetLength - d.packetPos).toNat d
  · obtain ⟨d'',hr,hu',-⟩ := readFull_spec (if typed then 5 else 4) d'
    rw [hd,← hu,header]
    simp only [hr]
    by_cases hlen : (if typed then 5 else 4) ≤ d'.unread.length
    · simp only [if_pos hlen]
      exact ⟨_,rfl,hu',rfl,rfl,rfl⟩
    · simp only [if_neg hlen]
      exact ⟨_,d'',rfl,fun _ => by rw [hu',List.drop_eq_nil_of_le (by omega)]⟩
  · have hnil : d.unread.drop (d.packetLength - d.packetPos).toNat = [] := List.drop_eq_nil_of_le hle
    have hnone : header typed [] = none := by cases typed <;> rfl
    rw [hd,hnil,hnone]
    exact ⟨_,d',rfl,fun _ => hu.trans hnil⟩

end Decoder
end Pggat.Fed
