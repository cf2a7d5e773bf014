import Pggat.Fed.RoundTrip

/-! A packet that was read from the whole of its frame is written as the frame it came from. -/
namespace Pggat.Fed
open Pggat.Base Encoder

mutual

/-- Types of which only the zero value compares equal to it. Both float zeros do, and slices cannot be compared. -/
def Schema.Distinct : Schema → Prop
  | .basic (.int _) => True
  | .basic .string => True
  | .array _ elem => elem.Distinct
  | .struct fields => fields.Distinct
  | .map _ _ => True
  | _ => False

def Fields.Distinct : Fields → Prop
  | .nil => True
  | .cons field fields => field.Distinct ∧ fields.Distinct

end

mutual

/-- The end of every zero terminated slice can be written in one way only. -/
def Schema.Exact : Schema → Prop
  | .basic _ => True
  | .array _ elem => elem.Exact
  | .struct fields => fields.Exact
  | .map _ items => items.Exact
  | .lengthPrefixedSlice _ elem => elem.Exact
  | .nullableLengthPrefixedSlice _ elem => elem.Exact
  | .zeroTerminatedSlice first rest => first.Distinct ∧ first.Exact ∧ rest.Exact
  | .remaining elem => elem.Exact

def Fields.Exact : Fields → Prop
  | .nil => True
  | .cons field fields => field.Exact ∧ fields.Exact

def Items.Exact : Items → Prop
  | .nil => True
  | .cons _ item items => item.Exact ∧ items.Exact

end

variable {vs : List Value} {bss : List (List UInt8)}

theorem eq_replicate_of_allZero {zero : Value}
    (h : List.Forall₂ (fun v _ => v.isZero = true → v = zero) vs bss) (hz : Value.allZero vs = true) :
    vs = List.replicate vs.length zero := by
  induction h with
  | nil => rfl
  | cons hv _ ih =>
    rw [Value.allZero,Bool.and_eq_true] at hz
    rw [List.length_cons,List.replicate_succ,hv hz.1,← ih hz.2]

mutual

theorem Schema.reads_zero : ∀ s : Schema, s.Distinct → Spells s.read fun v _ => v.isZero = true → v = s.zero
  | .basic (.int t), _ => (Spells.number _).map fun n _ _ hz => by simpa [Value.isZero,Schema.zero] using hz
  | .basic .string, _ => Spells.text.map fun s _ _ hz => by simpa [Value.isZero,Schema.zero] using hz
  | .array n elem, h => by
    refine ((elem.reads_zero h).times n).map fun vs bs hvs hz => ?_
    obtain ⟨rfl,bss,hall,_⟩ := hvs
    rw [Schema.zero,← eq_replicate_of_allZero hall hz]
  | .struct fields, h => (fields.reads_zero h).map fun vs _ hvs hz => congrArg Value.list (hvs hz)
  | .map pre items, _ => (Spells.number _).bind fun n _ _ => by
    refine (items.read_takes (pre.value n)).map fun v _ _ hz => ?_
    simp [Value.isZero] at hz

theorem Fields.reads_zero : ∀ fields : Fields, fields.Distinct →
    Spells fields.read fun vs _ => Value.allZero vs = true → vs = fields.zero
  | .nil, _ => .pure fun _ => rfl
  | .cons field fields, h => by
    refine (field.reads_zero h.1).bind fun v bs hv => (fields.reads_zero h.2).map fun vs bs' hvs hz => ?_
    rw [Value.allZero,Bool.and_eq_true] at hz
    rw [Fields.zero,hv hz.1,hvs hz.2]

end

variable {t : IntType} {n : Nat}

private theorem IntType.ofInt_toInt (h : n < 256 ^ t.bytes) (hn : 0 ≤ t.toInt n) :
    t.ofInt (t.toInt n) = n := by
  cases t <;> simp [toInt,value,isSigned,bytes,ofInt,signed] at h hn ⊢ <;> omega

theorem IntType.ofInt_value (h : n < 256 ^ t.bytes) : t.ofInt (t.value n) = n := by
  cases t <;> simp [value,isSigned,bytes,ofInt,signed] at h ⊢ <;> omega

/-- The encode template writes the bytes and the length template counts them. -/
abbrev Schema.Writes (s : Schema) (v : Value) (bs : List UInt8) : Prop := Coded (encode s v) (length s v) bs

abbrev Fields.Writes (fields : Fields) (vs : List Value) (bs : List UInt8) : Prop :=
  Coded (encodeFields fields vs) (lengthFields fields vs) bs

theorem coded_all {f : Value → EncodeM Unit} {len : Value → Option Nat}
    (h : List.Forall₂ (fun v bs => Coded (f v) (len v) bs) vs bss) :
    Coded (each f vs) (sumEach len vs) bss.flatten := by
  induction h with
  | nil => exact ⟨.nil,rfl⟩
  | cons hv _ ih => exact hv.bind ih

theorem coded_elements {first : Schema} {rest : Fields}
    (h : List.Forall₂ (Spells.Element first.Writes rest.Writes) vs bss) :
    Coded (each (element (fun v => encode first v) fun vs => encodeFields rest vs) vs)
      (sumEach (sumElement (fun v => length first v) fun vs => lengthFields rest vs) vs) bss.flatten := by
  refine coded_all (h.imp fun v bs hv => ?_)
  obtain ⟨x,xs,b,b',rfl,rfl,hx,hxs,_⟩ := hv
  exact hx.bind hxs

theorem coded_slice {pre : IntType} {elem : Schema}
    (hn : n < 256 ^ pre.bytes) (hpos : 0 ≤ pre.toInt n) (hlen : vs.length = (pre.toInt n).toNat)
    (hall : List.Forall₂ elem.Writes vs bss) :
    Coded (do Encoder.uint pre.bytes (pre.ofInt vs.length); each (fun v => encode elem v) vs)
      ((sumEach (fun v => length elem v) vs).map (pre.bytes + ·)) (beBytes pre.bytes n ++ bss.flatten) := by
  have hcount : pre.ofInt vs.length = n := by
    rw [hlen,Int.toNat_of_nonneg hpos,IntType.ofInt_toInt hn hpos]
  rw [hcount]
  exact (coded_all hall).prefixed

mutual

theorem Schema.reads_written : ∀ s : Schema, s.Exact → Spells s.read s.Writes
  | .basic (.int t), _ => (Spells.number _).map fun n bs h => by
    rw [h.1]
    exact ⟨.uint t n,by simp [length]⟩
  | .basic .float32, _ => (Spells.number 4).map fun n bs h => by
    rw [h.1]
    exact ⟨.uint .uint32 n,by simp [length]⟩
  | .basic .float64, _ => (Spells.number 8).map fun n bs h => by
    rw [h.1]
    exact ⟨.uint .uint64 n,by simp [length]⟩
  | .basic .string, _ => Spells.text.map fun s bs h => by
    rw [h]
    exact ⟨.string s,by simp [length]⟩
  | .array n elem, h => ((elem.reads_written h).times n).map fun vs bs ⟨_,bss,hall,hbs⟩ => by
    rw [hbs]
    exact coded_all hall
  | .struct fields, h => (fields.reads_written h).map fun _ _ hvs => hvs
  | .map pre items, h => (Spells.number _).bind fun n bs ⟨hbs,hn⟩ =>
    (items.reads_written (pre.value n) h).map fun v bs' hv => by
      have hcoded := hv.prefixed (t := pre) (i := n)
      rw [← hbs] at hcoded
      unfold Schema.Writes encode length
      rw [IntType.ofInt_value hn]
      exact hcoded
  | .lengthPrefixedSlice pre elem, h => (Spells.number _).bind fun n bs ⟨hbs,hn⟩ =>
    (Spells.announce elem _).bind fun _ bs' ⟨hbs',hpos⟩ =>
      ((elem.reads_written h).times _).map fun vs bs'' ⟨hlen,bss,hall,hbs''⟩ => by
        rw [hbs,hbs',hbs'',List.nil_append]
        exact coded_slice hn hpos hlen hall
  | .nullableLengthPrefixedSlice pre elem, h => (Spells.number _).bind fun n bs ⟨hbs,hn⟩ => by
    split
    · rename_i hnull
      refine .pure ?_
      have hcoded : Coded (Encoder.uint pre.bytes n) (some pre.bytes) (beBytes pre.bytes n) := ⟨.uint pre n,by simp⟩
      rw [List.append_nil,hbs]
      unfold Schema.Writes encode length
      rw [← hnull,IntType.ofInt_value hn]
      exact hcoded
    · refine (Spells.announce elem _).bind fun _ bs' ⟨hbs',hpos⟩ => ?_
      refine ((elem.reads_written h).times _).map fun vs bs'' ⟨hlen,bss,hall,hbs''⟩ => ?_
      rw [hbs,hbs',hbs'',List.nil_append]
      exact coded_slice hn hpos hlen hall
  | .zeroTerminatedSlice first rest, h => by
    have hfirst := (first.reads_written h.2.1).and ((first.reads_zero h.1).and first.read_takes)
    refine (hfirst.untilZero (rest.reads_written h.2.2) fun v h => h.2.2 rfl).spells fun vs bs hvs => ?_
    obtain ⟨bss,z,terminator,hall,rfl,⟨hz,hzero,_⟩,hisZero⟩ := hvs
    rw [hzero hisZero] at hz
    refine (coded_elements (hall.imp fun v bs hv => ?_)).bind hz
    obtain ⟨x,xs,b,b',hv,hbs,hx,hxs⟩ := hv
    exact ⟨x,xs,b,b',hv,hbs,hx.1,hxs⟩
  | .remaining elem, h => (elem.reads_written h).untilEnd.spells fun vs bs ⟨bss,hall,hbs⟩ => by
    rw [hbs]
    exact coded_all hall

theorem Fields.reads_written : ∀ fields : Fields, fields.Exact → Spells fields.read fields.Writes
  | .nil, _ => .pure ⟨.nil,rfl⟩
  | .cons field fields, h => (field.reads_written h.1).bind fun _ _ hv =>
    (fields.reads_written h.2).map fun _ _ hvs => hv.bind hvs

theorem Items.reads_written (type : Int) : ∀ items : Items, items.Exact →
    Spells (items.read type) fun v bs => Coded (encodeItem type items v) (lengthItem type items v) bs
  | .nil, _ => .stop _
  | .cons t item items, h => by
    unfold Items.read encodeItem lengthItem
    split
    · exact item.reads_written h.1
    · exact items.reads_written type h.2

end

section Limit
variable {limit : Schema → Nat}

variable {d d' : Decoder}

private theorem Simulates.ok_inv {α : Type} {m : DecodeM α} {r : Reading α} (h : Simulates limit m r) {a : α}
    (hd : m d = (.ok a,d')) : ∃ ds, r d.wire = (ds,some (a,d'.wire)) := by
  obtain ⟨hmet,hunmet⟩ := h d
  rw [hd] at hmet hunmet
  by_cases hall : ∀ x ∈ (r d.wire).1, x.Met limit
  · have hres := hmet hall
    rcases hr : r d.wire with ⟨ds,_ | ⟨b,w⟩⟩
    · rw [hr] at hres
      obtain ⟨e,d₁,he⟩ := hres
      cases he
    · rw [hr] at hres
      obtain ⟨d₁,he,hw⟩ := hres
      cases he
      exact ⟨ds,by rw [hw]⟩
  · obtain ⟨x,hx,hn⟩ : ∃ x ∈ (r d.wire).1, ¬ x.Met limit := by simpa using hall
    obtain ⟨d₁,he | he⟩ := hunmet ⟨x,hx,hn⟩
    · cases he
    · cases he

private theorem readPacket_inv {type : UInt8} {s : Schema} {v : Value} {payload rest : List UInt8}
    (hlen : payload.length + 4 < 2 ^ 32) (hb : d.packetPos = d.packetLength)
    (hu : d.unread = headerBytes type payload.length ++ (payload ++ rest))
    (hread : readPacket limit (type ≠ 0) type s d = (.ok v,d')) :
    ∃ ds, s.read ⟨payload ++ rest,payload.length⟩ = (ds,some (v,d'.wire)) := by
  have hup : d.upcoming (type ≠ 0) = some (type,announced payload.length,payload ++ rest) := by
    rw [Decoder.upcoming,hb,Int.sub_self,if_neg (by decide),hu]
    exact header_headerBytes type payload.length (payload ++ rest)
  have hnext := Decoder.next_spec (type ≠ 0) d
  rw [hup] at hnext
  obtain ⟨d₁,hn,hbytes,htype,hlength,hpos⟩ := hnext
  rw [readPacket,hn] at hread
  have hdecode : decode limit s d₁ = (.ok v,d') := by simpa [htype] using hread
  have hw : d₁.wire = ⟨payload ++ rest,payload.length⟩ := by
    rw [Decoder.wire,hbytes,hlength,hpos,Int.sub_zero,announced_eq hlen]
  obtain ⟨ds,hr⟩ := (decode_simulates s).ok_inv hdecode
  exact ⟨ds,hw ▸ hr⟩

/-- Re-encoding is transparent: a value that was decoded from the whole of its frame is written, header and payload,
as the frame. -/
theorem reencode_identical (type : UInt8) (s : Schema) (v : Value) (payload rest : List UInt8) (d d' : Decoder)
    (e : Encoder) (hs : s.Exact) (hlen : payload.length + 4 < 2 ^ 32) (hb : d.packetPos = d.packetLength)
    (hu : d.unread = headerBytes type payload.length ++ (payload ++ rest))
    (hread : readPacket limit (type ≠ 0) type s d = (.ok v,d')) (hexact : d'.packetPos = d'.packetLength)
    (he : e.Open) (hbal : e.packetPos = e.packetLength) :
    ∃ e', writePacket type s v e = (.ok (),e') ∧
      e'.emitted = e.emitted ++ (headerBytes type payload.length ++ payload) ∧ e'.packetPos = e'.packetLength := by
  obtain ⟨ds,hr⟩ := readPacket_inv hlen hb hu hread
  obtain ⟨bs,hbytes,hleft,⟨hwrites,hcount⟩,_⟩ := s.reads_written hs _ ds v _ hr
  have hsize : bs.length = payload.length := by
    have : d'.wire.left = 0 := by rw [Decoder.wire,hexact,Int.sub_self]
    simp only at hleft
    omega
  obtain rfl : bs = payload := (List.append_inj_left hbytes hsize.symm).symm
  obtain ⟨e₁,hn,hopen,hemit,_,hl,hp⟩ := next_spec type bs.length he hbal
  obtain ⟨e₂,hm,ha⟩ := hwrites e₁ hopen
  refine ⟨e₂,?_,?_,?_⟩
  · simp only [writePacket,hcount]
    exact (Action.bind_ok hn).trans hm
  · rw [ha.emitted,hemit,List.append_assoc]
  · rw [ha.packetPos,ha.packetLength,hp,hl,Int.zero_add]

end Limit

def queryFrame : Decoder := { reads := [⟨[0x51, 0, 0, 0, 6, 0x61, 0],by decide⟩] }

theorem reencode_identical_query :
    (readPacket (fun _ => 2 ^ 48) ((0x51 : UInt8) ≠ 0) 0x51 (.basic .string) queryFrame).1 = .ok (.str [0x61]) ∧
    ∃ e', writePacket 0x51 (.basic .string) (.str [0x61]) {} = (.ok (),e') ∧
      e'.emitted = Encoder.emitted {} ++ (headerBytes 0x51 2 ++ [0x61, 0]) ∧ e'.packetPos = e'.packetLength :=
  ⟨rfl,@reencode_identical (fun _ => 2 ^ 48) 0x51 (.basic .string) (.str [0x61]) [0x61, 0] [] queryFrame
    (readPacket (fun _ => 2 ^ 48) ((0x51 : UInt8) ≠ 0) 0x51 (.basic .string) queryFrame).2 {} trivial (by decide) rfl rfl
    rfl rfl ⟨rfl,by simp⟩ rfl⟩

def floats : Schema := .zeroTerminatedSlice (.basic .float32) .nil

/-- A negative zero ends the slice, and is written as a positive one. -/
theorem reencode_differs :
    (readPacket (fun _ => 2 ^ 48) true 0x52 floats { reads := [⟨[0x52, 0, 0, 0, 8, 0x80, 0, 0, 0],by decide⟩] }).1 =
      .ok (.list []) ∧
    (readPacket (fun _ => 2 ^ 48) true 0x52 floats { reads := [⟨[0x52, 0, 0, 0, 8, 0x80, 0, 0, 0],by decide⟩] }).2.unread =
      [] ∧
    (writePacket 0x52 floats (.list []) {}).2.emitted = [0x52, 0, 0, 0, 8, 0, 0, 0, 0] :=
  ⟨rfl,rfl,rfl⟩

end Pggat.Fed
