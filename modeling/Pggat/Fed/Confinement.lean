import Pggat.Fed.Consumption
import Pggat.Fed.DecodeSafety

/-! Which packets are decoded from their own bytes alone, whatever follows them on the connection. -/
namespace Pggat.Fed
open Pggat.Base

/-- A packet as its header announces it. -/
structure PacketFrame (typed : Bool) where
  head : List UInt8
  payload : List UInt8
  type : UInt8
  length : Int
  announced : Decoder.header typed head = some (type,length,[])
  whole : payload.length = length.toNat

private theorem Decoder.header_append {typed : Bool} {head rest : List UInt8} {type : UInt8} {length : Int}
    (h : header typed head = some (type,length,[])) : header typed (head ++ rest) = some (type,length,rest) := by
  unfold header at h ⊢
  by_cases hn : (if typed then 5 else 4) ≤ head.length
  · simp only [if_pos hn,Option.some.injEq,Prod.mk.injEq,List.drop_eq_nil_iff] at h
    obtain ⟨rfl,rfl,hle⟩ := h
    have hlen : head.length = if typed then 5 else 4 := Nat.le_antisymm hle hn
    have hn' : (if typed then 5 else 4) ≤ (head ++ rest).length := by
      rw [List.length_append]
      exact Nat.le_add_right_of_le hn
    simp only [if_pos hn',List.take_append_of_le_length hn,List.drop_left' hlen]
  · simp [if_neg hn] at h

namespace PacketFrame
variable {typed : Bool} (f : PacketFrame typed)

/-- The frame is the decoder's next packet, and `rest` follows it. -/
def Ahead (d : Decoder) (rest : List UInt8) : Prop :=
  0 ≤ d.packetLength - d.packetPos ∧
  d.unread.drop (d.packetLength - d.packetPos).toNat = f.head ++ (f.payload ++ rest)

variable (limit : Schema → Nat) (type : UInt8) (schema : Schema)

/-- The same value was decoded, or none in either case. -/
def Same (r r' : Except Failure Value × Decoder) : Prop :=
  (∃ v, r.1 = .ok v ∧ r'.1 = .ok v) ∨ ∃ e e', r.1 = .error e ∧ r'.1 = .error e'

/-- The result does not depend on what follows the frame, and no byte behind the frame is taken. -/
def Confined : Prop := ∀ d d' rest rest', f.Ahead d rest → f.Ahead d' rest' →
  Same (readPacket limit typed type schema d) (readPacket limit typed type schema d') ∧
  ∀ v e, readPacket limit typed type schema d = (.ok v,e) → ∃ k ≤ f.payload.length, e.unread = f.payload.drop k ++ rest

/-- The payload ends inside a value: with some more bytes it would be one. -/
def CutShort : Prop := ∃ more ds v left, more ≠ [] ∧
  schema.read ⟨f.payload ++ more,f.length⟩ = (ds,some (v,⟨[],left⟩)) ∧ ∀ x ∈ ds, x.Met limit

variable {f limit type schema}

variable {d : Decoder} {rest : List UInt8}

theorem Ahead.upcoming (h : f.Ahead d rest) :
    d.upcoming typed = some (f.type,f.length,f.payload ++ rest) := by
  unfold Decoder.upcoming
  rw [if_neg (by have := h.1; omega),h.2]
  exact Decoder.header_append f.announced

theorem Ahead.mismatch (h : f.Ahead d rest) (ht : f.type ≠ type) :
    (readPacket limit typed type schema d).1 = .error (.error .unexpectedPacket) := by
  have hnext := Decoder.next_spec typed d
  rw [h.upcoming] at hnext
  obtain ⟨d',hn,_,htype,_⟩ := hnext
  rw [readPacket,hn]
  simp [htype,ht]

theorem Ahead.agrees (h : f.Ahead d rest) (ht : f.type = type) :
    Agrees limit (schema.read ⟨f.payload ++ rest,f.length⟩) (readPacket limit typed type schema d) := by
  have hnext := Decoder.next_spec typed d
  rw [h.upcoming] at hnext
  obtain ⟨d',hn,hbytes,htype,hlength,hpos⟩ := hnext
  have hw : d'.wire = ⟨f.payload ++ rest,f.length⟩ := by simp [Decoder.wire,hbytes,hlength,hpos]
  have hd : Agrees limit (schema.read d'.wire) (decode limit schema d') := decode_simulates schema d'
  rw [readPacket,hn]
  simpa [htype,ht,hw] using hd

/-- The payload with these bytes behind it is read as a value whose slices can be allocated. -/
def Reads (f : PacketFrame typed) (limit : Schema → Nat) (schema : Schema) (rest : List UInt8) (v : Value) (w : Wire) :
    Prop :=
  ∃ ds, schema.read ⟨f.payload ++ rest,f.length⟩ = (ds,some (v,w)) ∧ ∀ x ∈ ds, x.Met limit

variable {v : Value}

theorem Ahead.reads {e : Decoder} (h : f.Ahead d rest) (ht : f.type = type)
    (hr : readPacket limit typed type schema d = (.ok v,e)) : f.Reads limit schema rest v e.wire := by
  have hag : Agrees limit (schema.read ⟨f.payload ++ rest,f.length⟩) (readPacket limit typed type schema d) := h.agrees ht
  have hall : ∀ x ∈ (schema.read ⟨f.payload ++ rest,f.length⟩).1, x.Met limit :=
    hag.returns_iff.mp (.inl ⟨v,by rw [hr]⟩)
  have hres := hag.1 hall
  rcases hread : schema.read ⟨f.payload ++ rest,f.length⟩ with ⟨ds,_ | ⟨v',w⟩⟩
  · simp only [hread,hr] at hres
    obtain ⟨e',d',he⟩ := hres
    cases he
  · simp only [hread,hr] at hres
    obtain ⟨d',he,rfl⟩ := hres
    cases he
    rw [hread] at hall
    exact ⟨ds,hread,hall⟩

variable {w : Wire}

theorem Reads.read (h : f.Reads limit schema rest v w)
    (ha : f.Ahead d rest) (ht : f.type = type) :
    ∃ e, readPacket limit typed type schema d = (.ok v,e) ∧ e.wire = w := by
  obtain ⟨ds,hread,hall⟩ := h
  have hag : Agrees limit (schema.read ⟨f.payload ++ rest,f.length⟩) (readPacket limit typed type schema d) := ha.agrees ht
  rw [hread] at hag
  exact hag.1 hall

/-- What a frame that is not cut short yields is read from its payload, whatever follows. -/
theorem Reads.inside (h : f.Reads limit schema rest v w) (hc : ¬ f.CutShort limit schema) :
    ∃ k ≤ f.payload.length, w.bytes = f.payload.drop k ++ rest ∧
      ∀ rest', f.Reads limit schema rest' v ⟨f.payload.drop k ++ rest',w.left⟩ := by
  obtain ⟨ds,hread,hall⟩ := h
  obtain ⟨bs,hbytes,_,_,hlocal⟩ := schema.read_takes _ _ _ _ hread
  rcases List.append_eq_append_iff.mp hbytes with ⟨more,rfl,hrest⟩ | ⟨left,hpayload,hw⟩
  · by_cases hmore : more = []
    · subst hmore
      refine ⟨f.payload.length,Nat.le_refl _,by simpa using hrest.symm,fun rest' => ⟨ds,?_,hall⟩⟩
      simpa using hlocal rest'
    · exact absurd ⟨more,ds,v,w.left,hmore,by simpa using hlocal [],hall⟩ hc
  · refine ⟨bs.length,by simp [hpayload],by simp [hpayload,hw],fun rest' => ⟨ds,?_,hall⟩⟩
    simpa [hpayload] using hlocal (left ++ rest')

private theorem same_of_reads {d' : Decoder} {rest' : List UInt8} (h : f.Ahead d rest) (h' : f.Ahead d' rest')
    (ht : f.type = type) (hc : ¬ f.CutShort limit schema) :
    Same (readPacket limit typed type schema d) (readPacket limit typed type schema d') := by
  rcases hr : readPacket limit typed type schema d with ⟨e | v,d₁⟩
  · rcases hr' : readPacket limit typed type schema d' with ⟨e' | v',d₂⟩
    · exact .inr ⟨e,e',rfl,rfl⟩
    · obtain ⟨_,_,_,hw⟩ := (h'.reads ht hr').inside hc
      obtain ⟨d₃,hok,_⟩ := (hw rest).read h ht
      rw [hr] at hok
      cases hok
  · obtain ⟨_,_,_,hw⟩ := (h.reads ht hr).inside hc
    obtain ⟨d₂,hok,_⟩ := (hw rest').read h' ht
    exact .inl ⟨v,rfl,by rw [hok]⟩

/-- Decoding is confined to a frame exactly when the frame is not cut short. -/
theorem readPacket_confined_iff (limit : Schema → Nat) (type : UInt8) (schema : Schema) (f : PacketFrame typed) :
    f.Confined limit type schema ↔ (f.type = type → ¬ f.CutShort limit schema) := by
  constructor
  · rintro h ht ⟨more,ds,v,left,hne,hread,hall⟩
    have ha : f.Ahead { buffer := f.head ++ (f.payload ++ more) } more :=
      ⟨Int.le_refl 0,by simp [Decoder.unread]⟩
    obtain ⟨e,hok,hw⟩ := Reads.read ⟨ds,hread,hall⟩ ha ht
    obtain ⟨k,_,hk⟩ := (h _ _ _ _ ha ha).2 v e hok
    have hnil : e.unread = [] := congrArg Wire.bytes hw
    rw [hnil] at hk
    exact hne (List.append_eq_nil_iff.mp hk.symm).2
  · intro hc d d' rest rest' h h'
    by_cases ht : f.type = type
    · refine ⟨same_of_reads h h' ht (hc ht),fun v e hr => ?_⟩
      obtain ⟨k,hk,hbytes,_⟩ := (h.reads ht hr).inside (hc ht)
      exact ⟨k,hk,hbytes⟩
    · refine ⟨.inr ⟨_,_,h.mismatch ht,h'.mismatch ht⟩,fun v e hr => ?_⟩
      have hm : (readPacket limit typed type schema d).1 = .error (.error .unexpectedPacket) := h.mismatch ht
      rw [hr] at hm
      cases hm

end PacketFrame

/-- A `Query` whose text has no terminator, before a `Sync` or a `Terminate`. -/
def openQuery (following : UInt8) : Decoder :=
  { buffer := [0x51, 0, 0, 0, 10, 0x53, 0x45, 0x4C, 0x45, 0x43, 0x54, following, 0, 0, 0, 4] }

/-- The text of the query goes on with the type of the next packet and ends inside its length. -/
theorem openQuery_unconfined :
    (readPacket (fun _ => 0x1000000) true 0x51 (.basic .string) (openQuery 0x53)).1 =
      .ok (.str [0x53, 0x45, 0x4C, 0x45, 0x43, 0x54, 0x53]) ∧
    (readPacket (fun _ => 0x1000000) true 0x51 (.basic .string) (openQuery 0x58)).1 =
      .ok (.str [0x53, 0x45, 0x4C, 0x45, 0x43, 0x54, 0x58]) ∧
    (readPacket (fun _ => 0x1000000) true 0x51 (.basic .string) (openQuery 0x58)).2.packetPos = 8 ∧
    (readPacket (fun _ => 0x1000000) true 0x51 (.basic .string) (openQuery 0x58)).2.packetLength = 6 :=
  ⟨rfl,rfl,rfl,rfl⟩

end Pggat.Fed
