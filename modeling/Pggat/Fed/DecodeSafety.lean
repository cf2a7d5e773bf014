import Pggat.Fed.Refine

/-! Which byte streams a packet decoder survives. -/
namespace Pggat.Fed
open Pggat.Base

def Returns {α : Type} (r : Except Failure α × Decoder) : Prop :=
  (∃ a, r.1 = .ok a) ∨ ∃ e, r.1 = .error (.error e)

/-- The demands that the payload of the upcoming packet makes when its type is the expected one. -/
def packetDemands (typed : Bool) (type : UInt8) (schema : Schema) (d : Decoder) : List Demand :=
  match d.upcoming typed with
  | some (t,length,bytes) => if t = type then (schema.read ⟨bytes,length⟩).1 else []
  | none => []

theorem Agrees.returns_iff {limit : Schema → Nat} {α : Type} {read : List Demand × Option (α × Wire)}
    {res : Except Failure α × Decoder} (h : Agrees limit read res) :
    Returns res ↔ ∀ x ∈ read.1, x.Met limit := by
  obtain ⟨hmet,hunmet⟩ := h
  constructor
  · intro hr x hx
    by_contra hn
    obtain ⟨d,rfl | rfl⟩ := hunmet ⟨x,hx,hn⟩ <;> simp [Returns] at hr
  · intro hall
    have hres := hmet hall
    rcases hread : read.2 with _ | ⟨a,w⟩
    · rw [hread] at hres
      obtain ⟨e,d,rfl⟩ := hres
      exact .inr ⟨e,rfl⟩
    · rw [hread] at hres
      obtain ⟨d,rfl,_⟩ := hres
      exact .inl ⟨a,rfl⟩

/-- Decoding a packet returns exactly when every slice length that the bytes carry can be allocated and
no element of a slice up to the end of the packet is empty. -/
theorem readPacket_returns_iff (limit : Schema → Nat) (typed : Bool) (type : UInt8) (schema : Schema) (d : Decoder) :
    Returns (readPacket limit typed type schema d) ↔ ∀ x ∈ packetDemands typed type schema d, x.Met limit := by
  have hnext := Decoder.next_spec typed d
  rw [readPacket,packetDemands]
  rcases hu : d.upcoming typed with _ | ⟨t,length,bytes⟩
  · rw [hu] at hnext
    obtain ⟨e,d',hn,-⟩ := hnext
    rw [hn]
    simp [Returns]
  · rw [hu] at hnext
    obtain ⟨d',hn,hbytes,htype,hlength,hpos⟩ := hnext
    rw [hn]
    by_cases ht : t = type
    · have hw : d'.wire = ⟨bytes,length⟩ := by simp [Decoder.wire,hbytes,hlength,hpos]
      have hd := (decode_simulates schema d' : Agrees limit _ _).returns_iff
      rw [hw] at hd
      simpa [htype,ht] using hd
    · simp [htype,ht,Returns]

/-- `SASLInitialResponse` of `protocol.yaml`. -/
def saslInitialResponse : Schema := .struct (.cons (.basic .string)
  (.cons (.nullableLengthPrefixedSlice .int32 (.basic (.int .uint8))) .nil))

/-- A response of length -2 makes the decoder allocate a slice of negative length. -/
theorem saslInitialResponse_panics :
    (readPacket (fun _ => 2 ^ 48) true 0x70 saslInitialResponse
      { reads := [⟨[0x70, 0, 0, 0, 9, 0, 0xFF, 0xFF, 0xFF, 0xFE],by decide⟩] }).1 = .error .panic := by
  rfl

end Pggat.Fed
