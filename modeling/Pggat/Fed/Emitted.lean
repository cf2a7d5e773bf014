import Pggat.Fed.Encoder

/-! What the encoder's operations add to the bytes it emits, whatever its buffer holds. -/
namespace Pggat.Fed
open Pggat.Base
namespace Encoder

def emitted (e : Encoder) : List UInt8 := e.out ++ e.buffer

/-- The connection takes writes and the buffer is within its size. -/
structure Open (e : Encoder) : Prop where
  works : e.broken = false
  fits : e.buffer.length ≤ defaultBufferSize

/-- `e'` has emitted `bs` more than `e` and is `k` bytes further in the same packet. -/
structure Added (e e' : Encoder) (bs : List UInt8) (k : Nat) : Prop extends Open e' where
  emitted : e'.emitted = e.emitted ++ bs
  packetType : e'.packetType = e.packetType
  packetLength : e'.packetLength = e.packetLength
  packetPos : e'.packetPos = e.packetPos + k

/-- On a working connection the computation adds `bs` and moves the position by `k`. -/
def Adds (m : EncodeM Unit) (bs : List UInt8) (k : Nat) : Prop :=
  ∀ e : Encoder, e.Open → ∃ e', m e = (.ok (),e') ∧ e.Added e' bs k

namespace Adds

theorem pure : Adds (Pure.pure ()) [] 0 := by
  intro e he
  exact ⟨e,rfl,{ he with emitted := by simp, packetType := rfl, packetLength := rfl, packetPos := by simp }⟩

theorem bind {m : EncodeM Unit} {f : Unit → EncodeM Unit} {bs bs' : List UInt8} {k k' : Nat} (h : Adds m bs k)
    (h' : Adds (f ()) bs' k') : Adds (m >>= f) (bs ++ bs') (k + k') := by
  intro e he
  obtain ⟨e',hm,ha⟩ := h e he
  obtain ⟨e'',hm',ha'⟩ := h' e' ha.toOpen
  refine ⟨e'',(Action.bind_ok hm).trans hm',ha'.toOpen,?_,?_,?_,?_⟩
  · rw [ha'.emitted,ha.emitted,List.append_assoc]
  · rw [ha'.packetType,ha.packetType]
  · rw [ha'.packetLength,ha.packetLength]
  · rw [ha'.packetPos,ha.packetPos]
    push_cast
    omega

theorem flush : Adds Encoder.flush [] 0 := by
  intro e he
  unfold Encoder.flush
  by_cases hb : e.buffer = []
  · rw [if_pos hb]
    exact ⟨e,rfl,{ he with emitted := by simp, packetType := rfl, packetLength := rfl, packetPos := by simp }⟩
  · rw [if_neg hb,if_neg (by simp [he.works])]
    exact ⟨_,rfl,⟨he.works,by simp⟩,by simp [Encoder.emitted],rfl,rfl,by simp⟩

theorem flush_buffer {e e' : Encoder} (he : e.Open) (h : Encoder.flush e = (.ok (),e')) : e'.buffer = [] := by
  unfold Encoder.flush at h
  split at h
  · rename_i hb
    cases h
    exact hb
  · rw [if_neg (by simp [he.works])] at h
    cases h
    rfl

theorem advance (n : Nat) : Adds (Encoder.advance n) [] n := by
  intro e he
  exact ⟨_,rfl,⟨he.works,he.fits⟩,by simp [Encoder.emitted],rfl,rfl,rfl⟩

theorem reserve_put {bs : List UInt8} (h : bs.length ≤ defaultBufferSize) :
    Adds (do reserve bs.length; put bs) bs 0 := by
  intro e he
  have hroom : ∃ e', reserve bs.length e = (.ok (),e') ∧ e.Added e' [] 0 ∧
      e'.buffer.length + bs.length ≤ defaultBufferSize := by
    unfold reserve
    by_cases hf : e.buffer.length + bs.length > defaultBufferSize
    · rw [if_pos hf]
      obtain ⟨e',hm,ha⟩ := flush e he
      refine ⟨e',hm,ha,?_⟩
      simpa [flush_buffer he hm] using h
    · rw [if_neg hf]
      exact ⟨e,rfl,{ he with emitted := by simp, packetType := rfl, packetLength := rfl, packetPos := by simp },by omega⟩
  obtain ⟨e',hm,ha,hroom⟩ := hroom
  refine ⟨_,Action.bind_ok hm,⟨ha.works,by simpa using hroom⟩,?_,ha.packetType,ha.packetLength,by simpa using ha.packetPos⟩
  have := ha.emitted
  simp only [Encoder.emitted,List.append_nil] at this ⊢
  rw [← List.append_assoc,this]

theorem writeByte (b : UInt8) : Adds (Encoder.writeByte b) [b] 0 := by
  exact reserve_put (show [b].length ≤ defaultBufferSize by simp [defaultBufferSize])

theorem uint {w : Nat} (hw : 0 < w ∧ w ≤ 8) (v : Nat) : Adds (Encoder.uint w v) (beBytes w v) w := by
  unfold Encoder.uint
  split
  · rename_i h1
    subst h1
    intro e he
    obtain ⟨e',hm,ha⟩ := writeByte (UInt8.ofNat v) e he
    refine ⟨{ e' with packetPos := e'.packetPos + 1 },by simp [uint8,hm],⟨ha.works,ha.fits⟩,?_,ha.packetType,
      ha.packetLength,?_⟩
    · simpa [Encoder.emitted,beBytes] using ha.emitted
    · simp [ha.packetPos]
  · have hlen : (beBytes w v).length = w := length_beBytes w v
    have hput := reserve_put (show (beBytes w v).length ≤ defaultBufferSize by
      rw [hlen]
      simp only [defaultBufferSize]
      omega)
    have h := hput.bind (f := fun _ => Encoder.advance w) (advance w)
    rw [hlen,Action.bind_assoc,List.append_nil,Nat.zero_add] at h
    exact h

/-- After a turn the buffer is not full, and it copied a byte unless it was full before. -/
theorem stringTurn (v : List UInt8) (hv : v ≠ []) {e : Encoder} (he : e.Open) :
    ∃ n e', Encoder.stringTurn v e = (.ok (v.drop n),e') ∧ e.Added e' (v.take n) n ∧ n ≤ v.length ∧
      e'.buffer.length < defaultBufferSize ∧ (n = 0 → e.buffer.length = defaultBufferSize) := by
  have hpos : 0 < v.length := List.length_pos_iff.mpr hv
  have hfits := he.fits
  let n := min (defaultBufferSize - e.buffer.length) v.length
  have hcopied : e.Added { e with buffer := e.buffer ++ v.take n, packetPos := e.packetPos + n } (v.take n) n := by
    refine ⟨⟨he.works,?_⟩,by simp [Encoder.emitted],rfl,rfl,rfl⟩
    simp only [List.length_append,List.length_take]
    omega
  refine ⟨n,?_⟩
  unfold Encoder.stringTurn
  by_cases hfull : (e.buffer ++ v.take n).length ≥ defaultBufferSize
  · obtain ⟨e',hm,ha⟩ := flush _ hcopied.toOpen
    have hempty := flush_buffer hcopied.toOpen hm
    refine ⟨e',?_,?_,by omega,by simp [hempty,defaultBufferSize],by omega⟩
    · simp only [n] at hfull hm
      simp only [if_pos hfull,hm]
      rfl
    · refine ⟨ha.toOpen,?_,ha.packetType,ha.packetLength,?_⟩
      · rw [ha.emitted,hcopied.emitted,List.append_nil]
      · rw [ha.packetPos,hcopied.packetPos]
        simp
  · refine ⟨_,?_,hcopied,by omega,by simpa using hfull,by omega⟩
    simp only [n] at hfull
    simp only [if_neg hfull,n]

private theorem stringLoop (fuel : Nat) (v : List UInt8) {e : Encoder} (he : e.Open)
    (hf : v.length + (if e.buffer.length = defaultBufferSize then 1 else 0) ≤ fuel) :
    ∃ e', Encoder.stringLoop fuel v e = (.ok (),e') ∧ e.Added e' v v.length := by
  induction fuel generalizing v e with
  | zero =>
    have hv : v = [] := List.length_eq_zero_iff.mp (by omega)
    subst hv
    exact pure e he
  | succ fuel ih =>
    cases v with
    | nil => exact pure e he
    | cons b t =>
      obtain ⟨n,e',hm,ha,hn,hroom,hzero⟩ := stringTurn (b :: t) (by simp) he
      have hfuel : ((b :: t).drop n).length + (if e'.buffer.length = defaultBufferSize then 1 else 0) ≤ fuel := by
        rw [if_neg (by omega),List.length_drop]
        split at hf <;> omega
      obtain ⟨e'',hm',ha'⟩ := ih _ ha.toOpen hfuel
      refine ⟨e'',(Action.bind_ok hm).trans hm',ha'.toOpen,?_,?_,?_,?_⟩
      · rw [ha'.emitted,ha.emitted,List.append_assoc,List.take_append_drop]
      · rw [ha'.packetType,ha.packetType]
      · rw [ha'.packetLength,ha.packetLength]
      · rw [ha'.packetPos,ha.packetPos,List.length_drop]
        omega

theorem string (v : List UInt8) : Adds (Encoder.string v) (v ++ [0]) (v.length + 1) := by
  have hloop : Adds (Encoder.stringLoop (v.length + 1) v) v v.length := fun e he =>
    stringLoop _ v he (by split <;> omega)
  have hend := (writeByte 0).bind (f := fun _ => Encoder.advance 1) (advance 1)
  exact hloop.bind hend

end Adds

def headerBytes (type : UInt8) (length : Int) : List UInt8 :=
  (if type ≠ 0 then [type] else []) ++ beBytes 4 ((length + 4) % 256 ^ 4).toNat

theorem next_spec (type : UInt8) (length : Int) {e : Encoder} (he : e.Open) (hb : e.packetPos = e.packetLength) :
    ∃ e', next type length e = (.ok (),e') ∧ e'.Open ∧ e'.emitted = e.emitted ++ headerBytes type length ∧
      e'.packetType = type ∧ e'.packetLength = length ∧ e'.packetPos = 0 := by
  have htype : Adds (writeType type) (if type ≠ 0 then [type] else []) 0 := by
    unfold writeType
    split
    · exact .writeByte type
    · exact .pure
  have hlength : Adds (writeLength length) (beBytes 4 ((length + 4) % 256 ^ 4).toNat) 0 := by
    have hfits : (beBytes 4 ((length + 4) % 256 ^ 4).toNat).length ≤ defaultBufferSize := by simp [defaultBufferSize]
    simpa [writeLength] using Adds.reserve_put hfits
  obtain ⟨e₁,hm₁,ha₁⟩ := htype e he
  obtain ⟨e₂,hm₂,ha₂⟩ := hlength e₁ ha₁.toOpen
  refine ⟨{ e₂ with packetType := type, packetLength := length, packetPos := 0 },?_,⟨ha₂.works,ha₂.fits⟩,?_,rfl,rfl,rfl⟩
  · rw [next,if_neg (by simp [hb]),Action.bind_ok hm₁,Action.bind_ok hm₂,startPacket]
  · have hemit := ha₂.emitted
    rw [ha₁.emitted,List.append_assoc] at hemit
    exact hemit

end Encoder
end Pggat.Fed
