import Pggat.Fed.Decoder
import Pggat.Fed.Emitted

/-! A packet that is relayed while it is being read: the encoder of one connection takes the payload from the decoder of
another. -/
namespace Pggat.Fed
open Pggat.Base

/-- A decoder that packets come from. `readRest` is its `Read`, of up to `n` bytes of what is left of the packet. `bytes`
are those that it still gives, and `turns` bounds the reads that go on. -/
class Source (δ : Type) where
  packetType : δ → UInt8
  packetLength : δ → Int
  packetPos : δ → Int
  readRest : δ → Nat → Except Failure (List UInt8 × Option Error) × δ
  bytes : δ → List UInt8
  turns : δ → Nat
  Wf : δ → Prop
  readRest_spec : ∀ {d : δ} {n : Nat}, Wf d → 0 < n → packetPos d ≤ packetLength d →
    ∃ bs e d', readRest d n = (.ok (bs,e),d') ∧ Wf d' ∧ bs.length ≤ n ∧ bytes d = bs ++ bytes d' ∧
      packetLength d' = packetLength d ∧ packetPos d' = packetPos d + bs.length ∧ packetPos d' ≤ packetLength d' ∧
      match e with
      | none => turns d' < turns d
      | some e => (bs = [] → packetPos d = packetLength d ∧ e = .eof ∨
          packetPos d < packetLength d ∧ bytes d' = []) ∧ (bs ≠ [] → e = .eof)

structure Relay (δ : Type) where
  encoder : Encoder
  decoder : δ

abbrev RelayM (δ : Type) := Action Failure (Relay δ)

namespace Relay
open Source
variable {δ : Type}

/-- The bytes that `ReadFrom` has copied count when it returns. -/
def copied (p : Relay δ) (n : Nat) : Relay δ :=
  { p with encoder := { p.encoder with packetPos := p.encoder.packetPos + n } }

def flush : RelayM δ Unit := fun p =>
  let (r,e) := p.encoder.flush
  (r,{ p with encoder := e })

def makeRoom : RelayM δ Unit := fun p =>
  if p.encoder.buffer.length ≥ defaultBufferSize then flush p else (.ok (),p)

def received (p : Relay δ) (bs : List UInt8) (d : δ) : Relay δ :=
  ⟨{ p.encoder with buffer := p.encoder.buffer ++ bs },d⟩

variable [Source δ]

def readFromLoop : (fuel n : Nat) → RelayM δ Unit
  | 0, _ => Action.throw .hang
  | fuel+1, n => fun p =>
    match p.makeRoom with
    | (.error f,p) => (.error f,p.copied n)
    | (.ok _,p) =>
      match readRest p.decoder (defaultBufferSize - p.encoder.buffer.length) with
      | (.error f,d) => (.error f,{ p with decoder := d })
      | (.ok (bs,none),d) => readFromLoop fuel (n + bs.length) (p.received bs d)
      | (.ok (bs,some .eof),d) =>
        (if n + bs.length = 0 then .error (.error .unexpectedEOF) else .ok (),
          (p.received bs d).copied (n + bs.length))
      | (.ok (bs,some e),d) => (.error (.error e),(p.received bs d).copied (n + bs.length))

def readFrom : RelayM δ Unit := fun p => readFromLoop (turns p.decoder + 1) 0 p

def writeToLoop : (fuel : Nat) → RelayM δ Unit
  | 0 => Action.throw .hang
  | fuel+1 => fun p =>
    if packetPos p.decoder < packetLength p.decoder then
      match p.readFrom with
      | (.error f,p) => (.error f,p)
      | (.ok _,p) => writeToLoop fuel p
    else (.ok (),p)

/-- `WriteTo` of a pending packet. Every turn that goes on has copied a byte. -/
def writeTo : RelayM δ Unit := fun p => writeToLoop ((bytes p.decoder).length + 1) p

/-- `WritePacket` of a pending packet. -/
def writePacket : RelayM δ Unit := fun p =>
  match p.encoder.next (packetType p.decoder) (packetLength p.decoder) with
  | (.error f,e) => (.error f,{ p with encoder := e })
  | (.ok _,e) => writeTo { p with encoder := e }

/-- `WritePacket` and `Flush`. -/
def relay : RelayM δ Unit := do
  writePacket
  flush

/-- `q` has moved `bs` from the source of `p` to its destination, where `n` bytes are not counted yet. -/
structure Moved (p q : Relay δ) (bs : List UInt8) (n : Nat) : Prop extends q.encoder.Open where
  wf : Wf q.decoder
  emitted : q.encoder.emitted = p.encoder.emitted ++ bs
  packetLength : q.encoder.packetLength = p.encoder.packetLength
  packetPos : q.encoder.packetPos + n = p.encoder.packetPos + bs.length
  bytes : bytes p.decoder = bs ++ bytes q.decoder
  sourceLength : Source.packetLength q.decoder = Source.packetLength p.decoder
  sourcePos : Source.packetPos q.decoder = Source.packetPos p.decoder + bs.length

namespace Moved
variable {p q r : Relay δ} {bs bs' : List UInt8} {n m : Nat}

theorem refl (h : p.encoder.Open) (wf : Wf p.decoder) : Moved p p [] 0 where
  toOpen := h
  wf := wf
  emitted := (List.append_nil _).symm
  packetLength := rfl
  packetPos := rfl
  bytes := rfl
  sourceLength := rfl
  sourcePos := (Int.add_zero _).symm

theorem trans (h : Moved p q bs n) (h' : Moved q r bs' m) : Moved p r (bs ++ bs') (n + m) where
  toOpen := h'.toOpen
  wf := h'.wf
  emitted := by rw [h'.emitted,h.emitted,List.append_assoc]
  packetLength := h'.packetLength.trans h.packetLength
  packetPos := by
    have := h.packetPos
    have := h'.packetPos
    rw [List.length_append]
    omega
  bytes := by rw [h.bytes,h'.bytes,List.append_assoc]
  sourceLength := h'.sourceLength.trans h.sourceLength
  sourcePos := by rw [h'.sourcePos,h.sourcePos,List.length_append,Int.natCast_add,Int.add_assoc]

theorem length (h : Moved p q bs n) :
    (Source.bytes p.decoder).length = bs.length + (Source.bytes q.decoder).length := by
  rw [h.bytes,List.length_append]

theorem copied (h : Moved p q bs n) : Moved p (q.copied n) bs 0 where
  toOpen := ⟨h.works,h.fits⟩
  wf := h.wf
  emitted := h.emitted
  packetLength := h.packetLength
  packetPos := by
    have := h.packetPos
    show q.encoder.packetPos + n + (0 : Nat) = p.encoder.packetPos + bs.length
    omega
  bytes := h.bytes
  sourceLength := h.sourceLength
  sourcePos := h.sourcePos

end Moved

variable {p : Relay δ}

theorem flush_moved (h : p.encoder.Open) (wf : Wf p.decoder) :
    ∃ q, flush p = (.ok (),q) ∧ Moved p q [] 0 ∧ q.decoder = p.decoder ∧ q.encoder.buffer = [] := by
  obtain ⟨e,done,added⟩ := Encoder.Adds.flush p.encoder h
  refine ⟨{ p with encoder := e },by simp only [flush,done],?_,rfl,Encoder.Adds.flush_buffer h done⟩
  exact ⟨added.toOpen,wf,added.emitted,added.packetLength,by simpa using added.packetPos,rfl,rfl,(Int.add_zero _).symm⟩

private theorem makeRoom_moved (h : p.encoder.Open) (wf : Wf p.decoder) :
    ∃ q, makeRoom p = (.ok (),q) ∧ Moved p q [] 0 ∧ q.decoder = p.decoder ∧
      q.encoder.buffer.length < defaultBufferSize := by
  rw [makeRoom]
  split
  · obtain ⟨q,done,moved,same,empty⟩ := flush_moved h wf
    exact ⟨q,done,moved,same,by rw [empty]; decide⟩
  · rename_i room
    exact ⟨p,rfl,.refl h wf,rfl,by omega⟩

private theorem received_moved (h : p.encoder.Open) {bs : List UInt8} {d : δ} (wf : Wf d)
    (room : bs.length ≤ defaultBufferSize - p.encoder.buffer.length)
    (arrived : bytes p.decoder = bs ++ bytes d) (length : packetLength d = packetLength p.decoder)
    (pos : packetPos d = packetPos p.decoder + bs.length) : Moved p (p.received bs d) bs bs.length where
  works := h.works
  fits := by
    have := h.fits
    show (p.encoder.buffer ++ bs).length ≤ defaultBufferSize
    rw [List.length_append]
    omega
  wf := wf
  emitted := (List.append_assoc ..).symm
  packetLength := rfl
  packetPos := rfl
  bytes := arrived
  sourceLength := length
  sourcePos := pos

/-- A call of `ReadFrom` on a packet that has not ended copies some of it, or fails at the end of the source. -/
private theorem readFromLoop_spec (fuel n : Nat) (h : p.encoder.Open) (wf : Wf p.decoder)
    (within : packetPos p.decoder ≤ packetLength p.decoder) (enough : turns p.decoder < fuel)
    (left : n = 0 → packetPos p.decoder < packetLength p.decoder) :
    ∃ bs q, Moved p q bs bs.length ∧ packetPos q.decoder ≤ packetLength q.decoder ∧
      (readFromLoop fuel n p = (.ok (),q.copied (n + bs.length)) ∧ 0 < n + bs.length ∨
        (∃ e, readFromLoop fuel n p = (.error (.error e),q.copied (n + bs.length))) ∧
          packetPos q.decoder < packetLength q.decoder ∧ bytes q.decoder = []) := by
  induction fuel generalizing n p with
  | zero => exact absurd enough (Nat.not_lt_zero _)
  | succ fuel ih =>
    obtain ⟨p₁,made,moved₁,same,room⟩ := makeRoom_moved h wf
    obtain ⟨bs,e,d,read,wf₂,fits,arrived,length,pos,within₂,ends⟩ :=
      readRest_spec moved₁.wf (show 0 < defaultBufferSize - p₁.encoder.buffer.length by omega) (by rw [same]; exact within)
    have moved₂ := moved₁.trans (received_moved moved₁.toOpen wf₂ fits arrived length pos)
    rw [List.nil_append,Nat.zero_add] at moved₂
    rw [readFromLoop]
    simp only [made,read]
    cases e with
    | none =>
      rw [same] at ends
      obtain ⟨bs',q,moved₃,within₃,result⟩ := ih (n + bs.length) moved₂.toOpen wf₂ within₂
        (show turns d < fuel by omega) fun zero => by
          show packetPos d < packetLength d
          rw [pos,length,same,show bs.length = 0 by omega]
          simpa using left (by omega)
      refine ⟨bs ++ bs',q,?_,within₃,?_⟩
      · have moved := moved₂.trans moved₃
        rwa [← List.length_append] at moved
      · rw [List.length_append,← Nat.add_assoc]
        exact result
    | some e =>
      refine ⟨bs,p₁.received bs d,moved₂,within₂,?_⟩
      by_cases eof : e = .eof
      · subst eof
        by_cases zero : n + bs.length = 0
        · have nil : bs = [] := List.length_eq_zero_iff.mp (by omega)
          have before := left (by omega)
          rw [← same] at before
          refine .inr ⟨⟨_,by simp only [if_pos zero]; rfl⟩,?_,?_⟩
          · rw [moved₂.sourceLength,moved₂.sourcePos,nil,← same]
            simpa using before
          · exact ((ends.1 nil).resolve_left fun h => absurd h.1 (by omega)).2
        · exact .inl ⟨by simp only [if_neg zero],by omega⟩
      · have nil : bs = [] := by_contra fun some => eof (ends.2 some)
        obtain ⟨before,none⟩ := (ends.1 nil).resolve_left fun h => eof h.2
        refine .inr ⟨⟨e,by cases e <;> first | exact absurd rfl eof | rfl⟩,?_,none⟩
        show packetPos d < packetLength d
        rw [pos,length,nil]
        simpa using before

/-- `WriteTo` ends at the end of the packet, or with an error where the source ends before. -/
private theorem writeToLoop_spec (fuel : Nat) (h : p.encoder.Open) (wf : Wf p.decoder)
    (within : packetPos p.decoder ≤ packetLength p.decoder) (enough : (bytes p.decoder).length < fuel) :
    ∃ bs q, Moved p q bs 0 ∧
      (writeToLoop fuel p = (.ok (),q) ∧ packetPos q.decoder = packetLength q.decoder ∨
        (∃ e, writeToLoop fuel p = (.error (.error e),q)) ∧
          packetPos q.decoder < packetLength q.decoder ∧ bytes q.decoder = []) := by
  induction fuel generalizing p with
  | zero => exact absurd enough (Nat.not_lt_zero _)
  | succ fuel ih =>
    rw [writeToLoop]
    by_cases left : packetPos p.decoder < packetLength p.decoder
    · obtain ⟨bs,q,moved,within',result⟩ :=
        readFromLoop_spec (turns p.decoder + 1) 0 h wf within (Nat.lt_succ_self _) fun _ => left
      rw [Nat.zero_add] at result
      simp only [if_pos left,readFrom]
      rcases result with ⟨done,some⟩ | ⟨⟨e,done⟩,before,none⟩
      · have shorter : (bytes (q.copied bs.length).decoder).length < fuel := by
          have total := moved.copied.length
          omega
        obtain ⟨bs',r,moved',result⟩ := ih moved.copied.toOpen moved.copied.wf within' shorter
        refine ⟨bs ++ bs',r,moved.copied.trans moved',?_⟩
        simp only [done]
        exact result
      · exact ⟨bs,q.copied bs.length,moved.copied,.inr ⟨⟨e,by simp only [done]⟩,before,none⟩⟩
    · exact ⟨[],p,.refl h wf,.inl ⟨by simp only [if_neg left],by omega⟩⟩

variable {k : Nat}

/-- `WriteTo` moves what is left of a packet if it has arrived, and fails if it has not. -/
theorem writeTo_spec (h : p.encoder.Open) (wf : Wf p.decoder)
    (left : packetLength p.decoder - packetPos p.decoder = k) :
    (k ≤ (bytes p.decoder).length → ∃ q, writeTo p = (.ok (),q) ∧ Moved p q ((bytes p.decoder).take k) 0) ∧
    ((bytes p.decoder).length < k → ∃ e q, writeTo p = (.error (.error e),q)) := by
  obtain ⟨bs,q,moved,result⟩ :=
    writeToLoop_spec ((bytes p.decoder).length + 1) h wf (by omega) (Nat.lt_succ_self _)
  have total := moved.length
  have reached := moved.sourcePos
  have length := moved.sourceLength
  rcases result with ⟨done,ended⟩ | ⟨⟨e,done⟩,before,none⟩
  · have whole : bs.length = k := by omega
    refine ⟨fun _ => ⟨q,done,?_⟩,fun short => absurd short (by omega)⟩
    rwa [moved.bytes,List.take_left' whole]
  · rw [none,List.length_nil] at total
    exact ⟨fun arrived => absurd arrived (by omega),fun _ => ⟨e,q,done⟩⟩

/-- `WritePacket` emits the header and then the payload, as far as there is one. -/
theorem writePacket_spec (works : p.encoder.Open) (wf : Wf p.decoder)
    (balanced : p.encoder.packetPos = p.encoder.packetLength) (start : packetPos p.decoder = 0)
    (length : packetLength p.decoder = k) :
    (k ≤ (bytes p.decoder).length → ∃ q, writePacket p = (.ok (),q) ∧ q.encoder.Open ∧ Wf q.decoder ∧
      q.encoder.packetPos = q.encoder.packetLength ∧ q.encoder.packetLength = k ∧
      q.encoder.emitted = p.encoder.emitted ++
        (Encoder.headerBytes (packetType p.decoder) k ++ (bytes p.decoder).take k) ∧
      bytes q.decoder = (bytes p.decoder).drop k ∧ packetPos q.decoder = packetLength q.decoder) ∧
    ((bytes p.decoder).length < k → ∃ e q, writePacket p = (.error (.error e),q)) := by
  obtain ⟨e,started,works',header,-,size,pos⟩ :=
    Encoder.next_spec (packetType p.decoder) (packetLength p.decoder) works balanced
  have written : writePacket p = writeTo { p with encoder := e } := by simp only [writePacket,started]
  obtain ⟨whole,short⟩ := writeTo_spec (p := { p with encoder := e }) works' wf
    (show packetLength p.decoder - packetPos p.decoder = k by omega)
  rw [written]
  refine ⟨fun arrived => ?_,short⟩
  obtain ⟨q,done,moved⟩ := whole arrived
  have taken : ((bytes p.decoder).take k).length = k := List.length_take_of_le arrived
  have counted : q.encoder.packetPos + (0 : Nat) = e.packetPos + ((bytes p.decoder).take k).length := moved.packetPos
  have announced : q.encoder.packetLength = k := (moved.packetLength.trans size).trans length
  have reached : packetPos q.decoder = packetPos p.decoder + ((bytes p.decoder).take k).length := moved.sourcePos
  have same : packetLength q.decoder = packetLength p.decoder := moved.sourceLength
  refine ⟨q,done,moved.toOpen,moved.wf,by omega,announced,?_,?_,by omega⟩
  · rw [moved.emitted,header,length,List.append_assoc]
  · have rest : bytes p.decoder = (bytes p.decoder).take k ++ bytes q.decoder := moved.bytes
    exact List.append_cancel_left (rest.symm.trans (List.take_append_drop k _).symm)

section
variable {R : δ → δ → Prop} (refl : ∀ d, R d d) (trans : ∀ {d d' d''}, R d d' → R d' d'' → R d d'')
  (read : ∀ d n, R d (readRest d n).2)
include refl trans read

private theorem readFromLoop_keeps (fuel n : Nat) (p : Relay δ) : R p.decoder (readFromLoop fuel n p).2.decoder := by
  induction fuel generalizing n p with
  | zero => exact refl _
  | succ fuel ih =>
    have same : p.makeRoom.2.decoder = p.decoder := by
      unfold makeRoom
      split <;> rfl
    rw [readFromLoop]
    rcases made : p.makeRoom with ⟨_ | _,p₁⟩ <;> rw [made] at same <;> rw [← same] <;> simp only [made]
    · exact refl _
    · have step := read p₁.decoder (defaultBufferSize - p₁.encoder.buffer.length)
      rcases done : readRest p₁.decoder (defaultBufferSize - p₁.encoder.buffer.length) with ⟨_ | ⟨bs,_ | e⟩,d⟩ <;>
        rw [done] at step
      · exact step
      · exact trans step (ih (n + bs.length) (p₁.received bs d))
      · cases e <;> exact step

/-- What each read keeps of the source, `WriteTo` keeps. -/
theorem writeTo_keeps (p : Relay δ) : R p.decoder (writeTo p).2.decoder := by
  have loop (fuel : Nat) (p : Relay δ) : R p.decoder (writeToLoop fuel p).2.decoder := by
    induction fuel generalizing p with
    | zero => exact refl _
    | succ fuel ih =>
      have step := readFromLoop_keeps refl trans read (turns p.decoder + 1) 0 p
      rw [writeToLoop]
      dsimp only
      split
      · rcases done : p.readFrom with ⟨_ | _,p₁⟩ <;> rw [readFrom] at done <;> rw [done] at step
        · exact step
        · exact trans step (ih p₁)
      · exact refl _
  exact loop _ p

end

end Relay
end Pggat.Fed
