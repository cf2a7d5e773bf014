import Pggat.Fed.Forward

/-! The decoder takes chunks off the front of what its reader delivers, and puts none back. -/
namespace Pggat.Fed
namespace Decoder

theorem refill_reads (d : Decoder) : d.refill.2.reads <:+ d.reads := by
  unfold refill
  cases hr : d.reads with
  | nil => simp [hr]
  | cons c cs => exact List.suffix_cons c cs

theorem read_reads (d : Decoder) (n : Nat) : (d.read n).2.2.reads <:+ d.reads := by
  unfold read
  split
  · exact refill_reads d
  · exact List.suffix_refl _

private theorem readFullLoop_reads (fuel want : Nat) (got : List UInt8) (d : Decoder) :
    (readFullLoop fuel want got d).2.reads <:+ d.reads := by
  induction fuel generalizing got d with
  | zero => exact List.suffix_refl _
  | succ fuel ih =>
    rw [readFullLoop]
    split
    · exact List.suffix_refl _
    · have hread := read_reads d (want - got.length)
      rcases hr : d.read (want - got.length) with ⟨bs,_ | e,d'⟩
      · rw [hr] at hread
        simp only [hr]
        exact (ih (got ++ bs) d').trans hread
      · rw [hr] at hread
        simp only [hr]
        exact hread

private theorem readFull_reads (want : Nat) (d : Decoder) : (readFull want d).2.reads <:+ d.reads :=
  readFullLoop_reads (d.reads.length + 3) want [] d

private theorem discardLoop_reads (fuel n : Nat) (d : Decoder) : (discardLoop fuel n d).2.reads <:+ d.reads := by
  induction fuel generalizing n d with
  | zero => exact List.suffix_refl _
  | succ fuel ih =>
    rw [discardLoop]
    split
    · exact List.suffix_refl _
    · dsimp only
      split
      · exact List.suffix_refl _
      · have hrefill := refill_reads { d with buffer := [] }
        rcases hr : refill { d with buffer := [] } with ⟨_ | e,d'⟩
        · rw [hr] at hrefill
          exact (ih _ d').trans hrefill
        · rw [hr] at hrefill
          exact hrefill

private theorem discard_reads (n : Nat) (d : Decoder) : (discard n d).2.reads <:+ d.reads :=
  discardLoop_reads (d.reads.length + 2) n d

theorem next_reads (typed : Bool) (d : Decoder) : (next typed d).2.reads <:+ d.reads := by
  unfold next
  dsimp only
  split
  · exact List.suffix_refl _
  · have hdiscard := discard_reads (d.packetLength - d.packetPos).toNat d
    rcases hd : discard (d.packetLength - d.packetPos).toNat d with ⟨_ | _,d₁⟩
    · rw [hd] at hdiscard
      exact hdiscard
    · rw [hd] at hdiscard
      have hfull := readFull_reads (if typed then 5 else 4) d₁
      simp only
      rcases hr : readFull (if typed then 5 else 4) d₁ with ⟨_ | _,d₂⟩
      · rw [hr] at hfull
        exact hfull.trans hdiscard
      · rw [hr] at hfull
        exact hfull.trans hdiscard

private theorem readRest_reads (d : Decoder) (n : Nat) : (d.readRest n).2.reads <:+ d.reads := by
  unfold readRest
  dsimp only
  split
  · exact List.suffix_refl _
  · exact read_reads d _

end Decoder

theorem writeTo_reads (p : Relay Decoder) : (Relay.writeTo p).2.decoder.reads <:+ p.decoder.reads := by
  refine Relay.writeTo_keeps (R := fun d d' : Decoder => d'.reads <:+ d.reads) (fun _ => List.suffix_refl _) ?_
    Decoder.readRest_reads p
  intro d d' d'' h h'
  exact List.IsSuffix.trans h' h

end Pggat.Fed
