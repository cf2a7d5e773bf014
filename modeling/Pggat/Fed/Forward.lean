import Pggat.Fed.Relay
import Pggat.Fed.Unread

/-! The decoder as the source of packets that are relayed. -/
namespace Pggat.Fed
namespace Decoder

/-- `Read`: up to `n` bytes of what is left of the packet. -/
def readRest (d : Decoder) (n : Nat) : Except Failure (List UInt8 × Option Error) × Decoder :=
  let rem := d.packetLength - d.packetPos
  if rem = 0 then (.ok ([],some .eof),d) else
  let (bs,e,d) := d.read (min n rem.toNat)
  (.ok (bs,e),{ d with packetPos := d.packetPos + bs.length })

private theorem read_rounds (d : Decoder) (n : Nat) : (d.read n).2.2.rounds ≤ d.rounds := by
  unfold read refill rounds
  by_cases hb : d.buffer = []
  · rw [if_pos hb]
    cases hr : d.reads with
    | nil => simp [hb,hr]
    | cons c cs =>
      simp only [hb,List.length_cons]
      split <;> simp
  · rw [if_neg hb]
    simp only [if_neg hb]
    split <;> simp

instance : Source Decoder where
  packetType := packetType
  packetLength := packetLength
  packetPos := packetPos
  readRest := readRest
  bytes := unread
  turns d := d.rounds + d.unread.length
  Wf _ := True
  readRest_spec := by
    intro d n _ hn within
    by_cases hrem : d.packetLength - d.packetPos = 0
    · exact ⟨[],some .eof,d,if_pos hrem,trivial,Nat.zero_le _,rfl,rfl,(Int.add_zero _).symm,within,
        fun _ => .inl ⟨by omega,rfl⟩,fun h => absurd rfl h⟩
    have hrounds := read_rounds d (min n (d.packetLength - d.packetPos).toNat)
    rcases read_spec d (min n (d.packetLength - d.packetPos).toNat) with ⟨bs,d',hr,hu,hlen,hs,hprog⟩ | ⟨hr,hu⟩
    · have length : d'.packetLength = d.packetLength := hs.packetLength
      have pos : d'.packetPos = d.packetPos := hs.packetPos
      replace hrounds : d'.rounds ≤ d.rounds := by rwa [hr] at hrounds
      refine ⟨bs,none,{ d' with packetPos := d'.packetPos + bs.length },?_,trivial,by omega,hu.symm,length,
        congrArg (· + _) pos,?_,?_⟩
      · simp only [readRest,if_neg hrem,hr]
      · show d'.packetPos + bs.length ≤ d'.packetLength
        omega
      · have total : bs.length + d'.unread.length = d.unread.length := by rw [← hu,List.length_append]
        show d'.rounds + d'.unread.length < d.rounds + d.unread.length
        rcases hprog with all | less <;> omega
    · refine ⟨[],some d.stop,d,?_,trivial,Nat.zero_le _,rfl,rfl,(Int.add_zero _).symm,within,
        fun _ => .inr ⟨by omega,hu⟩,fun h => absurd rfl h⟩
      simp only [readRest,if_neg hrem,hr,List.length_nil,Int.natCast_zero,Int.add_zero]

end Decoder
end Pggat.Fed
