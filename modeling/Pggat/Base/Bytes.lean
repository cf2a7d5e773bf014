import Mathlib.Data.List.Induction
import Mathlib.Tactic.Ring

/-! Fixed-width numbers as big-endian bytes. -/
namespace Pggat.Base

/-- The lowest `w` bytes of a number, most significant first. -/
def beBytes : Nat → Nat → List UInt8
  | 0, _ => []
  | w+1, n => beBytes w (n / 256) ++ [UInt8.ofNat n]

def beNat (bs : List UInt8) : Nat := bs.foldl (fun acc b => acc * 256 + b.toNat) 0

/-- The two's complement value of a number of `w` bytes. -/
def signed (w n : Nat) : Int := if 2 * n < 256 ^ w then n else (n : Int) - 256 ^ w

@[simp] theorem length_beBytes (w n : Nat) : (beBytes w n).length = w := by
  induction w generalizing n with
  | zero => rfl
  | succ w ih => simp [beBytes,ih]

theorem beNat_concat (bs : List UInt8) (b : UInt8) : beNat (bs ++ [b]) = beNat bs * 256 + b.toNat := by
  simp [beNat]

theorem beNat_beBytes (w n : Nat) : beNat (beBytes w n) = n % 256 ^ w := by
  induction w generalizing n with
  | zero => simp [beBytes,beNat,Nat.mod_one]
  | succ w ih =>
    have hb : (UInt8.ofNat n).toNat = n % 256 := by simp
    calc beNat (beBytes (w + 1) n) = n / 256 % 256 ^ w * 256 + n % 256 := by rw [beBytes,beNat_concat,ih,hb]
      _ = n % (256 * 256 ^ w) := by rw [Nat.mod_mul]; ring
      _ = n % 256 ^ (w + 1) := by rw [pow_succ']

theorem beNat_lt (bs : List UInt8) : beNat bs < 256 ^ bs.length := by
  induction bs using List.reverseRecOn with
  | nil => decide
  | append_singleton bs b ih =>
    have hb : b.toNat < 256 := b.toNat_lt
    rw [beNat_concat,List.length_append,List.length_singleton,pow_succ]
    omega

/-- Bytes are the number that they stand for, written with as many bytes. -/
theorem beBytes_beNat (bs : List UInt8) : beBytes bs.length (beNat bs) = bs := by
  induction bs using List.reverseRecOn with
  | nil => rfl
  | append_singleton bs b ih =>
    have hb : b.toNat < 256 := b.toNat_lt
    have hquot : (beNat bs * 256 + b.toNat) / 256 = beNat bs := by omega
    have hlast : UInt8.ofNat (beNat bs * 256 + b.toNat) = b := by
      apply UInt8.toNat_inj.mp
      rw [UInt8.toNat_ofNat']
      omega
    rw [beNat_concat,List.length_append,List.length_singleton,beBytes,hquot,hlast,ih]

end Pggat.Base
