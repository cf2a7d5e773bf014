import Mathlib.Tactic.SplitIfs
import Mathlib.Data.List.Basic

/-! Byte strings read as runes the way Go's `range` does, and runes written back as UTF-8.
A byte that starts no valid encoding is read as `runeError` and advances by one. -/
namespace Pggat.Base

abbrev GoString := List UInt8

/-- The bytes of a text of ASCII characters. -/
def ascii (cs : List Char) : GoString := cs.map fun c => UInt8.ofNat c.toNat

def runeError : Nat := 0xFFFD

def isContinuation (b : UInt8) : Bool := 0x80 ≤ b && b ≤ 0xBF

/-- `utf8.DecodeRuneInString` on a string with first byte `b`: the rune and its width. -/
def decodeRune (b : UInt8) (t : GoString) : Nat × Nat :=
  if b < 0x80 then (b.toNat,1) else
  match t with
  | [] => (runeError,1)
  | b1 :: t =>
    if 0xC2 ≤ b && b ≤ 0xDF && isContinuation b1 then (b.toNat % 32 * 64 + b1.toNat % 64,2) else
    match t with
    | [] => (runeError,1)
    | b2 :: t =>
      if 0xE0 ≤ b && b ≤ 0xEF && (b ≠ 0xE0 || 0xA0 ≤ b1) && (b ≠ 0xED || b1 ≤ 0x9F) &&
          isContinuation b1 && isContinuation b2 then
        (b.toNat % 16 * 4096 + b1.toNat % 64 * 64 + b2.toNat % 64,3) else
      match t with
      | [] => (runeError,1)
      | b3 :: _ =>
        if 0xF0 ≤ b && b ≤ 0xF4 && (b ≠ 0xF0 || 0x90 ≤ b1) && (b ≠ 0xF4 || b1 ≤ 0x8F) &&
            isContinuation b1 && isContinuation b2 && isContinuation b3 then
          (b.toNat % 8 * 262144 + b1.toNat % 64 * 4096 + b2.toNat % 64 * 64 + b3.toNat % 64,4)
        else (runeError,1)

/-- The runes of a string after `skip` bytes that belong to the rune before. -/
def runesFrom : Nat → GoString → List Nat
  | _, [] => []
  | skip+1, _ :: t => runesFrom skip t
  | 0, b :: t => (decodeRune b t).1 :: runesFrom ((decodeRune b t).2 - 1) t

def runes (s : GoString) : List Nat := runesFrom 0 s

/-- `strings.Builder.WriteRune` -/
def encodeRune (r : Nat) : GoString :=
  if r < 0x80 then [UInt8.ofNat r]
  else if r < 0x800 then [UInt8.ofNat (0xC0 + r / 64), UInt8.ofNat (0x80 + r % 64)]
  else if (0xD800 ≤ r && r ≤ 0xDFFF) || 0x10FFFF < r then [0xEF, 0xBF, 0xBD]
  else if r < 0x10000 then
    [UInt8.ofNat (0xE0 + r / 4096), UInt8.ofNat (0x80 + r / 64 % 64), UInt8.ofNat (0x80 + r % 64)]
  else [UInt8.ofNat (0xF0 + r / 262144), UInt8.ofNat (0x80 + r / 4096 % 64), UInt8.ofNat (0x80 + r / 64 % 64),
    UInt8.ofNat (0x80 + r % 64)]

/-- `unicode.IsSpace` -/
def isSpace (r : Nat) : Bool :=
  (9 ≤ r && r ≤ 13) || r = 0x20 || r = 0x85 || r = 0xA0 || r = 0x1680 || (0x2000 ≤ r && r ≤ 0x200A) || r = 0x2028 ||
    r = 0x2029 || r = 0x202F || r = 0x205F || r = 0x3000

/-- The fields of a string behind a part of one, after `skip` bytes of a rune that is or is not a space. -/
def fieldsFrom : (skip : Nat) → (space : Bool) → (field : GoString) → GoString → List GoString
  | _, _, field, [] => if field = [] then [] else [field]
  | skip+1, space, field, b :: t => fieldsFrom skip space (if space then field else field ++ [b]) t
  | 0, _, field, b :: t =>
    if isSpace (decodeRune b t).1 then
      (if field = [] then [] else [field]) ++ fieldsFrom ((decodeRune b t).2 - 1) true [] t
    else fieldsFrom ((decodeRune b t).2 - 1) false (field ++ [b]) t

/-- `strings.Fields` -/
def fields (s : GoString) : List GoString := fieldsFrom 0 true [] s

variable {b : UInt8}

theorem decodeRune_ascii (h : b < 0x80) (t : GoString) : decodeRune b t = (b.toNat,1) := by
  simp [decodeRune,h]

/-- A byte from 0x80 on starts a rune from 0x80 on, and so are the bytes that the rune spans. -/
theorem decodeRune_high (h : ¬ b < 0x80) (t : GoString) :
    0x80 ≤ (decodeRune b t).1 ∧ ∀ x ∈ t.take ((decodeRune b t).2 - 1), 0x80 ≤ x := by
  unfold decodeRune
  rw [if_neg h]
  rcases t with _ | ⟨b1,t⟩
  · simp [runeError]
  dsimp only
  split
  · rename_i h2
    simp only [isContinuation,Bool.and_eq_true,decide_eq_true_eq,UInt8.le_iff_toNat_le] at h2
    simp only [List.take_succ_cons,List.take_zero,List.mem_singleton,forall_eq,UInt8.le_iff_toNat_le]
    simp at h2 ⊢
    omega
  rcases t with _ | ⟨b2,t⟩
  · simp [runeError]
  dsimp only
  split
  · rename_i h3
    simp only [isContinuation,Bool.and_eq_true,Bool.or_eq_true,decide_eq_true_eq,UInt8.le_iff_toNat_le,ne_eq,
      ← UInt8.toNat_inj] at h3
    simp only [List.take_succ_cons,List.take_zero,List.mem_cons,List.not_mem_nil,or_false,forall_eq_or_imp,
      forall_eq,UInt8.le_iff_toNat_le]
    simp at h3 ⊢
    omega
  rcases t with _ | ⟨b3,t⟩
  · simp [runeError]
  dsimp only
  split
  · rename_i h4
    simp only [isContinuation,Bool.and_eq_true,Bool.or_eq_true,decide_eq_true_eq,UInt8.le_iff_toNat_le,ne_eq,
      ← UInt8.toNat_inj] at h4
    simp only [List.take_succ_cons,List.take_zero,List.mem_cons,List.not_mem_nil,or_false,forall_eq_or_imp,
      forall_eq,UInt8.le_iff_toNat_le]
    simp at h4 ⊢
    omega
  · simp [runeError]

variable {a : UInt8}

private theorem count_runesFrom (ha : a < 0x80) (skip : Nat) (s : GoString) :
    (runesFrom skip s).count a.toNat = (s.drop skip).count a := by
  induction s generalizing skip with
  | nil => simp [runesFrom]
  | cons b t ih =>
    cases skip with
    | succ skip => simpa [runesFrom] using ih skip
    | zero =>
      rw [runesFrom,List.drop_zero,List.count_cons,List.count_cons,ih]
      by_cases hb : b < 0x80
      · rw [decodeRune_ascii hb]
        simp [UInt8.toNat_inj]
      · obtain ⟨hr,ht⟩ := decodeRune_high hb t
        have hne : b ≠ a := fun he => hb (he ▸ ha)
        have hra : (decodeRune b t).1 ≠ a.toNat := by
          have : a.toNat < 0x80 := UInt8.lt_iff_toNat_lt.mp ha
          omega
        have htake : (t.take ((decodeRune b t).2 - 1)).count a = 0 := by
          refine List.count_eq_zero.mpr fun hm => ?_
          exact absurd (UInt8.lt_of_lt_of_le ha (ht a hm)) (UInt8.lt_irrefl a)
        have hsplit : t.count a = (t.take ((decodeRune b t).2 - 1)).count a + (t.drop ((decodeRune b t).2 - 1)).count a := by
          rw [← List.count_append,List.take_append_drop]
        simp [hne,hra,hsplit,htake]

/-- An ASCII character occurs as often among the runes as among the bytes. -/
theorem count_runes (ha : a < 0x80) (s : GoString) : (runes s).count a.toNat = s.count a := by
  simpa [runes] using count_runesFrom ha 0 s

theorem encodeRune_ascii (ha : a < 0x80) : encodeRune a.toNat = [a] := by
  have : a.toNat < 0x80 := UInt8.lt_iff_toNat_lt.mp ha
  simp [encodeRune,this]

theorem encodeRune_ne_nil (r : Nat) : encodeRune r ≠ [] := by
  unfold encodeRune
  split_ifs <;> simp

private theorem encodeRune_high {r : Nat} (h : 0x80 ≤ r) : ∀ x ∈ encodeRune r, 0x80 ≤ x := by
  unfold encodeRune
  rw [if_neg (by omega)]
  split
  · simp only [List.mem_cons,List.not_mem_nil,or_false,forall_eq_or_imp,forall_eq,UInt8.le_iff_toNat_le]
    simp
    omega
  split
  · decide +kernel
  rename_i hr
  simp only [Bool.or_eq_true,Bool.and_eq_true,decide_eq_true_eq,not_or] at hr
  split
  · simp only [List.mem_cons,List.not_mem_nil,or_false,forall_eq_or_imp,forall_eq,UInt8.le_iff_toNat_le]
    simp
    omega
  · simp only [List.mem_cons,List.not_mem_nil,or_false,forall_eq_or_imp,forall_eq,UInt8.le_iff_toNat_le]
    simp
    omega

/-- An ASCII character is written only for its own rune. -/
theorem count_encodeRune (ha : a < 0x80) (r : Nat) :
    (encodeRune r).count a = if r = a.toNat then 1 else 0 := by
  have hlt : a.toNat < 0x80 := UInt8.lt_iff_toNat_lt.mp ha
  split
  · rename_i he
    rw [he,encodeRune_ascii ha]
    simp
  · rename_i hne
    refine List.count_eq_zero.mpr fun hm => ?_
    by_cases hr : r < 0x80
    · have hb : (UInt8.ofNat r).toNat = r := by simp; omega
      simp only [encodeRune,if_pos hr,List.mem_singleton] at hm
      rw [hm] at hne
      exact hne hb.symm
    · exact absurd (UInt8.lt_of_lt_of_le ha (encodeRune_high (by omega) a hm)) (UInt8.lt_irrefl a)

end Pggat.Base
