import Mathlib.Data.List.TakeWhile
import Pggat.Base.Runes

/-! Text encodings of bytes and numbers, as Go's standard library decodes them. -/
namespace Pggat.Base

theorem takeWhile_ne_append {α : Type} [DecidableEq α] {a : α} {l : List α} (h : a ∈ l) :
    l = l.takeWhile (· ≠ a) ++ a :: (l.dropWhile (· ≠ a)).tail := by
  induction l with
  | nil => cases h
  | cons x l ih =>
    by_cases hx : x = a
    · simp [hx]
    · have hl : a ∈ l := (List.mem_cons.mp h).resolve_left (Ne.symm hx)
      rw [List.takeWhile_cons_of_pos (by simpa using hx),List.dropWhile_cons_of_pos (by simpa using hx),
        List.cons_append,← ih hl]

/-- `strings.Cut` at a separator of one byte. -/
def cut (sep : UInt8) (s : GoString) : Option (GoString × GoString) :=
  match s.dropWhile (· ≠ sep) with
  | [] => none
  | _ :: after => some (s.takeWhile (· ≠ sep),after)

variable {sep : UInt8} {s : GoString}

theorem cut_eq_none : cut sep s = none ↔ sep ∉ s := by
  have hnil : s.dropWhile (· ≠ sep) = [] ↔ sep ∉ s := by
    rw [List.dropWhile_eq_nil_iff]
    constructor
    · intro h hmem
      simpa using h sep hmem
    · intro h b hb
      exact decide_eq_true fun he => h (he ▸ hb)
  rw [← hnil,cut]
  cases s.dropWhile (· ≠ sep) with
  | nil => simp
  | cons b t => simp

variable {a : GoString}

theorem cut_append (h : sep ∉ a) (b : GoString) : cut sep (a ++ sep :: b) = some (a,b) := by
  have all : ∀ x ∈ a, decide (x ≠ sep) = true := fun x hx => decide_eq_true fun he => h (he ▸ hx)
  rw [cut,List.dropWhile_append_of_pos all,List.takeWhile_append_of_pos all]
  simp

variable {b : GoString}

theorem eq_of_cut (h : cut sep s = some (a,b)) : s = a ++ sep :: b := by
  have hs : sep ∈ s := by
    by_contra hn
    rw [cut_eq_none.mpr hn] at h
    cases h
  have whole := takeWhile_ne_append hs
  rw [cut] at h
  split at h
  · cases h
  · rename_i hd
    cases h
    rwa [hd] at whole

theorem not_mem_of_cut (h : cut sep s = some (a,b)) : sep ∉ a := by
  rw [cut] at h
  split at h
  · cases h
  · cases h
    intro hm
    simpa using List.mem_takeWhile_imp hm

/-- What holds of each of the 256 bytes holds of every byte. -/
theorem forall_byte {P : UInt8 → Prop} (h : ∀ n < 256, P (UInt8.ofNat n)) (b : UInt8) : P b := by
  simpa using h b.toNat b.toNat_lt

def hexDigit (b : UInt8) : Option UInt8 :=
  if 48 ≤ b ∧ b ≤ 57 then some (b - 48)
  else if 97 ≤ b ∧ b ≤ 102 then some (b - 87)
  else if 65 ≤ b ∧ b ≤ 70 then some (b - 55)
  else none

/-- `hex.DecodeString` -/
def hexDecode : GoString → Option (List UInt8)
  | [] => some []
  | [_] => none
  | a :: b :: rest => do
    return ((← hexDigit a) * 16 + (← hexDigit b)) :: (← hexDecode rest)

/-- `hex.Encode` -/
def hexEncode (bs : List UInt8) : GoString :=
  let digit (n : UInt8) : UInt8 := if n < 10 then n + 48 else n + 87
  bs.flatMap fun b => [digit (b / 16), digit (b % 16)]

def lowerByte (b : UInt8) : UInt8 := if 65 ≤ b ∧ b ≤ 90 then b + 32 else b

@[simp] theorem hexEncode_nil : hexEncode [] = [] := rfl

private theorem hexDigit_lowerByte : ∀ b, hexDigit (lowerByte b) = hexDigit b := forall_byte (by decide +kernel)

private theorem hexEncode_cons (b : UInt8) (bs : List UInt8) :
    ∃ x y, hexEncode (b :: bs) = x :: y :: hexEncode bs ∧ hexDigit x = some (b / 16) ∧ hexDigit y = some (b % 16) :=
  have upper : ∀ b : UInt8, hexDigit (if b / 16 < 10 then b / 16 + 48 else b / 16 + 87) = some (b / 16) :=
    forall_byte (by decide +kernel)
  have lower : ∀ b : UInt8, hexDigit (if b % 16 < 10 then b % 16 + 48 else b % 16 + 87) = some (b % 16) :=
    forall_byte (by decide +kernel)
  ⟨_,_,rfl,upper b,lower b⟩

variable {digits : GoString} {bs : List UInt8}

/-- What was encoded is decoded, in whatever case the letters are. -/
theorem hexDecode_of_lower (h : digits.map lowerByte = hexEncode bs) :
    hexDecode digits = some bs := by
  induction bs generalizing digits with
  | nil =>
    rw [hexEncode_nil,List.map_eq_nil_iff] at h
    rw [h,hexDecode]
  | cons b bs ih =>
    obtain ⟨x,y,he,hx,hy⟩ := hexEncode_cons b bs
    rw [he] at h
    obtain ⟨x',rest,rfl,hx',hrest⟩ := List.map_eq_cons_iff.mp h
    obtain ⟨y',rest,rfl,hy',hrest⟩ := List.map_eq_cons_iff.mp hrest
    have joined : ∀ b : UInt8, b / 16 * 16 + b % 16 = b := forall_byte (by decide +kernel)
    rw [← hx',hexDigit_lowerByte] at hx
    rw [← hy',hexDigit_lowerByte] at hy
    simp [hexDecode,hx,hy,ih hrest,joined]

/-- Exactly the texts of hexadecimal digits in pairs are decoded. -/
theorem hexDecode_eq_none (s : GoString) :
    hexDecode s = none ↔ s.length % 2 = 1 ∨ ∃ b ∈ s, hexDigit b = none := by
  fun_induction hexDecode s with
  | case1 => simp
  | case2 b => simp
  | case3 a b rest ih =>
    have parity : (rest.length + 1 + 1) % 2 = rest.length % 2 := by omega
    cases ha : hexDigit a <;> cases hb : hexDigit b <;> cases hr : hexDecode rest <;> simp_all

def base64Digit (b : UInt8) : Option Nat :=
  if 65 ≤ b ∧ b ≤ 90 then some (b.toNat - 65)
  else if 97 ≤ b ∧ b ≤ 122 then some (b.toNat - 71)
  else if 48 ≤ b ∧ b ≤ 57 then some (b.toNat + 4)
  else if b = 43 then some 62
  else if b = 47 then some 63
  else none

/-- Groups of four digits; only the last may end in padding, whose leftover bits are dropped. -/
def base64Groups : GoString → Option (List UInt8)
  | [] => some []
  | [a, b, 61, 61] => do
    let n := (← base64Digit a) * 64 + (← base64Digit b)
    return [.ofNat (n / 16)]
  | [a, b, c, 61] => do
    let n := ((← base64Digit a) * 64 + (← base64Digit b)) * 64 + (← base64Digit c)
    return [.ofNat (n / 1024), .ofNat (n / 4)]
  | a :: b :: c :: d :: rest => do
    let n := (((← base64Digit a) * 64 + (← base64Digit b)) * 64 + (← base64Digit c)) * 64 + (← base64Digit d)
    return .ofNat (n / 65536) :: .ofNat (n / 256) :: .ofNat n :: (← base64Groups rest)
  | _ => none

/-- `base64.StdEncoding.DecodeString`, which passes over line ends. -/
def base64Decode (s : GoString) : Option (List UInt8) := base64Groups (s.filter fun b => b ≠ 10 ∧ b ≠ 13)

private theorem mem_of_base64Groups (h : base64Groups s = some bs) :
    ∀ b ∈ s, (base64Digit b).isSome ∨ b = 61 := by
  fun_induction base64Groups s generalizing bs with
  | case1 => simp
  | case2 a b =>
    cases ha : base64Digit a <;> cases hb : base64Digit b <;> simp_all
  | case3 a b c _ =>
    cases ha : base64Digit a <;> cases hb : base64Digit b <;> cases hc : base64Digit c <;> simp_all
  | case4 a b c d rest _ _ ih =>
    cases ha : base64Digit a <;> cases hb : base64Digit b <;> cases hc : base64Digit c <;>
      cases hd : base64Digit d <;> cases hr : base64Groups rest <;> simp_all
  | case5 => cases h

theorem mem_of_base64Decode (h : base64Decode s = some bs) :
    ∀ b ∈ s, (base64Digit b).isSome ∨ b = 61 ∨ b = 10 ∨ b = 13 := by
  intro b hb
  by_cases he : b = 10 ∨ b = 13
  · exact .inr (.inr he)
  · have hm : b ∈ s.filter fun b => b ≠ 10 ∧ b ≠ 13 := by
      rw [List.mem_filter]
      exact ⟨hb,decide_eq_true (not_or.mp he)⟩
    rcases mem_of_base64Groups h b hm with h' | h'
    · exact .inl h'
    · exact .inr (.inl h')

/-- `strconv.Atoi` on 64 bits. -/
def atoi (s : GoString) : Option Int :=
  let (negative,digits) :=
    match s with
    | 45 :: digits => (true,digits)
    | 43 :: digits => (false,digits)
    | digits => (false,digits)
  if digits = [] ∨ digits.any (fun b => b < 48 ∨ 57 < b) then none
  else
    let n : Int := digits.foldl (fun n b => n * 10 + (b.toNat - 48)) 0
    if negative then if n ≤ 0x8000000000000000 then some (-n) else none
    else if n < 0x8000000000000000 then some n else none

def sign : GoString → Bool × GoString
  | 45 :: digits => (true,digits)
  | 43 :: digits => (false,digits)
  | digits => (false,digits)

/-- The number that some decimal digits denote. -/
def decimal (digits : GoString) : Option Int :=
  if digits = [] ∨ digits.any (fun b => b < 48 ∨ 57 < b) then none
  else some (digits.foldl (fun n b => n * 10 + (b.toNat - 48)) 0)

theorem atoi_eq (s : GoString) : atoi s = (decimal (sign s).2).bind fun n =>
    if (sign s).1 then if n ≤ 0x8000000000000000 then some (-n) else none
    else if n < 0x8000000000000000 then some n else none := by
  rw [decimal]
  show (if _ then _ else _) = _
  unfold sign
  split <;> split <;> rfl

/-- `strconv.ParseUint` in base 10 on 64 bits. -/
def parseUint (s : GoString) : Option Nat :=
  (decimal s).bind fun n => if n < 0x10000000000000000 then some n.toNat else none

private theorem mem_sign {b : UInt8} (h : b ∈ s) : b = 45 ∨ b = 43 ∨ b ∈ (sign s).2 := by
  fun_cases sign s <;> simp_all
  all_goals rcases h with rfl | h <;> simp_all

variable {n : Int}

theorem mem_of_decimal (h : decimal digits = some n) : ∀ b ∈ digits, 48 ≤ b ∧ b ≤ 57 := by
  intro b hb
  by_contra hn
  rw [decimal,if_pos] at h
  · cases h
  · refine .inr (List.any_eq_true.mpr ⟨b,hb,decide_eq_true ?_⟩)
    rwa [not_and_or,UInt8.not_le,UInt8.not_le] at hn

theorem mem_of_atoi (h : atoi s = some n) :
    ∀ b ∈ s, b = 45 ∨ b = 43 ∨ 48 ≤ b ∧ b ≤ 57 := by
  intro b hb
  rw [atoi_eq,Option.bind_eq_some_iff] at h
  obtain ⟨m,hm,-⟩ := h
  exact (mem_sign hb).imp_right (.imp_right (mem_of_decimal hm b))

example : base64Decode (ascii ['a', 'G', 'k', '=']) = some (ascii ['h', 'i']) := by decide

end Pggat.Base
