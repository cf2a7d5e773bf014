import Mathlib.Tactic.Ring
import Pggat.Base.Encodings
import Pggat.Base.Utf8

/-! Quoted strings as `strconv` writes and reads them. -/
namespace Pggat.Base

/-- `strconv.IsPrint`, by what is known of it here: the only space that is printed as it is is the ASCII one. -/
structure Printing where
  isPrint : Nat → Bool
  blank : isPrint 0x20 = true
  space : ∀ r, isSpace r = true → r ≠ 0x20 → isPrint r = false

/-- `lowerhex[n]` -/
def hexRune (n : Nat) : Nat := if n < 10 then n + 48 else n + 87

/-- The last hexadecimal digits of a number. -/
def hexRunes : (digits : Nat) → Nat → List Nat
  | 0, _ => []
  | digits+1, v => hexRune (v / 16 ^ digits % 16) :: hexRunes digits v

/-- The letter that stands for a control character. -/
def escapeLetter : Nat → Option Nat
  | 7 => some 97
  | 8 => some 98
  | 12 => some 102
  | 10 => some 110
  | 13 => some 114
  | 9 => some 116
  | 11 => some 118
  | _ => none

/-- `appendEscapedRune` for the quote `"` -/
def escapedRune (p : Printing) (r : Nat) : List Nat :=
  if r = 34 ∨ r = 92 then [92, r]
  else if p.isPrint r then [r]
  else
    match escapeLetter r with
    | some c => [92, c]
    | none =>
      if r < 0x20 ∨ r = 0x7F then 92 :: 120 :: hexRunes 2 r
      else if ¬ Scalar r then 92 :: 117 :: hexRunes 4 runeError
      else if r < 0x10000 then 92 :: 117 :: hexRunes 4 r
      else 92 :: 85 :: hexRunes 8 r

/-- What the quotes enclose, after `skip` bytes that belong to the rune before. -/
def quotedFrom (p : Printing) : (skip : Nat) → GoString → List Nat
  | _, [] => []
  | skip+1, _ :: t => quotedFrom p skip t
  | 0, b :: t =>
    (if decodeRune b t = (runeError,1) then 92 :: 120 :: hexRunes 2 b.toNat else escapedRune p (decodeRune b t).1) ++
      quotedFrom p ((decodeRune b t).2 - 1) t

/-- `strconv.Quote` -/
def quote (p : Printing) (s : GoString) : GoString := utf8 (34 :: (quotedFrom p 0 s ++ [34]))

def hexNumber : (digits : Nat) → (read : Nat) → GoString → Option Nat
  | 0, v, _ => some v
  | _+1, _, [] => none
  | digits+1, v, c :: t => do hexNumber digits (v * 16 + (← hexDigit c).toNat) t

def octalDigit (c : UInt8) : Option Nat := if 48 ≤ c ∧ c ≤ 55 then some (c.toNat - 48) else none

/-- `strconv.UnquoteChar` on a string with first byte `b`: the bytes that it stands for and its width. -/
def unquoteChar (quote b : UInt8) (t : GoString) : Option (GoString × Nat) :=
  if 0x80 ≤ b then some (encodeRune (decodeRune b t).1,(decodeRune b t).2)
  else if b ≠ 92 then some ([b],1)
  else
    match t with
    | [] => none
    | c :: s =>
      match c with
      | 97 => some ([7],2)
      | 98 => some ([8],2)
      | 102 => some ([12],2)
      | 110 => some ([10],2)
      | 114 => some ([13],2)
      | 116 => some ([9],2)
      | 118 => some ([11],2)
      | 120 => (hexNumber 2 0 s).map fun v => ([UInt8.ofNat v],4)
      | 117 => (hexNumber 4 0 s).bind fun v => if Scalar v then some (encodeRune v,6) else none
      | 85 => (hexNumber 8 0 s).bind fun v => if Scalar v then some (encodeRune v,10) else none
      | 92 => some ([92],2)
      | c =>
        if c = 39 ∨ c = 34 then if c = quote then some ([c],2) else none
        else
          match octalDigit c, s with
          | some x, y :: z :: _ => do
            let v := (x * 8 + (← octalDigit y)) * 8 + (← octalDigit z)
            if v ≤ 255 then some ([UInt8.ofNat v],4) else none
          | _, _ => none

/-- The characters up to the quote that ends the string, after `skip` bytes of the one before. Between single quotes
there is one at most. -/
def unquoteFrom (quote : UInt8) : (skip : Nat) → (more : Bool) → GoString → Option GoString
  | _, _, [] => none
  | skip+1, more, _ :: t => unquoteFrom quote skip more t
  | 0, more, b :: t =>
    if b = quote then if t = [] then some [] else none
    else if ¬ more ∨ b = 10 then none
    else (unquoteChar quote b t).bind fun c =>
      (unquoteFrom quote (c.2 - 1) (quote ≠ 39) t).map (c.1 ++ ·)

/-- `strconv.Unquote` -/
def unquote : GoString → Option GoString
  | 96 :: t => (cut 96 t).bind fun parts => if parts.2 = [] then some (parts.1.filter (· ≠ 13)) else none
  | 34 :: t => unquoteFrom 34 0 true t
  | 39 :: t => unquoteFrom 39 0 true t
  | _ => none

variable {r : Nat}

theorem utf8_ascii (h : r < 0x80) (rs : List Nat) : utf8 (r :: rs) = UInt8.ofNat r :: utf8 rs := by
  rw [utf8_cons,encodeRune,if_pos h]
  rfl

theorem hexRune_lt {n : Nat} (h : n < 16) : hexRune n < 0x80 := by
  rw [hexRune]
  split <;> omega

private theorem hexDigit_hexRune : ∀ n < 16, hexDigit (UInt8.ofNat (hexRune n)) = some (UInt8.ofNat n) := by decide

/-- The digits of a number are read back. -/
theorem hexNumber_hexRunes (digits v x : Nat) (rest : GoString) :
    hexNumber digits v (utf8 (hexRunes digits x) ++ rest) = some (v * 16 ^ digits + x % 16 ^ digits) := by
  induction digits generalizing v with
  | zero => simp [hexNumber,Nat.mod_one]
  | succ digits ih =>
    have hd : x / 16 ^ digits % 16 < 16 := Nat.mod_lt _ (by decide)
    have value : (UInt8.ofNat (x / 16 ^ digits % 16)).toNat = x / 16 ^ digits % 16 := toNat_ofNat_of_lt (by omega)
    rw [hexRunes,utf8_ascii (hexRune_lt hd),List.cons_append,hexNumber,hexDigit_hexRune _ hd]
    simp only [Option.bind_eq_bind,Option.bind_some,ih,value,Option.some.injEq]
    rw [Nat.mod_pow_succ,pow_succ]
    ring

theorem length_hexRunes (digits x : Nat) : (utf8 (hexRunes digits x)).length = digits := by
  induction digits with
  | zero => rfl
  | succ digits ih => rw [hexRunes,utf8_ascii (hexRune_lt (Nat.mod_lt _ (by decide))),List.length_cons,ih]

/-- A part of a quoted string that is read as some bytes, whatever follows. -/
structure ReadsAs (part : GoString) (bytes : GoString) : Prop where
  starts : ∃ b l, part = b :: l ∧ b ≠ 34 ∧ b ≠ 10 ∧ ∀ rest, unquoteChar 34 b (l ++ rest) = some (bytes,l.length + 1)

private theorem unquoteFrom_skip (q : UInt8) (more : Bool) (l rest : GoString) :
    unquoteFrom q l.length more (l ++ rest) = unquoteFrom q 0 more rest := by
  induction l with
  | nil => rfl
  | cons b l ih =>
    rw [List.length_cons,List.cons_append,unquoteFrom]
    exact ih

theorem ReadsAs.read {part bytes : GoString} (h : ReadsAs part bytes) (rest : GoString) :
    unquoteFrom 34 0 true (part ++ rest) = (unquoteFrom 34 0 true rest).map (bytes ++ ·) := by
  obtain ⟨b,l,rfl,hq,hn,hc⟩ := h.starts
  rw [List.cons_append,unquoteFrom,if_neg hq,if_neg (by simpa using hn),hc]
  simp only [Option.bind_some,Nat.add_sub_cancel]
  rw [unquoteFrom_skip]
  rfl

theorem readsAs_byte (b : UInt8) : ReadsAs (utf8 (92 :: 120 :: hexRunes 2 b.toNat)) [b] where
  starts := by
    refine ⟨92,120 :: utf8 (hexRunes 2 b.toNat),rfl,by decide,by decide,fun rest => ?_⟩
    simp [unquoteChar,hexNumber_hexRunes,length_hexRunes]

private theorem readsAs_rune (h : Scalar r) (hq : r ≠ 34) (hb : r ≠ 92) (hn : r ≠ 10) :
    ReadsAs (utf8 [r]) (encodeRune r) where
  starts := by
    have enc := encoding h
    rw [utf8_cons,utf8_nil,List.append_nil]
    obtain ⟨b,l,he⟩ := List.exists_cons_of_ne_nil (encodeRune_ne_nil r)
    rw [he] at enc ⊢
    have code {c : UInt8} (hc : c < 0x80) (hr : r ≠ c.toNat) : b ≠ c := by
      rintro rfl
      refine hr ?_
      have := congrArg Prod.fst (enc.decode [])
      rw [List.append_nil,decodeRuneInString,decodeRune_ascii hc] at this
      exact this.symm
    refine ⟨b,l,rfl,code (by decide) hq,code (by decide) hn,fun rest => ?_⟩
    have decoded := enc.decode rest
    rw [List.cons_append,decodeRuneInString] at decoded
    unfold unquoteChar
    split
    · rw [decoded,he]
      rfl
    · rename_i hlt
      rw [decodeRune_ascii (UInt8.not_le.mp hlt),Prod.mk.injEq,List.length_cons] at decoded
      have hne : b ≠ 92 := code (by decide) hb
      rw [if_pos hne,← decoded.2,List.length_eq_zero_iff.mp (by omega : l.length = 0)]

private theorem readsAs_hex (h : Scalar r) (hr : r < 0x10000) :
    ReadsAs (utf8 (92 :: 117 :: hexRunes 4 r)) (encodeRune r) where
  starts := by
    refine ⟨92,117 :: utf8 (hexRunes 4 r),rfl,by decide,by decide,fun rest => ?_⟩
    have value : r % 65536 = r := Nat.mod_eq_of_lt (by omega)
    simp [unquoteChar,hexNumber_hexRunes,length_hexRunes,value,h]

private theorem readsAs_longHex (h : Scalar r) : ReadsAs (utf8 (92 :: 85 :: hexRunes 8 r)) (encodeRune r) where
  starts := by
    refine ⟨92,85 :: utf8 (hexRunes 8 r),rfl,by decide,by decide,fun rest => ?_⟩
    have value : r % 4294967296 = r := Nat.mod_eq_of_lt (by have := h.1; omega)
    simp [unquoteChar,hexNumber_hexRunes,length_hexRunes,value,h]

private theorem readsAs_letter {c : UInt8} (h : ∀ rest, unquoteChar 34 92 (c :: rest) = some (encodeRune r,2)) :
    ReadsAs [92, c] (encodeRune r) where
  starts := ⟨92,[c],rfl,by decide,by decide,h⟩

theorem readsAs_escapedRune (p : Printing) (h : Scalar r) :
    ReadsAs (utf8 (escapedRune p r)) (encodeRune r) := by
  rw [escapedRune]
  by_cases hq : r = 34 ∨ r = 92
  · rw [if_pos hq]
    rcases hq with rfl | rfl <;> exact readsAs_letter fun _ => rfl
  rw [if_neg hq]
  rw [not_or] at hq
  by_cases hp : p.isPrint r
  · rw [if_pos hp]
    refine readsAs_rune h hq.1 hq.2 fun hn => ?_
    rw [hn,p.space 10 (by decide) (by decide)] at hp
    cases hp
  rw [if_neg hp]
  cases hl : escapeLetter r with
  | some c =>
    unfold escapeLetter at hl
    split at hl <;> cases hl <;> exact readsAs_letter fun _ => rfl
  | none =>
    dsimp only
    by_cases hctl : r < 0x20 ∨ r = 0x7F
    · rw [if_pos hctl]
      have hr : (UInt8.ofNat r).toNat = r := toNat_ofNat_of_lt (by omega)
      have hlt : UInt8.ofNat r < 0x80 := UInt8.lt_iff_toNat_lt.mpr (by rw [hr]; simp; omega)
      have hbyte := readsAs_byte (UInt8.ofNat r)
      rwa [← encodeRune_ascii hlt,hr] at hbyte
    rw [if_neg hctl,if_neg (not_not.mpr h)]
    split
    · rename_i hr
      exact readsAs_hex h hr
    · exact readsAs_longHex h

variable {x : Nat}

theorem mem_hexRunes {digits v : Nat} (h : x ∈ hexRunes digits v) : Scalar x ∧ isSpace x = false := by
  induction digits with
  | zero => cases h
  | succ digits ih =>
    rcases List.mem_cons.mp h with rfl | h
    · have digit : ∀ n < 16, Scalar (hexRune n) ∧ isSpace (hexRune n) = false := by decide
      exact digit _ (Nat.mod_lt _ (by decide))
    · exact ih h

theorem mem_escapedRune {p : Printing} (h : Scalar r) (hx : x ∈ escapedRune p r) :
    Scalar x ∧ (isSpace x = true → x = 32 ∧ r = 32) := by
  have plain {x : Nat} (h : Scalar x ∧ isSpace x = false) : Scalar x ∧ (isSpace x = true → x = 32 ∧ r = 32) :=
    ⟨h.1,fun hs => by rw [h.2] at hs; cases hs⟩
  have escape {c : Nat} {l : List Nat} (hc : Scalar c ∧ isSpace c = false)
      (hl : ∀ x ∈ l, Scalar x ∧ isSpace x = false) (hx : x ∈ 92 :: c :: l) : Scalar x ∧ isSpace x = false := by
    rcases List.mem_cons.mp hx with rfl | hx
    · decide
    · rcases List.mem_cons.mp hx with rfl | hx
      · exact hc
      · exact hl x hx
  rw [escapedRune] at hx
  by_cases hq : r = 34 ∨ r = 92
  · rw [if_pos hq] at hx
    refine plain (escape ?_ (by simp) hx)
    rcases hq with rfl | rfl <;> decide
  rw [if_neg hq] at hx
  by_cases hp : p.isPrint r
  · rw [if_pos hp,List.mem_singleton] at hx
    subst hx
    refine ⟨h,fun hs => ?_⟩
    by_contra hn
    rw [p.space x hs fun he => hn ⟨he,he⟩] at hp
    cases hp
  rw [if_neg hp] at hx
  cases hl : escapeLetter r with
  | some c =>
    rw [hl] at hx
    refine plain (escape ?_ (by simp) hx)
    unfold escapeLetter at hl
    split at hl <;> cases hl <;> decide
  | none =>
    simp only [hl,if_neg (not_not.mpr h)] at hx
    split at hx
    · exact plain (escape (by decide) (fun _ => mem_hexRunes) hx)
    split at hx
    · exact plain (escape (by decide) (fun _ => mem_hexRunes) hx)
    · exact plain (escape (by decide) (fun _ => mem_hexRunes) hx)

/-- One part of a quoted string: the runes that stand for the first bytes of what is left. -/
structure Part (b : UInt8) (t : GoString) (part : List Nat) (bytes : GoString) (w : Nat) : Prop where
  split : b :: t = bytes ++ t.drop w
  reads : ReadsAs (utf8 part) bytes
  scalar : ∀ x ∈ part, Scalar x
  space : ∀ x ∈ part, isSpace x = true → x = 32 ∧ 32 ∈ bytes
  blank : 32 ∈ bytes → part = [32]

theorem quotedFrom_cons (p : Printing) (b : UInt8) (t : GoString) :
    ∃ part bytes w, Part b t part bytes w ∧ quotedFrom p 0 (b :: t) = part ++ quotedFrom p w t := by
  rw [quotedFrom]
  by_cases hd : decodeRune b t = (runeError,1)
  · rw [if_pos hd]
    have plain : ∀ x ∈ 92 :: 120 :: hexRunes 2 b.toNat, Scalar x ∧ isSpace x = false := by
      intro x hx
      rcases List.mem_cons.mp hx with rfl | hx
      · decide
      · rcases List.mem_cons.mp hx with rfl | hx
        · decide
        · exact mem_hexRunes hx
    refine ⟨_,[b],0,⟨rfl,readsAs_byte b,fun x hx => (plain x hx).1,fun x hx hs => ?_,fun hb => ?_⟩,by rw [hd]; rfl⟩
    · rw [(plain x hx).2] at hs
      cases hs
    · rw [← List.mem_singleton.mp hb,decodeRune_ascii (by decide)] at hd
      cases hd
  · rw [if_neg hd]
    have enc := (decodeRune_encoding b t).resolve_left hd
    have pos : (decodeRune b t).2 ≠ 0 := by
      intro hz
      rw [hz] at enc
      cases enc
    obtain ⟨w,hw⟩ := Nat.exists_eq_succ_of_ne_zero pos
    have blank (r : Nat) : 32 ∈ encodeRune r ↔ r = 32 := by
      rw [← List.count_pos_iff,count_encodeRune (by decide : (32 : UInt8) < 0x80)]
      by_cases hr : r = 32 <;> simp [hr]
    refine ⟨_,encodeRune (decodeRune b t).1,w,⟨?_,readsAs_escapedRune p enc.scalar,?_,?_,?_⟩,by rw [hw]; rfl⟩
    · rw [← enc.eq_encodeRune,hw,List.take_succ_cons,List.cons_append,List.take_append_drop]
    · exact fun x hx => (mem_escapedRune enc.scalar hx).1
    · intro x hx hs
      obtain ⟨hx,hr⟩ := (mem_escapedRune enc.scalar hx).2 hs
      exact ⟨hx,(blank _).mpr hr⟩
    · intro hb
      rw [(blank _).mp hb,escapedRune,if_neg (by decide),if_pos p.blank]

/-- What was quoted is read back up to the quote at the end. -/
theorem unquoteFrom_quotedFrom (p : Printing) (skip : Nat) (s : GoString) :
    unquoteFrom 34 0 true (utf8 (quotedFrom p skip s) ++ [34]) = some (s.drop skip) := by
  induction s generalizing skip with
  | nil => cases skip <;> rfl
  | cons b t ih =>
    cases skip with
    | succ skip => exact ih skip
    | zero =>
      obtain ⟨part,bytes,w,hp,he⟩ := quotedFrom_cons p b t
      rw [he,utf8_append,List.append_assoc,hp.reads.read,ih,Option.map_some,List.drop_zero,hp.split]

/-- Reading undoes quoting, for every string. -/
theorem unquote_quote (p : Printing) (s : GoString) : unquote (quote p s) = some s := by
  rw [quote,utf8_ascii (by decide),utf8_append]
  exact unquoteFrom_quotedFrom p 0 s

theorem mem_quotedFrom (p : Printing) (skip : Nat) (s : GoString) :
    ∀ x ∈ quotedFrom p skip s, Scalar x ∧ (isSpace x = true → x = 32) := by
  induction s generalizing skip with
  | nil => cases skip <;> simp [quotedFrom]
  | cons b t ih =>
    cases skip with
    | succ skip => exact ih skip
    | zero =>
      obtain ⟨part,bytes,w,hp,he⟩ := quotedFrom_cons p b t
      intro x hx
      rw [he] at hx
      rcases List.mem_append.mp hx with hx | hx
      · exact ⟨hp.scalar x hx,fun hs => (hp.space x hx hs).1⟩
      · exact ih w x hx

/-- The spaces of a quoted string are those of the string. -/
theorem blank_mem_quotedFrom (p : Printing) (skip : Nat) (s : GoString) :
    32 ∈ quotedFrom p skip s ↔ 32 ∈ s.drop skip := by
  induction s generalizing skip with
  | nil => cases skip <;> simp [quotedFrom]
  | cons b t ih =>
    cases skip with
    | succ skip => exact ih skip
    | zero =>
      obtain ⟨part,bytes,w,hp,he⟩ := quotedFrom_cons p b t
      rw [he,List.drop_zero,hp.split,List.mem_append,List.mem_append,ih]
      refine or_congr ⟨fun h => (hp.space 32 h (by decide)).2,fun h => ?_⟩ Iff.rfl
      rw [hp.blank h]
      exact List.mem_singleton_self 32

/-- Cut off at its first space, a quoted string has no quote at its end and cannot be read. -/
theorem unquoteFrom_cut (p : Printing) (skip : Nat) (s : GoString) (h : 32 ∈ s.drop skip) :
    unquoteFrom 34 0 true (utf8 ((quotedFrom p skip s).takeWhile (· ≠ 32))) = none := by
  induction s generalizing skip with
  | nil => simp at h
  | cons b t ih =>
    cases skip with
    | succ skip => exact ih skip h
    | zero =>
      obtain ⟨part,bytes,w,hp,he⟩ := quotedFrom_cons p b t
      rw [List.drop_zero,hp.split,List.mem_append] at h
      rw [he]
      by_cases hb : 32 ∈ bytes
      · rw [hp.blank hb]
        rfl
      · have clear : ∀ x ∈ part, decide (x ≠ 32) = true := fun x hx =>
          decide_eq_true fun hx' => hb (hp.space x hx (by rw [hx']; decide)).2
        rw [List.takeWhile_append_of_pos clear,utf8_append,hp.reads.read,ih w (h.resolve_left hb)]
        rfl

end Pggat.Base
