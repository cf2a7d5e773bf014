import Pggat.Base.Runes

/-! Texts in UTF-8 and the functions of `unicode/utf8` that take one rune off either end of a string. -/
namespace Pggat.Base

/-- The values that UTF-8 encodes. -/
def Scalar (r : Nat) : Prop := r ≤ 0x10FFFF ∧ ¬ (0xD800 ≤ r ∧ r ≤ 0xDFFF)

instance (r : Nat) : Decidable (Scalar r) := inferInstanceAs (Decidable (_ ∧ _))

def utf8 (rs : List Nat) : GoString := rs.flatMap encodeRune

/-- `utf8.DecodeRuneInString`: the first rune and its width. -/
def decodeRuneInString : GoString → Nat × Nat
  | [] => (runeError,0)
  | b :: t => decodeRune b t

/-- The loop of `utf8.DecodeLastRuneInString`: the distance from the end at which it stops. -/
def seekStart (s : GoString) : (tries back : Nat) → Nat
  | 0, back => back
  | tries+1, back =>
    match s.reverse[back - 1]? with
    | none => back
    | some b => if isContinuation b then seekStart s tries (back + 1) else back

/-- `utf8.DecodeLastRuneInString`: the last rune and its width. -/
def decodeLastRuneInString (s : GoString) : Nat × Nat :=
  match s.getLast? with
  | none => (runeError,0)
  | some b =>
    if b < 0x80 then (b.toNat,1)
    else
      let start := s.length - seekStart s 3 2
      let r := decodeRuneInString (s.drop start)
      if start + r.2 ≠ s.length then (runeError,1) else r

@[simp] theorem utf8_nil : utf8 [] = [] := rfl

@[simp] theorem utf8_cons (r : Nat) (rs : List Nat) : utf8 (r :: rs) = encodeRune r ++ utf8 rs := rfl

@[simp] theorem utf8_append (rs rs' : List Nat) : utf8 (rs ++ rs') = utf8 rs ++ utf8 rs' := List.flatMap_append

theorem utf8_eq_nil {rs : List Nat} : utf8 rs = [] ↔ rs = [] := by
  cases rs with
  | nil => simp
  | cons r rs => simp [encodeRune_ne_nil]

/-- The encoding of a rune by its length, with the values of the bytes. -/
inductive Encoding (r : Nat) : GoString → Prop
  | one {b : UInt8} (hb : b.toNat = r) (hr : r < 0x80) : Encoding r [b]
  | two {b b1 : UInt8} (hb : b.toNat = 0xC0 + r / 64) (h1 : b1.toNat = 0x80 + r % 64) (hl : 0x80 ≤ r) (hr : r < 0x800) :
    Encoding r [b,b1]
  | three {b b1 b2 : UInt8} (hb : b.toNat = 0xE0 + r / 4096) (h1 : b1.toNat = 0x80 + r / 64 % 64)
    (h2 : b2.toNat = 0x80 + r % 64) (hl : 0x800 ≤ r) (hr : r < 0x10000) (hs : ¬ (0xD800 ≤ r ∧ r ≤ 0xDFFF)) :
    Encoding r [b,b1,b2]
  | four {b b1 b2 b3 : UInt8} (hb : b.toNat = 0xF0 + r / 262144) (h1 : b1.toNat = 0x80 + r / 4096 % 64)
    (h2 : b2.toNat = 0x80 + r / 64 % 64) (h3 : b3.toNat = 0x80 + r % 64) (hl : 0x10000 ≤ r) (hr : r ≤ 0x10FFFF) :
    Encoding r [b,b1,b2,b3]

theorem toNat_ofNat_of_lt {n : Nat} (h : n < 256) : (UInt8.ofNat n).toNat = n := by
  rw [UInt8.toNat_ofNat']
  exact Nat.mod_eq_of_lt h

variable {r : Nat}

theorem encoding (h : Scalar r) : Encoding r (encodeRune r) := by
  obtain ⟨hmax,hs⟩ := h
  by_cases h1 : r < 0x80
  · rw [encodeRune,if_pos h1]
    exact .one (toNat_ofNat_of_lt (by omega)) h1
  by_cases h2 : r < 0x800
  · rw [encodeRune,if_neg h1,if_pos h2]
    exact .two (toNat_ofNat_of_lt (by omega)) (toNat_ofNat_of_lt (by omega)) (by omega) h2
  have hsur : ¬ ((decide (0xD800 ≤ r) && decide (r ≤ 0xDFFF) || decide (0x10FFFF < r)) = true) := by
    simp
    omega
  by_cases h3 : r < 0x10000
  · rw [encodeRune,if_neg h1,if_neg h2,if_neg hsur,if_pos h3]
    exact .three (toNat_ofNat_of_lt (by omega)) (toNat_ofNat_of_lt (by omega)) (toNat_ofNat_of_lt (by omega))
      (by omega) h3 hs
  · rw [encodeRune,if_neg h1,if_neg h2,if_neg hsur,if_neg h3]
    exact .four (toNat_ofNat_of_lt (by omega)) (toNat_ofNat_of_lt (by omega)) (toNat_ofNat_of_lt (by omega))
      (toNat_ofNat_of_lt (by omega)) (by omega) hmax

variable {b : UInt8}

theorem isContinuation_iff : isContinuation b = true ↔ 0x80 ≤ b.toNat ∧ b.toNat ≤ 0xBF := by
  simp only [isContinuation,Bool.and_eq_true,decide_eq_true_eq,UInt8.le_iff_toNat_le]
  rfl

variable {e : GoString}

/-- A rune is read back from its encoding, whatever follows. -/
theorem Encoding.decode (h : Encoding r e) (t : GoString) :
    decodeRuneInString (e ++ t) = (r,e.length) := by
  cases h with
  | one hb hr =>
    rw [List.cons_append,decodeRuneInString,decodeRune_ascii (UInt8.lt_iff_toNat_lt.mpr (by rw [hb]; exact hr)),hb]
    rfl
  | @two b b1 hb h1 hl hr =>
    have hc1 : isContinuation b1 = true := isContinuation_iff.mpr (by omega)
    have hlt : ¬ b < 0x80 := by
      rw [UInt8.lt_iff_toNat_lt,hb]
      simp
      omega
    have hlead : 0xC2 ≤ b ∧ b ≤ 0xDF := by
      rw [UInt8.le_iff_toNat_le,UInt8.le_iff_toNat_le,hb]
      simp
      omega
    simp only [List.cons_append,List.nil_append,decodeRuneInString,decodeRune,if_neg hlt,hlead,hc1,decide_true,
      Bool.and_self,if_true,hb,h1,Prod.mk.injEq,List.length_cons,List.length_nil,and_true]
    omega
  | @three b b1 b2 hb h1 h2 hl hr hs =>
    have hc1 : isContinuation b1 = true := isContinuation_iff.mpr (by omega)
    have hc2 : isContinuation b2 = true := isContinuation_iff.mpr (by omega)
    have hlt : ¬ b < 0x80 := by
      rw [UInt8.lt_iff_toNat_lt,hb]
      simp
      omega
    have htwo : ¬ b ≤ 0xDF := by
      rw [UInt8.le_iff_toNat_le,hb]
      simp
      omega
    have hlead : (0xE0 ≤ b ∧ b ≤ 0xEF) ∧ (b ≠ 0xE0 ∨ 0xA0 ≤ b1) ∧ (b ≠ 0xED ∨ b1 ≤ 0x9F) := by
      simp only [UInt8.le_iff_toNat_le,ne_eq,← UInt8.toNat_inj,hb,h1]
      simp
      omega
    simp only [List.cons_append,List.nil_append,decodeRuneInString,decodeRune,if_neg hlt,htwo,decide_false,
      Bool.and_false,Bool.false_and,Bool.false_eq_true,if_false]
    rw [if_pos (by simpa only [hc1, hc2, Bool.and_true, Bool.and_eq_true, Bool.or_eq_true, decide_eq_true_eq, and_assoc]
      using hlead),hb,h1,h2]
    refine Prod.ext ?_ rfl
    show _ = r
    omega
  | @four b b1 b2 b3 hb h1 h2 h3 hl hr =>
    have hc1 : isContinuation b1 = true := isContinuation_iff.mpr (by omega)
    have hc2 : isContinuation b2 = true := isContinuation_iff.mpr (by omega)
    have hc3 : isContinuation b3 = true := isContinuation_iff.mpr (by omega)
    have hlt : ¬ b < 0x80 := by
      rw [UInt8.lt_iff_toNat_lt,hb]
      simp
      omega
    have htwo : ¬ b ≤ 0xDF := by
      rw [UInt8.le_iff_toNat_le,hb]
      simp
      omega
    have hthree : ¬ b ≤ 0xEF := by
      rw [UInt8.le_iff_toNat_le,hb]
      simp
      omega
    have hlead : (0xF0 ≤ b ∧ b ≤ 0xF4) ∧ (b ≠ 0xF0 ∨ 0x90 ≤ b1) ∧ (b ≠ 0xF4 ∨ b1 ≤ 0x8F) := by
      simp only [UInt8.le_iff_toNat_le,ne_eq,← UInt8.toNat_inj,hb,h1]
      simp
      omega
    simp only [List.cons_append,List.nil_append,decodeRuneInString,decodeRune,if_neg hlt,htwo,hthree,decide_false,
      Bool.and_false,Bool.false_and,Bool.false_eq_true,if_false]
    rw [if_pos (by simpa only [hc1, hc2, hc3, Bool.and_true, Bool.and_eq_true, Bool.or_eq_true, decide_eq_true_eq,
      and_assoc] using hlead),hb,h1,h2,h3]
    refine Prod.ext ?_ rfl
    show _ = r
    omega

theorem Encoding.scalar (h : Encoding r e) : Scalar r := by
  rw [Scalar]
  cases h <;> omega

theorem Encoding.eq_encodeRune (h : Encoding r e) : e = encodeRune r := by
  have bytes {b : UInt8} {n : Nat} (hb : b.toNat = n) : b = UInt8.ofNat n := by
    rw [← hb,UInt8.ofNat_toNat]
  cases h with
  | one hb hr => rw [encodeRune,if_pos hr,bytes hb]
  | two hb h1 hl hr => rw [encodeRune,if_neg (by omega),if_pos hr,bytes hb,bytes h1]
  | three hb h1 h2 hl hr hs =>
    rw [encodeRune,if_neg (by omega),if_neg (by omega),if_neg (by simp; omega),if_pos hr,bytes hb,bytes h1,bytes h2]
  | four hb h1 h2 h3 hl hr =>
    rw [encodeRune,if_neg (by omega),if_neg (by omega),if_neg (by simp; omega),if_neg (by omega),bytes hb,bytes h1,
      bytes h2,bytes h3]

/-- The bytes that a rune was read from are its encoding, unless the first starts none. -/
theorem decodeRune_encoding (b : UInt8) (t : GoString) :
    decodeRune b t = (runeError,1) ∨ Encoding (decodeRune b t).1 ((b :: t).take (decodeRune b t).2) := by
  by_cases hb : b < 0x80
  · rw [decodeRune_ascii hb]
    exact .inr (.one rfl (UInt8.lt_iff_toNat_lt.mp hb))
  unfold decodeRune
  rw [if_neg hb]
  rcases t with _ | ⟨b1,t⟩
  · exact .inl rfl
  dsimp only
  split
  · rename_i h2
    simp only [Bool.and_eq_true,decide_eq_true_eq,isContinuation_iff,UInt8.le_iff_toNat_le] at h2
    simp at h2
    exact .inr (.two (by omega) (by omega) (by omega) (by omega))
  rcases t with _ | ⟨b2,t⟩
  · exact .inl rfl
  dsimp only
  split
  · rename_i h3
    simp only [Bool.and_eq_true,Bool.or_eq_true,decide_eq_true_eq,isContinuation_iff,UInt8.le_iff_toNat_le,ne_eq,
      ← UInt8.toNat_inj] at h3
    simp at h3
    exact .inr (.three (by omega) (by omega) (by omega) (by omega) (by omega) (by omega))
  rcases t with _ | ⟨b3,t⟩
  · exact .inl rfl
  dsimp only
  split
  · rename_i h4
    simp only [Bool.and_eq_true,Bool.or_eq_true,decide_eq_true_eq,isContinuation_iff,UInt8.le_iff_toNat_le,ne_eq,
      ← UInt8.toNat_inj] at h4
    simp at h4
    exact .inr (.four (by omega) (by omega) (by omega) (by omega) (by omega) (by omega))
  · exact .inl rfl

/-- An encoding is one ASCII character, or a first byte that continues nothing and up to three that do. -/
theorem Encoding.shape (h : Encoding r e) :
    (∃ b, e = [b] ∧ b.toNat = r ∧ b < 0x80) ∨
      ∃ b m c, e = b :: (m ++ [c]) ∧ isContinuation b = false ∧ (∀ x ∈ m, isContinuation x = true) ∧
        isContinuation c = true ∧ m.length ≤ 2 := by
  have first {b : UInt8} (hb : 0xC0 ≤ b.toNat) : isContinuation b = false := by
    rw [Bool.eq_false_iff,ne_eq,isContinuation_iff]
    omega
  have later {b : UInt8} {n : Nat} (hb : b.toNat = 0x80 + n % 64) : isContinuation b = true :=
    isContinuation_iff.mpr (by omega)
  cases h with
  | one hb hr => exact .inl ⟨_,rfl,hb,UInt8.lt_iff_toNat_lt.mpr (by rw [hb]; exact hr)⟩
  | two hb h1 => exact .inr ⟨_,[],_,rfl,first (by omega),by simp,later h1,by simp⟩
  | three hb h1 h2 => exact .inr ⟨_,[_],_,rfl,first (by omega),by simpa using later h1,later h2,by simp⟩
  | four hb h1 h2 h3 =>
    exact .inr ⟨_,[_,_],_,rfl,first (by omega),by simpa using ⟨later h1,later h2⟩,later h3,by simp⟩

private theorem seekStart_encoding (s : GoString) {m : GoString} {c : UInt8} (hb : isContinuation b = false)
    (hm : ∀ x ∈ m, isContinuation x = true) (hl : m.length ≤ 2) :
    seekStart (s ++ b :: (m ++ [c])) 3 2 = m.length + 2 := by
  rcases m with _ | ⟨x,_ | ⟨y,_ | ⟨z,m⟩⟩⟩
  · simp [seekStart,hb]
  · simp [seekStart,hb,hm x (by simp)]
  · simp [seekStart,hb,hm x (by simp),hm y (by simp)]
  · simp at hl

/-- A rune is read back from its encoding, whatever stands before. -/
theorem Encoding.decodeLast (h : Encoding r e) (s : GoString) :
    decodeLastRuneInString (s ++ e) = (r,e.length) := by
  rcases h.shape with ⟨b,rfl,hb,hlt⟩ | ⟨b,m,c,he,hb,hm,hc,hl⟩
  · rw [decodeLastRuneInString,List.getLast?_concat]
    simp only [if_pos hlt,hb,List.length_singleton]
  · have hlast : (s ++ e).getLast? = some c := by
      rw [he,← List.cons_append,← List.append_assoc,List.getLast?_concat]
    have hge : ¬ c < 0x80 := by
      have := (isContinuation_iff.mp hc).1
      rw [UInt8.lt_iff_toNat_lt]
      exact Nat.not_lt.mpr this
    have hlen : e.length = m.length + 2 := by simp [he]
    have hseek : seekStart (s ++ e) 3 2 = e.length := by rw [he,seekStart_encoding s hb hm hl,← he,hlen]
    have hstart : (s ++ e).length - seekStart (s ++ e) 3 2 = s.length := by
      rw [hseek,List.length_append,Nat.add_sub_cancel]
    have hdec : decodeRuneInString e = (r,e.length) := by simpa using h.decode []
    rw [decodeLastRuneInString,hlast]
    simp only [if_neg hge,hstart,List.drop_left,hdec]
    rw [if_neg (by rw [List.length_append]; simp)]

theorem decodeRuneInString_utf8 (h : Scalar r) (rs : List Nat) :
    decodeRuneInString (utf8 (r :: rs)) = (r,(encodeRune r).length) := (encoding h).decode _

theorem decodeLastRuneInString_utf8 (h : Scalar r) (rs : List Nat) :
    decodeLastRuneInString (utf8 (rs ++ [r])) = (r,(encodeRune r).length) := by
  have := (encoding h).decodeLast (utf8 rs)
  rwa [utf8_append,utf8_cons,utf8_nil,List.append_nil]

end Pggat.Base
