import Pggat.Base.Runes

/-! The query text that `SetParameter` builds and how the server's lexer reads it.
`readSet` follows the rules under `standard_conforming_strings = on`: a quote inside a quoted token
is written by doubling it and a backslash is an ordinary character. -/
namespace Pggat.Backends
open Pggat.Base

abbrev quote : UInt8 := 0x27
abbrev doubleQuote : UInt8 := 0x22
abbrev backslash : UInt8 := 0x5C

/-- The runes that `Escape` writes a backslash before. -/
def special (char : UInt8) (r : Nat) : Bool := r = char.toNat || r = backslash.toNat

/-- What `Escape` writes for one rune. -/
def escapeRune (char : UInt8) (r : Nat) : GoString :=
  if special char r then backslash :: encodeRune r else encodeRune r

/-- `strutil.Escape`; a string without special runes is returned as it is. -/
def escape (str : GoString) (char : UInt8) : GoString :=
  if (runes str).any (special char) then (runes str).flatMap (escapeRune char) else str

def setParameter (name value : GoString) : GoString :=
  ascii ['S', 'E', 'T', ' ', '"'] ++ escape name doubleQuote ++
  ascii ['"', ' ', '=', ' ', '\''] ++ escape value quote ++
  ascii ['\'']

/-- The rest of a quoted token after its opening quote, and the text behind its closing quote. -/
def readQuoted (q : UInt8) : GoString → Option (GoString × GoString)
  | [] => none
  | [b] => if b = q then some ([],[]) else none
  | b :: c :: t =>
    if b = q then
      if c = q then (readQuoted q t).map fun r => (q :: r.1,r.2) else some ([],c :: t)
    else (readQuoted q (c :: t)).map fun r => (b :: r.1,r.2)

def isSpace (b : UInt8) : Bool := b = 0x20 || (0x09 ≤ b && b ≤ 0x0D)

/-- Whether the lexer is between tokens, in a comment to the end of the line, or in nested block comments. -/
inductive Blank where
  | code
  | line
  | block (depth : Nat)

/-- Skip white space and comments; `none` when a block comment does not end. -/
def skipBlank : Blank → GoString → Option GoString
  | .code, [] | .line, [] => some []
  | .block _, [] => none
  | .code, [b] => if isSpace b then some [] else some [b]
  | .line, [_] => some []
  | .block _, [_] => none
  | .code, b :: c :: t =>
    if isSpace b then skipBlank .code (c :: t)
    else if b = 0x2D && c = 0x2D then skipBlank .line t
    else if b = 0x2F && c = 0x2A then skipBlank (.block 0) t
    else some (b :: c :: t)
  | .line, b :: c :: t => if b = 0x0A || b = 0x0D then skipBlank .code (c :: t) else skipBlank .line (c :: t)
  | .block depth, b :: c :: t =>
    if b = 0x2F && c = 0x2A then skipBlank (.block (depth + 1)) t
    else if b = 0x2A && c = 0x2F then
      match depth with
      | 0 => skipBlank .code t
      | depth+1 => skipBlank (.block depth) t
    else skipBlank (.block depth) (c :: t)

def expect (b : UInt8) (text : GoString) : Option GoString :=
  match skipBlank .code text with
  | some (c :: t) => if c = b then some t else none
  | _ => none

def isLetter (b : UInt8) : Bool := (0x41 ≤ b && b ≤ 0x5A) || (0x61 ≤ b && b ≤ 0x7A)

def toLower (b : UInt8) : UInt8 := if 0x41 ≤ b && b ≤ 0x5A then b + 0x20 else b

def expectSet (text : GoString) : Option GoString :=
  (skipBlank .code text).bind fun t =>
    if (t.takeWhile isLetter).map toLower = ascii ['s', 'e', 't'] then some (t.dropWhile isLetter) else none

/-- Nothing but blanks is left, behind at most one semicolon. -/
def atEnd (text : GoString) : Bool :=
  skipBlank .code text = some [] || (expect 0x3B text).any fun t => skipBlank .code t = some []

/-- The value of a text ` = 'value'`. -/
def readValue (text : GoString) : Option GoString := do
  let t ← expect 0x3D text
  let t ← expect quote t
  let (value,t) ← readQuoted quote t
  if atEnd t then some value else none

/-- The name and the value of a text that is exactly one statement `SET "name" = 'value'`. -/
def readSet (text : GoString) : Option (GoString × GoString) := do
  let t ← expectSet text
  let t ← expect doubleQuote t
  let (name,t) ← readQuoted doubleQuote t
  let value ← readValue t
  some (name,value)

/-- No byte of the string is the quote or a backslash. -/
def Plain (q : UInt8) (s : GoString) : Prop := q ∉ s ∧ backslash ∉ s

instance (q : UInt8) (s : GoString) : Decidable (Plain q s) := inferInstanceAs (Decidable (_ ∧ _))

section Quoted
variable {q : UInt8}

theorem readQuoted_append (u v : GoString) (hu : q ∉ u) :
    readQuoted q (u ++ v) = (readQuoted q v).map fun r => (u ++ r.1,r.2) := by
  induction u with
  | nil => simp
  | cons b u ih =>
    simp only [List.mem_cons,not_or] at hu
    obtain ⟨hb,hu⟩ := hu
    have hb : b ≠ q := Ne.symm hb
    rw [List.cons_append]
    cases huv : u ++ v with
    | nil =>
      obtain ⟨rfl,rfl⟩ := List.append_eq_nil_iff.mp huv
      simp [readQuoted,hb]
    | cons c t =>
      rw [readQuoted,if_neg hb,← huv,ih hu,Option.map_map]
      rfl

variable {rest : GoString}

theorem readQuoted_close (h : rest.head? ≠ some q) :
    readQuoted q (q :: rest) = some ([],rest) := by
  cases rest with
  | nil => simp [readQuoted]
  | cons c t =>
    have hc : c ≠ q := fun he => h (by simp [he])
    simp [readQuoted,hc]

theorem readQuoted_plain {u : GoString} (hu : q ∉ u) (h : rest.head? ≠ some q) :
    readQuoted q (u ++ q :: rest) = some (u,rest) := by
  simp [readQuoted_append u _ hu,readQuoted_close h]

end Quoted

section Escape
variable {q : UInt8} (hq : q < 0x80) (hne : q ≠ backslash)
include hq

variable {s : GoString}

theorem any_special_eq_false : (runes s).any (special q) = false ↔ Plain q s := by
  have hcq := count_runes hq s
  have hcb := count_runes (a := backslash) (by decide) s
  simp only [List.any_eq_false,special,Bool.or_eq_true,decide_eq_true_eq,not_or]
  rw [Plain,← List.count_eq_zero,← List.count_eq_zero,← hcq,← hcb,List.count_eq_zero,List.count_eq_zero]
  constructor
  · intro h
    exact ⟨fun hm => (h _ hm).1 rfl,fun hm => (h _ hm).2 rfl⟩
  · rintro ⟨hmq,hmb⟩ r hr
    exact ⟨fun he => hmq (he ▸ hr),fun he => hmb (he ▸ hr)⟩

theorem escape_plain (h : Plain q s) : escape s q = s := by
  rw [escape,(any_special_eq_false hq).mpr h]
  rfl

include hne

omit hq in
private theorem count_backslash (rs : List Nat) :
    (rs.flatMap (escapeRune q)).count backslash = 2 * rs.count backslash.toNat + rs.count q.toNat := by
  have hnat : q.toNat ≠ backslash.toNat := fun h => hne (UInt8.toNat_inj.mp h)
  induction rs with
  | nil => rfl
  | cons r rs ih =>
    have hr : (escapeRune q r).count backslash =
        (if special q r then 1 else 0) + (if r = backslash.toNat then 1 else 0) := by
      unfold escapeRune
      split
      · rw [List.count_cons_self,count_encodeRune (by decide),Nat.add_comm]
      · rw [count_encodeRune (by decide),Nat.zero_add]
    rw [List.flatMap_cons,List.count_append,ih,hr,List.count_cons,List.count_cons]
    simp only [special,Bool.or_eq_true,decide_eq_true_eq,beq_iff_eq]
    by_cases hb : r = backslash.toNat
    · have hrq : r ≠ q.toNat := fun h => hnat (h.symm.trans hb)
      simp only [hb,or_true,if_true,if_neg (hb ▸ hrq)]
      omega
    · simp only [hb,or_false,if_false]
      omega

private theorem not_mem_escaped {rs : List Nat} (h : q.toNat ∉ rs) : q ∉ rs.flatMap (escapeRune q) := by
  intro hm
  obtain ⟨r,hr,hm⟩ := List.mem_flatMap.mp hm
  have hrq : r ≠ q.toNat := fun he => h (he ▸ hr)
  have hn : q ∉ encodeRune r := List.count_eq_zero.mp (by simp [count_encodeRune hq,hrq])
  unfold escapeRune at hm
  split at hm
  · exact (List.mem_cons.mp hm).elim hne hn
  · exact hn hm

private theorem escapeRune_cons (r : Nat) : ∃ b u, escapeRune q r = b :: u ∧ b ≠ q := by
  unfold escapeRune
  split
  · exact ⟨backslash,_,rfl,hne.symm⟩
  · rename_i hs
    have hrq : r ≠ q.toNat := fun he => hs (by simp [special,he])
    have hn : q ∉ encodeRune r := List.count_eq_zero.mp (by simp [count_encodeRune hq,hrq])
    cases he : encodeRune r with
    | nil => exact absurd he (encodeRune_ne_nil r)
    | cons b u => exact ⟨b,u,rfl,fun hb => hn (by simp [he,hb])⟩

/-- A string with a quote or a backslash is never read back: either its first quote ends the token, or
the token holds more backslashes than the string. -/
theorem readQuoted_escape_ne {c r rest : GoString} (hs : ¬ Plain q s) (hrest : rest.head? ≠ some q)
    (h : readQuoted q (escape s q ++ q :: rest) = some (c,r)) : c ≠ s := by
  have hany : (runes s).any (special q) = true := by
    by_contra hn
    exact hs ((any_special_eq_false hq).mp (by simpa using hn))
  rw [escape,if_pos hany] at h
  have hcb := count_runes (a := backslash) (by decide) s
  have hcq := count_runes hq s
  by_cases hm : q.toNat ∈ runes s
  · obtain ⟨pre,post,hsplit,hpre⟩ := List.eq_append_cons_of_mem hm
    have hqq : escapeRune q q.toNat = [backslash, q] := by
      simp [escapeRune,special,encodeRune_ascii hq]
    have hclean : q ∉ pre.flatMap (escapeRune q) ++ [backslash] := by
      simp [not_mem_escaped hq hne hpre,hne]
    have htext : (runes s).flatMap (escapeRune q) ++ q :: rest =
        (pre.flatMap (escapeRune q) ++ [backslash]) ++ q :: (post.flatMap (escapeRune q) ++ q :: rest) := by
      simp [hsplit,hqq]
    rw [htext,readQuoted_append _ _ hclean] at h
    cases post with
    | nil =>
      rw [List.flatMap_nil,List.nil_append,readQuoted,if_pos rfl,if_pos rfl,Option.map_map] at h
      obtain ⟨⟨c',r'⟩,_,he⟩ := Option.map_eq_some_iff.mp h
      cases he
      intro he
      have hc := congrArg (List.count backslash) he
      have hpost : (runes s).count backslash.toNat = pre.count backslash.toNat := by
        have hqb : q.toNat ≠ backslash.toNat := fun hqb => hne (UInt8.toNat_inj.mp hqb)
        simp [hsplit,hqb]
      simp only [List.count_append,count_backslash hne,List.count_cons_self,← hcb,hpost] at hc
      omega
    | cons x post =>
      obtain ⟨b,u,hx,hb⟩ := escapeRune_cons hq hne x
      rw [readQuoted_close (by simp [hx, hb])] at h
      cases h
      intro he
      rw [List.append_nil] at he
      refine hclean ?_
      rw [he,← List.count_pos_iff,← hcq]
      exact List.count_pos_iff.mpr hm
  · rw [readQuoted_plain (not_mem_escaped hq hne hm) hrest] at h
    cases h
    intro he
    have hc := count_backslash hne (runes s)
    rw [he,← hcb,List.count_eq_zero.mpr hm] at hc
    refine hs ⟨List.count_eq_zero.mp ?_,List.count_eq_zero.mp ?_⟩
    · rw [← hcq]
      exact List.count_eq_zero.mpr hm
    · omega

end Escape

section Reading

variable {b : UInt8}

private theorem skipBlank_space (h : isSpace b = true) (t : GoString) :
    skipBlank .code (b :: t) = skipBlank .code t := by
  cases t <;> simp [skipBlank,h]

theorem skipBlank_token (h : isSpace b = false ∧ b ≠ 0x2D ∧ b ≠ 0x2F) (t : GoString) :
    skipBlank .code (b :: t) = some (b :: t) := by
  cases t <;> simp [skipBlank,h]

theorem expect_space {c : UInt8} (h : isSpace c = true) (t : GoString) : expect b (c :: t) = expect b t := by
  simp only [expect,skipBlank_space h]

theorem expect_token (h : isSpace b = false ∧ b ≠ 0x2D ∧ b ≠ 0x2F) (t : GoString) :
    expect b (b :: t) = some t := by
  simp [expect,skipBlank_token h]

end Reading

/-- What follows the name in the text of `setParameter`. -/
def setValue (value : GoString) : GoString := ascii [' ', '=', ' ', '\''] ++ (escape value quote ++ [quote])

private theorem readValue_setValue (value : GoString) : readValue (setValue value) =
    (readQuoted quote (escape value quote ++ [quote])).bind fun v => if atEnd v.2 then some v.1 else none := by
  have htext : setValue value = 0x20 :: 0x3D :: 0x20 :: quote :: (escape value quote ++ [quote]) := rfl
  rw [readValue,htext,expect_space (by decide),expect_token (by decide),Option.bind_eq_bind,Option.bind_some,
    expect_space (by decide),expect_token (by decide)]
  rfl

private theorem readSet_setParameter (name value : GoString) : readSet (setParameter name value) =
    (readQuoted doubleQuote (escape name doubleQuote ++ doubleQuote :: setValue value)).bind fun n =>
      (readValue n.2).bind fun v => some (n.1,v) := by
  have htext : setParameter name value = 0x53 :: 0x45 :: 0x54 :: 0x20 :: doubleQuote ::
      (escape name doubleQuote ++ doubleQuote :: setValue value) := by
    simp [setParameter,setValue,ascii]
  have hset : ∀ t, expectSet (0x53 :: 0x45 :: 0x54 :: 0x20 :: t) = some (0x20 :: t) := by
    intro t
    rw [expectSet,skipBlank_token (by decide)]
    rfl
  rw [readSet,htext,hset,Option.bind_eq_bind,Option.bind_some,expect_space (by decide),expect_token (by decide)]
  rfl

/-- The text of `setParameter` is one `SET` of the name to the value exactly when neither the name nor
the value holds a character that `escape` puts a backslash before. -/
theorem setParameter_denotes (name value : GoString) :
    readSet (setParameter name value) = some (name,value) ↔ Plain doubleQuote name ∧ Plain quote value := by
  have hend : atEnd [] = true := by decide
  have hhead : (setValue value).head? ≠ some doubleQuote := by
    rw [setValue]
    exact (by decide : (some 0x20 : Option UInt8) ≠ some doubleQuote)
  rw [readSet_setParameter]
  constructor
  · intro h
    obtain ⟨⟨n,t⟩,hn,h⟩ := Option.bind_eq_some_iff.mp h
    obtain ⟨v,hv,h⟩ := Option.bind_eq_some_iff.mp h
    cases h
    have hname : Plain doubleQuote n := by
      by_contra hp
      exact readQuoted_escape_ne (by decide) (by decide) hp hhead hn rfl
    rw [escape_plain (by decide) hname,readQuoted_plain hname.1 hhead] at hn
    cases hn
    refine ⟨hname,?_⟩
    by_contra hp
    rw [readValue_setValue] at hv
    obtain ⟨⟨v',t⟩,hq,hv⟩ := Option.bind_eq_some_iff.mp hv
    split at hv
    · cases hv
      exact readQuoted_escape_ne (by decide) (by decide) hp (by simp) hq rfl
    · cases hv
  · rintro ⟨hn,hv⟩
    rw [escape_plain (by decide) hn,readQuoted_plain hn.1 hhead,Option.bind_some,readValue_setValue,
      escape_plain (by decide) hv,readQuoted_plain hv.1 (by simp),Option.bind_some,if_pos hend,Option.bind_some]

/-- A value with an apostrophe ends its literal early, and one with a backslash is set doubled. -/
theorem setParameter_misread :
    readSet (setParameter (ascii ['a']) (ascii ['i', 't', '\'', 's'])) = none ∧
    readSet (setParameter (ascii ['a']) (ascii ['\\'])) = some (ascii ['a'],ascii ['\\', '\\']) := by
  decide

end Pggat.Backends
