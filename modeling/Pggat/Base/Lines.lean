import Pggat.Base.Encodings
import Pggat.Base.Utf8

/-! Texts read line by line: white space at the ends of a line is trimmed, and empty lines are passed over. -/
namespace Pggat.Base

/-- A string behind the spaces at its front, after `skip` bytes of a space. -/
def trimLeftFrom : (skip : Nat) → GoString → GoString
  | _, [] => []
  | skip+1, _ :: t => trimLeftFrom skip t
  | 0, b :: t => if isSpace (decodeRune b t).1 then trimLeftFrom ((decodeRune b t).2 - 1) t else b :: t

/-- A string in front of the spaces at its end. A turn takes one off. -/
def trimRightTurns : (turns : Nat) → GoString → GoString
  | 0, s => s
  | turns+1, s =>
    if isSpace (decodeLastRuneInString s).1 then trimRightTurns turns (s.take (s.length - (decodeLastRuneInString s).2))
    else s

def trimRight (s : GoString) : GoString := trimRightTurns s.length s

/-- `bytes.TrimSpace` -/
def trimSpace (s : GoString) : GoString := trimRight (trimLeftFrom 0 s)

/-- `bytes.Split` at a separator of one byte. -/
def splitAt (sep : UInt8) : GoString → List GoString
  | [] => [[]]
  | b :: t => if b = sep then [] :: splitAt sep t else (splitAt sep t).modifyHead (b :: ·)

def lines (data : GoString) : List GoString := splitAt 10 data

/-- The lines of a text that are not blank, without the white space at their ends. -/
def content (data : GoString) : List GoString := ((lines data).map trimSpace).filter (· ≠ [])

/-- `bytes.Cut` at a line end: the first line and what is behind it. -/
def cutLine (data : GoString) : GoString × GoString := (cut 10 data).getD (data,[])

/-- The loop of a parser that takes a step for each line that is not blank. -/
def eachLine {σ ε : Type} (step : σ → GoString → Except ε σ) : (turns : Nat) → σ → GoString → Except ε σ
  | 0, s, _ => .ok s
  | turns+1, s, data =>
    let line := trimSpace (cutLine data).1
    let data := (cutLine data).2
    if line = [] then if data = [] then .ok s else eachLine step turns s data
    else do
      let s ← step s line
      eachLine step turns s data

variable {t : GoString}

/-- A string that is cut off behind its first byte starts with the same rune or with an invalid one. -/
theorem decodeRune_prefix (b : UInt8) {t' : GoString} (h : t' <+: t) :
    decodeRune b t' = decodeRune b t ∨ decodeRune b t' = (runeError,1) := by
  obtain ⟨r,rfl⟩ := h
  by_cases hb : b < 0x80
  · exact .inl (by rw [decodeRune_ascii hb,decodeRune_ascii hb])
  · rcases t' with _ | ⟨b1,_ | ⟨b2,_ | ⟨b3,t'⟩⟩⟩
    · exact .inr (by simp [decodeRune,hb])
    · simp only [List.cons_append,List.nil_append,decodeRune,if_neg hb]
      split
      · exact .inl rfl
      · exact .inr rfl
    · simp only [List.cons_append,List.nil_append,decodeRune,if_neg hb]
      split
      · exact .inl rfl
      · split
        · exact .inl rfl
        · exact .inr rfl
    · exact .inl rfl

theorem isSpace_runeError : isSpace runeError = false := by decide

variable {s : GoString} {b : UInt8}

/-- Behind the spaces at the front no space comes first. -/
theorem isSpace_trimLeftFrom {skip : Nat} (h : trimLeftFrom skip s = b :: t) :
    isSpace (decodeRune b t).1 = false := by
  fun_induction trimLeftFrom skip s with
  | case1 => cases h
  | case2 skip b' t' ih => exact ih h
  | case3 b' t' hs ih => exact ih h
  | case4 b' t' hs =>
    cases h
    simpa using hs

theorem trimLeftFrom_of_head (h : isSpace (decodeRune b t).1 = false) :
    trimLeftFrom 0 (b :: t) = b :: t := by
  simp [trimLeftFrom,h]

theorem trimRightTurns_prefix (turns : Nat) (s : GoString) : trimRightTurns turns s <+: s := by
  induction turns generalizing s with
  | zero => exact List.prefix_refl s
  | succ turns ih =>
    rw [trimRightTurns]
    split
    · exact (ih _).trans (List.take_prefix _ _)
    · exact List.prefix_refl s

private theorem le_seekStart (s : GoString) (tries back : Nat) : back ≤ seekStart s tries back := by
  fun_induction seekStart s tries back with
  | case1 | case2 | case4 => exact Nat.le_refl _
  | case3 => omega

/-- The last rune of a string that ends in a space takes at least a byte. -/
theorem decodeLastRuneInString_pos (h : isSpace (decodeLastRuneInString s).1 = true) :
    0 < s.length ∧ 0 < (decodeLastRuneInString s).2 := by
  rw [decodeLastRuneInString] at h ⊢
  cases hl : s.getLast? with
  | none =>
    rw [hl] at h
    exact absurd h (by simp [isSpace_runeError])
  | some b =>
    have hs : 0 < s.length := List.length_pos_of_ne_nil fun he => by simp [he] at hl
    refine ⟨hs,?_⟩
    dsimp only
    split
    · exact Nat.one_pos
    split
    · exact Nat.one_pos
    · rename_i hend
      have := le_seekStart s 3 2
      omega

variable {turns : Nat}

/-- In front of the spaces at the end no space comes last. -/
theorem isSpace_trimRightTurns (h : s.length ≤ turns) :
    isSpace (decodeLastRuneInString (trimRightTurns turns s)).1 = false := by
  induction turns generalizing s with
  | zero =>
    rw [List.length_eq_zero_iff.mp (Nat.le_zero.mp h)]
    exact isSpace_runeError
  | succ turns ih =>
    rw [trimRightTurns]
    split
    · rename_i hs
      obtain ⟨hl,hw⟩ := decodeLastRuneInString_pos hs
      refine ih ?_
      rw [List.length_take]
      omega
    · rename_i hs
      simpa using hs

theorem trimRight_of_last (h : isSpace (decodeLastRuneInString s).1 = false) : trimRight s = s := by
  rw [trimRight]
  cases s.length with
  | zero => rfl
  | succ n => simp [trimRightTurns,h]

/-- Trimming a second time changes nothing. -/
theorem trimSpace_trimSpace (s : GoString) : trimSpace (trimSpace s) = trimSpace s := by
  have last : isSpace (decodeLastRuneInString (trimSpace s)).1 = false := isSpace_trimRightTurns (Nat.le_refl _)
  have left : trimLeftFrom 0 (trimSpace s) = trimSpace s := by
    cases hs : trimSpace s with
    | nil => rfl
    | cons b t =>
      have pre : b :: t <+: trimLeftFrom 0 s := hs ▸ trimRightTurns_prefix _ _
      cases hu : trimLeftFrom 0 s with
      | nil => simp [hu] at pre
      | cons b' t' =>
        rw [hu,List.cons_prefix_cons] at pre
        obtain ⟨rfl,pre⟩ := pre
        refine trimLeftFrom_of_head ?_
        rcases decodeRune_prefix b pre with h | h
        · rw [h]
          exact isSpace_trimLeftFrom hu
        · rw [h]
          exact isSpace_runeError
  rw [trimSpace,left,trimRight_of_last last]

private theorem trimLeftFrom_suffix (skip : Nat) (s : GoString) : trimLeftFrom skip s <:+ s := by
  fun_induction trimLeftFrom skip s with
  | case1 => exact List.suffix_refl []
  | case2 skip b t ih => exact ih.trans (List.suffix_cons b t)
  | case3 b t hs ih => exact ih.trans (List.suffix_cons b t)
  | case4 => exact List.suffix_refl _

theorem mem_of_mem_trimSpace (h : b ∈ trimSpace s) : b ∈ s :=
  (trimLeftFrom_suffix 0 s).subset (( trimRightTurns_prefix _ _).subset h)

/-- A string between two ASCII characters that are no spaces is not trimmed. -/
theorem trimSpace_of_ends {c : UInt8} (m : GoString) (hb : b < 0x80) (hc : c < 0x80) (hbs : isSpace b.toNat = false)
    (hcs : isSpace c.toNat = false) : trimSpace (b :: (m ++ [c])) = b :: (m ++ [c]) := by
  rw [trimSpace,trimLeftFrom_of_head (by rw [decodeRune_ascii hb]; exact hbs)]
  refine trimRight_of_last ?_
  have : (b :: (m ++ [c])).getLast? = some c := by rw [← List.cons_append,List.getLast?_concat]
  rw [decodeLastRuneInString,this]
  simp [hc,hcs]

private theorem fieldsFrom_zero (space space' : Bool) (field s : GoString) :
    fieldsFrom 0 space field s = fieldsFrom 0 space' field s := by
  cases s <;> rfl

private theorem fieldsFrom_skip (space : Bool) (field l t : GoString) :
    fieldsFrom l.length space field (l ++ t) = fieldsFrom 0 space (if space then field else field ++ l) t := by
  induction l generalizing field with
  | nil => simp
  | cons b l ih =>
    rw [List.length_cons,List.cons_append,fieldsFrom,ih]
    cases space <;> simp

theorem fieldsFrom_rune {r : Nat} (h : Scalar r) (space : Bool) (field t : GoString) :
    fieldsFrom 0 space field (encodeRune r ++ t) =
      if isSpace r then (if field = [] then [] else [field]) ++ fieldsFrom 0 true [] t
      else fieldsFrom 0 false (field ++ encodeRune r) t := by
  have enc := encoding h
  obtain ⟨b,l,he⟩ := List.exists_cons_of_ne_nil (encodeRune_ne_nil r)
  rw [he] at enc ⊢
  have decoded := enc.decode t
  rw [List.cons_append,decodeRuneInString] at decoded
  rw [List.cons_append,fieldsFrom,decoded,List.length_cons,Nat.add_sub_cancel]
  split
  · rw [fieldsFrom_skip,if_pos rfl]
  · rw [fieldsFrom_skip,if_neg (by decide),List.append_assoc,List.singleton_append]

variable {rs : List Nat}

theorem fieldsFrom_word (h : ∀ r ∈ rs, Scalar r ∧ isSpace r = false) (space : Bool) (field t : GoString) :
    fieldsFrom 0 space field (utf8 rs ++ t) = fieldsFrom 0 space (field ++ utf8 rs) t := by
  induction rs generalizing field with
  | nil => simp
  | cons r rs ih =>
    obtain ⟨hr,hs⟩ := h r List.mem_cons_self
    rw [utf8_cons,List.append_assoc,fieldsFrom_rune hr,if_neg (by simp [hs]),fieldsFrom_zero false space,
      ih (fun x hx => h x (List.mem_cons_of_mem r hx)),List.append_assoc]

theorem fields_word (h : ∀ r ∈ rs, Scalar r ∧ isSpace r = false) (hne : rs ≠ []) :
    fields (utf8 rs) = [utf8 rs] := by
  have := fieldsFrom_word h true [] []
  rw [List.append_nil,List.nil_append] at this
  rw [fields,this,fieldsFrom,if_neg fun he => hne (utf8_eq_nil.mp he)]

theorem fields_word_blank (h : ∀ r ∈ rs, Scalar r ∧ isSpace r = false) (hne : rs ≠ []) (t : GoString) :
    fields (utf8 rs ++ 32 :: t) = utf8 rs :: fields t := by
  rw [fields,fieldsFrom_word h,List.nil_append,show (32 : UInt8) :: t = encodeRune 32 ++ t from rfl,
    fieldsFrom_rune (by decide),if_pos (by decide),if_neg fun he => hne (utf8_eq_nil.mp he)]
  rfl

private theorem lines_nil : lines [] = [[]] := rfl

theorem lines_cons (b : UInt8) (t : GoString) :
    lines (b :: t) = if b = 10 then [] :: lines t else (lines t).modifyHead (b :: ·) := rfl

theorem lines_ne_nil (data : GoString) : lines data ≠ [] := by
  induction data with
  | nil => simp [lines_nil]
  | cons b t ih =>
    rw [lines_cons]
    split
    · simp
    · obtain ⟨l,ls,h⟩ := List.exists_cons_of_ne_nil ih
      simp [h]

variable {line : GoString}

private theorem lines_of_not_mem (h : 10 ∉ line) : lines line = [line] := by
  induction line with
  | nil => rfl
  | cons b t ih =>
    rw [List.mem_cons,not_or] at h
    rw [lines_cons,if_neg fun he => h.1 he.symm,ih h.2]
    rfl

private theorem lines_append (a b : GoString) : lines (a ++ 10 :: b) = lines a ++ lines b := by
  induction a with
  | nil => simp [lines_nil,lines_cons]
  | cons x a ih =>
    rw [List.cons_append,lines_cons,lines_cons,ih]
    split
    · rfl
    · obtain ⟨l,ls,h⟩ := List.exists_cons_of_ne_nil (lines_ne_nil a)
      simp [h]

variable {data : GoString}

theorem not_mem_of_mem_lines (h : line ∈ lines data) : 10 ∉ line := by
  induction data generalizing line with
  | nil =>
    rw [lines_nil,List.mem_singleton] at h
    simp [h]
  | cons b t ih =>
    rw [lines_cons] at h
    split at h
    · rcases List.mem_cons.mp h with rfl | h
      · simp
      · exact ih h
    · rename_i hb
      obtain ⟨l,ls,hl⟩ := List.exists_cons_of_ne_nil (lines_ne_nil t)
      rw [hl] at h ih
      rcases List.mem_cons.mp h with rfl | h
      · simpa [Ne.symm hb] using ih List.mem_cons_self
      · exact ih (List.mem_cons_of_mem _ h)

@[simp] theorem content_nil : content [] = [] := rfl

theorem content_append (a b : GoString) : content (a ++ 10 :: b) = content a ++ content b := by
  rw [content,lines_append,List.map_append,List.filter_append,content,content]

theorem content_of_not_mem (h : 10 ∉ line) :
    content line = if trimSpace line = [] then [] else [trimSpace line] := by
  rw [content,lines_of_not_mem h]
  split <;> simp_all

theorem content_trimSpace (h : 10 ∉ line) :
    content (trimSpace line) = if trimSpace line = [] then [] else [trimSpace line] := by
  rw [content_of_not_mem fun hm => h (mem_of_mem_trimSpace hm),trimSpace_trimSpace]

theorem not_mem_cutLine (data : GoString) : 10 ∉ (cutLine data).1 := by
  rw [cutLine]
  cases h : cut 10 data with
  | none => exact cut_eq_none.mp h
  | some parts => exact not_mem_of_cut h

/-- The text is its first line followed by the rest, which is shorter unless the text is empty. -/
theorem content_cutLine (data : GoString) :
    content data = (if trimSpace (cutLine data).1 = [] then [] else [trimSpace (cutLine data).1]) ++
        content (cutLine data).2 ∧
      (data ≠ [] → (cutLine data).2.length < data.length) := by
  rw [cutLine]
  cases h : cut 10 data with
  | none =>
    rw [Option.getD_none,content_of_not_mem (cut_eq_none.mp h),content_nil,List.append_nil]
    exact ⟨rfl,fun hd => List.length_pos_of_ne_nil hd⟩
  | some parts =>
    obtain ⟨line,rest⟩ := parts
    rw [Option.getD_some,eq_of_cut h,content_append,content_of_not_mem (not_mem_of_cut h)]
    exact ⟨rfl,fun _ => by simp; omega⟩

/-- With enough turns the loop goes over the lines that are not blank. -/
theorem eachLine_eq {σ ε : Type} (step : σ → GoString → Except ε σ)
    (h : data.length < turns) (s : σ) : eachLine step turns s data = (content data).foldlM step s := by
  induction turns generalizing s data with
  | zero => exact absurd h (Nat.not_lt_zero _)
  | succ turns ih =>
    obtain ⟨hc,hl⟩ := content_cutLine data
    rw [eachLine,hc]
    by_cases hline : trimSpace (cutLine data).1 = []
    · simp only [if_pos hline,List.nil_append]
      split
      · rename_i hd
        rw [hd,content_nil]
        rfl
      · rename_i hd
        have hne : data ≠ [] := fun he => hd (by rw [he]; rfl)
        exact ih (by have := hl hne; omega) s
    · have hne : data ≠ [] := fun he => hline (by rw [he]; rfl)
      simp only [if_neg hline,List.singleton_append,List.foldlM_cons]
      congr 1
      funext s
      exact ih (by have := hl hne; omega) s

end Pggat.Base
