import Pggat.Base.Lines
import Pggat.Base.Loops
import Pggat.Base.Maps
import Pggat.Base.Quoted

/-! The auth file: a line for each user, with the name and the password quoted. -/
namespace Pggat.Userlist
open Pggat.Base

inductive Failure where
  | fields
  | quoting
  deriving DecidableEq, Repr

/-- What `Unmarshal` does with a line that is not blank. -/
def readLine (res : Map GoString GoString) (line : GoString) : Except Failure (Map GoString GoString) :=
  match fields line with
  | key :: value :: _ =>
    match unquote key, unquote value with
    | some key, some value => .ok (res.insert key value)
    | _, _ => .error .quoting
  | _ => .error .fields

/-- `userlist.Unmarshal` -/
def unmarshal (data : GoString) : Except Failure (Map GoString GoString) :=
  eachLine readLine (data.length + 1) ∅ data

def entryLine (p : Printing) (entry : GoString × GoString) : GoString := quote p entry.1 ++ 32 :: quote p entry.2

/-- A text with the lines of some users, in this order and with blank lines between them. -/
def Lists (p : Printing) (entries : List (GoString × GoString)) (data : GoString) : Prop :=
  (lines data).filter (fun line => trimSpace line ≠ []) = entries.map (entryLine p)

instance (p : Printing) (entries : List (GoString × GoString)) (data : GoString) : Decidable (Lists p entries data) :=
  inferInstanceAs (Decidable (_ = _))

private theorem trimSpace_entryLine (p : Printing) (entry : GoString × GoString) :
    trimSpace (entryLine p entry) = entryLine p entry := by
  have ends : entryLine p entry = 34 :: ((utf8 (quotedFrom p 0 entry.1 ++ [34]) ++ 32 :: 34 ::
      utf8 (quotedFrom p 0 entry.2)) ++ [34]) := by
    simp only [entryLine,quote,utf8_ascii (show 34 < 0x80 by decide),utf8_append,List.cons_append,List.append_assoc]
    rfl
  rw [ends]
  exact trimSpace_of_ends _ (by decide) (by decide) (by decide) (by decide)

variable {p : Printing}

theorem Lists.content {entries : List (GoString × GoString)} {data : GoString}
    (h : Lists p entries data) : content data = entries.map (entryLine p) := by
  have : Base.content data = ((lines data).filter fun line => trimSpace line ≠ []).map trimSpace := by
    rw [Base.content,List.filter_map]
    rfl
  rw [this,h,List.map_map]
  exact List.map_congr_left fun entry _ => trimSpace_entryLine p entry

variable {s : GoString}

theorem mem_quoted (h : 32 ∉ s) :
    ∀ r ∈ 34 :: (quotedFrom p 0 s ++ [34]), Scalar r ∧ isSpace r = false := by
  have quote : Scalar 34 ∧ isSpace 34 = false := by decide
  intro r hr
  rw [List.mem_cons,List.mem_append,List.mem_singleton] at hr
  rcases hr with rfl | hr | rfl
  · exact quote
  · obtain ⟨hs,hb⟩ := mem_quotedFrom p 0 s r hr
    refine ⟨hs,Bool.eq_false_iff.mpr fun hsp => h ?_⟩
    rw [← List.drop_zero (l := s),← blank_mem_quotedFrom p,← hb hsp]
    exact hr
  · exact quote

theorem fields_quote (h : 32 ∉ s) (t : GoString) :
    fields (quote p s ++ 32 :: t) = quote p s :: fields t := fields_word_blank (mem_quoted h) (by simp) t

private theorem fields_quote_nil (h : 32 ∉ s) : fields (quote p s) = [quote p s] :=
  fields_word (mem_quoted h) (by simp)

/-- Of a quoted string with a space the first field is what stands in front of it, which cannot be unquoted. -/
theorem fields_quote_blank (h : 32 ∈ s) (t : GoString) :
    ∃ word rest, fields (quote p s ++ t) = word :: rest ∧ unquote word = none := by
  have mem : 32 ∈ quotedFrom p 0 s := (blank_mem_quotedFrom p 0 s).mpr h
  have hq := takeWhile_ne_append mem
  have word : ∀ x ∈ 34 :: (quotedFrom p 0 s).takeWhile (· ≠ 32), Scalar x ∧ isSpace x = false := by
    intro x hx
    rcases List.mem_cons.mp hx with rfl | hx
    · decide
    · obtain ⟨hs,hb⟩ := mem_quotedFrom p 0 s x ((List.takeWhile_prefix _).subset hx)
      have hne : x ≠ 32 := by simpa using List.mem_takeWhile_imp hx
      exact ⟨hs,Bool.eq_false_iff.mpr fun hsp => hne (hb hsp)⟩
  refine ⟨utf8 (34 :: (quotedFrom p 0 s).takeWhile (· ≠ 32)),fields (utf8 (((quotedFrom p 0 s).dropWhile (· ≠ 32)).tail ++ [34]) ++ t),
    ?_,?_⟩
  · rw [← fields_word_blank word (by simp),Base.quote]
    congr 1
    nth_rewrite 1 [hq]
    rw [utf8_cons,utf8_cons,utf8_append,utf8_append,utf8_append,utf8_cons]
    simp only [List.append_assoc]
    rfl
  · rw [utf8_ascii (by decide)]
    exact unquoteFrom_cut p 0 s h

variable {entry : GoString × GoString}

private theorem readLine_entryLine (hu : 32 ∉ entry.1) (hp : 32 ∉ entry.2)
    (res : Map GoString GoString) : readLine res (entryLine p entry) = .ok (res.insert entry.1 entry.2) := by
  rw [readLine,entryLine,fields_quote hu,fields_quote_nil hp]
  simp [unquote_quote]

private theorem readLine_blank (h : 32 ∈ entry.1 ∨ 32 ∈ entry.2)
    (res res' : Map GoString GoString) : readLine res (entryLine p entry) ≠ .ok res' := by
  rw [readLine,entryLine]
  by_cases hu : 32 ∈ entry.1
  · obtain ⟨word,rest,hf,hw⟩ := fields_quote_blank (p := p) hu (32 :: quote p entry.2)
    rw [hf]
    cases rest with
    | nil => simp
    | cons value rest => simp [hw]
  · obtain ⟨word,rest,hf,hw⟩ := fields_quote_blank (p := p) (h.resolve_left hu) []
    rw [List.append_nil] at hf
    rw [fields_quote hu,hf]
    cases hk : unquote (quote p entry.1) <;> simp [hk,hw]

/-- The file gives back the users and passwords that were written to it exactly when none of them contains a space. -/
theorem unmarshal_listed_iff (p : Printing) (users : Map GoString GoString) (entries : List (GoString × GoString))
    (ranges : users.Ranges entries) (data : GoString) (listed : Lists p entries data) :
    (∃ res, unmarshal data = .ok res ∧ ∀ user, res.get user = users.get user) ↔
      ∀ user password, users.get user = some password → 32 ∉ user ∧ 32 ∉ password := by
  have loop : unmarshal data = entries.foldlM (fun res entry => readLine res (entryLine p entry)) ∅ := by
    rw [unmarshal,eachLine_eq _ (Nat.lt_succ_self _),listed.content,List.foldlM_map]
  rw [loop]
  constructor
  · rintro ⟨res,h,-⟩ user password hget
    by_contra hn
    rw [not_and_or,not_not,not_not] at hn
    exact foldlM_error ((ranges.mem user password).mpr hget) (fun res res' => readLine_blank hn res res') _ _ h
  · intro clear
    have each : ∀ entry ∈ entries, ∀ res, readLine res (entryLine p entry) = .ok (res.insert entry.1 entry.2) := by
      intro entry he
      obtain ⟨hu,hp⟩ := clear entry.1 entry.2 ((ranges.mem _ _).mp he)
      exact readLine_entryLine hu hp
    refine ⟨_,foldlM_ok each ∅,fun user => Option.ext fun password => ?_⟩
    rw [Map.get_foldl_insert ranges.nodup,ranges.mem]
    simp

def asciiPrinting : Printing where
  isPrint r := 0x20 ≤ r && r < 0x7F
  blank := by decide
  space r hs hne := by
    simp only [isSpace,Bool.or_eq_true,Bool.and_eq_true,decide_eq_true_eq] at hs
    simp only [Bool.and_eq_false_iff,decide_eq_false_iff_not]
    omega

def oneUser (password : GoString) : Map GoString GoString := (∅ : Map GoString GoString).insert (ascii ['b', 'o', 'b']) password

theorem oneUser_ranges (password : GoString) : (oneUser password).Ranges [(ascii ['b', 'o', 'b'],password)] :=
  Map.ranges_empty.insert rfl password

/-- A password with a quote and a backslash, between blank lines. -/
theorem unmarshal_listed_quotes :
    let password : GoString := [34, 92]
    let data := 10 :: 32 :: 10 :: (entryLine asciiPrinting (ascii ['b', 'o', 'b'],password) ++ [10])
    ∃ res, unmarshal data = .ok res ∧ ∀ user, res.get user = (oneUser password).get user :=
  (unmarshal_listed_iff asciiPrinting (oneUser [34, 92]) _ (oneUser_ranges _) _ (by decide)).mpr fun user password h => by
    rw [oneUser,Map.get_insert] at h
    split at h
    · rename_i hu
      cases h
      rw [hu]
      decide
    · cases h

/-- A password with a space cannot be read back. -/
theorem unmarshal_password_with_space :
    let password := ascii ['a', ' ', 'b']
    let data := entryLine asciiPrinting (ascii ['b', 'o', 'b'],password)
    (oneUser password).Ranges [(ascii ['b', 'o', 'b'],password)] ∧
      Lists asciiPrinting [(ascii ['b', 'o', 'b'],password)] data ∧ unmarshal data = .error .quoting :=
  ⟨oneUser_ranges _,by decide,by decide⟩

end Pggat.Userlist
