import Mathlib.Data.List.Induction
import Pggat.Base.Pattern
import Pggat.Base.Utf8

/-! `strutil.Matcher`, patterns in which a star stands for any characters. -/
namespace Pggat.Util
open Base

def star : Nat := 0x2A

/-- The inner loop of `Matches`, which tries the last `i` bytes of the haystack and then more of them. -/
def matchSuffixes (matchRest : GoString → Option Bool) (haystack : GoString) : Nat → Nat → Option Bool
  | 0, _ => none
  | fuel+1, i =>
    match matchRest (haystack.drop (haystack.length - i)) with
    | none => none
    | some true => some true
    | some false =>
      let c := decodeLastRuneInString (haystack.take (haystack.length - i))
      if c.1 = runeError then some false else matchSuffixes matchRest haystack fuel (i + c.2)

/-- `Matcher.Matches`. Both loops and the calls of itself are bounded by `fuel`. -/
def Matcher.matches : Nat → GoString → GoString → Option Bool
  | 0, _, _ => none
  | fuel+1, matcher, haystack =>
    if matcher.length = 0 ∧ haystack.length = 0 then some true
    else
      let e := decodeRuneInString matcher
      if e.1 = runeError then some false
      else
        let matcher := matcher.drop e.2
        if e.1 = star then
          if matcher.length = 0 then some true
          else matchSuffixes (Matcher.matches fuel matcher) haystack fuel (decodeLastRuneInString haystack).2
        else
          let c := decodeRuneInString haystack
          if c.1 = runeError then some false
          else if c.1 ≠ e.1 then some false
          else Matcher.matches fuel matcher (haystack.drop c.2)

/-- What a rune of a pattern stands for. -/
def segment (r : Nat) : Segment Nat := if r = star then .many fun _ => True else .one (· = r)

def Readable (r : Nat) : Prop := Scalar r ∧ r ≠ runeError

instance (r : Nat) : Decidable (Readable r) := inferInstanceAs (Decidable (_ ∧ _))

theorem segment_star : segment star = .many fun _ => True := if_pos rfl

theorem segment_of_ne {r : Nat} (h : r ≠ star) : segment r = .one (· = r) := if_neg h

variable {ps : List Nat}

theorem matches_of_nil (hne : ps ≠ []) (h : Matches (ps.map segment) []) (l : List Nat) :
    Matches (ps.map segment) l := by
  cases ps with
  | nil => exact absurd rfl hne
  | cons p ps =>
    by_cases hp : p = star
    · rw [List.map_cons,hp,segment_star] at h ⊢
      exact ⟨l,[],(List.append_nil l).symm,fun _ _ => trivial,Matches.many_nil.mp h⟩
    · rw [List.map_cons,segment_of_ne hp] at h
      exact absurd h Matches.one_nil

theorem matches_star {u : List (Segment Nat)} {l : List Nat} :
    Matches (.many (fun _ => True) :: u) l ↔ ∃ q r, l = q ++ r ∧ Matches u r := by
  constructor
  · rintro ⟨q,r,hl,-,h⟩
    exact ⟨q,r,hl,h⟩
  · rintro ⟨q,r,hl,h⟩
    exact ⟨q,r,hl,fun _ _ => trivial,h⟩

variable {matchRest : GoString → Option Bool} {P : List Nat → Prop} {fuel : Nat}

/-- The loop finds a suffix that the rest of the pattern matches, if there is one that is long enough. -/
theorem matchSuffixes_utf8 {pre suf : List Nat}
    (hpre : ∀ r ∈ pre, Readable r)
    (hrest : ∀ q r, pre = q ++ r → ∃ b, matchRest (utf8 (r ++ suf)) = some b ∧ (b = true ↔ P (r ++ suf)))
    (hfuel : pre.length < fuel) :
    ∃ b, matchSuffixes matchRest (utf8 (pre ++ suf)) fuel (utf8 suf).length = some b ∧
      (b = true ↔ ∃ q r, pre = q ++ r ∧ P (r ++ suf)) := by
  induction pre using List.reverseRecOn generalizing suf fuel with
  | nil =>
    obtain ⟨fuel,rfl⟩ := Nat.exists_eq_succ_of_ne_zero (Nat.ne_of_gt hfuel)
    obtain ⟨b,hb,hP⟩ := hrest [] [] rfl
    refine ⟨b,?_,?_⟩
    · rw [List.nil_append] at hb
      rw [List.nil_append,matchSuffixes,Nat.sub_self,List.drop_zero,hb]
      cases b with
      | true => rfl
      | false => rfl
    · rw [hP]
      constructor
      · intro h
        exact ⟨[],[],rfl,h⟩
      · rintro ⟨q,r,he,h⟩
        obtain ⟨rfl,rfl⟩ := List.nil_eq_append_iff.mp he
        exact h
  | append_singleton pre c ih =>
    obtain ⟨fuel,rfl⟩ := Nat.exists_eq_succ_of_ne_zero (Nat.ne_of_gt (Nat.zero_lt_of_lt hfuel))
    have hc : Readable c := hpre c List.mem_concat_self
    have htake : utf8 (pre ++ [c] ++ suf) = utf8 (pre ++ [c]) ++ utf8 suf := utf8_append _ _
    have hlen : (utf8 (pre ++ [c] ++ suf)).length - (utf8 suf).length = (utf8 (pre ++ [c])).length := by
      rw [htake,List.length_append,Nat.add_sub_cancel]
    obtain ⟨b,hb,hP⟩ := hrest (pre ++ [c]) [] (List.append_nil _).symm
    rw [List.nil_append] at hb hP
    cases b with
    | true =>
      refine ⟨true,?_,iff_of_true rfl ⟨_,[],(List.append_nil _).symm,hP.mp rfl⟩⟩
      rw [matchSuffixes,hlen,htake,List.drop_left,hb]
    | false =>
      have hrest' : ∀ q r, pre = q ++ r →
          ∃ b, matchRest (utf8 (r ++ c :: suf)) = some b ∧ (b = true ↔ P (r ++ c :: suf)) := by
        intro q r he
        have := hrest q (r ++ [c]) (by rw [he,List.append_assoc])
        rwa [← List.append_cons] at this
      have hfuel' : pre.length < fuel := by
        rw [List.length_append,List.length_singleton] at hfuel
        omega
      obtain ⟨b,hb',hP'⟩ := ih (fun r hr => hpre r (List.mem_append_left _ hr)) hrest' hfuel'
      have hi : (utf8 (c :: suf)).length = (utf8 suf).length + (encodeRune c).length := by
        rw [utf8_cons,List.length_append,Nat.add_comm]
      refine ⟨b,?_,?_⟩
      · rw [matchSuffixes,hlen,htake,List.drop_left,hb]
        simp only [List.take_left,decodeLastRuneInString_utf8 hc.1,if_neg hc.2]
        rw [← hb',hi,← htake,List.append_cons pre c suf]
      · rw [hP']
        constructor
        · rintro ⟨q,r,rfl,h⟩
          exact ⟨q,r ++ [c],by rw [List.append_assoc],by rwa [← List.append_cons]⟩
        · rintro ⟨q,r,he,h⟩
          rcases List.eq_nil_or_concat r with rfl | ⟨r,d,rfl⟩
          · exact absurd (hP.mpr h) (by decide)
          · rw [List.concat_eq_append,← List.append_assoc] at he
            obtain ⟨rfl,hd⟩ := List.append_inj' he rfl
            obtain rfl := List.singleton_inj.mp hd
            refine ⟨q,r,rfl,?_⟩
            rwa [List.concat_eq_append,← List.append_cons] at h

variable {hs : List Nat}

/-- The loop starts at the last rune: if the rest of the pattern matches the empty string, it matches that one too. -/
theorem matchSuffixes_last
    (hhs : ∀ r ∈ hs, Readable r) (hnil : P [] → ∀ l, P l)
    (hrest : ∀ q r, hs = q ++ r → ∃ b, matchRest (utf8 r) = some b ∧ (b = true ↔ P r)) (hfuel : hs.length < fuel) :
    ∃ b, matchSuffixes matchRest (utf8 hs) fuel (decodeLastRuneInString (utf8 hs)).2 = some b ∧
      (b = true ↔ ∃ q r, hs = q ++ r ∧ P r) := by
  rcases List.eq_nil_or_concat hs with rfl | ⟨hs,c,rfl⟩
  · have hrest' : ∀ q r, [] = q ++ r → ∃ b, matchRest (utf8 (r ++ [])) = some b ∧ (b = true ↔ P (r ++ [])) := by
      simpa only [List.append_nil] using hrest
    obtain ⟨b,hb,hP⟩ := matchSuffixes_utf8 hhs hrest' hfuel
    simp only [List.append_nil] at hP
    exact ⟨b,hb,hP⟩
  · rw [List.concat_eq_append] at hhs hrest hfuel ⊢
    have hrest' : ∀ q r, hs = q ++ r → ∃ b, matchRest (utf8 (r ++ [c])) = some b ∧ (b = true ↔ P (r ++ [c])) := by
      rintro q r rfl
      exact hrest q (r ++ [c]) (List.append_assoc ..)
    have hc : Readable c := hhs c List.mem_concat_self
    have hlen : (encodeRune c).length = (utf8 [c]).length := by rw [utf8_cons,utf8_nil,List.append_nil]
    rw [List.length_append,List.length_singleton] at hfuel
    obtain ⟨b,hb,hP⟩ := matchSuffixes_utf8 (fun r hr => hhs r (List.mem_append_left _ hr)) hrest'
      (Nat.lt_of_succ_lt hfuel)
    refine ⟨b,by rwa [decodeLastRuneInString_utf8 hc.1,hlen],?_⟩
    rw [hP]
    constructor
    · rintro ⟨q,r,rfl,h⟩
      exact ⟨q,r ++ [c],List.append_assoc ..,h⟩
    · rintro ⟨q,r,he,h⟩
      rcases List.eq_nil_or_concat r with rfl | ⟨r,d,rfl⟩
      · exact ⟨hs,[],(List.append_nil hs).symm,hnil h _⟩
      · rw [List.concat_eq_append,← List.append_assoc] at he
        obtain ⟨rfl,hd⟩ := List.append_inj' he rfl
        rw [List.concat_eq_append,← hd] at h
        exact ⟨q,r,rfl,h⟩

theorem matches_utf8 (hps : ∀ r ∈ ps, Readable r) (hhs : ∀ r ∈ hs, Readable r)
    (hfuel : ps.length + hs.length < fuel) :
    ∃ b, Matcher.matches fuel (utf8 ps) (utf8 hs) = some b ∧ (b = true ↔ Matches (ps.map segment) hs) := by
  induction ps generalizing hs fuel with
  | nil =>
    obtain ⟨fuel,rfl⟩ := Nat.exists_eq_succ_of_ne_zero (Nat.ne_of_gt (Nat.zero_lt_of_lt hfuel))
    cases hs with
    | nil => exact ⟨true,rfl,iff_of_true rfl rfl⟩
    | cons h hs =>
      refine ⟨false,?_,iff_of_false (by decide) (by simp)⟩
      rw [Matcher.matches,if_neg (by simp [encodeRune_ne_nil])]
      rfl
  | cons p ps ih =>
    obtain ⟨fuel,rfl⟩ := Nat.exists_eq_succ_of_ne_zero (Nat.ne_of_gt (Nat.zero_lt_of_lt hfuel))
    have hp := hps p List.mem_cons_self
    have hps' : ∀ r ∈ ps, Readable r := fun r hr => hps r (List.mem_cons_of_mem _ hr)
    rw [List.length_cons] at hfuel
    rw [Matcher.matches,if_neg (by simp [encodeRune_ne_nil]),decodeRuneInString_utf8 hp.1]
    simp only [if_neg hp.2]
    rw [utf8_cons,List.drop_left,List.map_cons]
    by_cases hstar : p = star
    · rw [if_pos hstar,hstar,segment_star,matches_star]
      by_cases hnil : ps = []
      · refine ⟨true,?_,iff_of_true rfl ⟨hs,[],(List.append_nil hs).symm,by rw [hnil]; rfl⟩⟩
        rw [hnil,utf8_nil,List.length_nil,if_pos rfl]
      · rw [if_neg (by rwa [List.length_eq_zero_iff, utf8_eq_nil])]
        have hrest : ∀ q r, hs = q ++ r →
            ∃ b, Matcher.matches fuel (utf8 ps) (utf8 r) = some b ∧ (b = true ↔ Matches (ps.map segment) r) := by
          rintro q r rfl
          rw [List.length_append] at hfuel
          exact ih hps' (fun x hx => hhs x (List.mem_append_right _ hx)) (by omega)
        exact matchSuffixes_last hhs (fun h => matches_of_nil hnil h) hrest (by omega)
    · rw [if_neg hstar,segment_of_ne hstar]
      cases hs with
      | nil => exact ⟨false,rfl,iff_of_false (by decide) Matches.one_nil⟩
      | cons c hs =>
        have hc := hhs c List.mem_cons_self
        rw [Matches.one_cons,decodeRuneInString_utf8 hc.1]
        simp only [if_neg hc.2]
        by_cases he : c = p
        · have hlt : ps.length + hs.length < fuel := by
            rw [List.length_cons] at hfuel
            omega
          obtain ⟨b,hb,hP⟩ := ih hps' (fun r hr => hhs r (List.mem_cons_of_mem _ hr)) hlt
          refine ⟨b,?_,?_⟩
          · rw [if_neg (not_not.mpr he),utf8_cons,List.drop_left,hb]
          · rw [hP,and_iff_right he]
        · exact ⟨false,if_pos he,iff_of_false (by decide) (fun h => he h.1)⟩

/-- `Matches` ends, and with true exactly if the haystack is the pattern with something in place of each star. -/
theorem matches_exact {ps hs : List Nat} (hps : ∀ r ∈ ps, Readable r) (hhs : ∀ r ∈ hs, Readable r) :
    ∃ b, (∀ fuel, ps.length + hs.length < fuel → Matcher.matches fuel (utf8 ps) (utf8 hs) = some b) ∧
      (b = true ↔ Matches (ps.map segment) hs) := by
  obtain ⟨b,-,hP⟩ := matches_utf8 hps hhs (Nat.lt_succ_self _)
  refine ⟨b,fun fuel hfuel => ?_,hP⟩
  obtain ⟨b',hb',hP'⟩ := matches_utf8 hps hhs hfuel
  rw [hb',Bool.eq_iff_iff.mpr (hP'.trans hP.symm)]

/-- The pattern `a*b` and the haystack `aéb`. -/
theorem matches_exact_accent : ∃ b, (∀ fuel, 6 < fuel →
    Matcher.matches fuel (utf8 [0x61,0x2A,0x62]) (utf8 [0x61,0xE9,0x62]) = some b) ∧
      (b = true ↔ Matches ([0x61,0x2A,0x62].map segment) [0x61,0xE9,0x62]) :=
  @matches_exact [0x61,0x2A,0x62] [0x61,0xE9,0x62] (by decide) (by decide)

example : Matcher.matches 7 (ascii "a*b".toList) [0x61,0xC3,0xA9,0x62] = some true := by decide

end Pggat.Util
