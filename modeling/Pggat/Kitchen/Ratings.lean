import Mathlib.Algebra.Ring.Int.Defs
import Pggat.Kitchen.Chef

/-! The score of a recipe: the ratings that critics have given to it, kept until they expire. -/
namespace Pggat.Kitchen

/-- Times are counted from the zero `time.Time`. -/
structure Rating where
  expiration : Int := 0
  score : Int := 0
  deriving DecidableEq, Repr

namespace Rating

/-- `slices.Resize` -/
def resize (l : List Rating) (n : Nat) : List Rating := (l ++ List.replicate (n - l.length) (Rating.mk 0 0)).take n

def total (l : List Rating) : Int := (l.map score).sum

@[simp] theorem length_resize (l : List Rating) (n : Nat) : (resize l n).length = n := by
  simp [resize]; omega

theorem resize_length (l : List Rating) : resize l l.length = l := by simp [resize]

@[simp] theorem total_cons (r : Rating) (l : List Rating) : total (r :: l) = r.score + total l := by simp [total]

theorem total_resize_nil (n : Nat) : total (resize [] n) = 0 := by
  induction n with
  | zero => rfl
  | succ n ih => simpa [resize,List.replicate_succ] using ih

theorem total_eq_sum (l : List Rating) :
    total l = ((List.range l.length).map fun i => (l[i]?).elim 0 score).sum := by
  rw [total]
  congr 1
  refine List.ext_getElem (by simp) fun i hl hr => ?_
  simp only [List.length_map] at hl
  simp [hl]

end Rating

/-- How `Dial` ends: the socket is not opened, or the handshake on it fails, or the connection is ready. -/
inductive Attempt where
  | refused
  | rejected
  | ready
  deriving DecidableEq, Repr

/-- What `score` meets: the time at its start, the end of its dial, and for each critic the rating that it gives unless
`Taste` fails. -/
structure Tasting where
  now : Int
  attempt : Attempt
  critic : Nat → Option Rating

namespace Tasting
variable (t : Tasting)

/-- No rating has expired. -/
def fast (ratings : List Rating) : Bool := ratings.all fun r => !decide (r.expiration < t.now)

/-- For each critic, whether it is asked again. -/
def critics (ratings : List Rating) : List Bool := ratings.map fun r => !decide (t.now < r.expiration)

/-- The part of the score that needs no critic. -/
def kept (ratings : List Rating) : Int := Rating.total (ratings.filter fun r => decide (t.now < r.expiration))

/-- Ask the critics from a position on, adding to the total. A critic that is not asked leaves the zero rating. -/
def taste : Nat → List Bool → Int → Option (Int × List Rating)
  | _, [], total => some (total,[])
  | i, false :: critics, total => (taste (i + 1) critics total).map fun p => (p.1,{} :: p.2)
  | i, true :: critics, total =>
    (t.critic i).bind fun r => (taste (i + 1) critics (total + r.score)).map fun p => (p.1,r :: p.2)

/-- The ratings in place of those whose critics have been asked. -/
def update (ratings tasted : List Rating) : List Rating :=
  List.zipWith (fun r r' => if t.now < r.expiration then r else r') ratings tasted

/-- `score`: the new score and ratings, or none with an error. -/
def score (old : Int) (ratings : List Rating) : Option (Int × List Rating) :=
  if t.fast ratings then some (old,ratings)
  else if t.attempt = .ready then
    (t.taste 0 (t.critics ratings) (t.kept ratings)).map fun p => (p.1,t.update ratings p.2)
  else none

/-- A rating in the cache is still valid: it expires later, or none has expired. -/
def Valid (ratings : List Rating) (r : Rating) : Prop := t.now < r.expiration ∨ ∀ r ∈ ratings, t.now ≤ r.expiration

instance (ratings : List Rating) (r : Rating) : Decidable (t.Valid ratings r) := by unfold Valid; infer_instance

/-- The rating that counts for a critic: the one in the cache while it is valid, then the one that it gives. -/
def counted (ratings : List Rating) (i : Nat) : Option Rating :=
  ratings[i]?.bind fun r => if t.Valid ratings r then some r else t.critic i

/-- The recipe cannot be scored: a rating has expired, and there is no connection or an error of a critic. -/
def Fails (ratings : List Rating) : Prop :=
  (∃ r ∈ ratings, r.expiration < t.now) ∧ (t.attempt ≠ .ready ∨ ∃ i < ratings.length, t.counted ratings i = none)

instance (ratings : List Rating) : Decidable (t.Fails ratings) := by unfold Fails; infer_instance

variable {ratings : List Rating}

theorem fast_iff : t.fast ratings = true ↔ ∀ r ∈ ratings, t.now ≤ r.expiration := by
  simp [fast]

theorem not_fast_iff : t.fast ratings = false ↔ ∃ r ∈ ratings, r.expiration < t.now := by
  simp [fast]

/-- The rating that a critic has after the scoring, which takes the one in the cache only if it expires later. -/
def current (i : Nat) (r : Rating) : Option Rating := if t.now < r.expiration then some r else t.critic i

section Tastes
variable {t}

variable {ratings tasted : List Rating} {i : Nat} {total total' : Int}

/-- A total that the critics have given, the ratings that it is of and those that were there before. -/
theorem taste_some
    (h : t.taste i (t.critics ratings) total = some (total',tasted)) :
    (∀ j, (t.update ratings tasted)[j]? = ratings[j]?.bind (t.current (i + j))) ∧
      total' + t.kept ratings = total + Rating.total (t.update ratings tasted) := by
  induction ratings generalizing i total tasted with
  | nil =>
    cases h
    exact ⟨fun _ => rfl,rfl⟩
  | cons r ratings ih =>
    by_cases later : t.now < r.expiration
    · simp only [critics,List.map_cons,later,decide_true,Bool.not_true,taste,Option.map_eq_some_iff] at h
      obtain ⟨⟨total',tasted⟩,h,e⟩ := h
      cases e
      obtain ⟨at_,sum⟩ := ih h
      refine ⟨fun j => ?_,?_⟩
      · cases j with
        | zero => simp [update,current,later]
        | succ j => simpa [update,Nat.add_right_comm,Nat.add_assoc] using at_ j
      · simp only [update,kept,List.filter_cons,later,decide_true,if_true,Rating.total_cons,
          List.zipWith_cons_cons] at sum ⊢
        omega
    · simp only [critics,List.map_cons,later,decide_false,Bool.not_false,taste,Option.bind_eq_some_iff,
        Option.map_eq_some_iff] at h
      obtain ⟨q,answer,⟨total',tasted⟩,h,e⟩ := h
      cases e
      obtain ⟨at_,sum⟩ := ih h
      refine ⟨fun j => ?_,?_⟩
      · cases j with
        | zero => simp [update,current,later,answer]
        | succ j => simpa [update,Nat.add_right_comm,Nat.add_assoc] using at_ j
      · simp only [update,kept,List.filter_cons,later,decide_false,Bool.false_eq_true,if_false,Rating.total_cons,
          List.zipWith_cons_cons] at sum ⊢
        omega

theorem length_taste {critics : List Bool}
    (h : t.taste i critics total = some (total',tasted)) : tasted.length = critics.length := by
  induction critics generalizing i total tasted with
  | nil => cases h; rfl
  | cons asked critics ih =>
    cases asked <;> simp only [taste,Option.bind_eq_some_iff,Option.map_eq_some_iff] at h
    · obtain ⟨_,given,e⟩ := h
      cases e
      exact congrArg (· + 1) (ih given)
    · obtain ⟨_,-,_,given,e⟩ := h
      cases e
      exact congrArg (· + 1) (ih given)

theorem taste_none :
    t.taste i (t.critics ratings) total = none ↔ ∃ j < ratings.length, ratings[j]?.bind (t.current (i + j)) = none := by
  induction ratings generalizing i total with
  | nil => simp [critics,taste]
  | cons r ratings ih =>
    have shift : (∃ j < (r :: ratings).length, (r :: ratings)[j]?.bind (t.current (i + j)) = none) ↔
        t.current i r = none ∨ ∃ j < ratings.length, ratings[j]?.bind (t.current (i + 1 + j)) = none := by
      constructor
      · rintro ⟨j,hj,none⟩
        cases j with
        | zero => exact .inl (by simpa using none)
        | succ j => exact .inr ⟨j,by simpa using hj,by simpa [Nat.add_right_comm,Nat.add_assoc] using none⟩
      · rintro (none | ⟨j,hj,none⟩)
        · exact ⟨0,by simp,by simpa using none⟩
        · exact ⟨j + 1,by simpa using hj,by simpa [Nat.add_right_comm,Nat.add_assoc] using none⟩
    rw [shift]
    by_cases later : t.now < r.expiration
    · simp only [critics,List.map_cons,later,decide_true,Bool.not_true,taste,Option.map_eq_none_iff,current,
        if_true,reduceCtorEq,false_or]
      exact ih
    · simp only [critics,List.map_cons,later,decide_false,Bool.not_false,taste,current,if_false]
      cases answer : t.critic i with
      | none => simp
      | some q =>
        simp only [Option.bind_some,Option.map_eq_none_iff,reduceCtorEq,false_or]
        exact ih

end Tastes

private theorem counted_of_fast (h : t.fast ratings = true) (i : Nat) :
    t.counted ratings i = ratings[i]? := by
  have valid (r : Rating) : t.Valid ratings r := .inr (t.fast_iff.mp h)
  simp [counted,valid]

theorem counted_of_not_fast (h : t.fast ratings = false) (i : Nat) :
    t.counted ratings i = ratings[i]?.bind (t.current i) := by
  obtain ⟨r,hr,expired⟩ := t.not_fast_iff.mp h
  have valid (r : Rating) : t.Valid ratings r ↔ t.now < r.expiration :=
    or_iff_left fun all => absurd (all _ hr) (by omega)
  simp only [counted,valid]
  rfl

variable {old : Int}

/-- A score is the sum of the ratings that count, and these are what the cache holds then. -/
theorem score_some {total : Int} {l : List Rating} (h : t.score old ratings = some (total,l))
    (held : t.fast ratings = true → old = Rating.total ratings) :
    l.length = ratings.length ∧ (∀ i, l[i]? = t.counted ratings i) ∧ total = Rating.total l := by
  rw [score] at h
  split at h
  · rename_i fast
    cases h
    exact ⟨rfl,fun i => (t.counted_of_fast fast i).symm,held fast⟩
  · rename_i slow
    split at h
    · obtain ⟨⟨total,tasted⟩,given,e⟩ := Option.map_eq_some_iff.mp h
      cases e
      obtain ⟨current,sum⟩ := taste_some given
      refine ⟨?_,fun i => ?_,?_⟩
      · simp [update,length_taste given,critics]
      · rw [t.counted_of_not_fast (by simpa using slow),current,Nat.zero_add]
      · show total = Rating.total (t.update ratings tasted)
        omega
    · cases h

theorem score_none_iff : t.score old ratings = none ↔ t.Fails ratings := by
  rw [score,Fails,← not_fast_iff]
  cases fast : t.fast ratings with
  | true => simp
  | false =>
    by_cases ready : t.attempt = .ready
    · simp [ready,taste_none,t.counted_of_not_fast fast]
    · simp [ready]

def worth (ratings : List Rating) : Int :=
  ((List.range ratings.length).map fun i => (t.counted ratings i).elim 0 Rating.score).sum

/-- What a recipe has after its scoring. -/
def result (old : Int) (ratings : List Rating) : Int × List Rating := (t.score old ratings).getD (maxInt,ratings)

/-- A recipe has the sum of its ratings, or could not be scored when a rating of it had expired. -/
def Sound (clock : Int) (score : Int) (ratings : List Rating) : Prop :=
  score = Rating.total ratings ∨ score = maxInt ∧ ∃ r ∈ ratings, r.expiration < clock

section Results
variable {t} {clock old : Int} {ratings : List Rating}

theorem result_of_fails (h : t.Fails ratings) : t.result old ratings = (maxInt,ratings) := by
  rw [result,t.score_none_iff.mpr h]; rfl

private theorem Sound.held (h : Sound clock old ratings) (later : clock ≤ t.now) (fast : t.fast ratings = true) :
    old = Rating.total ratings := by
  refine h.resolve_right fun ⟨_,r,hr,expired⟩ => ?_
  have := t.fast_iff.mp fast r hr
  omega

theorem Sound.scored (h : Sound clock old ratings) (later : clock ≤ t.now) (scores : ¬ t.Fails ratings) :
    (t.result old ratings).2.length = ratings.length ∧
      (t.result old ratings).1 = Rating.total (t.result old ratings).2 ∧
      (t.result old ratings).1 = t.worth ratings := by
  cases scored : t.score old ratings with
  | none => exact absurd (t.score_none_iff.mp scored) scores
  | some p =>
    obtain ⟨length,counted,sum⟩ := t.score_some scored (h.held later)
    rw [result,scored]
    refine ⟨length,sum,sum.trans ?_⟩
    rw [Rating.total_eq_sum,length,worth]
    simp only [counted]

variable {clock' : Int}

theorem Sound.result (h : Sound clock old ratings) (later : clock ≤ t.now) (ends : t.now ≤ clock') :
    (t.result old ratings).2.length = ratings.length ∧
      Sound clock' (t.result old ratings).1 (t.result old ratings).2 := by
  by_cases fails : t.Fails ratings
  · obtain ⟨r,hr,expired⟩ := fails.1
    rw [result_of_fails fails]
    exact ⟨rfl,.inr ⟨rfl,r,hr,by omega⟩⟩
  · obtain ⟨length,sum,-⟩ := h.scored later fails
    exact ⟨length,.inl sum⟩

theorem Sound.mono (h : Sound clock old ratings) (later : clock ≤ clock') : Sound clock' old ratings :=
  h.imp id fun ⟨top,r,hr,expired⟩ => ⟨top,r,hr,by omega⟩

end Results
end Tasting
end Pggat.Kitchen
