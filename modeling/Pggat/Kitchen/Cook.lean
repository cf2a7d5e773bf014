import Pggat.Kitchen.Serve

/-! Calls of the chef one after the other, with the ratings that its recipes keep. `Cook` takes the best recipe that can
give a connection. -/
namespace Pggat.Kitchen
open Pggat.Base

/-- The chef, the ratings of its recipes and the time that its clock has shown last. -/
structure Rated extends Chef where
  ratings : RecipeId → List Rating := fun _ => []
  clock : Int := 0

/-- What a `Cook` meets: the order in which it ranges over the recipes, what the scoring of each of them meets, the order
after the sort, how the dial of each recipe ends, and the time at the end. -/
structure CookCall where
  visits : List RecipeId
  tasting : RecipeId → Tasting
  sorted : List RecipeId
  attempt : RecipeId → Attempt
  clock : Int

/-- A call of the chef. -/
inductive Op where
  | learn (name : GoString) (recipe : Recipe) (attempt : Nat → Attempt) (spare : Nat)
  | forget (name : GoString)
  | cook (call : CookCall)
  | burn (conn : Conn)
  | ignite (conn : Conn)
  | close

namespace Rated

def cached (critics : Nat) (s : Rated) (r : RecipeId) : List Rating := Rating.resize (s.ratings r) critics

/-- `score` of one recipe; `Cook` puts the recipe last if there is an error. -/
def rate (critics : Nat) (s : Rated) (r : RecipeId) (t : Tasting) : Rated :=
  let p := t.result (s.score r) (s.cached critics r)
  let chef := if t.fast (s.cached critics r) then s.toChef else s.toChef.probe r t.attempt
  { s with
    toChef := { chef with score := Function.update s.score r p.1 }
    ratings := Function.update s.ratings r p.2 }

/-- The first loop of `Cook`. -/
def rateAll (critics : Nat) (s : Rated) (tasting : RecipeId → Tasting) (visits : List RecipeId) : Rated :=
  visits.foldl (fun s r => s.rate critics r (tasting r)) s

def cook (critics : Nat) (s : Rated) (c : CookCall) : Result × Rated :=
  let s := s.rateAll critics c.tasting c.visits
  let chef := s.toChef.arrange c.sorted
  let (result,chef) := chef.serve c.attempt (chef.arrays.read chef.order)
  (result,{ s with toChef := chef, clock := c.clock })

def step (critics : Nat) (s : Rated) : Op → Option Rated
  | .learn name recipe attempt spare => some { s with toChef := s.toChef.learnRecipe name recipe attempt spare }
  | .forget name => some { s with toChef := (s.toChef.forget name).2 }
  | .cook call => some (s.cook critics call).2
  | .burn conn => some { s with toChef := s.toChef.burn conn }
  | .ignite conn => some { s with toChef := (s.toChef.ignite conn).2 }
  | .close => some { s with toChef := s.toChef.close }

/-- A `Cook` that can be: it ranges over each recipe once, `sort.Slice` may give that order, and the clock does not go
back. -/
structure Admits (critics : Nat) (s : Rated) (c : CookCall) : Prop where
  visits : c.visits.Perm s.learned
  sorted : (s.rateAll critics c.tasting c.visits).Arranges c.sorted
  clock : ∀ r ∈ c.visits, s.clock ≤ (c.tasting r).now ∧ (c.tasting r).now ≤ c.clock
  ends : s.clock ≤ c.clock

def Allowed (critics : Nat) (s : Rated) : Op → Prop
  | .cook c => s.Admits critics c
  | _ => True

/-- What holds between two calls: the slice has the recipes that are learned, and each has the score of its ratings. -/
structure Kept (critics : Nat) (s : Rated) : Prop where
  listed : s.Listed
  born : ∀ r ∈ s.learned, r < s.made
  sound : ∀ r, Tasting.Sound s.clock (s.score r) (s.cached critics r)

variable {critics : Nat} {s : Rated} {r : RecipeId}

theorem cached_of_length {s : Rated} (h : (s.ratings r).length = critics) :
    s.cached critics r = s.ratings r := by
  subst h
  exact Rating.resize_length _

theorem length_cached (s : Rated) (r : RecipeId) : (s.cached critics r).length = critics := Rating.length_resize ..

private theorem rate_aside (critics : Nat) (s : Rated) (r : RecipeId) (t : Tasting) :
    Chef.Aside { s.toChef with score := (s.rate critics r t).score } (s.rate critics r t).toChef := by
  have aside : s.Aside (if t.fast (s.cached critics r) then s.toChef else s.toChef.probe r t.attempt) := by
    split
    · exact .refl _
    · exact s.toChef.probe_aside ..
  exact ⟨aside.recipes,aside.made,rfl,aside.conns,aside.byName,aside.byConn,aside.order,aside.arrays⟩

theorem rate_other (critics : Nat) (s : Rated) {r r' : RecipeId} (t : Tasting) (h : r' ≠ r) :
    (s.rate critics r t).score r' = s.score r' ∧ (s.rate critics r t).ratings r' = s.ratings r' :=
  ⟨Function.update_of_ne h ..,Function.update_of_ne h ..⟩

private theorem rate_self (critics : Nat) (s : Rated) (r : RecipeId) (t : Tasting) :
    (s.rate critics r t).score r = (t.result (s.score r) (s.cached critics r)).1 ∧
      (s.rate critics r t).ratings r = (t.result (s.score r) (s.cached critics r)).2 :=
  ⟨Function.update_self ..,Function.update_self ..⟩

theorem rateAll_aside (tasting : RecipeId → Tasting) (visits : List RecipeId) (s : Rated) :
    Chef.Aside { s.toChef with score := (s.rateAll critics tasting visits).score }
        (s.rateAll critics tasting visits).toChef ∧
      (s.rateAll critics tasting visits).clock = s.clock := by
  induction visits generalizing s with
  | nil => exact ⟨.refl _,rfl⟩
  | cons r visits ih =>
    obtain ⟨aside,clock⟩ := ih (s.rate critics r (tasting r))
    have first := rate_aside critics s r (tasting r)
    refine ⟨⟨?_,?_,rfl,?_,?_,?_,?_,?_⟩,clock⟩
    · exact aside.recipes.trans first.recipes
    · exact aside.made.trans first.made
    · exact aside.conns.trans first.conns
    · exact aside.byName.trans first.byName
    · exact aside.byConn.trans first.byConn
    · exact aside.order.trans first.order
    · exact aside.arrays.trans first.arrays

theorem rateAll_other (critics : Nat) (tasting : RecipeId → Tasting) (visits : List RecipeId) (h : r ∉ visits)
    (s : Rated) :
    (s.rateAll critics tasting visits).score r = s.score r ∧
      (s.rateAll critics tasting visits).ratings r = s.ratings r := by
  induction visits generalizing s with
  | nil => exact ⟨rfl,rfl⟩
  | cons r' visits ih =>
    rw [List.mem_cons,not_or] at h
    obtain ⟨score,ratings⟩ := ih h.2 (s.rate critics r' (tasting r'))
    obtain ⟨score',ratings'⟩ := rate_other critics s (tasting r') h.1
    exact ⟨score.trans score',ratings.trans ratings'⟩

theorem rateAll_self (tasting : RecipeId → Tasting) (visits : List RecipeId) (nodup : visits.Nodup)
    (h : r ∈ visits) (s : Rated) :
    (s.rateAll critics tasting visits).score r = ((tasting r).result (s.score r) (s.cached critics r)).1 ∧
      (s.rateAll critics tasting visits).ratings r = ((tasting r).result (s.score r) (s.cached critics r)).2 := by
  induction visits generalizing s with
  | nil => cases h
  | cons r' visits ih =>
    obtain ⟨absent,nodup⟩ := List.nodup_cons.mp nodup
    rcases List.mem_cons.mp h with rfl | later
    · obtain ⟨score,ratings⟩ := rateAll_other critics tasting visits absent (s.rate critics r (tasting r))
      obtain ⟨score',ratings'⟩ := rate_self critics s r (tasting r)
      exact ⟨score.trans score',ratings.trans ratings'⟩
    · have ne : r ≠ r' := fun e => absent (e ▸ later)
      obtain ⟨score,ratings⟩ := rate_other critics s (tasting r') ne
      have scored := ih nodup later (s.rate critics r' (tasting r'))
      rwa [cached,score,ratings] at scored

def Fails (critics : Nat) (s : Rated) (c : CookCall) (r : RecipeId) : Prop := (c.tasting r).Fails (s.cached critics r)

instance (critics : Nat) (s : Rated) (c : CookCall) (r : RecipeId) : Decidable (s.Fails critics c r) := by
  unfold Fails; infer_instance

/-- The sum of the ratings of a recipe that are still valid and of those that its critics give. -/
def worth (critics : Nat) (s : Rated) (c : CookCall) (r : RecipeId) : Int := (c.tasting r).worth (s.cached critics r)

/-- Where a recipe stands when `Cook` sorts: at the sum of its ratings and its priority, and last if it cannot be
scored. -/
def standing (critics : Nat) (s : Rated) (c : CookCall) (r : RecipeId) : Int :=
  if s.Fails critics c r ∨ s.worth critics c r = maxInt then maxInt
  else s.worth critics c r + (s.recipes r).priority

def scored (critics : Nat) (s : Rated) (c : CookCall) : Chef := (s.rateAll critics c.tasting c.visits).toChef

def IsInt (n : Int) : Prop := -maxInt - 1 ≤ n ∧ n ≤ maxInt

/-- No sum overflows. -/
def Fits (critics : Nat) (s : Rated) (c : CookCall) : Prop :=
  ∀ r ∈ s.learned, ¬ s.Fails critics c r →
    IsInt (s.worth critics c r) ∧ IsInt (s.worth critics c r + (s.recipes r).priority)

instance (critics : Nat) (s : Rated) (c : CookCall) : Decidable (s.Fits critics c) := by
  unfold Fits IsInt
  infer_instance

section Scored
variable {c : CookCall} (h : s.Kept critics) (hc : s.Admits critics c)

include h in
private theorem Kept.nodup : s.learned.Nodup := by
  refine List.Nodup.map_on (fun e he e' he' same => ?_) s.byName.nodupKeys.nodup
  have first := (s.byName.mem_entries ..).mp he
  have second := (s.byName.mem_entries ..).mp he'
  exact Sigma.ext (h.listed.single _ _ _ first (same ▸ second)) (heq_of_eq same)

include h hc in
theorem Kept.visited (hr : r ∈ s.learned) :
    (s.scored critics c).score r = ((c.tasting r).result (s.score r) (s.cached critics r)).1 ∧
      (s.rateAll critics c.tasting c.visits).ratings r =
        ((c.tasting r).result (s.score r) (s.cached critics r)).2 :=
  rateAll_self c.tasting c.visits (hc.visits.nodup_iff.mpr h.nodup) (hc.visits.mem_iff.mpr hr) s

include h hc in
private theorem Kept.score_of_fails (hr : r ∈ s.learned) (fails : s.Fails critics c r) :
    (s.scored critics c).score r = maxInt := by
  rw [(h.visited hc hr).1,Tasting.result_of_fails fails]

include h hc in
theorem Kept.score_of_scored (hr : r ∈ s.learned) (scores : ¬ s.Fails critics c r) :
    (s.scored critics c).score r = s.worth critics c r := by
  rw [(h.visited hc hr).1]
  exact ((h.sound r).scored (hc.clock r (hc.visits.mem_iff.mpr hr)).1 scores).2.2

include h hc in
theorem Kept.rating_eq (hr : r ∈ s.learned) :
    (s.scored critics c).rating r = s.standing critics c r := by
  have recipes : (s.scored critics c).recipes = s.recipes := (rateAll_aside c.tasting c.visits s).1.recipes
  rw [Chef.rating,standing,recipes]
  by_cases fails : s.Fails critics c r
  · rw [h.score_of_fails hc hr fails,if_pos rfl,if_pos (.inl fails)]
  · rw [h.score_of_scored hc hr fails]
    by_cases top : s.worth critics c r = maxInt
    · rw [if_pos top,if_pos (.inr top),top]
    · rw [if_neg top,if_neg (not_or.mpr ⟨fails,top⟩)]

theorem standing_le (hr : r ∈ s.learned) (fits : s.Fits critics c) :
    s.standing critics c r ≤ maxInt := by
  rw [standing]
  split
  · exact Int.le_refl _
  · rename_i below
    exact (fits r hr fun fails => below (.inl fails)).2.2

include h hc in
theorem Kept.sound_scored (r : RecipeId) :
    Tasting.Sound c.clock ((s.scored critics c).score r) ((s.rateAll critics c.tasting c.visits).cached critics r) := by
  by_cases hr : r ∈ s.learned
  · obtain ⟨score,ratings⟩ := h.visited hc hr
    obtain ⟨starts,ends⟩ := hc.clock r (hc.visits.mem_iff.mpr hr)
    obtain ⟨length,sound⟩ := (h.sound r).result starts ends
    rw [cached_of_length (by rw [ratings, length, length_cached]),score,ratings]
    exact sound
  · obtain ⟨score,ratings⟩ :=
      rateAll_other critics c.tasting c.visits (fun hv => hr (hc.visits.mem_iff.mp hv)) s
    have sound := (h.sound r).mono hc.ends
    rw [scored,score,cached,ratings]
    exact sound

theorem scored_aside (critics : Nat) (s : Rated) (c : CookCall) :
    Chef.Aside { s.toChef with score := (s.scored critics c).score } (s.scored critics c) :=
  (rateAll_aside c.tasting c.visits s).1

theorem scored_shares (critics : Nat) (s : Rated) (c : CookCall) : s.Shares (s.scored critics c) :=
  ⟨(scored_aside critics s c).byName,(scored_aside critics s c).order,(scored_aside critics s c).arrays⟩

include h hc in
theorem Kept.arranged : ((s.scored critics c).arrange c.sorted).Listed ∧
    ((s.scored critics c).arrange c.sorted).arrays.read ((s.scored critics c).arrange c.sorted).order = c.sorted := by
  have listed : (s.scored critics c).Listed := h.listed.shares (scored_shares critics s c)
  have length := hc.sorted.1.length_eq.trans listed.valid.length_read
  exact ⟨listed.arrange hc.sorted,Arrays.read_write length⟩

theorem Kept.cook_serves (h : s.Kept critics) (hc : s.Admits critics c) :
    ((s.scored critics c).arrange c.sorted).Serves c.attempt c.sorted (s.cook critics c).1
      (s.cook critics c).2.toChef := by
  have same := congrArg (Chef.serve c.attempt · ((s.scored critics c).arrange c.sorted)) (h.arranged hc).2
  have serves := ((s.scored critics c).arrange c.sorted).serve_serves c.attempt c.sorted
  rw [← same] at serves
  exact serves

theorem Kept.mem_sorted (h : s.Kept critics) (hc : s.Admits critics c) :
    r ∈ c.sorted ↔ r ∈ s.learned := by
  rw [hc.sorted.1.mem_iff,← h.listed.listed r,← (scored_shares critics s c).arrays,
    ← (scored_shares critics s c).order]
  rfl

theorem Kept.frame {s' : Rated} (h : s.Kept critics) (listed : s'.Listed) (born : ∀ r ∈ s'.learned, r < s'.made)
    (score : s'.score = s.score) (ratings : s'.ratings = s.ratings) (clock : s'.clock = s.clock) : s'.Kept critics :=
  ⟨listed,born,fun r => by rw [score,clock,cached,ratings]; exact h.sound r⟩

private theorem Kept.cook (h : s.Kept critics) (hc : s.Admits critics c) : (s.cook critics c).2.Kept critics := by
  have settled : ((s.scored critics c).arrange c.sorted).Settled (s.cook critics c).2.toChef := by
    rcases h.cook_serves hc with ⟨_,_,_,_,-,-,-,-,cooked⟩ | ⟨-,-,aside⟩
    · exact ⟨cooked.shares,cooked.score,cooked.made⟩
    · exact aside.settled
  refine ⟨(h.arranged hc).1.shares settled.toShares,fun r hr => ?_,fun r => ?_⟩
  · have learned : (s.cook critics c).2.learned = s.learned :=
      settled.toShares.learned.trans (scored_shares critics s c).learned
    rw [settled.made]
    exact (h.born r (learned ▸ hr)).trans_eq (scored_aside critics s c).made.symm
  · rw [settled.score]
    exact h.sound_scored hc r

end Scored

private theorem Kept.learn (h : s.Kept critics) (name : GoString) (recipe : Recipe) (attempt : Nat → Attempt)
    (spare : Nat) :
    Kept critics { s with toChef := s.toChef.learnRecipe name recipe attempt spare } := by
  have settled := Chef.dialInitial_settled s.made attempt recipe.allocateInitial.1
    { s.setRecipe s.made recipe.allocateInitial.2 with made := s.made + 1 }
  have shares : s.Shares _ := ⟨settled.byName,settled.order,settled.arrays⟩
  have listed := h.listed.shares shares
  have fresh : s.made ∉ s.learned := fun hr => absurd (h.born _ hr) (Nat.lt_irrefl _)
  refine h.frame (listed.learn name (shares.learned ▸ fresh) _ spare) (fun r hr => ?_) ?_ rfl rfl
  · have made : (s.learnRecipe name recipe attempt spare).made = s.made + 1 :=
      ((Chef.learn_learned ..).inserted.made.trans (Chef.forget_dropped ..).made).trans settled.made
    rw [made]
    rcases (listed.learn_learned ..).mp hr with rfl | ⟨hr,-⟩
    · exact Nat.lt_succ_self _
    · exact (h.born r (shares.learned ▸ hr)).trans (Nat.lt_succ_self _)
  · exact (Chef.learn_score ..).trans settled.score

private theorem Kept.step {s' : Rated} {op : Op} (h : s.Kept critics) (allowed : s.Allowed critics op)
    (hs : s.step critics op = some s') : s'.Kept critics := by
  cases op with
  | learn name recipe attempt spare =>
    cases hs
    exact h.learn name recipe attempt spare
  | forget name =>
    cases hs
    have gone := s.forget_dropped name
    refine h.frame (h.listed.forget name) (fun r hr => ?_) gone.score rfl rfl
    rw [gone.made]
    exact h.born r ((h.listed.forget_learned name r).mp hr).1
  | cook c =>
    cases hs
    exact h.cook allowed
  | burn conn =>
    cases hs
    have gone := s.burn_dropped conn
    refine h.frame (h.listed.shares gone.shares) (fun r hr => ?_) gone.score rfl rfl
    rw [gone.made]
    exact h.born r (gone.shares.learned ▸ hr)
  | ignite conn =>
    cases hs
    have gone := s.ignite_dropped conn
    refine h.frame (h.listed.shares gone.shares) (fun r hr => ?_) gone.score rfl rfl
    rw [gone.made]
    exact h.born r (gone.shares.learned ▸ hr)
  | close =>
    cases hs
    refine h.frame h.listed.close (fun r hr => ?_) s.close_dropped.score rfl rfl
    rw [s.close_learned] at hr
    cases hr

private theorem Kept.initial (critics : Nat) : Kept critics {} where
  listed := .initial
  born _ hr := nomatch hr
  sound _ := .inl (Rating.total_resize_nil critics).symm

private theorem kept_of_reachable (h : Reachable {} (Allowed critics) (step critics) s) : s.Kept critics :=
  h.invariant (.initial critics) fun _ _ _ => Kept.step

/-- What a `Cook` that returns a connection has done: every recipe before the one that it is of, by standing and then by
number of connections, is at its limit or cannot be dialed. -/
structure Best (critics : Nat) (s : Rated) (c : CookCall) (s' : Rated) (conn : Conn) (r : RecipeId) : Prop where
  learned : r ∈ s.learned
  origin : s'.origin conn = r
  conns : s'.conns r = conn :: s.conns r
  count : s'.recipes r = { s.recipes r with count := (s.recipes r).count + 1 }
  best : ∀ r' ∈ s.learned, s.standing critics c r' < s.standing critics c r ∨
    s.standing critics c r' = s.standing critics c r ∧ (s.conns r').length < (s.conns r).length → s.Unable c.attempt r'

/-- `Cook` takes the best recipe that can be dialed: after any calls one after the other, each recipe has the sum of its
ratings that are still valid and of the new ones, or is behind all others if it cannot be scored. A connection is of a
recipe such that all before it are at their limits or cannot be dialed, `Cook` fails only if all are, and the count of
every other recipe stays. -/
theorem cook_best {critics : Nat} {s : Rated} (h : Reachable {} (Allowed critics) (step critics) s) (c : CookCall)
    (hc : s.Admits critics c) (fits : s.Fits critics c) :
    (∀ r ∈ s.learned, ¬ s.Fails critics c r → (s.scored critics c).score r = s.worth critics c r) ∧
    (∀ r ∈ s.learned, s.Fails critics c r → (s.scored critics c).rating r = maxInt ∧
      ∀ r' ∈ s.learned, (s.scored critics c).rating r' ≤ maxInt) ∧
    (∀ r ∈ s.learned, (s.scored critics c).rating r = s.standing critics c r) ∧
    (∀ conn, (s.cook critics c).1 = .cooked conn → ∃ r, s.Best critics c (s.cook critics c).2 conn r ∧
      ∀ r' ≠ r, (s.cook critics c).2.recipes r' = s.recipes r') ∧
    ((∀ conn, (s.cook critics c).1 ≠ .cooked conn) →
      (∀ r ∈ s.learned, s.Unable c.attempt r) ∧ (s.cook critics c).2.recipes = s.recipes) ∧
    ∀ r ∈ s.learned, c.attempt r ≠ .ready → (s.cook critics c).2.recipes r = s.recipes r := by
  have kept := kept_of_reachable h
  have aside := scored_aside critics s c
  have unable (r : RecipeId) :
      ((s.scored critics c).arrange c.sorted).Unable c.attempt r ↔ s.Unable c.attempt r := by
    rw [Chef.Unable,Chef.Unable,Chef.arrange,aside.recipes]
  refine ⟨fun r hr => kept.score_of_scored hc hr,fun r hr fails => ⟨?_,fun r' hr' => ?_⟩,
    fun r hr => kept.rating_eq hc hr,?_⟩
  · rw [kept.rating_eq hc hr,standing,if_pos (.inl fails)]
  · rw [kept.rating_eq hc hr']
    exact standing_le hr' fits
  rcases kept.cook_serves hc with ⟨before,r,after,conn,split,none,able,res,cooked⟩ | ⟨none,res,last⟩
  · have recipes : (s.cook critics c).2.recipes =
        Function.update s.recipes r { s.recipes r with count := (s.recipes r).count + 1 } := by
      rw [cooked.recipes,Chef.arrange,aside.recipes]
    have conns : (s.cook critics c).2.conns = Function.update s.conns r (conn :: s.conns r) := by
      rw [cooked.conns,Chef.arrange,aside.conns]
    refine ⟨fun conn' same => ⟨r,?_,fun r' ne => ?_⟩,fun fails => absurd res (fails conn),fun r' _ refused => ?_⟩
    · cases res.symm.trans same
      have learned : r ∈ s.learned := (kept.mem_sorted hc).mp (by simp [split])
      refine ⟨learned,cooked.origin,?_,?_,fun r' hr' first => ?_⟩
      · rw [conns,Function.update_self]
      · rw [recipes,Function.update_self]
      · have less : (s.scored critics c).less r' r := by
          rwa [Chef.less,kept.rating_eq hc hr',kept.rating_eq hc learned,aside.conns]
        have mem := (kept.mem_sorted hc).mpr hr'
        have sorted := hc.sorted.2
        rw [split] at mem sorted
        obtain ⟨-,sorted,-⟩ := List.pairwise_append.mp sorted
        rcases List.mem_append.mp mem with hb | hb
        · exact (unable r').mp (none r' hb)
        · rcases List.mem_cons.mp hb with rfl | ha
          · exact absurd less (by simp [Chef.less])
          · exact absurd less (List.rel_of_pairwise_cons sorted ha)
    · rw [recipes,Function.update_of_ne ne]
    · have ne : r' ≠ r := fun e => able ((unable r).mpr (.inr (e ▸ refused)))
      rw [recipes,Function.update_of_ne ne]
  · have recipes : (s.cook critics c).2.recipes = s.recipes := by
      rw [last.recipes,Chef.arrange,aside.recipes]
    refine ⟨fun conn same => absurd same (res conn),fun _ => ⟨fun r hr => ?_,recipes⟩,fun r _ _ => by rw [recipes]⟩
    exact (unable r).mp (none r ((kept.mem_sorted hc).mpr hr))

def twoLearned : Rated where
  toChef := ((({} : Chef).learnRecipe [97] { maxConnections := 1 } (fun _ => .refused) 0).learnRecipe [98]
    { priority := 5 } (fun _ => .refused) 0)

/-- The first recipe is rated but its server rejects the dial, the second cannot be scored. -/
def secondChoice : CookCall where
  visits := [0,1]
  tasting r := if r = 0 then ⟨10,.ready,fun _ => some ⟨100,3⟩⟩ else ⟨11,.refused,fun _ => none⟩
  sorted := [0,1]
  attempt r := if r = 0 then .rejected else .ready
  clock := 12

theorem cook_best_second : (cook 1 twoLearned secondChoice).1 = .cooked 2 ∧
    ∃ r, twoLearned.Best 1 secondChoice (cook 1 twoLearned secondChoice).2 2 r ∧
      ∀ r' ≠ r, (cook 1 twoLearned secondChoice).2.recipes r' = twoLearned.recipes r' := by
  have reached : Reachable {} (Allowed 1) (step 1) twoLearned :=
    (Reachable.start.next (e := .learn [97] { maxConnections := 1 } (fun _ => .refused) 0) trivial rfl).next
      (e := .learn [98] { priority := 5 } (fun _ => .refused) 0) trivial rfl
  have cooked : (cook 1 twoLearned secondChoice).1 = .cooked 2 := by decide
  have admits : twoLearned.Admits 1 secondChoice := ⟨by decide,by decide,by decide,by decide⟩
  have fits : twoLearned.Fits 1 secondChoice := by decide
  exact ⟨cooked,(cook_best reached secondChoice admits fits).2.2.2.1 2 cooked⟩

end Rated
end Pggat.Kitchen
