import Pggat.Kitchen.Honesty

/-! What becomes of a recipe that is forgotten while calls run side by side. -/
namespace Pggat.Kitchen
open Pggat.Base

/-- The step makes the chef forget a recipe that it knows, or all. -/
def Event.forgets (s : Chef) (th : Thread) : Event → Bool
  | .forget name => (s.byName.get name).isSome
  | .enter _ _ => th.enters.any fun e => (s.byName.get e.1).isSome
  | .close => true
  | _ => false

section
variable {critics : Bool} {s s' : Chef} {e : Event} {th th' : Thread}

theorem Moves.keeps (h : Moves critics s e th th' s') (listed : s.Listed) (hf : e.forgets s th = false) :
    ∀ r ∈ s.learned, r ∈ s'.learned := by
  rcases h.menu with shares | ⟨_,_,_,_,shares⟩ | ⟨name,rfl,rfl⟩ | ⟨_,_,name,r,added,rfl,he,-,rfl⟩
  · exact shares.stays.learned
  · exact fun r hr => shares.learned.symm ▸ hr
  · rw [Chef.forget_unknown (by simpa [Event.forgets] using hf)]
    exact fun _ => id
  · exact (listed.stays_learn (by simpa [Event.forgets,he] using hf) ..).learned

theorem Moves.stays (h : Moves critics s e th th' s') (listed : s.Listed) (hf : e.forgets s th = false)
    (hs : e.sorts = false) : s.Stays s' := by
  rcases h.menu with shares | ⟨_,_,sorts,_,_⟩ | ⟨name,rfl,rfl⟩ | ⟨_,_,name,r,added,rfl,he,-,rfl⟩
  · exact shares.stays
  · rw [hs] at sorts
    cases sorts
  · rw [Chef.forget_unknown (by simpa [Event.forgets] using hf)]
    exact (Chef.Shares.refl s).stays
  · exact listed.stays_learn (by simpa [Event.forgets,he] using hf) ..

end

namespace System

/-- The step does not disturb a running `Cook`: nothing is forgotten while one is away for a dial, and the slice is not
sorted while the loop of another goes through it. -/
def Undisturbed (s : System) (e : Event) : Prop :=
  ∀ t < s.started, (e.forgets s.toChef (s.caller e) → ¬ (s.threads t).away) ∧ (e.sorts → ¬ (s.threads t).cooks)

instance (s : System) (e : Event) : Decidable (Undisturbed s e) := by unfold Undisturbed; infer_instance

def Pending (s : System) (r : RecipeId) : Prop := s.made ≤ r ∨ ∃ t, (s.threads t).learns = some r

/-- The recipes that calls take for learned are. -/
structure Truthful (s : System) : Prop where
  accounted : Accounted s
  listed : s.Listed
  fresh : ∀ r, s.Pending r → r ∉ s.learned
  unknown : ∀ t, ∀ r ∈ (s.threads t).known, ¬ s.Pending r
  apart : ∀ t t' r, (s.threads t).learns = some r → (s.threads t').learns = some r → t = t'
  honest : ∀ t, (s.threads t).Honest s.toChef
  traced : ∀ t, Traced s.toChef (s.threads t)
  stocked : Stocked s.toChef

namespace Truthful
variable {s : System}

theorem initial : Truthful {} where
  accounted := .initial
  listed := .initial
  fresh _ _ h := nomatch h
  unknown _ _ h := nomatch h
  apart _ _ _ h := nomatch h
  honest _ := trivial
  traced _ _ h := nomatch h
  stocked _ _ h := nomatch h

section Move
variable {critics : Bool} {e : Event} {t n : Nat} {th : Thread} {chef : Chef}

variable {r : RecipeId}

theorem pending (h : Truthful s) (moves : Moves critics s.toChef e (s.threads t) th chef)
    (hr : Pending ⟨chef,Function.update s.threads t th,n⟩ r) : s.Pending r := by
  rcases hr with made | ⟨i,hi⟩
  · exact .inl ((moves.fits (h.accounted.holder t) h.accounted.known).made.trans made)
  · rcases eq_or_ne i t with rfl | ne
    · rcases moves.learns (r := r) (by simpa using hi) with hi | rfl
      · exact .inr ⟨i,hi⟩
      · exact .inl (Nat.le_refl _)
    · exact .inr ⟨i,by simpa [ne] using hi⟩

theorem old (h : Truthful s) (moves : Moves critics s.toChef e (s.threads t) th chef)
    (hr : r ∈ chef.learned) (known : ¬ s.Pending r) : r ∈ s.learned :=
  (moves.learned h.listed hr).resolve_right fun learns => known (.inr ⟨t,learns.1⟩)

theorem move (h : Truthful s) (moves : Moves critics s.toChef e (s.threads t) th chef)
    (accounted : Accounted ⟨chef,Function.update s.threads t th,n⟩)
    (away : ∀ i, (s.threads i).away → e.forgets s.toChef (s.threads t) = false)
    (cooks : ∀ i, (s.threads i).cooks → e.sorts = false) : Truthful ⟨chef,Function.update s.threads t th,n⟩ := by
  have holder := h.accounted.holder t
  refine ⟨accounted,?_,fun r pending learned => ?_,fun i r hr pending => ?_,fun i j r hi hj => ?_,fun i => ?_,
    fun i => ?_,?_⟩
  · exact moves.listed h.listed fun r hr => h.fresh r (.inr ⟨t,hr⟩)
  · rcases moves.learned h.listed learned with learned | ⟨mine,gone⟩
    · exact h.fresh r (h.pending moves pending) learned
    · rcases pending with made | ⟨i,hi⟩
      · have lt := holder.learns r mine
        exact absurd made (Nat.not_le.mpr (lt.trans_le (moves.fits holder h.accounted.known).made))
      · rcases eq_or_ne i t with rfl | ne
        · simp [gone] at hi
        · exact ne (h.apart i t r (by simpa [ne] using hi) mine)
  · have before := h.pending moves pending
    rcases eq_or_ne i t with rfl | ne
    · rcases moves.knows (r := r) (by simpa using hr) with hr | hr
      · exact h.unknown i r hr before
      · exact h.fresh r before hr
    · exact h.unknown i r (by simpa [ne] using hr) before
  · have back (i : Nat) (hi : (Function.update s.threads t th i).learns = some r) :
        (s.threads i).learns = some r ∨ i = t ∧ r = s.made := by
      rcases eq_or_ne i t with rfl | ne
      · exact (moves.learns (by simpa using hi)).imp id fun e => ⟨rfl,e⟩
      · exact .inl (by simpa [ne] using hi)
    have born (i : Nat) (hi : (s.threads i).learns = some s.made) : False :=
      absurd ((h.accounted.holder i).learns _ hi) (Nat.lt_irrefl _)
    rcases back i hi with hi | ⟨hi,new⟩ <;> rcases back j hj with hj | ⟨hj,new'⟩
    · exact h.apart i j r hi hj
    · exact (born i (new' ▸ hi)).elim
    · exact (born j (new ▸ hj)).elim
    · exact hi.trans hj.symm
  · rcases eq_or_ne i t with rfl | ne
    · simpa using moves.honest h.listed (h.honest i)
    · simp only [Function.update_of_ne ne]
      refine (h.honest i).stays (fun r hk hr => h.old moves hr (h.unknown i r hk)) (fun ha => ?_) fun hc => ?_
      · exact moves.keeps h.listed (away i ha)
      · exact moves.stays h.listed (away i (Thread.away_of_cooks hc)) (cooks i hc)
  · rcases eq_or_ne i t with rfl | ne
    · simpa using moves.traced holder (h.traced i)
    · simp only [Function.update_of_ne ne]
      exact fun c hc => (moves.origin ((h.accounted.holder i).holds c hc).1).symm ▸ h.traced i c hc
  · exact moves.stocked h.listed h.accounted.balanced h.accounted.known (h.traced t) (h.honest t) h.stocked

end Move

private theorem chef (h : Truthful s) {chef : Chef} {gone : List Conn} (dropped : s.toChef.Dropped chef gone)
    (accounted : Accounted { s with toChef := chef }) : Truthful { s with toChef := chef } := by
  have learned := dropped.shares.learned
  refine ⟨accounted,h.listed.shares dropped.shares,fun r pending hr => ?_,fun t r hr pending => ?_,h.apart,
    fun t => (h.honest t).shares dropped.shares,fun t c hc => ?_,fun c r hr => ?_⟩
  · exact h.fresh r (pending.imp dropped.made.ge.trans id) (learned ▸ hr)
  · exact h.unknown t r hr (pending.imp dropped.made.ge.trans id)
  · exact (congrFun dropped.origin c).symm ▸ h.traced t c hc
  · obtain ⟨hl,origin⟩ := h.stocked c r (dropped.get_eq_some.mp hr).1
    exact ⟨learned.symm ▸ hl,(congrFun dropped.origin c).trans origin⟩

private theorem close (h : Truthful s) (accounted : Accounted { s with toChef := s.toChef.close })
    (away : ∀ t, ¬ (s.threads t).away) : Truthful { s with toChef := s.toChef.close } := by
  have dropped := s.toChef.close_dropped
  have none : s.toChef.close.learned = [] := s.toChef.close_learned
  refine ⟨accounted,h.listed.close,fun r _ hr => ?_,fun t r hr pending => ?_,h.apart,fun t => ?_,fun t c hc => ?_,
    fun c r hr => ?_⟩
  · rw [none] at hr
    cases hr
  · exact h.unknown t r hr (pending.imp dropped.made.ge.trans id)
  · refine (h.honest t).stays (fun r _ hr => ?_) (fun ha => absurd ha (away t)) fun hc => ?_
    · rw [none] at hr
      cases hr
    · exact absurd (Thread.away_of_cooks hc) (away t)
  · exact (congrFun dropped.origin c).symm ▸ h.traced t c hc
  · obtain ⟨known,stays⟩ := dropped.get_eq_some.mp hr
    exact absurd ((s.byConn.mem_iff c).mpr ⟨r,known⟩) stays

variable {critics : Bool}

theorem step (h : Truthful s) {e : Event} {s' : System} (calm : Undisturbed s e)
    (hs : s.step critics e = some s') : Truthful s' := by
  have accounted := h.accounted.step hs
  have lt {i : Nat} (hi : (s.threads i).away) : i < s.started :=
    h.accounted.lt_started fun idle => by simp [idle,Thread.away] at hi
  have cooks (i : Nat) (hi : (s.threads i).cooks) : e.sorts = false := by
    by_contra sorts
    exact (calm i (lt (Thread.away_of_cooks hi))).2 (by simpa using sorts) hi
  have away (i : Nat) (hi : (s.threads i).away) : e.forgets s.toChef (s.caller e) = false := by
    by_contra forgets
    exact (calm i (lt hi)).1 (by simpa using forgets) hi
  cases step_stepped hs with
  | @call t th chef ht busy moves =>
    have caller : s.caller e = s.threads t := by rw [System.caller,ht]; rfl
    exact h.move moves accounted (fun i hi => caller ▸ away i hi) cooks
  | new ht moves =>
    have idle : s.threads s.started = .idle := h.accounted.quiet _ (Nat.le_refl _)
    have caller : s.caller e = s.threads s.started := by rw [System.caller,ht]; rfl
    exact h.move (idle.symm ▸ moves) accounted (fun i hi => caller ▸ away i hi) cooks
  | burn => exact h.chef (Chef.burn_dropped ..) accounted
  | ignite => exact h.chef (Chef.ignite_dropped ..) accounted
  | close he =>
    refine h.close accounted fun t ht => ?_
    have := away t ht
    rw [he] at this
    cases this
  | sever =>
    exact ⟨accounted,h.listed.shares ⟨rfl,rfl,rfl⟩,h.fresh,h.unknown,h.apart,
      fun t => (h.honest t).shares ⟨rfl,rfl,rfl⟩,h.traced,h.stocked⟩

theorem reachable (h : Reachable {} Undisturbed (System.step critics) s) : Truthful s :=
  h.invariant initial fun _ _ _ h ha hs => h.step ha hs

end Truthful

def Retired (s : System) (r : RecipeId) : Prop := ¬ s.Pending r ∧ r ∉ s.learned

namespace Truthful
variable {critics : Bool} {s s' : System} {e : Event} {r : RecipeId}

theorem retired (h : Truthful s) (hs : s.step critics e = some s') (hr : s.Retired r) : s'.Retired r := by
  obtain ⟨old,gone⟩ := hr
  have move {t n : Nat} {th : Thread} {chef : Chef} (moves : Moves critics s.toChef e (s.threads t) th chef) :
      Retired ⟨chef,Function.update s.threads t th,n⟩ r :=
    ⟨fun pending => old (h.pending moves pending),fun learned => gone (h.old moves learned old)⟩
  have chef {chef : Chef} (made : chef.made = s.made) (learned : ∀ r ∈ chef.learned, r ∈ s.learned) :
      Retired { s with toChef := chef } r :=
    ⟨fun pending => old (pending.imp made.ge.trans id),fun hr => gone (learned r hr)⟩
  cases step_stepped hs with
  | call _ _ moves => exact move moves
  | new _ moves =>
    have idle : s.threads s.started = .idle := h.accounted.quiet _ (Nat.le_refl _)
    exact move (idle.symm ▸ moves)
  | @burn conn =>
    have dropped := s.toChef.burn_dropped conn
    exact chef dropped.made fun r hr => dropped.shares.learned ▸ hr
  | @ignite conn =>
    have dropped := s.toChef.ignite_dropped conn
    exact chef dropped.made fun r hr => dropped.shares.learned ▸ hr
  | close =>
    refine chef s.toChef.close_dropped.made fun r hr => ?_
    rw [s.toChef.close_learned] at hr
    cases hr
  | sever => exact chef rfl fun _ => id

private theorem retired_forget (h : Truthful s) {name : GoString} (hr : s.byName.get name = some r)
    (hs : s.step critics (.forget name) = some s') : s'.Retired r := by
  have known : ¬ s.Pending r := fun pending => h.fresh r pending (Chef.mem_learned.mpr ⟨name,hr⟩)
  have idle : s.threads s.started = .idle := h.accounted.quiet _ (Nat.le_refl _)
  have moves : Moves critics s.toChef (.forget name) (s.threads s.started)
      (.done [] [] (.forgot (s.forget name).1)) (s.forget name).2 := idle.symm ▸ .forget
  rw [← Option.some.inj hs]
  exact ⟨fun pending => known (h.pending moves pending),
    fun learned => ((h.listed.forget_learned name r).mp learned).2 hr⟩

variable {t : Nat}

/-- Nothing dials a recipe that is not learned, other than the `Learn` that it is given to. -/
theorem dials_learned (h : Truthful s) (hr : (s.threads t).dials = some r) : s.Pending r ∨ r ∈ s.learned := by
  have honest := h.honest t
  obtain ⟨_,_,_,e⟩ | ⟨_,_,e⟩ | ⟨_,_,_,_,e⟩ := Thread.dials_some hr <;> rw [e] at honest
  · exact .inl (.inr ⟨t,by rw [e]; rfl⟩)
  · exact .inr honest
  · exact .inr honest.mem

private theorem cooked_learned (h : Truthful s) (hs : s.step critics (.finish t) = some s')
    {known tried : List RecipeId} {c : Conn} (ht : s'.threads t = .done known tried (.cooked c)) :
    s'.origin c ∈ s.learned := by
  cases step_stepped hs with
  | @call t' th chef same _ moves =>
    cases same
    obtain rfl : th = .done known tried (.cooked c) := by simpa [System.goto] using ht
    have honest := h.honest t
    have traced := h.traced t
    generalize s.threads t = before at moves honest traced
    cases moves with
    | cooked =>
      have origin := Option.some.inj (traced c (List.mem_singleton_self c))
      exact origin ▸ Thread.Looking.mem honest
  | new new => cases new
  | burn he => cases he
  | ignite he => cases he
  | close he => cases he
  | sever he => cases he

end Truthful

/-- A forgotten recipe stays forgotten, in every run that disturbs no `Cook` while it dials: once `Forget` has returned, no
connection of the recipe is in the kitchen, nothing dials it and no `Cook` returns a connection made from it. And a `Cook`
that finds no recipe has tried all that were learned when it began and still are. -/
theorem forgotten_stays_forgotten {critics : Bool} {s : System} (h : Reachable {} Undisturbed (step critics) s) :
    (∀ name r s₁ s₂, s.byName.get name = some r → Undisturbed s (.forget name) →
      s.step critics (.forget name) = some s₁ → Reachable s₁ Undisturbed (step critics) s₂ →
        (∀ c, s₂.byConn.get c ≠ none → s₂.origin c ≠ r) ∧ (∀ t, (s₂.threads t).dials ≠ some r) ∧
        ∀ t s₃ known tried c, s₂.step critics (.finish t) = some s₃ →
          s₃.threads t = .done known tried (.cooked c) → s₃.origin c ≠ r) ∧
    ∀ t known tried, s.threads t = .done known tried .noRecipes → ∀ r ∈ known, r ∈ s.learned → r ∈ tried := by
  have truthful := Truthful.reachable h
  refine ⟨fun name r s₁ s₂ hr calm forgot h₂ => ?_,fun t known tried ht => ?_⟩
  · have start : s₁.Retired r := truthful.retired_forget hr forgot
    obtain ⟨truthful₂,old,gone⟩ := h₂.invariant (P := fun s => Truthful s ∧ s.Retired r)
      ⟨truthful.step calm forgot,start⟩ fun _ _ _ h ha hs => ⟨h.1.step ha hs,h.1.retired hs h.2⟩
    refine ⟨fun c hc e => ?_,fun t ht => ?_,fun t s₃ known tried c hs ht e => ?_⟩
    · obtain ⟨r',hr'⟩ := Option.ne_none_iff_exists'.mp hc
      obtain ⟨hl,ho⟩ := truthful₂.stocked c r' hr'
      exact gone (e ▸ ho ▸ hl)
    · exact (truthful₂.dials_learned ht).elim old gone
    · exact gone (e ▸ truthful₂.cooked_learned hs ht)
  · have honest := truthful.honest t
    rw [ht] at honest
    exact honest

/-- Two recipes with a connection each. -/
def bothLearned : List Event :=
  [.learn [97] 0 1 2, .connect 0, .accept 0 true, .enter 0 0, .learn [98] 0 1 2, .connect 1, .accept 1 true, .enter 1 0]

/-- A `Cook` of the second, once the first was forgotten. -/
def otherCooked : List Event := [.cook (.sort [1]), .connect 3, .accept 3 true, .finish 3]

theorem forgotten_stays_forgotten_between :
    ∃ s s₁ s₂ : System, Reachable {} Undisturbed (step false) s ∧ s.byName.get [97] = some 0 ∧
      s.step false (.forget [97]) = some s₁ ∧ Reachable s₁ Undisturbed (step false) s₂ ∧
      s₂.threads 3 = .done [1] [1] (.cooked 2) ∧ s₂.byConn.get 1 = some 1 ∧ s₂.byConn.get 2 = some 1 ∧
      (∀ c, s₂.byConn.get c ≠ none → s₂.origin c ≠ 0) ∧ ∀ t, (s₂.threads t).dials ≠ some 0 := by
  have h := Reachable.of_run .start (fun _ _ => id) bothLearned
    (show run Undisturbed (step false) ({} : System) bothLearned = some _ from rfl)
  refine ⟨_,_,_,h,rfl,rfl,Reachable.of_run .start (fun _ _ => id) otherCooked rfl,rfl,rfl,rfl,?_⟩
  have gone := (forgotten_stays_forgotten h).1 [97] 0 _ _ rfl (by decide) rfl
    (Reachable.of_run .start (fun _ _ => id) otherCooked rfl)
  exact ⟨gone.1,gone.2.1⟩

/-- A `Cook` dials the only recipe, which is forgotten before it has come back. -/
def forgottenWhileDialed : List Event := [.learn [97] 0 0 0, .enter 0 0, .cook (.sort [0]), .connect 1, .accept 1 true]

/-- Three recipes, of which the last has its only connection, and a `Cook` that dials the first. -/
def firstOfThree : List Event :=
  [.learn [97] 0 0 0, .enter 0 0, .learn [98] 0 0 0, .enter 1 0, .learn [99] 0 1 1, .connect 2, .accept 2 true,
    .enter 2 1, .cook (.sort [0, 1, 2])]

/-- A `Cook` returns a connection of a recipe that was forgotten, and the kitchen keeps it; one starts to dial such a
recipe; and one leaves out a recipe that stayed learned. -/
theorem forgotten_comes_back :
    (∃ s s₁ s₂ : System, Reachable {} (fun _ _ => True) (step false) s ∧ s.byName.get [97] = some 0 ∧
      s.step false (.forget [97]) = some s₁ ∧ Reachable s₁ (fun _ _ => True) (step false) s₂ ∧
      s₂.threads 1 = .done [0] [0] (.cooked 0) ∧ s₂.byConn.get 0 = some 0 ∧ s₂.origin 0 = 0 ∧ s₂.learned = []) ∧
    (∃ s s₁ s₂ : System, Reachable {} (fun _ _ => True) (step false) s ∧ s.byName.get [97] = some 0 ∧
      s.step false (.forget [97]) = some s₁ ∧ (s₁.threads 3).dials = none ∧
      Reachable s₁ (fun _ _ => True) (step false) s₂ ∧ (s₂.threads 3).dials = some 0 ∧ 0 ∉ s₂.learned) ∧
    ∃ s : System, Reachable {} (fun _ _ => True) (step false) s ∧
      s.threads 3 = .done [2, 1, 0] [0, 2, 3] .noRecipes ∧ s.byName.get [98] = some 1 := by
  refine ⟨⟨_,_,_,Reachable.of_run .start (fun _ _ => id) forgottenWhileDialed rfl,rfl,rfl,
    Reachable.of_run .start (fun _ _ => id) [.finish 1] rfl,rfl,rfl,rfl,rfl⟩,
    ⟨_,_,_,Reachable.of_run .start (fun _ _ => id) (firstOfThree ++ [.refuse 3]) rfl,rfl,rfl,rfl,
      Reachable.of_run .start (fun _ _ => id) [.finish 3] rfl,rfl,by decide⟩,
    ⟨_,Reachable.of_run .start (fun _ _ => id)
      (firstOfThree ++ [.forget [97], .learn [100] 0 1 1, .connect 5, .accept 5 true, .enter 5 0, .refuse 3, .finish 3])
      rfl,rfl,rfl⟩⟩

end System
end Pggat.Kitchen
