import Mathlib.Algebra.Order.BigOperators.Group.Finset
import Pggat.Kitchen.Accounting

/-! How many connections of a recipe are open at once. -/
namespace Pggat.Kitchen
open Pggat.Base Finset

namespace Thread

/-- The recipe that a `Cook` scores. -/
def tastes : Thread → Option RecipeId
  | scoring _ _ r _ => some r
  | _ => none

/-- A call that holds a connection and has a slot for it. -/
def Pays (r : RecipeId) (th : Thread) (c : Conn) : Prop := c ∈ th.holds ∧ 0 < th.slots r

/-- There is a slot for each connection that a call holds, if there is one at all. -/
def Paid (th : Thread) : Prop := ∀ r, 0 < th.slots r → th.holds.length ≤ th.slots r

variable {th : Thread} {r : RecipeId}

theorem paid_of_holds (h : th.holds = []) : th.Paid := fun r _ => by simp [h]

theorem recipe_of_slots (h : 0 < th.slots r) : th.recipe = some r := by
  unfold slots at h
  split at h
  · exact congrArg some (by_contra fun ne => by simp [Ne.symm ne] at h)
  · exact congrArg some (by_contra fun ne => by simp [Ne.symm ne] at h)
  · exact congrArg some (by_contra fun ne => by simp [Ne.symm ne] at h)
  all_goals cases h

theorem Paid.connect (hr : th.dials = some r) (c : Conn) : (th.connect c).Paid := by
  intro r' hs
  obtain ⟨_,_,_,rfl⟩ | ⟨_,_,rfl⟩ | ⟨_,_,_,_,rfl⟩ := dials_some hr
  · cases recipe_of_slots hs
    simp only [Thread.connect,slots,holds,Pi.single_eq_same,List.length_append,Option.toList_some,
      List.length_singleton]
    omega
  · cases hs
  · cases recipe_of_slots hs
    simp [Thread.connect,slots,holds,Dial.conn]

theorem Paid.sub {th th' : Thread} (h : th.Paid) (slots : th'.slots = th.slots) (holds : th'.holds.Sublist th.holds) :
    th'.Paid := fun r hr =>
  slots ▸ holds.length_le.trans (h r (slots ▸ hr))

theorem Pays.connect (hr : th.dials = some r) (ht : th.tastes ≠ some r) (c : Conn) :
    Pays r (th.connect c) c := by
  obtain ⟨-,holds,-⟩ := connect_of_dials hr c
  refine ⟨by simp [holds],?_⟩
  obtain ⟨_,_,_,rfl⟩ | ⟨_,_,rfl⟩ | ⟨_,_,_,_,rfl⟩ := dials_some hr
  · simp [Thread.connect,slots]
  · exact absurd rfl ht
  · simp [Thread.connect,slots]

theorem Pays.accept {th th' : Thread} {ok : Bool} {r : RecipeId} {c : Conn} (ha : th.accept ok = some th')
    (spares : ok = false → th.recipe ≠ some r) (h : Pays r th c) : Pays r th' c := by
  refine ⟨?_,slots_of_accept ha ▸ h.2⟩
  cases ok with
  | false => exact absurd (recipe_of_slots h.2) (spares rfl)
  | true =>
    obtain ⟨_,_,_,_,_,rfl,rfl⟩ | ⟨_,_,_,_,rfl,rfl⟩ | ⟨_,_,_,_,_,_,rfl,rfl⟩ := accept_some ha
    · simpa [holds] using h.1
    · exact h.1
    · exact h.1

theorem Pays.enters {th : Thread} {name : GoString} {r r' : RecipeId} {added : List Conn} {c : Conn}
    (he : th.enters = some (name,r',added)) (paid : th.Paid) (h : Pays r th c) : c ∈ added ∧ r = r' := by
  obtain ⟨slots,holds,-⟩ := enters_some he
  have same : r = r' := by
    by_contra ne
    simpa [slots,ne] using h.2
  have length := paid r h.2
  rw [slots,same,Pi.single_eq_same] at length
  exact ⟨holds.eq_of_length_le length ▸ h.1,same⟩

end Thread

section
variable {critics : Bool} {s s' : Chef} {e : Event} {th th' : Thread} {r : RecipeId}

private theorem Looks.paysNothing {known tried : List RecipeId} {slice : Slice} {i : Nat}
    (h : Looks s e th known tried slice i s') (r : RecipeId) (c : Conn) : ¬ th.Pays r c := by
  rintro ⟨hc,hs⟩
  cases h with
  | sorted hth => simp [Thread.slots_of_scores hth] at hs
  | next => cases hc

theorem Looks.opened {known tried : List RecipeId} {slice : Slice} {i : Nat}
    (h : Looks s e th known tried slice i s') :
    s'.opened = s.opened ∧ s'.origin = s.origin ∧ s'.broken = s.broken := by
  cases h <;> exact ⟨rfl,rfl,rfl⟩

theorem Moves.paid (h : Moves critics s e th th' s') (paid : th.Paid) : th'.Paid := by
  cases h with
  | learn => exact Thread.paid_of_holds rfl
  | connect hr => exact .connect hr _
  | refuse hr =>
    obtain ⟨slots,holds,-⟩ := Thread.refuse_of_dials hr
    exact paid.sub slots holds
  | accept ha => exact paid.sub (Thread.slots_of_accept ha) (Thread.holds_of_accept ha)
  | free =>
    intro r' hr
    cases Thread.recipe_of_slots hr
    simp [Thread.slots,Thread.holds]
  | _ => exact Thread.paid_of_holds rfl

/-- The step opens no socket to score the recipe, no handshake with its server fails, and no connection to it breaks. -/
def Event.Spares (s : Chef) (r : RecipeId) (th : Thread) : Event → Prop
  | .connect _ => th.tastes ≠ some r
  | .accept _ ok => ok = false → th.recipe ≠ some r
  | .sever conn => s.origin conn ≠ r
  | _ => True

instance : Decidable (Event.Spares s r th e) := by unfold Event.Spares; split <;> infer_instance

/-- Where an open connection of a recipe is: in the kitchen, or in the hands of a call that has a slot for it. -/
def Found (s : Chef) (th : Thread) (r : RecipeId) (c : Conn) : Prop := s.byConn.get c = some r ∨ th.Pays r c

theorem Moves.found (h : Moves critics s e th th' s') (spares : e.Spares s r th) (holder : Holder s th)
    (paid : th.Paid) {c : Conn} (sound : c ∈ s.broken → s.origin c ≠ r) (hc : c ∈ s'.opened) (hr : s'.origin c = r) :
    th'.Pays r c ∨ c ∈ s.opened ∧ s.origin c = r ∧ (s.byConn.get c = some r → s'.byConn.get c = some r) ∧
      (th.Pays r c → Found s' th' r c) := by
  cases h with
  | learn => exact .inr ⟨hc,hr,id,fun pays => absurd pays.1 List.not_mem_nil⟩
  | connect hd =>
    simp only [Chef.connect,mem_insert] at hc hr
    rcases eq_or_ne c s.dialed with rfl | ne
    · rw [Function.update_self] at hr
      cases hr
      exact .inl (.connect hd spares _)
    · rw [Function.update_of_ne ne] at hr
      refine .inr ⟨hc.resolve_left ne,hr,id,fun pays => .inr ?_⟩
      obtain ⟨slots,holds,-⟩ := Thread.connect_of_dials hd s.dialed
      exact ⟨by simp [holds,pays.1],slots ▸ pays.2⟩
  | refuse hd =>
    refine .inr ⟨hc,hr,id,fun pays => .inr ⟨?_,(Thread.refuse_of_dials hd).1 ▸ pays.2⟩⟩
    have held := pays.1
    obtain ⟨_,_,_,rfl⟩ | ⟨_,_,rfl⟩ | ⟨_,_,_,_,rfl⟩ := Thread.dials_some hd
    · simpa [Thread.refuse,Thread.holds] using held
    · cases held
    · cases held
  | accept ha => exact .inr ⟨hc,hr,id,fun h => .inr (h.accept ha spares)⟩
  | free =>
    refine .inr ⟨hc,hr,id,fun pays => .inr ⟨pays.1,?_⟩⟩
    have held := List.length_pos_of_mem pays.1
    cases Thread.recipe_of_slots pays.2
    simpa [Thread.slots] using .inr held
  | @enter _ spare _ name r' added he =>
    have forgot := s.forget_dropped name
    have learned := (s.learn_learned name r' added spare).inserted
    rw [learned.opened] at hc
    obtain ⟨hc,broken⟩ := forgot.opened c hc
    have hr := (congrFun (learned.origin.trans forgot.origin) c).symm.trans hr
    refine .inr ⟨hc,hr,fun known => ?_,fun pays => .inl ?_⟩
    · have fresh : c ∉ added := fun ha => by
        simp [(holder.holds c ((Thread.enters_some he).2.1.subset ha)).2] at known
      rw [learned.byConn,if_neg fresh]
      exact forgot.get_eq_some.mpr ⟨known,fun gone => sound (broken gone) hr⟩
    · obtain ⟨added,rfl⟩ := pays.enters he paid
      rw [learned.byConn,if_pos added]
  | @forget name =>
    have forgot := s.forget_dropped name
    obtain ⟨hc,broken⟩ := forgot.opened c hc
    have hr := (congrFun forgot.origin c).symm.trans hr
    exact .inr ⟨hc,hr,fun known => forgot.get_eq_some.mpr ⟨known,fun gone => sound (broken gone) hr⟩,
      fun pays => absurd pays.1 List.not_mem_nil⟩
  | score hth =>
    refine .inr ⟨hc,hr,id,fun pays => ?_⟩
    simp [Thread.Pays,Thread.slots_of_scores hth] at pays
  | taste => exact .inr ⟨(Chef.mem_shut hc).1,hr,id,fun pays => absurd pays.2 (Nat.lt_irrefl 0)⟩
  | noRecipes look =>
    obtain ⟨opened,origin,-⟩ := look.opened
    exact .inr ⟨opened ▸ hc,origin ▸ hr,fun h => look.same.2.2.symm ▸ h,fun h => (look.paysNothing _ _ h).elim⟩
  | dial look =>
    obtain ⟨opened,origin,-⟩ := look.opened
    exact .inr ⟨opened ▸ hc,origin ▸ hr,fun h => look.same.2.2.symm ▸ h,fun h => (look.paysNothing _ _ h).elim⟩
  | @cooked _ _ _ _ _ r' conn =>
    have fresh := (holder.holds conn (List.mem_singleton_self conn)).2
    refine .inr ⟨hc,hr,fun known => ?_,fun pays => .inl ?_⟩
    · have ne : c ≠ conn := fun e => by simp [e,fresh] at known
      simpa [Chef.insert,ne] using known
    · have same := List.mem_singleton.mp pays.1
      cases Thread.recipe_of_slots pays.2
      simp [Chef.insert,same]
  | failed => exact .inr ⟨hc,hr,id,fun pays => absurd pays.1 List.not_mem_nil⟩

/-- Broken connections are older than those that are opened. -/
theorem Moves.sound (h : Moves critics s e th th' s') (sound : ∀ c ∈ s.broken, c < s.dialed ∧ s.origin c ≠ r) :
    ∀ c ∈ s'.broken, c < s'.dialed ∧ s'.origin c ≠ r := by
  cases h with
  | connect =>
    intro c hc
    obtain ⟨old,other⟩ := sound c hc
    exact ⟨Nat.lt_succ_of_lt old,(Function.update_of_ne old.ne ..).trans_ne other⟩
  | @enter _ spare _ name r' added he =>
    have forgot := s.forget_dropped name
    have learned := (s.learn_learned name r' added spare).inserted
    rw [learned.broken,forgot.broken,learned.dialed,forgot.dialed,learned.origin,forgot.origin]
    exact sound
  | @forget name =>
    have forgot := s.forget_dropped name
    rw [forgot.broken,forgot.dialed,forgot.origin]
    exact sound
  | noRecipes look | dial look =>
    obtain ⟨-,origin,broken⟩ := look.opened
    simpa only [Chef.allocate,Chef.setRecipe,origin,broken,look.same.1] using sound
  | _ => exact sound

end

namespace System

def Frugal (r : RecipeId) (s : System) (e : Event) : Prop := e.Spares s.toChef r (s.caller e)

instance (r : RecipeId) (s : System) (e : Event) : Decidable (Frugal r s e) := by unfold Frugal; infer_instance

/-- Every open connection of the recipe is in the kitchen or has a slot of the call that holds it. -/
structure Kept (r : RecipeId) (s : System) : Prop where
  accounted : Accounted s
  paid : ∀ t, (s.threads t).Paid
  sound : ∀ c ∈ s.broken, c < s.dialed ∧ s.origin c ≠ r
  kept : ∀ c ∈ s.opened, s.origin c = r → s.byConn.get c = some r ∨ ∃ t, (s.threads t).Pays r c

namespace Kept
variable {r : RecipeId} {s : System} {critics : Bool}

theorem initial (r : RecipeId) : Kept r {} where
  accounted := .initial
  paid _ := Thread.paid_of_holds rfl
  sound _ hc := nomatch hc
  kept _ hc := nomatch hc

private theorem move (h : Kept r s) {e : Event} {t n : Nat} {th : Thread} {chef : Chef}
    (moves : Moves critics s.toChef e (s.threads t) th chef) (spares : e.Spares s.toChef r (s.threads t))
    (accounted : Accounted ⟨chef,Function.update s.threads t th,n⟩) :
    Kept r ⟨chef,Function.update s.threads t th,n⟩ := by
  have mine {c : Conn} (hc : th.Pays r c) : ∃ i, (Function.update s.threads t th i).Pays r c :=
    ⟨t,by simpa using hc⟩
  refine ⟨accounted,fun i => ?_,moves.sound h.sound,fun c hc hr => ?_⟩
  · rcases eq_or_ne i t with rfl | ne
    · simpa using moves.paid (h.paid i)
    · simpa [ne] using h.paid i
  · rcases moves.found spares (h.accounted.holder t) (h.paid t) (fun hb => (h.sound c hb).2) hc hr with pays | ⟨hc,hr,known,held⟩
    · exact .inr (mine pays)
    · rcases h.kept c hc hr with hk | ⟨i,hi⟩
      · exact .inl (known hk)
      · rcases eq_or_ne i t with rfl | ne
        · exact (held hi).imp id mine
        · exact .inr ⟨i,by simpa [ne] using hi⟩

private theorem chef (h : Kept r s) {chef s₀ : Chef} {gone : List Conn} (dropped : s₀.Dropped chef gone)
    (aside : s₀ = { s with byName := s₀.byName, order := s₀.order }.toChef)
    (accounted : Accounted { s with toChef := chef }) : Kept r { s with toChef := chef } := by
  rw [aside] at dropped
  refine ⟨accounted,h.paid,?_,fun c hc hr => ?_⟩
  · rw [dropped.broken,dropped.dialed,dropped.origin]
    exact h.sound
  · obtain ⟨hc,broken⟩ := dropped.opened c hc
    replace hr := (congrFun dropped.origin c).symm.trans hr
    refine (h.kept c hc hr).imp (fun known => dropped.get_eq_some.mpr ⟨known,fun gone => ?_⟩) id
    exact (h.sound c (broken gone)).2 hr

private theorem step (h : Kept r s) {e : Event} {s' : System} (frugal : Frugal r s e)
    (hs : s.step critics e = some s') : Kept r s' := by
  have accounted := h.accounted.step hs
  cases step_stepped hs with
  | @call t th chef ht busy moves =>
    have caller : s.caller e = s.threads t := by rw [System.caller,ht]; rfl
    exact h.move moves (caller ▸ frugal) accounted
  | new ht moves =>
    have idle : s.threads s.started = .idle := h.accounted.quiet _ (Nat.le_refl _)
    have caller : s.caller e = s.threads s.started := by rw [System.caller,ht]; rfl
    exact h.move (idle.symm ▸ moves) (caller ▸ frugal) accounted
  | burn => exact h.chef (Chef.burn_dropped ..) rfl accounted
  | ignite => exact h.chef (Chef.ignite_dropped ..) rfl accounted
  | close => exact h.chef (Chef.close_dropped ..) rfl accounted
  | sever he old =>
    subst he
    refine ⟨accounted,h.paid,fun c hc => ?_,h.kept⟩
    rcases mem_insert.mp hc with rfl | hc
    · exact ⟨old,frugal⟩
    · exact h.sound c hc

private theorem reachable (h : Reachable {} (Frugal r) (System.step critics) s) : Kept r s :=
  h.invariant (initial r) fun _ _ _ h ha hs => h.step ha hs

private theorem card_le (h : Kept r s) : ((s.opened.filter (s.origin · = r)).card : Int) ≤ (s.recipes r).count := by
  let held (t : Nat) : Finset Conn := if 0 < (s.threads t).slots r then (s.threads t).holds.toFinset else ∅
  have covered : s.opened.filter (s.origin · = r) ⊆ (s.conns r).toFinset ∪ (range s.started).biUnion held := by
    intro c hc
    obtain ⟨hc,hr⟩ := mem_filter.mp hc
    rw [mem_union,mem_biUnion]
    rcases h.kept c hc hr with known | ⟨t,holds,slot⟩
    · exact .inl (List.mem_toFinset.mpr ((h.accounted.balanced.known c r).mp known))
    · have busy : s.threads t ≠ .idle := fun idle => by simp [idle,Thread.holds] at holds
      exact .inr ⟨t,mem_range.mpr (h.accounted.lt_started busy),by simp [held,slot,holds]⟩
  have slots (t : Nat) : (held t).card ≤ (s.threads t).slots r := by
    by_cases slot : 0 < (s.threads t).slots r
    · simp only [held,slot,if_true]
      exact (List.toFinset_card_le _).trans (h.paid t r slot)
    · simp [held,slot]
  have bound : (s.opened.filter (s.origin · = r)).card ≤ (s.conns r).length + s.slots r :=
    calc (s.opened.filter (s.origin · = r)).card
      _ ≤ ((s.conns r).toFinset ∪ (range s.started).biUnion held).card := card_le_card covered
      _ ≤ (s.conns r).toFinset.card + ((range s.started).biUnion held).card := card_union_le _ _
      _ ≤ (s.conns r).length + ∑ t ∈ range s.started, (s.threads t).slots r :=
        Nat.add_le_add (List.toFinset_card_le _) (card_biUnion_le.trans (sum_le_sum fun t _ => slots t))
      _ = (s.conns r).length + s.slots r := by rw [System.slots,Finset.sum_apply]
  have count := h.accounted.balanced.count r
  omega

end Kept

/-- Connection limit: as long as no socket is opened to score a recipe, no handshake with its server fails and no
connection to it breaks, there are at most as many open connections from its dialer as its maximum allows. -/
theorem opened_within_limit {critics : Bool} {r : RecipeId} {s : System}
    (h : Reachable {} (Frugal r) (step critics) s) (hm : 0 < (s.recipes r).maxConnections)
    (hmin : (s.recipes r).minConnections ≤ (s.recipes r).maxConnections) :
    ((s.opened.filter (s.origin · = r)).card : Int) ≤ (s.recipes r).maxConnections := by
  have kept := Kept.reachable h
  have within := kept.accounted.balanced.within r (by omega)
  have le := kept.card_le
  omega

def bothDialed : List Event :=
  [.learn [97] 0 1 2, .connect 0, .accept 0 true, .enter 0 0, .cook (.sort [0]), .connect 1, .accept 1 true, .finish 1]

theorem opened_within_limit_both : ∃ s : System, Reachable {} (Frugal 0) (step false) s ∧ s.opened = {0,1} ∧
    (s.recipes 0).maxConnections = 2 ∧ ((s.opened.filter (s.origin · = 0)).card : Int) ≤ 2 := by
  have h := Reachable.of_run .start (fun _ _ => id) bothDialed
    (show run (Frugal 0) (step false) ({} : System) bothDialed = some _ from rfl)
  exact ⟨_,h,by decide,rfl,opened_within_limit h (by decide) (by decide)⟩

/-- A `Cook` that scores the recipe while its only connection is open. -/
def scoredAtLimit : List Event :=
  [.learn [97] 0 1 1, .connect 0, .accept 0 true, .enter 0 0, .cook (.score [97]), .connect 1]

/-- A `Cook` after one whose handshake failed. -/
def dialedAfterFailure : List Event :=
  [.learn [97] 0 0 1, .enter 0 0, .cook (.sort [0]), .connect 1, .accept 1 false, .finish 1, .cook (.sort [0]),
    .connect 2]

/-- A `Cook` after a connection was burned for which nothing could be flushed. -/
def dialedAfterBurn : List Event :=
  [.learn [97] 0 0 1, .enter 0 0, .cook (.sort [0]), .connect 1, .accept 1 true, .finish 1, .sever 0, .burn 0,
    .cook (.sort [0]), .connect 2]

/-- Two connections are open from a recipe that allows one. -/
theorem opened_above_limit :
    (∃ s : System, Reachable {} (fun _ _ => True) (step true) s ∧ (s.recipes 0).maxConnections = 1 ∧
      (s.recipes 0).minConnections = 1 ∧ (s.opened.filter (s.origin · = 0)).card = 2) ∧
    ∀ events ∈ [dialedAfterFailure, dialedAfterBurn], ∃ s : System,
      run (fun _ _ => True) (step false) {} events = some s ∧ (s.recipes 0).maxConnections = 1 ∧
      (s.recipes 0).minConnections = 0 ∧ (s.opened.filter (s.origin · = 0)).card = 2 := by
  refine ⟨⟨_,Reachable.of_run .start (fun _ _ => id) scoredAtLimit rfl,rfl,rfl,by decide⟩,?_⟩
  simp only [List.forall_mem_cons]
  exact ⟨⟨_,rfl,rfl,rfl,by decide⟩,⟨_,rfl,rfl,rfl,by decide⟩,by simp⟩

end System
end Pggat.Kitchen
