import Mathlib.Algebra.BigOperators.Pi
import Pggat.Kitchen.Moves
import Pggat.Kitchen.Sections

/-! The books of the kitchen over all runs of calls side by side. -/
namespace Pggat.Kitchen
open Pggat.Base Finset

def Dial.conn : Dial → Option Conn
  | connected conn | ready conn => some conn
  | starting | failed => none

namespace Thread

/-- The slots that a call has allocated and for which no connection is in the kitchen. -/
def slots : Thread → RecipeId → Nat
  | learning _ r left added _ | freeing _ r left added => Pi.single r (left + added.length)
  | cooking _ _ _ _ r _ => Pi.single r 1
  | idle | scoring .. | tasted .. | done .. => 0

/-- The connections that a call has opened and not given to anyone. -/
def holds : Thread → List Conn
  | learning _ _ _ added socket => added ++ socket.toList
  | freeing _ _ _ added => added
  | scoring _ _ _ dial | cooking _ _ _ _ _ dial => dial.conn.toList
  | idle | tasted .. | done .. => []

/-- The recipe that a `Learn` will put into the kitchen. -/
def learns : Thread → Option RecipeId
  | learning _ r _ _ _ | freeing _ r _ _ => some r
  | _ => none

def recipe : Thread → Option RecipeId
  | learning _ r _ _ _ | freeing _ r _ _ | scoring _ _ r _ | tasted _ _ r _ | cooking _ _ _ _ r _ => some r
  | idle | done .. => none

theorem slots_of_scores {s : Chef} {th : Thread} {known : List RecipeId} (h : th.scores s = some known) :
    th.slots = 0 := by
  unfold scores at h
  split at h <;> first | rfl | cases h

theorem connect_of_dials {th : Thread} {r : RecipeId} (h : th.dials = some r) (c : Conn) :
    (th.connect c).slots = th.slots ∧ (th.connect c).holds = th.holds ++ [c] ∧ (th.connect c).learns = th.learns := by
  obtain ⟨_,_,_,rfl⟩ | ⟨_,_,rfl⟩ | ⟨_,_,_,_,rfl⟩ := dials_some h <;>
    exact ⟨rfl,by simp [connect,holds,Dial.conn],rfl⟩

theorem refuse_of_dials {th : Thread} {r : RecipeId} (h : th.dials = some r) :
    th.refuse.slots = th.slots ∧ th.refuse.holds.Sublist th.holds ∧ th.refuse.learns = th.learns := by
  obtain ⟨_,_,_,rfl⟩ | ⟨_,_,rfl⟩ | ⟨_,_,_,_,rfl⟩ := dials_some h <;>
    exact ⟨rfl,by simp [refuse,holds,Dial.conn],rfl⟩

theorem slots_of_accept {th th' : Thread} {ok : Bool} (h : th.accept ok = some th') : th'.slots = th.slots := by
  obtain ⟨name,r,left,added,conn,rfl,rfl⟩ | ⟨_,_,_,_,rfl,rfl⟩ | ⟨_,_,_,_,_,_,rfl,rfl⟩ := accept_some h
  · cases ok
    · rfl
    · simp only [slots,if_true,List.length_append,List.length_singleton]
      exact congrArg _ (by omega)
  · rfl
  · rfl

theorem holds_of_accept {th th' : Thread} {ok : Bool} (h : th.accept ok = some th') : th'.holds.Sublist th.holds := by
  obtain ⟨_,_,_,_,_,rfl,rfl⟩ | ⟨_,_,_,_,rfl,rfl⟩ | ⟨_,_,_,_,_,_,rfl,rfl⟩ := accept_some h <;>
    cases ok <;> simp [holds,Dial.conn]

theorem learns_of_accept {th th' : Thread} {ok : Bool} (h : th.accept ok = some th') : th'.learns = th.learns := by
  obtain ⟨_,_,_,_,_,rfl,rfl⟩ | ⟨_,_,_,_,rfl,rfl⟩ | ⟨_,_,_,_,_,_,rfl,rfl⟩ := accept_some h <;>
    cases ok <;> rfl

theorem enters_some {th : Thread} {name : GoString} {r : RecipeId} {added : List Conn}
    (h : th.enters = some (name,r,added)) :
    th.slots = Pi.single r added.length ∧ added.Sublist th.holds ∧ th.learns = some r := by
  unfold enters at h
  split at h <;> cases h
  · exact ⟨by simp [slots],by simp [holds],rfl⟩
  · exact ⟨by simp [slots],by simp [holds],rfl⟩

end Thread

namespace System

def slots (s : System) : RecipeId → Nat := ∑ t ∈ range s.started, (s.threads t).slots

/-- The slots of the other calls. -/
def others (s : System) (t : Nat) : RecipeId → Nat := ∑ i ∈ (range s.started).erase t, (s.threads i).slots

theorem slots_eq {s : System} {t : Nat} (ht : t < s.started) : s.slots = s.others t + (s.threads t).slots :=
  (sum_erase_add _ _ (mem_range.mpr ht)).symm

theorem slots_goto {s : System} {t : Nat} (ht : t < s.started) (chef : Chef) (th : Thread) :
    ({ s with toChef := chef }.goto t th).slots = s.others t + th.slots := by
  have rest : ({ s with toChef := chef }.goto t th).others t = s.others t :=
    sum_congr rfl fun i hi => by simp [goto,ne_of_mem_erase hi]
  have whole : ({ s with toChef := chef }.goto t th).slots =
      ({ s with toChef := chef }.goto t th).others t + (({ s with toChef := chef }.goto t th).threads t).slots :=
    slots_eq ht
  rw [whole,rest]
  simp [goto]

theorem slots_spawn (s : System) (chef : Chef) (th : Thread) :
    ({ s with toChef := chef }.spawn th).slots = s.slots + th.slots := by
  have rest : ∑ t ∈ range s.started, (Function.update s.threads s.started th t).slots = s.slots :=
    sum_congr rfl fun i hi => by simp [(mem_range.mp hi).ne]
  simp [slots,spawn,sum_range_succ,rest]

end System

/-- What holds for what a call has in its hands. -/
structure Holder (s : Chef) (th : Thread) : Prop where
  holds : ∀ c ∈ th.holds, c < s.dialed ∧ s.byConn.get c = none
  nodup : th.holds.Nodup
  learns : ∀ r, th.learns = some r → r < s.made

namespace Holder
variable {s s' : Chef} {th th' : Thread}

theorem idle (s : Chef) : Holder s .idle := ⟨nofun,.nil,nofun⟩

private theorem sub (h : Holder s th) (holds : th'.holds.Sublist th.holds) (learns : th'.learns = th.learns) :
    Holder s th' where
  holds c hc := h.holds c (holds.subset hc)
  nodup := holds.nodup h.nodup
  learns r hr := h.learns r (learns ▸ hr)

theorem chef (h : Holder s th) (dialed : s.dialed ≤ s'.dialed) (made : s.made ≤ s'.made)
    (byConn : ∀ c r, s'.byConn.get c = some r → s.byConn.get c = some r ∨ c ∉ th.holds) : Holder s' th where
  holds c hc := by
    refine ⟨(h.holds c hc).1.trans_le dialed,Option.eq_none_iff_forall_ne_some.mpr fun r hr => ?_⟩
    rcases byConn c r hr with hr | hn
    · simp [(h.holds c hc).2] at hr
    · exact hn hc
  nodup := h.nodup
  learns r hr := (h.learns r hr).trans_le made

end Holder

/-- What a step of a call leaves to the others. -/
structure Fits (s : Chef) (th th' : Thread) (chef : Chef) : Prop where
  holder : Holder chef th'
  dialed : s.dialed ≤ chef.dialed
  made : s.made ≤ chef.made
  holds : ∀ c ∈ th'.holds, c ∈ th.holds ∨ s.dialed ≤ c
  byConn : ∀ c r, chef.byConn.get c = some r → s.byConn.get c = some r ∨ c ∈ th.holds

private theorem Fits.same {s chef : Chef} {th th' : Thread} (h : Holder s th) (holds : th'.holds.Sublist th.holds)
    (learns : th'.learns = th.learns) (dialed : chef.dialed = s.dialed) (made : chef.made = s.made)
    (byConn : chef.byConn = s.byConn) : Fits s th th' chef where
  holder := (h.sub holds learns).chef dialed.ge made.ge fun _ _ hr => .inl (byConn ▸ hr)
  dialed := dialed.ge
  made := made.ge
  holds _ hc := .inl (holds.subset hc)
  byConn _ _ hr := .inl (byConn ▸ hr)

private theorem Fits.release {s chef : Chef} {th th' : Thread} (holds : th'.holds = []) (learns : th'.learns = none)
    (dialed : chef.dialed = s.dialed) (made : chef.made = s.made)
    (byConn : ∀ c r, chef.byConn.get c = some r → s.byConn.get c = some r ∨ c ∈ th.holds) : Fits s th th' chef where
  holder := ⟨by simp [holds],by simp [holds],by simp [learns]⟩
  dialed := dialed.ge
  made := made.ge
  holds := by simp [holds]
  byConn := byConn

section
variable {critics : Bool} {s s' : Chef} {e : Event} {th th' : Thread} {known tried : List RecipeId} {slice : Slice}
  {i : Nat}

theorem Looks.same (h : Looks s e th known tried slice i s') :
    s'.dialed = s.dialed ∧ s'.made = s.made ∧ s'.byConn = s.byConn := by
  cases h <;> exact ⟨rfl,rfl,rfl⟩

theorem Looks.balanced (h : Looks s e th known tried slice i s') {others : RecipeId → Nat}
    (balanced : s.Balanced (others + th.slots)) : s'.Balanced others := by
  cases h with
  | @sorted _ _ _ _ score hth _ hl =>
    rw [Thread.slots_of_scores hth,add_zero] at balanced
    have scored : Chef.Balanced { s with score := score } others :=
      balanced.frame rfl rfl rfl rfl balanced.cells
    exact scored.arrange hl
  | next => exact Chef.Balanced.free balanced

theorem Moves.fits (h : Moves critics s e th th' s') (hth : Holder s th)
    (known : ∀ c r, s.byConn.get c = some r → c < s.dialed) : Fits s th th' s' := by
  cases h with
  | learn hr =>
    refine ⟨⟨nofun,.nil,?_⟩,Nat.le_refl _,Nat.le_succ _,nofun,fun _ _ hr => .inl hr⟩
    rintro r ⟨⟩
    exact Nat.lt_succ_self _
  | connect hr =>
    obtain ⟨-,holds,learns⟩ := Thread.connect_of_dials hr s.dialed
    have fresh : s.dialed ∉ th.holds := fun hc => absurd (hth.holds _ hc).1 (lt_irrefl _)
    refine ⟨⟨fun c hc => ?_,?_,fun r hr => hth.learns r (learns ▸ hr)⟩,Nat.le_succ _,Nat.le_refl _,fun c hc => ?_,
      fun _ _ hr => .inl hr⟩
    · rw [holds,List.mem_append,List.mem_singleton] at hc
      rcases hc with hc | rfl
      · exact ⟨Nat.lt_succ_of_lt (hth.holds c hc).1,(hth.holds c hc).2⟩
      · refine ⟨Nat.lt_succ_self _,Option.eq_none_iff_forall_ne_some.mpr fun r hr => ?_⟩
        exact absurd (known _ r hr) (lt_irrefl _)
    · rw [holds,← List.concat_eq_append]
      exact hth.nodup.concat fresh
    · rw [holds,List.mem_append,List.mem_singleton] at hc
      exact hc.imp id ge_of_eq
  | refuse hr =>
    obtain ⟨-,holds,learns⟩ := Thread.refuse_of_dials hr
    exact .same hth holds learns rfl rfl rfl
  | accept ha => exact .same hth (Thread.holds_of_accept ha) (Thread.learns_of_accept ha) rfl rfl rfl
  | free => exact .same hth (.refl _) rfl rfl rfl rfl
  | @enter _ spare _ name r added hr =>
    obtain ⟨-,holds,-⟩ := Thread.enters_some hr
    have forgot := s.forget_dropped name
    have learned := (s.learn_learned name r added spare).inserted
    refine .release rfl rfl (learned.dialed.trans forgot.dialed) (learned.made.trans forgot.made) fun c r' hc => ?_
    rw [learned.byConn] at hc
    split at hc
    · rename_i hm
      exact .inr (holds.subset hm)
    · exact .inl (Chef.forget_sub hc)
  | @forget name =>
    have forgot := s.forget_dropped name
    exact .release rfl rfl forgot.dialed forgot.made fun _ _ hc => .inl (Chef.forget_sub hc)
  | score => exact .release rfl rfl rfl rfl fun _ _ hc => .inl hc
  | taste => exact .release rfl rfl rfl rfl fun _ _ hc => .inl hc
  | noRecipes h none =>
    obtain ⟨dialed,made,byConn⟩ := h.same
    exact .release rfl rfl dialed made fun _ _ hc => .inl (byConn ▸ hc)
  | dial h some =>
    obtain ⟨dialed,made,byConn⟩ := h.same
    exact .release rfl rfl dialed made fun _ _ hc => .inl (byConn ▸ hc)
  | @cooked _ _ _ _ _ r conn =>
    refine .release rfl rfl rfl rfl fun c r' hc => ?_
    simp only [Chef.insert,Map.get_insert] at hc
    split at hc
    · rename_i e
      exact .inr (by simp [e,Thread.holds,Dial.conn])
    · exact .inl hc
  | failed => exact .release rfl rfl rfl rfl fun _ _ hc => .inl hc

theorem Moves.balanced (h : Moves critics s e th th' s') (hth : Holder s th) {others : RecipeId → Nat}
    (balanced : s.Balanced (others + th.slots)) : s'.Balanced (others + th'.slots) := by
  cases h with
  | learn hr =>
    exact balanced.newRecipe (Recipe.allocateInitial_count (by rw [hr])) (Recipe.Within.allocateInitial (by rw [hr]))
  | connect hr =>
    rw [(Thread.connect_of_dials hr s.dialed).1]
    exact balanced.frame rfl rfl rfl rfl balanced.cells
  | refuse hr => exact (Thread.refuse_of_dials hr).1 ▸ balanced
  | accept ha => exact Thread.slots_of_accept ha ▸ balanced
  | free =>
    rw [Thread.slots,Nat.add_right_comm,add_single_succ] at balanced
    exact Chef.Balanced.free balanced
  | enter hr =>
    obtain ⟨slots,holds,learns⟩ := Thread.enters_some hr
    rw [slots] at balanced
    exact balanced.learn (holds.nodup hth.nodup) (fun c hc => (hth.holds c (holds.subset hc)).2) (hth.learns _ learns) ..
  | forget => exact balanced.forget _
  | score h =>
    rw [Thread.slots_of_scores h] at balanced
    exact balanced.frame rfl rfl rfl rfl balanced.cells
  | taste => exact balanced.frame rfl rfl rfl rfl balanced.cells
  | noRecipes h none => exact h.balanced balanced
  | dial h some =>
    have made := (h.balanced balanced).cells _ _ (Chef.candidate_mem some)
    exact (h.balanced balanced).allocate (Chef.candidate_some some).2.2 made
  | cooked => exact balanced.insert (hth.holds _ (by simp [Thread.holds,Dial.conn])).2
  | failed => exact Chef.Balanced.free balanced

end

namespace System

/-- The books are in order, and no connection is in two places. -/
structure Accounted (s : System) : Prop where
  balanced : s.Balanced s.slots
  quiet : ∀ t, s.started ≤ t → s.threads t = .idle
  holder : ∀ t, Holder s.toChef (s.threads t)
  apart : ∀ t t' c, c ∈ (s.threads t).holds → c ∈ (s.threads t').holds → t = t'
  known : ∀ c r, s.byConn.get c = some r → c < s.dialed

namespace Accounted
variable {s : System}

theorem initial : Accounted {} where
  balanced := Chef.Balanced.initial
  quiet _ _ := rfl
  holder _ := Holder.idle _
  apart _ _ _ h := nomatch h
  known _ _ h := nomatch h

theorem lt_started (h : Accounted s) {t : Nat} (ht : s.threads t ≠ .idle) : t < s.started := by
  by_contra hs
  exact ht (h.quiet t (Nat.not_lt.mp hs))

private theorem move (h : Accounted s) {t n : Nat} {th : Thread} {chef : Chef}
    (fits : Fits s.toChef (s.threads t) th chef)
    (balanced : chef.Balanced (System.slots ⟨chef,Function.update s.threads t th,n⟩))
    (quiet : ∀ i, n ≤ i → i ≠ t ∧ s.started ≤ i) : Accounted ⟨chef,Function.update s.threads t th,n⟩ := by
  have mine (i : Nat) (c : Conn) (hc : c ∈ (Function.update s.threads t th i).holds) :
      c ∈ (s.threads i).holds ∨ i = t ∧ s.dialed ≤ c := by
    rcases eq_or_ne i t with rfl | ne
    · exact (fits.holds c (by simpa using hc)).imp id fun hd => ⟨rfl,hd⟩
    · exact .inl (by simpa [ne] using hc)
  refine ⟨balanced,fun i hi => ?_,fun i => ?_,fun i j c hi hj => ?_,fun c r hr => ?_⟩
  · obtain ⟨ne,hs⟩ := quiet i hi
    exact (Function.update_of_ne ne ..).trans (h.quiet i hs)
  · rcases eq_or_ne i t with rfl | ne
    · simpa using fits.holder
    · simp only [Function.update_of_ne ne]
      refine (h.holder i).chef fits.dialed fits.made fun c r hr => (fits.byConn c r hr).imp id fun ht hi => ?_
      exact ne (h.apart i t c hi ht)
  · rcases mine i c hi with hi | ⟨hi,new⟩ <;> rcases mine j c hj with hj | ⟨hj,new'⟩
    · exact h.apart i j c hi hj
    · exact absurd ((h.holder i).holds c hi).1 (Nat.not_lt.mpr new')
    · exact absurd ((h.holder j).holds c hj).1 (Nat.not_lt.mpr new)
    · exact hi.trans hj.symm
  · refine Nat.lt_of_lt_of_le ?_ fits.dialed
    rcases fits.byConn c r hr with hr | hc
    · exact h.known c r hr
    · exact ((h.holder t).holds c hc).1

private theorem chef (h : Accounted s) {chef : Chef} {gone : List Conn} {s₀ : Chef} (balanced : chef.Balanced s.slots)
    (dropped : s₀.Dropped chef gone) (dialed : s₀.dialed = s.dialed) (made : s₀.made = s.made)
    (byConn : s₀.byConn = s.byConn) : Accounted { s with toChef := chef } := by
  have old (c : Conn) (r : RecipeId) (hr : chef.byConn.get c = some r) : s.byConn.get c = some r :=
    byConn ▸ (dropped.get_eq_some.mp hr).1
  have dialed : chef.dialed = s.dialed := dropped.dialed.trans dialed
  refine ⟨balanced,h.quiet,fun t => ?_,h.apart,fun c r hr => dialed ▸ h.known c r (old c r hr)⟩
  exact (h.holder t).chef dialed.ge (dropped.made.trans made).ge fun c r hr => .inl (old c r hr)

theorem step (h : Accounted s) {critics : Bool} {e : Event} {s' : System} (hs : s.step critics e = some s') :
    Accounted s' := by
  cases step_stepped hs with
  | @call t th chef _ busy moves =>
    have lt := h.lt_started busy
    refine h.move (moves.fits (h.holder t) h.known) ?_ fun i hi => ⟨Nat.ne_of_gt (lt.trans_le hi),hi⟩
    exact (slots_goto lt chef th).symm ▸ moves.balanced (h.holder t) (slots_eq lt ▸ h.balanced)
  | @new th chef _ moves =>
    have idle : s.threads s.started = .idle := h.quiet _ (Nat.le_refl _)
    refine h.move (idle.symm ▸ moves.fits (.idle _) h.known) ?_ fun i hi => ⟨Nat.ne_of_gt hi,Nat.le_of_succ_le hi⟩
    exact (slots_spawn s chef th).symm ▸ moves.balanced (.idle _) h.balanced
  | burn => exact h.chef (h.balanced.burn _) (Chef.burn_dropped ..) rfl rfl rfl
  | ignite => exact h.chef (h.balanced.ignite _) (Chef.ignite_dropped ..) rfl rfl rfl
  | close => exact h.chef h.balanced.close (Chef.close_dropped ..) rfl rfl rfl
  | sever =>
    exact ⟨h.balanced.frame rfl rfl rfl rfl h.balanced.cells,h.quiet,
      fun t => (h.holder t).chef (Nat.le_refl _) (Nat.le_refl _) fun _ _ => .inl,h.apart,h.known⟩

private theorem reachable {critics : Bool} (h : Reachable {} (fun _ _ => True) (System.step critics) s) : Accounted s :=
  h.invariant initial fun _ _ _ h _ hs => h.step hs

end Accounted

/-- `Ignite` frees a slot only where the count stays at the minimum or above it. -/
theorem ignite_count (s : Chef) (conn : Conn) (r : RecipeId) :
    ((s.ignite conn).2.recipes r).count = (s.recipes r).count ∨
      (s.recipes r).minConnections ≤ ((s.ignite conn).2.recipes r).count := by
  cases hc : s.byConn.get conn with
  | none => exact .inl (by rw [Chef.ignite,hc])
  | some r' =>
    cases ht : (s.recipes r').tryFree with
    | none => exact .inl (by simp [Chef.ignite,hc,ht])
    | some recipe =>
      have freed : (s.ignite conn).2.recipes = Function.update s.recipes r' (s.recipes r').free := by
        simp only [Chef.ignite,hc,ht]; rfl
      rcases eq_or_ne r r' with rfl | ne
      · have above : (s.recipes r).minConnections < (s.recipes r).count := by
          by_contra le
          simp [Recipe.tryFree,not_lt.mp le] at ht
        refine .inr ?_
        rw [freed,Function.update_self]
        exact Int.le_sub_one_of_lt above
      · exact .inl (by rw [freed,Function.update_of_ne ne])

/-- Kitchen accounting: the count of a recipe is the number of its connections in the kitchen and of the slots that
calls have allocated, the two maps of the chef agree, and the count is within its limits. -/
theorem kitchen_accounts {critics : Bool} {s : System} (h : Reachable {} (fun _ _ => True) (step critics) s) :
    (∀ r, (s.conns r).Nodup ∧ (s.recipes r).count = (s.conns r).length + s.slots r) ∧
    (∀ c r, s.byConn.get c = some r ↔ c ∈ s.conns r) ∧
    (∀ r, 0 ≤ (s.recipes r).count) ∧
    (∀ r, (s.recipes r).maxConnections ≠ 0 →
      (s.recipes r).count ≤ max 0 (max (s.recipes r).minConnections (s.recipes r).maxConnections)) ∧
    ∀ conn r, ((s.ignite conn).2.recipes r).count = (s.recipes r).count ∨
      (s.recipes r).minConnections ≤ ((s.ignite conn).2.recipes r).count := by
  have books := (Accounted.reachable h).balanced
  refine ⟨fun r => ⟨books.nodup r,books.count r⟩,books.known,fun r => ?_,books.within,ignite_count s.toChef⟩
  have count := books.count r
  omega

/-- Two recipes with a connection each, and a `Cook` that dials the first. -/
def oneDialed : List Event :=
  [.learn [97] 0 1 2, .connect 0, .accept 0 true, .enter 0 0, .learn [98] 0 1 1, .connect 1, .accept 1 true, .enter 1 0,
    .cook (.sort [0, 1])]

theorem kitchen_accounts_dialed : ∃ s : System, Reachable {} (fun _ _ => True) (step false) s ∧
    s.conns 0 = [0] ∧ s.conns 1 = [1] ∧ s.slots 0 = 1 ∧ (s.recipes 0).count = (s.conns 0).length + s.slots 0 ∧
    s.byConn.get 1 = some 1 ∧ s.byConn.get 0 ≠ some 1 ∧ (s.recipes 1).count ≤ max 0 (max 1 1) := by
  have h := Reachable.of_run .start (fun _ _ => id) oneDialed
    (show run (fun _ _ => True) (step false) ({} : System) oneDialed = some _ from rfl)
  obtain ⟨hcount,hknown,_,hlimit,_⟩ := kitchen_accounts h
  exact ⟨_,h,rfl,rfl,rfl,(hcount 0).2,(hknown 1 1).mpr (by decide),mt (hknown 0 1).mp (by decide),
    hlimit 1 (by decide)⟩

/-- With both limits below zero a recipe without any connection is above them. -/
theorem negative_limits : ∃ s : System, Reachable {} (fun _ _ => True) (step false) s ∧
    s.byName.get [97] = some 0 ∧ (s.recipes 0).maxConnections ≠ 0 ∧ s.conns 0 = [] ∧
    ¬ (s.recipes 0).count ≤ max (s.recipes 0).minConnections (s.recipes 0).maxConnections :=
  ⟨_,Reachable.of_run .start (fun _ _ => id) [.learn [97] 0 (-1) (-1), .enter 0 0] rfl,rfl,by decide,rfl,by decide⟩

end System
end Pggat.Kitchen
