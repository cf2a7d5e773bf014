import Pggat.Kitchen.Accounting
import Pggat.Kitchen.Menu

/-! What a call takes for learned still is, as long as nobody else disturbs it: the part of one call. -/
namespace Pggat.Kitchen
open Pggat.Base

/-- `Cook` goes from scoring to its loop. -/
def Event.sorts : Event → Bool
  | .cook (.sort _) | .scored _ (.sort _) => true
  | _ => false

theorem Event.sorts_of_going {e : Event} {l : List RecipeId} (h : e.going = some (.sort l)) : e.sorts := by
  unfold going at h
  split at h <;> cases h <;> rfl

namespace Thread

def known : Thread → List RecipeId
  | scoring known _ _ _ | tasted known _ _ _ | cooking known _ _ _ _ _ | done known _ _ => known
  | idle | learning .. | freeing .. => []

/-- A `Cook` that has left the mutex for a dial of its loop. -/
def cooks : Thread → Bool
  | cooking .. => true
  | _ => false

/-- A `Cook` that has left the mutex for a dial of its loop, or to score a recipe that it has not dialed yet. -/
def away : Thread → Bool
  | cooking .. | scoring _ _ _ .starting => true
  | _ => false

variable {th : Thread} {r : RecipeId}

theorem away_of_cooks (h : th.cooks) : th.away := by
  unfold cooks at h
  split at h
  · rfl
  · cases h

theorem mem_of_scores {s : Chef} {known : List RecipeId} (h : th.scores s = some known)
    (hr : r ∈ known) : r ∈ th.known ∨ r ∈ s.learned := by
  unfold scores at h
  split at h <;> cases h
  · exact .inr hr
  · exact .inl hr
  · exact .inl hr

theorem known_connect (h : th.dials = some r) (c : Conn) :
    (th.connect c).known = th.known := by
  obtain ⟨_,_,_,rfl⟩ | ⟨_,_,rfl⟩ | ⟨_,_,_,_,rfl⟩ := dials_some h <;> rfl

theorem known_refuse (h : th.dials = some r) : th.refuse.known = th.known := by
  obtain ⟨_,_,_,rfl⟩ | ⟨_,_,rfl⟩ | ⟨_,_,_,_,rfl⟩ := dials_some h <;> rfl

theorem known_accept {th th' : Thread} {ok : Bool} (h : th.accept ok = some th') : th'.known = th.known := by
  obtain ⟨_,_,_,_,_,rfl,rfl⟩ | ⟨_,_,_,_,rfl,rfl⟩ | ⟨_,_,_,_,_,_,rfl,rfl⟩ := accept_some h <;> cases ok <;> rfl

theorem recipe_connect (h : th.dials = some r) (c : Conn) :
    (th.connect c).recipe = th.recipe ∧ th.recipe = some r := by
  obtain ⟨_,_,_,rfl⟩ | ⟨_,_,rfl⟩ | ⟨_,_,_,_,rfl⟩ := dials_some h <;> exact ⟨rfl,rfl⟩

theorem recipe_refuse (h : th.dials = some r) : th.refuse.recipe = th.recipe := by
  obtain ⟨_,_,_,rfl⟩ | ⟨_,_,rfl⟩ | ⟨_,_,_,_,rfl⟩ := dials_some h <;> rfl

theorem recipe_accept {th th' : Thread} {ok : Bool} (h : th.accept ok = some th') : th'.recipe = th.recipe := by
  obtain ⟨_,_,_,_,_,rfl,rfl⟩ | ⟨_,_,_,_,rfl,rfl⟩ | ⟨_,_,_,_,_,_,rfl,rfl⟩ := accept_some h <;> cases ok <;> rfl

theorem recipe_of_learns (h : th.learns = some r) : th.recipe = some r := by
  unfold learns at h
  split at h <;> first | exact h | cases h

/-- The loop of a `Cook` is at an index of its slice: it has tried all up to there, and what it was to try is there. -/
structure Looking (s : Chef) (known tried : List RecipeId) (slice : Slice) (i : Nat) (r : RecipeId) : Prop where
  captured : s.Captured slice
  here : (s.arrays.read slice)[i]? = some r
  tried : tried = (s.arrays.read slice).take (i + 1)
  learned : ∀ r ∈ s.arrays.read slice, r ∈ s.learned
  known : ∀ r ∈ known, r ∈ s.learned → r ∈ s.arrays.read slice

/-- What a `Cook` is at is still learned, and it leaves nothing out. -/
def Honest (s : Chef) : Thread → Prop
  | scoring _ _ r .starting => r ∈ s.learned
  | cooking known tried slice i r _ => Looking s known tried slice i r
  | done known tried .noRecipes => ∀ r ∈ known, r ∈ s.learned → r ∈ tried
  | _ => True

variable {s s' : Chef}

theorem Looking.mem {known tried : List RecipeId} {slice : Slice} {i : Nat}
    (h : Looking s known tried slice i r) : r ∈ s.learned := h.learned r (List.mem_of_getElem? h.here)

theorem Looking.stays {known tried : List RecipeId} {slice : Slice} {i : Nat}
    (h : Looking s known tried slice i r) (hs : s.Stays s')
    (old : ∀ r ∈ known, r ∈ s'.learned → r ∈ s.learned) : Looking s' known tried slice i r := by
  obtain ⟨captured,read⟩ := hs.captured slice h.captured
  refine ⟨captured,read.symm ▸ h.here,read.symm ▸ h.tried,?_,?_⟩
  · exact read.symm ▸ fun r hr => hs.learned r (h.learned r hr)
  · exact read.symm ▸ fun r hk hr => h.known r hk (old r hk hr)

theorem Honest.stays (h : th.Honest s) (old : ∀ r ∈ th.known, r ∈ s'.learned → r ∈ s.learned)
    (away : th.away → ∀ r ∈ s.learned, r ∈ s'.learned) (cooks : th.cooks → s.Stays s') : th.Honest s' := by
  unfold Honest at h ⊢
  split
  · exact away rfl _ h
  · exact Looking.stays h (cooks rfl) old
  · exact fun r hk hr => h r hk (old r hk hr)
  · trivial

theorem Honest.shares (h : th.Honest s) (hs : s.Shares s') : th.Honest s' :=
  h.stays (fun _ _ hr => hs.learned ▸ hr) (fun _ => hs.stays.learned) fun _ => hs.stays

theorem Honest.connect (h : th.Honest s) (hd : th.dials = some r) (c : Conn) :
    (th.connect c).Honest s := by
  obtain ⟨_,_,_,rfl⟩ | ⟨_,_,rfl⟩ | ⟨_,_,_,_,rfl⟩ := dials_some hd
  · trivial
  · trivial
  · exact h

theorem Honest.refuse (h : th.Honest s) (hd : th.dials = some r) : th.refuse.Honest s := by
  obtain ⟨_,_,_,rfl⟩ | ⟨_,_,rfl⟩ | ⟨_,_,_,_,rfl⟩ := dials_some hd
  · trivial
  · trivial
  · exact h

theorem Honest.accept {th' : Thread} {ok : Bool} (h : th.Honest s) (ha : th.accept ok = some th') : th'.Honest s := by
  obtain ⟨_,_,_,_,_,rfl,rfl⟩ | ⟨_,_,_,_,rfl,rfl⟩ | ⟨_,_,_,_,_,_,rfl,rfl⟩ := accept_some ha
  · cases ok <;> trivial
  · cases ok <;> trivial
  · exact h

end Thread

section
variable {critics : Bool} {s s' : Chef} {e : Event} {th th' : Thread} {r : RecipeId} {known tried : List RecipeId}
  {slice : Slice}
  {i : Nat}

/-- What the loop of a `Cook` goes on with. -/
structure Sought (s : Chef) (known tried : List RecipeId) (slice : Slice) (i : Nat) : Prop where
  captured : s.Captured slice
  tried : tried = (s.arrays.read slice).take i
  learned : ∀ r ∈ s.arrays.read slice, r ∈ s.learned
  known : ∀ r ∈ known, r ∈ s.learned → r ∈ s.arrays.read slice

theorem Looks.sought (h : Looks s e th known tried slice i s') (listed : s.Listed) (honest : th.Honest s) :
    Sought s' known tried slice i := by
  cases h with
  | @sorted _ _ _ l score _ _ hl =>
    have scored : Chef.Listed { s with score := score } := listed.shares ⟨rfl,rfl,rfl⟩
    have arranged := scored.arrange hl
    exact ⟨arranged.captured,by simp,fun r hr => (arranged.listed r).mp hr,fun r _ hr => (arranged.listed r).mpr hr⟩
  | @next _ _ _ _ _ r =>
    have shares : s.Shares (s.free r) := ⟨rfl,rfl,rfl⟩
    have looking := Thread.Looking.stays honest shares.stays fun _ _ => id
    exact ⟨looking.captured,looking.tried,looking.learned,looking.known⟩

theorem Sought.none (h : Sought s known tried slice i) (none : s.candidate slice i = none) :
    ∀ r ∈ known, r ∈ s.learned → r ∈ tried ++ s.tries slice i := by
  intro r hk hr
  rw [h.tried,Chef.tries,none]
  exact (List.take_append_drop i _).symm ▸ h.known r hk hr

theorem Sought.some (h : Sought s known tried slice i) {j : Nat}
    (some : s.candidate slice i = some (r,j)) :
    Thread.Looking s known (tried ++ s.tries slice i) slice j r := by
  obtain ⟨le,here,-⟩ := Chef.candidate_some some
  refine ⟨h.captured,here,?_,h.learned,h.known⟩
  have before : (s.arrays.read slice).take i = ((s.arrays.read slice).take (j + 1)).take i := by
    rw [List.take_take,Nat.min_eq_left (Nat.le_succ_of_le le)]
  rw [h.tried,Chef.tries,some,before]
  exact List.take_append_drop ..

theorem Moves.menu (h : Moves critics s e th th' s') :
    s.Shares s' ∨
    (∃ l score, e.sorts ∧ Chef.Arranges { s with score := score } l ∧
      Chef.Shares (Chef.arrange { s with score := score } l) s') ∨
    (∃ name, e = .forget name ∧ s' = (s.forget name).2) ∨
    ∃ t spare name r added, e = .enter t spare ∧ th.enters = some (name,r,added) ∧ th'.learns = none ∧
      s' = (s.learn name r added spare).2 := by
  cases h with
  | enter he => exact .inr (.inr (.inr ⟨_,_,_,_,_,rfl,he,rfl,rfl⟩))
  | forget => exact .inr (.inr (.inl ⟨_,rfl,rfl⟩))
  | noRecipes h none =>
    cases h with
    | sorted _ he hl => exact .inr (.inl ⟨_,_,Event.sorts_of_going he,hl,⟨rfl,rfl,rfl⟩⟩)
    | next => exact .inl ⟨rfl,rfl,rfl⟩
  | dial h some =>
    cases h with
    | sorted _ he hl => exact .inr (.inl ⟨_,_,Event.sorts_of_going he,hl,⟨rfl,rfl,rfl⟩⟩)
    | next => exact .inl ⟨rfl,rfl,rfl⟩
  | _ => exact .inl ⟨rfl,rfl,rfl⟩

theorem Moves.listed (h : Moves critics s e th th' s') (listed : s.Listed)
    (fresh : ∀ r, th.learns = some r → r ∉ s.learned) : s'.Listed := by
  rcases h.menu with shares | ⟨l,score,-,hl,shares⟩ | ⟨name,-,rfl⟩ | ⟨_,_,_,_,_,-,he,-,rfl⟩
  · exact listed.shares shares
  · have scored : Chef.Listed { s with score := score } := listed.shares ⟨rfl,rfl,rfl⟩
    exact (scored.arrange hl).shares shares
  · exact listed.forget name
  · exact listed.learn _ (fresh _ (Thread.enters_some he).2.2) ..

theorem Moves.learned (h : Moves critics s e th th' s') (listed : s.Listed) (hr : r ∈ s'.learned) :
    r ∈ s.learned ∨ th.learns = some r ∧ th'.learns = none := by
  rcases h.menu with shares | ⟨l,score,-,hl,shares⟩ | ⟨name,-,rfl⟩ | ⟨_,_,_,_,_,-,he,done,rfl⟩
  · exact .inl (shares.learned ▸ hr)
  · rw [shares.learned] at hr
    exact .inl hr
  · exact .inl ((listed.forget_learned name r).mp hr).1
  · rcases (listed.learn_learned ..).mp hr with rfl | ⟨hr,-⟩
    · exact .inr ⟨(Thread.enters_some he).2.2,done⟩
    · exact .inl hr

theorem Moves.learns (h : Moves critics s e th th' s') (hr : th'.learns = some r) :
    th.learns = some r ∨ r = s.made := by
  cases h with
  | learn => exact .inr (Option.some.inj hr).symm
  | connect hd => exact .inl ((Thread.connect_of_dials hd s.dialed).2.2 ▸ hr)
  | refuse hd => exact .inl ((Thread.refuse_of_dials hd).2.2 ▸ hr)
  | accept ha => exact .inl (Thread.learns_of_accept ha ▸ hr)
  | free => exact .inl hr
  | _ => cases hr

private theorem Looks.knows (h : Looks s e th known tried slice i s') (hr : r ∈ known) :
    r ∈ th.known ∨ r ∈ s.learned := by
  cases h with
  | sorted hth => exact Thread.mem_of_scores hth hr
  | next => exact .inl hr

theorem Moves.knows (h : Moves critics s e th th' s') (hr : r ∈ th'.known) :
    r ∈ th.known ∨ r ∈ s.learned := by
  cases h with
  | connect hd => exact .inl (Thread.known_connect hd s.dialed ▸ hr)
  | refuse hd => exact .inl (Thread.known_refuse hd ▸ hr)
  | accept ha => exact .inl (Thread.known_accept ha ▸ hr)
  | score hth => exact Thread.mem_of_scores hth hr
  | taste => exact .inl hr
  | noRecipes look => exact look.knows hr
  | dial look => exact look.knows hr
  | cooked => exact .inl hr
  | failed => exact .inl hr
  | _ => cases hr

theorem Moves.honest (h : Moves critics s e th th' s') (listed : s.Listed) (honest : th.Honest s) : th'.Honest s' := by
  cases h with
  | connect hd => exact (honest.connect hd _).shares ⟨rfl,rfl,rfl⟩
  | refuse hd => exact honest.refuse hd
  | accept ha => exact honest.accept ha
  | score _ _ hr => exact Chef.mem_learned.mpr ⟨_,hr⟩
  | noRecipes look none => exact (look.sought listed honest).none none
  | dial look some =>
    exact Thread.Looking.stays ((look.sought listed honest).some some) (Chef.Shares.stays ⟨rfl,rfl,rfl⟩) fun _ _ => id
  | _ => trivial

theorem Looks.origin (h : Looks s e th known tried slice i s') : s'.origin = s.origin := by
  cases h <;> rfl

theorem Looks.learned (h : Looks s e th known tried slice i s') : s'.learned = s.learned := by
  cases h <;> rfl

theorem Moves.origin (h : Moves critics s e th th' s') {c : Conn} (hc : c < s.dialed) : s'.origin c = s.origin c := by
  cases h with
  | connect => exact Function.update_of_ne hc.ne ..
  | enter =>
    exact congrFun ((s.learn_learned ..).inserted.origin.trans (s.forget_dropped _).origin) c
  | forget => exact congrFun (s.forget_dropped _).origin c
  | noRecipes look => exact congrFun look.origin c
  | dial look => exact congrFun look.origin c
  | _ => rfl

/-- What a call holds comes from the recipe that it is at. -/
def Traced (s : Chef) (th : Thread) : Prop := ∀ c ∈ th.holds, th.recipe = some (s.origin c)

theorem Moves.traced (h : Moves critics s e th th' s') (holder : Holder s th) (traced : Traced s th) : Traced s' th' := by
  have origin (c : Conn) (hc : c ∈ th.holds) : s'.origin c = s.origin c := h.origin (holder.holds c hc).1
  cases h with
  | connect hd =>
    intro c hc
    obtain ⟨same,recipe⟩ := Thread.recipe_connect hd s.dialed
    rw [(Thread.connect_of_dials hd s.dialed).2.1,List.mem_append,List.mem_singleton] at hc
    rw [same]
    rcases hc with hc | rfl
    · exact (origin c hc).symm ▸ traced c hc
    · simpa [Chef.connect] using recipe
  | refuse hd =>
    intro c hc
    rw [Thread.recipe_refuse hd]
    exact traced c ((Thread.refuse_of_dials hd).2.1.subset hc)
  | accept ha =>
    intro c hc
    rw [Thread.recipe_accept ha]
    exact traced c ((Thread.holds_of_accept ha).subset hc)
  | free => exact traced
  | _ => exact fun _ hc => nomatch hc

/-- What is in the kitchen comes from a recipe that is learned. -/
def Stocked (s : Chef) : Prop := ∀ c r, s.byConn.get c = some r → r ∈ s.learned ∧ s.origin c = r

private theorem Stocked.forget (h : Stocked s) (listed : s.Listed) {slots : RecipeId → Nat} (balanced : s.Balanced slots)
    (name : GoString) : Stocked (s.forget name).2 := by
  intro c r hr
  have dropped := s.forget_dropped name
  obtain ⟨old,stays⟩ := dropped.get_eq_some.mp hr
  obtain ⟨learned,origin⟩ := h c r old
  refine ⟨(listed.forget_learned name r).mpr ⟨learned,fun hn => stays ?_⟩,(congrFun dropped.origin c).trans origin⟩
  rw [Chef.forget_eq hn]
  exact (balanced.known c r).mp old

private theorem Looks.stocked (h : Looks s e th known tried slice i s') (stocked : Stocked s) : Stocked s' := by
  intro c r hc
  rw [h.same.2.2] at hc
  rw [h.learned,h.origin]
  exact stocked c r hc

theorem Moves.stocked (h : Moves critics s e th th' s') (listed : s.Listed) {slots : RecipeId → Nat}
    (balanced : s.Balanced slots) (lt : ∀ c r, s.byConn.get c = some r → c < s.dialed) (traced : Traced s th)
    (honest : th.Honest s) (stocked : Stocked s) : Stocked s' := by
  cases h with
  | connect =>
    intro c r hc
    obtain ⟨learned,origin⟩ := stocked c r hc
    exact ⟨learned,(Function.update_of_ne (lt c r hc).ne ..).trans origin⟩
  | @enter _ spare _ name r added he =>
    intro c r' hc
    have inserted := (s.learn_learned name r added spare).inserted
    obtain ⟨-,holds,learns⟩ := Thread.enters_some he
    have origin : (s.learn name r added spare).2.origin c = s.origin c :=
      congrFun (inserted.origin.trans (s.forget_dropped name).origin) c
    rw [inserted.byConn] at hc
    split at hc
    · rename_i ha
      cases hc
      refine ⟨(listed.learn_learned ..).mpr (.inl rfl),?_⟩
      have recipe := traced c (holds.subset ha)
      rw [Thread.recipe_of_learns learns] at recipe
      exact origin.trans (Option.some.inj recipe).symm
    · obtain ⟨learned,from'⟩ := stocked.forget listed balanced name c r' hc
      obtain ⟨learned,ne⟩ := (listed.forget_learned name r').mp learned
      exact ⟨(listed.learn_learned ..).mpr (.inr ⟨learned,ne⟩),
        origin.trans ((congrFun (s.forget_dropped name).origin c).symm.trans from')⟩
  | forget => exact stocked.forget listed balanced _
  | noRecipes look => exact look.stocked stocked
  | dial look => exact look.stocked stocked
  | @cooked _ _ _ _ _ r conn =>
    intro c r' hc
    have learned : r ∈ s.learned := Thread.Looking.mem honest
    simp only [Chef.insert,Map.get_insert] at hc
    split at hc
    · rename_i e
      cases hc
      exact ⟨learned,e ▸ (Option.some.inj (traced conn (List.mem_singleton_self conn))).symm⟩
    · exact stocked c r' hc
  | _ => exact stocked

end
end Pggat.Kitchen
