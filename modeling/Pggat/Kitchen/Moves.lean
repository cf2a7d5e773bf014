import Pggat.Kitchen.System

/-! What one step of the system does, as a relation with one case for each way a call can go on. -/
namespace Pggat.Kitchen
open Pggat.Base

/-- The call that takes a step, other than its first. -/
def Event.thread : Event → Option Nat
  | connect t | refuse t | accept t _ | free t | enter t _ | taste t _ | scored t _ | finish t => some t
  | learn .. | forget _ | cook _ | burn _ | ignite _ | close | sever _ => none

def Event.going : Event → Option Going
  | cook going | scored _ going => some going
  | _ => none

namespace Thread

/-- The name, the recipe and the connections of a `Learn` that has dialed and freed. -/
def enters : Thread → Option (GoString × RecipeId × List Conn)
  | learning name r 0 added _ | freeing name r 0 added => some (name,r,added)
  | _ => none

/-- The recipes that were learned when a `Cook` began that is between two recipes that it scores. -/
def scores (s : Chef) : Thread → Option (List RecipeId)
  | idle => some s.learned
  | scoring known _ _ .failed | tasted known _ _ _ => some known
  | _ => none

end Thread

/-- A call comes to the loop of `Cook`, or back to it from a dial that failed: what it knows and has tried, the slice,
where in it the loop goes on, and the chef. -/
inductive Looks (s : Chef) : Event → Thread → List RecipeId → List RecipeId → Slice → Nat → Chef → Prop
  | sorted {e th known l score} (hth : th.scores s = some known) (he : e.going = some (.sort l))
      (hl : Chef.Arranges { s with score := score } l) :
      Looks s e th known [] s.order 0 (Chef.arrange { s with score := score } l)
  | next {t known tried slice i r} (more : i + 1 ≠ s.order.len) :
      Looks s (.finish t) (.cooking known tried slice i r .failed) known tried slice (i + 1) (s.free r)

/-- A step of a call, from one point in it to another, and the chef after it. A new call comes from `idle`. -/
inductive Moves (critics : Bool) (s : Chef) : Event → Thread → Thread → Chef → Prop
  | learn {name priority minConnections maxConnections recipe}
      (hr : recipe = { priority, minConnections, maxConnections }) :
      Moves critics s (.learn name priority minConnections maxConnections) .idle
        (.learning name s.made (Recipe.allocateInitial recipe).1 [] none)
        { s.setRecipe s.made (Recipe.allocateInitial recipe).2 with made := s.made + 1 }
  | connect {t th r} (h : Thread.dials th = some r) :
      Moves critics s (.connect t) th (th.connect s.dialed) (s.connect r)
  | refuse {t th r} (h : Thread.dials th = some r) : Moves critics s (.refuse t) th th.refuse s
  | accept {t ok th th'} (h : Thread.accept ok th = some th') : Moves critics s (.accept t ok) th th' s
  | free {t name r left added} :
      Moves critics s (.free t) (.freeing name r (left + 1) added) (.freeing name r left added) (s.free r)
  | enter {t spare th name r added} (h : Thread.enters th = some (name,r,added)) :
      Moves critics s (.enter t spare) th (.done [] [] (.learned (s.learn name r added spare).1 added))
        (s.learn name r added spare).2
  | forget {name} :
      Moves critics s (.forget name) .idle (.done [] [] (.forgot (s.forget name).1)) (s.forget name).2
  | score {e th known visited name r score} (hth : Thread.scores s th = some known) (he : e.going = some (.score name))
      (hr : s.byName.get name = some r) (hc : critics = true) :
      Moves critics s e th (.scoring known visited r .starting) { s with score := score }
  | taste {t known visited r conn score} :
      Moves critics s (.taste t score) (.scoring known visited r (.ready conn)) (.tasted known visited r score)
        (s.shut conn)
  | noRecipes {e th known tried slice i s'} (h : Looks s e th known tried slice i s')
      (none : s'.candidate slice i = none) :
      Moves critics s e th (.done known (tried ++ s'.tries slice i) .noRecipes) s'
  | dial {e th known tried slice i s' r j} (h : Looks s e th known tried slice i s')
      (some : s'.candidate slice i = some (r,j)) :
      Moves critics s e th (.cooking known (tried ++ s'.tries slice i) slice j r .starting) (s'.allocate r)
  | cooked {t known tried slice i r conn} :
      Moves critics s (.finish t) (.cooking known tried slice i r (.ready conn)) (.done known tried (.cooked conn))
        (s.insert r conn)
  | failed {t known tried slice i r} (last : i + 1 = s.order.len) :
      Moves critics s (.finish t) (.cooking known tried slice i r .failed) (.done known tried .failed) (s.free r)

/-- What one step of the system does. -/
inductive Stepped (critics : Bool) (s : System) (e : Event) : System → Prop
  | call {t th chef} (ht : e.thread = some t) (busy : s.threads t ≠ .idle)
      (h : Moves critics s.toChef e (s.threads t) th chef) :
      Stepped critics s e ({ s with toChef := chef }.goto t th)
  | new {th chef} (ht : e.thread = none) (h : Moves critics s.toChef e .idle th chef) :
      Stepped critics s e ({ s with toChef := chef }.spawn th)
  | burn {conn} (he : e = .burn conn) : Stepped critics s e { s with toChef := s.toChef.burn conn }
  | ignite {conn} (he : e = .ignite conn) : Stepped critics s e { s with toChef := (s.toChef.ignite conn).2 }
  | close (he : e = .close) : Stepped critics s e { s with toChef := s.toChef.close }
  | sever {conn} (he : e = .sever conn) (old : conn < s.dialed) :
      Stepped critics s e { s with broken := insert conn s.broken }

namespace System
variable {critics : Bool} {s s' : System} {e : Event} {t : Nat}

/-- The call that takes a step; it is idle before its first. -/
def caller (s : System) (e : Event) : Thread := s.threads (e.thread.getD s.started)

variable {known tried : List RecipeId} {slice : Slice} {i : Nat}

theorem cookFrom_moves {chef : Chef} {th : Thread}
    (h : Looks s.toChef e th known tried slice i chef) :
    ∃ th' chef', Moves critics s.toChef e th th' chef' ∧
      { s with toChef := chef }.cookFrom t known tried slice i = { s with toChef := chef' }.goto t th' := by
  rw [cookFrom]
  dsimp only
  split
  · rename_i none
    exact ⟨_,_,.noRecipes h none,rfl⟩
  · rename_i some
    exact ⟨_,_,.dial h some,rfl⟩

private theorem goOn_moves {score : RecipeId → Int} (th : Thread) {visited : List RecipeId} {going : Going}
    (hth : th.scores s.toChef = some known) (he : e.going = some going)
    (hs : goOn critics { s with score := score } t known visited going = some s') :
    ∃ th' chef', Moves critics s.toChef e th th' chef' ∧ s' = { s with toChef := chef' }.goto t th' := by
  cases going with
  | score name =>
    rw [goOn] at hs
    split at hs
    · cases hs
    · rename_i r hr
      split at hs
      · rename_i hc
        cases hs
        exact ⟨_,_,.score hth he hr hc.1,rfl⟩
      · cases hs
  | sort l =>
    rw [goOn] at hs
    split at hs
    · rename_i hl
      cases hs
      exact cookFrom_moves (.sorted hth he hl)
    · cases hs

private theorem finish_moves {r : RecipeId} {dial : Dial}
    (hs : s.finish t known tried slice i r dial = some s') :
    ∃ th' chef', Moves critics s.toChef (.finish t) (.cooking known tried slice i r dial) th' chef' ∧
      s' = { s with toChef := chef' }.goto t th' := by
  cases dial with
  | starting => cases hs
  | connected conn => cases hs
  | ready conn =>
    cases hs
    exact ⟨_,_,.cooked,rfl⟩
  | failed =>
    rw [finish] at hs
    dsimp only at hs
    split at hs
    · rename_i last
      cases hs
      exact ⟨_,_,.failed last,rfl⟩
    · rename_i more
      cases hs
      exact cookFrom_moves (.next more)

theorem step_stepped (hs : s.step critics e = some s') : Stepped critics s e s' := by
  cases e with
  | learn name priority minConnections maxConnections =>
    cases hs
    exact .new rfl (.learn rfl)
  | connect t =>
    obtain ⟨r,hr,rfl⟩ := Option.map_eq_some_iff.mp hs
    exact .call rfl (fun idle => by simp [idle,Thread.dials] at hr) (.connect hr)
  | refuse t =>
    obtain ⟨r,hr,rfl⟩ := Option.map_eq_some_iff.mp hs
    exact .call rfl (fun idle => by simp [idle,Thread.dials] at hr) (.refuse hr)
  | accept t ok =>
    obtain ⟨th,hth,rfl⟩ := Option.map_eq_some_iff.mp hs
    exact .call rfl (fun idle => by simp [idle,Thread.accept] at hth) (.accept hth)
  | free t =>
    rw [step] at hs
    split at hs
    · rename_i ht
      cases hs
      exact .call rfl (by simp [ht]) (ht ▸ .free)
    · cases hs
  | enter t spare =>
    rw [step] at hs
    split at hs
    · rename_i ht
      cases hs
      exact .call rfl (by simp [ht]) (.enter (by rw [ht]; rfl))
    · rename_i ht
      cases hs
      exact .call rfl (by simp [ht]) (.enter (by rw [ht]; rfl))
    · cases hs
  | forget name =>
    cases hs
    exact .new rfl .forget
  | cook going =>
    obtain ⟨th,chef,moves,rfl⟩ := goOn_moves (s := s.spawn .idle) (e := .cook going) .idle rfl rfl hs
    have same : { s.spawn .idle with toChef := chef }.goto s.started th = { s with toChef := chef }.spawn th := by
      simp [goto,spawn]
    exact same ▸ .new rfl moves
  | taste t score =>
    rw [step] at hs
    split at hs
    · rename_i ht
      cases hs
      exact .call rfl (by simp [ht]) (ht ▸ .taste)
    · cases hs
  | scored t going =>
    rw [step] at hs
    split at hs
    · rename_i ht
      obtain ⟨th,chef,moves,rfl⟩ := goOn_moves (e := .scored t going) (s.threads t) (by rw [ht]; rfl) rfl hs
      exact .call rfl (by simp [ht]) moves
    · rename_i ht
      obtain ⟨th,chef,moves,rfl⟩ := goOn_moves (e := .scored t going) (s.threads t) (by rw [ht]; rfl) rfl hs
      exact .call rfl (by simp [ht]) moves
    · cases hs
  | finish t =>
    rw [step] at hs
    split at hs
    · rename_i ht
      obtain ⟨th,chef,moves,rfl⟩ := finish_moves hs
      exact .call rfl (by simp [ht]) (ht ▸ moves)
    · cases hs
  | burn conn =>
    cases hs
    exact .burn rfl
  | ignite conn =>
    cases hs
    exact .ignite rfl
  | close =>
    cases hs
    exact .close rfl
  | sever conn =>
    rw [step] at hs
    split at hs
    · rename_i old
      cases hs
      exact .sever rfl old
    · cases hs

end System
end Pggat.Kitchen
