import Pggat.Kitchen.Accounting

/-! What calls of the chef return about the connections in the kitchen. -/
namespace Pggat.Kitchen
open Pggat.Base

namespace Thread

def added : Thread → List Conn
  | done _ _ (.learned _ added) => added
  | done _ _ (.cooked conn) => [conn]
  | _ => []

def removed : Thread → List Conn
  | done _ _ (.learned removed _) | done _ _ (.forgot removed) => removed
  | _ => []

def returned : Thread → Bool
  | done .. => true
  | _ => false

variable {th : Thread}

theorem added_of_running (h : th.returned = false) : th.added = [] := by
  unfold returned at h
  split at h
  · cases h
  · unfold added
    split <;> first | rfl | simp_all

theorem removed_of_running (h : th.returned = false) : th.removed = [] := by
  unfold returned at h
  split at h
  · cases h
  · unfold removed
    split <;> first | rfl | simp_all

theorem running_of_scores {s : Chef} {known : List RecipeId} (h : th.scores s = some known) : th.returned = false := by
  unfold scores at h
  split at h <;> first | rfl | cases h

variable {r : RecipeId}

theorem running_of_dials (h : th.dials = some r) : th.returned = false := by
  obtain ⟨_,_,_,rfl⟩ | ⟨_,_,rfl⟩ | ⟨_,_,_,_,rfl⟩ := dials_some h <;> rfl

theorem running_of_accept {th' : Thread} {ok : Bool} (h : th.accept ok = some th') :
    th.returned = false ∧ th'.returned = false := by
  obtain ⟨_,_,_,_,_,rfl,rfl⟩ | ⟨_,_,_,_,rfl,rfl⟩ | ⟨_,_,_,_,_,_,rfl,rfl⟩ := accept_some h <;>
    cases ok <;> exact ⟨rfl,rfl⟩

theorem running_connect (h : th.dials = some r) (c : Conn) : (th.connect c).returned = false := by
  obtain ⟨_,_,_,rfl⟩ | ⟨_,_,rfl⟩ | ⟨_,_,_,_,rfl⟩ := dials_some h <;> rfl

theorem running_refuse (h : th.dials = some r) : th.refuse.returned = false := by
  obtain ⟨_,_,_,rfl⟩ | ⟨_,_,rfl⟩ | ⟨_,_,_,_,rfl⟩ := dials_some h <;> rfl

theorem running_of_enters {name : GoString} {added : List Conn}
    (h : th.enters = some (name,r,added)) : th.returned = false := by
  unfold enters at h
  split at h <;> first | rfl | cases h

end Thread

/-- The steps of `Learn`, `Forget` and `Cook`, and of the peers. -/
def Event.calls : Event → Bool
  | burn _ | ignite _ | close => false
  | _ => true

namespace Chef

/-- The connections in the kitchen of the recipe with a name. -/
def stock (s : Chef) (name : GoString) : List Conn := (s.byName.get name).elim [] s.conns

theorem forget_stock (s : Chef) (name : GoString) : (s.forget name).1 = s.stock name := by
  cases hr : s.byName.get name with
  | none => rw [forget_unknown hr,stock,hr]; rfl
  | some r => rw [forget_eq hr,stock,hr]; rfl

theorem Balanced.stock {s : Chef} {slots : RecipeId → Nat} (h : s.Balanced slots) {name : GoString} {c : Conn}
    (hc : c ∈ s.stock name) : s.byConn.get c ≠ none := by
  cases hr : s.byName.get name with
  | none => simp [Chef.stock,hr] at hc
  | some r =>
    rw [Chef.stock,hr] at hc
    simp [(h.known c r).mpr hc]

end Chef

/-- The connections that a step of a call closes. -/
def Event.closes (s : Chef) (th : Thread) : Event → List Conn
  | forget name => s.stock name
  | enter _ _ => th.enters.elim [] fun e => s.stock e.1
  | _ => []

/-- A call goes on; what it returns is what it has done to the kitchen. -/
structure Flow (s : Chef) (e : Event) (th th' : Thread) (chef : Chef) : Prop where
  running : th.returned = false
  byConn : ∀ c, chef.byConn.get c ≠ none ↔ s.byConn.get c ≠ none ∧ c ∉ th'.removed ∨ c ∈ th'.added
  added : th'.added.Sublist th.holds
  removed : th'.removed = e.closes s th ∨ th'.removed = []
  known : ∀ c ∈ th'.removed, s.byConn.get c ≠ none

section
variable {critics : Bool} {s s' : Chef} {e : Event} {th th' : Thread} {known tried : List RecipeId} {slice : Slice}
  {i : Nat}

theorem Flow.still (running : th.returned = false) (added : th'.added = []) (removed : th'.removed = [])
    (byConn : s'.byConn = s.byConn) : Flow s e th th' s' where
  running := running
  byConn c := by simp [byConn,added,removed]
  added := by simp [added]
  removed := .inr removed
  known := by simp [removed]

private theorem Flow.running_still (running : th.returned = false) (running' : th'.returned = false)
    (byConn : s'.byConn = s.byConn) : Flow s e th th' s' :=
  .still running (Thread.added_of_running running') (Thread.removed_of_running running') byConn

theorem Chef.Dropped.get_ne_none {gone : List Conn} (h : s.Dropped s' gone) (c : Conn) :
    s'.byConn.get c ≠ none ↔ s.byConn.get c ≠ none ∧ c ∉ gone := by
  rw [h.byConn]
  split <;> simp_all

private theorem Looks.running (h : Looks s e th known tried slice i s') : th.returned = false := by
  cases h with
  | sorted hth => exact Thread.running_of_scores hth
  | next => rfl

theorem Moves.flow (h : Moves critics s e th th' s') {slots : RecipeId → Nat} (balanced : s.Balanced slots) :
    Flow s e th th' s' := by
  cases h with
  | learn => exact .running_still rfl rfl rfl
  | connect hd => exact .running_still (Thread.running_of_dials hd) (Thread.running_connect hd _) rfl
  | refuse hd => exact .running_still (Thread.running_of_dials hd) (Thread.running_refuse hd) rfl
  | accept ha => exact .running_still (Thread.running_of_accept ha).1 (Thread.running_of_accept ha).2 rfl
  | free => exact .running_still rfl rfl rfl
  | @enter _ spare _ name r added he =>
    have inserted := (s.learn_learned name r added spare).inserted
    have closed : (s.learn name r added spare).1 = s.stock name := s.forget_stock name
    refine ⟨Thread.running_of_enters he,fun c => ?_,(Thread.enters_some he).2.1,.inl ?_,fun c hc => ?_⟩
    · rw [inserted.byConn]
      by_cases ha : c ∈ added
      · simp [ha,Thread.added]
      · rw [if_neg ha]
        refine ((s.forget_dropped name).get_ne_none c).trans ?_
        simp [ha,Thread.added,Thread.removed,Chef.learn]
    · exact closed.trans (by rw [Event.closes,he]; rfl)
    · exact balanced.stock (closed ▸ hc)
  | @forget name =>
    refine ⟨rfl,fun c => ?_,.slnil,.inl (s.forget_stock name),fun c hc => balanced.stock (s.forget_stock name ▸ hc)⟩
    refine ((s.forget_dropped name).get_ne_none c).trans ?_
    simp [Thread.added,Thread.removed]
  | score hth => exact .running_still (Thread.running_of_scores hth) rfl rfl
  | taste => exact .running_still rfl rfl rfl
  | noRecipes look => exact .still look.running rfl rfl look.same.2.2
  | dial look => exact .running_still look.running rfl look.same.2.2
  | @cooked _ _ _ _ _ r conn =>
    refine ⟨rfl,fun c => ?_,.refl _,.inr rfl,nofun⟩
    by_cases hc : c = conn <;> simp [Chef.insert,Thread.added,Thread.removed,hc]
  | failed => exact .still rfl rfl rfl rfl

end
end Pggat.Kitchen
