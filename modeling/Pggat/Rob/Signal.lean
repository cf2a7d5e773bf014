import Pggat.Rob.System

/-! The users that wait and the token that announces them. Only an `Acquire` that has to wait adds a waiter, and
it leaves a token. -/
namespace Pggat.Rob
open Pggat.Base
namespace Scheduler

/-- A critical section has scheduled nobody and left the token as it was. -/
structure Quiet (T T' : Scheduler) : Prop where
  waiting : T'.waiting = T.waiting
  users : ∀ user u', T'.users.get user = some u' → u'.scheduled = true →
    ∃ u, T.users.get user = some u ∧ u.scheduled = true

theorem waiters_eq_zero (T : Scheduler) :
    T.waiters = 0 ↔ ∀ user u, T.users.get user = some u → u.scheduled = false := by
  unfold waiters
  rw [List.length_eq_zero_iff,List.filter_eq_nil_iff]
  constructor
  · intro h user u hu
    simpa using h ⟨user,u⟩ ((Map.mem_entries _ _ _).mpr hu)
  · intro h e he
    simpa using h e.1 e.2 ((Map.mem_entries _ _ _).mp he)

namespace Quiet
variable {T T' T'' : Scheduler}

theorem refl (T : Scheduler) : Quiet T T := ⟨rfl,fun _ u hu hs => ⟨u,hu,hs⟩⟩

theorem trans (h : Quiet T T') (h' : Quiet T' T'') : Quiet T T'' where
  waiting := h'.waiting.trans h.waiting
  users user u hu hs := by
    obtain ⟨u',hu',hs'⟩ := h'.users user u hu hs
    exact h.users user u' hu' hs'

theorem same (hw : T'.waiting = T.waiting) (hu : T'.users = T.users) : Quiet T T' :=
  ⟨hw,fun _ u h hs => ⟨u,hu ▸ h,hs⟩⟩

variable {user : Uuid}

theorem modify (hw : T'.waiting = T.waiting) {f : User → User} (hu : T'.users = T.users.modify user f)
    (hf : ∀ u, (f u).scheduled = true → u.scheduled = true) : Quiet T T' where
  waiting := hw
  users user' u' h hs := by
    rw [hu,Map.get_modify] at h
    split at h
    · rename_i he
      subst he
      obtain ⟨u,hu,rfl⟩ := Option.map_eq_some_iff.mp h
      exact ⟨u,hu,hf u hs⟩
    · exact ⟨u',h,hs⟩

theorem insert (hw : T'.waiting = T.waiting) {v : User} (hu : T'.users = T.users.insert user v)
    (hv : v.scheduled = true → ∃ u, T.users.get user = some u ∧ u.scheduled = true) : Quiet T T' where
  waiting := hw
  users user' u' h hs := by
    rw [hu,Map.get_insert] at h
    split at h
    · rename_i he
      subst he
      cases h
      exact hv hs
    · exact ⟨u',h,hs⟩

theorem erase (hw : T'.waiting = T.waiting) (hu : T'.users = T.users.erase user) : Quiet T T' where
  waiting := hw
  users user' u' h hs := by
    rw [hu,Map.get_erase] at h
    split at h
    · cases h
    · exact ⟨u',h,hs⟩

variable {c : Chan} {id : Uuid}

private theorem send (h : T.send c id = some T') : Quiet T T' := by
  obtain ⟨_,he⟩ := Option.ite_none_right_eq_some.mp h
  cases he
  exact same rfl rfl

private theorem detach (now : Int) (T : Scheduler) (id : Uuid) : Quiet T (T.detach now id) := by
  unfold Scheduler.detach
  split
  · exact modify rfl rfl fun _ h => h
  · exact refl T

variable {now : Int}

theorem releaseWorker (h : T.releaseWorker now id = some T') : Quiet T T' := by
  refine (detach now T id).trans ?_
  simp only [Scheduler.releaseWorker] at h
  split at h
  · cases h
    exact same rfl rfl
  · refine trans ?_ (send h)
    exact modify rfl rfl (by simp)

theorem release (h : T.release now id = some T') : Quiet T T' := by
  unfold Scheduler.release at h
  split at h
  · cases h
    exact refl T
  · split at h
    · cases h
      exact refl T
    · exact releaseWorker h

theorem addWorker (h : T.addWorker now id = some T') : Quiet T T' := by
  unfold Scheduler.addWorker at h
  split at h
  · cases h
    exact refl T
  · refine trans ?_ (releaseWorker h)
    exact same rfl rfl

theorem deleteWorker (T : Scheduler) (id : Uuid) : Quiet T (T.deleteWorker id) := by
  unfold Scheduler.deleteWorker
  split
  · exact refl T
  · split <;> exact same rfl rfl

theorem addUser (T : Scheduler) (id : Uuid) : Quiet T (T.addUser id) := by
  unfold Scheduler.addUser
  split
  · exact refl T
  · exact insert rfl rfl (by simp)

theorem deleteUser (T : Scheduler) (id : Uuid) : Quiet T (T.deleteUser id) := by
  unfold Scheduler.deleteUser
  split
  · exact refl T
  · split
    · exact refl T
    · dsimp only
      split
      · split <;> exact erase rfl rfl
      · exact erase rfl rfl

theorem timeout {r : Option Uuid × Scheduler}
    (h : T.timeout now user c = some r) : Quiet T r.2 := by
  unfold Scheduler.timeout at h
  split at h
  · split at h
    · obtain ⟨T',hr,rfl⟩ := Option.map_eq_some_iff.mp h
      refine trans ?_ (release hr)
      exact same rfl rfl
    · cases h
      exact refl T
    · cases h
      exact refl T
  · split at h
    · cases h
      exact insert rfl rfl (by simp)
    · split at h
      · cases h
        exact same rfl rfl
      · cases h
        exact refl T
      · cases h

theorem close (T : Scheduler) : Quiet T T.close := by
  unfold Scheduler.close
  split
  · exact refl T
  · refine ⟨?_,by simp⟩
    have hfold : ∀ (l : List (Sigma fun _ : Int => Job)) (T : Scheduler),
        (l.foldl (fun T e => T.shut e.2.ready) T).waiting = T.waiting := by
      intro l
      induction l with
      | nil => exact fun _ => rfl
      | cons e l ih => exact fun T => ih (T.shut e.2.ready)
    exact hfold _ T

end Quiet

/-- A user that takes a worker from the queue does not wait; one that has to wait leaves a token. -/
theorem acquire_cases (now : Int) (T : Scheduler) (user : Uuid) :
    (∃ ready, (T.acquire now user).1 = .wait ready ∧ (T.acquire now user).2.waiting = true) ∨
    (∀ ready, (T.acquire now user).1 ≠ .wait ready) ∧ Quiet T (T.acquire now user).2 := by
  unfold acquire
  split
  · exact .inr ⟨by simp,.refl T⟩
  · split
    · exact .inr ⟨by simp,.refl T⟩
    · rename_i u hu
      split
      · exact .inr ⟨by simp,.insert rfl rfl fun hs => ⟨u,hu,hs⟩⟩
      · exact .inl ⟨_,rfl,rfl⟩

end Scheduler

namespace System
open Scheduler

def Waits (s : System) : Event → Prop
  | .acquire now user _ => ∃ ready, (s.sched.acquire now user).1 = .wait ready
  | _ => False

variable {s s' : System}

private theorem receive_quiet {user : Uuid} {c : Chan} (h : s.receive user c = some s') :
    Quiet s.sched s'.sched := by
  unfold receive at h
  split at h
  · cases h
    exact .same rfl rfl
  · cases h
    exact .refl _
  · cases h

theorem step_signals {e : Event} (h : s.step e = some s') :
    s.Waits e ∧ s'.sched.waiting = true ∨ ¬ s.Waits e ∧ Quiet s.sched s'.sched := by
  cases e with
  | addWorker now id =>
    obtain ⟨T,hT,rfl⟩ := Option.map_eq_some_iff.mp h
    exact .inr ⟨nofun,.addWorker hT⟩
  | deleteWorker id =>
    cases h
    exact .inr ⟨nofun,.deleteWorker _ id⟩
  | addUser id =>
    cases h
    exact .inr ⟨nofun,.addUser _ id⟩
  | deleteUser id =>
    cases h
    exact .inr ⟨nofun,.deleteUser _ id⟩
  | acquire now user timed =>
    have hc := acquire_cases now s.sched user
    simp only [step] at h
    split at h <;> rename_i hacq <;> cases h <;> rw [hacq] at hc
    · exact .inr ⟨by simp [Waits,hacq],.refl _⟩
    · simp only [reduceCtorEq,false_and,exists_false,false_or] at hc
      exact .inr ⟨by simp [Waits,hacq],hc.2⟩
    · simp only [Acquired.wait.injEq,exists_eq_left',ne_eq,forall_eq',false_and,or_false] at hc
      exact .inl ⟨by simp [Waits,hacq],hc⟩
  | receive user =>
    simp only [step] at h
    split at h
    · split at h
      · cases h
      · exact .inr ⟨nofun,receive_quiet h⟩
    · cases h
  | recycle c =>
    obtain ⟨_,he⟩ := Option.ite_none_right_eq_some.mp h
    cases he
    exact .inr ⟨nofun,.same rfl rfl⟩
  | timer user =>
    obtain ⟨_,he⟩ := Option.ite_none_right_eq_some.mp h
    cases he
    exact .inr ⟨nofun,.refl _⟩
  | timeout now user =>
    simp only [step] at h
    split at h
    · obtain ⟨_,he⟩ := Option.ite_none_right_eq_some.mp h
      obtain ⟨r,hr,rfl⟩ := Option.map_eq_some_iff.mp he
      exact .inr ⟨nofun,.timeout hr⟩
    · cases h
  | release now user worker =>
    obtain ⟨T,hT,rfl⟩ := Option.map_eq_some_iff.mp h
    exact .inr ⟨nofun,.release hT⟩
  | close =>
    cases h
    exact .inr ⟨nofun,.close _⟩

end System
end Pggat.Rob
