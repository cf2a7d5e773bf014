import Pggat.Rob.Behind

/-! The scheduler is fair: waiting users are served in the order of their keys, and a new user comes after those
that wait already. -/
namespace Pggat.Rob
open Pggat.Base

/-- An `Acquire` without a timeout. -/
def Event.Untimed : Event → Prop
  | .acquire _ _ timed => timed = false
  | _ => True

instance : (e : Event) → Decidable e.Untimed
  | .acquire _ _ _ => inferInstanceAs (Decidable (_ = _))
  | .addWorker _ _ | .deleteWorker _ | .addUser _ | .deleteUser _ | .receive _ | .recycle _ | .timer _ | .timeout _ _
  | .release _ _ _ | .close => inferInstanceAs (Decidable True)

namespace System
open Scheduler

def Unfired (s : System) : Prop := ∀ user, s.timed user = false ∧ s.fired user = false

variable {s s' : System} {user : Uuid}

theorem receive_sched {c : Chan} (h : s.receive user c = some s') :
    (s'.sched = s.sched.drain c ∨ s'.sched = s.sched) ∧ s'.timed = s.timed ∧ s'.fired = s.fired ∧
      s'.userIds = s.userIds := by
  unfold receive at h
  split at h
  · cases h
    exact ⟨.inl rfl,rfl,rfl,rfl⟩
  · cases h
    exact ⟨.inr rfl,rfl,rfl,rfl⟩
  · cases h

/-- One critical section a step. Users are never forgotten, and no timer is set. -/
theorem step_section {e : Event} (hf : s.Unfired) (he : e.Untimed) (h : s.step e = some s') :
    Section s.sched s'.sched ∧ s'.Unfired ∧ ∀ user ∈ s.userIds, user ∈ s'.userIds := by
  cases e with
  | addWorker now id =>
    obtain ⟨T,hT,rfl⟩ := Option.map_eq_some_iff.mp h
    exact ⟨.addWorker hT,hf,fun _ h => h⟩
  | deleteWorker id =>
    cases h
    exact ⟨.deleteWorker id,hf,fun _ h => h⟩
  | addUser id =>
    cases h
    exact ⟨.addUser id,hf,fun _ => List.mem_cons_of_mem _⟩
  | deleteUser id =>
    cases h
    exact ⟨.deleteUser id,hf,fun _ h => h⟩
  | acquire now user timed =>
    have hacq := Section.acquire (T := s.sched) now user
    simp only [step] at h
    split at h <;> rename_i hres <;> cases h <;> rw [hres] at hacq
    · exact ⟨.pass,hf,fun _ h => h⟩
    · exact ⟨hacq,hf,fun _ h => h⟩
    · refine ⟨hacq,fun user' => ?_,fun _ h => h⟩
      have ht : timed = false := he
      by_cases hu : user' = user
      · simp [hu,ht]
      · simpa [hu] using hf user'
  | receive user =>
    simp only [step] at h
    split at h
    · split at h
      · cases h
      · obtain ⟨hs | hs,ht,hfi,hids⟩ := receive_sched h
        · exact ⟨hs ▸ .drain _,by simpa [Unfired,ht,hfi] using hf,by simp [hids]⟩
        · exact ⟨hs ▸ .pass,by simpa [Unfired,ht,hfi] using hf,by simp [hids]⟩
    · cases h
  | recycle c =>
    obtain ⟨_,he⟩ := Option.ite_none_right_eq_some.mp h
    cases he
    exact ⟨.putChan c,hf,fun _ h => h⟩
  | timer user =>
    obtain ⟨⟨ht,_⟩,_⟩ := Option.ite_none_right_eq_some.mp h
    rw [(hf user).1] at ht
    cases ht
  | timeout now user =>
    simp only [step,(hf user).2] at h
    split at h <;> cases h
  | release now user worker =>
    obtain ⟨T,hT,rfl⟩ := Option.map_eq_some_iff.mp h
    exact ⟨.release hT,hf,fun _ h => h⟩
  | close =>
    cases h
    exact ⟨.close,hf,fun _ h => h⟩

/-- What holds in every state of a run without timeouts. -/
structure Orderly (s : System) : Prop where
  unfired : s.Unfired
  ordered : s.sched.Ordered
  emptied : s.sched.closed = true → ∀ k, s.sched.schedule.get k = none
  inv : s.sched.closed = false → s.Inv none
  uncharged : s.sched.closed = false → ∀ user, user ∉ s.userIds → s.sched.Uncharged user

theorem Inv.absent (h : s.Inv none) (hu : user ∉ s.userIds) : s.sched.Absent user where
  unregistered := by
    cases hg : s.sched.users.get user with
    | none => rfl
    | some u => exact absurd (h.knownUser user u hg) hu
  jobless := by
    rintro k job hk rfl
    obtain ⟨_,_,u,hg,_⟩ := h.job k job hk
    exact hu (h.knownUser job.user u hg)

namespace Orderly
variable {s s' : System} {e : Event}

theorem step (h : s.Orderly) (hu : s.Usage e) (he : e.Untimed) (hs : s.step e = some s') : s'.Orderly := by
  obtain ⟨hsec,hunfired,hids⟩ := step_section h.unfired he hs
  have hopen : s'.sched.closed = false → s.sched.closed = false := by
    intro hc
    cases ho : s.sched.closed with
    | false => rfl
    | true =>
      rw [step_closed ho hs] at hc
      cases hc
  refine ⟨hunfired,(hsec.advances h.ordered).1,?_,?_,?_⟩
  · intro hc
    rcases Stays.step hsec with hclose | ⟨hsame,hsched⟩
    · rw [hclose]
      cases ho : s.sched.closed with
      | true => simpa [close,ho] using h.emptied ho
      | false => simp [close,ho]
    · rw [hsched (hsame ▸ hc)]
      exact h.emptied (hsame ▸ hc)
  · intro hc
    have hown : s.OwnSlot e := by
      cases e with
      | timeout now user =>
        simp only [System.step,(h.unfired user).2] at hs
        split at hs <;> cases hs
      | _ => trivial
    exact (step_inv (h.inv (hopen hc)) (hopen hc) hu hown hs).resolve_left (by simp [hc])
  · intro hc user hnew
    have hold : user ∉ s.userIds := fun hm => hnew (hids user hm)
    exact (h.uncharged (hopen hc) user hold).step ((h.inv (hopen hc)).absent hold) hsec

theorem reachable (h : Reachable {} (fun s e => s.Usage e ∧ e.Untimed) System.step s) : s.Orderly := by
  refine h.invariant ⟨fun _ => ⟨rfl,rfl⟩,⟨.inl rfl,by simp⟩,fun _ _ => rfl,fun _ => Inv.init,
    fun _ _ _ => by simp [Uncharged]⟩ ?_
  rintro s e s' ho ⟨hu,he⟩ hs
  exact ho.step hu he hs

variable {k : Int} {job : Job} {user : Uuid}

/-- A user that comes after a waiting job does so after every step that neither dispatches the job nor removes
its user. -/
theorem behind (h : s.Orderly) (hu : s.Usage e) (hs : s.step e = some s') (hc : s.sched.closed = false) (hb : s.sched.Behind k job user) (hknown : user ∈ s.userIds)
    (hremove : e ≠ .deleteUser job.user) (hd : ∀ id, ¬ s.sched.Dispatches s'.sched k job id) :
    s'.sched.closed = true ∨ s'.sched.Behind k job user := by
  cases e with
  | addWorker now id =>
    obtain ⟨T,hT,rfl⟩ := Option.map_eq_some_iff.mp hs
    exact .inr (hb.addWorker hT hd)
  | deleteWorker id =>
    cases hs
    exact .inr (hb.deleteWorker id)
  | addUser id =>
    cases hs
    refine .inr (hb.addUser ?_)
    rintro rfl
    exact hu hknown
  | deleteUser id =>
    cases hs
    refine .inr (hb.deleteUser (fun he => hremove (he ▸ rfl)) fun u hg hsch => ?_)
    exact (h.inv hc).scheduled id u hg hsch
  | acquire now id timed =>
    have hacq := (hb.acquire h.ordered now id).2
    simp only [System.step] at hs
    split at hs <;> rename_i he <;> cases hs <;> rw [he] at hacq
    · exact .inr hb
    · exact .inr hacq
    · exact .inr hacq
  | receive id =>
    simp only [System.step] at hs
    split at hs
    · split at hs
      · cases hs
      · obtain ⟨hr | hr,_⟩ := receive_sched hs <;> rw [hr]
        · exact .inr (hb.congr rfl rfl rfl)
        · exact .inr hb
    · cases hs
  | recycle c =>
    obtain ⟨_,he⟩ := Option.ite_none_right_eq_some.mp hs
    cases he
    exact .inr (hb.congr rfl rfl rfl)
  | timer id =>
    obtain ⟨_,he⟩ := Option.ite_none_right_eq_some.mp hs
    cases he
    exact .inr hb
  | timeout now id =>
    simp only [System.step,(h.unfired id).2] at hs
    split at hs <;> cases hs
  | release now id worker =>
    obtain ⟨T,hT,rfl⟩ := Option.map_eq_some_iff.mp hs
    exact .inr (hb.release hT hd)
  | close =>
    cases hs
    refine .inl ?_
    simp [close,hc]

theorem addUser (h : s.Orderly) (hc : s.sched.closed = false)
    (hk : s.sched.schedule.get k = some job) (hu : user ∉ s.userIds) :
    (s.sched.addUser user).Behind k job user := by
  obtain ⟨⟨k',job'⟩,hmax,hle⟩ := Map.le_maxEntry ((Map.mem_iff _ _).mpr ⟨job,hk⟩)
  have hle : k ≤ k' := hle
  unfold Scheduler.addUser
  rw [if_neg (by simp [hc]),hmax]
  refine ⟨hk,?_,?_,h.uncharged hc user hu⟩
  · intro u hg
    simp only [Map.get_insert,if_true,Option.some.injEq] at hg
    subst hg
    simp only
    omega
  · intro k'' j hj he
    exact absurd he (((h.inv hc).absent hu).jobless k'' j hj)

end Orderly

/-- The user is given a worker in this step: its `Acquire` takes one from the queue, or its job is dispatched. -/
def Gives (s : System) (e : Event) (s' : System) (user : Uuid) : Prop :=
  (∃ now timed id, e = .acquire now user timed ∧ (s.sched.acquire now user).1 = .worker id) ∨
  ∃ k job id, s.sched.Dispatches s'.sched k job id ∧ job.user = user

namespace Orderly
variable {s s' : System} {e : Event}

variable {k : Int} {job : Job}

theorem opened (h : s.Orderly) (hk : s.sched.schedule.get k = some job) :
    s.sched.closed = false := by
  cases hc : s.sched.closed with
  | false => rfl
  | true =>
    rw [h.emptied hc k] at hk
    cases hk

variable {id : Uuid}

theorem least (h : s.Orderly) (he : e.Untimed) (hs : s.step e = some s')
    (hd : s.sched.Dispatches s'.sched k job id) {k' : Int} {job' : Job} (hk : s.sched.schedule.get k' = some job') :
    k ≤ k' := by
  rcases (step_section h.unfired he hs).1.sendsLeast with hsilent | ⟨k₀,job₀,id₀,hd₀,hle⟩
  · have hempty := ((h.inv (h.opened hd.waiting)).job k job hd.waiting).2.1
    have hsent := hsilent job.ready id (by rw [hd.sent]; simp)
    rw [hempty] at hsent
    cases hsent
  · have hgone : s'.sched.schedule.get k = none := by rw [hd.schedule]; simp
    rw [hd₀.schedule,Map.get_erase,hd.waiting] at hgone
    split at hgone
    · rename_i heq
      exact heq ▸ hle k' job' hk
    · cases hgone

private theorem dispatched (h : s.Orderly) (he : e.Untimed) (hs : s.step e = some s') {c : Chan}
    (hb : (s.sched.chans c).buffered ≠ some id) (hb' : (s'.sched.chans c).buffered = some id) :
    ∃ k job, s.sched.Dispatches s'.sched k job id ∧ job.ready = c := by
  rcases (step_section h.unfired he hs).1.sendsLeast with hsilent | ⟨k,job,id₀,hd,_⟩
  · exact absurd (hsilent c id hb') hb
  · rw [hd.sent] at hb'
    by_cases hc : c = job.ready
    · subst hc
      simp only [Function.update_self,Option.some.injEq] at hb'
      exact ⟨k,job,hb' ▸ hd,rfl⟩
    · rw [Function.update_of_ne hc] at hb'
      exact absurd hb' hb

private theorem not_given (h : s.Orderly) (he : e.Untimed) (hs : s.step e = some s') {user : Uuid}
    (hb : s.sched.Behind k job user) : ¬ s.Gives e s' user := by
  rintro (⟨now,timed,id,rfl,hacq⟩ | ⟨k',job',id,hd,hu⟩)
  · exact (hb.acquire h.ordered now user).1 id hacq
  · have hle := h.least he hs hd hb.waits
    have hlt := hb.later k' job' hd.waiting hu
    omega

private theorem not_given_closed (h : s.Orderly) (hc : s.sched.closed = true) (user : Uuid) : ¬ s.Gives e s' user := by
  rintro (⟨now,timed,id,rfl,hacq⟩ | ⟨k,job,id,hd,_⟩)
  · simp [acquire,hc] at hacq
  · rw [h.opened hd.waiting] at hc
    cases hc

end Orderly

/-- In every run without timeouts: workers and jobs do not wait side by side, no key is below the floor, the floor
never decreases, a worker is sent only by the dispatch of the job with the least key, and a user that is added while
a job waits is given no worker before that job is dispatched or its user removed. -/
theorem fair_order {s : System} (h : Reachable {} (fun s e => s.Usage e ∧ e.Untimed) step s) :
    (s.sched.queue = [] ∨ ∀ k, s.sched.schedule.get k = none) ∧
    (∀ k job, s.sched.schedule.get k = some job → s.sched.floor ≤ k) ∧
    (∀ e s', e.Untimed → s.step e = some s' → s.sched.floor ≤ s'.sched.floor ∧
      (∀ c id, (s.sched.chans c).buffered ≠ some id → (s'.sched.chans c).buffered = some id →
        ∃ k job, s.sched.Dispatches s'.sched k job id ∧ job.ready = c) ∧
      ∀ k job id, s.sched.Dispatches s'.sched k job id → ∀ k' job', s.sched.schedule.get k' = some job' → k ≤ k') ∧
    ∀ k job user s₁ s₂, s.sched.schedule.get k = some job → user ∉ s.userIds → s.step (.addUser user) = some s₁ →
      Reachable s₁ (fun t e => (t.Usage e ∧ e.Untimed) ∧ e ≠ .deleteUser job.user ∧
        ∀ t' id, t.step e = some t' → ¬ t.sched.Dispatches t'.sched k job id) step s₂ →
      ∀ e s₃, e.Untimed → s₂.step e = some s₃ → ¬ s₂.Gives e s₃ user := by
  have ho := Orderly.reachable h
  refine ⟨ho.ordered.apart,ho.ordered.above,?_,?_⟩
  · intro e s' he hs
    obtain ⟨hsec,_,_⟩ := step_section ho.unfired he hs
    exact ⟨(hsec.advances ho.ordered).2,fun c id => ho.dispatched he hs,fun k job id hd k' job' => ho.least he hs hd⟩
  · intro k job user s₁ s₂ hk hu hadd hrun e s₃ he hs
    have hafter : s₂.Orderly ∧ user ∈ s₂.userIds ∧ (s₂.sched.closed = true ∨ s₂.sched.Behind k job user) := by
      refine hrun.invariant (P := fun t =>
        t.Orderly ∧ user ∈ t.userIds ∧ (t.sched.closed = true ∨ t.sched.Behind k job user)) ?_ ?_
      · have h₁ := ho.step (e := .addUser user) hu trivial hadd
        cases hadd
        exact ⟨h₁,List.mem_cons_self,.inr (ho.addUser (ho.opened hk) hk hu)⟩
      · rintro t e t' ⟨ht,hknown,hb⟩ ⟨⟨hus,hun⟩,hremove,hd⟩ hst
        refine ⟨ht.step hus hun hst,(step_section ht.unfired hun hst).2.2 user hknown,?_⟩
        rcases hb with hc | hb
        · exact .inl (step_closed hc hst)
        · exact ht.behind hus hst (ht.opened hb.waits) hb hknown hremove fun id => hd t' id hst
    obtain ⟨ho₂,_,hc | hb⟩ := hafter
    · exact ho₂.not_given_closed hc user
    · exact ho₂.not_given he hs hb

def oneHolds : List Event :=
  [.addUser 1, .addUser 2, .addWorker 0 10, .acquire 0 1 false, .acquire 0 2 false]

/-- User 3 comes later and is not given the worker that is released next. -/
theorem fair_order_oneHolds : ∃ s s₁ s₂ s₃,
    run (fun s e => s.Usage e ∧ e.Untimed) step {} oneHolds = some s ∧ s.sched.schedule.get 0 = some ⟨2,0⟩ ∧
    s.step (.addUser 3) = some s₁ ∧ s₁.step (.acquire 5 3 false) = some s₂ ∧ s₂.sched.waiters = 2 ∧
    s₂.step (.release 7 1 10) = some s₃ ∧ ¬ s₂.Gives (.release 7 1 10) s₃ 3 := by
  refine ⟨_,_,_,_,rfl,rfl,rfl,rfl,rfl,rfl,?_⟩
  have hfair := fair_order (Reachable.of_run .start (fun _ _ => id) oneHolds rfl)
  refine hfair.2.2.2 0 ⟨2,0⟩ 3 _ _ rfl (by decide) rfl
    (Reachable.start.next (e := .acquire 5 3 false) ⟨by decide,by decide,?_⟩ rfl) (.release 7 1 10) _ trivial rfl
  intro t' id ht hd
  cases ht
  have hk := congrArg (Map.get · 0) hd.schedule
  cases hk

end System
end Pggat.Rob
