import Pggat.Rob.Waiting

/-! Every step of the scheduler and its callers keeps the invariant, as long as a timed out
`Acquire` finds no other user's job under its stride. -/
namespace Pggat.Rob
open Pggat.Base
namespace System
namespace Inv
variable {s : System}

variable {id : Uuid}

private theorem enlist (h : s.Inv none) (hid : id ∉ s.workerIds) :
    Inv { s with
      sched := { s.sched with workers := s.sched.workers.insert id {} }
      workerIds := id :: s.workerIds } (some id) := by
  have hget : ∀ w W, Map.get (s.sched.workers.insert id {}) w = some W → w ≠ id → s.sched.workers.get w = some W := by
    intro w W hw hne
    simpa [hne] using hw
  have hnew : ∀ w W, s.sched.workers.get w = some W → w ≠ id := fun w W hw he =>
    hid (he ▸ h.knownWorker w W hw)
  have hplace : Placement { s with
      sched := { s.sched with workers := s.sched.workers.insert id {} }
      workerIds := id :: s.workerIds } (some id) := by
    refine ⟨?_,h.unique,?_,?_,?_⟩
    · intro w W hw hl
      exact h.somewhere w W (hget w W hw fun he => hl (congrArg some he.symm)) (by simp)
    · rintro w p hl hp
      cases hl
      exact hid (h.known id p hp)
    · intro w user since hw hl
      exact h.owner w user since (hget w _ hw fun he => hl (congrArg some he.symm)) (by simp)
    · intro w p hp
      exact List.mem_cons_of_mem _ (h.known w p hp)
  refine { h with toPlacement := hplace, queued := ?_, former := ?_, unburdened := ?_, knownWorker := ?_ }
  · intro w hw
    obtain ⟨W,hW⟩ := h.queued w hw
    exact ⟨W,by simp [hnew w W hW,hW]⟩
  · rintro w user since u hl hw
    cases hl
    simp at hw
  · intro user c w hc hw
    have hne : w ≠ id := fun he => hid (he ▸ h.known w (.heldBy user) hw)
    simpa [hne] using h.unburdened user c w hc hw
  · intro w W hw
    by_cases he : w = id
    · simp [he]
    · exact List.mem_cons_of_mem _ (h.knownWorker w W (hget w W hw he))

theorem addWorker (h : s.Inv none) (hc : s.sched.closed = false) (hid : id ∉ s.workerIds) (now : Int) :
    ∃ T, s.sched.addWorker now id = some T ∧ Inv { s with sched := T, workerIds := id :: s.workerIds } none := by
  obtain ⟨T,hT,hi,_⟩ := (h.enlist hid).releaseWorker (W := {}) (by simp) now
  exact ⟨T,by rw [Scheduler.addWorker,if_neg (by simp [hc])]; exact hT,hi⟩

theorem deleteUser (h : s.Inv none) (hc : s.sched.closed = false) (id : Uuid) :
    Inv { s with sched := s.sched.deleteUser id } none := by
  rw [Scheduler.deleteUser,if_neg (by simp [hc])]
  cases hu : s.sched.users.get id with
  | none => exact h
  | some u =>
    by_cases hs : u.scheduled = true
    · obtain ⟨c,hp,he,hj⟩ := h.own_job hu hs
      simp only [hs,if_true,hj]
      exact h.deleteUser_scheduled hp he hu hj
    · simp only [hs]
      exact h.deleteUser_idle hu (by simpa using hs)

variable {user : Uuid} {u : User}

private theorem acquire_worker (h : s.Inv none) (hp : s.pending user = none)
    (hu : s.sched.users.get user = some u) (hq : s.sched.queue.getLast? = some id) (now : Int) :
    Inv { s with
      sched := { s.sched with
        queue := s.sched.queue.dropLast
        users := s.sched.users.insert user { u with worker := some id }
        workers := s.sched.workers.insert id ⟨some user,now⟩ }
      held := (user,id) :: s.held } none := by
  obtain ⟨hi,since,hW⟩ := h.pop hq
  have hns := h.not_scheduled hp hu
  have hi := hi.setWorker hW ⟨some user,now⟩ (by
    rintro user' v he hv
    cases he
    cases hu.symm.trans hv
    exact hns)
  have hi := hi.setUser (v := { u with worker := some id }) hu rfl fun _ => rfl
  refine hi.hold hp (h.knownWorker id _ hW) ?_
  intro user' since' hw
  have : user = user' ∧ now = since' := by simpa using hw
  exact this.1.symm

private theorem acquire_wait (h : s.Inv none) (hp : s.pending user = none)
    (hb : ∀ id, (user,id) ∈ s.held → s.sched.workers.get id = none) (hu : s.sched.users.get user = some u) :
    let k := s.sched.getChan.2.schedule.firstFree (max u.stride s.sched.getChan.2.floor)
    Inv { s with
      pending := Function.update s.pending user (some s.sched.getChan.1)
      sched := { s.sched.getChan.2 with
        schedule := s.sched.getChan.2.schedule.insert k ⟨user,s.sched.getChan.1⟩
        users := s.sched.getChan.2.users.insert user { u with stride := k, scheduled := true } } } none := by
  intro k
  obtain ⟨hi,hc⟩ := h.getChan
  have hsame : s.sched.getChan.2.users = s.sched.users ∧ s.sched.getChan.2.workers = s.sched.workers := by
    unfold Scheduler.getChan
    split <;> exact ⟨rfl,rfl⟩
  exact hi.enroll hp (by simpa [hsame.2] using hb) (by simpa [hsame.1] using hu) hc (Map.get_firstFree _ _)

variable {s' : System}

theorem acquire (h : s.Inv none) (hc : s.sched.closed = false) (hp : s.pending user = none)
    (hb : ∀ id, (user,id) ∈ s.held → s.sched.workers.get id = none) {now : Int} {timed : Bool}
    (hs : s.step (.acquire now user timed) = some s') : s'.Inv none := by
  have hopen : ¬ s.sched.closed = true := by simp [hc]
  simp only [step,Scheduler.acquire,if_neg hopen] at hs
  cases hu : s.sched.users.get user with
  | none =>
    simp only [hu] at hs
    cases hs
    exact h
  | some u =>
    cases hq : s.sched.queue.getLast? with
    | some id =>
      simp only [hu,hq] at hs
      cases hs
      exact h.acquire_worker hp hu hq now
    | none =>
      simp only [hu,hq] at hs
      cases hs
      exact { h.acquire_wait hp hb hu with }

variable {c : Chan}

/-- What a pending `Acquire` finds in its channel when its user is registered and not scheduled. -/
theorem buffered (h : s.Inv none) (hp : s.pending user = some c)
    (hb : (s.sched.chans c).buffered = some id) : s.sched.chans c = ⟨some id,false⟩ := by
  rcases h.waits user c hp with ⟨u,hu,hs⟩ | ⟨w,hw⟩ | ⟨hc,_⟩
  · obtain ⟨c',hp',he,_⟩ := h.own_job hu hs
    cases hp.symm.trans hp'
    simp [he] at hb
  · rw [hw] at hb
    cases hb
    exact hw
  · simp [hc] at hb

/-- The worker received from a channel goes to the caller that waited on it. -/
theorem receive_worker (h : s.Inv none) (hp : s.pending user = some c)
    (hb : (s.sched.chans c).buffered = some id) :
    Inv { s.finish user (some id) with sched := s.sched.drain c } none ∧
    Spare { s.finish user (some id) with sched := s.sched.drain c } c := by
  obtain ⟨hi,hc⟩ := h.take hp (h.buffered hp hb)
  refine ⟨hi.hold (by simp) (h.known id (.bufferedFor user) ⟨c,hp,hb⟩) ?_,{ hc with }⟩
  intro user' since hw
  exact h.buffered_owner hp hb hw

theorem receive (h : s.Inv none) (hp : s.pending user = some c)
    (hs : s.receive user c = some s') : s'.Inv none := by
  unfold System.receive Channel.receive at hs
  cases hb : (s.sched.chans c).buffered with
  | some id =>
    simp only [hb] at hs
    cases hs
    obtain ⟨hi,hc⟩ := h.receive_worker hp hb
    exact hi.putBack hc
  | none =>
    cases hcl : (s.sched.chans c).closed with
    | false => simp [hb,hcl] at hs
    | true =>
      simp only [hb,hcl,if_true] at hs
      cases hs
      refine h.leave hp hb ?_
      rcases h.waits user c hp with ⟨u,hu,hsch⟩ | ⟨w,hw⟩ | ⟨_,hu⟩
      · obtain ⟨c',hp',he,_⟩ := h.own_job hu hsch
        cases hp.symm.trans hp'
        simp [he] at hcl
      · simp [hw] at hb
      · exact hu

/-- A timed out `Acquire` never blocks under the mutex, and its worker, if any, is returned or handed on. -/
theorem timeout (h : s.Inv none) (hc : s.sched.closed = false)
    (hp : s.pending user = some c) (now : Int) (hown : s.OwnSlot (.timeout now user)) :
    ∃ r, s.sched.timeout now user c = some r ∧ Inv { s.finish user r.1 with sched := r.2 } none := by
  unfold Scheduler.timeout
  cases hu : s.sched.users.get user with
  | none =>
    unfold Channel.receive
    cases hb : (s.sched.chans c).buffered with
    | none =>
      refine ⟨(none,s.sched),?_,h.leave hp hb hu⟩
      cases hcl : (s.sched.chans c).closed <;> simp
    | some id =>
      obtain ⟨hi,hsp⟩ := h.take hp (h.buffered hp hb)
      obtain ⟨T,hT,hi',_⟩ := (hi.putChan hsp).release hc now
      exact ⟨(none,T),by simpa [hb] using hT,hi'⟩
  | some u =>
    cases hj : s.sched.schedule.get u.stride with
    | some j =>
      obtain ⟨hpj,_⟩ := h.job _ _ hj
      obtain rfl : j.ready = c := hown c hp u hu j hj
      obtain rfl : j.user = user := h.separate _ _ _ hpj hp
      obtain ⟨hi,hsp⟩ := h.withdraw hp hu hj
      refine ⟨(none,{ s.sched.putChan j.ready with
        users := s.sched.users.insert j.user { u with scheduled := false }
        schedule := s.sched.schedule.erase u.stride }),by simp only [hj],hi.putChan hsp⟩
    | none =>
      have hb : ∃ id, s.sched.chans c = ⟨some id,false⟩ := by
        rcases h.waits user c hp with ⟨v,hv,hs⟩ | hb | ⟨_,hn⟩
        · cases hu.symm.trans hv
          obtain ⟨_,_,_,hj'⟩ := h.own_job hu hs
          cases hj.symm.trans hj'
        · exact hb
        · cases hu.symm.trans hn
      obtain ⟨id,hb⟩ := hb
      obtain ⟨hi,hsp⟩ := h.receive_worker hp (by rw [hb])
      exact ⟨(some id,(s.sched.drain c).putChan c),by simp [hj,Channel.receive,hb],hi.putChan hsp⟩

theorem drop_release (h : s.Inv none) (hc : s.sched.closed = false) (hh : (user,id) ∈ s.held)
    (now : Int) : ∃ T, s.sched.release now id = some T ∧
      Inv { s with sched := T, held := s.held.erase (user,id) } none := by
  obtain ⟨T,hT,hi,_⟩ := (h.drop hh).release hc now
  exact ⟨T,hT,hi⟩

end Inv

variable {s s' : System} {e : Event}

theorem step_closed (hc : s.sched.closed = true) (h : s.step e = some s') :
    s'.sched.closed = true := by
  cases e with
  | addWorker now id =>
    simp only [step,Scheduler.addWorker,hc,if_true,Option.map_some] at h
    cases h
    exact hc
  | deleteWorker id =>
    simp only [step,Scheduler.deleteWorker,hc,if_true] at h
    cases h
    exact hc
  | addUser id =>
    simp only [step,Scheduler.addUser,hc,if_true] at h
    cases h
    exact hc
  | deleteUser id =>
    simp only [step,Scheduler.deleteUser,hc,if_true] at h
    cases h
    exact hc
  | acquire now user timed =>
    simp only [step,Scheduler.acquire,hc,if_true] at h
    cases h
    exact hc
  | receive user =>
    simp only [step,System.receive] at h
    grind [Scheduler.drain,finish]
  | recycle c =>
    simp only [step] at h
    grind [Scheduler.putChan]
  | timer user =>
    simp only [step] at h
    grind
  | timeout now user =>
    simp only [step,Scheduler.timeout,Scheduler.release] at h
    grind [Scheduler.drain,Scheduler.putChan,finish]
  | release now user worker =>
    simp only [step,Scheduler.release,hc,if_true,Option.map_some] at h
    cases h
    exact hc
  | close =>
    simp only [step,Scheduler.close,hc,if_true] at h
    cases h
    exact hc

theorem step_inv (h : s.Inv none) (hc : s.sched.closed = false) (hu : s.Usage e)
    (ho : s.OwnSlot e) (hs : s.step e = some s') : s'.sched.closed = true ∨ s'.Inv none := by
  have hopen : ¬ s.sched.closed = true := by simp [hc]
  cases e with
  | addWorker now id =>
    obtain ⟨T,hT,hi⟩ := h.addWorker hc hu now
    simp only [step,hT,Option.map_some] at hs
    cases hs
    exact .inr hi
  | deleteWorker id =>
    simp only [step,Scheduler.deleteWorker,if_neg hopen] at hs
    cases hs
    split
    · exact .inr h
    · exact .inr (h.deleteWorker id)
  | addUser id =>
    simp only [step,Scheduler.addUser,if_neg hopen] at hs
    cases hs
    exact .inr (h.addUser hu _)
  | deleteUser id =>
    cases hs
    exact .inr (h.deleteUser hc id)
  | acquire now user timed =>
    refine .inr (h.acquire hc hu.1 ?_ hs)
    intro id hid
    exact (Map.get_eq_none _ _).mpr (hu.2 (user,id) hid rfl)
  | receive user =>
    cases hp : s.pending user with
    | none => simp [step,hp] at hs
    | some c =>
      cases hf : s.fired user with
      | true => simp [step,hp,hf] at hs
      | false => exact .inr (h.receive hp (by simpa [step,hp,hf] using hs))
  | recycle c =>
    simp only [step] at hs
    split at hs
    · rename_i hm
      cases hs
      exact .inr (h.recycle hm)
    · cases hs
  | timer user =>
    simp only [step] at hs
    split at hs
    · cases hs
      exact .inr { h with }
    · cases hs
  | timeout now user =>
    cases hp : s.pending user with
    | none => simp [step,hp] at hs
    | some c =>
      cases hf : s.fired user with
      | false => simp [step,hp,hf] at hs
      | true =>
        obtain ⟨r,hr,hi⟩ := h.timeout hc hp now ho
        simp only [step,hp,hf,if_true,hr,Option.map_some] at hs
        cases hs
        exact .inr hi
  | release now user worker =>
    obtain ⟨T,hT,hi⟩ := h.drop_release hc hu now
    simp only [step,hT,Option.map_some] at hs
    cases hs
    exact .inr hi
  | close =>
    simp only [step,Scheduler.close,if_neg hopen] at hs
    cases hs
    exact .inl rfl

/-- The invariant holds in every open state of a run in which timeouts meet only their own jobs. -/
theorem reachable_inv (h : Reachable {} (fun s e => s.Usage e ∧ s.OwnSlot e) step s)
    (hc : s.sched.closed = false) : s.Inv none := by
  have hi : s.sched.closed = true ∨ s.Inv none := by
    refine h.invariant (P := fun s => s.sched.closed = true ∨ s.Inv none) (.inr Inv.init) ?_
    rintro s e s' hP ⟨hu,ho⟩ hs
    cases hcl : s.sched.closed with
    | true => exact .inl (step_closed hcl hs)
    | false => exact step_inv (hP.resolve_left (by simp [hcl])) hcl hu ho hs
  exact hi.resolve_left (by simp [hc])

end System
end Pggat.Rob
