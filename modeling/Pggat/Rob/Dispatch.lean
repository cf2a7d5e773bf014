import Pggat.Rob.Order

/-! The critical sections of runs without timeouts, and what they send: a worker reaches a waiting user only by the
dispatch of the job with the least key. -/
namespace Pggat.Rob
open Pggat.Base
namespace Scheduler

/-- What a step of a run without timeouts does to the scheduler. -/
inductive Section (T : Scheduler) : Scheduler → Prop
  | pass : Section T T
  | drain (c : Chan) : Section T (T.drain c)
  | putChan (c : Chan) : Section T (T.putChan c)
  | addWorker {now : Int} {id : Uuid} {T' : Scheduler} (h : T.addWorker now id = some T') : Section T T'
  | deleteWorker (id : Uuid) : Section T (T.deleteWorker id)
  | addUser (id : Uuid) : Section T (T.addUser id)
  | deleteUser (id : Uuid) : Section T (T.deleteUser id)
  | acquire (now : Int) (user : Uuid) : Section T (T.acquire now user).2
  | release {now : Int} {id : Uuid} {T' : Scheduler} (h : T.release now id = some T') : Section T T'
  | close : Section T T.close

/-- The job under key `k` is taken from the schedule and worker `id` is sent on its channel. -/
structure Dispatches (T T' : Scheduler) (k : Int) (job : Job) (id : Uuid) : Prop where
  waiting : T.schedule.get k = some job
  schedule : T'.schedule = T.schedule.erase k
  sent : T'.chans = Function.update T.chans job.ready ⟨some id,false⟩
  user : ∃ since, T'.workers.get id = some ⟨some job.user,since⟩

def Silent (T T' : Scheduler) : Prop := ∀ c id, (T'.chans c).buffered = some id → (T.chans c).buffered = some id

/-- A critical section sends nothing, or dispatches the job with the least key. -/
def SendsLeast (T T' : Scheduler) : Prop :=
  Silent T T' ∨ ∃ k job id, T.Dispatches T' k job id ∧ ∀ k' job', T.schedule.get k' = some job' → k ≤ k'

variable {T T' : Scheduler}

theorem Silent.same (h : T'.chans = T.chans) : Silent T T' := fun c id hb => by
  rw [h] at hb
  exact hb

variable {now : Int} {id : Uuid}

theorem releaseWorker_sends (h : T.releaseWorker now id = some T') :
    SendsLeast T T' := by
  rcases releaseWorker_cases h with ⟨_,rfl⟩ | ⟨k,job,hmin,_,rfl⟩
  · exact .inl (.same (by simp))
  · refine .inr ⟨k,job,id,⟨Map.get_minEntry hmin,rfl,rfl,⟨now,by simp⟩⟩,fun k' job' hk' => ?_⟩
    exact Map.minEntry_le hmin ((Map.mem_iff _ _).mpr ⟨job',hk'⟩)

theorem release_sends (h : T.release now id = some T') :
    SendsLeast T T' := by
  unfold release at h
  split at h
  · cases h
    exact .inl (.same rfl)
  · split at h
    · cases h
      exact .inl (.same rfl)
    · exact releaseWorker_sends h

theorem addWorker_sends (h : T.addWorker now id = some T') :
    SendsLeast T T' := by
  unfold addWorker at h
  split at h
  · cases h
    exact .inl (.same rfl)
  · rcases releaseWorker_sends h with hs | ⟨k,job,id',hd,hle⟩
    · exact .inl hs
    · exact .inr ⟨k,job,id',⟨hd.waiting,hd.schedule,hd.sent,hd.user⟩,hle⟩

theorem shut_silent (T : Scheduler) (c : Chan) : Silent T (T.shut c) := by
  intro c' id h
  by_cases hc : c' = c
  · simpa [shut,hc] using h
  · simpa [shut,hc] using h

theorem drain_silent (T : Scheduler) (c : Chan) : Silent T (T.drain c) := by
  intro c' id h
  by_cases hc : c' = c
  · simp [drain,hc] at h
  · simpa [drain,hc] using h

theorem deleteUser_silent (T : Scheduler) (id : Uuid) : Silent T (T.deleteUser id) := by
  unfold deleteUser
  split
  · exact .same rfl
  · split
    · exact .same rfl
    · dsimp only
      split
      · split
        · exact shut_silent _ _
        · exact .same rfl
      · exact .same rfl

private theorem acquire_silent (now : Int) (T : Scheduler) (user : Uuid) : Silent T (T.acquire now user).2 := by
  rcases acquire_spec now T user with he | ⟨u,id,_,_,he⟩ | ⟨u,ready,k,T',_,_,he,henq⟩
  · rw [he]
    exact .same rfl
  · rw [he]
    exact .same rfl
  · rw [he]
    exact henq.chans

private theorem close_silent (T : Scheduler) : Silent T T.close := by
  unfold close
  split
  · exact .same rfl
  · have hfold : ∀ (l : List (Sigma fun _ : Int => Job)) (T : Scheduler),
        Silent T (l.foldl (fun T e => T.shut e.2.ready) T) := by
      intro l
      induction l with
      | nil => exact fun _ => .same rfl
      | cons e l ih => exact fun T c id h => shut_silent T e.2.ready c id (ih (T.shut e.2.ready) c id h)
    exact hfold _ T

theorem Section.advances (h : Section T T') : Advances T T' := by
  cases h with
  | pass => exact .refl T
  | drain c | putChan c => exact .same rfl rfl rfl
  | addWorker h => exact .addWorker h
  | deleteWorker id => exact .deleteWorker T id
  | addUser id => exact .addUser T id
  | deleteUser id => exact .deleteUser T id
  | acquire now user => exact .acquire now T user
  | release h => exact .release h
  | close => exact .close T

theorem Section.sendsLeast (h : Section T T') : SendsLeast T T' := by
  cases h with
  | pass | putChan c => exact .inl (.same rfl)
  | drain c => exact .inl (drain_silent T c)
  | addWorker h => exact addWorker_sends h
  | deleteWorker id =>
    unfold Scheduler.deleteWorker
    split
    · exact .inl (.same rfl)
    · split <;> exact .inl (.same rfl)
  | addUser id =>
    unfold Scheduler.addUser
    split <;> exact .inl (.same rfl)
  | deleteUser id => exact .inl (deleteUser_silent T id)
  | acquire now user => exact .inl (acquire_silent now T user)
  | release h => exact release_sends h
  | close => exact .inl (close_silent T)

/-- A critical section neither opens nor closes the scheduler, and when it is closed the schedule stays. -/
structure Stays (T T' : Scheduler) : Prop where
  closed : T'.closed = T.closed
  schedule : T.closed = true → T'.schedule = T.schedule

namespace Stays
variable {T T' : Scheduler}

theorem same (hc : T'.closed = T.closed) (hs : T'.schedule = T.schedule) : Stays T T' := ⟨hc,fun _ => hs⟩

theorem opened (ho : ¬ T.closed = true) (hc : T'.closed = T.closed) : Stays T T' := ⟨hc,fun h => absurd h ho⟩

variable {now : Int} {id : Uuid}

theorem releaseWorker (ho : ¬ T.closed = true) (h : T.releaseWorker now id = some T') :
    Stays T T' := by
  rcases releaseWorker_cases h with ⟨_,rfl⟩ | ⟨k,job,_,_,rfl⟩ <;> exact opened ho (by simp)

private theorem release (h : T.release now id = some T') : Stays T T' := by
  unfold Scheduler.release at h
  split at h
  · cases h
    exact same rfl rfl
  · rename_i ho
    split at h
    · cases h
      exact same rfl rfl
    · exact releaseWorker ho h

private theorem addWorker (h : T.addWorker now id = some T') : Stays T T' := by
  unfold Scheduler.addWorker at h
  split at h
  · cases h
    exact same rfl rfl
  · rename_i ho
    obtain ⟨hc,_⟩ := releaseWorker (T := { T with workers := T.workers.insert id {} }) ho h
    exact opened ho hc

private theorem deleteUser (T : Scheduler) (id : Uuid) : Stays T (T.deleteUser id) := by
  unfold Scheduler.deleteUser
  split
  · exact same rfl rfl
  · rename_i ho
    split
    · exact same rfl rfl
    · dsimp only
      split
      · split <;> exact opened ho rfl
      · exact opened ho rfl

private theorem acquire (now : Int) (T : Scheduler) (user : Uuid) : Stays T (T.acquire now user).2 := by
  unfold Scheduler.acquire
  split
  · exact same rfl rfl
  · rename_i ho
    split
    · exact same rfl rfl
    · split
      · exact same rfl rfl
      · refine opened ho ?_
        rcases hcc : T.cc with _ | ⟨c,cc⟩ <;> simp only [getChan,hcc]

theorem step (h : Section T T') : T' = T.close ∨ Stays T T' := by
  cases h with
  | pass | drain c | putChan c => exact .inr (same rfl rfl)
  | addWorker h => exact .inr (addWorker h)
  | deleteWorker id =>
    unfold Scheduler.deleteWorker
    split
    · exact .inr (same rfl rfl)
    · split <;> exact .inr (same rfl rfl)
  | addUser id =>
    unfold Scheduler.addUser
    split <;> exact .inr (same rfl rfl)
  | deleteUser id => exact .inr (deleteUser T id)
  | acquire now user => exact .inr (acquire now T user)
  | release h => exact .inr (release h)
  | close => exact .inl rfl

end Stays

end Scheduler
end Pggat.Rob
