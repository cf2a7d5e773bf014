import Pggat.Rob.Steps

/-! The order in which waiting users are given workers. -/
namespace Pggat.Rob
open Pggat.Base
namespace Scheduler

@[simp] theorem detach_schedule (now : Int) (T : Scheduler) (id : Uuid) : (T.detach now id).schedule = T.schedule := by
  unfold detach
  split <;> rfl

@[simp] theorem detach_queue (now : Int) (T : Scheduler) (id : Uuid) : (T.detach now id).queue = T.queue := by
  unfold detach
  split <;> rfl

@[simp] theorem detach_floor (now : Int) (T : Scheduler) (id : Uuid) : (T.detach now id).floor = T.floor := by
  unfold detach
  split <;> rfl

@[simp] theorem detach_chans (now : Int) (T : Scheduler) (id : Uuid) : (T.detach now id).chans = T.chans := by
  unfold detach
  split <;> rfl

@[simp] theorem detach_closed (now : Int) (T : Scheduler) (id : Uuid) : (T.detach now id).closed = T.closed := by
  unfold detach
  split <;> rfl

def Uncharged (T : Scheduler) (user : Uuid) : Prop := ∀ id W, T.workers.get id = some W → W.user ≠ some user

variable {now : Int} {T : Scheduler} {id user : Uuid}

theorem detach_users (h : T.Uncharged user) :
    (T.detach now id).users.get user = T.users.get user := by
  unfold detach
  split
  · rename_i user' since hw
    rw [Map.get_modify,if_neg]
    rintro rfl
    exact h id _ hw rfl
  · rfl

theorem Uncharged.detach (h : T.Uncharged user) :
    (T.detach now id).Uncharged user := by
  unfold Scheduler.detach
  split
  · intro id' W hW
    rw [Map.get_insert] at hW
    split at hW
    · cases hW
      simp
    · exact h id' W hW
  · exact h

/-- A worker that is given back goes to the job with the least key, or to the queue when there is none. -/
theorem releaseWorker_cases {T' : Scheduler} (h : T.releaseWorker now id = some T') :
    (T.schedule.minEntry = none ∧ T' = { T.detach now id with queue := T.queue ++ [id] }) ∨
    ∃ k job, T.schedule.minEntry = some (k,job) ∧ T.chans job.ready = {} ∧ T' = { T.detach now id with
      floor := k
      schedule := T.schedule.erase k
      users := (T.detach now id).users.modify job.user fun u => { u with worker := some id, scheduled := false }
      workers := (T.detach now id).workers.insert id ⟨some job.user,now⟩
      chans := Function.update T.chans job.ready ⟨some id,false⟩ } := by
  simp only [releaseWorker,detach_schedule,detach_queue] at h
  split at h
  · rename_i hm
    cases h
    exact .inl ⟨hm,by simp only [detach_schedule]⟩
  · rename_i k job hm
    obtain ⟨hc,he⟩ := Option.ite_none_right_eq_some.mp h
    cases he
    simp only [detach_chans] at hc ⊢
    exact .inr ⟨k,job,hm,hc,by simp only [detach_queue]⟩

/-- What the first critical section of an `Acquire` that has to wait changes. -/
structure Enqueues (T T' : Scheduler) (user : Uuid) (u : User) (ready : Chan) (k : Int) : Prop where
  free : k = T.schedule.firstFree (max u.stride T.floor)
  queue : T'.queue = []
  floor : T'.floor = T.floor
  workers : T'.workers = T.workers
  schedule : T'.schedule = T.schedule.insert k ⟨user,ready⟩
  users : T'.users = T.users.insert user { u with stride := k, scheduled := true }
  chans : ∀ c id, (T'.chans c).buffered = some id → (T.chans c).buffered = some id

/-- `Acquire` is refused, takes the last worker of the queue, or waits because the queue is empty. -/
theorem acquire_spec (now : Int) (T : Scheduler) (user : Uuid) :
    T.acquire now user = (.refused,T) ∨
    (∃ u id, T.queue.getLast? = some id ∧ T.users.get user = some u ∧ T.acquire now user = (.worker id,{ T with
      queue := T.queue.dropLast
      users := T.users.insert user { u with worker := some id }
      workers := T.workers.insert id ⟨some user,now⟩ })) ∨
    ∃ u ready k T', T.queue = [] ∧ T.users.get user = some u ∧ T.acquire now user = (.wait ready,T') ∧
      Enqueues T T' user u ready k := by
  unfold acquire
  split
  · exact .inl rfl
  · split
    · exact .inl rfl
    · rename_i u hu
      split
      · rename_i id hq
        exact .inr (.inl ⟨u,id,hq,hu,rfl⟩)
      · rename_i hq
        have hempty : T.queue = [] := List.getLast?_eq_none_iff.mp hq
        refine .inr (.inr ?_)
        rcases hcc : T.cc with _ | ⟨c,cc⟩ <;> simp only [getChan,hcc]
        · refine ⟨u,_,_,_,hempty,hu,rfl,⟨rfl,hempty,rfl,rfl,rfl,rfl,fun c id h => ?_⟩⟩
          by_cases hc : c = T.nextChan
          · simp [hc] at h
          · simpa [hc] using h
        · exact ⟨u,_,_,_,hempty,hu,rfl,⟨rfl,hempty,rfl,rfl,rfl,rfl,fun _ _ h => h⟩⟩

/-- Workers and jobs do not wait side by side, and no job is below the floor. -/
structure Ordered (T : Scheduler) : Prop where
  apart : T.queue = [] ∨ ∀ k, T.schedule.get k = none
  above : ∀ k job, T.schedule.get k = some job → T.floor ≤ k

/-- A critical section keeps the order and does not lower the floor. -/
def Advances (T T' : Scheduler) : Prop := T.Ordered → T'.Ordered ∧ T.floor ≤ T'.floor

namespace Advances
variable {T T' T'' : Scheduler}

theorem refl (T : Scheduler) : Advances T T := fun h => ⟨h,Int.le_refl _⟩

private theorem trans (h : Advances T T') (h' : Advances T' T'') : Advances T T'' := by
  intro ho
  obtain ⟨ho',hf⟩ := h ho
  obtain ⟨ho'',hf'⟩ := h' ho'
  exact ⟨ho'',Int.le_trans hf hf'⟩

theorem shrink (hq : T.queue = [] → T'.queue = [])
    (hs : ∀ k job, T'.schedule.get k = some job → T.schedule.get k = some job) (hf : T'.floor = T.floor) :
    Advances T T' := by
  intro h
  refine ⟨⟨h.apart.imp hq fun hnone k => ?_,fun k job hk => hf ▸ h.above k job (hs k job hk)⟩,Int.le_of_eq hf.symm⟩
  cases hk : T'.schedule.get k with
  | none => rfl
  | some job => exact absurd (hs k job hk) (by simp [hnone k])

theorem same (hq : T'.queue = T.queue) (hs : T'.schedule = T.schedule) (hf : T'.floor = T.floor) : Advances T T' :=
  shrink (fun h => hq.trans h) (fun _ _ h => hs ▸ h) hf

variable {now : Int} {id : Uuid}

theorem releaseWorker (h : T.releaseWorker now id = some T') : Advances T T' := by
  intro ho
  rcases releaseWorker_cases h with ⟨hmin,rfl⟩ | ⟨k,job,hmin,_,rfl⟩
  · have hnone := Map.minEntry_eq_none.mp hmin
    simp only [detach_floor]
    exact ⟨⟨.inr (by simpa using hnone),by simp [hnone]⟩,Int.le_refl _⟩
  · have hk := Map.get_minEntry hmin
    have hqueue : T.queue = [] := ho.apart.resolve_right fun hnone => by simp [hnone k] at hk
    refine ⟨⟨.inl (by simpa using hqueue),?_⟩,ho.above k job hk⟩
    intro k' job' hk'
    simp only [Map.get_erase] at hk'
    split at hk'
    · cases hk'
    · exact Map.minEntry_le hmin ((Map.mem_iff _ _).mpr ⟨job',hk'⟩)

theorem release (h : T.release now id = some T') : Advances T T' := by
  unfold Scheduler.release at h
  split at h
  · cases h
    exact refl T
  · split at h
    · cases h
      exact refl T
    · exact releaseWorker h

theorem addWorker (h : T.addWorker now id = some T') : Advances T T' := by
  unfold Scheduler.addWorker at h
  split at h
  · cases h
    exact refl T
  · refine trans ?_ (releaseWorker h)
    exact same rfl rfl rfl

theorem deleteWorker (T : Scheduler) (id : Uuid) : Advances T (T.deleteWorker id) := by
  unfold Scheduler.deleteWorker
  split
  · exact refl T
  · split
    · exact refl T
    · exact shrink (fun h => by simp [h]) (fun _ _ h => h) rfl

theorem addUser (T : Scheduler) (id : Uuid) : Advances T (T.addUser id) := by
  unfold Scheduler.addUser
  split
  · exact refl T
  · exact same rfl rfl rfl

private theorem erase {k : Int} (hq : T'.queue = T.queue) (hs : T'.schedule = T.schedule.erase k)
    (hf : T'.floor = T.floor) :
    Advances T T' := by
  refine shrink (fun h => hq.trans h) (fun k' job hk => ?_) hf
  rw [hs,Map.get_erase] at hk
  split at hk
  · cases hk
  · exact hk

theorem deleteUser (T : Scheduler) (id : Uuid) : Advances T (T.deleteUser id) := by
  unfold Scheduler.deleteUser
  split
  · exact refl T
  · split
    · exact refl T
    · dsimp only
      split
      · split
        · exact erase rfl rfl rfl
        · exact same rfl rfl rfl
      · exact same rfl rfl rfl

theorem acquire (now : Int) (T : Scheduler) (user : Uuid) : Advances T (T.acquire now user).2 := by
  rcases acquire_spec now T user with he | ⟨u,id,_,_,he⟩ | ⟨u,ready,k,T',_,_,he,henq⟩
  · rw [he]
    exact refl T
  · rw [he]
    exact shrink (fun h => by simp [h]) (fun _ _ h => h) rfl
  · rw [he]
    intro ho
    refine ⟨⟨.inl henq.queue,fun k' job hk => ?_⟩,Int.le_of_eq henq.floor.symm⟩
    rw [henq.schedule,Map.get_insert] at hk
    rw [henq.floor]
    split at hk
    · rename_i hkk
      have hle := Map.le_firstFree T.schedule (max u.stride T.floor)
      rw [← henq.free] at hle
      omega
    · exact ho.above k' job hk

theorem close (T : Scheduler) : Advances T T.close := by
  unfold Scheduler.close
  split
  · exact refl T
  · intro _
    refine ⟨⟨.inl rfl,by simp⟩,?_⟩
    have hfold : ∀ (l : List (Sigma fun _ : Int => Job)) (T : Scheduler),
        (l.foldl (fun T e => T.shut e.2.ready) T).floor = T.floor := by
      intro l
      induction l with
      | nil => exact fun _ => rfl
      | cons e l ih => exact fun T => ih (T.shut e.2.ready)
    exact Int.le_of_eq (hfold _ T).symm

end Advances
end Scheduler
end Pggat.Rob
