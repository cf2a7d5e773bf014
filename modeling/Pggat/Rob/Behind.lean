import Pggat.Rob.Dispatch

/-! Users that come after a waiting job, and users that no worker is charged to. -/
namespace Pggat.Rob
open Pggat.Base
namespace Scheduler

/-- The job under key `k` waits, and the user comes after it. -/
structure Behind (T : Scheduler) (k : Int) (job : Job) (user : Uuid) : Prop where
  waits : T.schedule.get k = some job
  stride : ∀ u, T.users.get user = some u → k < u.stride
  later : ∀ k' j, T.schedule.get k' = some j → j.user = user → k < k'
  uncharged : T.Uncharged user

namespace Behind
variable {T T' : Scheduler} {k : Int} {job : Job} {user : Uuid} (h : T.Behind k job user)
include h

theorem congr (hs : T'.schedule = T.schedule) (hu : T'.users = T.users) (hw : T'.workers = T.workers) :
    T'.Behind k job user where
  waits := by rw [hs]; exact h.waits
  stride := by rw [hu]; exact h.stride
  later := by rw [hs]; exact h.later
  uncharged := by
    unfold Uncharged
    rw [hw]
    exact h.uncharged

variable {now : Int} {id : Uuid}

theorem releaseWorker (hr : T.releaseWorker now id = some T')
    (hd : ∀ id, ¬ T.Dispatches T' k job id) : T'.Behind k job user := by
  rcases releaseWorker_cases hr with ⟨hmin,_⟩ | ⟨k₀,job₀,hmin,_,rfl⟩
  · have hk := h.waits
    rw [Map.minEntry_eq_none.mp hmin k] at hk
    cases hk
  · have hk₀ := Map.get_minEntry hmin
    have hle := Map.minEntry_le hmin ((Map.mem_iff _ _).mpr ⟨job,h.waits⟩)
    have hne : k ≠ k₀ := by
      rintro rfl
      rw [h.waits] at hk₀
      cases hk₀
      exact hd id ⟨h.waits,rfl,rfl,now,by simp⟩
    have huser : user ≠ job₀.user := by
      intro he
      have := h.later k₀ job₀ hk₀ he.symm
      omega
    refine ⟨?_,?_,?_,?_⟩
    · simpa [hne] using h.waits
    · simpa [huser,detach_users h.uncharged] using h.stride
    · intro k' j hk'
      simp only [Map.get_erase] at hk'
      split at hk'
      · cases hk'
      · exact h.later k' j hk'
    · intro id' W hW
      simp only [Map.get_insert] at hW
      split at hW
      · cases hW
        simpa using huser.symm
      · exact h.uncharged.detach id' W hW

theorem release (hr : T.release now id = some T') (hd : ∀ id, ¬ T.Dispatches T' k job id) :
    T'.Behind k job user := by
  unfold Scheduler.release at hr
  split at hr
  · cases hr
    exact h
  · split at hr
    · cases hr
      exact h
    · exact h.releaseWorker hr hd

theorem addWorker (hr : T.addWorker now id = some T')
    (hd : ∀ id, ¬ T.Dispatches T' k job id) : T'.Behind k job user := by
  unfold Scheduler.addWorker at hr
  split at hr
  · cases hr
    exact h
  · have h₀ : Behind { T with workers := T.workers.insert id {} } k job user := by
      refine ⟨h.waits,h.stride,h.later,fun id' W hW => ?_⟩
      simp only [Map.get_insert] at hW
      split at hW
      · cases hW
        simp
      · exact h.uncharged id' W hW
    exact h₀.releaseWorker hr fun id' hd' => hd id' ⟨hd'.waiting,hd'.schedule,hd'.sent,hd'.user⟩

theorem deleteWorker (id : Uuid) : (T.deleteWorker id).Behind k job user := by
  unfold Scheduler.deleteWorker
  split
  · exact h
  · split
    · exact h
    · refine ⟨h.waits,h.stride,h.later,fun id' W hW => ?_⟩
      simp only [Map.get_erase] at hW
      split at hW
      · cases hW
      · exact h.uncharged id' W hW

theorem addUser (hid : id ≠ user) : (T.addUser id).Behind k job user := by
  unfold Scheduler.addUser
  split
  · exact h
  · exact ⟨h.waits,by simpa [hid.symm] using h.stride,h.later,h.uncharged⟩

theorem deleteUser (hid : id ≠ job.user)
    (hown : ∀ u, T.users.get id = some u → u.scheduled = true → ∃ j, T.schedule.get u.stride = some j ∧ j.user = id) :
    (T.deleteUser id).Behind k job user := by
  have hstride : ∀ u, Map.get (T.users.erase id) user = some u → k < u.stride := by
    intro u hu
    rw [Map.get_erase] at hu
    split at hu
    · cases hu
    · exact h.stride u hu
  unfold Scheduler.deleteUser
  split
  · exact h
  · split
    · exact h
    · rename_i u hu
      dsimp only
      split
      · rename_i hs
        obtain ⟨j,hj,hju⟩ := hown u hu hs
        have hne : k ≠ u.stride := by
          rintro rfl
          rw [h.waits] at hj
          cases hj
          exact hid hju.symm
        rw [hj]
        refine ⟨?_,hstride,?_,h.uncharged⟩
        · simpa [shut,hne] using h.waits
        · intro k' j' hk'
          simp only [Map.get_erase] at hk'
          split at hk'
          · cases hk'
          · exact h.later k' j' hk'
      · exact ⟨h.waits,hstride,h.later,h.uncharged⟩

theorem acquire (ho : T.Ordered) (now : Int) (id : Uuid) :
    (∀ worker, (T.acquire now id).1 ≠ .worker worker) ∧ (T.acquire now id).2.Behind k job user := by
  rcases acquire_spec now T id with he | ⟨u,w,hq,_,_⟩ | ⟨u,ready,k₁,T',_,hu,he,henq⟩
  · rw [he]
    exact ⟨nofun,h⟩
  · rcases ho.apart with hnil | hnone
    · rw [hnil] at hq
      cases hq
    · have hk := h.waits
      rw [hnone k] at hk
      cases hk
  · rw [he]
    have hfree := Map.get_firstFree T.schedule (max u.stride T.floor)
    have hle := Map.le_firstFree T.schedule (max u.stride T.floor)
    rw [← henq.free] at hfree hle
    have hne : k ≠ k₁ := by
      rintro rfl
      rw [h.waits] at hfree
      cases hfree
    have hkey : id = user → k < k₁ := by
      rintro rfl
      have := h.stride u hu
      omega
    refine ⟨nofun,?_,?_,?_,?_⟩
    · rw [henq.schedule]
      simpa [hne] using h.waits
    · intro v hv
      rw [henq.users,Map.get_insert] at hv
      split at hv
      · rename_i hid
        cases hv
        exact hkey hid.symm
      · exact h.stride v hv
    · intro k' j hk' hj
      rw [henq.schedule,Map.get_insert] at hk'
      split at hk'
      · rename_i hkk
        cases hk'
        exact hkk ▸ hkey hj
      · exact h.later k' j hk' hj
    · intro w W hW
      rw [henq.workers] at hW
      exact h.uncharged w W hW

end Behind

/-- A user that is neither registered nor waiting. -/
structure Absent (T : Scheduler) (user : Uuid) : Prop where
  unregistered : T.users.get user = none
  jobless : ∀ k job, T.schedule.get k = some job → job.user ≠ user

namespace Uncharged
variable {T T' : Scheduler} {user : Uuid} (h : T.Uncharged user)
include h

variable {now : Int} {id : Uuid}

theorem releaseWorker (ha : T.Absent user) (hr : T.releaseWorker now id = some T') :
    T'.Uncharged user := by
  rcases releaseWorker_cases hr with ⟨_,rfl⟩ | ⟨k,job,hmin,_,rfl⟩
  · exact h.detach
  · intro id' W hW
    simp only [Map.get_insert] at hW
    split at hW
    · cases hW
      simpa using ha.jobless k job (Map.get_minEntry hmin)
    · exact h.detach id' W hW

theorem release (ha : T.Absent user) (hr : T.release now id = some T') : T'.Uncharged user := by
  unfold Scheduler.release at hr
  split at hr
  · cases hr
    exact h
  · split at hr
    · cases hr
      exact h
    · exact h.releaseWorker ha hr

private theorem addWorker (ha : T.Absent user) (hr : T.addWorker now id = some T') :
    T'.Uncharged user := by
  unfold Scheduler.addWorker at hr
  split at hr
  · cases hr
    exact h
  · have h₀ : Uncharged { T with workers := T.workers.insert id {} } user := by
      intro id' W hW
      simp only [Map.get_insert] at hW
      split at hW
      · cases hW
        simp
      · exact h id' W hW
    exact h₀.releaseWorker ⟨ha.unregistered,ha.jobless⟩ hr

private theorem deleteWorker (id : Uuid) : (T.deleteWorker id).Uncharged user := by
  unfold Scheduler.deleteWorker
  split
  · exact h
  · split
    · exact h
    · intro id' W hW
      simp only [Map.get_erase] at hW
      split at hW
      · cases hW
      · exact h id' W hW

private theorem acquire (ha : T.Absent user) (now : Int) (id : Uuid) : (T.acquire now id).2.Uncharged user := by
  rcases acquire_spec now T id with he | ⟨u,w,_,hu,he⟩ | ⟨u,ready,k,T',_,_,he,henq⟩
  · rw [he]
    exact h
  · rw [he]
    intro id' W hW
    simp only [Map.get_insert] at hW
    split at hW
    · cases hW
      rintro ⟨⟩
      rw [ha.unregistered] at hu
      cases hu
    · exact h id' W hW
  · rw [he]
    intro id' W hW
    rw [henq.workers] at hW
    exact h id' W hW

theorem step (ha : T.Absent user) (hs : Section T T') : T'.Uncharged user := by
  cases hs with
  | pass | drain c | putChan c => exact h
  | addWorker hr => exact h.addWorker ha hr
  | deleteWorker id => exact h.deleteWorker id
  | addUser id =>
    unfold Scheduler.addUser
    split <;> exact h
  | deleteUser id =>
    unfold Scheduler.deleteUser
    split
    · exact h
    · split
      · exact h
      · dsimp only
        split
        · split <;> exact h
        · exact h
  | acquire now id => exact h.acquire ha now id
  | release hr => exact h.release ha hr
  | close =>
    unfold Scheduler.close
    split
    · exact h
    · intro id W hW
      cases hW

end Uncharged

end Scheduler
end Pggat.Rob
