import Pggat.Rob.Steps

/-! What the end of one user's wait does to the jobs of the others, and how the waiting users,
the jobs and `Waiters` correspond in every state. -/
namespace Pggat.Rob
open Pggat.Base

/-- Handing a worker on takes at most the least job, to whose channel the worker goes. -/
theorem Scheduler.releaseWorker_schedule {now : Int} {T T' : Scheduler} {id : Uuid}
    (h : T.releaseWorker now id = some T') :
    (T.schedule.minEntry = none ∧ T'.schedule = T.schedule) ∨
    ∃ k j, T.schedule.minEntry = some (k,j) ∧ T'.schedule = T.schedule.erase k ∧
      T'.chans j.ready = ⟨some id,false⟩ := by
  have hd : (T.detach now id).schedule = T.schedule := by
    unfold Scheduler.detach
    split <;> rfl
  simp only [Scheduler.releaseWorker,hd] at h
  cases hm : T.schedule.minEntry with
  | none =>
    simp only [hm] at h
    cases h
    exact .inl ⟨rfl,rfl⟩
  | some e =>
    simp only [hm,Scheduler.send] at h
    split at h
    · cases h
      exact .inr ⟨e.1,e.2,rfl,rfl,by simp⟩
    · cases h

namespace System

/-- Every job of a user other than `user` is still there, with the same key and channel. -/
def OthersKept (s s' : System) (user : Uuid) : Prop :=
  ∀ k j, s.sched.schedule.get k = some j → j.user ≠ user → s'.sched.schedule.get k = some j

/-- `user` was removed with a worker in its channel. That worker goes to the least job, and every
other job is still there. -/
def HandedOn (s s' : System) (user : Uuid) : Prop :=
  s.sched.users.get user = none ∧
  ∃ id, s.At id (.bufferedFor user) ∧
  ∃ k j, s.sched.schedule.minEntry = some (k,j) ∧ s'.sched.chans j.ready = ⟨some id,false⟩ ∧
    ∀ k' j', s.sched.schedule.get k' = some j' → k' ≠ k → s'.sched.schedule.get k' = some j'

/-- A blocked `Acquire` owns exactly one job and an empty channel, or none and its channel is ready. -/
def Served (s : System) (user : Uuid) (c : Chan) : Prop :=
  ((∃! e : Int × Job, s.sched.schedule.get e.1 = some e.2 ∧ e.2.user = user) ∧
    (∃ k, s.sched.schedule.get k = some ⟨user,c⟩) ∧ (s.sched.chans c).receive = .empty) ∨
  ((∀ k j, s.sched.schedule.get k = some j → j.user ≠ user) ∧
    ((∃ id, (s.sched.chans c).receive = .value id) ∨ (s.sched.chans c).receive = .closed))

variable {s : System} {user : Uuid}

theorem othersKept_erase {s' : System} {k : Int} {j : Job} (hj : s.sched.schedule.get k = some j)
    (hju : j.user = user) (hs : s'.sched.schedule = s.sched.schedule.erase k) : s.OthersKept s' user := by
  intro k' i hi hne
  have hk : k' ≠ k := by
    rintro rfl
    cases hj.symm.trans hi
    exact hne hju
  simp [hs,hk,hi]

/-- What a timed out `Acquire` of a removed user does with the worker in its channel. -/
theorem timeout_removed (hc : s.sched.closed = false) {c : Chan} {id : Uuid} {now : Int}
    {T : Scheduler} (hu : s.sched.users.get user = none) (hp : s.pending user = some c)
    (hb : (s.sched.chans c).buffered = some id)
    (hT : ((s.sched.drain c).putChan c).release now id = some T) :
    s.OthersKept { s.finish user none with sched := T } user ∨ s.HandedOn { s.finish user none with sched := T } user := by
  have hopen : ¬ ((s.sched.drain c).putChan c).closed = true := by simpa [Scheduler.putChan,Scheduler.drain] using hc
  simp only [Scheduler.release,if_neg hopen] at hT
  split at hT
  · cases hT
    exact .inl fun k j hj _ => hj
  · rcases Scheduler.releaseWorker_schedule hT with ⟨_,he⟩ | ⟨k,j,hm,he,hch⟩
    · refine .inl fun k j hj _ => ?_
      rw [he]
      exact hj
    · refine .inr ⟨hu,id,⟨c,hp,hb⟩,k,j,hm,hch,?_⟩
      intro k' j' hj' hne
      simp only [he,Map.get_erase,if_neg hne]
      exact hj'

namespace Inv
variable {s s' : System} {user : Uuid}

theorem job_key (h : s.Inv none) {k : Int} {j : Job} {u : User} (hj : s.sched.schedule.get k = some j)
    (hu : s.sched.users.get j.user = some u) : k = u.stride := by
  obtain ⟨_,_,v,hv,_,hk⟩ := h.job k j hj
  cases hu.symm.trans hv
  exact hk.symm

theorem deleteUser_kept (h : s.Inv none) (hc : s.sched.closed = false)
    (hs : s.step (.deleteUser user) = some s') : s.OthersKept s' user := by
  have hopen : ¬ s.sched.closed = true := by simp [hc]
  cases hs
  cases hu : s.sched.users.get user with
  | none =>
    intro k j hj _
    simpa only [Scheduler.deleteUser,if_neg hopen,hu] using hj
  | some u =>
    by_cases hsch : u.scheduled = true
    · obtain ⟨c,_,_,hj⟩ := h.own_job hu hsch
      refine othersKept_erase hj rfl ?_
      simp only [Scheduler.deleteUser,if_neg hopen,hu,hsch,if_true,hj]
    · intro k j hj _
      simpa only [Scheduler.deleteUser,if_neg hopen,hu,if_neg hsch] using hj

theorem timeout_kept (h : s.Inv none) (hc : s.sched.closed = false) {now : Int} (ho : s.OwnSlot (.timeout now user))
    (hs : s.step (.timeout now user) = some s') : s.OthersKept s' user ∨ s.HandedOn s' user := by
  cases hp : s.pending user with
  | none => simp [step,hp] at hs
  | some c =>
    cases hf : s.fired user with
    | false => simp [step,hp,hf] at hs
    | true =>
      simp only [step,hp,hf,if_true] at hs
      obtain ⟨r,hr,rfl⟩ := Option.map_eq_some_iff.mp hs
      unfold Scheduler.timeout at hr
      cases hu : s.sched.users.get user with
      | none =>
        cases hrec : (s.sched.chans c).receive with
        | value id =>
          simp only [hu,hrec] at hr
          obtain ⟨T,hT,rfl⟩ := Option.map_eq_some_iff.mp hr
          refine timeout_removed hc hu hp ?_ hT
          grind [Channel.receive]
        | closed | empty =>
          simp only [hu,hrec] at hr
          cases hr
          exact .inl fun k j hj _ => hj
      | some u =>
        cases hj : s.sched.schedule.get u.stride with
        | some j =>
          obtain ⟨hpj,_⟩ := h.job _ _ hj
          have hcj : j.ready = c := ho c hp u hu j hj
          simp only [hu,hj] at hr
          cases hr
          exact .inl (othersKept_erase hj (h.separate _ _ _ hpj (hcj ▸ hp)) rfl)
        | none =>
          refine .inl fun k j hk _ => ?_
          simp only [hu,hj] at hr
          split at hr <;> cases hr <;> exact hk

theorem served (h : s.Inv none) {c : Chan} (hp : s.pending user = some c) : s.Served user c := by
  have hnone : (∀ u, s.sched.users.get user = some u → u.scheduled = false) →
      ∀ k j, s.sched.schedule.get k = some j → j.user ≠ user := by
    rintro hns k j hj rfl
    obtain ⟨_,_,u,hu,hsu,_⟩ := h.job k j hj
    simp [hns u hu] at hsu
  have hbusy : s.sched.chans c ≠ {} → ∀ u, s.sched.users.get user = some u → u.scheduled = false := by
    intro hne u hu
    by_contra hs
    obtain ⟨c',hp',he,_⟩ := h.own_job hu (by simpa using hs)
    cases hp.symm.trans hp'
    exact hne he
  rcases h.waits user c hp with ⟨u,hu,hs⟩ | ⟨id,hb⟩ | ⟨hb,hn⟩
  · obtain ⟨c',hp',he,hj⟩ := h.own_job hu hs
    cases hp.symm.trans hp'
    refine .inl ⟨⟨(u.stride,⟨user,c⟩),⟨hj,rfl⟩,?_⟩,⟨u.stride,hj⟩,by simp [Channel.receive,he]⟩
    rintro ⟨k,j⟩ ⟨hk,hju⟩
    obtain rfl : k = u.stride := h.job_key hk (hju ▸ hu)
    cases hk.symm.trans hj
    rfl
  · exact .inr ⟨hnone (hbusy (by simp [hb])),.inl ⟨id,by simp [Channel.receive,hb]⟩⟩
  · exact .inr ⟨hnone (by simp [hn]),.inr (by simp [Channel.receive,hb])⟩

private theorem strides_perm (h : s.Inv none) :
    ((s.sched.users.entries.filter fun e => e.2.scheduled).map fun e => e.2.stride).Perm s.sched.schedule.keys := by
  have hnd : s.sched.users.entries.Nodup := List.Nodup.of_map _ s.sched.users.nodupKeys
  refine (List.perm_ext_iff_of_nodup ?_ s.sched.schedule.nodupKeys).mpr ?_
  · refine List.Nodup.map_on ?_ (hnd.filter _)
    rintro ⟨user,u⟩ hu ⟨user',u'⟩ hu' he
    obtain ⟨hu,hs⟩ := List.mem_filter.mp hu
    obtain ⟨hu',hs'⟩ := List.mem_filter.mp hu'
    obtain ⟨_,_,_,hj⟩ := h.own_job ((Map.mem_entries _ _ _).mp hu) hs
    obtain ⟨_,_,_,hj'⟩ := h.own_job ((Map.mem_entries _ _ _).mp hu') hs'
    dsimp only at he
    rw [he] at hj
    cases hj.symm.trans hj'
    have hv := ((Map.mem_entries _ _ _).mp hu).symm.trans ((Map.mem_entries _ _ _).mp hu')
    cases hv
    rfl
  · intro k
    rw [List.mem_map]
    constructor
    · rintro ⟨⟨user,u⟩,hu,rfl⟩
      obtain ⟨hu,hs⟩ := List.mem_filter.mp hu
      obtain ⟨_,_,_,hj⟩ := h.own_job ((Map.mem_entries _ _ _).mp hu) hs
      exact (Map.mem_iff _ _).mpr ⟨_,hj⟩
    · intro hk
      obtain ⟨j,hj⟩ := (Map.mem_iff s.sched.schedule k).mp hk
      obtain ⟨_,_,u,hu,hs,hk⟩ := h.job k j hj
      exact ⟨⟨j.user,u⟩,List.mem_filter.mpr ⟨(Map.mem_entries _ _ _).mpr hu,hs⟩,hk⟩

private theorem waiters_eq (h : s.Inv none) : s.sched.waiters = s.sched.schedule.entries.length := by
  have hl := h.strides_perm.length_eq
  simpa [Scheduler.waiters,AList.keys,List.keys] using hl

end Inv

/-- In every open state of a run whose timeouts meet only their own jobs, a removal keeps the jobs of the
other users, a timeout keeps them or hands a removed user's worker to the least one, every blocked
`Acquire` is served, and `Waiters` counts the jobs. -/
theorem waits_end_in_isolation {s : System} (h : Reachable {} (fun s e => s.Usage e ∧ s.OwnSlot e) step s)
    (hc : s.sched.closed = false) :
    (∀ user s', s.step (.deleteUser user) = some s' → s.OthersKept s' user) ∧
    (∀ now user s', s.OwnSlot (.timeout now user) → s.step (.timeout now user) = some s' →
      s.OthersKept s' user ∨ s.HandedOn s' user) ∧
    (∀ user c, s.pending user = some c → s.Served user c) ∧
    s.sched.waiters = s.sched.schedule.entries.length := by
  have hi := reachable_inv h hc
  exact ⟨fun _ _ => hi.deleteUser_kept hc,fun _ _ _ => hi.timeout_kept hc,fun _ _ => hi.served,hi.waiters_eq⟩

def twoWaiters : List Event := [.addUser 1, .addUser 2, .acquire 0 1 true, .acquire 0 2 false, .timer 1]

theorem waits_end_in_isolation_twoWaiters :
    ∃ s s', run (fun s e => s.Usage e ∧ s.OwnSlot e) step {} twoWaiters = some s ∧
      s.step (.timeout 0 1) = some s' ∧ s.sched.waiters = 2 ∧ s'.sched.waiters = 1 ∧
      (s.OthersKept s' 1 ∨ s.HandedOn s' 1) ∧ s.Served 2 1 := by
  refine ⟨_,_,rfl,rfl,rfl,rfl,?_⟩
  have h := waits_end_in_isolation (Reachable.of_run .start (fun _ _ => id) twoWaiters rfl) rfl
  exact ⟨h.2.1 0 1 _ (by decide) rfl,h.2.2.1 2 1 rfl⟩

/-- User 1 is removed with worker 10 in its channel, and user 2 waits. -/
def removedUser : List Event := [.addUser 1, .acquire 0 1 true, .addWorker 0 10, .addUser 2, .acquire 0 2 false,
  .deleteUser 1, .timer 1]

/-- User 2 takes the slot of user 1 whose job was dispatched. -/
def sharedSlot : List Event := [.addUser 1, .addUser 2, .acquire 0 1 true, .addWorker 0 10, .acquire 0 2 false, .timer 1]

/-- A timeout of user 1 takes the job of user 2 from the schedule: by design when the worker of a removed
user is handed on, and by mistake when user 2 occupies the stride of user 1. In the second run
user 2 then waits without a job and `Waiters` counts it. -/
theorem timeout_takes_other_job :
    (∃ s s', run Usage step {} removedUser = some s ∧ s.step (.timeout 0 1) = some s' ∧
      s.sched.closed = false ∧ ¬ s.OthersKept s' 1) ∧
    (∃ s s', run Usage step {} sharedSlot = some s ∧ s.step (.timeout 0 1) = some s' ∧
      s'.sched.closed = false ∧ ¬ s.OthersKept s' 1 ∧ s'.pending 2 = some 1 ∧ ¬ s'.Served 2 1 ∧
      s'.sched.waiters = 1 ∧ s'.sched.schedule.entries.length = 0) := by
  refine ⟨⟨_,_,rfl,rfl,rfl,?_⟩,⟨_,_,rfl,rfl,rfl,?_,rfl,?_,rfl,rfl⟩⟩
  · intro h
    exact absurd (h 0 ⟨2,1⟩ rfl (by decide)) (by decide)
  · intro h
    exact absurd (h 0 ⟨2,1⟩ rfl (by decide)) (by decide)
  · rintro (⟨_,⟨k,hk⟩,_⟩ | ⟨_,⟨id,hr⟩ | hr⟩)
    · have hk : (none : Option Job) = some ⟨2,1⟩ := hk
      cases hk
    · have hr : Receipt.empty = .value id := hr
      cases hr
    · have hr : Receipt.empty = .closed := hr
      cases hr

end System
end Pggat.Rob
