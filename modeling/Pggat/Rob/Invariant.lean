import Pggat.Rob.System

/-! The invariant of the scheduler's runs, and how the pieces of a critical section keep it. -/
namespace Pggat.Rob
open Pggat.Base
namespace System

/-- Free, returning and awaited channels are made, different, and idle unless awaited. -/
structure Channels (s : System) : Prop where
  made : ∀ c, c ∈ s.sched.cc ∨ c ∈ s.returning ∨ (∃ user, s.pending user = some c) → c < s.sched.nextChan
  distinct : (s.sched.cc ++ s.returning).Nodup
  idle : ∀ c, c ∈ s.sched.cc ∨ c ∈ s.returning → s.sched.chans c = {}
  apart : ∀ user c, s.pending user = some c → c ∉ s.sched.cc ∧ c ∉ s.returning
  separate : ∀ user user' c, s.pending user = some c → s.pending user' = some c → user = user'

/-- Every worker of the pool but the loose one has a place, and no worker has two. The user a worker
is charged to holds it or is about to receive it. -/
structure Placement (s : System) (loose : Option Uuid) : Prop where
  somewhere : ∀ id W, s.sched.workers.get id = some W → loose ≠ some id → ∃ p, s.At id p
  unique : ∀ id p q, s.At id p → s.At id q → p = q
  astray : ∀ id p, loose = some id → ¬ s.At id p
  owner : ∀ id user since, s.sched.workers.get id = some ⟨some user,since⟩ → loose ≠ some id →
    s.At id (.heldBy user) ∨ s.At id (.bufferedFor user)
  known : ∀ id p, s.At id p → id ∈ s.workerIds

/-- The jobs are those of the scheduled users, each under its user's stride, with an open and empty
channel on which the user waits. -/
structure Jobs (s : System) : Prop where
  job : ∀ k j, s.sched.schedule.get k = some j → s.pending j.user = some j.ready ∧
    s.sched.chans j.ready = {} ∧
    ∃ u, s.sched.users.get j.user = some u ∧ u.scheduled = true ∧ u.stride = k
  scheduled : ∀ user u, s.sched.users.get user = some u → u.scheduled = true →
    ∃ j, s.sched.schedule.get u.stride = some j ∧ j.user = user

/-- What holds between critical sections. Inside one, `loose` is a worker that was taken from its
place and not yet handed on. -/
structure Inv (s : System) (loose : Option Uuid) : Prop extends Channels s, Placement s loose, Jobs s where
  waits : ∀ user c, s.pending user = some c →
    (∃ u, s.sched.users.get user = some u ∧ u.scheduled = true) ∨
    (∃ id, s.sched.chans c = ⟨some id,false⟩) ∨
    (s.sched.chans c = ⟨none,true⟩ ∧ s.sched.users.get user = none)
  queued : ∀ id, id ∈ s.sched.queue → ∃ W, s.sched.workers.get id = some W
  queueNodup : s.sched.queue.Nodup
  heldNodup : s.held.Nodup
  former : ∀ id user since u, loose = some id → s.sched.workers.get id = some ⟨some user,since⟩ →
    s.sched.users.get user = some u → u.scheduled = false
  unburdened : ∀ user c id, s.pending user = some c → (user,id) ∈ s.held → s.sched.workers.get id = none
  knownWorker : ∀ id W, s.sched.workers.get id = some W → id ∈ s.workerIds
  knownUser : ∀ user u, s.sched.users.get user = some u → user ∈ s.userIds
  knownPending : ∀ user c, s.pending user = some c → user ∈ s.userIds

theorem Channels.unpend {s : System} (h : s.Channels) (user : Uuid) (T : Scheduler) (hcc : T.cc = s.sched.cc)
    (hn : T.nextChan = s.sched.nextChan) (hch : ∀ c, c ∈ s.sched.cc ∨ c ∈ s.returning → T.chans c = s.sched.chans c) :
    Channels { s with pending := Function.update s.pending user none, sched := T } where
  made := by
    intro c hc
    rw [hcc] at hc
    rw [hn]
    exact h.made c (hc.imp_right fun hc => hc.imp_right fun ⟨user',hp⟩ => ⟨user',(update_none hp).2⟩)
  distinct := by rw [hcc]; exact h.distinct
  idle := by
    intro c hc
    rw [hcc] at hc
    exact (hch c hc).trans (h.idle c hc)
  apart := by
    intro user' c hp
    rw [hcc]
    exact h.apart user' c (update_none hp).2
  separate := by
    intro user' user'' c hp hp'
    exact h.separate user' user'' c (update_none hp).2 (update_none hp').2

namespace Placement
variable {s s' : System} {loose : Option Uuid} {id : Uuid}

theorem congr (h : s.Placement loose) (hat : ∀ w p, s'.At w p ↔ s.At w p)
    (hw : s'.sched.workers = s.sched.workers) (hids : s'.workerIds = s.workerIds) : s'.Placement loose where
  somewhere := by simpa only [hat,hw] using h.somewhere
  unique := by simpa only [hat] using h.unique
  astray := by simpa only [hat] using h.astray
  owner := by simpa only [hat,hw] using h.owner
  known := by simpa only [hat,hids] using h.known

theorem put {q : Place} (h : s.Placement (some id)) (hat : ∀ w p, s'.At w p ↔ s.At w p ∨ (w = id ∧ p = q))
    (hw : ∀ w, w ≠ id → s'.sched.workers.get w = s.sched.workers.get w) (hids : s'.workerIds = s.workerIds)
    (hk : id ∈ s.workerIds)
    (ho : ∀ user since, s'.sched.workers.get id = some ⟨some user,since⟩ → q = .heldBy user ∨ q = .bufferedFor user) :
    s'.Placement none where
  somewhere := by
    intro w W hW _
    by_cases he : w = id
    · exact ⟨q,(hat w q).mpr (.inr ⟨he,rfl⟩)⟩
    · obtain ⟨p,hp⟩ := h.somewhere w W ((hw w he).symm.trans hW) fun hl => he (Option.some.inj hl).symm
      exact ⟨p,(hat w p).mpr (.inl hp)⟩
  unique := by
    intro w p p' hp hp'
    rcases (hat w p).mp hp with hp | ⟨he,rfl⟩
    · rcases (hat w p').mp hp' with hp' | ⟨he,rfl⟩
      · exact h.unique w p p' hp hp'
      · exact absurd (he ▸ hp) (h.astray id p rfl)
    · rcases (hat w p').mp hp' with hp' | ⟨_,rfl⟩
      · exact absurd (he ▸ hp') (h.astray id p' rfl)
      · rfl
  astray := by simp
  owner := by
    intro w user since hW _
    simp only [hat]
    by_cases he : w = id
    · subst w
      exact (ho user since hW).imp (fun hq => .inr ⟨rfl,hq.symm⟩) (fun hq => .inr ⟨rfl,hq.symm⟩)
    · exact (h.owner w user since ((hw w he).symm.trans hW) fun hl => he (Option.some.inj hl).symm).imp .inl .inl
  known := by
    intro w p hp
    rw [hids]
    rcases (hat w p).mp hp with hp | ⟨rfl,_⟩
    · exact h.known w p hp
    · exact hk

theorem lift (h : s.Placement none) (hat : ∀ w p, s'.At w p ↔ s.At w p ∧ w ≠ id)
    (hw : s'.sched.workers = s.sched.workers) (hids : s'.workerIds = s.workerIds) : s'.Placement (some id) where
  somewhere := by
    intro w W hW hl
    rw [hw] at hW
    obtain ⟨p,hp⟩ := h.somewhere w W hW (by simp)
    exact ⟨p,(hat w p).mpr ⟨hp,fun he => hl (congrArg some he.symm)⟩⟩
  unique := by
    intro w p q hp hq
    exact h.unique w p q ((hat w p).mp hp).1 ((hat w q).mp hq).1
  astray := by
    rintro w p hl hp
    exact ((hat w p).mp hp).2 (Option.some.inj hl).symm
  owner := by
    intro w user since hW hl
    rw [hw] at hW
    simp only [hat]
    have hne : w ≠ id := fun he => hl (congrArg some he.symm)
    exact (h.owner w user since hW (by simp)).imp (⟨·,hne⟩) (⟨·,hne⟩)
  known := by
    intro w p hp
    rw [hids]
    exact h.known w p ((hat w p).mp hp).1

end Placement

namespace Inv
variable {s : System} {loose : Option Uuid}

theorem init : ({} : System).Inv none where
  made := by simp
  distinct := by simp
  idle := by simp
  apart := by simp
  separate := by simp
  job := by simp
  scheduled := by simp
  waits := by simp
  somewhere := by simp
  unique := by intro id p q hp; cases p <;> simp at hp
  astray := by simp
  queued := by simp
  queueNodup := by simp
  heldNodup := by simp
  owner := by simp
  former := by simp
  unburdened := by simp
  known := by intro id p hp; cases p <;> simp at hp
  knownWorker := by simp
  knownUser := by simp
  knownPending := by simp

variable {user : Uuid} {u : User}

/-- A scheduled user's job is under its stride, with the channel it waits on. -/
theorem own_job (h : s.Inv loose) (hu : s.sched.users.get user = some u)
    (hs : u.scheduled = true) : ∃ c, s.pending user = some c ∧ s.sched.chans c = {} ∧
      s.sched.schedule.get u.stride = some ⟨user,c⟩ := by
  obtain ⟨⟨user',c⟩,hj,rfl⟩ := h.scheduled user u hu hs
  obtain ⟨hp,hc,_⟩ := h.job _ _ hj
  exact ⟨c,hp,hc,hj⟩

variable {c : Chan}

theorem remove_job (h : s.Inv loose) {s' : System}
    (hu : s.sched.users.get user = some u) (hj : s.sched.schedule.get u.stride = some ⟨user,c⟩)
    (hs : s'.sched.schedule = s.sched.schedule.erase u.stride)
    (husers : ∀ user', user' ≠ user → s'.sched.users.get user' = s.sched.users.get user')
    (hoff : ∀ v, s'.sched.users.get user = some v → v.scheduled = false)
    (hpend : ∀ user', user' ≠ user → s'.pending user' = s.pending user')
    (hch : ∀ c', c' ≠ c → s'.sched.chans c' = s.sched.chans c') : s'.Jobs := by
  obtain ⟨hp,_⟩ := h.job _ _ hj
  constructor
  · intro k i hi
    rw [hs,Map.get_erase] at hi
    split at hi
    · cases hi
    rename_i hk
    obtain ⟨hpi,hci,v,hv,hsv,hkv⟩ := h.job k i hi
    have hne : i.user ≠ user := by
      intro he
      rw [he,hu] at hv
      cases hv
      exact hk hkv.symm
    have hcne : i.ready ≠ c := fun he => hne (h.separate _ _ _ hpi (he ▸ hp))
    exact ⟨(hpend _ hne).trans hpi,(hch _ hcne).trans hci,v,(husers _ hne).trans hv,hsv,hkv⟩
  · intro user' v hv hsv
    have hne : user' ≠ user := by
      rintro rfl
      simp [hoff v hv] at hsv
    obtain ⟨i,hi,hiu⟩ := h.scheduled user' v ((husers _ hne).symm.trans hv) hsv
    have hk : v.stride ≠ u.stride := by
      intro hk
      rw [hk,hj] at hi
      cases hi
      exact hne hiu.symm
    exact ⟨i,by simp [hs,hk,hi],hiu⟩

theorem knownUser_insert (h : s.Inv loose) {user' : Uuid} {v v' : User} (hu : s.sched.users.get user = some u)
    (hv : Map.get (s.sched.users.insert user v) user' = some v') : user' ∈ s.userIds := by
  by_cases he : user' = user
  · exact he ▸ h.knownUser user u hu
  · exact h.knownUser user' v' (by simpa [he] using hv)

variable {id : Uuid}

theorem addUser (h : s.Inv none) (hid : id ∉ s.userIds) (stride : Int) :
    Inv { s with
      sched := { s.sched with users := s.sched.users.insert id { stride := stride } }
      userIds := id :: s.userIds } none := by
  have hu : ∀ user u, s.sched.users.get user = some u → user ≠ id := fun user u hu he =>
    hid (he ▸ h.knownUser user u hu)
  have hp : ∀ user c, s.pending user = some c → user ≠ id := fun user c hu he =>
    hid (he ▸ h.knownPending user c hu)
  refine { h with job := ?_, scheduled := ?_, waits := ?_, former := ?_, knownUser := ?_, knownPending := ?_ }
  · intro k j hj
    obtain ⟨hc,he,u,hju,hs,hk⟩ := h.job k j hj
    exact ⟨hc,he,u,by simp [hu _ _ hju,hju],hs,hk⟩
  · intro user u hju hs
    by_cases he : user = id
    · subst user; simp at hju; subst u; simp at hs
    · exact h.scheduled user u (by simpa [he] using hju) hs
  · intro user c hc
    simpa [hp user c hc] using h.waits user c hc
  · simp
  · intro user u hju
    by_cases he : user = id
    · simp [he]
    · exact List.mem_cons_of_mem _ (h.knownUser user u (by simpa [he] using hju))
  · intro user c hc
    exact List.mem_cons_of_mem _ (h.knownPending user c hc)

theorem deleteUser_idle (h : s.Inv none) (hu : s.sched.users.get id = some u)
    (hs : u.scheduled = false) : Inv { s with sched := { s.sched with users := s.sched.users.erase id } } none := by
  refine { h with job := ?_, scheduled := ?_, waits := ?_, former := ?_, knownUser := ?_ }
  · intro k j hj
    obtain ⟨hc,he,v,hv,hsv,hk⟩ := h.job k j hj
    have hne : j.user ≠ id := by rintro rfl; simp_all
    exact ⟨hc,he,v,by simp [hne,hv],hsv,hk⟩
  · intro user v hv hsv
    by_cases he : user = id
    · simp [he] at hv
    · exact h.scheduled user v (by simpa [he] using hv) hsv
  · intro user c hc
    by_cases he : user = id
    · subst user
      rcases h.waits id c hc with ⟨v,hv,hsv⟩ | hid | ⟨_,hn⟩
      · simp_all
      · exact .inr (.inl hid)
      · simp_all
    · simpa [he] using h.waits user c hc
  · simp
  · intro user v hv
    by_cases he : user = id
    · simp [he] at hv
    · exact h.knownUser user v (by simpa [he] using hv)

/-- Closing the channel of a removed user's job leaves every other job and channel alone. -/
theorem deleteUser_scheduled (h : s.Inv none)
    (hp : s.pending id = some c) (hc : s.sched.chans c = {}) (hu : s.sched.users.get id = some u)
    (hj : s.sched.schedule.get u.stride = some ⟨id,c⟩) :
    Inv { s with sched := { s.sched.shut c with
      users := s.sched.users.erase id, schedule := s.sched.schedule.erase u.stride } } none := by
  have hat : ∀ w p, At { s with sched := { s.sched.shut c with
      users := s.sched.users.erase id, schedule := s.sched.schedule.erase u.stride } } w p ↔ s.At w p := by
    intro w p
    cases p with
    | queued => rfl
    | heldBy user => rfl
    | bufferedFor user =>
      have hb : ∀ c', ((s.sched.shut c).chans c').buffered = (s.sched.chans c').buffered := by
        intro c'
        by_cases he : c' = c
        · simp [Scheduler.shut,he]
        · simp [Scheduler.shut,he]
      simp only [at_bufferedFor,hb]
  have hch : ∀ c', c' ≠ c → (s.sched.shut c).chans c' = s.sched.chans c' := fun c' hne => by
    simp [Scheduler.shut,hne]
  refine { h with toPlacement := h.toPlacement.congr hat rfl rfl
                  toJobs := h.remove_job hu hj rfl (fun user' hne => by simp [hne]) (by simp) (fun _ _ => rfl) hch
                  idle := ?_, waits := ?_, former := by simp, knownUser := ?_ }
  · intro c' hc'
    have hne : c' ≠ c := by
      rintro rfl
      exact hc'.elim (h.apart id c' hp).1 (h.apart id c' hp).2
    simpa [hch c' hne] using h.idle c' hc'
  · intro user c' hc'
    by_cases he : user = id
    · subst user
      cases hp.symm.trans hc'
      exact .inr (.inr ⟨by simp [Scheduler.shut,hc],by simp⟩)
    · have hne : c' ≠ c := fun hcc => he (h.separate _ _ _ hc' (hcc ▸ hp))
      simpa [he,hch _ hne] using h.waits user c' hc'
  · intro user v hv
    by_cases he : user = id
    · simp [he] at hv
    · exact h.knownUser user v (by simpa [he] using hv)

theorem deleteWorker (h : s.Inv none) (id : Uuid) : Inv { s with sched := { s.sched with
    workers := s.sched.workers.erase id, queue := s.sched.queue.erase id } } none := by
  have hsub : ∀ w p, At { s with sched := { s.sched with
      workers := s.sched.workers.erase id, queue := s.sched.queue.erase id } } w p → s.At w p := by
    intro w p hp
    cases p with
    | queued => exact List.mem_of_mem_erase hp
    | heldBy user => exact hp
    | bufferedFor user => exact hp
  have hget : ∀ w W, Map.get (s.sched.workers.erase id) w = some W → w ≠ id ∧ s.sched.workers.get w = some W := by
    intro w W hw
    by_cases he : w = id
    · simp [he] at hw
    · exact ⟨he,by simpa [he] using hw⟩
  have hplace : Placement { s with sched := { s.sched with
      workers := s.sched.workers.erase id, queue := s.sched.queue.erase id } } none := by
    refine ⟨?_,?_,by simp,?_,?_⟩
    · intro w W hw _
      obtain ⟨hne,hw⟩ := hget w W hw
      obtain ⟨p,hp⟩ := h.somewhere w W hw (by simp)
      refine ⟨p,?_⟩
      cases p with
      | queued => exact (List.mem_erase_of_ne hne).mpr hp
      | heldBy user => exact hp
      | bufferedFor user => exact hp
    · intro w p q hp hq
      exact h.unique w p q (hsub w p hp) (hsub w q hq)
    · intro w user since hw _
      exact h.owner w user since (hget w _ hw).2 (by simp)
    · intro w p hp
      exact h.known w p (hsub w p hp)
  refine { h with toPlacement := hplace, queued := ?_, queueNodup := h.queueNodup.erase id, former := by simp
                  unburdened := ?_, knownWorker := ?_ }
  · intro w hw
    have hne : w ≠ id := fun he => (h.queueNodup.not_mem_erase (he ▸ hw))
    obtain ⟨W,hW⟩ := h.queued w (List.mem_of_mem_erase hw)
    exact ⟨W,by simp [hne,hW]⟩
  · intro user c w hc hw
    by_cases he : w = id
    · simp [he]
    · simpa [he] using h.unburdened user c w hc hw
  · intro w W hw
    exact h.knownWorker w W (hget w W hw).2

theorem recycle (h : s.Inv none) (hc : c ∈ s.returning) :
    Inv { s with sched := s.sched.putChan c, returning := s.returning.erase c } none := by
  have hperm : (c :: s.sched.cc ++ s.returning.erase c).Perm (s.sched.cc ++ s.returning) :=
    List.perm_middle.symm.trans ((List.perm_cons_erase hc).symm.append_left _)
  have hmem : ∀ c', (c' ∈ c :: s.sched.cc ∨ c' ∈ s.returning.erase c) ↔ c' ∈ s.sched.cc ∨ c' ∈ s.returning := by
    intro c'
    simpa only [List.mem_append] using hperm.mem_iff (a := c')
  refine { h with made := ?_, distinct := ?_, idle := ?_, apart := ?_ }
  · intro c' hc'
    apply h.made c'
    rw [← or_assoc] at hc' ⊢
    exact hc'.imp_left (hmem c').mp
  · exact hperm.nodup_iff.mpr h.distinct
  · intro c' hc'
    exact h.idle c' ((hmem c').mp hc')
  · intro user c' hp
    have := h.apart user c' hp
    rw [← not_or] at this ⊢
    exact fun hc' => this ((hmem c').mp hc')

end Inv
end System
end Pggat.Rob
