import Pggat.Rob.Channels

/-! A worker taken from its place is handed to the next job, to a caller or back to the queue. -/
namespace Pggat.Rob
open Pggat.Base
namespace System
namespace Inv
variable {s : System} {loose : Option Uuid}

variable {user : Uuid} {u v : User}

theorem setUser (h : s.Inv loose) (hu : s.sched.users.get user = some u)
    (hv : v.scheduled = u.scheduled) (hk : u.scheduled = true → v.stride = u.stride) :
    Inv { s with sched := { s.sched with users := s.sched.users.insert user v } } loose := by
  refine { h with job := ?_, scheduled := ?_, waits := ?_, former := ?_, knownUser := ?_ }
  · intro k j hj
    obtain ⟨hp,hc,x,hx,hs,hkx⟩ := h.job k j hj
    by_cases he : j.user = user
    · cases hu.symm.trans (he ▸ hx)
      exact ⟨hp,hc,v,by simp [he],hv.trans hs,(hk hs).trans hkx⟩
    · exact ⟨hp,hc,x,by simp [he,hx],hs,hkx⟩
  · intro user' x hx hs
    by_cases he : user' = user
    · subst user'
      have : v = x := by simpa using hx
      subst x
      rw [hk (hv.symm.trans hs)]
      exact h.scheduled user u hu (hv.symm.trans hs)
    · exact h.scheduled user' x (by simpa [he] using hx) hs
  · intro user' c hc
    by_cases he : user' = user
    · subst user'
      rcases h.waits user c hc with ⟨x,hx,hs⟩ | hid | ⟨_,hn⟩
      · cases hu.symm.trans hx
        exact .inl ⟨v,by simp,hv.trans hs⟩
      · exact .inr (.inl hid)
      · simp [hu] at hn
    · simpa [he] using h.waits user' c hc
  · intro w user' since x hl hw hx
    by_cases he : user' = user
    · subst user'
      have : v = x := by simpa using hx
      subst x
      exact hv.trans (h.former w user since u hl hw hu)
    · exact h.former w user' since x hl hw (by simpa [he] using hx)
  · intro user' x hx
    exact h.knownUser_insert hu hx

variable {id : Uuid} {W : Worker}

theorem setWorker (h : s.Inv (some id)) (hW : s.sched.workers.get id = some W) (W' : Worker)
    (hW' : ∀ user u, W'.user = some user → s.sched.users.get user = some u → u.scheduled = false) :
    Inv { s with sched := { s.sched with workers := s.sched.workers.insert id W' } } (some id) := by
  have hget : ∀ w X, Map.get (s.sched.workers.insert id W') w = some X → w ≠ id → s.sched.workers.get w = some X := by
    intro w X hw hne
    simpa [hne] using hw
  have hplace : Placement { s with sched := { s.sched with workers := s.sched.workers.insert id W' } } (some id) :=
    { h.toPlacement with
      somewhere := fun w X hw hl => h.somewhere w X (hget w X hw fun he => hl (congrArg some he.symm)) hl
      owner := fun w user since hw hl => h.owner w user since (hget w _ hw fun he => hl (congrArg some he.symm)) hl }
  refine { h with toPlacement := hplace, queued := ?_, former := ?_, unburdened := ?_, knownWorker := ?_ }
  · intro w hw
    by_cases he : w = id
    · exact ⟨W',by simp [he]⟩
    · obtain ⟨X,hX⟩ := h.queued w hw
      exact ⟨X,by simp [he,hX]⟩
  · rintro w user since u hl hw hu
    cases hl
    have : W' = ⟨some user,since⟩ := by simpa using hw
    exact hW' user u (by rw [this]) hu
  · intro user c w hc hw
    have hn := h.unburdened user c w hc hw
    have hne : w ≠ id := by rintro rfl; simp [hW] at hn
    simpa [hne] using hn
  · intro w X hw
    by_cases he : w = id
    · exact he ▸ h.knownWorker id W hW
    · exact h.knownWorker w X (hget w X hw he)

/-- Charging the former user keeps the invariant: it is not scheduled, so no job moves. -/
theorem detach (h : s.Inv (some id)) (hW : s.sched.workers.get id = some W) (now : Int) :
    Inv { s with sched := s.sched.detach now id } (some id) ∧
    ∃ since, (s.sched.detach now id).workers.get id = some ⟨none,since⟩ := by
  obtain ⟨owner,since⟩ := W
  unfold Scheduler.detach
  rw [hW]
  cases owner with
  | none => exact ⟨h,since,hW⟩
  | some user =>
    refine ⟨?_,now,by simp⟩
    have hd := h.setWorker hW ⟨none,now⟩ (by simp)
    cases hu : s.sched.users.get user with
    | none => simpa [Map.modify,hu] using hd
    | some u =>
      have hs := h.former id user since u rfl hW hu
      simpa [Map.modify,hu] using hd.setUser (v := { u with stride := u.stride + (now - since), worker := none })
        hu rfl (by simp [hs])

variable {since : Int}

theorem enqueue (h : s.Inv (some id)) (hW : s.sched.workers.get id = some ⟨none,since⟩) :
    Inv { s with sched := { s.sched with queue := s.sched.queue ++ [id] } } none := by
  have hat : ∀ w p, At { s with sched := { s.sched with queue := s.sched.queue ++ [id] } } w p ↔
      s.At w p ∨ (w = id ∧ p = .queued) := by
    intro w p
    cases p <;> simp
  refine { h with
    toPlacement := h.toPlacement.put hat (fun _ _ => rfl) rfl (h.knownWorker id _ hW) (by simp [hW])
    queued := ?_, queueNodup := ?_, former := by simp }
  · intro w hw
    rcases List.mem_append.mp hw with hw | hw
    · exact h.queued w hw
    · cases List.mem_singleton.mp hw
      exact ⟨_,hW⟩
  · exact List.nodup_append.mpr ⟨h.queueNodup,by simp,by
      rintro w hw _ hid rfl
      exact h.astray id .queued rfl (List.mem_singleton.mp hid ▸ hw)⟩

/-- A detached worker is sent to a scheduled user, whose channel is open and empty. -/
theorem dispatch (h : s.Inv (some id)) (now floor : Int) {k : Int} {j : Job}
    (hW : s.sched.workers.get id = some ⟨none,since⟩) (hj : s.sched.schedule.get k = some j)
    (hu : s.sched.users.get j.user = some u) (hv : v.scheduled = false) :
    Inv { s with sched := { s.sched with
      floor := floor
      schedule := s.sched.schedule.erase k
      users := s.sched.users.insert j.user v
      workers := s.sched.workers.insert id ⟨some j.user,now⟩
      chans := Function.update s.sched.chans j.ready ⟨some id,false⟩ } } none := by
  obtain ⟨hp,hc,x,hx,hs,rfl⟩ := h.job k j hj
  cases hu.symm.trans hx
  have hother : ∀ user c, s.pending user = some c → user ≠ j.user → c ≠ j.ready := by
    intro user c hp' hne he
    exact hne (h.separate _ _ _ hp' (he ▸ hp))
  have hat : ∀ w p, At { s with sched := { s.sched with
      floor := floor
      schedule := s.sched.schedule.erase u.stride
      users := s.sched.users.insert j.user v
      workers := s.sched.workers.insert id ⟨some j.user,now⟩
      chans := Function.update s.sched.chans j.ready ⟨some id,false⟩ } } w p ↔
      s.At w p ∨ (w = id ∧ p = .bufferedFor j.user) := by
    intro w p
    cases p with
    | queued => simp
    | heldBy user => simp
    | bufferedFor user =>
      simp only [at_bufferedFor,Place.bufferedFor.injEq]
      by_cases he : user = j.user
      · subst user
        simp [hp,hc,eq_comm]
      · have := hother user
        constructor
        · rintro ⟨c,hc',hb⟩
          exact .inl ⟨c,hc',by simpa [this c hc' he] using hb⟩
        · rintro (⟨c,hc',hb⟩ | ⟨_,he'⟩)
          · exact ⟨c,hc',by simpa [this c hc' he] using hb⟩
          · exact absurd he' he
  refine { h with
    toPlacement := h.toPlacement.put hat (fun w hne => by simp [hne]) rfl (h.knownWorker id _ hW) (by simp)
    toJobs := h.remove_job hu hj rfl (fun user hne => by simp [hne]) (by simp [hv]) (fun _ _ => rfl)
      (fun c hne => by simp [hne])
    idle := ?_, waits := ?_, queued := ?_, former := by simp, unburdened := ?_, knownWorker := ?_
    knownUser := fun user y hy => h.knownUser_insert hu hy }
  · intro c hc'
    have hne : c ≠ j.ready := by
      rintro rfl
      exact hc'.elim (h.apart _ _ hp).1 (h.apart _ _ hp).2
    simpa [hne] using h.idle c hc'
  · intro user c hc'
    by_cases he : user = j.user
    · subst user
      cases hp.symm.trans hc'
      exact .inr (.inl ⟨id,by simp⟩)
    · simpa [he,hother _ _ hc' he] using h.waits user c hc'
  · intro w hw
    by_cases he : w = id
    · exact ⟨_,by simp [he]; rfl⟩
    · obtain ⟨X,hX⟩ := h.queued w hw
      exact ⟨X,by simp [he,hX]⟩
  · intro user c w hc' hw
    have hnw := h.unburdened user c w hc' hw
    have hne : w ≠ id := by rintro rfl; simp [hW] at hnw
    simpa [hne] using hnw
  · intro w X hw
    by_cases he : w = id
    · exact he ▸ h.knownWorker id _ hW
    · exact h.knownWorker w X (by simpa [he] using hw)

/-- Handing a loose worker on never blocks and puts it in exactly one place. -/
theorem releaseWorker (h : s.Inv (some id)) (hW : s.sched.workers.get id = some W)
    (now : Int) : ∃ T, s.sched.releaseWorker now id = some T ∧ Inv { s with sched := T } none ∧
      T.closed = s.sched.closed := by
  obtain ⟨hd,since,hd'⟩ := h.detach hW now
  have hcl : (s.sched.detach now id).closed = s.sched.closed := by
    unfold Scheduler.detach
    split <;> rfl
  unfold Scheduler.releaseWorker
  cases hm : (s.sched.detach now id).schedule.minEntry with
  | none => exact ⟨_,by simp [hm],hd.enqueue hd',hcl⟩
  | some e =>
    obtain ⟨k,j⟩ := e
    obtain ⟨_,hc,u,hu,_,_⟩ := hd.job k j (Map.get_minEntry hm)
    dsimp only at hc hu
    have hmod : (s.sched.detach now id).users.modify j.user (fun u => { u with worker := some id, scheduled := false }) =
        (s.sched.detach now id).users.insert j.user { u with worker := some id, scheduled := false } := by
      simp only [Map.modify,hu]
    refine ⟨_,?_,hd.dispatch now k hd' (Map.get_minEntry hm) hu
      (v := { u with worker := some id, scheduled := false }) rfl,hcl⟩
    simp only [hm,Scheduler.send,hc,if_true,hmod]

private theorem settle (h : s.Inv (some id)) (hW : s.sched.workers.get id = none) : s.Inv none := by
  refine { h with
    toPlacement := { h.toPlacement with somewhere := ?_, astray := by simp, owner := ?_ }, former := by simp }
  · intro w W hw _
    exact h.somewhere w W hw fun hl => by cases hl; simp [hW] at hw
  · intro w user since hw _
    exact h.owner w user since hw fun hl => by cases hl; simp [hW] at hw

theorem release (h : s.Inv (some id)) (hc : s.sched.closed = false) (now : Int) :
    ∃ T, s.sched.release now id = some T ∧ Inv { s with sched := T } none ∧ T.closed = false := by
  unfold Scheduler.release
  rw [if_neg (by simp [hc])]
  cases hW : s.sched.workers.get id with
  | none => exact ⟨_,rfl,h.settle hW,hc⟩
  | some W =>
    obtain ⟨T,hT,hi,hcl⟩ := h.releaseWorker hW now
    exact ⟨T,hT,hi,hcl.trans hc⟩

theorem hold (h : s.Inv (some id)) (hp : s.pending user = none) (hk : id ∈ s.workerIds)
    (ho : ∀ user' since, s.sched.workers.get id = some ⟨some user',since⟩ → user' = user) :
    Inv { s with held := (user,id) :: s.held } none := by
  have hat : ∀ w p, At { s with held := (user,id) :: s.held } w p ↔
      s.At w p ∨ (w = id ∧ p = .heldBy user) := by
    intro w p
    cases p with
    | queued => simp
    | heldBy user' => simp only [at_heldBy,List.mem_cons,Prod.mk.injEq,Place.heldBy.injEq]; tauto
    | bufferedFor user' => simp
  refine { h with
    toPlacement := h.toPlacement.put hat (fun _ _ => rfl) rfl hk fun user' since hw => .inl (by rw [ho user' since hw])
    heldNodup := List.nodup_cons.mpr ⟨h.astray id (.heldBy user) rfl,h.heldNodup⟩
    former := by simp, unburdened := ?_ }
  intro user' c w hc hw
  rcases List.mem_cons.mp hw with hw | hw
  · cases hw
    rw [hp] at hc
    cases hc
  · exact h.unburdened user' c w hc hw

theorem drop (h : s.Inv none) (hh : (user,id) ∈ s.held) :
    Inv { s with held := s.held.erase (user,id) } (some id) := by
  have hone : ∀ p, s.At id p → p = .heldBy user := fun p hp => h.unique id p _ hp hh
  have hat : ∀ w p, At { s with held := s.held.erase (user,id) } w p ↔ s.At w p ∧ w ≠ id := by
    intro w p
    cases p with
    | queued =>
      refine ⟨fun hw => ⟨hw,?_⟩,And.left⟩
      rintro rfl
      cases hone .queued hw
    | heldBy user' =>
      simp only [at_heldBy,h.heldNodup.mem_erase_iff,ne_eq,Prod.mk.injEq,not_and]
      constructor
      · rintro ⟨hne,hw⟩
        refine ⟨hw,?_⟩
        rintro rfl
        cases hone (.heldBy user') hw
        exact hne rfl rfl
      · rintro ⟨hw,hne⟩
        exact ⟨fun _ => hne,hw⟩
    | bufferedFor user' =>
      refine ⟨fun hw => ⟨hw,?_⟩,And.left⟩
      rintro rfl
      cases hone (.bufferedFor user') hw
  refine { h with
    toPlacement := h.toPlacement.lift hat rfl rfl, heldNodup := h.heldNodup.erase _, former := ?_
    unburdened := fun user' c w hc hw => h.unburdened user' c w hc (List.mem_of_mem_erase hw) }
  rintro w user' since u hl hw hu
  cases hl
  have he : user' = user := by
    rcases h.owner id user' since hw (by simp) with hq | hq
    · cases hone _ hq; rfl
    · cases hone _ hq
  subst user'
  by_contra hs
  obtain ⟨c,hc,_⟩ := h.own_job hu (by simpa using hs)
  simp [h.unburdened user c id hc hh] at hw

end Inv
end System
end Pggat.Rob
