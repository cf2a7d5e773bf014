import Pggat.Rob.Handover

/-! A user starts to wait with a job in the schedule and ends its wait by a timeout or a removal. -/
namespace Pggat.Rob
open Pggat.Base
namespace System
namespace Inv
variable {s : System}

variable {user : Uuid} {c : Chan}

theorem leave (h : s.Inv none) (hp : s.pending user = some c)
    (hb : (s.sched.chans c).buffered = none) (hu : s.sched.users.get user = none) :
    Inv { s with pending := Function.update s.pending user none } none := by
  have hat : ∀ w p, At { s with pending := Function.update s.pending user none } w p ↔ s.At w p := by
    intro w p
    cases p with
    | queued => rfl
    | heldBy user' => rfl
    | bufferedFor user' =>
      simp only [at_bufferedFor]
      by_cases he : user' = user
      · subst user'
        simp [hp,hb]
      · simp [he]
  refine { h with
    toPlacement := h.toPlacement.congr hat rfl rfl
    toChannels := h.toChannels.unpend user s.sched rfl rfl fun _ _ => rfl
    job := ?_
    waits := fun user' c' hp' => h.waits user' c' (update_none hp').2
    unburdened := fun user' c' w hp' hw => h.unburdened user' c' w (update_none hp').2 hw
    knownPending := fun user' c' hp' => h.knownPending user' c' (update_none hp').2 }
  intro k j hj
  obtain ⟨hpj,hcj,u,hju,hrest⟩ := h.job k j hj
  have hne : j.user ≠ user := by rintro rfl; simp [hu] at hju
  exact ⟨by simp [hne,hpj],hcj,u,hju,hrest⟩

theorem pop {id : Uuid} (h : s.Inv none) (hq : s.sched.queue.getLast? = some id) :
    Inv { s with sched := { s.sched with queue := s.sched.queue.dropLast } } (some id) ∧
    ∃ since, s.sched.workers.get id = some ⟨none,since⟩ := by
  have hsplit : s.sched.queue = s.sched.queue.dropLast ++ [id] := (List.dropLast_append_getLast? id hq).symm
  have hmem : s.At id .queued := by rw [at_queued,hsplit]; simp
  have hd : id ∉ s.sched.queue.dropLast := by
    have := h.queueNodup
    rw [hsplit,List.nodup_append] at this
    exact fun hm => this.2.2 id hm id (by simp) rfl
  have hone : ∀ p, s.At id p → p = .queued := fun p hp => h.unique id p _ hp hmem
  have hat : ∀ w p, At { s with sched := { s.sched with queue := s.sched.queue.dropLast } } w p ↔
      s.At w p ∧ w ≠ id := by
    intro w p
    cases p with
    | queued =>
      simp only [at_queued]
      rw [hsplit,List.mem_append,List.mem_singleton,List.dropLast_concat]
      constructor
      · intro hw
        exact ⟨.inl hw,by rintro rfl; exact hd hw⟩
      · rintro ⟨hw | hw,hne⟩
        · exact hw
        · exact absurd hw hne
    | heldBy user =>
      refine ⟨fun hw => ⟨hw,?_⟩,And.left⟩
      rintro rfl
      cases hone (.heldBy user) hw
    | bufferedFor user =>
      refine ⟨fun hw => ⟨hw,?_⟩,And.left⟩
      rintro rfl
      cases hone (.bufferedFor user) hw
  obtain ⟨⟨owner,since⟩,hW⟩ := h.queued id hmem
  have hfree : owner = none := by
    cases owner with
    | none => rfl
    | some user =>
      rcases h.owner id user since hW (by simp) with hp | hp
      · cases hone _ hp
      · cases hone _ hp
  subst hfree
  refine ⟨?_,since,hW⟩
  refine { h with
    toPlacement := h.toPlacement.lift hat rfl rfl
    queued := fun w hw => h.queued w ((List.dropLast_sublist _).subset hw)
    queueNodup := h.queueNodup.sublist (List.dropLast_sublist _), former := ?_ }
  rintro w user t u hl hw
  cases hl
  simp [hW] at hw

variable {u : User}

theorem not_scheduled (h : s.Inv none) (hp : s.pending user = none)
    (hu : s.sched.users.get user = some u) : u.scheduled = false := by
  by_contra hs
  obtain ⟨c,hc,_⟩ := h.own_job hu (by simpa using hs)
  simp [hp] at hc

/-- A user joins the schedule under a free key, with a spare channel to wait on. -/
theorem enroll {k : Int} (h : s.Inv none) (hp : s.pending user = none)
    (hb : ∀ id, (user,id) ∈ s.held → s.sched.workers.get id = none) (hu : s.sched.users.get user = some u)
    (hc : s.Spare c) (hk : s.sched.schedule.get k = none) :
    Inv { s with
      pending := Function.update s.pending user (some c)
      sched := { s.sched with
        schedule := s.sched.schedule.insert k ⟨user,c⟩
        users := s.sched.users.insert user { u with stride := k, scheduled := true } } } none := by
  have hns := h.not_scheduled hp hu
  have hpe : ∀ user' c', Function.update s.pending user (some c) user' = some c' →
      (user' = user ∧ c' = c) ∨ (user' ≠ user ∧ s.pending user' = some c' ∧ c' ≠ c) := by
    intro user' c' hp'
    by_cases he : user' = user
    · exact .inl ⟨he,by simpa [he,eq_comm] using hp'⟩
    · have hp'' : s.pending user' = some c' := by simpa [he] using hp'
      exact .inr ⟨he,hp'',fun hcc => hc.unclaimed user' (hcc ▸ hp'')⟩
  have hat : ∀ w p, At { s with
      pending := Function.update s.pending user (some c)
      sched := { s.sched with
        schedule := s.sched.schedule.insert k ⟨user,c⟩
        users := s.sched.users.insert user { u with stride := k, scheduled := true } } } w p ↔ s.At w p := by
    intro w p
    cases p with
    | queued => rfl
    | heldBy user' => rfl
    | bufferedFor user' =>
      simp only [at_bufferedFor]
      by_cases he : user' = user
      · subst user'
        simp [hp,hc.empty]
      · simp [he]
  refine { h with
    toPlacement := h.toPlacement.congr hat rfl rfl
    made := ?_, apart := ?_, separate := ?_, job := ?_, scheduled := ?_, waits := ?_, former := by simp, unburdened := ?_
    knownUser := fun user' v hv => h.knownUser_insert hu hv, knownPending := ?_ }
  · rintro c' (hc' | hc' | ⟨user',hp'⟩)
    · exact h.made c' (.inl hc')
    · exact h.made c' (.inr (.inl hc'))
    · rcases hpe _ _ hp' with ⟨_,rfl⟩ | ⟨_,hp'',_⟩
      · exact hc.made
      · exact h.made c' (.inr (.inr ⟨user',hp''⟩))
  · intro user' c' hp'
    rcases hpe _ _ hp' with ⟨_,rfl⟩ | ⟨_,hp'',_⟩
    · exact hc.unlisted
    · exact h.apart user' c' hp''
  · intro user' user'' c' hp' hp''
    rcases hpe _ _ hp' with ⟨rfl,rfl⟩ | ⟨_,hq',hne'⟩
    · rcases hpe _ _ hp'' with ⟨rfl,_⟩ | ⟨_,_,hne''⟩
      · rfl
      · exact absurd rfl hne''
    · rcases hpe _ _ hp'' with ⟨_,rfl⟩ | ⟨_,hq'',_⟩
      · exact absurd rfl hne'
      · exact h.separate _ _ c' hq' hq''
  · intro k' j hj
    by_cases he : k' = k
    · have : (⟨user,c⟩ : Job) = j := by simpa [he] using hj
      subst j
      exact ⟨by simp,hc.empty,{ u with stride := k, scheduled := true },by simp,rfl,he.symm⟩
    · obtain ⟨hpj,hcj,v,hv,hsv,hkv⟩ := h.job k' j (by simpa [he] using hj)
      have hne : j.user ≠ user := by rintro he'; simp [he',hp] at hpj
      exact ⟨by simp [hne,hpj],hcj,v,by simp [hne,hv],hsv,hkv⟩
  · intro user' v hv hsv
    by_cases he : user' = user
    · have : { u with stride := k, scheduled := true } = v := by simpa [he] using hv
      subst v
      exact ⟨⟨user,c⟩,by simp,he.symm⟩
    · obtain ⟨j,hj,hju⟩ := h.scheduled user' v (by simpa [he] using hv) hsv
      have hne : v.stride ≠ k := by rintro rfl; simp [hk] at hj
      exact ⟨j,by simp [hne,hj],hju⟩
  · intro user' c' hp'
    rcases hpe _ _ hp' with ⟨rfl,rfl⟩ | ⟨hne,hp'',_⟩
    · exact .inl ⟨{ u with stride := k, scheduled := true },by simp,rfl⟩
    · simpa [hne] using h.waits user' c' hp''
  · intro user' c' w hp' hw
    rcases hpe _ _ hp' with ⟨rfl,_⟩ | ⟨_,hp'',_⟩
    · exact hb w hw
    · exact h.unburdened user' c' w hp'' hw
  · intro user' c' hp'
    rcases hpe _ _ hp' with ⟨rfl,_⟩ | ⟨_,hp'',_⟩
    · exact h.knownUser user' u hu
    · exact h.knownPending user' c' hp''

theorem withdraw (h : s.Inv none) (hp : s.pending user = some c)
    (hu : s.sched.users.get user = some u) (hj : s.sched.schedule.get u.stride = some ⟨user,c⟩) :
    Inv { s with
      pending := Function.update s.pending user none
      sched := { s.sched with
        users := s.sched.users.insert user { u with scheduled := false }
        schedule := s.sched.schedule.erase u.stride } } none ∧
    Spare { s with
      pending := Function.update s.pending user none
      sched := { s.sched with
        users := s.sched.users.insert user { u with scheduled := false }
        schedule := s.sched.schedule.erase u.stride } } c := by
  have hc : s.sched.chans c = {} := (h.job _ _ hj).2.1
  have hat : ∀ w p, At { s with
      pending := Function.update s.pending user none
      sched := { s.sched with
        users := s.sched.users.insert user { u with scheduled := false }
        schedule := s.sched.schedule.erase u.stride } } w p ↔ s.At w p := by
    intro w p
    cases p with
    | queued => rfl
    | heldBy user' => rfl
    | bufferedFor user' =>
      simp only [at_bufferedFor]
      by_cases he : user' = user
      · subst user'
        simp [hp,hc]
      · simp [he]
  constructor
  · refine { h with
      toPlacement := h.toPlacement.congr hat rfl rfl
      toChannels := h.toChannels.unpend user _ rfl rfl fun _ _ => rfl
      toJobs := h.remove_job hu hj rfl (fun user' hne => by simp [hne]) (by simp) (fun user' hne => by simp [hne])
        (fun _ _ => rfl)
      waits := ?_, former := by simp
      unburdened := fun user' c' w hp' hw => h.unburdened user' c' w (update_none hp').2 hw
      knownUser := fun user' v hv => h.knownUser_insert hu hv
      knownPending := fun user' c' hp' => h.knownPending user' c' (update_none hp').2 }
    intro user' c' hp'
    obtain ⟨hne,hp''⟩ := update_none hp'
    simpa [hne] using h.waits user' c' hp''
  · refine ⟨h.made c (.inr (.inr ⟨user,hp⟩)),h.apart user c hp,?_,hc⟩
    intro user' hp'
    exact (update_none hp').1 (h.separate _ _ _ (update_none hp').2 hp)

end Inv
end System
end Pggat.Rob
