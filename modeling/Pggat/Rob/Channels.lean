import Pggat.Rob.Invariant

/-! Channels between the free list, a waiting `Acquire` and a returning one. -/
namespace Pggat.Rob
open Pggat.Base
namespace System

/-- An open and empty channel that nobody has: about to be handed out, or just taken back. -/
structure Spare (s : System) (c : Chan) : Prop where
  made : c < s.sched.nextChan
  unlisted : c ∉ s.sched.cc ∧ c ∉ s.returning
  unclaimed : ∀ user, s.pending user ≠ some c
  empty : s.sched.chans c = {}

namespace Inv
variable {s : System} {loose : Option Uuid}

variable {c : Chan}

theorem putChan (h : s.Inv loose) (hc : s.Spare c) :
    Inv { s with sched := s.sched.putChan c } loose := by
  refine { h with made := ?_, distinct := ?_, idle := ?_, apart := ?_ }
  · rintro c' (hc' | hc')
    · rcases List.mem_cons.mp hc' with rfl | hc'
      · exact hc.made
      · exact h.made c' (.inl hc')
    · exact h.made c' (.inr hc')
  · exact List.nodup_cons.mpr ⟨by simpa using hc.unlisted,h.distinct⟩
  · rintro c' (hc' | hc')
    · rcases List.mem_cons.mp hc' with rfl | hc'
      · exact hc.empty
      · exact h.idle c' (.inl hc')
    · exact h.idle c' (.inr hc')
  · intro user c' hp
    have hne : c' ≠ c := fun he => hc.unclaimed user (he ▸ hp)
    exact ⟨by simpa [Scheduler.putChan,hne] using (h.apart user c' hp).1,(h.apart user c' hp).2⟩

theorem putBack (h : s.Inv loose) (hc : s.Spare c) :
    Inv { s with returning := c :: s.returning } loose := by
  refine { h with made := ?_, distinct := ?_, idle := ?_, apart := ?_ }
  · rintro c' (hc' | hc' | hc')
    · exact h.made c' (.inl hc')
    · rcases List.mem_cons.mp hc' with rfl | hc'
      · exact hc.made
      · exact h.made c' (.inr (.inl hc'))
    · exact h.made c' (.inr (.inr hc'))
  · exact List.perm_middle.nodup_iff.mpr (List.nodup_cons.mpr ⟨by simpa using hc.unlisted,h.distinct⟩)
  · rintro c' (hc' | hc')
    · exact h.idle c' (.inl hc')
    · rcases List.mem_cons.mp hc' with rfl | hc'
      · exact hc.empty
      · exact h.idle c' (.inr hc')
  · intro user c' hp
    have hne : c' ≠ c := fun he => hc.unclaimed user (he ▸ hp)
    exact ⟨(h.apart user c' hp).1,by simpa [hne] using (h.apart user c' hp).2⟩

theorem getChan (h : s.Inv loose) : Inv { s with sched := s.sched.getChan.2 } loose ∧
    Spare { s with sched := s.sched.getChan.2 } s.sched.getChan.1 := by
  unfold Scheduler.getChan
  split
  · rename_i c cc hcc
    have hd : c ∉ cc ++ s.returning ∧ (cc ++ s.returning).Nodup := by simpa [hcc] using h.distinct
    constructor
    · refine { h with made := ?_, distinct := hd.2, idle := ?_, apart := ?_ }
      · intro c' hc'
        exact h.made c' (hc'.imp_left fun hm => by simp [hcc,hm])
      · intro c' hc'
        exact h.idle c' (hc'.imp_left fun hm => by simp [hcc,hm])
      · intro user c' hp
        have := h.apart user c' hp
        simp only [hcc,List.mem_cons,not_or] at this
        exact ⟨this.1.2,this.2⟩
    · refine ⟨h.made c (by simp [hcc]),by simpa using hd.1,?_,h.idle c (by simp [hcc])⟩
      intro user hp
      exact (h.apart user c hp).1 (by simp [hcc])
  · rename_i hcc
    have hne : ∀ c, c ∈ s.sched.cc ∨ c ∈ s.returning ∨ (∃ user, s.pending user = some c) → c ≠ s.sched.nextChan :=
      fun c hc => Nat.ne_of_lt (h.made c hc)
    have hch : ∀ c, c ≠ s.sched.nextChan → Function.update s.sched.chans s.sched.nextChan {} c = s.sched.chans c :=
      fun c hc => Function.update_of_ne hc ..
    have hbuf : ∀ c, s.sched.chans c = {} ∨ c ≠ s.sched.nextChan →
        Function.update s.sched.chans s.sched.nextChan {} c = s.sched.chans c := by
      rintro c (hc | hc)
      · by_cases he : c = s.sched.nextChan
        · subst c; simp [hc]
        · exact hch c he
      · exact hch c hc
    have hat : ∀ w p, At { s with sched := { s.sched with
        nextChan := s.sched.nextChan + 1
        chans := Function.update s.sched.chans s.sched.nextChan {} } } w p ↔ s.At w p := by
      intro w p
      cases p with
      | queued => rfl
      | heldBy user => rfl
      | bufferedFor user =>
        simp only [at_bufferedFor]
        refine exists_congr fun c => and_congr_right fun hp => ?_
        rw [hch c (hne c (.inr (.inr ⟨user,hp⟩)))]
    constructor
    · refine { h with toPlacement := h.toPlacement.congr hat rfl rfl, made := ?_, idle := ?_, job := ?_, waits := ?_ }
      · intro c hc
        exact Nat.lt_succ_of_lt (h.made c hc)
      · intro c hc
        have := hne c (by rcases hc with hc | hc <;> simp [hc])
        simpa [hch c this] using h.idle c hc
      · intro k j hj
        obtain ⟨hp,hc,hu⟩ := h.job k j hj
        exact ⟨hp,(hbuf _ (.inl hc)).trans hc,hu⟩
      · intro user c hc
        simpa [hch c (hne c (.inr (.inr ⟨user,hc⟩)))] using h.waits user c hc
    · refine ⟨Nat.lt_succ_self _,⟨?_,?_⟩,?_,by simp⟩
      · exact fun hc => hne _ (.inl hc) rfl
      · exact fun hc => hne _ (.inr (.inl hc)) rfl
      · exact fun user hp => hne _ (.inr (.inr ⟨user,hp⟩)) rfl

variable {user id : Uuid}

/-- The worker in a waiting user's channel is owned by that user or by nobody. -/
theorem buffered_owner (h : s.Inv none) {user' : Uuid} {since : Int}
    (hp : s.pending user = some c) (hc : (s.sched.chans c).buffered = some id)
    (hw : s.sched.workers.get id = some ⟨some user',since⟩) : user' = user := by
  have hat : s.At id (.bufferedFor user) := ⟨c,hp,hc⟩
  rcases h.owner id user' since hw (by simp) with hq | hq
  · cases h.unique _ _ _ hat hq
  · cases h.unique _ _ _ hat hq; rfl

/-- Taking the buffered worker out of a channel ends the wait and frees the channel. -/
theorem take (h : s.Inv none) (hp : s.pending user = some c)
    (hc : s.sched.chans c = ⟨some id,false⟩) :
    Inv { s with pending := Function.update s.pending user none, sched := s.sched.drain c } (some id) ∧
    Spare { s with pending := Function.update s.pending user none, sched := s.sched.drain c } c := by
  have hch : ∀ c', c' ≠ c → (s.sched.drain c).chans c' = s.sched.chans c' := fun c' hne => by
    simp [Scheduler.drain,hne]
  have hother : ∀ user' c', s.pending user' = some c' → user' ≠ user → c' ≠ c := by
    intro user' c' hp' hne he
    exact hne (h.separate _ _ _ hp' (he ▸ hp))
  have hns : ∀ u, s.sched.users.get user = some u → u.scheduled = false := by
    intro u hu
    by_contra hs
    obtain ⟨c',hp',he,_⟩ := h.own_job hu (by simpa using hs)
    cases hp.symm.trans hp'
    simp [hc] at he
  have hone : ∀ w p, s.At w p → (p = .bufferedFor user ↔ w = id) := by
    intro w p hwp
    constructor
    · rintro rfl
      obtain ⟨c',hp',hb⟩ := hwp
      cases hp.symm.trans hp'
      simpa [hc,eq_comm] using hb
    · rintro rfl
      exact h.unique w p _ hwp ⟨c,hp,by simp [hc]⟩
  have hat : ∀ w p, At { s with pending := Function.update s.pending user none, sched := s.sched.drain c } w p ↔
      s.At w p ∧ w ≠ id := by
    intro w p
    rw [← and_congr_right fun hwp => not_congr (hone w p hwp)]
    cases p with
    | queued => simp [Scheduler.drain]
    | heldBy user' => simp
    | bufferedFor user' =>
      simp only [at_bufferedFor,Place.bufferedFor.injEq]
      constructor
      · rintro ⟨c',hp',hb⟩
        obtain ⟨hne,hp''⟩ := update_none hp'
        exact ⟨⟨c',hp'',by simpa [hch c' (hother _ _ hp'' hne)] using hb⟩,hne⟩
      · rintro ⟨⟨c',hp',hb⟩,hne⟩
        exact ⟨c',by simp [hne,hp'],by simpa [hch c' (hother _ _ hp' hne)] using hb⟩
  constructor
  · refine { h with toPlacement := h.toPlacement.lift hat rfl rfl
                    toChannels := h.toChannels.unpend user (s.sched.drain c) rfl rfl ?_
                    job := ?_, waits := ?_, former := ?_, unburdened := ?_, knownPending := ?_ }
    · intro c' hc'
      refine hch c' ?_
      rintro rfl
      exact hc'.elim (h.apart user c' hp).1 (h.apart user c' hp).2
    · intro k j hj
      obtain ⟨hpj,hcj,u,hu,hs,hk⟩ := h.job k j hj
      have hne : j.user ≠ user := by
        intro he
        rw [he] at hu
        simp [hns u hu] at hs
      exact ⟨by simp [hne,hpj],(hch _ (hother _ _ hpj hne)).trans hcj,u,hu,hs,hk⟩
    · intro user' c' hp'
      obtain ⟨hne,hp''⟩ := update_none hp'
      have hw := h.waits user' c' hp''
      rw [← hch c' (hother _ _ hp'' hne)] at hw
      exact hw
    · rintro w user' since u hl hw hu
      cases hl
      cases h.buffered_owner hp (by simp [hc]) hw
      exact hns u hu
    · intro user' c' w hp' hw
      exact h.unburdened user' c' w (update_none hp').2 hw
    · intro user' c' hp'
      exact h.knownPending user' c' (update_none hp').2
  · refine ⟨h.made c (.inr (.inr ⟨user,hp⟩)),h.apart user c hp,?_,by simp [Scheduler.drain,hc]⟩
    intro user' hp'
    exact hother _ _ (update_none hp').2 (update_none hp').1 rfl

end Inv
end System
end Pggat.Rob
