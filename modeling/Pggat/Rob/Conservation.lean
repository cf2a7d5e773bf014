import Pggat.Rob.Steps

/-! Conservation of workers over whole runs of the scheduler and its callers. -/
namespace Pggat.Rob
open Pggat.Base
namespace System

/-- Every worker is in exactly one place, free channels are empty, and no send under the mutex blocks:
not for a new worker, a released one, or one that a removed user's timeout gives back. -/
structure Conserved (s : System) : Prop where
  placed : ∀ id ∈ s.sched.workers, ∃! p, s.At id p
  once : s.sched.queue.Nodup ∧ s.held.Nodup
  free : ∀ c ∈ s.sched.cc, s.sched.chans c = {}
  addWorker : ∀ now, ∀ id ∉ s.workerIds, s.sched.addWorker now id ≠ none
  release : ∀ now, ∀ p ∈ s.held, s.sched.release now p.2 ≠ none
  giveBack : ∀ now user c, s.pending user = some c → s.sched.users.get user = none →
    s.sched.timeout now user c ≠ none

theorem Inv.conserved {s : System} (h : s.Inv none) (hc : s.sched.closed = false) : s.Conserved := by
  refine ⟨?_,⟨h.queueNodup,h.heldNodup⟩,fun c hm => h.idle c (.inl hm),?_,?_,?_⟩
  · intro id hid
    obtain ⟨W,hW⟩ := (Map.mem_iff _ _).mp hid
    obtain ⟨p,hp⟩ := h.somewhere id W hW (by simp)
    exact ⟨p,hp,fun q hq => h.unique id q p hq hp⟩
  · intro now id hid
    obtain ⟨T,hT,_⟩ := h.addWorker hc hid now
    simp [hT]
  · rintro now ⟨user,id⟩ hh
    obtain ⟨T,hT,_⟩ := h.drop_release hc hh now
    simp [hT]
  · intro now user c hp hu
    obtain ⟨r,hr,_⟩ := h.timeout hc hp now (by simp [OwnSlot,hu])
    simp [hr]

/-- Workers are conserved in every run whose timeouts meet only their own jobs. -/
theorem workers_conserved {s : System} (h : Reachable {} (fun s e => s.Usage e ∧ s.OwnSlot e) step s)
    (hc : s.sched.closed = false) : s.Conserved :=
  (reachable_inv h hc).conserved hc

/-- Conversely, the first timeout that meets another user's job breaks conservation. -/
theorem Inv.timeout_breaks {s s' : System} (h : s.Inv none) {now : Int} {user : Uuid}
    (ho : ¬ s.OwnSlot (.timeout now user)) (hs : s.step (.timeout now user) = some s') : ¬ s'.Conserved := by
  simp only [OwnSlot,Option.mem_def,not_forall] at ho
  obtain ⟨c,hp,u,hu,j,hj,hne⟩ := ho
  have hb : ∃ id, s.sched.chans c = ⟨some id,false⟩ := by
    rcases h.waits user c hp with ⟨v,hv,hsv⟩ | hb | ⟨_,hn⟩
    · cases hu.symm.trans hv
      obtain ⟨c',hp',_,hj'⟩ := h.own_job hu hsv
      cases hp.symm.trans hp'
      cases hj.symm.trans hj'
      exact absurd rfl hne
    · exact hb
    · cases hu.symm.trans hn
  obtain ⟨id,hb⟩ := hb
  cases hf : s.fired user with
  | false => simp [step,hp,hf] at hs
  | true =>
    simp only [step,hp,hf,if_true,Scheduler.timeout,hu,hj,Option.map_some] at hs
    cases hs
    intro hc
    have := hc.free c (by simp [Scheduler.putChan])
    simp [Scheduler.putChan,hb] at this

/-- A timeout conserves the workers exactly if it meets no job but its own. -/
theorem timeout_conserves_iff {s s' : System} {now : Int} {user : Uuid}
    (h : Reachable {} (fun s e => s.Usage e ∧ s.OwnSlot e) step s) (hs : s.step (.timeout now user) = some s')
    (hc : s'.sched.closed = false) : s'.Conserved ↔ s.OwnSlot (.timeout now user) := by
  constructor
  · intro conserved
    have hc' : s.sched.closed = false := by
      by_contra closed
      simp [step_closed (by simpa using closed) hs] at hc
    by_contra other
    exact (reachable_inv h hc').timeout_breaks other hs conserved
  · intro own
    exact (reachable_inv (h.next (e := .timeout now user) ⟨trivial,own⟩ hs) hc).conserved hc

/-- A worker arrives between the timer of an `Acquire` and its critical section. -/
def lostRace : List Event := [.addUser 1, .acquire 0 1 true, .timer 1, .addWorker 0 10, .timeout 0 1]

/-- A timed out `Acquire` that lost the race with a new worker still returns that worker. -/
theorem workers_conserved_lostRace : ∃ s, run (fun s e => s.Usage e ∧ s.OwnSlot e) step {} lostRace = some s ∧
    s.held = [(1,10)] ∧ s.Conserved :=
  ⟨_,rfl,rfl,workers_conserved (Reachable.of_run .start (fun _ _ => id) lostRace rfl) rfl⟩

/-- User 2 takes the slot that the dispatched job of user 1 left before user 1 times out. -/
def takenSlot : List Event := [.addUser 1, .addUser 2, .acquire 0 1 true, .addWorker 0 10, .acquire 0 2 false,
  .timer 1, .timeout 0 1]

theorem timeout_conserves_iff_takenSlot : ∃ s s', run (fun s e => s.Usage e ∧ s.OwnSlot e) step {} takenSlot.dropLast =
    some s ∧ s.step (.timeout 0 1) = some s' ∧ (s'.Conserved ↔ s.OwnSlot (.timeout 0 1)) :=
  ⟨_,_,rfl,rfl,timeout_conserves_iff (.of_run .start (fun _ _ => id) takenSlot.dropLast rfl) rfl rfl⟩

/-- The timeout of user 1 removes the job of user 2 and recycles the channel in which worker 10 is
buffered. The worker is in no place, and the next send on its channel blocks. -/
theorem timeout_loses_worker : ∃ s, run Usage step {} takenSlot = some s ∧ s.sched.closed = false ∧
    ¬ s.Conserved ∧ (10 ∈ s.sched.workers ∧ ∀ p, ¬ s.At 10 p) ∧ (0 ∈ s.sched.cc ∧ s.sched.chans 0 = ⟨some 10,false⟩) ∧
    ∃ t, run Usage step s [.addUser 3, .acquire 0 3 false] = some t ∧ t.sched.addWorker 0 11 = none := by
  refine ⟨_,rfl,rfl,?_,⟨by decide,?_⟩,⟨by decide,rfl⟩,_,rfl,rfl⟩
  · intro h
    exact absurd (h.free 0 (by decide)) (by decide)
  · intro p hp
    cases p with
    | queued => exact List.not_mem_nil hp
    | heldBy user => exact List.not_mem_nil hp
    | bufferedFor user =>
      obtain ⟨c,hp,hb⟩ := hp
      obtain ⟨h1,hp⟩ := update_none hp
      by_cases h2 : user = 2
      · subst h2
        cases hp
        cases hb
      · have hn : Function.update (Function.update (fun _ => none) 1 (some 0)) 2 (some 1) user = some c := hp
        simp [h1,h2] at hn

end System
end Pggat.Rob
