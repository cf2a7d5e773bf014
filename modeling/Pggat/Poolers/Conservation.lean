import Pggat.Poolers.Simulation

/-! The `lifo` pooler in every interleaving of its callers: where its servers are, and whose turn it is. -/
namespace Pggat.Poolers
open Spool Base
namespace System
variable {s s' : System}

/-- The pooler is at some desk where every server is in one place and calls are served in order. -/
def Sound (s : System) : Prop := ∃ d : Desk, d.Placed ∧ d.Lined ∧ s.Sim d ∧ s.Leased

/-- Server ids are unique. -/
def Fresh (s : System) : Event → Prop
  | .addServer server => server ∉ s.added
  | _ => True

instance (s : System) : ∀ e, Decidable (s.Fresh e)
  | .addServer server => inferInstanceAs (Decidable (server ∉ s.added))
  | .deleteServer _ => .isTrue trivial
  | .acquire _ _ => .isTrue trivial
  | .receive _ => .isTrue trivial
  | .recycle _ => .isTrue trivial
  | .fire _ => .isTrue trivial
  | .timeout _ => .isTrue trivial
  | .release _ => .isTrue trivial
  | .close => .isTrue trivial

theorem Sound.initial : Sound {} := by
  have lent : (Desk.custody {}).Lent := by
    constructor <;> intros <;> simp_all [Desk.custody,Desk.item]
  have leased : (System.channels {}).Lent := by
    constructor <;> intros <;> simp_all [System.channels,Phase.chan]
  refine ⟨{}, ⟨lent,fun _ hp => absurd hp List.not_mem_nil,List.nodup_nil,List.nodup_nil⟩, ?_, ?_, ?_⟩
  · exact ⟨List.nodup_nil,by simp,.inl rfl,List.nodup_nil,by simp,fun _ => rfl⟩
  · exact ⟨Util.Ring.wf_empty,rfl,rfl,rfl,fun _ => rfl,by simp [Phase.waitsOn],rfl,rfl,rfl,rfl,rfl,by simp [Phase.waitsOn]⟩
  · exact ⟨leased,List.nodup_nil,by simp,by simp,by simp⟩

theorem Sound.step (h : s.Sound) {e : Event} (fresh : s.Fresh e) (he : s.step e = some s') : s'.Sound := by
  obtain ⟨d,placed,lined,sim,leased⟩ := h
  cases e with
  | addServer server =>
    have unknown : server ∉ d.added := sim.added ▸ fresh
    obtain ⟨s'',added,sim',leased'⟩ := sim.addServer lined leased server
    obtain rfl := Option.some.inj (added.symm.trans he)
    exact ⟨_,placed.addServer lined unknown,(lined.register server).hand server,sim',leased'⟩
  | deleteServer server =>
    obtain rfl := Option.some.inj he
    refine ⟨_, placed.deleteServer server, lined.deleteServer server, ?_, ?_⟩
    · exact { sim with
        servers := congrArg (List.erase · server) sim.servers
        queue := (congrArg (List.erase · server) sim.queue).trans (remove_eq_erase ..).symm }
    · exact ⟨leased.lent,leased.pool,leased.pooled,leased.taken,leased.shut⟩
  | acquire call timed =>
    rw [System.step] at he
    split at he
    · rename_i idle
      obtain ⟨s'',acquired,sim',leased'⟩ := sim.acquire lined leased idle timed
      obtain rfl := Option.some.inj (acquired.symm.trans he)
      have idle' : d.stage call = .idle := by rw [sim.stage,idle]; rfl
      exact ⟨_,placed.acquire idle',lined.acquire idle',sim',leased'⟩
    · cases he
  | receive call =>
    rw [System.step] at he
    split at he
    · rename_i c timed hp
      obtain ⟨d',received,sim',leased'⟩ := sim.receive lined leased hp he
      have pending : d.stage call = .pending := by rw [sim.stage,hp]; rfl
      exact ⟨d',placed.receive pending received,lined.receive received,sim',leased'⟩
    · cases he
  | recycle call =>
    rw [System.step] at he
    split at he
    · rename_i c server hp
      obtain rfl := Option.some.inj he
      refine ⟨d, placed, lined, sim.recycle lined hp, ?_⟩
      exact leased.putBack (c := c) (p := .holding server) (by rw [hp]; rfl) rfl rfl rfl rfl (fun _ _ => rfl)
        (leased.taken _ c server hp)
    · cases he
  | fire call =>
    rw [System.step] at he
    split at he
    · rename_i c hp
      obtain rfl := Option.some.inj he
      exact ⟨d,placed,lined,sim.fire hp,leased.fire hp⟩
    · cases he
  | timeout call =>
    rw [System.step] at he
    split at he
    · rename_i c hp
      obtain ⟨s'',d',timed,left,sim',leased'⟩ := sim.timeout lined leased hp
      obtain rfl := Option.some.inj (timed.symm.trans he)
      have pending : d.stage call = .pending := by rw [sim.stage,hp]; rfl
      exact ⟨d',placed.timeout lined pending left,lined.timeout left,sim',leased'⟩
    · cases he
  | release call =>
    rw [System.step] at he
    split at he
    · rename_i server hp
      obtain ⟨s'',handed,sim',leased'⟩ := sim.giveBack lined leased hp
      obtain rfl := Option.some.inj (handed.symm.trans he)
      exact ⟨_,placed.release lined (sim.holding hp),lined.release (sim.holding hp),sim',leased'⟩
    · cases he
  | close =>
    obtain ⟨T,closed,sim',leased'⟩ := sim.close lined leased
    rw [System.step,closed] at he
    obtain rfl := Option.some.inj he
    exact ⟨_,placed.close lined,lined.close,sim',leased'⟩

private theorem Sound.sections_return (h : s.Sound) :
    (∀ server, (s.step (.addServer server)).isSome) ∧
    (∀ call timed, s.phase call = .idle → (s.step (.acquire call timed)).isSome) ∧
    (∀ call c, s.phase call = .fired c → (s.step (.timeout call)).isSome) ∧
    (∀ call server, s.phase call = .holding server → (s.step (.release call)).isSome) ∧ (s.step .close).isSome := by
  obtain ⟨d,-,lined,sim,leased⟩ := h
  refine ⟨fun server => ?_, fun call timed idle => ?_, fun call c hp => ?_, fun call server hp => ?_, ?_⟩
  · obtain ⟨s',added,-⟩ := sim.addServer lined leased server
    exact Option.isSome_of_eq_some added
  · obtain ⟨s',acquired,-⟩ := sim.acquire lined leased idle timed
    simp [System.step,idle,acquired]
  · obtain ⟨s',-,timed,-⟩ := sim.timeout lined leased hp
    simp [System.step,hp,timed]
  · obtain ⟨s',handed,-⟩ := sim.giveBack lined leased hp
    simp [System.step,hp,handed]
  · obtain ⟨T,closed,-⟩ := sim.close lined leased
    simp [System.step,closed]

private theorem Sound.of_reachable (h : Reachable {} Fresh System.step s) : s.Sound :=
  h.invariant Sound.initial fun _ _ _ sound fresh he => sound.step fresh he

/-- In every interleaving each server is in one place, none is queued while a call waits, calls that wait are served in
the order in which they began, whoever leaves, and a call whose timer has fired does not block under the mutex. -/
theorem servers_conserved {s : System} (h : Reachable {} Fresh System.step s) :
    (∀ server ∈ s.pooler.servers,
      s.pooler.queue.count server = 1 ∧ (∀ call, s.item call ≠ some server) ∨
      server ∉ s.pooler.queue ∧ ∃! call, s.item call = some server) ∧
    (s.pooler.queue ≠ [] → s.pooler.waiters.items = [] ∧
      ∀ call c, (s.phase call).waitsOn = some c → s.pooler.chans c ≠ {}) ∧
    (s.pooler.closed = false → ∃ line, s.served ++ line = s.began.filter (· ∉ s.left) ∧
      line.map (fun call => (s.phase call).waitsOn) = s.pooler.waiters.items.map some) ∧
    ∀ call c, s.phase call = .fired c → (s.pooler.timeout c).isSome := by
  have sound := Sound.of_reachable h
  have sections := sound.sections_return
  obtain ⟨d,placed,lined,sim,leased⟩ := sound
  refine ⟨fun server known => ?_, fun queued => ?_, fun opened => ⟨d.lifo.waiters, ?_, sim.line⟩, fun call c hp => ?_⟩
  · have held (call : Uuid) (hc : s.item call = some server) : d.custody.holds call = some ((),server) := by
      simp [Desk.custody,sim.item_eq,hc]
    by_cases queued : server ∈ s.pooler.queue
    · refine .inl ⟨?_, fun call hc => ?_⟩
      · exact List.count_eq_one_of_mem (sim.queue ▸ placed.queue) queued
      · exact placed.lent.holds_busy call ((),server) (held call hc) (show server ∈ d.lifo.queue from sim.queue ▸ queued)
    · refine .inr ⟨queued, ?_⟩
      rcases placed.covered ((),server) (show server ∈ d.lifo.servers from sim.servers ▸ known) with free | ⟨call,hc⟩
      · exact absurd (show server ∈ s.pooler.queue from sim.queue ▸ free) queued
      · refine ⟨call, by simpa [Desk.custody,sim.item_eq] using hc, fun call' hc' => ?_⟩
        exact placed.lent.holds_once call' call ((),server) (held call' hc') hc
  · have empty : d.lifo.waiters = [] := lined.calm.resolve_left (sim.queue ▸ queued)
    refine ⟨sim.waiters_nil.mp empty, fun call c hc none => ?_⟩
    have waits := (lined.waits call).mpr ⟨(sim.stage call).trans (Phase.pending_of_waitsOn hc),(sim.ready call c hc).trans none⟩
    simp [empty] at waits
  · rw [← sim.served,← sim.began,← sim.left]
    exact lined.order (sim.closed.trans opened)
  · simpa [System.step,hp,System.timeout] using sections.2.2.1 call c hp

/-- Call 1 times out while server 7 is on its way to it, and gives it to call 2. -/
def race : List Event :=
  [.acquire 1 true, .acquire 2 false, .fire 1, .addServer 7, .timeout 1, .release 1, .acquire 3 true, .fire 3]

theorem servers_conserved_race :
    ∃ s, Reachable {} Fresh System.step s ∧ s.pooler.servers = [7] ∧ s.served = [1, 2] ∧
      (7 ∉ s.pooler.queue ∧ ∃! call, s.item call = some 7) ∧ ∃ c, s.phase 3 = .fired c ∧ (s.pooler.timeout c).isSome := by
  have h : Reachable {} Fresh System.step _ := Reachable.of_run .start (fun _ _ => id) race rfl
  obtain ⟨places,-,-,returns⟩ := servers_conserved h
  refine ⟨_, h, rfl, rfl, (places 7 (.head _)).resolve_left fun queued => ?_, _, rfl, returns 3 _ rfl⟩
  exact absurd queued.1 (by decide)

end System
end Pggat.Poolers
