import Pggat.Pools.Basic
import Pggat.Pools.Hybrid

/-! Whether the server that a cancel request would be sent to is still with the client that it is recorded for. -/
namespace Pggat.Pools
open Pggat.Spool Pggat.Base

variable {ι κ : Type}

/-- Every recorded peer is in the variables of its client, or removed for good; no pooler can hand it out and no
other client has it. -/
def Loop.Exclusive (loop : Loop ι κ) (s : System ι κ) : Prop :=
  ∀ id peer, s.peerOf id = some peer →
    ((∃ pool, loop.held (s.clients id).place = some (pool,peer)) ∨ ∀ pool, (pool,peer) ∉ s.servers) ∧
    (∀ pool, (pool,peer) ∉ s.pooled) ∧
    ∀ other, other ≠ id → ∀ pool, loop.held (s.clients other).place ≠ some (pool,peer)

private theorem Loop.exclusive_of_attended {loop : Loop ι κ} {s : System ι κ} (lent : (loop.custody s).Lent)
    (attended : (loop.custody s).Attended) : loop.Exclusive s := by
  intro id peer noted
  obtain ⟨pool,keeps⟩ := attended id peer noted
  have only : ∀ pool', (pool',peer) ∈ (loop.custody s).made → (pool',peer) = (pool,peer) :=
    fun pool' made => lent.made_once _ made _ keeps.made rfl
  refine ⟨?_, ?_, ?_⟩
  · refine keeps.held.imp (fun held => ⟨pool,held⟩) fun removed pool' stocked => removed ?_
    exact only pool' (lent.stock_made stocked) ▸ stocked
  · intro pool' free
    exact keeps.busy (only pool' (lent.stock_made (lent.free_stock free)) ▸ free)
  · intro other ne pool' held
    exact keeps.alone other ne (only pool' (lent.holds_made other _ held) ▸ held)

/-- When servers are given back only by clients that do not have them on record, every recorded peer is exclusively
held, whatever the pool. -/
theorem recorded_exclusive (config : Basic.Config) (mode : Uuid → Hybrid.Mode) :
    (∀ s, Reachable Basic.initial (Basic.loop config).Prompt (Basic.loop config).step s →
      (Basic.loop config).Exclusive s) ∧
    ∀ s, Reachable (Hybrid.initial mode) Hybrid.loop.Prompt Hybrid.loop.step s → Hybrid.loop.Exclusive s := by
  constructor
  · intro s h
    have sound := Basic.serve_sound config
    have starts : (Basic.loop config).Starts fun _ => .arriving := fun _ => rfl
    exact Loop.exclusive_of_attended (Loop.reachable_lent sound starts h) (Loop.reachable_attended sound starts h)
  · intro s h
    have starts : Hybrid.loop.Starts fun id => .arriving (mode id) := fun _ => rfl
    exact Loop.exclusive_of_attended (Loop.reachable_lent Hybrid.serve_sound starts h)
      (Loop.reachable_attended Hybrid.serve_sound starts h)

def transactionMode : Basic.Config := ⟨true,.dynamic,true⟩

/-- Client 1 runs a transaction on server 7 and gives it back; client 2 then begins one on it. -/
def handedOn : List (Event Unit) :=
  [.addServer ((),7), .client 1 .go, .client 1 .ready, .client 1 .go, .client 1 .ok, .client 1 (.given 7),
    .client 1 .go, .client 1 .ok, .client 1 .ok, .client 1 .go, .client 1 .clean,
    .client 2 .go, .client 2 .unready, .client 2 (.given 7), .client 2 .go]

/-- Client 1 in mode `rw` is bouncing on the replica 7. -/
def onReplica : List (Event Hybrid.Kind) :=
  [.setRecipes .replica true, .addServer (.replica,7), .client 1 .go, .client 1 .ready, .client 1 .go, .client 1 .ok,
    .client 1 .go, .client 1 (.given 7), .client 1 .go, .client 1 .ok]

theorem recorded_exclusive_handedOn :
    (∃ s, Reachable Basic.initial (Basic.loop transactionMode).Prompt (Basic.loop transactionMode).step s ∧
      s.peerOf 1 = none ∧ s.peerOf 2 = some 7 ∧ (Basic.loop transactionMode).Exclusive s) ∧
    ∃ s, Reachable (Hybrid.initial fun _ => .rw) Hybrid.loop.Prompt Hybrid.loop.step s ∧
      s.peerOf 1 = some 7 ∧ Hybrid.loop.Exclusive s := by
  constructor
  · have h : Reachable Basic.initial (Basic.loop transactionMode).Prompt (Basic.loop transactionMode).step _ :=
      Reachable.of_run .start (fun _ _ => id) handedOn rfl
    exact ⟨_,h,rfl,rfl,(recorded_exclusive transactionMode fun _ => .rw).1 _ h⟩
  · have h : Reachable (Hybrid.initial fun _ => .rw) Hybrid.loop.Prompt Hybrid.loop.step _ :=
      Reachable.of_run .start (fun _ _ => id) onReplica rfl
    exact ⟨_,h,rfl,(recorded_exclusive transactionMode fun _ => .rw).2 _ h⟩

/-- A server that a client has is with no other client, and its pooler cannot hand it out. -/
def Loop.LentOnce (loop : Loop ι κ) (s : System ι κ) : Prop :=
  ∀ id server, loop.held (s.clients id).place = some server →
    server ∉ s.pooled ∧ ∀ other, loop.held (s.clients other).place = some server → other = id

private theorem Loop.lentOnce_of_lent {loop : Loop ι κ} {s : System ι κ} (lent : (loop.custody s).Lent) :
    loop.LentOnce s :=
  fun id server held => ⟨lent.holds_busy id server held,fun other held' => lent.holds_once other id server held' held⟩

theorem servers_lent_once (config : Basic.Config) (mode : Uuid → Hybrid.Mode) :
    (∀ s, Reachable Basic.initial (fun _ _ => True) (Basic.loop config).step s → (Basic.loop config).LentOnce s) ∧
    ∀ s, Reachable (Hybrid.initial mode) (fun _ _ => True) Hybrid.loop.step s → Hybrid.loop.LentOnce s :=
  ⟨fun _ h => Loop.lentOnce_of_lent (Loop.reachable_lent (Basic.serve_sound config) (fun _ => rfl) h),
    fun _ h => Loop.lentOnce_of_lent (Loop.reachable_lent Hybrid.serve_sound (fun _ => rfl) h)⟩

/-- Client 1 goes away with server 7, which client 2 is given before client 1 is deregistered. -/
def disconnected : List (Event Unit) :=
  [.addServer ((),7), .client 1 .go, .client 1 .ready, .client 1 .go, .client 1 .ok, .client 1 (.given 7),
    .client 1 .go, .client 1 .ok, .client 1 .err, .client 1 .clean,
    .client 2 .go, .client 2 .unready, .client 2 (.given 7)]

/-- Client 1 gives its replica 7 back, and client 2 has it before client 1 records that it is idle. -/
def overtaken : List (Event Hybrid.Kind) :=
  onReplica ++ [.client 1 .ok, .client 1 .clean, .client 2 .go, .client 2 .unready, .client 2 .go, .client 2 (.given 7)]

/-- Client 1 has server 7 on record while client 2 has it: in a basic pool when client 1 leaves, in a hybrid pool
after every transaction. -/
theorem recorded_peer_of_another :
    (∃ s, Reachable Basic.initial (fun _ _ => True) (Basic.loop transactionMode).step s ∧
      s.peerOf 1 = some 7 ∧ (Basic.loop transactionMode).held (s.clients 2).place = some ((),7)) ∧
    ∃ s, Reachable (Hybrid.initial fun _ => .rw) (fun _ _ => True) Hybrid.loop.step s ∧
      s.peerOf 1 = some 7 ∧ Hybrid.loop.held (s.clients 2).place = some (.replica,7) :=
  ⟨⟨_,Reachable.of_run .start (fun _ _ => id) disconnected rfl,rfl,rfl⟩,
    ⟨_,Reachable.of_run .start (fun _ _ => id) overtaken rfl,rfl,rfl⟩⟩

theorem servers_lent_once_overtaken : ∃ s, Reachable (Hybrid.initial fun _ => .rw) (fun _ _ => True) Hybrid.loop.step s ∧
    Hybrid.loop.held (s.clients 2).place = some (.replica,7) ∧ Hybrid.loop.LentOnce s := by
  have h : Reachable (Hybrid.initial fun _ => .rw) (fun _ _ => True) Hybrid.loop.step _ :=
    .of_run .start (fun _ _ => id) overtaken rfl
  exact ⟨_,h,rfl,(servers_lent_once transactionMode fun _ => .rw).2 _ h⟩

end Pggat.Pools
