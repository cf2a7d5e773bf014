import Pggat.Pools.Hybrid

/-! Which of the two spool pools of a hybrid pool a cancel request is passed on to. -/
namespace Pggat.Pools

/-- The peer and the flag that a statement leaves on record, from those before it. -/
def Op.record {ι : Type} (before : Option Spool.Uuid × Bool) : Op ι → Option Spool.Uuid × Bool
  | .setState _ peer replica => (peer,replica)
  | .addClient => (none,false)
  | _ => before

def Client.record {κ : Type} (client : Client κ) : Option Spool.Uuid × Bool := (client.peer,client.peerIsReplica)

theorem System.exec_frame {ι κ : Type} [DecidableEq ι] {s s' : System ι κ} {id : Spool.Uuid} {place : κ} {op : Op ι}
    (h : s.exec id place op = some s') :
    s'.made = s.made ∧ (s'.clients id).place = place ∧ (s'.clients id).record = op.record (s.clients id).record ∧
      ∀ other, other ≠ id → s'.clients other = s.clients other := by
  cases op with
  | acquire server =>
    rw [System.exec] at h
    split at h
    · obtain rfl := Option.some.inj h
      exact ⟨rfl,by simp [setClient],by simp [setClient,Op.record,Client.record],fun other ne => by simp [setClient,ne]⟩
    · cases h
  | _ =>
    obtain rfl := Option.some.inj h
    exact ⟨rfl,by simp [setClient],by simp [setClient,Op.record,Client.record],fun other ne => by
      simp [setClient,dropServer,ne]⟩

namespace Hybrid
open Pggat.Spool Pggat.Base

/-- No client is served in mode `wo`, and one in mode `rw` always finds a replica recipe. -/
def Replicated (s : System Kind Place) : Event Kind → Prop
  | .client id _ =>
    match (s.clients id).place with
    | .arriving mode => mode ≠ .only true
    | .choosing _ => s.recipes .replica
    | _ => True
  | _ => True

instance (s : System Kind Place) (e : Event Kind) : Decidable (Replicated s e) := by
  cases e with
  | client id choice => dsimp only [Replicated]; split <;> infer_instance
  | addServer _ => exact .isTrue trivial
  | removeServer _ => exact .isTrue trivial
  | setRecipes _ _ => exact .isTrue trivial

/-- The flag recorded for a use tells which pool its server comes from. -/
def Use.Routed (use : Use) : Prop := (use != .fallback) = (use.kind == .replica)

def Place.Routed : Place → Prop
  | starting mode | top mode _ | reading mode => mode ≠ .only true
  | acquiring use _ | pairing use _ _ | syncing use _ _ | greeting use _ | bouncing use _ | replaying use => use.Routed
  | arriving _ | choosing _ | refused _ | leaving _ _ | departing | gone => True

variable {use : Use}

private theorem Use.Routed.mode (h : use.Routed) : use.mode ≠ .only true := by
  rintro e
  cases use with
  | rw kind => cases e
  | fallback => cases e
  | only write => cases e; cases h

private theorem awaiting_routed {mode : Mode} (first : Bool) (h : mode ≠ .only true) : (awaiting first mode).Routed := by
  cases mode with
  | rw => trivial
  | only write =>
    cases write
    · rfl
    · exact absurd rfl h

private theorem pair_routed (first : Bool) (server : Uuid) (h : use.Routed) : (pair first server use).2.Routed := by
  cases use <;> exact h

private theorem paired_routed (first : Bool) (server : Uuid) (h : use.Routed) :
    (paired first server use).2.Routed := by
  cases first <;> exact h

variable {recipes : Kind → Bool} {place : Place} {choice : Choice} {r : Op Kind × Place}

/-- Serve loops that begin and choose as they should only come to uses whose flag is right. -/
theorem serve_routed
    (begins : ∀ mode, place = .arriving mode → mode ≠ .only true)
    (chooses : ∀ first, place = .choosing first → recipes .replica = true) (routed : place.Routed) :
    serve recipes place choice = some r → r.2.Routed := by
  fun_cases serve recipes place choice <;> intro h <;> cases h
  case case5 hempty => exact absurd (chooses _ rfl) hempty
  case case6 hempty _ => exact absurd (chooses _ rfl) hempty
  all_goals
    first
    | exact rfl
    | exact routed
    | exact begins _ rfl
    | exact routed.mode
    | exact awaiting_routed _ routed
    | exact pair_routed _ _ routed
    | exact paired_routed _ _ routed
    | trivial

/-- What is recorded with a server, and whether that is right. -/
def Op.Flagged (held : Option (Kind × Uuid)) : Op Kind → Prop
  | .setState _ (some peer) replica => held = some (if replica then .replica else .primary,peer)
  | _ => True

private theorem pair_flagged (first : Bool) (server : Uuid) (h : use.Routed) :
    Op.Flagged (some (use.kind,server)) (pair first server use).1 := by
  cases use with
  | rw kind => cases kind <;> first | rfl | cases h
  | fallback => trivial
  | only write => cases write <;> first | rfl | cases h

private theorem paired_flagged (first : Bool) (server : Uuid) (h : use.Routed) :
    Op.Flagged (some (use.kind,server)) (paired first server use).1 := by
  cases use with
  | rw kind => cases kind <;> first | rfl | cases h
  | fallback => rfl
  | only write => cases write <;> first | rfl | cases h

private theorem serve_flagged
    (routed : place.Routed) : serve recipes place choice = some r → Op.Flagged place.held r.1 := by
  fun_cases serve recipes place choice <;> intro h <;> cases h
  all_goals
    first
    | trivial
    | exact pair_flagged _ _ routed
    | exact paired_flagged _ _ routed

/-- Every recorded peer comes from the pool that its flag names. -/
structure Directed (s : System Kind Place) : Prop where
  routed : ∀ id, (s.clients id).place.Routed
  flagged : ∀ id peer replica, (s.clients id).record = (some peer,replica) →
    (if replica then .replica else .primary,peer) ∈ s.made

variable {s : System Kind Place}

private theorem Directed.client {s' : System Kind Place} {id : Uuid} (h : Directed s)
    (lent : (loop.custody s).Lent) (allowed : Replicated s (.client id choice))
    (hs : loop.step s (.client id choice) = some s') : Directed s' := by
  rw [Loop.step] at hs
  split at hs
  · rename_i op place hnext
    obtain ⟨made,hplace,hrecord,others⟩ := System.exec_frame hs
    have routed : place.Routed := by
      refine serve_routed ?_ ?_ (h.routed id) hnext
      · intro mode e
        simpa only [Replicated,e] using allowed
      · intro first e
        simpa only [Replicated,e] using allowed
    constructor
    · intro other
      rcases eq_or_ne other id with rfl | ne
      · exact hplace ▸ routed
      · exact others other ne ▸ h.routed other
    · intro other peer replica hr
      rw [made]
      rcases eq_or_ne other id with rfl | ne
      · rw [hrecord] at hr
        have flagged := serve_flagged (h.routed other) hnext
        cases op with
        | setState state recorded flag =>
          cases hr
          exact lent.holds_made other _ flagged
        | addClient => cases hr
        | _ => exact h.flagged other peer replica hr
      · exact h.flagged other peer replica (others other ne ▸ hr)
  · cases hs

private theorem directed {mode : Uuid → Mode}
    (h : Reachable (initial mode) Replicated loop.step s) : (loop.custody s).Lent ∧ Directed s := by
  have starts : loop.Starts fun id => .arriving (mode id) := fun _ => rfl
  refine h.invariant (P := fun s => (loop.custody s).Lent ∧ Directed s) ?_ ?_
  · exact ⟨Loop.initial_lent starts,fun _ => trivial,fun _ _ _ hr => nomatch hr⟩
  · rintro s e s' ⟨lent,hd⟩ allowed hs
    refine ⟨Loop.lent_step serve_sound lent hs, ?_⟩
    cases e with
    | client id choice => exact hd.client lent allowed hs
    | addServer server =>
      rw [Loop.step] at hs
      split at hs
      · obtain rfl := Option.some.inj hs
        exact ⟨hd.routed,fun id peer replica hr => List.mem_cons_of_mem _ (hd.flagged id peer replica hr)⟩
      · cases hs
    | removeServer server =>
      obtain rfl := Option.some.inj hs
      exact ⟨hd.routed,hd.flagged⟩
    | setRecipes pool present =>
      obtain rfl := Option.some.inj hs
      exact ⟨hd.routed,hd.flagged⟩

/-- Where no client is served in mode `wo` and those in mode `rw` find a replica recipe, the recorded flag tells
which pool a peer comes from, and a cancel request is passed on to the pool that made the server, the only one that
can know it. -/
theorem peerIsReplica_iff {mode : Uuid → Mode} {s : System Kind Place}
    (h : Reachable (initial mode) Replicated loop.step s) (id peer : Uuid) (hp : (s.clients id).peer = some peer) :
    ((s.clients id).peerIsReplica = true ↔ (Kind.replica,peer) ∈ s.made) ∧
      ∀ target, cancel s id = some target →
        target ∈ s.made ∧ ∀ pool, (pool,target.2) ∈ s.servers → pool = target.1 := by
  obtain ⟨lent,hd⟩ := directed h
  have flagged := hd.flagged id peer _ (by rw [Client.record,hp])
  refine ⟨⟨?_,?_⟩,?_⟩
  · intro hr
    rwa [hr] at flagged
  · intro made
    have same := congrArg Prod.fst (lent.made_once _ flagged _ made rfl)
    simpa using same
  · rintro target ht
    obtain ⟨peer',found,rfl⟩ := Option.map_eq_some_iff.mp ht
    have recorded : (s.clients id).peer = some peer' := by
      simp only [System.peerOf,Client.found] at found
      split at found
      · exact found
      · cases found
    have made := hd.flagged id peer' _ (by rw [Client.record,recorded])
    refine ⟨made, fun pool known => ?_⟩
    exact congrArg Prod.fst (lent.made_once _ (lent.stock_made known) _ made rfl)

/-- Client 1 is refused by the replica 7 and runs on the primary 9. -/
def fallsBack : List (Event Kind) :=
  [.setRecipes .replica true, .addServer (.replica,7), .addServer (.primary,9), .client 1 .go, .client 1 .ready,
    .client 1 .go, .client 1 .ok, .client 1 .go, .client 1 (.given 7), .client 1 .go, .client 1 .ok,
    .client 1 .readOnly, .client 1 .clean, .client 1 .ok, .client 1 (.given 9), .client 1 .go, .client 1 .ok]

theorem peerIsReplica_iff_fallsBack :
    ∃ s, Reachable (initial fun _ => .rw) Replicated loop.step s ∧ (s.clients 1).peer = some 9 ∧
      ((s.clients 1).peerIsReplica = true ↔ (Kind.replica,9) ∈ s.made) ∧
      ∀ target, cancel s 1 = some target →
        target ∈ s.made ∧ ∀ pool, (pool,target.2) ∈ s.servers → pool = target.1 := by
  have h : Reachable (initial fun _ => .rw) Replicated loop.step _ :=
    Reachable.of_run .start (fun _ _ => id) fallsBack rfl
  exact ⟨_,h,rfl,peerIsReplica_iff h 1 9 rfl⟩

/-- Client 1 runs on the primary 9, there being no replica recipe. -/
def withoutReplica : List (Event Kind) :=
  [.addServer (.primary,9), .client 1 .go, .client 1 .unready, .client 1 .go, .client 1 (.given 9), .client 1 .go]

/-- Client 1 in mode `wo` runs on the primary 9. -/
def writesOnly : List (Event Kind) :=
  [.addServer (.primary,9), .client 1 .go, .client 1 .unready, .client 1 (.given 9), .client 1 .go, .client 1 .ok]

/-- A primary on record as a replica: the cancel request goes to a pool that does not know the server. -/
theorem primary_recorded_as_replica :
    (∃ s, Reachable (initial fun _ => .rw) (fun _ _ => True) loop.step s ∧ s.made = [(.primary,9)] ∧
      cancel s 1 = some (.replica,9)) ∧
    ∃ s, Reachable (initial fun _ => .only true) (fun _ _ => True) loop.step s ∧ s.made = [(.primary,9)] ∧
      cancel s 1 = some (.replica,9) :=
  ⟨⟨_,Reachable.of_run .start (fun _ _ => id) withoutReplica rfl,rfl,rfl⟩,
    ⟨_,Reachable.of_run .start (fun _ _ => id) writesOnly rfl,rfl,rfl⟩⟩

end Hybrid
end Pggat.Pools
