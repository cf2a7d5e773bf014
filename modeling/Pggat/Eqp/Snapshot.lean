import Pggat.Base.Runs
import Pggat.Eqp.Memory

/-! `Set` takes a snapshot of a state: the copy behaves as the original and neither sees what happens to the other. -/
namespace Pggat.Eqp
open Pggat.Base Pggat.Util

namespace State

/-- The states have the same prepared statements and portals, and the same packets are pending. -/
structure Same (T T' : State) : Prop where
  preparedStatements : ∀ name, T.preparedStatements.get name = T'.preparedStatements.get name
  portals : ∀ name, T.portals.get name = T'.portals.get name
  pendingPreparedStatements : T.pendingPreparedStatements = T'.pendingPreparedStatements
  pendingPortals : T.pendingPortals = T'.pendingPortals
  pendingCloses : T.pendingCloses = T'.pendingCloses

namespace Same
variable {T T' : State}

theorem close (h : T.Same T') (c : Close) : (T.close c).Same (T'.close c) :=
  { h with pendingCloses := congrArg (· ++ [c]) h.pendingCloses }

theorem parse (h : T.Same T') (p : Parse) : (T.parse p).Same (T'.parse p) :=
  { h with pendingPreparedStatements := congrArg (· ++ [p]) h.pendingPreparedStatements }

theorem bind (h : T.Same T') (p : Bind) : (T.bind p).Same (T'.bind p) :=
  { h with pendingPortals := congrArg (· ++ [p]) h.pendingPortals }

theorem query (h : T.Same T') : T.query.Same T'.query :=
  { h with
    preparedStatements := fun name => by
      simp only [State.query,Map.get_erase,h.preparedStatements]
    portals := fun name => by
      simp only [State.query,Map.get_erase,h.portals] }

private theorem clearPending (h : T.Same T') : T.clearPending.Same T'.clearPending :=
  ⟨h.preparedStatements,h.portals,rfl,rfl,rfl⟩

private theorem closeComplete (h : T.Same T') : T.closeComplete.Same T'.closeComplete := by
  rw [State.closeComplete,State.closeComplete,← h.pendingCloses]
  rcases T.pendingCloses with _ | ⟨⟨_ | _,target⟩,rest⟩
  · exact h
  · refine { h with preparedStatements := fun name => ?_, pendingCloses := rfl }
    simp only [Map.get_erase,h.preparedStatements]
  · refine { h with portals := fun name => ?_, pendingCloses := rfl }
    simp only [Map.get_erase,h.portals]

private theorem parseComplete (h : T.Same T') : T.parseComplete.Same T'.parseComplete := by
  rw [State.parseComplete,State.parseComplete,← h.pendingPreparedStatements]
  rcases T.pendingPreparedStatements with _ | ⟨p,rest⟩
  · exact h
  · refine { h with preparedStatements := fun name => ?_, pendingPreparedStatements := rfl }
    simp only [Map.get_insert,h.preparedStatements]

private theorem bindComplete (h : T.Same T') : T.bindComplete.Same T'.bindComplete := by
  rw [State.bindComplete,State.bindComplete,← h.pendingPortals]
  rcases T.pendingPortals with _ | ⟨p,rest⟩
  · exact h
  · refine { h with portals := fun name => ?_, pendingPortals := rfl }
    simp only [Map.get_insert,h.portals]

private theorem commandComplete (h : T.Same T') (tag : GoString) :
    (T.commandComplete tag).Same (T'.commandComplete tag) := by
  rw [State.commandComplete,State.commandComplete]
  split
  · exact ⟨fun _ => rfl,fun _ => rfl,rfl,rfl,rfl⟩
  · exact h

private theorem readyForQuery (h : T.Same T') (state : UInt8) :
    (T.readyForQuery state).Same (T'.readyForQuery state) := by
  rw [State.readyForQuery,State.readyForQuery]
  split
  · exact ⟨h.preparedStatements,fun _ => rfl,rfl,rfl,rfl⟩
  · exact h.clearPending

theorem after (h : T.Same T') (p : Packet) : (T.after p).Same (T'.after p) := by
  cases p with
  | garbled => exact h
  | c2s m =>
    cases m with
    | close which name =>
      simp only [State.after,State.c2s]
      cases closeOf which name with
      | none => exact h
      | some c => exact h.close c
    | parse p => exact h.parse p
    | bind p => exact h.bind p
    | query => exact h.query
    | describe | execute | sync | flush => exact h
  | s2c r =>
    cases r with
    | closeComplete => exact h.closeComplete
    | parseComplete => exact h.parseComplete
    | bindComplete => exact h.bindComplete
    | commandComplete tag => exact h.commandComplete tag
    | readyForQuery state => exact h.readyForQuery state
    | other => exact h

end Same
end State

namespace Memory
variable {w : Memory} {i j : Nat}

/-- After `Set` the one state is the same as the other, and all but the one are as they were. -/
theorem Wf.set (h : w.Wf) (ne : j ≠ i) : ∃ w', w.set i j = some w' ∧ w'.Wf ∧ (w'.state i).Same (w.state j) ∧
    ∀ k ≠ i, w'.state k = w.state k := by
  have maps := h.clearMaps (i := i)
  have cleared := maps.trans (maps.toWf.clearPending (i := i))
  rw [maps.state] at cleared
  let u := (w.clearMaps i).clearPending i
  have empty : u.state i = {} := cleared.state
  have before : u.state j = w.state j := cleared.others j ne
  obtain ⟨statements,pushed₁,becomes₁⟩ := cleared.pendingPreparedStatements.pushAll ne
  obtain ⟨portals,pushed₂,becomes₂⟩ := cleared.pendingPortals.pushAll ne
  obtain ⟨closes,pushed₃,becomes₃⟩ := cleared.pendingCloses.pushAll ne
  refine ⟨_,by simp only [Memory.set,pushed₁,pushed₂,pushed₃]; rfl,⟨becomes₁.wf,becomes₂.wf,becomes₃.wf⟩,?_,
    fun k hk => ?_⟩
  · rw [← before]
    refine ⟨fun name => ?_,fun name => ?_,?_,?_,?_⟩
    · refine (Tables.get_storeAll_entries _ i _ ?_ name).trans ?_
      · rw [Tables.table_ensure]
        exact congrArg State.preparedStatements empty
      · rw [Tables.table_ensure]
        rfl
    · refine (Tables.get_storeAll_entries _ i _ ?_ name).trans ?_
      · rw [Tables.table_ensure]
        exact congrArg State.portals empty
      · rw [Tables.table_ensure]
        rfl
    · exact becomes₁.items.trans (congrArg (· ++ _) (congrArg State.pendingPreparedStatements empty))
    · exact becomes₂.items.trans (congrArg (· ++ _) (congrArg State.pendingPortals empty))
    · exact becomes₃.items.trans (congrArg (· ++ _) (congrArg State.pendingCloses empty))
  · rw [← cleared.others k hk]
    simp only [state,Tables.table_storeAll_of_ne _ hk,Tables.table_ensure,becomes₁.others_items hk,
      becomes₂.others_items hk,becomes₃.others_items hk]

/-- Packets for one state, with what is returned for each. -/
def run (i : Nat) : Memory → List Packet → Option (List (Option Packet) × Memory)
  | w, [] => some ([],w)
  | w, p :: ps => (w.apply i p).bind fun r => (run i r.2 ps).map fun s => (r.1 :: s.1,s.2)

/-- Packets that each go to two states, with what they return. -/
def runBoth (i j : Nat) : Memory → List Packet → Option (List (Option Packet) × List (Option Packet) × Memory)
  | w, [] => some ([],[],w)
  | w, p :: ps =>
    (w.apply i p).bind fun r =>
    (r.2.apply j p).bind fun s =>
    (runBoth i j s.2 ps).map fun t => (r.1 :: t.1,s.1 :: t.2.1,t.2.2)

theorem Wf.run (h : w.Wf) (ps : List Packet) :
    ∃ out w', Memory.run i w ps = some (out,w') ∧ w'.Wf ∧ ∀ k ≠ i, w'.state k = w.state k := by
  induction ps generalizing w with
  | nil => exact ⟨[],w,rfl,h,fun _ _ => rfl⟩
  | cons p ps ih =>
    obtain ⟨u,applied,becomes⟩ := h.apply (i := i) p
    obtain ⟨out,w',ran,wf,others⟩ := ih becomes.toWf
    refine ⟨p.answer :: out,w',?_,wf,fun k hk => (others k hk).trans (becomes.others k hk)⟩
    simp only [Memory.run,applied,Option.bind_some,ran,Option.map_some]

theorem Wf.runBoth (h : w.Wf) (ne : j ≠ i) (same : (w.state i).Same (w.state j)) (ps : List Packet) :
    ∃ out w', Memory.runBoth i j w ps = some (out,out,w') ∧ w'.Wf ∧ (w'.state i).Same (w'.state j) := by
  induction ps generalizing w with
  | nil => exact ⟨[],w,rfl,h,same⟩
  | cons p ps ih =>
    obtain ⟨u,first,one⟩ := h.apply (i := i) p
    obtain ⟨v,second,two⟩ := one.toWf.apply (i := j) p
    have still : (v.state i).Same (v.state j) := by
      rw [two.others i ne.symm,two.state,one.state,one.others j ne]
      exact same.after p
    obtain ⟨out,w',ran,wf,last⟩ := ih two.toWf still
    refine ⟨p.answer :: out,w',?_,wf,last⟩
    simp only [Memory.runBoth,first,second,Option.bind_some,ran,Option.map_some]

/-- What can happen to the states. -/
inductive Event where
  | packet (i : Nat) (p : Packet)
  | set (i j : Nat)

def step (w : Memory) : Event → Option Memory
  | .packet i p => (w.apply i p).map Prod.snd
  | .set i j => w.set i j

private theorem Wf.set_self (h : w.Wf) (i : Nat) : ∃ w', w.set i i = some w' ∧ w'.Wf := by
  have maps := h.clearMaps (i := i)
  have cleared := maps.toWf.clearPending (i := i)
  have none {α : Type} [Inhabited α] (R : Rings α) : (R.clear i).pushAll i i = some (R.clear i) := by
    have zero : (R.clear i).length i = 0 := Function.update_self ..
    rw [Rings.pushAll,zero]
    rfl
  have none₁ : ((w.clearMaps i).clearPending i).pendingPreparedStatements.pushAll i i = some _ := none _
  have none₂ : ((w.clearMaps i).clearPending i).pendingPortals.pushAll i i = some _ := none _
  have none₃ : ((w.clearMaps i).clearPending i).pendingCloses.pushAll i i = some _ := none _
  refine ⟨_,by simp only [Memory.set,none₁,none₂,none₃]; rfl,?_⟩
  exact ⟨cleared.pendingPreparedStatements,cleared.pendingPortals,cleared.pendingCloses⟩

private theorem Wf.step {w' : Memory} {e : Event} (h : w.Wf) (hs : w.step e = some w') : w'.Wf := by
  cases e with
  | packet i p =>
    obtain ⟨u,applied,becomes⟩ := h.apply (i := i) p
    rw [Memory.step,applied] at hs
    cases hs
    exact becomes.toWf
  | set i j =>
    by_cases same : j = i
    · obtain ⟨u,done,wf⟩ := h.set_self i
      rw [Memory.step,same,done] at hs
      cases hs
      exact wf
    · obtain ⟨u,done,wf,-⟩ := h.set same
      rw [Memory.step,done] at hs
      cases hs
      exact wf

private theorem wf_of_reachable (h : Reachable {} (fun _ _ => True) step w) : w.Wf :=
  h.invariant ⟨Rings.wf_empty,Rings.wf_empty,Rings.wf_empty⟩ fun _ _ _ wf _ => wf.step

/-- Snapshots are exact and independent: after `Set`, whatever states have gone through before, the two states return the
same packets for all packets that both get and stay the same, and packets for one of them leave the other. -/
theorem set_exact {w : Memory} (h : Reachable {} (fun _ _ => True) step w) {i j : Nat} (ne : j ≠ i) :
    ∃ w', w.set i j = some w' ∧ w'.state j = w.state j ∧
      (∀ ps, ∃ out u, runBoth i j w' ps = some (out,out,u) ∧ (u.state i).Same (u.state j)) ∧
      (∀ ps, ∃ out u, run i w' ps = some (out,u) ∧ u.state j = w'.state j) ∧
      ∀ ps, ∃ out u, run j w' ps = some (out,u) ∧ u.state i = w'.state i := by
  obtain ⟨w',done,wf,same,others⟩ := (wf_of_reachable h).set ne
  have copy : (w'.state i).Same (w'.state j) := by rwa [others j ne]
  refine ⟨w',done,others j ne,fun ps => ?_,fun ps => ?_,fun ps => ?_⟩
  · obtain ⟨out,u,ran,-,last⟩ := wf.runBoth ne copy ps
    exact ⟨out,u,ran,last⟩
  · obtain ⟨out,u,ran,-,rest⟩ := wf.run (i := i) ps
    exact ⟨out,u,ran,rest j ne⟩
  · obtain ⟨out,u,ran,-,rest⟩ := wf.run (i := j) ps
    exact ⟨out,u,ran,rest i ne.symm⟩

theorem set_exact_pending : ∃ w w' : Memory, (w.state 0).pendingPreparedStatements = [⟨[97],[],[]⟩] ∧
    w.set 1 0 = some w' ∧ w'.state 0 = w.state 0 ∧
    ∃ out u, run 1 w' [.s2c .parseComplete] = some (out,u) ∧ u.state 0 = w'.state 0 := by
  have reached : Reachable {} (fun _ _ => True) step _ :=
    Reachable.start.next (e := .packet 0 (.c2s (.parse ⟨[97],[],[]⟩))) trivial rfl
  obtain ⟨w',done,same,-,one,-⟩ := set_exact reached (i := 1) (j := 0) (by decide)
  exact ⟨_,w',rfl,done,same,one [.s2c .parseComplete]⟩

end Memory
end Pggat.Eqp
