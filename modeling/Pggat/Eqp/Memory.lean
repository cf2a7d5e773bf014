import Pggat.Eqp.State
import Pggat.Util.Rings

/-! The states of the `eqp` middleware in memory. A state refers to its two maps and to the buffers of its three rings;
a packet that a state has kept is never changed, so a pointer to it stands for the packet. -/
namespace Pggat.Eqp
open Pggat.Base Pggat.Util

instance : Inhabited Parse := ⟨⟨[],[],[]⟩⟩
instance : Inhabited Bind := ⟨⟨[],[],[],[],[]⟩⟩
instance : Inhabited Close := ⟨⟨.preparedStatement,[]⟩⟩

/-- A packet as a state gets it. The payload of a `garbled` one cannot be decoded, though its type is one of those that
the state decodes. -/
inductive Packet where
  | c2s (m : Message)
  | s2c (r : Reply)
  | garbled
  deriving DecidableEq, Repr

/-- The states of all connections; at first every state is the zero value. -/
structure Memory where
  preparedStatements : Tables GoString Parse := .vacant ∅
  portals : Tables GoString Bind := .vacant ∅
  pendingPreparedStatements : Rings Parse := {}
  pendingPortals : Rings Bind := {}
  pendingCloses : Rings Close := {}

namespace Memory
variable (w : Memory) (i : Nat)

/-- What a state has. -/
def state : State where
  preparedStatements := Tables.table w.preparedStatements i
  portals := Tables.table w.portals i
  pendingPreparedStatements := w.pendingPreparedStatements.items i
  pendingPortals := w.pendingPortals.items i
  pendingCloses := w.pendingCloses.items i

def close (c : Close) : Option Memory :=
  (w.pendingCloses.pushBack i c).map fun pending => { w with pendingCloses := pending }

def closed (w : Memory) (i : Nat) : Option Close → Memory
  | none => w
  | some ⟨.portal,target⟩ => { w with portals := Tables.remove w.portals i target }
  | some ⟨.preparedStatement,target⟩ =>
    { w with preparedStatements := Tables.remove w.preparedStatements i target }

def closeComplete : Option Memory :=
  (w.pendingCloses.popFront i).map fun p => { w with pendingCloses := p.2 }.closed i p.1

def parse (p : Parse) : Option Memory :=
  (w.pendingPreparedStatements.pushBack i p).map fun pending => { w with pendingPreparedStatements := pending }

def parsed (w : Memory) (i : Nat) : Option Parse → Memory
  | none => w
  | some p => { w with preparedStatements := Tables.store w.preparedStatements i p.destination p }

def parseComplete : Option Memory :=
  (w.pendingPreparedStatements.popFront i).map fun p => { w with pendingPreparedStatements := p.2 }.parsed i p.1

def bind (p : Bind) : Option Memory :=
  (w.pendingPortals.pushBack i p).map fun pending => { w with pendingPortals := pending }

def bound (w : Memory) (i : Nat) : Option Bind → Memory
  | none => w
  | some p => { w with portals := Tables.store w.portals i p.destination p }

def bindComplete : Option Memory :=
  (w.pendingPortals.popFront i).map fun p => { w with pendingPortals := p.2 }.bound i p.1

def query : Memory :=
  { w with
    portals := Tables.remove w.portals i []
    preparedStatements := Tables.remove w.preparedStatements i [] }

def clearPending : Memory :=
  { w with
    pendingPreparedStatements := w.pendingPreparedStatements.clear i
    pendingPortals := w.pendingPortals.clear i
    pendingCloses := w.pendingCloses.clear i }

def clearMaps : Memory :=
  { w with preparedStatements := Tables.clear w.preparedStatements i, portals := Tables.clear w.portals i }

def commandComplete (tag : GoString) : Memory := if tag = discardAll then (w.clearMaps i).clearPending i else w

def readyForQuery (state : UInt8) : Memory :=
  (if state = 0x49 then { w with portals := Tables.clear w.portals i } else w).clearPending i

/-- `C2S` and `S2C`: what is returned, or none with an error, and the memory. -/
def apply : Packet → Option (Option Packet × Memory)
  | .c2s (.close which name) =>
    match closeOf which name with
    | none => some (none,w)
    | some c => (w.close i c).map (some (.c2s (.close which name)),·)
  | .c2s (.parse p) => (w.parse i p).map (some (.c2s (.parse p)),·)
  | .c2s (.bind p) => (w.bind i p).map (some (.c2s (.bind p)),·)
  | .c2s .query => some (some (.c2s .query),w.query i)
  | .c2s m => some (some (.c2s m),w)
  | .s2c .closeComplete => (w.closeComplete i).map (some (.s2c .closeComplete),·)
  | .s2c .parseComplete => (w.parseComplete i).map (some (.s2c .parseComplete),·)
  | .s2c .bindComplete => (w.bindComplete i).map (some (.s2c .bindComplete),·)
  | .s2c (.commandComplete tag) => some (some (.s2c (.commandComplete tag)),w.commandComplete i tag)
  | .s2c (.readyForQuery state) => some (some (.s2c (.readyForQuery state)),w.readyForQuery i state)
  | .s2c .other => some (some (.s2c .other),w)
  | .garbled => some (none,w)

/-- `Set` of the state `i` to the state `j`. -/
def set (w : Memory) (i j : Nat) : Option Memory :=
  let w := (w.clearMaps i).clearPending i
  let statements := Tables.ensure w.preparedStatements i
  let portals := Tables.ensure w.portals i
  (w.pendingPreparedStatements.pushAll i j).bind fun pendingPreparedStatements =>
  (w.pendingPortals.pushAll i j).bind fun pendingPortals =>
  (w.pendingCloses.pushAll i j).map fun pendingCloses =>
    { preparedStatements := Tables.storeAll statements i (Tables.table statements j).entries
      portals := Tables.storeAll portals i (Tables.table portals j).entries
      pendingPreparedStatements := pendingPreparedStatements
      pendingPortals := pendingPortals
      pendingCloses := pendingCloses }

/-- The rings are well formed. -/
structure Wf (w : Memory) : Prop where
  pendingPreparedStatements : w.pendingPreparedStatements.Wf
  pendingPortals : w.pendingPortals.Wf
  pendingCloses : w.pendingCloses.Wf

/-- One state has become `T` and all others are as they were. -/
structure Becomes (w w' : Memory) (i : Nat) (T : State) : Prop extends w'.Wf where
  state : w'.state i = T
  others : ∀ j ≠ i, w'.state j = w.state j

end Memory

/-- What is returned for a packet: itself, unless it is refused. -/
def Packet.answer : Packet → Option Packet
  | .c2s (.close which name) => (closeOf which name).map fun _ => .c2s (.close which name)
  | .garbled => none
  | p => some p

def State.after (T : State) : Packet → State
  | .c2s m => (T.c2s m).getD T
  | .s2c r => T.s2c r
  | .garbled => T

namespace Memory
variable {w : Memory} {i : Nat}

theorem Becomes.refl (h : w.Wf) : Becomes w w i (w.state i) := ⟨h,rfl,fun _ _ => rfl⟩

theorem Becomes.trans {w' w'' : Memory} {T T' : State} (h : Becomes w w' i T) (h' : Becomes w' w'' i T') :
    Becomes w w'' i T' :=
  ⟨h'.toWf,h'.state,fun j ne => (h'.others j ne).trans (h.others j ne)⟩

theorem Wf.setStatements (h : w.Wf) {t : Tables GoString Parse}
    (others : ∀ j ≠ i, Tables.table t j = Tables.table w.preparedStatements j) :
    Becomes w { w with preparedStatements := t } i { w.state i with preparedStatements := Tables.table t i } :=
  ⟨⟨h.1,h.2,h.3⟩,rfl,fun j ne => by rw [state,state,others j ne]⟩

theorem Wf.setPortals (h : w.Wf) {t : Tables GoString Bind}
    (others : ∀ j ≠ i, Tables.table t j = Tables.table w.portals j) :
    Becomes w { w with portals := t } i { w.state i with portals := Tables.table t i } :=
  ⟨⟨h.1,h.2,h.3⟩,rfl,fun j ne => by rw [state,state,others j ne]⟩

theorem Wf.setPendingStatements (h : w.Wf) {R : Rings Parse} {l : List Parse}
    (becomes : Rings.Becomes w.pendingPreparedStatements R i l) :
    Becomes w { w with pendingPreparedStatements := R } i { w.state i with pendingPreparedStatements := l } :=
  ⟨⟨becomes.wf,h.2,h.3⟩,by rw [state,becomes.items]; rfl,fun j ne => by rw [state,becomes.others_items ne]; rfl⟩

theorem Wf.setPendingPortals (h : w.Wf) {R : Rings Bind} {l : List Bind}
    (becomes : Rings.Becomes w.pendingPortals R i l) :
    Becomes w { w with pendingPortals := R } i { w.state i with pendingPortals := l } :=
  ⟨⟨h.1,becomes.wf,h.3⟩,by rw [state,becomes.items]; rfl,fun j ne => by rw [state,becomes.others_items ne]; rfl⟩

theorem Wf.setPendingCloses (h : w.Wf) {R : Rings Close} {l : List Close}
    (becomes : Rings.Becomes w.pendingCloses R i l) :
    Becomes w { w with pendingCloses := R } i { w.state i with pendingCloses := l } :=
  ⟨⟨h.1,h.2,becomes.wf⟩,by rw [state,becomes.items]; rfl,fun j ne => by rw [state,becomes.others_items ne]; rfl⟩

theorem Wf.close (h : w.Wf) (c : Close) : ∃ w', w.close i c = some w' ∧ Becomes w w' i ((w.state i).close c) := by
  obtain ⟨R,pushed,becomes⟩ := h.pendingCloses.pushBack i c
  exact ⟨_,by rw [Memory.close,pushed,Option.map_some],h.setPendingCloses becomes⟩

theorem Wf.parse (h : w.Wf) (p : Parse) : ∃ w', w.parse i p = some w' ∧ Becomes w w' i ((w.state i).parse p) := by
  obtain ⟨R,pushed,becomes⟩ := h.pendingPreparedStatements.pushBack i p
  exact ⟨_,by rw [Memory.parse,pushed,Option.map_some],h.setPendingStatements becomes⟩

theorem Wf.bind (h : w.Wf) (p : Bind) : ∃ w', w.bind i p = some w' ∧ Becomes w w' i ((w.state i).bind p) := by
  obtain ⟨R,pushed,becomes⟩ := h.pendingPortals.pushBack i p
  exact ⟨_,by rw [Memory.bind,pushed,Option.map_some],h.setPendingPortals becomes⟩

theorem Wf.removePortal (h : w.Wf) (name : GoString) :
    Becomes w { w with portals := Tables.remove w.portals i name } i
      { w.state i with portals := (w.state i).portals.erase name } := by
  have removed := h.setPortals (i := i) (t := Tables.remove w.portals i name) fun j ne =>
    Tables.table_write_of_ne _ _ ne
  rwa [Tables.table_remove] at removed

theorem Wf.removeStatement (h : w.Wf) (name : GoString) :
    Becomes w { w with preparedStatements := Tables.remove w.preparedStatements i name } i
      { w.state i with preparedStatements := (w.state i).preparedStatements.erase name } := by
  have removed := h.setStatements (i := i) (t := Tables.remove w.preparedStatements i name) fun j ne =>
    Tables.table_write_of_ne _ _ ne
  rwa [Tables.table_remove] at removed

theorem Wf.clearPortals (h : w.Wf) :
    Becomes w { w with portals := Tables.clear w.portals i } i { w.state i with portals := ∅ } := by
  have cleared := h.setPortals (i := i) (t := Tables.clear w.portals i) fun j ne => Tables.table_write_of_ne _ _ ne
  rwa [Tables.table_clear] at cleared

theorem Wf.clearMaps (h : w.Wf) :
    Becomes w (w.clearMaps i) i { w.state i with preparedStatements := ∅, portals := ∅ } := by
  have cleared := h.setStatements (i := i) (t := Tables.clear w.preparedStatements i) fun j ne =>
    Tables.table_write_of_ne _ _ ne
  rw [Tables.table_clear] at cleared
  have both := cleared.trans cleared.toWf.clearPortals
  rwa [cleared.state] at both

theorem Wf.clearPending (h : w.Wf) : Becomes w (w.clearPending i) i (w.state i).clearPending := by
  have statements := h.setPendingStatements (h.pendingPreparedStatements.clear i)
  have portals := statements.trans (statements.toWf.setPendingPortals (h.pendingPortals.clear i))
  rw [statements.state] at portals
  have closes := portals.trans (portals.toWf.setPendingCloses (h.pendingCloses.clear i))
  rwa [portals.state] at closes

theorem Wf.closeComplete (h : w.Wf) :
    ∃ w', w.closeComplete i = some w' ∧ Becomes w w' i (w.state i).closeComplete := by
  obtain ⟨R,popped,becomes⟩ := h.pendingCloses.popFront i
  refine ⟨_,by rw [Memory.closeComplete,popped,Option.map_some],?_⟩
  have first := h.setPendingCloses becomes
  have pending : (w.state i).pendingCloses = w.pendingCloses.items i := rfl
  rw [State.closeComplete,pending]
  rcases items : w.pendingCloses.items i with _ | ⟨⟨_ | _,target⟩,rest⟩
  · rw [items] at first
    have same : { w.state i with pendingCloses := [] } = w.state i := by rw [← items]; rfl
    rwa [List.tail_nil,same] at first
  · have second := first.trans (first.toWf.removeStatement target)
    rwa [first.state,items] at second
  · have second := first.trans (first.toWf.removePortal target)
    rwa [first.state,items] at second

theorem Wf.parseComplete (h : w.Wf) :
    ∃ w', w.parseComplete i = some w' ∧ Becomes w w' i (w.state i).parseComplete := by
  obtain ⟨R,popped,becomes⟩ := h.pendingPreparedStatements.popFront i
  refine ⟨_,by rw [Memory.parseComplete,popped,Option.map_some],?_⟩
  have first := h.setPendingStatements becomes
  have pending : (w.state i).pendingPreparedStatements = w.pendingPreparedStatements.items i := rfl
  rw [State.parseComplete,pending]
  rcases items : w.pendingPreparedStatements.items i with _ | ⟨p,rest⟩
  · rw [items] at first
    have same : { w.state i with pendingPreparedStatements := [] } = w.state i := by rw [← items]; rfl
    rwa [List.tail_nil,same] at first
  · have second := first.trans (first.toWf.setStatements (i := i)
      (t := Tables.store w.preparedStatements i p.destination p) fun j ne => Tables.table_store_of_ne _ _ _ ne)
    rwa [first.state,items,Tables.table_store] at second

private theorem Wf.bindComplete (h : w.Wf) :
    ∃ w', w.bindComplete i = some w' ∧ Becomes w w' i (w.state i).bindComplete := by
  obtain ⟨R,popped,becomes⟩ := h.pendingPortals.popFront i
  refine ⟨_,by rw [Memory.bindComplete,popped,Option.map_some],?_⟩
  have first := h.setPendingPortals becomes
  have pending : (w.state i).pendingPortals = w.pendingPortals.items i := rfl
  rw [State.bindComplete,pending]
  rcases items : w.pendingPortals.items i with _ | ⟨p,rest⟩
  · rw [items] at first
    have same : { w.state i with pendingPortals := [] } = w.state i := by rw [← items]; rfl
    rwa [List.tail_nil,same] at first
  · have second := first.trans (first.toWf.setPortals (i := i)
      (t := Tables.store w.portals i p.destination p) fun j ne => Tables.table_store_of_ne _ _ _ ne)
    rwa [first.state,items,Tables.table_store] at second

private theorem Wf.query (h : w.Wf) : Becomes w (w.query i) i (w.state i).query := by
  have portals := h.removePortal (i := i) []
  have both := portals.trans (portals.toWf.removeStatement (i := i) [])
  rwa [portals.state] at both

private theorem Wf.commandComplete (h : w.Wf) (tag : GoString) :
    Becomes w (w.commandComplete i tag) i ((w.state i).commandComplete tag) := by
  rw [Memory.commandComplete,State.commandComplete]
  split
  · have maps := h.clearMaps (i := i)
    have pending := maps.trans (maps.toWf.clearPending (i := i))
    rwa [maps.state] at pending
  · exact .refl h

private theorem Wf.readyForQuery (h : w.Wf) (state : UInt8) :
    Becomes w (w.readyForQuery i state) i ((w.state i).readyForQuery state) := by
  rw [Memory.readyForQuery,State.readyForQuery]
  split
  · have portals := h.clearPortals (i := i)
    have pending := portals.trans (portals.toWf.clearPending (i := i))
    rwa [portals.state] at pending
  · exact h.clearPending

/-- A packet changes the one state that gets it as the model of the state says, and there is no panic. -/
theorem Wf.apply (h : w.Wf) (p : Packet) :
    ∃ w', w.apply i p = some (p.answer,w') ∧ Becomes w w' i ((w.state i).after p) := by
  have stays : Becomes w w i (w.state i) := .refl h
  cases p with
  | garbled => exact ⟨w,rfl,stays⟩
  | c2s m =>
    cases m with
    | close which name =>
      simp only [Memory.apply,Packet.answer,State.after,State.c2s]
      cases closeOf which name with
      | none => exact ⟨w,rfl,stays⟩
      | some c =>
        obtain ⟨w',done,becomes⟩ := h.close (i := i) c
        exact ⟨w',by simp only [done,Option.map_some],becomes⟩
    | parse p =>
      obtain ⟨w',done,becomes⟩ := h.parse (i := i) p
      exact ⟨w',by simp only [Memory.apply,done,Option.map_some]; rfl,becomes⟩
    | bind p =>
      obtain ⟨w',done,becomes⟩ := h.bind (i := i) p
      exact ⟨w',by simp only [Memory.apply,done,Option.map_some]; rfl,becomes⟩
    | query => exact ⟨_,rfl,h.query⟩
    | describe | execute | sync | flush => exact ⟨w,rfl,stays⟩
  | s2c r =>
    cases r with
    | closeComplete =>
      obtain ⟨w',done,becomes⟩ := h.closeComplete (i := i)
      exact ⟨w',by simp only [Memory.apply,done,Option.map_some]; rfl,becomes⟩
    | parseComplete =>
      obtain ⟨w',done,becomes⟩ := h.parseComplete (i := i)
      exact ⟨w',by simp only [Memory.apply,done,Option.map_some]; rfl,becomes⟩
    | bindComplete =>
      obtain ⟨w',done,becomes⟩ := h.bindComplete (i := i)
      exact ⟨w',by simp only [Memory.apply,done,Option.map_some]; rfl,becomes⟩
    | commandComplete tag => exact ⟨_,rfl,h.commandComplete tag⟩
    | readyForQuery state => exact ⟨_,rfl,h.readyForQuery state⟩
    | other => exact ⟨w,rfl,stays⟩

end Memory
end Pggat.Eqp
