import Mathlib.Data.List.Nodup
import Pggat.Base.Custody
import Pggat.Base.Runs
import Pggat.Spool.Pooler

/-! Callers at a `lifo` pooler: where every server is, and in which order those who wait are served. -/
namespace Pggat.Poolers
open Spool Base

/-- How far a call of `Acquire` is. -/
inductive Stage where
  | idle
  | pending
  | holding (server : Uuid)
  | done
  deriving DecidableEq, Repr

/-- A pooler with the calls that were made to it, and a record of the servers added and of the calls that began to
wait, that were handed a server while they waited, and that left. -/
structure Desk where
  lifo : Lifo := {}
  stage : Uuid → Stage := fun _ => .idle
  added : List Uuid := []
  began : List Uuid := []
  served : List Uuid := []
  left : List Uuid := []

theorem nodup_snoc {α : Type} {l : List α} {a : α} (h : l.Nodup) (ha : a ∉ l) : (l ++ [a]).Nodup :=
  List.concat_eq_append ▸ h.concat ha

namespace Desk
variable (d : Desk)

def item (call : Uuid) : Option Uuid :=
  match d.stage call with
  | .holding server => some server
  | .pending => (d.lifo.ready call).buffered
  | _ => none

/-- A server goes to the first call that waits, or to the queue. -/
def hand (server : Uuid) : Desk :=
  { d with
    lifo := d.lifo.release server
    served := d.served ++ if server ∈ d.lifo.servers then d.lifo.waiters.head?.toList else [] }

def register (server : Uuid) : Desk :=
  { d with
    lifo := { d.lifo with servers := server :: d.lifo.servers.erase server }
    added := server :: d.added }

def addServer (server : Uuid) : Desk := (d.register server).hand server

def deleteServer (server : Uuid) : Desk := { d with lifo := d.lifo.deleteServer server }

def enter (call : Uuid) (stage : Stage) : Desk := { d with stage := Function.update d.stage call stage }

def acquire (call : Uuid) : Desk :=
  match d.lifo.acquire call with
  | (.refused,lifo) => { d with lifo := lifo, stage := Function.update d.stage call .done }
  | (.server server,lifo) => { d with lifo := lifo, stage := Function.update d.stage call (.holding server) }
  | (.wait,lifo) =>
    { d with lifo := lifo, stage := Function.update d.stage call .pending, began := d.began ++ [call] }

/-- The stage of a call that comes back with a server or without one. -/
def returned : Option Uuid → Stage
  | some server => .holding server
  | none => .done

def receive (call : Uuid) : Option Desk :=
  (d.lifo.receive call).map fun (v,lifo) =>
    { d with lifo := lifo, stage := Function.update d.stage call (returned v) }

def timeout (call : Uuid) : Option Desk :=
  (d.lifo.timeout call).map fun (v,lifo) =>
    { d with
      lifo := lifo
      stage := Function.update d.stage call (returned v)
      left := d.left ++ if call ∈ d.lifo.waiters then [call] else [] }

def release (call server : Uuid) : Desk := (d.enter call .done).hand server

def close : Desk := { d with lifo := d.lifo.close }

/-- Servers as resources that the queue lends to calls. -/
def custody : Custody Unit Uuid Uuid where
  made := { p | p.2 ∈ d.added }
  stock := { p | p.2 ∈ d.lifo.servers }
  free := { p | p.2 ∈ d.lifo.queue }
  holds call := (d.item call).map ((),·)
  noted _ := none

/-- The same with one more server that is free, if it is registered. -/
def custodyWith (server : Uuid) : Custody Unit Uuid Uuid :=
  { d.custody with free := d.custody.free ∪ {((),server)} ∩ d.custody.stock }

/-- Every server is in one place. -/
structure Placed : Prop where
  lent : d.custody.Lent
  covered : d.custody.Covered
  queue : d.lifo.queue.Nodup
  servers : d.lifo.servers.Nodup

/-- The calls that wait are those in line, and they are served in the order in which they began. -/
structure Lined : Prop where
  nodup : d.lifo.waiters.Nodup
  waits : ∀ call, call ∈ d.lifo.waiters ↔ d.stage call = .pending ∧ d.lifo.ready call = {}
  calm : d.lifo.queue = [] ∨ d.lifo.waiters = []
  began : d.began.Nodup
  known : ∀ call, call ∈ d.began ∨ call ∈ d.left → d.stage call ≠ .idle
  order : d.lifo.closed = false → d.served ++ d.lifo.waiters = d.began.filter (· ∉ d.left)

section Items
variable {d} {call call' : Uuid} {server : Uuid}

theorem item_holding (h : d.stage call = .holding server) : d.item call = some server := by rw [item,h]

private theorem item_pending (h : d.stage call = .pending) : d.item call = (d.lifo.ready call).buffered := by rw [item,h]

theorem Lined.item_none (h : d.Lined) (hc : call ∈ d.lifo.waiters) : d.item call = none := by
  obtain ⟨stage,ready⟩ := (h.waits call).mp hc
  rw [item_pending stage,ready]

theorem item_congr {d' : Desk} (stage : d'.stage call = d.stage call)
    (ready : d'.lifo.ready call = d.lifo.ready call) : d'.item call = d.item call := by
  rw [item,item,stage,ready]

end Items

section Steps
variable {d} {call : Uuid} {server : Uuid}

theorem hand_unknown (h : server ∉ d.lifo.servers) : d.hand server = d := by
  simp [hand,Lifo.release,h]

theorem hand_first {rest : List Uuid} (h : server ∈ d.lifo.servers) (hw : d.lifo.waiters = call :: rest) :
    d.hand server = { d with
      lifo := { d.lifo with
        waiters := rest
        ready := Function.update d.lifo.ready call { buffered := some server } }
      served := d.served ++ [call] } := by
  simp [hand,Lifo.release,h,hw]

theorem hand_queue (h : server ∈ d.lifo.servers) (hw : d.lifo.waiters = []) :
    d.hand server = { d with lifo := { d.lifo with queue := d.lifo.queue ++ [server] } } := by
  simp [hand,Lifo.release,h,hw]

theorem Placed.hand (new : server ∉ d.lifo.queue) (queue : d.lifo.queue.Nodup) (servers : d.lifo.servers.Nodup)
    (lined : d.Lined) (lent : (d.custodyWith server).Lent) (covered : (d.custodyWith server).Covered) :
    (d.hand server).Placed := by
  by_cases known : server ∈ d.lifo.servers
  · cases hw : d.lifo.waiters with
    | nil =>
      rw [hand_queue known hw]
      have same : custody { d with lifo := { d.lifo with queue := d.lifo.queue ++ [server] } } = d.custodyWith server := by
        refine Custody.ext rfl rfl ?_ rfl rfl
        ext ⟨_,s⟩
        simp only [custody,custodyWith,Set.mem_union,Set.mem_inter_iff,Set.mem_ofPred_eq,List.mem_append,
          List.mem_singleton,Set.mem_singleton_iff,Prod.mk.injEq,true_and]
        exact or_congr_right ⟨fun e => ⟨e,e ▸ known⟩,fun e => e.1⟩
      refine ⟨same ▸ lent, same ▸ covered, ?_, servers⟩
      exact nodup_snoc queue new
    | cons first rest =>
      rw [hand_first known hw]
      have waits : first ∈ d.lifo.waiters := hw ▸ List.mem_cons_self
      have free : ((),server) ∈ (d.custodyWith server).free := .inr ⟨rfl,known⟩
      have none : (d.custodyWith server).holds first = none := by simp [custodyWith,custody,lined.item_none waits]
      have same : custody { d with
          lifo := { d.lifo with waiters := rest, ready := Function.update d.lifo.ready first { buffered := some server } }
          served := d.served ++ [first] } = (d.custodyWith server).take first ((),server) := by
        refine Custody.ext rfl rfl ?_ ?_ rfl
        · ext ⟨_,s⟩
          simp only [custody,custodyWith,Custody.take]
          constructor
          · exact fun hs => ⟨.inl hs,by rintro ⟨⟩; exact new hs⟩
          · rintro ⟨hs | hs,ne⟩
            · exact hs
            · exact absurd hs.1 ne
        · funext other
          rcases eq_or_ne other first with rfl | ne
          · simp [custody,custodyWith,Custody.take,item,((lined.waits other).mp waits).1]
          · simp [custody,custodyWith,Custody.take,item,ne]
      exact ⟨same ▸ lent.take free,same ▸ covered.take none,queue,servers⟩
  · rw [hand_unknown known]
    have same : d.custody = d.custodyWith server := by
      refine Custody.ext rfl rfl ?_ rfl rfl
      ext p
      refine ⟨.inl,?_⟩
      rintro (hp | ⟨rfl,hp⟩)
      · exact hp
      · exact absurd hp known
    exact ⟨same ▸ lent,same ▸ covered,queue,servers⟩

theorem Lined.hand (h : d.Lined) (server : Uuid) : (d.hand server).Lined := by
  by_cases known : server ∈ d.lifo.servers
  · cases hw : d.lifo.waiters with
    | nil =>
      rw [hand_queue known hw]
      exact ⟨h.nodup,h.waits,.inr hw,h.began,h.known,h.order⟩
    | cons first rest =>
      have nodup := h.nodup
      rw [hw,List.nodup_cons] at nodup
      rw [hand_first known hw]
      refine ⟨nodup.2, fun call => ?_, ?_, h.began, h.known, fun open' => ?_⟩
      · have waits := h.waits call
        rw [hw] at waits
        rcases eq_or_ne call first with rfl | ne
        · simp [nodup.1]
        · simpa [ne] using waits
      · exact .inl (h.calm.resolve_right (by simp [hw]))
      · have order := h.order open'
        rw [hw] at order
        simpa using order
  · rw [hand_unknown known]
    exact h

theorem Lined.register (h : d.Lined) (server : Uuid) : (d.register server).Lined :=
  ⟨h.nodup,h.waits,h.calm,h.began,h.known,h.order⟩

theorem Placed.addServer (h : d.Placed) (lined : d.Lined) (new : server ∉ d.added) : (d.addServer server).Placed := by
  have unknown : server ∉ d.lifo.servers := fun hs => new (h.lent.stock_made (a := ((),server)) hs)
  have notQueued : server ∉ d.lifo.queue := fun hq => unknown (h.lent.free_stock (a := ((),server)) hq)
  have fresh : ∀ q ∈ d.custody.made, server ≠ q.2 := by
    rintro ⟨_,s⟩ hs rfl
    exact new hs
  have servers : (d.register server).lifo.servers = server :: d.lifo.servers :=
    congrArg _ (List.erase_of_not_mem unknown)
  have same : (d.register server).custodyWith server = d.custody.add ((),server) := by
    refine Custody.ext ?_ ?_ ?_ rfl rfl
    · ext ⟨_,s⟩
      simp [custodyWith,custody,Custody.add,Desk.register]
    · ext ⟨_,s⟩
      simp [custodyWith,custody,Custody.add,servers]
    · ext ⟨_,s⟩
      simp only [custodyWith,custody,Custody.add,servers]
      constructor
      · rintro (hs | ⟨hs,-⟩)
        · exact .inr hs
        · exact .inl hs
      · rintro (hs | hs)
        · refine .inr ⟨hs,?_⟩
          cases hs
          exact List.mem_cons_self
        · exact .inl hs
  refine Placed.hand notQueued h.queue ?_ (lined.register server) (same ▸ h.lent.add fresh) (same ▸ h.covered.add)
  rw [servers]
  exact List.nodup_cons.mpr ⟨unknown,h.servers⟩

theorem Placed.deleteServer (h : d.Placed) (server : Uuid) : (d.deleteServer server).Placed := by
  have same : (d.deleteServer server).custody = d.custody.drop ((),server) := by
    refine Custody.ext rfl ?_ ?_ rfl rfl
    · ext ⟨_,s⟩
      simp [Desk.deleteServer,Lifo.deleteServer,custody,Custody.drop,h.servers.mem_erase_iff,and_comm]
    · ext ⟨_,s⟩
      simp [Desk.deleteServer,Lifo.deleteServer,custody,Custody.drop,h.queue.mem_erase_iff,and_comm]
  exact ⟨same ▸ h.lent.drop,same ▸ h.covered.drop,h.queue.erase server,h.servers.erase server⟩

theorem Lined.deleteServer (h : d.Lined) (server : Uuid) : (d.deleteServer server).Lined := by
  refine ⟨h.nodup, h.waits, h.calm.imp_left fun hq => ?_, h.began, h.known, h.order⟩
  simp [Desk.deleteServer,Lifo.deleteServer,hq]

variable (d) in
theorem custody_holds (d' : Desk) (call : Uuid)
    (others : ∀ other, other ≠ call → d'.stage other = d.stage other ∧ d'.lifo.ready other = d.lifo.ready other) :
    d'.custody.holds = Function.update d.custody.holds call (d'.custody.holds call) := by
  funext other
  rcases eq_or_ne other call with rfl | ne
  · simp
  · obtain ⟨stage,ready⟩ := others other ne
    simp [custody,item_congr stage ready,ne]

theorem Lined.enter (h : d.Lined) {stage : Stage} (other : d.stage call ≠ .pending ∨ d.lifo.ready call ≠ {})
    (ne : stage ≠ .pending) (ne' : stage ≠ .idle) : (d.enter call stage).Lined := by
  have absent : call ∉ d.lifo.waiters := by
    intro hc
    obtain ⟨pending,ready⟩ := (h.waits call).mp hc
    exact other.elim (· pending) (· ready)
  refine ⟨h.nodup, fun t => ?_, h.calm, h.began, fun t ht => ?_, h.order⟩
  · rcases eq_or_ne t call with rfl | hne
    · simp [Desk.enter,ne,absent]
    · simpa [Desk.enter,hne] using h.waits t
  · rcases eq_or_ne t call with rfl | hne
    · simpa [Desk.enter] using ne'
    · simpa [Desk.enter,hne] using h.known t ht

theorem Lined.release (h : d.Lined) (holds : d.stage call = .holding server) : (d.release call server).Lined :=
  (h.enter (.inl (by simp [holds])) (by simp) (by simp)).hand server

theorem Placed.release (h : d.Placed) (lined : d.Lined) (holds : d.stage call = .holding server) :
    (d.release call server).Placed := by
  have held : d.custody.holds call = some ((),server) := by simp [custody,item_holding holds]
  have notQueued : server ∉ d.lifo.queue := h.lent.holds_busy call ((),server) held
  have same : (d.enter call .done).custodyWith server = d.custody.giveBack call ((),server) := by
    refine Custody.ext rfl rfl rfl ((custody_holds d _ call fun t ne => ?_).trans ?_) rfl
    · exact ⟨Function.update_of_ne ne ..,rfl⟩
    · simp [custody,item,Custody.giveBack,Desk.enter]
  exact Placed.hand notQueued h.queue h.servers (lined.enter (.inl (by simp [holds])) (by simp) (by simp))
    (same ▸ h.lent.giveBack held) (same ▸ h.covered.giveBack held)

end Steps
end Desk
end Pggat.Poolers
