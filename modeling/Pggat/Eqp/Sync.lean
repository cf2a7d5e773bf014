import Pggat.Eqp.Tracking

/-! `SyncMiddleware`: before a client uses a server, the prepared statements of the server are made the client's.
All packets of it share one `Sync`. -/
namespace Pggat.Eqp
open Pggat.Base

def preparedStatementsEqual (a b : Parse) : Bool := a.query = b.query && a.parameterDataTypes = b.parameterDataTypes

def Close.message : Close → Message
  | ⟨.preparedStatement,name⟩ => .close 0x53 name
  | ⟨.portal,name⟩ => .close 0x50 name

/-- The orders of the four iterations over maps. -/
structure Order where
  serverPortals : List (GoString × Bind)
  serverStatements : List (GoString × Parse)
  clientStatements : List (GoString × Parse)
  clientPortals : List (GoString × Bind)

/-- They are orders of the maps of a client and a server. -/
structure Order.Of (order : Order) (c s : State) : Prop where
  serverPortals : s.portals.Ranges order.serverPortals
  serverStatements : s.preparedStatements.Ranges order.serverStatements
  clientStatements : c.preparedStatements.Ranges order.clientStatements
  clientPortals : c.portals.Ranges order.clientPortals

/-- A statement of the server that is closed. One without a name is overwritten instead. -/
def closes (c : State) (e : GoString × Parse) : Bool :=
  match c.preparedStatements.get e.1 with
  | some p => !preparedStatementsEqual e.2 p && e.1 ≠ []
  | none => true

def parses (s : State) (e : GoString × Parse) : Bool :=
  match s.preparedStatements.get e.1 with
  | some p => !preparedStatementsEqual e.2 p
  | none => true

namespace Order

def toClose (order : Order) (c : State) : List Close :=
  order.serverPortals.map (fun e => ⟨.portal,e.1⟩) ++
    (order.serverStatements.filter (closes c)).map fun e => ⟨.preparedStatement,e.1⟩

def toParse (order : Order) (s : State) : List Parse := (order.clientStatements.filter (parses s)).map Prod.snd

def toBind (order : Order) : List Bind := order.clientPortals.map Prod.snd

def messages (order : Order) (c s : State) : List Message :=
  (order.toClose c).map Close.message ++ (order.toParse s).map .parse ++ order.toBind.map .bind

end Order

namespace State

/-- Write packets one after the other; a refused one is an error. -/
def writeAll (T : State) (ms : List Message) : Option State := ms.foldlM c2s T

/-- Read up to a `ReadyForQuery`, the state then and what is unread. -/
def readReady (T : State) : List Answer → Option (State × List Answer)
  | [] => none
  | .readyForQuery state S :: rest => some (T.s2c (Answer.readyForQuery state S).reply,rest)
  | a :: rest => readReady (T.s2c a.reply) rest

def Keyed (T : State) : Prop := ∀ name p, T.preparedStatements.get name = some p → p.destination = name

end State

/-- The server handles messages one after the other; `react` says what becomes of each. -/
def Postgres.serveAll (react : Message → Outcome) (pg : Postgres) : List Message → Option (Postgres × List Answer)
  | [] => some (pg,[])
  | m :: ms =>
    (pg.serve (react m) m).bind fun r => (serveAll react r.1 ms).map fun r' => (r'.1,r.2 ++ r'.2)

/-- `SyncMiddleware`. What is sent shares a `Sync` at its end, and nothing is read before that. -/
def syncMiddleware (react : Message → Outcome) (order : Order) (c : State) (s : System) : Option System :=
  if order.messages c s.tracker = [] then some s
  else
    (s.tracker.writeAll (order.messages c s.tracker ++ [.sync])).bind fun T =>
    (s.pg.serveAll react (order.messages c s.tracker ++ [.sync])).bind fun r =>
    (T.readReady (s.answers ++ r.2)).map fun t => { s with tracker := t.1, pg := r.1, answers := t.2 }

/-- Nothing is in flight and the middleware knows the statements of the server. -/
structure System.Accurate (s : System) : Prop where
  quiet : s.Quiet
  settled : s.tracker.pendingPreparedStatements = [] ∧ s.tracker.pendingPortals = [] ∧ s.tracker.pendingCloses = []
  keyed : s.tracker.Keyed
  agrees : s.tracker.statements = s.pg.statements

namespace Statements

def close (S : Statements) (c : Close) : Statements :=
  match c.variant with
  | .preparedStatement => S.drop c.target
  | .portal => S

def closeAll (S : Statements) (cs : List Close) : Statements := cs.foldl close S

def putAll (S : Statements) (ps : List Parse) : Statements := ps.foldl put S

variable {S : Statements} {name : GoString}

theorem drop_self : S.drop name name = none := Function.update_self ..

variable {p : Parse}

theorem put_self : S.put p p.destination = some p := Function.update_self ..

theorem drop_ne {n : GoString} (h : name ≠ n) : S.drop n name = S name := Function.update_of_ne h ..

theorem put_ne (h : name ≠ p.destination) : S.put p name = S name := Function.update_of_ne h ..

theorem close_eq {c : Close} (h : c ≠ ⟨.preparedStatement,name⟩) : S.close c name = S name := by
  rcases c with ⟨_ | _,target⟩
  · exact drop_ne fun he => h (by rw [he])
  · rfl

variable {cs : List Close}

theorem closeAll_none (h : S name = none) : S.closeAll cs name = none := by
  induction cs generalizing S with
  | nil => exact h
  | cons c cs ih =>
    refine ih ?_
    by_cases hc : c = ⟨.preparedStatement,name⟩
    · rw [hc]
      exact drop_self
    · rw [close_eq hc,h]

theorem closeAll_mem (h : ⟨.preparedStatement,name⟩ ∈ cs) : S.closeAll cs name = none := by
  induction cs generalizing S with
  | nil => cases h
  | cons c cs ih =>
    rcases List.mem_cons.mp h with rfl | h
    · exact closeAll_none (S := S.drop name) drop_self
    · exact ih h

theorem closeAll_not_mem (h : ⟨.preparedStatement,name⟩ ∉ cs) : S.closeAll cs name = S name := by
  induction cs generalizing S with
  | nil => rfl
  | cons c cs ih =>
    rw [List.mem_cons,not_or] at h
    exact (ih h.2).trans (close_eq fun he => h.1 he.symm)

variable {ps : List Parse}

theorem putAll_not_mem (h : ∀ p ∈ ps, p.destination ≠ name) : S.putAll ps name = S name := by
  induction ps generalizing S with
  | nil => rfl
  | cons p ps ih =>
    exact (ih fun q hq => h q (List.mem_cons_of_mem _ hq)).trans (put_ne (h p List.mem_cons_self).symm)

theorem putAll_mem (hd : (ps.map Parse.destination).Nodup) (h : p ∈ ps) :
    S.putAll ps p.destination = some p := by
  induction ps generalizing S with
  | nil => cases h
  | cons q ps ih =>
    rw [List.map_cons,List.nodup_cons] at hd
    rcases List.mem_cons.mp h with rfl | h
    · have absent : ∀ q ∈ ps, q.destination ≠ p.destination := fun q hq he =>
        hd.1 (he ▸ List.mem_map_of_mem hq)
      exact (putAll_not_mem absent).trans put_self
    · exact ih hd.2 h

end Statements

end Pggat.Eqp
