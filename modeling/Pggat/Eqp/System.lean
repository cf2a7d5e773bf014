import Pggat.Base.Runs
import Pggat.Eqp.Postgres

/-! The middleware on a connection to a server: packets in flight in both directions, any of them
pipelined. -/
namespace Pggat.Eqp
open Pggat.Base

/-- `sent` are the messages the server has not handled and `answers` its packets not yet read. -/
structure System where
  tracker : State := {}
  sent : List Message := []
  pg : Postgres := {}
  answers : List Answer := []

inductive Event where
  | write (m : Message)
  | serve (o : Outcome)
  | read

def Message.endsBatch : Message → Bool
  | query | sync => true
  | _ => false

def Message.opens : Message → Bool
  | parse _ | close _ _ => true
  | _ => false

/-- A `Parse` that drops the unnamed statement before anything can fail. -/
def Message.dropsUnnamed : Message → Bool
  | parse p => p.destination = []
  | _ => false

/-- Answers at which the middleware takes all that is pending for failed. -/
def Answer.clears : Answer → Bool
  | readyForQuery _ _ | commandComplete .discardAll => true
  | _ => false

/-- The middleware learns of the command's effect on the statements. -/
def Command.told : Command → Bool
  | discardAll | other _ _ => true
  | deallocate _ | deallocateAll | prepare _ => false

def Outcome.commands (o : Outcome) : Message → List Command
  | .query => o.ran
  | .execute => if o.ok then o.ran.take 1 else []
  | _ => []

namespace System

def step (s : System) : Event → Option System
  | .write m =>
    match s.tracker.c2s m with
    | some T => some { s with tracker := T, sent := s.sent ++ [m] }
    | none => some s
  | .serve o =>
    match s.sent with
    | m :: rest => (s.pg.serve o m).map fun r => { s with sent := rest, pg := r.1, answers := s.answers ++ r.2 }
    | [] => none
  | .read =>
    match s.answers with
    | a :: rest => some { s with tracker := s.tracker.s2c a.reply, answers := rest }
    | [] => none

/-- No answer is outstanding and the server takes any message. -/
def Quiet (s : System) : Prop := s.sent = [] ∧ s.answers = [] ∧ s.pg.skipping = false

/-- Nothing outstanding will make the middleware drop what is pending. -/
def WithinBatch (s : System) : Prop := (∀ m ∈ s.sent, m.endsBatch = false) ∧ ∀ a ∈ s.answers, a.clears = false

/-- What the server does with the message is something the middleware is told. -/
def Told (s : System) (o : Outcome) (m : Message) (rest : List Message) : Prop :=
  (∀ c ∈ o.commands m, c.told = true ∧ (c = .discardAll → ∀ m ∈ rest, m.opens = false)) ∧
  (m.dropsUnnamed = true → o.ok = false → s.pg.statements [] = none)

/-- A `Query` is sent on a quiet connection, and a `Parse` or `Close` while no `ReadyForQuery` is owed and no
`DISCARD ALL` unread. While it is not skipping the server runs no `DEALLOCATE` or `PREPARE`, no `DISCARD ALL`
ahead of a `Parse` or `Close`, and fails no unnamed `Parse` that drops a statement. -/
def Orderly (s : System) : Event → Prop
  | .write .query => s.Quiet
  | .write (.parse _) => s.WithinBatch
  | .write (.close _ _) => s.WithinBatch
  | .write _ => True
  | .serve o => s.pg.skipping = false → ∀ m ∈ s.sent.head?, s.Told o m s.sent.tail
  | .read => True

instance (s : System) : Decidable s.Quiet := inferInstanceAs (Decidable (_ ∧ _))

instance (s : System) : Decidable s.WithinBatch := inferInstanceAs (Decidable (_ ∧ _))

instance (s : System) (o : Outcome) (m : Message) (rest : List Message) : Decidable (s.Told o m rest) :=
  inferInstanceAs (Decidable (_ ∧ _))

instance (s : System) : (e : Event) → Decidable (s.Orderly e)
  | .write .query => inferInstanceAs (Decidable s.Quiet)
  | .write (.parse _) | .write (.close _ _) => inferInstanceAs (Decidable s.WithinBatch)
  | .write (.bind _) | .write .describe | .write .execute | .write .sync | .write .flush | .read =>
    inferInstanceAs (Decidable True)
  | .serve _ => inferInstanceAs (Decidable (_ → ∀ _ ∈ _, _))

end System
end Pggat.Eqp
