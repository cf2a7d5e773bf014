import Pggat.Eqp.State

/-! The prepared statements of a PostgreSQL backend. -/
namespace Pggat.Eqp
open Pggat.Base

abbrev Statements := GoString → Option Parse

def Statements.drop (S : Statements) (name : GoString) : Statements := Function.update S name none

def Statements.put (S : Statements) (p : Parse) : Statements := Function.update S p.destination (some p)

/-- A command that ran to completion. -/
inductive Command where
  | discardAll
  | deallocate (name : GoString)
  | deallocateAll
  | prepare (p : Parse)
  | other (tag : GoString) (h : tag ≠ Eqp.discardAll)
  deriving DecidableEq

namespace Command

def tag : Command → GoString
  | discardAll => Eqp.discardAll
  | deallocate _ => ascii ['D', 'E', 'A', 'L', 'L', 'O', 'C', 'A', 'T', 'E']
  | deallocateAll => ascii ['D', 'E', 'A', 'L', 'L', 'O', 'C', 'A', 'T', 'E', ' ', 'A', 'L', 'L']
  | prepare _ => ascii ['P', 'R', 'E', 'P', 'A', 'R', 'E']
  | other tag _ => tag

def run : Command → Statements → Statements
  | discardAll, _ => fun _ => none
  | deallocate name, S => S.drop name
  | deallocateAll, _ => fun _ => none
  | prepare p, S => S.put p
  | other _ _, S => S

theorem tag_ne_discardAll {c : Command} (h : c ≠ discardAll) : c.tag ≠ Eqp.discardAll := by
  cases c with
  | discardAll => exact absurd rfl h
  | other tag htag => exact htag
  | deallocate name => simp [tag,Eqp.discardAll,ascii]
  | deallocateAll => simp [tag,Eqp.discardAll,ascii]
  | prepare p => simp [tag,Eqp.discardAll,ascii]

end Command

/-- What the server sends, with what it stands for: the packet it answers, and with `ReadyForQuery` the
statements at that time. -/
inductive Answer where
  | parseComplete (p : Parse)
  | bindComplete
  | closeComplete (c : Close)
  | commandComplete (c : Command)
  | readyForQuery (state : UInt8) (statements : Statements)
  | error
  | other

def Answer.reply : Answer → Reply
  | parseComplete _ => .parseComplete
  | bindComplete => .bindComplete
  | closeComplete _ => .closeComplete
  | commandComplete c => .commandComplete c.tag
  | readyForQuery state _ => .readyForQuery state
  | error => .other
  | other => .other

/-- How a message fares: whether it fails, the commands that complete before that, and the transaction
state it leaves. -/
structure Outcome where
  ok : Bool := true
  ran : List Command := []
  state : UInt8 := 0x49

/-- What a simple query sends before its `ReadyForQuery`. -/
def Outcome.progress (o : Outcome) : List Answer := o.ran.map .commandComplete ++ if o.ok then [] else [.error]

structure Postgres where
  statements : Statements := fun _ => none
  skipping : Bool := false

namespace Postgres

def fail (pg : Postgres) : Postgres × List Answer := ({ pg with skipping := true },[.error])

/-- A message that succeeds with these effects, or fails. -/
def attempt (pg : Postgres) (o : Outcome) (S : Statements) (answers : List Answer) : Postgres × List Answer :=
  if o.ok then ({ pg with statements := S },answers) else pg.fail

/-- A `Parse` of the unnamed statement drops the old one first. -/
def makeRoom (pg : Postgres) (p : Parse) : Postgres :=
  if p.destination = [] then { pg with statements := pg.statements.drop [] } else pg

/-- A name cannot be parsed twice. -/
def parse (pg : Postgres) (o : Outcome) (p : Parse) : Option (Postgres × List Answer) :=
  if o.ok = true ∧ ((pg.makeRoom p).statements p.destination).isSome then none
  else some ((pg.makeRoom p).attempt o ((pg.makeRoom p).statements.put p) [.parseComplete p])

def close (pg : Postgres) (o : Outcome) (c : Close) : Postgres × List Answer :=
  match c.variant with
  | .preparedStatement => pg.attempt o (pg.statements.drop c.target) [.closeComplete c]
  | .portal => pg.attempt o pg.statements [.closeComplete c]

/-- A portal runs one command, or stops before its end. -/
def execute (pg : Postgres) (o : Outcome) : Postgres × List Answer :=
  match o.ran with
  | c :: _ => pg.attempt o (c.run pg.statements) [.commandComplete c]
  | [] => pg.attempt o pg.statements [.other]

/-- A simple query drops the unnamed statement and runs commands up to the first error. -/
def query (pg : Postgres) (o : Outcome) : Postgres × List Answer :=
  let S := o.ran.foldl (fun S c => c.run S) (pg.statements.drop [])
  ({ pg with statements := S },o.progress ++ [.readyForQuery o.state S])

def sync (pg : Postgres) (o : Outcome) : Postgres × List Answer :=
  ({ pg with skipping := false },[.readyForQuery o.state pg.statements])

def handle (pg : Postgres) (o : Outcome) : Message → Option (Postgres × List Answer)
  | .parse p => pg.parse o p
  | .bind _ => some (pg.attempt o pg.statements [.bindComplete])
  | .close which name => (closeOf which name).map (pg.close o)
  | .query => some (pg.query o)
  | .describe => some (pg.attempt o pg.statements [.other])
  | .execute => some (pg.execute o)
  | .sync => some (pg.sync o)
  | .flush => some (pg,[])

/-- After an error in extended query mode the server discards all up to the next `Sync`. -/
def serve (pg : Postgres) (o : Outcome) (m : Message) : Option (Postgres × List Answer) :=
  if pg.skipping = true ∧ m ≠ .sync then some (pg,[]) else pg.handle o m

theorem makeRoom_put (pg : Postgres) (p : Parse) : (pg.makeRoom p).statements.put p = pg.statements.put p := by
  unfold makeRoom Statements.put Statements.drop
  split
  · rename_i h
    simp [h]
  · rfl

theorem makeRoom_eq {pg : Postgres} {p : Parse} (h : p.destination = [] → pg.statements [] = none) :
    pg.makeRoom p = pg := by
  unfold makeRoom Statements.drop
  split
  · rename_i hd
    rw [Function.update_eq_self_iff.mpr (h hd).symm]
  · rfl

end Postgres
end Pggat.Eqp
