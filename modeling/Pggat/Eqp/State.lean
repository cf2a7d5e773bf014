import Pggat.Base.Maps
import Pggat.Base.Runes

/-! What the `eqp` middleware remembers of the prepared statements and portals of a connection. -/
namespace Pggat.Eqp
open Pggat.Base

structure Parse where
  destination : GoString
  query : GoString
  parameterDataTypes : List Int
  deriving DecidableEq, Repr

structure Bind where
  destination : GoString
  source : GoString
  formatCodes : List Int
  parameters : List (Option (List UInt8))
  resultFormatCodes : List Int
  deriving DecidableEq, Repr

inductive CloseVariant where
  | preparedStatement
  | portal
  deriving DecidableEq, Repr

structure Close where
  variant : CloseVariant
  target : GoString
  deriving DecidableEq, Repr

/-- Packets to the server. -/
inductive Message where
  | parse (p : Parse)
  | bind (p : Bind)
  | close (which : UInt8) (name : GoString)
  | query
  | describe
  | execute
  | sync
  | flush
  deriving DecidableEq, Repr

/-- Packets from the server. -/
inductive Reply where
  | parseComplete
  | bindComplete
  | closeComplete
  | commandComplete (tag : GoString)
  | readyForQuery (state : UInt8)
  | other
  deriving DecidableEq, Repr

structure State where
  preparedStatements : Map GoString Parse := ∅
  portals : Map GoString Bind := ∅
  pendingPreparedStatements : List Parse := []
  pendingPortals : List Bind := []
  pendingCloses : List Close := []

def discardAll : GoString := ascii ['D', 'I', 'S', 'C', 'A', 'R', 'D', ' ', 'A', 'L', 'L']

/-- What a `Close` packet closes; any other variant than `S` and `P` is refused. -/
def closeOf (which : UInt8) (name : GoString) : Option Close :=
  if which = 0x53 then some ⟨.preparedStatement,name⟩
  else if which = 0x50 then some ⟨.portal,name⟩
  else none

namespace State

def close (T : State) (c : Close) : State := { T with pendingCloses := T.pendingCloses ++ [c] }

def closeComplete (T : State) : State :=
  match T.pendingCloses with
  | [] => T
  | ⟨.portal,target⟩ :: rest => { T with pendingCloses := rest, portals := T.portals.erase target }
  | ⟨.preparedStatement,target⟩ :: rest =>
    { T with pendingCloses := rest, preparedStatements := T.preparedStatements.erase target }

def parse (T : State) (p : Parse) : State :=
  { T with pendingPreparedStatements := T.pendingPreparedStatements ++ [p] }

def parseComplete (T : State) : State :=
  match T.pendingPreparedStatements with
  | [] => T
  | p :: rest => { T with
      pendingPreparedStatements := rest
      preparedStatements := T.preparedStatements.insert p.destination p }

def bind (T : State) (p : Bind) : State := { T with pendingPortals := T.pendingPortals ++ [p] }

def bindComplete (T : State) : State :=
  match T.pendingPortals with
  | [] => T
  | p :: rest => { T with pendingPortals := rest, portals := T.portals.insert p.destination p }

/-- `Query` clobbers the unnamed portal and the unnamed prepared statement. -/
def query (T : State) : State :=
  { T with portals := T.portals.erase [], preparedStatements := T.preparedStatements.erase [] }

def clearPending (T : State) : State :=
  { T with pendingPreparedStatements := [], pendingPortals := [], pendingCloses := [] }

def commandComplete (T : State) (tag : GoString) : State :=
  if tag = discardAll then { T with preparedStatements := ∅, portals := ∅ }.clearPending else T

/-- Portals end with the transaction, and all that is pending has failed. -/
def readyForQuery (T : State) (state : UInt8) : State :=
  (if state = 0x49 then { T with portals := ∅ } else T).clearPending

/-- Packets to the server; a refused one is not sent. -/
def c2s (T : State) : Message → Option State
  | .close which name => (closeOf which name).map T.close
  | .parse p => some (T.parse p)
  | .bind p => some (T.bind p)
  | .query => some T.query
  | _ => some T

/-- Packets from the server. -/
def s2c (T : State) : Reply → State
  | .closeComplete => T.closeComplete
  | .parseComplete => T.parseComplete
  | .bindComplete => T.bindComplete
  | .commandComplete tag => T.commandComplete tag
  | .readyForQuery state => T.readyForQuery state
  | .other => T

end State
end Pggat.Eqp
