import Pggat.Base.Lines
import Pggat.Base.Loops

/-! The lines of an INI text, and the loop that assigns the pairs one after the other. -/
namespace Pggat.Ini
open Pggat.Base

inductive Failure where
  | includeFound
  | expectedPair
  | cannotSet
  | wrongLength
  | number
  | unmarshaller
  deriving DecidableEq, Repr

def includeMark : GoString := ascii ['%', 'i', 'n', 'c', 'l', 'u', 'd', 'e']

inductive Line where
  | comment
  | header (name : GoString)
  | pair (key value : GoString)
  deriving DecidableEq, Repr

/-- What `Unmarshal` takes a line for that is trimmed and not blank. -/
def parseLine (line : GoString) : Except Failure Line :=
  if includeMark.isPrefixOf line then .error .includeFound
  else if [59].isPrefixOf line ∨ [35].isPrefixOf line then .ok .comment
  else if [91].isPrefixOf line ∧ [93].isSuffixOf line then .ok (.header (line.drop 1).dropLast)
  else
    match cut 61 line with
    | none => .error .expectedPair
    | some (key,value) => .ok (.pair (trimSpace key) (trimSpace value))

/-- A pair of an INI text under its section. -/
structure Assignment where
  sec : GoString
  key : GoString
  value : GoString
  deriving DecidableEq, Repr

/-- The pairs of some lines behind the header of a section. -/
def collect : (sec : GoString) → List GoString → Except Failure (List Assignment)
  | _, [] => .ok []
  | sec, line :: rest => do
    match ← parseLine line with
    | .comment => collect sec rest
    | .header name => collect name rest
    | .pair key value => return ⟨sec,key,value⟩ :: (← collect sec rest)

def assignments (data : GoString) : Except Failure (List Assignment) := collect [] (content data)

section
variable {V : Type} (setpath : V → (sec key value : GoString) → Except Failure V)

/-- A turn of the loop, with the section that was opened last. -/
def readLine (s : GoString × V) (line : GoString) : Except Failure (GoString × V) := do
  match ← parseLine line with
  | .comment => return s
  | .header name => return (name,s.2)
  | .pair key value => return (s.1,← setpath s.2 s.1 key value)

/-- `Unmarshal` -/
def unmarshal (data : GoString) (v : V) : Except Failure V := do
  let s ← eachLine (readLine setpath) (data.length + 1) ([],v) data
  return s.2

theorem unmarshal_eq (data : GoString) (v : V) :
    unmarshal setpath data v = (·.2) <$> (content data).foldlM (readLine setpath) ([],v) := by
  rw [unmarshal,eachLine_eq _ (Nat.lt_succ_self _)]
  rfl

/-- Only the lines that are not blank count, without the white space around them. -/
theorem unmarshal_congr {data data' : GoString} (h : content data = content data') (v : V) :
    unmarshal setpath data v = unmarshal setpath data' v := by
  rw [unmarshal_eq,unmarshal_eq,h]

end

end Pggat.Ini
