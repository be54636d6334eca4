import SatSearch.Dimacs
import SatSearch.Dimacs.ParseError
import SatSearch.Failure
import SatSearch.Log
import SatSearch.Text.Pieces
import SatSearch.VariableSupply

/-!
# Reading a DIMACS file

The input is read line by line.  Blank lines and lines that start with `c` are skipped.  The first
other line is the problem line `p cnf n m`; the following ones hold the words of the clauses, which
may span several lines and end at `0`.  A line that starts with `%` ends the input, and nothing
after it is looked at.

The result is a closed formula over `n` fresh variables with `m` clauses.  The variables are listed
as soon as they are announced, so a file that announces too many of them is not read any further.
-/

namespace SatSearch.Dimacs

/-- The text of a line, trimmed. -/
def lineText (bytes : List UInt8) : Except ParseError (List Char) :=
  match Text.decode? bytes with
  | some cs => .ok (Text.trim cs)
  | none => .error (.cannotRead .invalidUtf8)

/-- Whether a trimmed line is blank or a comment. -/
def isSkipped : List Char → Bool
  | [] => true
  | c :: _ => c == 'c'

/-- Whether a trimmed line ends the input. -/
def isEnd : List Char → Bool
  | [] => false
  | c :: _ => c == '%'

/-- What the problem line announces. -/
structure Problem where
  variableCount : Nat
  clauseCount : Nat
deriving DecidableEq, Inhabited, Repr

def readCount? (word : List Char) : Option Nat :=
  match Text.readNumeral .unsigned64 word with
  | .ok n => some n.toNat
  | .error _ => none

def parseProblem? (line : List Char) : Option Problem :=
  match Text.words line with
  | [['p'], ['c', 'n', 'f'], n, m] => do
    let variableCount ← readCount? n
    let clauseCount ← readCount? m
    return { variableCount, clauseCount }
  | _ => none

/-- Reads up to the problem line and returns the lines after it. -/
def parseHeader : List (List UInt8) → Except ParseError (Problem × List (List UInt8))
  | [] => .error .missingProblemLine
  | bytes :: rest => do
    let line ← lineText bytes
    if isSkipped line then
      parseHeader rest
    else
      match parseProblem? line with
      | some problem => return (problem, rest)
      | none => throw .missingProblemLine

/-- What has been read after the problem line: the clauses that have ended, the literals of the one
that has not, and the last line. -/
structure Body where
  formula : Formula
  pending : Array Literal := #[]
  lastLine : List Char := []
deriving Inhabited

/-- The literal of a number other than zero. -/
def literalOf (declared : Array Variable) (number : Int) : Except ParseError Literal :=
  match declared[number.natAbs - 1]? with
  | some v => .ok ⟨v, 0 < number⟩
  | none => .error (.literalOutOfRange number declared.size)

namespace Body

/-- Reads one number: zero ends the pending clause, any other number adds a literal to it. -/
def number (declared : Array Variable) (b : Body) (value : Int) : Except ParseError Body :=
  if value = 0 then
    match b.formula.addClause ⟨b.pending.toList⟩ with
    | (formula, none) => .ok { b with formula, pending := #[] }
    | (_, some cause) => .error (.rejectedClause cause)
  else do
    let l ← literalOf declared value
    return { b with pending := b.pending.push l }

def word (declared : Array Variable) (line : List Char) (b : Body) (cs : List Char) :
    Except ParseError Body :=
  match Text.readNumeral .signed64 cs with
  | .ok value => b.number declared value
  | .error cause => .error (.malformedLiteral (String.ofList line) cause)

def line (declared : Array Variable) (b : Body) (cs : List Char) : Except ParseError Body := do
  let b ← (Text.words cs).foldlM (word declared cs) b
  return { b with lastLine := cs }

def read (declared : Array Variable) (b : Body) : List (List UInt8) → Except ParseError Body
  | [] => .ok b
  | bytes :: rest => do
    let cs ← lineText bytes
    if isSkipped cs then
      b.read declared rest
    else if isEnd cs then
      return b
    else
      let b ← b.line declared cs
      b.read declared rest

/-- The formula of the input, if its last clause has ended and the number of clauses is the one
announced. -/
def close (b : Body) (expected : Nat) : Except ParseError Formula :=
  if !b.pending.isEmpty then
    .error (.unterminatedClause (String.ofList b.lastLine))
  else if b.formula.clauses.size ≠ expected then
    .error (.clauseCountMismatch expected b.formula.clauses.size)
  else
    .ok b.formula

end Body

/-- Reads the lines after the problem line; the variables are drawn from the supply. -/
def parseBody (supply : VariableSupply) (problem : Problem) (lines : List (List UInt8)) :
    Except ParseError Dimacs := do
  let declared := supply.fresh problem.variableCount
  let body ← Body.read declared.toArray { formula := .withVariables declared } lines
  let formula ← body.close problem.clauseCount
  return { formula, declared := declared.toArray }

/-- The largest number of variables that a list has the capacity for: a variable takes eight bytes,
and a list at most `2 ^ 63 - 1`.  Whether there is as much memory is another matter, which is not
modelled. -/
def maxVariables : Nat :=
  (Nat.pow 2 63 - 1) / 8

/-- Lists the variables that are announced and reads the lines after the problem line. -/
def parseAnnounced (supply : VariableSupply) (problem : Problem) (lines : List (List UInt8)) :
    Except (Failure ParseError) Dimacs :=
  if problem.variableCount ≤ maxVariables then
    (parseBody supply problem lines).mapError .returned
  else
    .error (.panicked .capacityOverflow)

def parseLines (supply : VariableSupply) (lines : List (List UInt8)) :
    Except (Failure ParseError) Dimacs := do
  let (problem, rest) ← (parseHeader lines).mapError .returned
  parseAnnounced supply problem rest

/-- Reads the bytes of a DIMACS file. -/
def parse (supply : VariableSupply) (bytes : ByteArray) : Except (Failure ParseError) Dimacs :=
  parseLines supply (Text.lines bytes.data.toList)

def parseText (supply : VariableSupply) (text : String) : Except (Failure ParseError) Dimacs :=
  parse supply text.toUTF8

/-- Reads the DIMACS file at `path`, of which the content is given, or the reason why it is not
available. -/
def parseFile (supply : VariableSupply) (path : String) :
    Except FileError ByteArray → Except (Failure ParseError) Dimacs
  | .ok bytes => parse supply bytes
  | .error (.cannotOpen cause) => .error (.returned (.cannotOpen path cause))
  | .error (.cannotRead cause) => .error (.returned (.cannotRead (.system cause)))

def logRecord (d : Dimacs) : LogRecord :=
  .parsed d.declared.size d.formula.clauses.size

end SatSearch.Dimacs
