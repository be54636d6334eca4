import SatSearch.Formula
import SatSearch.Report
import SatSearch.Text.Numeral

/-!
# Errors of reading a DIMACS file
-/

namespace SatSearch

/-- An error that the operating system reports, with its number. -/
structure SystemError where
  description : String
  number : Nat
deriving DecidableEq, Inhabited, Repr

namespace SystemError

def message (e : SystemError) : String :=
  s!"{e.description} (os error {e.number})"

def notFound : SystemError := ⟨"No such file or directory", 2⟩

def permissionDenied : SystemError := ⟨"Permission denied", 13⟩

def notADirectory : SystemError := ⟨"Not a directory", 20⟩

def isADirectory : SystemError := ⟨"Is a directory", 21⟩

end SystemError

/-- Why the content of a file is not available. -/
inductive FileError where
  | cannotOpen (cause : SystemError)
  | cannotRead (cause : SystemError)
deriving DecidableEq, Inhabited, Repr

/-- Why a line of the input cannot be read. -/
inductive ReadError where
  | invalidUtf8
  | system (cause : SystemError)
deriving DecidableEq, Inhabited, Repr

def ReadError.message : ReadError → String
  | invalidUtf8 => "stream did not contain valid UTF-8"
  | system cause => cause.message

namespace Dimacs

inductive ParseError where
  | cannotOpen (path : String) (cause : SystemError)
  | cannotRead (cause : ReadError)
  /-- The last clause does not end; `line` is the last line that could have ended it. -/
  | unterminatedClause (line : String)
  /-- A word of the line is no number. -/
  | malformedLiteral (line : String) (cause : Text.NumeralError)
  /-- A number has no variable. -/
  | literalOutOfRange (literal : Int) (bound : Nat)
  | missingProblemLine
  | rejectedClause (cause : FormulaError)
  | clauseCountMismatch (expected found : Nat)
deriving DecidableEq, Repr

namespace ParseError

def message : ParseError → String
  | cannotOpen path _ => s!"I/O error occurred while parsing CNF file '{path}'"
  | cannotRead _ => "I/O error occurred while reading CNF input"
  | unterminatedClause line => s!"Clause '{line}' is not terminated by 0"
  | malformedLiteral line _ => s!"Invalid literal found in clause '{line}'"
  | literalOutOfRange literal bound =>
    s!"Literal {literal} is out of range (must be within 1 to {bound} in absolute value)"
  | missingProblemLine => "Problem line 'p cnf <num_variables> <num_clauses>' is not found"
  | rejectedClause _ => "Clause rejected by the formula"
  | clauseCountMismatch expected found =>
    s!"The number of clauses ({found}) does not match the clauses number " ++
      s!"in the problem definition ({expected})"

def causes : ParseError → List String
  | cannotOpen _ cause => [cause.message]
  | cannotRead cause => [cause.message]
  | malformedLiteral _ cause => [cause.message]
  | rejectedClause cause => [cause.message]
  | unterminatedClause .. | literalOutOfRange .. | missingProblemLine
  | clauseCountMismatch .. => []

def report (e : ParseError) : Report :=
  ⟨e.message, e.causes⟩

end ParseError

end Dimacs

end SatSearch
