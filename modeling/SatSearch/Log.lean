import SatSearch.Literal

/-!
# The log

Reading a formula, building an index and searching leave records behind.  A record states a fact of
the run; its text and its level of detail are derived from it.
-/

namespace SatSearch

/-- Counts kept over a whole search; undoing an assignment does not lower them. -/
structure SearchStats where
  /-- Branch decisions, flipped ones included. -/
  decisions : Nat := 0
  conflicts : Nat := 0
  /-- Literals assigned without being decided. -/
  propagations : Nat := 0
deriving DecidableEq, Inhabited, Repr

def SearchStats.text (s : SearchStats) : String :=
  s!"SearchStats \x7b decisions: {s.decisions}, conflicts: {s.conflicts}, " ++
    s!"propagations: {s.propagations} \x7d"

inductive LogLevel where
  | debug
  | trace
deriving DecidableEq, Inhabited, Repr

def LogLevel.text : LogLevel → String
  | debug => "DEBUG"
  | trace => "TRACE"

inductive LogRecord where
  | parsed (variableCount clauseCount : Nat)
  | merging (indices clauses : Nat)
  | solving (clauseCount variableCount : Nat)
  | propagating (count : Nat)
  | eliminating (count : Nat)
  | decision (literal : Literal) (level : Nat) (flipped : Bool)
  | backtracking (literal : Literal)
  | satisfiable (stats : SearchStats)
  | unsatisfiable (stats : SearchStats)
  | cancelled (stats : SearchStats)
deriving DecidableEq, Inhabited, Repr

namespace LogRecord

/-- The steps of a search are of interest for tracing only. -/
def level : LogRecord → LogLevel
  | merging .. | propagating .. | eliminating .. | decision .. | backtracking .. => .trace
  | parsed .. | solving .. | satisfiable .. | unsatisfiable .. | cancelled .. => .debug

def text : LogRecord → String
  | parsed variableCount clauseCount =>
    s!"Parsed CNF with {variableCount} variables and {clauseCount} clauses"
  | merging indices clauses =>
    s!"Merging {indices} partial occurrence indices over {clauses} clauses"
  | solving clauseCount variableCount =>
    s!"Solving {clauseCount} clauses over {variableCount} variables"
  | propagating count => s!"Propagating {count} unit literals"
  | eliminating count => s!"Eliminating {count} pure literals"
  | decision literal level flipped =>
    s!"Decision {literal.text} at level {level}" ++ (if flipped then " (flipped)" else "")
  | backtracking literal => s!"Backtracking over {literal.text}"
  | satisfiable stats => s!"SAT after {stats.text}"
  | unsatisfiable stats => s!"UNSAT after {stats.text}"
  | cancelled stats => s!"Cancelled after {stats.text}"

/-- A log line is the level followed by the text. -/
def line (r : LogRecord) : String :=
  s!"{r.level.text} {r.text}"

end LogRecord

end SatSearch
