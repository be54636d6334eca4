import SatSearch.WorkingFormula

/-!
# Trails

A trail lists the literals made true so far, each with its cause, and keeps the changes they caused
in one journal.  An entry marks how long the journal was when its literal was made true, so the
changes that belong to it are the ones above its mark.
-/

namespace SatSearch

/-- Why a literal was made true. -/
inductive Cause where
  /-- By choice; `flipped` says that the opposite choice has been explored already. -/
  | decision (flipped : Bool)
  /-- Forced by a unit clause, harmless because pure, or requested by the caller. -/
  | inference
deriving DecidableEq, Inhabited, Repr

def Cause.isDecision : Cause → Bool
  | decision _ => true
  | inference => false

structure TrailEntry where
  literal : Literal
  cause : Cause
  /-- The length of the journal before. -/
  mark : Nat
deriving DecidableEq, Inhabited, Repr

structure Trail where
  /-- The assignments, newest first. -/
  entries : List TrailEntry := []
  /-- The changes of all assignments, newest first. -/
  journal : List Change := []
deriving DecidableEq, Inhabited, Repr

namespace Trail

/-- Adds an assignment that has changed nothing yet. -/
def push (t : Trail) (l : Literal) (cause : Cause) : Trail :=
  { t with entries := ⟨l, cause, t.journal.length⟩ :: t.entries }

/-- Attributes changes, given in the order in which they were made, to the newest assignment. -/
def record (t : Trail) (changes : List Change) : Trail :=
  { t with journal := changes.reverse ++ t.journal }

/-- The newest assignment with its changes, newest first, and the trail without both. -/
def pop? (t : Trail) : Option (TrailEntry × List Change × Trail) :=
  match t.entries with
  | [] => none
  | e :: entries =>
    let count := t.journal.length - e.mark
    some (e, t.journal.take count, { entries, journal := t.journal.drop count })

def level (t : Trail) : Nat :=
  t.entries.countP fun e => e.cause.isDecision

end Trail

end SatSearch
