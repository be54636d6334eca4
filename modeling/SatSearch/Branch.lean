import SatSearch.Binding
import SatSearch.Trail

/-!
# Branches

A branch is a path from the root of the search tree: the trail of the literals made true so far,
the binding they amount to, and what they leave of the formula.  Assigning a literal extends the
branch; undoing withdraws its newest literal and puts everything else back as it was before.
-/

namespace SatSearch

structure Branch where
  formula : WorkingFormula
  binding : Binding := .empty
  trail : Trail := {}
deriving DecidableEq, Inhabited

namespace Branch

def isSatisfied (b : Branch) : Bool := b.formula.isSatisfied

def hasFalsified (b : Branch) : Bool := b.formula.hasFalsified

def level (b : Branch) : Nat :=
  b.trail.level

def assign (b : Branch) (l : Literal) (cause : Cause) : Except Fault Branch := do
  if b.binding.binds l.var then
    throw (.alreadyBound l.var.id)
  let (changes, formula) ← b.formula.assign l
  return {
    formula
    binding := b.binding.assign l
    trail := (b.trail.push l cause).record changes }

/-- Makes the given literals true in turn, all for one cause. -/
def assignAll (b : Branch) (ls : List Literal) (cause : Cause) : Except Fault Branch :=
  ls.foldlM (fun b l => b.assign l cause) b

/-- Takes back the newest assignment, if there is one. -/
def undo (b : Branch) : Except Fault (Option (TrailEntry × Branch)) :=
  match b.trail.pop? with
  | none => return none
  | some (e, changes, trail) => do
    let formula ← b.formula.revertAll changes
    if !b.binding.binds e.literal.var then
      throw (.notBound e.literal.var.id)
    return some (e, { formula, binding := b.binding.unset e.literal.var, trail })

/-- Takes back at most the given number of assignments, the last of them a decision that is not
flipped, and returns the literal of that decision. -/
def unwindWithin (b : Branch) : Nat → Except Fault (Option Literal × Branch)
  | 0 => return (none, b)
  | n + 1 => do
    match ← b.undo with
    | none => return (none, b)
    | some (e, b) =>
      if e.cause = .decision false then return (some e.literal, b) else b.unwindWithin n

/-- Takes back assignments down to and including the newest decision whose opposite is untried.
Without such a decision everything is taken back. -/
def unwind (b : Branch) : Except Fault (Option Literal × Branch) :=
  b.unwindWithin b.trail.entries.length

/-- The given literals without repetitions, in the order of their first mention, none of them in
`seen`.  There is no answer if a literal and its negation are both mentioned. -/
def consistent (seen : Std.ExtTreeSet Literal) : List Literal → Option (List Literal)
  | [] => some []
  | l :: ls =>
    if seen.contains (-l) then
      none
    else if seen.contains l then
      consistent seen ls
    else
      (consistent (seen.insert l) ls).map (l :: ·)

/-- The literals of the unit clauses in clause order, without repetitions, or `none` if a literal
and its negation are both forced. -/
def unitLiterals (b : Branch) : Except Fault (Option (List Literal)) := do
  let ls ← b.formula.soleLiterals
  return consistent ∅ ls

def pureLiterals (b : Branch) : List Literal :=
  b.formula.index.pureLiterals

/-- The first variable of the remaining clauses. -/
def nextVariable? (b : Branch) : Option Variable :=
  b.formula.index.firstLiteral?.map Literal.var

end Branch

end SatSearch
