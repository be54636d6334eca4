/-!
# Faults

The state of a search is redundant: clauses, occurrence index, status sets, binding and trail
describe one situation in several ways.  A step that finds two of them in disagreement stops with a
fault instead of going on with a wrong state.  Loops that are bounded by the size of the problem
stop with a fault at their bound.
-/

namespace SatSearch

inductive Fault where
  | unknownClause (number : Nat)
  | statusMissing (number : Nat)
  | statusPresent (number : Nat)
  | literalMissing (number : Nat)
  | positionMissing (number : Nat)
  | emptyUnit (number : Nat)
  | alreadyBound (id : Nat)
  | notBound (id : Nat)
  | nothingToBranchOn
  | roundLimit
  | stepLimit
deriving DecidableEq, Inhabited, Repr

namespace Fault

def message : Fault → String
  | unknownClause n => s!"There is no clause {n}"
  | statusMissing n => s!"Clause {n} does not have the status it should lose"
  | statusPresent n => s!"Clause {n} has the status it should gain already"
  | literalMissing n => s!"Clause {n} does not contain a literal it is indexed under"
  | positionMissing n => s!"A literal of clause {n} cannot be put back"
  | emptyUnit n => s!"Unit clause {n} has no literal"
  | alreadyBound id => s!"Variable x{id} is already bound"
  | notBound id => s!"Variable x{id} is not bound"
  | nothingToBranchOn => "An open clause has no literal to branch on"
  | roundLimit => "Simplification does not come to rest"
  | stepLimit => "The search does not come to an end"

end Fault

end SatSearch
