/-!
# Failures

An operation that gives no result returns an error, which its caller handles or reports, or it
panics: then the program ends where it stands, and nobody handles anything.
-/

namespace SatSearch

inductive Panic where
  /-- A list is to hold more elements than its capacity can be. -/
  | capacityOverflow
deriving DecidableEq, Inhabited, Repr

def Panic.message : Panic → String
  | capacityOverflow => "capacity overflow"

/-- Why an operation gives no result. -/
inductive Failure (ε : Type) where
  | returned (error : ε)
  | panicked (cause : Panic)
deriving DecidableEq, Repr

namespace Failure

variable {ε ε' : Type}

/-- The failure of an operation that passes on what a part of it fails with. -/
def map (f : ε → ε') : Failure ε → Failure ε'
  | returned error => returned (f error)
  | panicked cause => panicked cause

end Failure

end SatSearch
