import SatSearch.Search

/-!
# Solver

Finding a binding that extends a given one and satisfies a formula.
-/

namespace SatSearch

/-- Why there is no binding to return. -/
inductive SolveError where
  /-- No binding that extends the starting one satisfies the formula. -/
  | unsatisfiable
  | cancelled (decisions : Nat)
  /-- The starting binding binds a variable that the closed formula does not contain. -/
  | invalidInput (foreign : Variable)
  | internal (fault : Fault)
deriving DecidableEq, Inhabited, Repr

namespace SolveError

def message : SolveError → String
  | unsatisfiable => "No binding satisfies the formula"
  | cancelled decisions => s!"Search was cancelled after {decisions} decisions"
  | invalidInput foreign =>
    s!"The starting binding binds {foreign.text}, which is not a variable of the formula"
  | internal fault => fault.message

end SolveError

def Verdict.result : Verdict → Except SolveError Binding
  | satisfied model => .ok model
  | unsatisfiable => .error .unsatisfiable
  | cancelled decisions => .error (.cancelled decisions)

namespace Search

/-- Prepares the search for a binding of `f` that extends `starting`. -/
def prepare (f : Formula) (starting : Binding) (config : SearchConfig)
    (cancellation : Cancellation) : Except SolveError Search :=
  match foreignVariable? f starting with
  | some v => .error (.invalidInput v)
  | none => .ok (start f starting config cancellation)

/-- Searches to the end and returns the result together with the search as it ended.  A fault
leaves no search to return. -/
def finish (s : Search) : Except SolveError Binding × Option Search :=
  match s.solve with
  | .ok (verdict, s) => (verdict.result, some s)
  | .error fault => (.error (.internal fault), none)

end Search

/-- Finds a binding that extends `starting` and satisfies `f`. -/
def solveWith (f : Formula) (starting : Binding) (config : SearchConfig)
    (cancellation : Cancellation) : Except SolveError Binding := do
  let s ← Search.prepare f starting config cancellation
  s.finish.1

/-- Finds a binding with the default configuration and without cancellation. -/
def solve (f : Formula) (starting : Binding) : Except SolveError Binding :=
  solveWith f starting {} .never

end SatSearch
