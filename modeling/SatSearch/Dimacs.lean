import SatSearch.Binding
import SatSearch.Formula

/-!
# DIMACS formulas

A DIMACS file names its variables by the numbers from 1 on and writes a negative literal as a
negative number.  A formula read from such a file remembers which variable stands for which number.
-/

namespace SatSearch

structure Dimacs where
  formula : Formula
  /-- The variable at position `i` stands for the number `i + 1`. -/
  declared : Array Variable
deriving Inhabited

namespace Dimacs

def variableOf? (d : Dimacs) (number : Nat) : Option Variable :=
  if number = 0 then none else d.declared[number - 1]?

/-- The literals over the variables of the file that a binding makes true, as signed numbers in
ascending order of their absolute values. -/
def trueNumbers (d : Dimacs) (b : Binding) : List Int :=
  d.declared.toList.zipIdx.filterMap fun (v, i) =>
    (b.get? v).map fun value => if value then Int.ofNat (i + 1) else -Int.ofNat (i + 1)

/-- The line in which a solver states its solution.  Unbound variables are left out. -/
def modelLine (d : Dimacs) (b : Binding) : String :=
  "v" ++ String.join ((d.trueNumbers b).map fun number => s!" {number}") ++ " 0"

end Dimacs

end SatSearch
