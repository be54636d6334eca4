import SatSearch.Binding
import SatSearch.Formula
import SatSearch.Truth

/-!
# Evaluation under a binding

The truth value of a literal, a clause and a formula under a partial assignment: an unbound
variable is unknown, a clause is the disjunction of its literals, and a formula the conjunction of
its clauses.
-/

namespace SatSearch

def Literal.evaluate (l : Literal) (b : Binding) : Truth :=
  Truth.ofOption (b.value? l)

/-- An empty clause is false. -/
def Clause.evaluate (c : Clause) (b : Binding) : Truth :=
  c.literals.foldl (fun t l => t.or (l.evaluate b)) .no

/-- A formula without clauses is true. -/
def Formula.evaluate (f : Formula) (b : Binding) : Truth :=
  f.clauses.toList.foldl (fun t c => t.and (c.evaluate b)) .yes

end SatSearch
