import SatSearch.Clause
import SatSearch.VariableSupply

/-!
# Exactly one of several variables

The encoding takes a fresh auxiliary variable for each input.  One clause says that some auxiliary
holds; binary clauses say that an auxiliary forces its own input true and every other input false.
-/

namespace SatSearch

/-- The clauses that let `auxiliary` stand for the choice of `selected` among `vs`. -/
def choiceClauses (vs : List Variable) (selected auxiliary : Variable) : List Clause :=
  vs.map fun v => ⟨[auxiliary.negative, ⟨v, v = selected⟩]⟩

/-- Clauses that say that exactly one of `vs` is true, and the supply without the auxiliary
variables.  Without inputs the only clause is the empty one.

The capacity for all clauses is asked for at once, `1 + n * n` of them for `n` inputs.  That this
panics above some hundred million inputs is not modelled. -/
def exactlyOneOf (supply : VariableSupply) (vs : List Variable) :
    List Clause × VariableSupply :=
  let auxiliaries := supply.fresh vs.length
  let someChoice : Clause := ⟨auxiliaries.map Variable.positive⟩
  let choices := (vs.zip auxiliaries).flatMap fun (v, a) => choiceClauses vs v a
  (someChoice :: choices, supply.advance vs.length)

end SatSearch
