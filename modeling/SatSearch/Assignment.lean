import SatSearch.Binding
import SatSearch.Formula

/-!
# Total assignments

A total assignment gives every variable a value.  It is what satisfiability is about: a formula is
satisfiable if some total assignment makes a literal of each clause true, and a binding stands for
the total assignments that agree with it.
-/

namespace SatSearch

abbrev Assignment := Variable → Bool

def Literal.holds (l : Literal) (a : Assignment) : Bool :=
  a l.var == l.positive

def Clause.holds (c : Clause) (a : Assignment) : Bool :=
  c.literals.any fun l => l.holds a

def Formula.holds (f : Formula) (a : Assignment) : Bool :=
  f.clauses.toList.all fun c => c.holds a

/-- The assignment gives every bound variable its value in the binding. -/
def Binding.AgreesWith (b : Binding) (a : Assignment) : Prop :=
  ∀ v value, b.get? v = some value → a v = value

/-- Some total assignment that agrees with `b` makes the formula true. -/
def Formula.SatisfiableFrom (f : Formula) (b : Binding) : Prop :=
  ∃ a, b.AgreesWith a ∧ f.holds a = true

@[simp] theorem Literal.holds_neg (l : Literal) (a : Assignment) :
    (-l).holds a = !l.holds a := by
  cases h : a l.var <;> cases hp : l.positive <;> simp [holds, h, hp]

theorem Clause.holds_iff {c : Clause} {a : Assignment} :
    c.holds a = true ↔ ∃ l ∈ c.literals, l.holds a = true := by
  simp [holds]

theorem Formula.holds_iff {f : Formula} {a : Assignment} :
    f.holds a = true ↔ ∀ c ∈ f.clauses, c.holds a = true := by
  simp only [holds, List.all_eq_true, Array.mem_toList_iff]

end SatSearch
