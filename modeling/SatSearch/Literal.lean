import Std.Data.ExtTreeMap
import Std.Data.ExtTreeSet

/-!
# Variables and literals

A variable is a number, and variables are ordered by it.  A literal is a variable together with a
polarity; literals are ordered by variable, and the negative literal of a variable stands before
the positive one.  Both orders are lawful, so that variables and literals serve as keys of ordered
maps and sets.
-/

namespace SatSearch

structure Variable where
  id : Nat
deriving DecidableEq, Inhabited, Repr

namespace Variable

instance : Ord Variable := ⟨compareOn Variable.id⟩

instance : Std.TransOrd Variable :=
  inferInstanceAs (Std.TransCmp (compareOn Variable.id))

theorem compare_def (v w : Variable) : compare v w = compare v.id w.id := rfl

theorem eq_of_id {v w : Variable} (h : v.id = w.id) : v = w := by
  cases v
  cases w
  exact congrArg _ h

instance : Std.LawfulEqOrd Variable where
  eq_of_compare h := eq_of_id (Std.LawfulEqOrd.eq_of_compare h)

def text (v : Variable) : String :=
  s!"x{v.id}"

end Variable

structure Literal where
  var : Variable
  positive : Bool
deriving DecidableEq, Inhabited, Repr

def Variable.positive (v : Variable) : Literal := ⟨v, true⟩

def Variable.negative (v : Variable) : Literal := ⟨v, false⟩

namespace Literal

instance : Neg Literal := ⟨fun l => ⟨l.var, !l.positive⟩⟩

@[simp] theorem var_neg (l : Literal) : (-l).var = l.var := rfl

@[simp] theorem positive_neg (l : Literal) : (-l).positive = !l.positive := rfl

@[simp] theorem neg_neg (l : Literal) : - -l = l := by
  cases l; simp [Neg.neg]

theorem neg_ne (l : Literal) : -l ≠ l := by
  intro h
  have hpositive := congrArg Literal.positive h
  simp at hpositive

instance : Ord Literal :=
  ⟨compareLex (compareOn Literal.var) (compareOn Literal.positive)⟩

instance : Std.TransOrd Literal :=
  inferInstanceAs
    (Std.TransCmp (compareLex (compareOn Literal.var) (compareOn Literal.positive)))

theorem compare_def (l m : Literal) :
    compare l m = (compare l.var m.var).then (compare l.positive m.positive) := rfl

instance : Std.LawfulEqOrd Literal where
  eq_of_compare {l m} h := by
    rw [compare_def, Ordering.then_eq_eq] at h
    have hvar : l.var = m.var := Std.LawfulEqOrd.eq_of_compare h.1
    have hpositive : l.positive = m.positive := Std.LawfulEqOrd.eq_of_compare h.2
    cases l; cases m; simp_all

def text (l : Literal) : String :=
  (if l.positive then "" else "¬") ++ l.var.text

end Literal

end SatSearch
