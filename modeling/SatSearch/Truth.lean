/-!
# Truth values of partial knowledge

A statement about a partial assignment is refuted, open or confirmed.  The three values form a
chain `no < unknown < yes` in which conjunction is the minimum, disjunction the maximum and
negation the reflection.
-/

namespace SatSearch

inductive Truth where
  | no
  | unknown
  | yes
deriving DecidableEq, Inhabited, Repr

namespace Truth

def rank : Truth → Nat
  | no => 0
  | unknown => 1
  | yes => 2

instance : Ord Truth := ⟨fun a b => compare a.rank b.rank⟩

instance : LE Truth := ⟨fun a b => a.rank ≤ b.rank⟩

instance (a b : Truth) : Decidable (a ≤ b) :=
  inferInstanceAs (Decidable (a.rank ≤ b.rank))

def and (a b : Truth) : Truth := if a ≤ b then a else b

def or (a b : Truth) : Truth := if a ≤ b then b else a

def not : Truth → Truth
  | no => yes
  | unknown => unknown
  | yes => no

def ofBool : Bool → Truth
  | false => no
  | true => yes

/-- A value that is not known is open. -/
def ofOption : Option Bool → Truth
  | none => unknown
  | some b => ofBool b

@[simp] theorem not_not (a : Truth) : a.not.not = a := by
  cases a <;> rfl

theorem not_and (a b : Truth) : (a.and b).not = a.not.or b.not := by
  cases a <;> cases b <;> rfl

theorem not_or (a b : Truth) : (a.or b).not = a.not.and b.not := by
  cases a <;> cases b <;> rfl

theorem and_eq_yes {a b : Truth} : a.and b = yes ↔ a = yes ∧ b = yes := by
  cases a <;> cases b <;> decide

theorem and_eq_no {a b : Truth} : a.and b = no ↔ a = no ∨ b = no := by
  cases a <;> cases b <;> decide

theorem or_eq_yes {a b : Truth} : a.or b = yes ↔ a = yes ∨ b = yes := by
  cases a <;> cases b <;> decide

theorem or_eq_no {a b : Truth} : a.or b = no ↔ a = no ∧ b = no := by
  cases a <;> cases b <;> decide

theorem ofBool_eq_yes {p : Bool} : ofBool p = yes ↔ p = true := by
  cases p <;> decide

theorem ofBool_eq_no {p : Bool} : ofBool p = no ↔ p = false := by
  cases p <;> decide

end Truth

end SatSearch
