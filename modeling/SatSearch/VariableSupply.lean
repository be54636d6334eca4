import SatSearch.Literal

/-!
# Fresh variables

A supply hands out variables in order of their numbers, each of them once.  Everything that creates
variables takes the supply it draws from, so two formulas built from one supply share a variable
only if they were given it.
-/

namespace SatSearch

/-- The variables not handed out yet are those numbered `next` and above. -/
structure VariableSupply where
  next : Nat := 1
deriving DecidableEq, Inhabited, Repr

namespace VariableSupply

def fresh (s : VariableSupply) (n : Nat) : List Variable :=
  (List.range n).map fun i => ⟨s.next + i⟩

def advance (s : VariableSupply) (n : Nat) : VariableSupply :=
  ⟨s.next + n⟩

/-- A variable is old for a supply that can no longer hand it out. -/
def Used (s : VariableSupply) (v : Variable) : Prop :=
  v.id < s.next

@[simp] theorem length_fresh (s : VariableSupply) (n : Nat) : (s.fresh n).length = n := by
  simp [fresh]

theorem mem_fresh {s : VariableSupply} {n : Nat} {v : Variable} :
    v ∈ s.fresh n ↔ s.next ≤ v.id ∧ v.id < s.next + n := by
  constructor
  · intro h
    obtain ⟨i, hi, rfl⟩ := List.mem_map.1 h
    have hlt : i < n := List.mem_range.1 hi
    exact ⟨Nat.le_add_right _ _, Nat.add_lt_add_left hlt _⟩
  · rintro ⟨hle, hlt⟩
    refine List.mem_map.2 ⟨v.id - s.next, List.mem_range.2 (by omega), ?_⟩
    cases v
    simp only [Variable.mk.injEq]
    simp only at hle
    omega

end VariableSupply

end SatSearch
