import SatSearch.Literal

/-!
# Clauses

A clause is a disjunction of literals.  It is kept as a list, in the order in which its literals
were written; the order carries no meaning and a literal may be repeated.  The empty clause is
always false.
-/

namespace SatSearch

structure Clause where
  literals : List Literal
deriving DecidableEq, Inhabited, Repr

namespace Clause

def empty : Clause := ⟨[]⟩

def unit (l : Literal) : Clause := ⟨[l]⟩

def size (c : Clause) : Nat := c.literals.length

def isEmpty (c : Clause) : Bool := c.literals.isEmpty

def isUnit (c : Clause) : Bool := c.size == 1

def push (c : Clause) (l : Literal) : Clause := ⟨c.literals ++ [l]⟩

def append (c d : Clause) : Clause := ⟨c.literals ++ d.literals⟩

instance : Append Clause := ⟨append⟩

@[simp] theorem literals_append (c d : Clause) :
    (c ++ d).literals = c.literals ++ d.literals := rfl

/-- The literals in order, separated by `∨`, in parentheses. -/
def text (c : Clause) : String :=
  "(" ++ " ∨ ".intercalate (c.literals.map Literal.text) ++ ")"

end Clause

end SatSearch
