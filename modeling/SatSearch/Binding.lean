import SatSearch.Literal

/-!
# Bindings

A binding gives some variables a truth value and leaves the others open.  Two bindings are equal
when they bind the same variables to the same values, however they came about, and listings follow
the order of the variables.
-/

namespace SatSearch

structure Binding where
  values : Std.ExtTreeMap Variable Bool := ∅
deriving DecidableEq, Inhabited

namespace Binding

def empty : Binding := {}

def get? (b : Binding) (v : Variable) : Option Bool := b.values[v]?

def binds (b : Binding) (v : Variable) : Bool := b.values.contains v

/-- The value of a literal: that of its variable, negated if the literal is negative. -/
def value? (b : Binding) (l : Literal) : Option Bool :=
  (b.get? l.var).map (· == l.positive)

/-- Binds the variable of `l` so that `l` has the value `value`. -/
def set (b : Binding) (l : Literal) (value : Bool) : Binding :=
  ⟨b.values.insert l.var (value == l.positive)⟩

def assign (b : Binding) (l : Literal) : Binding := b.set l true

def unset (b : Binding) (v : Variable) : Binding := ⟨b.values.erase v⟩

def size (b : Binding) : Nat := b.values.size

def isEmpty (b : Binding) : Bool := b.values.isEmpty

/-- The bound variables with their values, in the order of the variables. -/
def toList (b : Binding) : List (Variable × Bool) := b.values.toList

/-- The literals that the binding makes true, in the order of their variables. -/
def literals (b : Binding) : List Literal :=
  b.toList.map fun (v, value) => ⟨v, value⟩

/-- Of two values for one variable the later one counts. -/
def ofList (pairs : List (Variable × Bool)) : Binding :=
  pairs.foldl (fun b (v, value) => b.set v.positive value) empty

/-- Makes the given literals true in turn, so a later literal over a variable wins. -/
def ofLiterals (ls : List Literal) : Binding :=
  ls.foldl assign empty

/-- Makes those of the given variables false that are still open. -/
def complete (b : Binding) (vs : List Variable) : Binding :=
  vs.foldl (fun b v => if b.binds v then b else b.assign v.negative) b

theorem get?_set (b : Binding) (l : Literal) (value : Bool) (v : Variable) :
    (b.set l value).get? v = if l.var = v then some (value == l.positive) else b.get? v := by
  simp [get?, set, Std.ExtTreeMap.getElem?_insert]

theorem get?_unset (b : Binding) (v w : Variable) :
    (b.unset v).get? w = if v = w then none else b.get? w := by
  simp [get?, unset, Std.ExtTreeMap.getElem?_erase]

theorem binds_eq_isSome (b : Binding) (v : Variable) : b.binds v = (b.get? v).isSome := by
  simp [binds, get?]

@[ext] theorem ext {b c : Binding} (h : ∀ v, b.get? v = c.get? v) : b = c := by
  have hvalues : b.values = c.values := Std.ExtTreeMap.ext_getElem? h
  cases b; cases c; simp_all

theorem mem_toList {b : Binding} {v : Variable} {value : Bool} :
    (v, value) ∈ b.toList ↔ b.get? v = some value := by
  simp [toList, get?]

theorem mem_literals {b : Binding} {l : Literal} : l ∈ b.literals ↔ b.value? l = some true := by
  constructor
  · intro h
    obtain ⟨⟨v, value⟩, hmem, rfl⟩ := List.mem_map.1 h
    simp [value?, mem_toList.1 hmem]
  · intro h
    refine List.mem_map.2 ⟨(l.var, l.positive), mem_toList.2 ?_, rfl⟩
    simp only [value?, Option.map_eq_some_iff, beq_iff_eq] at h
    obtain ⟨_, hget, rfl⟩ := h
    exact hget

/-- The number of bound variables, then each of them with its value on a line of its own. -/
def text (b : Binding) : String :=
  s!"Binding of {b.size} variables:" ++
    String.join (b.toList.map fun (v, value) => s!"\n  {v.text} = {value}")

end Binding

end SatSearch
