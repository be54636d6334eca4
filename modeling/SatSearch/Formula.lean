import SatSearch.Clause

/-!
# Formulas in conjunctive normal form

A formula is a conjunction of clauses over a scope of variables, listed in the order in which
they were declared or first mentioned.  An open formula adopts the variables of every clause added
to it; a closed one refuses a clause that mentions a variable outside its scope, and a refused
clause leaves it as it was.
-/

namespace SatSearch

/-- A list of variables in the order of their declaration, with a set to look them up in. -/
structure Scope where
  «variables» : Array Variable := #[]
  known : Std.ExtTreeSet Variable := ∅
  nodup : «variables».toList.Nodup := by simp
  known_iff : ∀ v, v ∈ known ↔ v ∈ «variables» := by simp

namespace Scope

instance : Inhabited Scope := ⟨{}⟩

def contains (s : Scope) (v : Variable) : Bool := s.known.contains v

theorem contains_iff {s : Scope} {v : Variable} : s.contains v = true ↔ v ∈ s.variables := by
  rw [← s.known_iff v]
  exact Iff.rfl

def size (s : Scope) : Nat := s.variables.size

theorem nodup_push {s : Scope} {v : Variable} (h : ¬s.contains v = true) :
    (s.variables.push v).toList.Nodup := by
  have hnew : ∀ w ∈ s.variables.toList, w ≠ v := by
    rintro w hw rfl
    exact h (contains_iff.mpr (Array.mem_toList_iff.mp hw))
  rw [Array.toList_push, List.nodup_append]
  refine ⟨s.nodup, by simp, ?_⟩
  intro w hw x hx
  rw [List.mem_singleton.mp hx]
  exact hnew w hw

theorem mem_known_insert {s : Scope} {v : Variable} (w : Variable) :
    w ∈ s.known.insert v ↔ w ∈ s.variables.push v := by
  rw [Std.ExtTreeSet.mem_insert, Array.mem_push, ← s.known_iff w,
    Std.LawfulEqOrd.compare_eq_iff_eq, or_comm]
  exact or_congr_right eq_comm

/-- Lists a variable and tells whether it is new.  One that is known already is not listed again. -/
def declare (s : Scope) (v : Variable) : Bool × Scope :=
  if h : s.contains v = true then (false, s)
  else (true, ⟨s.variables.push v, s.known.insert v, nodup_push h, mem_known_insert⟩)

def declareAll (s : Scope) (vs : List Variable) : Scope :=
  vs.foldl (fun s v => (s.declare v).2) s

theorem contains_declare {s : Scope} {v w : Variable} :
    (s.declare v).2.contains w = true ↔ s.contains w = true ∨ w = v := by
  unfold declare
  split
  next hv =>
    refine ⟨Or.inl, ?_⟩
    rintro (hw | rfl)
    · exact hw
    · exact hv
  next => simp [contains_iff]

theorem contains_declareAll {s : Scope} {vs : List Variable} {w : Variable} :
    (s.declareAll vs).contains w = true ↔ s.contains w = true ∨ w ∈ vs := by
  induction vs generalizing s with
  | nil => simp [declareAll]
  | cons v vs ih =>
      have htail := ih (s := (s.declare v).2)
      unfold declareAll at htail ⊢
      rw [List.foldl_cons, htail, contains_declare, List.mem_cons, or_assoc]

/-- The scope contains every variable of the clause. -/
def Covers (s : Scope) (c : Clause) : Prop :=
  ∀ l ∈ c.literals, s.contains l.var = true

theorem covers_push {s t : Scope} {cs : Array Clause} {c : Clause}
    (hcs : ∀ d ∈ cs, s.Covers d) (hst : ∀ v, s.contains v = true → t.contains v = true)
    (hc : t.Covers c) : ∀ d ∈ cs.push c, t.Covers d := by
  intro d hd l hl
  rcases Array.mem_push.mp hd with hold | rfl
  · exact hst l.var (hcs d hold l hl)
  · exact hc l hl

theorem covers_declareAll (s : Scope) (c : Clause) :
    (s.declareAll (c.literals.map Literal.var)).Covers c := by
  intro l hl
  exact contains_declareAll.mpr (Or.inr (List.mem_map_of_mem hl))

end Scope

/-- The clauses mention only variables of the scope. -/
structure Formula where
  scope : Scope := {}
  closed : Bool := false
  clauses : Array Clause := #[]
  covered : ∀ c ∈ clauses, scope.Covers c := by simp

instance : Inhabited Formula := ⟨{}⟩

/-- Why a formula refuses a clause. -/
inductive FormulaError where
  /-- The first literal of the clause whose variable the closed formula does not know. -/
  | unknownVariable (literal : Literal)
deriving DecidableEq, Repr

def FormulaError.message : FormulaError → String
  | unknownVariable l => s!"Literal {l.text} refers to a variable outside of the formula"

namespace Formula

def empty : Formula := {}

/-- The closed formula without clauses over the given variables. -/
def withVariables (vs : List Variable) : Formula :=
  { scope := Scope.declareAll {} vs, closed := true }

def contains (f : Formula) (v : Variable) : Bool := f.scope.contains v

/-- Adds a variable to the scope without constraining it, and tells whether it is new. -/
def declare (f : Formula) (v : Variable) : Bool × Formula :=
  ((f.scope.declare v).1,
    { f with
      scope := (f.scope.declare v).2
      covered := fun c hc l hl => Scope.contains_declare.mpr (Or.inl (f.covered c hc l hl)) })

/-- Adds a clause and the variables it mentions, whether or not the formula is closed. -/
def adopt (f : Formula) (c : Clause) : Formula :=
  { f with
    scope := f.scope.declareAll (c.literals.map Literal.var)
    clauses := f.clauses.push c
    covered :=
      Scope.covers_push f.covered (fun _ hv => Scope.contains_declareAll.mpr (Or.inl hv))
        (f.scope.covers_declareAll c) }

theorem covers_of_find?_eq_none {f : Formula} {c : Clause}
    (h : (c.literals.find? fun l => !f.contains l.var) = none) : f.scope.Covers c := by
  intro l hl
  simpa [contains] using List.find?_eq_none.mp h l hl

/-- Adds a clause.  A closed formula refuses a clause with a literal that it does not know, and
names the first such literal. -/
def addClause (f : Formula) (c : Clause) : Formula × Option FormulaError :=
  if f.closed then
    match h : c.literals.find? fun l => !f.contains l.var with
    | some l => (f, some (.unknownVariable l))
    | none =>
      ({ f with
          clauses := f.clauses.push c
          covered := Scope.covers_push f.covered (fun _ hv => hv) (covers_of_find?_eq_none h) },
        none)
  else
    (f.adopt c, none)

/-- Adds clauses up to the first refused one, and returns the reason of the refusal if there was
one. -/
def extend (f : Formula) : List Clause → Formula × Option FormulaError
  | [] => (f, none)
  | c :: cs =>
    match f.addClause c with
    | (g, some e) => (g, some e)
    | (g, none) => g.extend cs

def ofClauses (cs : List Clause) : Formula :=
  cs.foldl adopt empty

/-- The size of the scope, then the clauses separated by `∧`, in parentheses. -/
def text (f : Formula) : String :=
  s!"CNF with {f.scope.size} variables (" ++
    " ∧ ".intercalate (f.clauses.toList.map Clause.text) ++ ")"

end Formula

end SatSearch
