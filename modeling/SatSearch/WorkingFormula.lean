import SatSearch.Fault
import SatSearch.OccurrenceIndex

/-!
# Working formulas

A working formula is what an assignment leaves of a list of clauses.  A clause with a true literal
is marked satisfied and leaves the index; a false literal is cut out of the clauses that contain
it.  Both kinds of change are recorded, so that reverting the changes newest first restores the
working formula exactly, literal order included.

Clauses are numbered by their position.  Their numbers are also kept in four sets, one for each
status, so that the questions a search asks most often need no pass over the clauses.
-/

namespace SatSearch

inductive ClauseStatus where
  | satisfied
  | falsified
  | unit
  | unresolved
deriving DecidableEq, Inhabited, Repr

/-- The literals of a clause that are left, and whether another literal of it is true. -/
structure WorkingClause where
  literals : List Literal
  satisfied : Bool := false
deriving DecidableEq, Inhabited, Repr

namespace WorkingClause

/-- The clause of the given literals before any assignment.  Of equal literals the first stays. -/
def ofLiterals (ls : List Literal) : WorkingClause := ⟨ls.eraseDups, false⟩

def status (c : WorkingClause) : ClauseStatus :=
  if c.satisfied then
    .satisfied
  else
    match c.literals with
    | [] => .falsified
    | [_] => .unit
    | _ => .unresolved

end WorkingClause

/-- The numbers of the clauses of each status. -/
structure StatusSets where
  satisfied : ClauseSet := ∅
  falsified : ClauseSet := ∅
  unit : ClauseSet := ∅
  unresolved : ClauseSet := ∅
deriving DecidableEq, Inhabited

namespace StatusSets

def get (s : StatusSets) : ClauseStatus → ClauseSet
  | .satisfied => s.satisfied
  | .falsified => s.falsified
  | .unit => s.unit
  | .unresolved => s.unresolved

def put (s : StatusSets) (status : ClauseStatus) (set : ClauseSet) : StatusSets :=
  match status with
  | .satisfied => { s with satisfied := set }
  | .falsified => { s with falsified := set }
  | .unit => { s with unit := set }
  | .unresolved => { s with unresolved := set }

def insert (s : StatusSets) (status : ClauseStatus) (n : Nat) : StatusSets :=
  s.put status ((s.get status).insert n)

def erase (s : StatusSets) (status : ClauseStatus) (n : Nat) : StatusSets :=
  s.put status ((s.get status).erase n)

/-- Moves clause `n` from the set of its old status to that of its new one. -/
def move (s : StatusSets) (old new : ClauseStatus) (n : Nat) : Except Fault StatusSets :=
  if old = new then
    .ok s
  else if !(s.get old).contains n then
    .error (.statusMissing n)
  else if (s.get new).contains n then
    .error (.statusPresent n)
  else
    .ok ((s.erase old n).insert new n)

/-- The sets of a list of clauses numbered by position. -/
def ofClauses (cs : List WorkingClause) : StatusSets :=
  cs.zipIdx.foldl (fun s (c, n) => s.insert c.status n) {}

end StatusSets

/-- What an assignment does to one clause. -/
inductive Change where
  /-- The clause became true and left the index. -/
  | satisfied (number : Nat)
  /-- A false literal was cut out of the clause at this position. -/
  | shrunk (number : Nat) (literal : Literal) (position : Nat)
deriving DecidableEq, Inhabited, Repr

structure WorkingFormula where
  clauses : Array WorkingClause
  /-- The occurrences of the literals left in the clauses that are not satisfied. -/
  index : OccurrenceIndex
  statuses : StatusSets
deriving DecidableEq, Inhabited

namespace WorkingFormula

/-- The working clauses, numbered by position, as the entries of an index. -/
def entries (cs : List WorkingClause) : List IndexEntry :=
  cs.zipIdx.map fun (c, n) => ⟨n, c.literals⟩

def clause (w : WorkingFormula) (n : Nat) : Except Fault WorkingClause :=
  match w.clauses[n]? with
  | some c => .ok c
  | none => .error (.unknownClause n)

def isSatisfied (w : WorkingFormula) : Bool :=
  w.statuses.satisfied.size == w.clauses.size

def hasFalsified (w : WorkingFormula) : Bool :=
  !w.statuses.falsified.isEmpty

/-- Replaces clause `n`, whose status was `old`, and the index with it. -/
def replace (w : WorkingFormula) (n : Nat) (old : ClauseStatus) (c : WorkingClause)
    (index : OccurrenceIndex) : Except Fault WorkingFormula := do
  let statuses ← w.statuses.move old c.status n
  return { clauses := w.clauses.setIfInBounds n c, index, statuses }

def apply (w : WorkingFormula) : Change → Except Fault WorkingFormula
  | .satisfied n => do
    let c ← w.clause n
    w.replace n c.status { c with satisfied := true } (w.index.eraseAll c.literals n)
  | .shrunk n l position => do
    let c ← w.clause n
    if c.literals[position]? = some l then
      w.replace n c.status { c with literals := c.literals.eraseIdx position }
        (w.index.erase l n)
    else
      throw (.literalMissing n)

def revert (w : WorkingFormula) : Change → Except Fault WorkingFormula
  | .satisfied n => do
    let c ← w.clause n
    w.replace n .satisfied { c with satisfied := false } (w.index.insertAll c.literals n)
  | .shrunk n l position => do
    let c ← w.clause n
    if position ≤ c.literals.length then
      w.replace n c.status { c with literals := c.literals.insertIdx position l }
        (w.index.insert l n)
    else
      throw (.positionMissing n)

def applyAll (w : WorkingFormula) (changes : List Change) : Except Fault WorkingFormula :=
  changes.foldlM apply w

def revertAll (w : WorkingFormula) (changes : List Change) : Except Fault WorkingFormula :=
  changes.foldlM revert w

/-- The changes that a true literal calls for: every clause with it is satisfied. -/
def changesOfTrue (w : WorkingFormula) (l : Literal) : List Change :=
  (w.index.clauses l).map .satisfied

/-- The changes that a false literal calls for: it is cut out of every clause with it. -/
def changesOfFalse (w : WorkingFormula) (l : Literal) : List Change :=
  (w.index.clauses l).map fun n =>
    .shrunk n l ((w.clauses[n]?.map fun c => c.literals.idxOf l).getD 0)

/-- Makes `l` true: satisfies the clauses with `l`, then cuts `-l` out of the others.  Returns the
changes in the order in which they were made. -/
def assign (w : WorkingFormula) (l : Literal) :
    Except Fault (List Change × WorkingFormula) := do
  let satisfied := w.changesOfTrue l
  let w ← w.applyAll satisfied
  let shrunk := w.changesOfFalse (-l)
  let w ← w.applyAll shrunk
  return (satisfied ++ shrunk, w)

def soleLiteral (w : WorkingFormula) (n : Nat) : Except Fault Literal := do
  let c ← w.clause n
  match c.literals with
  | l :: _ => return l
  | [] => throw (.emptyUnit n)

/-- The literals of the unit clauses in clause order, with repetitions. -/
def soleLiterals (w : WorkingFormula) : Except Fault (List Literal) :=
  w.statuses.unit.toList.mapM w.soleLiteral

end WorkingFormula

end SatSearch
