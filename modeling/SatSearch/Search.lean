import SatSearch.Branch
import SatSearch.Log

/-!
# Search

The search looks for a binding that satisfies every clause by walking a binary tree depth first.
At each node it simplifies: the literals of unit clauses are made true, and pure literals as well if
the configuration asks for it, until nothing is left to do or a conflict shows.  Without a conflict
it ends if every clause is satisfied, and otherwise decides that the first remaining variable is
true.  On a conflict it takes back assignments down to the newest decision whose opposite is
untried, and decides the opposite; when there is no such decision, no binding exists.

`Search.step` is one pass of this loop, `Search.solve` the whole of it.
-/

namespace SatSearch

structure SearchConfig where
  /-- Assign literals whose negation no longer occurs. -/
  pureLiteralElimination : Bool := true
  /-- The number of workers that share the building of a large index. -/
  indexWorkers : Nat := 4
  /-- The number of clauses from which on an index counts as large. -/
  largeIndex : Nat := 4096
  /-- Bind the variables of the formula that a satisfying binding leaves open to false. -/
  completeModel : Bool := true
deriving DecidableEq, Inhabited, Repr

/-- When the host asks the search to stop.  The search looks at the request before each decision,
so the moments at which it can come are told apart by the number of decisions made until then. -/
inductive Cancellation where
  | never
  /-- The request comes once this many decisions have been made. -/
  | after (decisions : Nat)
deriving DecidableEq, Inhabited, Repr

/-- Whether the request has come when `decisions` decisions have been made. -/
def Cancellation.requested : Cancellation → Nat → Bool
  | never, _ => false
  | after k, decisions => k ≤ decisions

inductive Verdict where
  | satisfied (model : Binding)
  | unsatisfiable
  | cancelled (decisions : Nat)
deriving DecidableEq, Inhabited

structure Search where
  config : SearchConfig
  cancellation : Cancellation
  scope : Scope
  branch : Branch
  stats : SearchStats := {}
  log : Array LogRecord := #[]
deriving Inhabited

namespace Search

def record (s : Search) (r : LogRecord) : Search :=
  { s with log := s.log.push r }

def cancel (s : Search) : Search :=
  { s with cancellation := .after 0 }

/-- The first variable in the starting binding that a closed formula does not contain. -/
def foreignVariable? (f : Formula) (starting : Binding) : Option Variable :=
  if f.closed then
    (starting.toList.map Prod.fst).find? fun v => !f.contains v
  else
    none

/-- The clauses of a formula together with a unit clause for each literal of a starting binding. -/
def startingClauses (f : Formula) (starting : Binding) : List Clause :=
  f.clauses.toList ++ starting.literals.map Clause.unit

/-- The index of a list of entries: built by several workers if it is large. -/
def startingIndex (config : SearchConfig) (entries : List IndexEntry) : OccurrenceIndex :=
  if config.largeIndex ≤ entries.length then
    .buildInChunks entries config.indexWorkers
  else
    .build entries

/-- The record of the merging that building a large index takes, if it takes any. -/
def mergeRecord? (entries : List IndexEntry) (workers : Nat) : Option LogRecord :=
  (OccurrenceIndex.chunks entries workers).map fun parts =>
    .merging parts.length entries.length

/-- What building the index of a list of entries leaves in the log. -/
def startingLog (config : SearchConfig) (entries : List IndexEntry) : Array LogRecord :=
  if config.largeIndex ≤ entries.length then
    (mergeRecord? entries config.indexWorkers).toArray
  else
    #[]

/-- The working formula of clauses none of whose variables is assigned. -/
def startingFormula (config : SearchConfig) (clauses : List Clause) : WorkingFormula :=
  let working := clauses.map fun c => WorkingClause.ofLiterals c.literals
  { clauses := working.toArray
    index := startingIndex config (WorkingFormula.entries working)
    statuses := .ofClauses working }

def start (f : Formula) (starting : Binding) (config : SearchConfig)
    (cancellation : Cancellation) : Search :=
  let clauses := startingClauses f starting
  let working := clauses.map fun c => WorkingClause.ofLiterals c.literals
  { config
    cancellation
    scope := f.scope
    branch := { formula := startingFormula config clauses }
    log := startingLog config (WorkingFormula.entries working) }

/-- Makes the given literals true without deciding them. -/
def infer (s : Search) (ls : List Literal) : Except Fault Search := do
  let branch ← s.branch.assignAll ls .inference
  return { s with
    branch
    stats := { s.stats with propagations := s.stats.propagations + ls.length } }

/-- Infers the literals of a batch and records it, unless the batch is empty. -/
def inferBatch (s : Search) (r : Nat → LogRecord) (ls : List Literal) : Except Fault Search :=
  if ls.isEmpty then return s else (s.record (r ls.length)).infer ls

inductive RoundResult where
  | conflict
  /-- Some literal was assigned. -/
  | progress
  /-- There was nothing to assign. -/
  | rest
deriving DecidableEq, Inhabited, Repr

/-- One round of simplification: first the unit literals, then the pure ones. -/
def round (s : Search) : Except Fault (RoundResult × Search) := do
  if s.branch.hasFalsified then
    return (.conflict, s)
  match ← s.branch.unitLiterals with
  | none => return (.conflict, s)
  | some units =>
    let s ← s.inferBatch .propagating units
    if s.branch.hasFalsified then
      return (.conflict, s)
    let pures := if s.config.pureLiteralElimination then s.branch.pureLiterals else []
    let s ← s.inferBatch .eliminating pures
    return (if units.isEmpty && pures.isEmpty then .rest else .progress, s)

/-- What simplification comes to. -/
inductive Simplified where
  /-- The assignments made so far leave no satisfying one. -/
  | conflict
  /-- Nothing is left to assign; `changed` says whether there was. -/
  | rest (changed : Bool)
deriving DecidableEq, Inhabited, Repr

/-- Simplifies in at most the given number of rounds; `changed` says whether earlier rounds
assigned anything. -/
def simplifyWithin (s : Search) (changed : Bool) : Nat → Except Fault (Simplified × Search)
  | 0 => throw .roundLimit
  | rounds + 1 => do
    match ← s.round with
    | (.conflict, s) => return (.conflict, s)
    | (.rest, s) => return (.rest changed, s)
    | (.progress, s) => s.simplifyWithin true rounds

/-- Simplifies until a conflict shows or nothing is left to assign.  Every round but the last
takes a literal out of the index, which bounds their number. -/
def simplify (s : Search) : Except Fault (Simplified × Search) :=
  s.simplifyWithin false (s.branch.formula.index.size + 1)

/-- A search after one step: it goes on, or it has ended with a verdict. -/
inductive Step where
  | continues (search : Search)
  | ends (verdict : Verdict) (search : Search)
deriving Inhabited

/-- Makes `l` true as a decision, unless the search is to stop. -/
def decide (s : Search) (l : Literal) (flipped : Bool) : Except Fault Step := do
  if s.cancellation.requested s.stats.decisions then
    return .ends (.cancelled s.stats.decisions) (s.record (.cancelled s.stats))
  else
    let branch ← s.branch.assign l (.decision flipped)
    let stats := { s.stats with decisions := s.stats.decisions + 1 }
    return .continues
      { s.record (.decision l (s.branch.level + 1) flipped) with branch, stats }

/-- Goes on from a conflict with the opposite of the newest decision that is not flipped. -/
def backtrack (s : Search) : Except Fault Step := do
  match ← s.branch.unwind with
  | (none, branch) =>
    return .ends .unsatisfiable ({ s with branch }.record (.unsatisfiable s.stats))
  | (some l, branch) =>
    ({ s with branch }.record (.backtracking l)).decide (-l) true

/-- The binding of a satisfied branch, completed if the configuration asks for it. -/
def model (s : Search) : Binding :=
  if s.config.completeModel then s.branch.binding.complete s.scope.variables.toList
  else s.branch.binding

def countConflict (s : Search) : Search :=
  { s with stats := { s.stats with conflicts := s.stats.conflicts + 1 } }

/-- One pass of the search: simplify, then end, decide or backtrack. -/
def step (s : Search) : Except Fault Step := do
  match ← s.simplify with
  | (.conflict, s) => s.countConflict.backtrack
  | (.rest _, s) =>
    if s.branch.isSatisfied then
      return .ends (.satisfied s.model) (s.record (.satisfiable s.stats))
    else
      match s.branch.nextVariable? with
      | some v => s.decide v.positive false
      | none => throw .nothingToBranchOn

/-- Takes at most the given number of steps to a verdict.  Before each step `poll` tells whether
cancellation has been requested from outside in the meantime. -/
@[specialize]
def runPolling {m : Type → Type} [Monad m] (poll : m Bool) (s : Search) :
    Nat → m (Except Fault (Verdict × Search))
  | 0 => return .error .stepLimit
  | steps + 1 => do
    let s := if ← poll then s.cancel else s
    match s.step with
    | .error fault => return .error fault
    | .ok (.ends verdict s) => return .ok (verdict, s)
    | .ok (.continues s) => s.runPolling poll steps

/-- Takes at most the given number of steps to a verdict, with nobody outside to cancel. -/
def runWithin (s : Search) (steps : Nat) : Except Fault (Verdict × Search) :=
  Id.run (s.runPolling (return false) steps)

theorem runWithin_succ (s : Search) (steps : Nat) :
    s.runWithin (steps + 1) =
      (s.step >>= fun
        | .ends verdict final => .ok (verdict, final)
        | .continues next => next.runWithin steps) := by
  rw [runWithin, runPolling]
  simp only [pure_bind, Bool.false_eq_true, if_false]
  cases s.step with
  | error fault => rfl
  | ok next => cases next <;> rfl

/-- A run that nobody cancels from outside is the run of the search on its own. -/
theorem runPolling_of_unrequested {m : Type → Type} [Monad m] [LawfulMonad m] (s : Search)
    (steps : Nat) : s.runPolling (return false : m Bool) steps = return s.runWithin steps := by
  induction steps generalizing s with
  | zero => rfl
  | succ steps ih =>
      rw [runPolling, runWithin_succ]
      simp only [pure_bind, Bool.false_eq_true, if_false]
      cases s.step with
      | error fault => rfl
      | ok next =>
          cases next with
          | ends verdict final => rfl
          | continues next => exact ih next

/-- Records that the search begins. -/
def announce (s : Search) : Search :=
  s.record (.solving s.branch.formula.clauses.size s.scope.size)

/-- The number of nodes of a full binary tree whose depth is the number of indexed literals, which
is at least the number of variables left to branch on. -/
def treeSize (s : Search) : Nat :=
  Nat.pow 2 (s.branch.formula.index.size + 1)

def solve (s : Search) : Except Fault (Verdict × Search) :=
  s.announce.runWithin s.treeSize

end Search

end SatSearch
