import SatSearch.Formula

/-!
# Occurrence index

The index tells for each literal which clauses contain it; clauses are named by their numbers.  A
literal without occurrences is not stored, so two indices of the same occurrences are equal however
they came about, and the stored literals are the ones that occur.

An index is built clause by clause, or in consecutive chunks, one for each worker, whose indices
are then merged; both ways give the same index.
-/

namespace SatSearch

abbrev ClauseSet := Std.ExtTreeSet Nat

/-- A clause number and the literals of that clause. -/
structure IndexEntry where
  number : Nat
  literals : List Literal
deriving DecidableEq, Inhabited, Repr

structure OccurrenceIndex where
  sets : Std.ExtTreeMap Literal ClauseSet := ∅
  nonempty : ∀ (l : Literal) (set : ClauseSet), sets[l]? = some set → set ≠ ∅ := by simp
deriving DecidableEq

namespace OccurrenceIndex

def empty : OccurrenceIndex := {}

instance : Inhabited OccurrenceIndex := ⟨empty⟩

/-- The numbers of the clauses that contain `l`. -/
def clauseSet (index : OccurrenceIndex) (l : Literal) : ClauseSet :=
  index.sets.getD l ∅

/-- The numbers of the clauses that contain `l`, ascending. -/
def clauses (index : OccurrenceIndex) (l : Literal) : List Nat :=
  (index.clauseSet l).toList

def count (index : OccurrenceIndex) (l : Literal) : Nat :=
  (index.clauseSet l).size

def occurs (index : OccurrenceIndex) (l : Literal) : Bool :=
  index.sets.contains l

def isEmpty (index : OccurrenceIndex) : Bool :=
  index.sets.isEmpty

/-- Whether clause `n` is recorded to contain `l`. -/
def records (index : OccurrenceIndex) (l : Literal) (n : Nat) : Bool :=
  (index.clauseSet l).contains n

/-- The literals that occur, by variable and the negative one first. -/
def literals (index : OccurrenceIndex) : List Literal :=
  index.sets.keys

/-- The first of the literals that occur. -/
def firstLiteral? (index : OccurrenceIndex) : Option Literal :=
  index.sets.minKey?

/-- The number of literals that occur. -/
def size (index : OccurrenceIndex) : Nat :=
  index.sets.size

/-- The literals that occur while their negation does not, in the order of `literals`. -/
def pureLiterals (index : OccurrenceIndex) : List Literal :=
  index.literals.filter fun l => !index.occurs (-l)

theorem nonempty_insert (index : OccurrenceIndex) (l : Literal) {set : ClauseSet}
    (hset : set ≠ ∅) (m : Literal) (other : ClauseSet)
    (h : (index.sets.insert l set)[m]? = some other) : other ≠ ∅ := by
  rw [Std.ExtTreeMap.getElem?_insert] at h
  split at h
  next =>
    rw [← Option.some.inj h]
    exact hset
  next => exact index.nonempty m other h

theorem nonempty_erase (index : OccurrenceIndex) (l m : Literal) (set : ClauseSet)
    (h : (index.sets.erase l)[m]? = some set) : set ≠ ∅ := by
  rw [Std.ExtTreeMap.getElem?_erase] at h
  split at h
  next => contradiction
  next => exact index.nonempty m set h

theorem nonempty_of_mem_toList (index : OccurrenceIndex) :
    ∀ entry ∈ index.sets.toList, entry.2 ≠ ∅ := by
  rintro ⟨l, set⟩ hmem
  exact index.nonempty l set (Std.ExtTreeMap.mem_toList_iff_getElem?_eq_some.mp hmem)

theorem union_ne_empty (old : ClauseSet) {set : ClauseSet} (hset : set ≠ ∅) :
    old ∪ set ≠ ∅ := by
  intro hunion
  rw [← Std.ExtTreeSet.isEmpty_iff, Std.ExtTreeSet.isEmpty_union, Bool.and_eq_true] at hunion
  exact hset (Std.ExtTreeSet.isEmpty_iff.mp hunion.2)

/-- Records that clause `n` contains `l`. -/
def insert (index : OccurrenceIndex) (l : Literal) (n : Nat) : OccurrenceIndex :=
  ⟨index.sets.insert l ((index.clauseSet l).insert n),
    index.nonempty_insert l Std.ExtTreeSet.insert_ne_empty⟩

/-- Forgets that clause `n` contains `l`, and the literal with its last occurrence. -/
def erase (index : OccurrenceIndex) (l : Literal) (n : Nat) : OccurrenceIndex :=
  let rest := (index.clauseSet l).erase n
  if h : rest.isEmpty then ⟨index.sets.erase l, index.nonempty_erase l⟩
  else ⟨index.sets.insert l rest, index.nonempty_insert l (mt Std.ExtTreeSet.isEmpty_iff.mpr h)⟩

/-- Records that clause `n` contains `l`, and tells whether that is new. -/
def add (index : OccurrenceIndex) (l : Literal) (n : Nat) : Bool × OccurrenceIndex :=
  (!index.records l n, index.insert l n)

/-- Forgets that clause `n` contains `l`, and tells whether that was recorded. -/
def remove (index : OccurrenceIndex) (l : Literal) (n : Nat) : Bool × OccurrenceIndex :=
  (index.records l n, index.erase l n)

def insertAll (index : OccurrenceIndex) (ls : List Literal) (n : Nat) : OccurrenceIndex :=
  ls.foldl (fun index l => index.insert l n) index

def eraseAll (index : OccurrenceIndex) (ls : List Literal) (n : Nat) : OccurrenceIndex :=
  ls.foldl (fun index l => index.erase l n) index

/-- Records that the clauses of a set contain `l`. -/
def join (index : OccurrenceIndex) (l : Literal) (set : ClauseSet) (hset : set ≠ ∅) :
    OccurrenceIndex :=
  ⟨index.sets.insert l (index.clauseSet l ∪ set),
    index.nonempty_insert l (union_ne_empty (index.clauseSet l) hset)⟩

def joinAll (index : OccurrenceIndex) :
    (entries : List (Literal × ClauseSet)) → (∀ entry ∈ entries, entry.2 ≠ ∅) → OccurrenceIndex
  | [], _ => index
  | (l, set) :: entries, h =>
    (index.join l set (h (l, set) List.mem_cons_self)).joinAll entries
      fun entry hentry => h entry (List.mem_cons_of_mem (l, set) hentry)

/-- The union of two indices.  The clause sets of a literal that occurs in both are joined. -/
def merge (index other : OccurrenceIndex) : OccurrenceIndex :=
  index.joinAll other.sets.toList other.nonempty_of_mem_toList

def build (entries : List IndexEntry) : OccurrenceIndex :=
  entries.foldl (fun index e => index.insertAll e.literals e.number) empty

/-- The consecutive chunks of `size` elements, of which the last may be shorter.  A chunk has at
least one element. -/
def chunksOf {α : Type} (size : Nat) : List α → List (List α)
  | [] => []
  | x :: xs => (x :: xs.take (size - 1)) :: chunksOf size (xs.drop (size - 1))
termination_by xs => xs.length
decreasing_by
  simp only [List.length_drop, List.length_cons]
  omega

/-- How `workers` workers share the entries: one chunk for each of them, but no more chunks than
entries.  A single worker, or a single entry, leaves nothing to share. -/
def chunks (entries : List IndexEntry) (workers : Nat) : Option (List (List IndexEntry)) :=
  if workers ≤ 1 ∨ entries.length < 2 then
    none
  else
    let workers := min workers entries.length
    let size := (entries.length + workers - 1) / workers
    some (chunksOf size entries)

/-- The index built from the chunks of `workers` workers. -/
def buildInChunks (entries : List IndexEntry) (workers : Nat) : OccurrenceIndex :=
  match chunks entries workers with
  | none => build entries
  | some parts => (parts.map build).foldl merge empty

/-- The clauses of a formula, numbered by their position. -/
def entriesOf (f : Formula) : List IndexEntry :=
  f.clauses.toList.zipIdx.map fun (c, n) => ⟨n, c.literals⟩

def ofFormula (f : Formula) (workers : Nat) : OccurrenceIndex :=
  buildInChunks (entriesOf f) workers

end OccurrenceIndex

end SatSearch
