import SatSearch.Proofs.OccurrenceIndex

/-!
# Histories of an index

An occurrence index is a set of pairs of a literal and a clause number, kept by literal.  A history
is a sequence of calls on registers, and it can be carried out on indices as well as on plain sets
of pairs.  Every call leaves the sets that the indices stand for, so after any history the indices
answer as the sets do, and two of them are equal if and only if their sets are.
-/

namespace SatSearch

/-- The order in which literals are listed: by variable, and the negative one first. -/
def Literal.Precedes (l m : Literal) : Prop :=
  l.var.id < m.var.id ∨ l.var = m.var ∧ l.positive = false ∧ m.positive = true

theorem Literal.compare_eq_lt_iff {l m : Literal} : compare l m = .lt ↔ l.Precedes m := by
  rw [Literal.compare_def, Ordering.then_eq_lt, Variable.compare_def, Nat.compare_eq_lt,
    Nat.compare_eq_eq, Literal.Precedes]
  refine or_congr_right (and_congr ⟨Variable.eq_of_id, congrArg Variable.id⟩ ?_)
  cases l.positive <;> cases m.positive <;> decide

abbrev Occurrences := Finset (Literal × Nat)

/-- The operations of an index, on values of another type. -/
structure IndexOperations (α : Type) where
  empty : α
  build : List IndexEntry → α
  buildInChunks : List IndexEntry → Nat → α
  ofFormula : Formula → Nat → α
  add : α → Literal → Nat → Bool × α
  remove : α → Literal → Nat → Bool × α
  merge : α → α → α

def OccurrenceIndex.operations : IndexOperations OccurrenceIndex where
  empty := empty
  build := build
  buildInChunks := buildInChunks
  ofFormula := ofFormula
  add := add
  remove := remove
  merge := merge

namespace Occurrences

def ofEntries (entries : List IndexEntry) : Occurrences :=
  (entries.flatMap fun e => e.literals.map fun l => (l, e.number)).toFinset

def operations : IndexOperations Occurrences where
  empty := ∅
  build := ofEntries
  buildInChunks entries _ := ofEntries entries
  ofFormula f _ := ofEntries (OccurrenceIndex.entriesOf f)
  add pairs l n := (decide ((l, n) ∉ pairs), insert (l, n) pairs)
  remove pairs l n := (decide ((l, n) ∈ pairs), pairs.erase (l, n))
  merge pairs others := pairs ∪ others

theorem mem_ofEntries {entries : List IndexEntry} {l : Literal} {n : Nat} :
    (l, n) ∈ ofEntries entries ↔ ∃ e ∈ entries, l ∈ e.literals ∧ e.number = n := by
  simp [ofEntries]

end Occurrences

/-! ## Calls -/

/-- A call on numbered registers. -/
inductive IndexCall where
  | empty
  | build (entries : List IndexEntry)
  | buildInChunks (entries : List IndexEntry) (workers : Nat)
  | ofFormula (f : Formula) (workers : Nat)
  | clone (i : Nat)
  | add (i : Nat) (l : Literal) (n : Nat)
  | remove (i : Nat) (l : Literal) (n : Nat)
  | merge (i j : Nat)

namespace IndexCall

variable {α β : Type}

def change (registers : List α) (i : Nat) (f : α → Bool × α) : List α × Option Bool :=
  match registers[i]? with
  | none => (registers, none)
  | some a => (registers.set i (f a).2, some (f a).1)

/-- The registers after a call, and its answer.  What is built goes to a new register, and a call
on a register that does not exist does nothing. -/
def perform (ops : IndexOperations α) (registers : List α) : IndexCall → List α × Option Bool
  | empty => (registers ++ [ops.empty], none)
  | build entries => (registers ++ [ops.build entries], none)
  | buildInChunks entries workers => (registers ++ [ops.buildInChunks entries workers], none)
  | ofFormula f workers => (registers ++ [ops.ofFormula f workers], none)
  | clone i => (registers ++ registers[i]?.toList, none)
  | add i l n => change registers i fun a => ops.add a l n
  | remove i l n => change registers i fun a => ops.remove a l n
  | merge i j =>
    match registers[i]?, registers[j]? with
    | some a, some b => (registers.set i (ops.merge a b), none)
    | _, _ => (registers, none)

def performAll (ops : IndexOperations α) (registers : List α) :
    List IndexCall → List α × List (Option Bool)
  | [] => (registers, [])
  | call :: calls =>
    let (next, answer) := call.perform ops registers
    let (last, answers) := performAll ops next calls
    (last, answer :: answers)

theorem change_map {registers : List α} {i : Nat} {h : α → β} {f : α → Bool × α}
    {g : β → Bool × β} (hfg : ∀ a, g (h a) = ((f a).1, h (f a).2)) :
    change (registers.map h) i g =
      ((change registers i f).1.map h, (change registers i f).2) := by
  unfold change
  rw [List.getElem?_map]
  cases registers[i]? with
  | none => rfl
  | some a => simp [hfg, List.map_set]

end IndexCall

/-! ## The set that an index stands for -/

namespace OccurrenceIndex

variable {index other : OccurrenceIndex} {l m : Literal} {n : Nat}

/-- All recorded occurrences, by literal and then by clause. -/
def occurrences (index : OccurrenceIndex) : List (Literal × Nat) :=
  index.sets.toList.flatMap fun (l, set) => set.toList.map fun n => (l, n)

theorem mem_occurrences : (l, n) ∈ index.occurrences ↔ index.records l n = true := by
  rw [← exists_mem_toList_sets_iff, occurrences]
  simp only [List.mem_flatMap, List.mem_map, Prod.mk.injEq, Prod.exists,
    Std.ExtTreeSet.mem_toList]
  constructor
  · rintro ⟨m, set, hset, k, hk, rfl, rfl⟩
    exact ⟨set, hset, hk⟩
  · rintro ⟨set, hset, hn⟩
    exact ⟨l, set, hset, n, hn, rfl, rfl⟩

def pairs (index : OccurrenceIndex) : Occurrences :=
  index.occurrences.toFinset

theorem mem_pairs : (l, n) ∈ index.pairs ↔ index.records l n = true := by
  rw [pairs, List.mem_toFinset, mem_occurrences]

theorem pairs_injective : Function.Injective pairs := by
  intro index other h
  apply eq_of_records
  intro l n
  rw [← mem_pairs, ← mem_pairs, h]

theorem pairs_empty : empty.pairs = ∅ := by
  ext ⟨l, n⟩
  simp [mem_pairs]

theorem pairs_build (entries : List IndexEntry) :
    (build entries).pairs = .ofEntries entries := by
  ext ⟨l, n⟩
  rw [mem_pairs, records_build, Occurrences.mem_ofEntries]

theorem pairs_insert : (index.insert l n).pairs = Insert.insert (l, n) index.pairs := by
  ext ⟨m, k⟩
  rw [mem_pairs, records_insert, Finset.mem_insert, mem_pairs, Prod.mk.injEq, eq_comm (a := l),
    eq_comm (a := n)]

theorem pairs_erase : (index.erase l n).pairs = index.pairs.erase (l, n) := by
  ext ⟨m, k⟩
  rw [mem_pairs, records_erase, Finset.mem_erase, mem_pairs, Ne, Prod.mk.injEq,
    eq_comm (a := l), eq_comm (a := n)]

theorem pairs_merge : (index.merge other).pairs = index.pairs ∪ other.pairs := by
  ext ⟨m, k⟩
  rw [mem_pairs, records_merge, Finset.mem_union, mem_pairs, mem_pairs]

theorem add_pairs (index : OccurrenceIndex) (l : Literal) (n : Nat) :
    Occurrences.operations.add index.pairs l n =
      ((index.add l n).1, (index.add l n).2.pairs) := by
  simp [Occurrences.operations, add, pairs_insert, mem_pairs]

theorem remove_pairs (index : OccurrenceIndex) (l : Literal) (n : Nat) :
    Occurrences.operations.remove index.pairs l n =
      ((index.remove l n).1, (index.remove l n).2.pairs) := by
  simp [Occurrences.operations, remove, pairs_erase, mem_pairs]

/-- A call on the sets of indices gives the sets of the indices that the call gives. -/
theorem perform_pairs (call : IndexCall) (registers : List OccurrenceIndex) :
    call.perform Occurrences.operations (registers.map pairs) =
      ((call.perform operations registers).1.map pairs,
        (call.perform operations registers).2) := by
  cases call with
  | empty => simp [IndexCall.perform, operations, Occurrences.operations, pairs_empty]
  | build entries => simp [IndexCall.perform, operations, Occurrences.operations, pairs_build]
  | buildInChunks entries workers =>
      simp [IndexCall.perform, operations, Occurrences.operations, buildInChunks_eq_build,
        pairs_build]
  | ofFormula f workers =>
      simp [IndexCall.perform, operations, Occurrences.operations, ofFormula,
        buildInChunks_eq_build, pairs_build]
  | clone i => cases hi : registers[i]? <;> simp [IndexCall.perform, hi]
  | add i l n => exact IndexCall.change_map fun index => add_pairs index l n
  | remove i l n => exact IndexCall.change_map fun index => remove_pairs index l n
  | merge i j =>
      cases hi : registers[i]? with
      | none => simp [IndexCall.perform, hi]
      | some index =>
          cases hj : registers[j]? with
          | none => simp [IndexCall.perform, hi, hj]
          | some other =>
              simp [IndexCall.perform, hi, hj, operations, Occurrences.operations, pairs_merge]

theorem performAll_pairs (calls : List IndexCall) (registers : List OccurrenceIndex) :
    IndexCall.performAll Occurrences.operations (registers.map pairs) calls =
      ((IndexCall.performAll operations registers calls).1.map pairs,
        (IndexCall.performAll operations registers calls).2) := by
  induction calls generalizing registers with
  | nil => rfl
  | cons call calls ih => simp only [IndexCall.performAll, perform_pairs, ih]

/-! ## Answers -/

theorem ascending_clauses (index : OccurrenceIndex) (l : Literal) :
    (index.clauses l).Pairwise (· < ·) := by
  have hordered := Std.ExtTreeSet.ordered_toList (t := index.clauseSet l)
  exact hordered.imp fun hlt => Nat.compare_eq_lt.mp hlt

theorem ordered_literals (index : OccurrenceIndex) :
    index.literals.Pairwise Literal.Precedes := by
  have hordered := Std.ExtTreeMap.ordered_keys (t := index.sets)
  exact hordered.imp fun hlt => Literal.compare_eq_lt_iff.mp hlt

theorem count_eq_card (index : OccurrenceIndex) (l : Literal) :
    index.count l = (index.pairs.filter fun p => p.1 = l).card := by
  have hfilter : (index.pairs.filter fun p => p.1 = l) =
      (index.clauses l).toFinset.image fun n => (l, n) := by
    ext ⟨m, k⟩
    simp only [Finset.mem_filter, mem_pairs, Finset.mem_image, List.mem_toFinset, mem_clauses,
      Prod.mk.injEq]
    constructor
    · rintro ⟨hk, rfl⟩
      exact ⟨k, hk, rfl, rfl⟩
    · rintro ⟨n, hn, rfl, rfl⟩
      exact ⟨hn, rfl⟩
  rw [hfilter, Finset.card_image_of_injective _ (Prod.mk_right_injective l),
    List.toFinset_card_of_nodup (index.nodup_clauses l)]
  exact Std.ExtTreeSet.length_toList.symm

theorem isEmpty_iff {index : OccurrenceIndex} : index.isEmpty = true ↔ index.pairs = ∅ := by
  unfold isEmpty
  rw [Std.ExtTreeMap.isEmpty_iff, Std.ExtTreeMap.eq_empty_iff_forall_not_mem,
    Finset.eq_empty_iff_forall_notMem]
  simp only [mem_sets_iff, not_exists, Prod.forall, mem_pairs]

/-- The index answers every question as the set of pairs does: it lists numbers in ascending order
and literals by variable and the negative one first, and it stores no empty set. -/
structure Answers (index : OccurrenceIndex) (pairs : Occurrences) : Prop where
  nonempty : ∀ (l : Literal) (set : ClauseSet), index.sets[l]? = some set → set ≠ ∅
  clauses : ∀ l n, n ∈ index.clauses l ↔ (l, n) ∈ pairs
  clauses_ascending : ∀ l, (index.clauses l).Pairwise (· < ·)
  count : ∀ l, index.count l = (pairs.filter fun p => p.1 = l).card
  occurs : ∀ l, index.occurs l = true ↔ ∃ n, (l, n) ∈ pairs
  isEmpty : index.isEmpty = true ↔ pairs = ∅
  literals : ∀ l, l ∈ index.literals ↔ ∃ n, (l, n) ∈ pairs
  literals_ordered : index.literals.Pairwise Literal.Precedes
  pureLiterals : ∀ l, l ∈ index.pureLiterals ↔ (∃ n, (l, n) ∈ pairs) ∧ ∀ n, (-l, n) ∉ pairs
  pureLiterals_ordered : index.pureLiterals.Pairwise Literal.Precedes

theorem answers_pairs (index : OccurrenceIndex) : index.Answers index.pairs where
  nonempty := index.nonempty
  clauses l n := by rw [mem_clauses, mem_pairs]
  clauses_ascending := index.ascending_clauses
  count := index.count_eq_card
  occurs l := by simp only [occurs_iff, mem_pairs]
  isEmpty := isEmpty_iff
  literals l := by simp only [mem_literals, mem_pairs]
  literals_ordered := index.ordered_literals
  pureLiterals l := by simp only [mem_pureLiterals, mem_pairs]
  pureLiterals_ordered := index.ordered_literals.filter _

/-- After any history the calls have been answered as on sets of pairs, and the indices answer as
the sets in their registers do.  Two indices, each with its own history, are equal if and only if
their sets are. -/
theorem performAll_refines (calls others : List IndexCall) :
    let (indices, answers) := IndexCall.performAll operations [] calls
    let (sets, expected) := IndexCall.performAll Occurrences.operations [] calls
    answers = expected ∧ List.Forall₂ Answers indices sets ∧
      ∀ i j : Nat, indices[i]? = (IndexCall.performAll operations [] others).1[j]? ↔
        sets[i]? = (IndexCall.performAll Occurrences.operations [] others).1[j]? := by
  have hsets : ∀ calls, IndexCall.performAll Occurrences.operations [] calls =
      ((IndexCall.performAll operations [] calls).1.map pairs,
        (IndexCall.performAll operations [] calls).2) :=
    fun calls => performAll_pairs calls []
  rw [hsets calls, hsets others]
  refine ⟨rfl, ?_, ?_⟩
  · rw [List.forall₂_map_right_iff]
    exact List.forall₂_same.mpr fun index _ => index.answers_pairs
  · intro i j
    rw [List.getElem?_map, List.getElem?_map]
    exact (Option.map_injective pairs_injective).eq_iff.symm

end OccurrenceIndex

end SatSearch
