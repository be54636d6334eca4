import SatSearch.OccurrenceIndex
import Mathlib.Algebra.Order.Floor.Div
import Mathlib.Tactic

/-!
# The occurrences that an index records

An index stands for the set of pairs of a literal and a clause number that it records.  Every
operation is described by what it does to this set, and since no empty set of clauses is stored,
two indices with the same pairs are equal.  Building an index clause by clause or in chunks records
exactly the pairs of its entries.
-/

namespace SatSearch

namespace OccurrenceIndex

theorem clauseSet_eq (index : OccurrenceIndex) (l : Literal) :
    index.clauseSet l = index.sets[l]?.getD ∅ :=
  Std.ExtTreeMap.getD_eq_getD_getElem?

theorem records_iff {index : OccurrenceIndex} {l : Literal} {n : Nat} :
    index.records l n = true ↔ n ∈ index.clauseSet l :=
  Std.ExtTreeSet.contains_iff_mem

theorem mem_clauses {index : OccurrenceIndex} {l : Literal} {n : Nat} :
    n ∈ index.clauses l ↔ index.records l n = true := by
  rw [records_iff]
  exact Std.ExtTreeSet.mem_toList

theorem nodup_clauses (index : OccurrenceIndex) (l : Literal) : (index.clauses l).Nodup := by
  have hdistinct := Std.ExtTreeSet.distinct_toList (t := index.clauseSet l)
  refine hdistinct.imp ?_
  rintro m n hne rfl
  exact hne (Std.ReflCmp.compare_self)

theorem occurs_iff {index : OccurrenceIndex} {l : Literal} :
    index.occurs l = true ↔ ∃ n, index.records l n = true := by
  unfold occurs
  rw [Std.ExtTreeMap.contains_eq_isSome_getElem?]
  simp only [records_iff, clauseSet_eq]
  cases hset : index.sets[l]? with
  | none => simp
  | some set =>
      have hne := index.nonempty l set hset
      rw [Ne, Std.ExtTreeSet.eq_empty_iff_forall_not_mem, not_forall] at hne
      rcases hne with ⟨n, hn⟩
      simp only [Option.isSome_some, Option.getD_some, true_iff]
      exact ⟨n, not_not.mp hn⟩

theorem eq_of_records {a b : OccurrenceIndex}
    (h : ∀ l n, a.records l n = true ↔ b.records l n = true) : a = b := by
  have hsets : a.sets = b.sets := by
    apply Std.ExtTreeMap.ext_getElem?
    intro l
    have hsome : (a.sets[l]?).isSome = (b.sets[l]?).isSome := by
      rw [← Std.ExtTreeMap.contains_eq_isSome_getElem?,
        ← Std.ExtTreeMap.contains_eq_isSome_getElem?, Bool.eq_iff_iff]
      have hoccurs : a.occurs l = true ↔ b.occurs l = true := by
        simp only [occurs_iff, h]
      exact hoccurs
    have hset : a.clauseSet l = b.clauseSet l := by
      apply Std.ExtTreeSet.ext_mem
      intro n
      rw [← records_iff, ← records_iff]
      exact h l n
    rw [clauseSet_eq, clauseSet_eq] at hset
    cases ha : a.sets[l]? with
    | none =>
        rw [ha] at hsome
        exact (Option.isSome_eq_false_iff.mp hsome.symm |> Option.isNone_iff_eq_none.mp).symm
    | some s =>
        rw [ha] at hsome hset
        rcases Option.isSome_iff_exists.mp hsome.symm with ⟨t, ht⟩
        rw [ht] at hset ⊢
        exact congrArg some hset
  cases a
  cases b
  simp_all

@[simp] theorem records_empty (l : Literal) (n : Nat) : empty.records l n = false := by
  simp [records, clauseSet, empty]

theorem records_insert {index : OccurrenceIndex} {l m : Literal} {n k : Nat} :
    (index.insert l n).records m k = true ↔
      (l = m ∧ n = k) ∨ index.records m k = true := by
  simp only [records_iff, clauseSet_eq, insert, Std.ExtTreeMap.getElem?_insert,
    Std.LawfulEqOrd.compare_eq_iff_eq]
  split
  next heq =>
    subst heq
    simp [Std.ExtTreeSet.mem_insert]
  next hne => simp [hne]

theorem records_erase {index : OccurrenceIndex} {l m : Literal} {n k : Nat} :
    (index.erase l n).records m k = true ↔
      ¬(l = m ∧ n = k) ∧ index.records m k = true := by
  unfold erase
  simp only
  split
  next hempty =>
    have hnone := Std.ExtTreeSet.isEmpty_iff.mp hempty
    rw [Std.ExtTreeSet.eq_empty_iff_forall_not_mem] at hnone
    simp only [records_iff, clauseSet_eq, Std.ExtTreeMap.getElem?_erase,
      Std.LawfulEqOrd.compare_eq_iff_eq]
    split
    next heq =>
      subst heq
      have hk := hnone k
      rw [Std.ExtTreeSet.mem_erase, clauseSet_eq] at hk
      simpa using hk
    next hne => simp [hne]
  next =>
    simp only [records_iff, clauseSet_eq, Std.ExtTreeMap.getElem?_insert,
      Std.LawfulEqOrd.compare_eq_iff_eq]
    split
    next heq =>
      subst heq
      simp [Std.ExtTreeSet.mem_erase]
    next hne => simp [hne]

theorem records_insertAll {index : OccurrenceIndex} {ls : List Literal} {m : Literal}
    {n k : Nat} :
    (index.insertAll ls n).records m k = true ↔
      (m ∈ ls ∧ n = k) ∨ index.records m k = true := by
  unfold insertAll
  induction ls generalizing index with
  | nil => simp
  | cons l ls ih =>
      rw [List.foldl_cons, ih, records_insert, List.mem_cons]
      constructor
      · rintro (⟨hm, hn⟩ | ⟨hl, hn⟩ | hold)
        · exact Or.inl ⟨Or.inr hm, hn⟩
        · exact Or.inl ⟨Or.inl hl.symm, hn⟩
        · exact Or.inr hold
      · rintro (⟨hl | hm, hn⟩ | hold)
        · exact Or.inr (Or.inl ⟨hl.symm, hn⟩)
        · exact Or.inl ⟨hm, hn⟩
        · exact Or.inr (Or.inr hold)

theorem records_eraseAll {index : OccurrenceIndex} {ls : List Literal} {m : Literal}
    {n k : Nat} :
    (index.eraseAll ls n).records m k = true ↔
      ¬(m ∈ ls ∧ n = k) ∧ index.records m k = true := by
  unfold eraseAll
  induction ls generalizing index with
  | nil => simp
  | cons l ls ih =>
      rw [List.foldl_cons, ih, records_erase, List.mem_cons]
      constructor
      · rintro ⟨hls, hl, hold⟩
        refine ⟨?_, hold⟩
        rintro ⟨rfl | hm, hn⟩
        · exact hl ⟨rfl, hn⟩
        · exact hls ⟨hm, hn⟩
      · rintro ⟨hnone, hold⟩
        refine ⟨fun h => hnone ⟨Or.inr h.1, h.2⟩, ?_, hold⟩
        rintro ⟨hl, hn⟩
        exact hnone ⟨Or.inl hl.symm, hn⟩

theorem mem_literals {index : OccurrenceIndex} {l : Literal} :
    l ∈ index.literals ↔ ∃ n, index.records l n = true := by
  rw [← occurs_iff]
  exact Std.ExtTreeMap.mem_keys

theorem nodup_literals (index : OccurrenceIndex) : index.literals.Nodup :=
  Std.ExtTreeMap.nodup_keys

theorem length_literals (index : OccurrenceIndex) : index.literals.length = index.size :=
  Std.ExtTreeMap.length_keys

theorem mem_pureLiterals {index : OccurrenceIndex} {l : Literal} :
    l ∈ index.pureLiterals ↔
      (∃ n, index.records l n = true) ∧ ∀ n, ¬index.records (-l) n = true := by
  unfold pureLiterals
  rw [List.mem_filter, mem_literals]
  refine and_congr_right ?_
  intro _
  have hoccurs : index.occurs (-l) = true ↔ ∃ n, index.records (-l) n = true := occurs_iff
  rw [Bool.not_eq_true', ← Bool.not_eq_true, hoccurs, not_exists]

theorem mem_sets_iff {index : OccurrenceIndex} {l : Literal} :
    l ∈ index.sets ↔ ∃ n, index.records l n = true := by
  rw [← occurs_iff]
  exact Std.ExtTreeMap.mem_iff_contains

theorem firstLiteral?_eq_none_iff {index : OccurrenceIndex} :
    index.firstLiteral? = none ↔ ∀ l n, ¬index.records l n = true := by
  unfold firstLiteral?
  simp only [Std.ExtTreeMap.minKey?_eq_none_iff, Std.ExtTreeMap.eq_empty_iff_forall_not_mem,
    mem_sets_iff, not_exists]

theorem firstLiteral?_eq_some_iff {index : OccurrenceIndex} {l : Literal} :
    index.firstLiteral? = some l ↔
      (∃ n, index.records l n = true) ∧
        ∀ m n, index.records m n = true → (compare l m).isLE = true := by
  unfold firstLiteral?
  simp only [Std.ExtTreeMap.minKey?_eq_some_iff_mem_and_forall, mem_sets_iff,
    forall_exists_index]

/-! ## Building -/

theorem records_foldl_insertAll {index : OccurrenceIndex} {entries : List IndexEntry}
    {l : Literal} {n : Nat} :
    (entries.foldl (fun index e => index.insertAll e.literals e.number) index).records l n =
        true ↔
      (∃ e ∈ entries, l ∈ e.literals ∧ e.number = n) ∨ index.records l n = true := by
  induction entries generalizing index with
  | nil => simp
  | cons e entries ih =>
      rw [List.foldl_cons, ih, records_insertAll, List.exists_mem_cons_iff]
      exact or_left_comm.trans or_assoc.symm

theorem records_build {entries : List IndexEntry} {l : Literal} {n : Nat} :
    (build entries).records l n = true ↔
      ∃ e ∈ entries, l ∈ e.literals ∧ e.number = n := by
  unfold build
  rw [records_foldl_insertAll]
  simp

theorem records_join {index : OccurrenceIndex} {l m : Literal} {set : ClauseSet}
    {hset : set ≠ ∅} {k : Nat} :
    (index.join l set hset).records m k = true ↔
      (l = m ∧ k ∈ set) ∨ index.records m k = true := by
  simp only [records_iff, clauseSet_eq, join, Std.ExtTreeMap.getElem?_insert,
    Std.LawfulEqOrd.compare_eq_iff_eq]
  split
  next heq =>
    subst heq
    simp [Std.ExtTreeSet.mem_union_iff, or_comm]
  next hne => simp [hne]

theorem records_joinAll {index : OccurrenceIndex} {entries : List (Literal × ClauseSet)}
    {h : ∀ entry ∈ entries, entry.2 ≠ ∅} {l : Literal} {n : Nat} :
    (index.joinAll entries h).records l n = true ↔
      (∃ set, (l, set) ∈ entries ∧ n ∈ set) ∨ index.records l n = true := by
  induction entries generalizing index with
  | nil => simp [joinAll]
  | cons entry entries ih =>
      obtain ⟨m, set⟩ := entry
      rw [joinAll, ih, records_join]
      simp only [List.mem_cons, Prod.mk.injEq]
      constructor
      · rintro (⟨other, hother, hn⟩ | ⟨rfl, hn⟩ | hold)
        · exact Or.inl ⟨other, Or.inr hother, hn⟩
        · exact Or.inl ⟨set, Or.inl ⟨rfl, rfl⟩, hn⟩
        · exact Or.inr hold
      · rintro (⟨other, ⟨rfl, rfl⟩ | hother, hn⟩ | hold)
        · exact Or.inr (Or.inl ⟨rfl, hn⟩)
        · exact Or.inl ⟨other, hother, hn⟩
        · exact Or.inr (Or.inr hold)

theorem exists_mem_toList_sets_iff {index : OccurrenceIndex} {l : Literal} {n : Nat} :
    (∃ set, (l, set) ∈ index.sets.toList ∧ n ∈ set) ↔ index.records l n = true := by
  simp only [Std.ExtTreeMap.mem_toList_iff_getElem?_eq_some]
  rw [records_iff, clauseSet_eq]
  cases index.sets[l]? <;> simp

theorem records_merge {index other : OccurrenceIndex} {l : Literal} {n : Nat} :
    (index.merge other).records l n = true ↔
      index.records l n = true ∨ other.records l n = true := by
  unfold merge
  rw [records_joinAll, exists_mem_toList_sets_iff]
  exact or_comm

theorem records_foldl_merge {index : OccurrenceIndex} {parts : List OccurrenceIndex}
    {l : Literal} {n : Nat} :
    (parts.foldl merge index).records l n = true ↔
      index.records l n = true ∨ ∃ part ∈ parts, part.records l n = true := by
  induction parts generalizing index with
  | nil => simp
  | cons part parts ih =>
      rw [List.foldl_cons, ih, records_merge, List.exists_mem_cons_iff, or_assoc]

/-! ## Sharing -/

section

variable {α : Type} {size : Nat} {xs : List α}

theorem flatten_chunksOf (size : Nat) (xs : List α) : (chunksOf size xs).flatten = xs := by
  induction xs using chunksOf.induct size with
  | case1 => simp [chunksOf]
  | case2 x xs ih =>
      rw [chunksOf, List.flatten_cons, ih, List.cons_append, List.take_append_drop]

theorem ne_nil_of_mem_chunksOf {part : List α} (h : part ∈ chunksOf size xs) : part ≠ [] := by
  induction xs using chunksOf.induct size with
  | case1 => simp [chunksOf] at h
  | case2 x xs ih =>
      rw [chunksOf, List.mem_cons] at h
      rcases h with rfl | h
      · exact List.cons_ne_nil _ _
      · exact ih h

theorem length_chunksOf_le (hsize : 0 < size) {k : Nat} (hroom : xs.length ≤ k * size) :
    (chunksOf size xs).length ≤ k := by
  induction xs using chunksOf.induct size generalizing k with
  | case1 => simp [chunksOf]
  | case2 x xs ih =>
      cases k with
      | zero => simp at hroom
      | succ k =>
          -- the chunk that is cut off has `size` elements, unless it is the last one
          have hrest : (xs.drop (size - 1)).length ≤ k * size := by
            rw [List.length_cons, Nat.succ_mul] at hroom
            rw [List.length_drop]
            omega
          rw [chunksOf, List.length_cons]
          exact Nat.succ_le_succ (ih hrest)

end

/-- The parts have every entry in exactly one place, and are no more than workers or entries. -/
structure Shares (entries : List IndexEntry) (workers : Nat) (parts : List (List IndexEntry)) :
    Prop where
  flatten : parts.flatten = entries
  nonempty : ∀ part ∈ parts, part ≠ []
  length_le : parts.length ≤ min workers entries.length

variable {entries : List IndexEntry} {workers : Nat}

theorem chunks_eq_none_iff :
    chunks entries workers = none ↔ workers ≤ 1 ∨ entries.length < 2 := by
  unfold chunks
  split
  next hfew => exact iff_of_true rfl hfew
  next hmany => exact iff_of_false (Option.some_ne_none _) hmany

theorem shares_of_chunks {parts : List (List IndexEntry)}
    (h : chunks entries workers = some parts) : Shares entries workers parts := by
  unfold chunks at h
  split at h
  next => contradiction
  next hmany =>
    rw [not_or] at hmany
    have hworkers : 0 < min workers entries.length := by omega
    have hlength : entries.length ≤ min workers entries.length *
        ((entries.length + min workers entries.length - 1) / min workers entries.length) := by
      rw [← Nat.ceilDiv_eq_add_pred_div, ← ceilDiv_le_iff_le_mul hworkers]
    -- chunks without room would not hold the entries, of which there are some
    have hsize : 0 < (entries.length + min workers entries.length - 1) /
        min workers entries.length := by
      apply Nat.pos_of_ne_zero
      intro hzero
      rw [hzero] at hlength
      omega
    rw [← Option.some.inj h]
    exact ⟨flatten_chunksOf _ entries, fun part => ne_nil_of_mem_chunksOf,
      length_chunksOf_le hsize hlength⟩

/-- Sharing the work among workers does not change the index. -/
theorem buildInChunks_eq_build (entries : List IndexEntry) (workers : Nat) :
    buildInChunks entries workers = build entries := by
  unfold buildInChunks
  split
  next => rfl
  next parts hparts =>
    apply eq_of_records
    intro l n
    rw [records_foldl_merge, records_build, ← (shares_of_chunks hparts).flatten]
    simp only [records_empty, Bool.false_eq_true, false_or, List.mem_map,
      exists_exists_and_eq_and, records_build, List.mem_flatten]
    constructor
    · rintro ⟨part, hpart, e, he, hl, hn⟩
      exact ⟨e, ⟨part, hpart, he⟩, hl, hn⟩
    · rintro ⟨e, ⟨part, hpart, he⟩, hl, hn⟩
      exact ⟨part, hpart, e, he, hl, hn⟩

end OccurrenceIndex

end SatSearch
