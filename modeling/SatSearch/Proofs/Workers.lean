import SatSearch.Proofs.Cancellation
import SatSearch.Proofs.IndexHistory
import SatSearch.Proofs.Lockstep

/-!
# Sharing the building of an index

The entries of a large index are cut into consecutive chunks, at most one for each worker, and the
indices of the chunks are merged.  Whatever numbers and literals the chunks have in common, the
result is the index that one worker builds.  So a search that is configured for other workers, or
for another size from which on an index counts as large, is alike at every step.
-/

namespace SatSearch

namespace Search

variable {f : Formula} {starting : Binding} {config other : SearchConfig}
  {cancellation : Cancellation} {s : Search}

/-- Searches whose configurations are alike have the same end. -/
theorem solve_of_alike (hconfig : config.Alike other)
    (hs : prepare f starting config cancellation = .ok s) :
    ∃ t verdict last final, prepare f starting other cancellation = .ok t ∧
      s.solve = .ok (verdict, last) ∧ t.solve = .ok (verdict, final) ∧
      final.stats = last.stats ∧ final.course = last.course := by
  obtain ⟨hnone, rfl⟩ := prepare_eq_ok_iff.mp hs
  have halike := (renamed_start f f starting starting hconfig cancellation).alike
  obtain ⟨verdict, last, hsolve⟩ :=
    solve_exists halike.branch.of_left (Branch.settled_of_eq_root (of_prepare hs))
  -- the problem is the same, so its sets of literals are by definition
  obtain ⟨answer, final, hother, hends⟩ := halike.solve rfl hsolve
  refine ⟨_, verdict, last, final, prepare_eq_ok_iff.mpr ⟨hnone, rfl⟩, hsolve, ?_⟩
  cases hends with
  | satisfied h hsatisfied =>
      have hf := sameProblem_of_solve halike.branch.of_left hsolve
      have hg := sameProblem_of_solve halike.branch.of_right hother
      have hmodel := h.model_eq hsatisfied (h.branch.isSatisfied_eq rfl ▸ hsatisfied) hf hg
        (Or.inr fun _ => Iff.rfl)
      rw [hmodel]
      exact ⟨hother, h.stats.symm, h.course.symm⟩
  | unsatisfiable h => exact ⟨hother, h.stats.symm, h.course.symm⟩
  | cancelled h => exact ⟨hother, h.stats.symm, h.course.symm⟩

theorem solveWith_of_alike (hconfig : config.Alike other) :
    solveWith f starting config cancellation = solveWith f starting other cancellation := by
  cases hforeign : foreignVariable? f starting with
  | some v => rw [solveWith_of_foreign hforeign, solveWith_of_foreign hforeign]
  | none =>
      have hs : prepare f starting config cancellation =
          .ok (start f starting config cancellation) := prepare_eq_ok_iff.mpr ⟨hforeign, rfl⟩
      obtain ⟨t, verdict, last, final, ht, hsolve, hother, _⟩ := solve_of_alike hconfig hs
      rw [solveWith_of_prepare hs hsolve, solveWith_of_prepare ht hother]

end Search

open OccurrenceIndex Search

/-- Sharing the building of an index is not to be noticed.  The entries are cut into at most as
many chunks as there are workers, each entry in one of them, and the merged index is the one that a
single worker builds: for each literal it has the numbers of the entries with that literal,
ascending.  So an index of a formula does not depend on the workers, nor do the result, the
statistics and the moves of a search depend on them or on what counts as large. -/
theorem workers_unnoticed :
    (∀ entries workers,
      buildInChunks entries workers = build entries ∧
      (∀ l, ((buildInChunks entries workers).clauses l).Pairwise (· < ·) ∧
        ∀ n, n ∈ (buildInChunks entries workers).clauses l ↔
          ∃ e ∈ entries, l ∈ e.literals ∧ e.number = n) ∧
      (chunks entries workers = none ↔ workers ≤ 1 ∨ entries.length < 2) ∧
      ∀ parts, chunks entries workers = some parts → Shares entries workers parts ∧
        buildInChunks entries workers = (parts.map build).foldl merge empty) ∧
    (∀ f workers others, ofFormula f workers = ofFormula f others) ∧
    ∀ f starting config cancellation workers threshold,
      let other := { config with indexWorkers := workers, largeIndex := threshold }
      solveWith f starting config cancellation = solveWith f starting other cancellation ∧
      ∀ s, prepare f starting config cancellation = .ok s →
        ∃ t verdict last final, prepare f starting other cancellation = .ok t ∧
          s.solve = .ok (verdict, last) ∧ t.solve = .ok (verdict, final) ∧
          final.stats = last.stats ∧ final.course = last.course := by
  refine ⟨?_, ?_, ?_⟩
  · intro entries workers
    refine ⟨buildInChunks_eq_build entries workers, ?_, chunks_eq_none_iff, ?_⟩
    · intro l
      refine ⟨ascending_clauses _ l, ?_⟩
      intro n
      rw [mem_clauses, buildInChunks_eq_build, records_build]
    · intro parts hparts
      refine ⟨shares_of_chunks hparts, ?_⟩
      rw [buildInChunks, hparts]
  · intro f workers others
    rw [ofFormula, ofFormula, buildInChunks_eq_build, buildInChunks_eq_build]
  · intro f starting config cancellation workers threshold other
    have hconfig : config.Alike other := ⟨rfl, rfl⟩
    exact ⟨solveWith_of_alike hconfig, fun s hs => solve_of_alike hconfig hs⟩

theorem workers_unnoticed_with_three_chunks :
    let a : Literal := ⟨⟨1⟩, true⟩
    let b : Literal := ⟨⟨2⟩, true⟩
    let entries : List IndexEntry := [⟨7, [a, -b]⟩, ⟨2, [a, a]⟩, ⟨7, [-b]⟩, ⟨0, []⟩, ⟨2, [b, a]⟩]
    let parts := [[⟨7, [a, -b]⟩, ⟨2, [a, a]⟩], [⟨7, [-b]⟩, ⟨0, []⟩], [⟨2, [b, a]⟩]]
    let f := Formula.ofClauses [⟨[a, b]⟩, ⟨[-a, -b]⟩, ⟨[-a, b]⟩]
    let config : SearchConfig := { indexWorkers := 2, largeIndex := 3 }
    chunks entries 4 = some parts ∧ Shares entries 4 parts ∧
      2 ∈ (buildInChunks entries 4).clauses a ∧
      ∃ s t verdict last final, prepare f .empty config .never = .ok s ∧
        prepare f .empty { config with indexWorkers := 0, largeIndex := 4 } .never = .ok t ∧
        s.solve = .ok (verdict, last) ∧ t.solve = .ok (verdict, final) ∧
        final.stats = last.stats := by
  intro a b entries parts f config
  have hparts : chunks entries 4 = some parts := by simp [chunks, chunksOf, entries, parts]
  have hs : prepare f .empty config .never = .ok (start f .empty config .never) := rfl
  obtain ⟨hindex, _, hsearch⟩ := workers_unnoticed
  obtain ⟨_, hclauses, _, hshares⟩ := hindex entries 4
  obtain ⟨t, verdict, last, final, ht, hsolve, hother, hstats, _⟩ :=
    (hsearch f .empty config .never 0 4).2 _ hs
  exact ⟨hparts, (hshares parts hparts).1,
    ((hclauses a).2 2).mpr ⟨⟨2, [a, a]⟩, by decide, by decide, rfl⟩,
    _, t, verdict, last, final, hs, ht, hsolve, hother, hstats⟩

end SatSearch
