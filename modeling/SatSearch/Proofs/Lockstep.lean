import SatSearch.Proofs.Correspondence
import SatSearch.Proofs.Likeness
import SatSearch.Proofs.Solver

/-!
# Searches in lockstep

Two searches for the same problem, posed by other clauses, run in lockstep: they are on alike
branches, have the same statistics and have recorded the same moves.  This is how searches
correspond that have no names to change, so it lasts to the end, and the outcome of a search depends
on nothing but the sets of literals of the problem.
-/

namespace SatSearch

namespace Search

variable {cs ds : List Clause} {s t : Search}

structure Alike (cs ds : List Clause) (s t : Search) : Prop where
  branch : Branch.Alike cs ds s.branch t.branch
  config : s.config.Alike t.config
  cancellation : s.cancellation = t.cancellation
  stats : s.stats = t.stats
  course : s.course = t.course

theorem Alike.renamed (h : Alike cs ds s t) : Renamed id Set.univ cs ds s t where
  branch := h.branch.renamed
  config := h.config
  cancellation := h.cancellation
  stats := h.stats
  course := by rw [LogRecord.rename_id, List.map_id, h.course]

theorem Renamed.alike (h : Renamed id Set.univ cs ds s t) : Alike cs ds s t where
  branch := h.branch.alike
  config := h.config
  cancellation := h.cancellation
  stats := h.stats
  course := by rw [h.course, LogRecord.rename_id, List.map_id]

/-- Steps that lead to alike searches, and to the same verdict if they end them. -/
inductive AlikeSteps (cs ds : List Clause) : Step → Step → Prop
  | continues {s t : Search} (h : Alike cs ds s t) : AlikeSteps cs ds (.continues s) (.continues t)
  | satisfied {s t : Search} (h : Alike cs ds s t) (hs : s.branch.isSatisfied = true) :
      AlikeSteps cs ds (.ends (.satisfied s.model) s) (.ends (.satisfied t.model) t)
  | unsatisfiable {s t : Search} (h : Alike cs ds s t) :
      AlikeSteps cs ds (.ends .unsatisfiable s) (.ends .unsatisfiable t)
  | cancelled {s t : Search} {decisions : Nat} (h : Alike cs ds s t) :
      AlikeSteps cs ds (.ends (.cancelled decisions) s) (.ends (.cancelled decisions) t)

theorem RenamedSteps.alike {step other : Step} (h : RenamedSteps id Set.univ cs ds step other) :
    AlikeSteps cs ds step other := by
  cases h with
  | continues h => exact .continues h.alike
  | satisfied h hs => exact .satisfied h.alike hs
  | unsatisfiable h => exact .unsatisfiable h.alike
  | cancelled h => exact .cancelled h.alike

/-- Alike searches come to alike ends. -/
theorem Alike.solve (hsets : literalSets cs = literalSets ds) (h : Alike cs ds s t)
    {verdict : Verdict} {last : Search} (hs : s.solve = .ok (verdict, last)) :
    ∃ other final, t.solve = .ok (other, final) ∧
      AlikeSteps cs ds (.ends verdict last) (.ends other final) := by
  obtain ⟨other, final, hother, hsteps⟩ := h.renamed.solve (renaming_of_literalSets hsets) hs
  exact ⟨other, final, hother, hsteps.alike⟩

/-! ## The outcome -/

variable {f g : Formula} {a b : Binding} {config : SearchConfig} {cancellation : Cancellation}

/-- The problem as a set of sets of literals: those of the clauses, and a set of one literal for
each literal of the starting binding. -/
def problemSets (f : Formula) (starting : Binding) : Finset (Finset Literal) :=
  literalSets f.clauses.toList ∪ (starting.literals.map fun l => {l}).toFinset

theorem literalSets_startingClauses (f : Formula) (starting : Binding) :
    literalSets (startingClauses f starting) = problemSets f starting := by
  unfold literalSets startingClauses problemSets literalSets
  rw [List.map_append, List.toFinset_append, List.map_map]
  rfl

theorem alike_start : Alike (startingClauses f a) (startingClauses g b)
    (start f a config cancellation) (start g b config cancellation) :=
  (renamed_start f g a b (.refl config) cancellation).alike

/-- Alike searches with satisfied branches have the same model if it is not to be completed, or if
the variables of the formula and of the starting binding are the same together. -/
theorem Alike.model_eq {other : SearchConfig}
    (h : Alike (startingClauses f a) (startingClauses g b) s t)
    (hs : s.branch.isSatisfied = true) (ht : t.branch.isSatisfied = true)
    (hf : SameProblem (start f a config cancellation) s)
    (hg : SameProblem (start g b other cancellation) t)
    (hvariables : config.completeModel = false ∨ ∀ v,
      f.contains v = true ∨ a.binds v = true ↔ g.contains v = true ∨ b.binds v = true) :
    s.model = t.model := by
  have hconfig : s.config.completeModel = config.completeModel :=
    congrArg SearchConfig.completeModel hf.config
  unfold model
  rw [← h.config.completeModel, h.branch.binding_eq, hconfig]
  cases hcomplete : config.completeModel with
  | false => rfl
  | true =>
      rw [hcomplete] at hvariables
      have hsame := hvariables.resolve_left Bool.true_eq_false.mp
      apply Binding.complete_congr
      intro v hopen
      -- a satisfied branch binds the variables of its starting binding
      have ha := not_binds_starting h.branch.of_left hs (h.branch.binding_eq ▸ hopen)
      have hb := not_binds_starting h.branch.of_right ht hopen
      have hiff := hsame v
      rw [or_iff_left ha, or_iff_left hb] at hiff
      rw [Array.mem_toList_iff, Array.mem_toList_iff, mem_variables_iff hf, mem_variables_iff hg,
        hiff]

/-- The outcome of a search depends on nothing but the problem as a set of sets of literals: the
verdict, the statistics and the moves are the same for all ways to pose it, and so is the binding,
unless it is to be completed over other variables. -/
theorem solve_of_problemSets (hs : prepare f a config cancellation = .ok s)
    (ht : prepare g b config cancellation = .ok t) (hsets : problemSets f a = problemSets g b) :
    ∃ verdict last other final, s.solve = .ok (verdict, last) ∧ t.solve = .ok (other, final) ∧
      last.stats = final.stats ∧ last.course = final.course ∧
      (verdict = other ∨ ∃ m n, verdict = .satisfied m ∧ other = .satisfied n) ∧
      ((config.completeModel = false ∨ ∀ v,
        f.contains v = true ∨ a.binds v = true ↔ g.contains v = true ∨ b.binds v = true) →
        verdict = other) := by
  rw [← literalSets_startingClauses, ← literalSets_startingClauses] at hsets
  have halike : Alike (startingClauses f a) (startingClauses g b) s t := by
    rw [prepare_eq_ok hs, prepare_eq_ok ht]
    exact alike_start
  have hsettled := Branch.settled_of_eq_root (of_prepare hs)
  obtain ⟨verdict, last, hsolve⟩ := solve_exists halike.branch.of_left hsettled
  obtain ⟨other, final, hother, hends⟩ := halike.solve hsets hsolve
  refine ⟨verdict, last, other, final, hsolve, hother, ?_⟩
  cases hends with
  | satisfied h hsatisfied =>
      have hf := sameProblem_of_solve halike.branch.of_left hsolve
      have hg := sameProblem_of_solve halike.branch.of_right hother
      rw [prepare_eq_ok hs] at hf
      rw [prepare_eq_ok ht] at hg
      refine ⟨h.stats, h.course, Or.inr ⟨_, _, rfl, rfl⟩, ?_⟩
      intro hvariables
      rw [h.model_eq hsatisfied (h.branch.isSatisfied_eq hsets ▸ hsatisfied) hf hg hvariables]
  | unsatisfiable h => exact ⟨h.stats, h.course, Or.inl rfl, fun _ => rfl⟩
  | cancelled h => exact ⟨h.stats, h.course, Or.inl rfl, fun _ => rfl⟩

theorem solve_of_problemSets_reordered :
    let f := Formula.ofClauses [⟨[⟨⟨1⟩, false⟩, ⟨⟨2⟩, true⟩]⟩,
      ⟨[⟨⟨2⟩, false⟩, ⟨⟨1⟩, false⟩]⟩, ⟨[⟨⟨3⟩, true⟩, ⟨⟨2⟩, true⟩, ⟨⟨4⟩, true⟩]⟩]
    let starting := Binding.ofLiterals [⟨⟨4⟩, false⟩]
    let g := [⟨[⟨⟨4⟩, true⟩, ⟨⟨2⟩, true⟩, ⟨⟨3⟩, true⟩, ⟨⟨2⟩, true⟩]⟩, ⟨[⟨⟨4⟩, false⟩]⟩,
      ⟨[⟨⟨1⟩, false⟩, ⟨⟨2⟩, false⟩]⟩, ⟨[⟨⟨2⟩, true⟩, ⟨⟨1⟩, false⟩]⟩,
      ⟨[⟨⟨1⟩, false⟩, ⟨⟨2⟩, true⟩]⟩].foldl Formula.adopt (.withVariables [⟨4⟩, ⟨3⟩, ⟨2⟩, ⟨1⟩])
    let config : SearchConfig := { pureLiteralElimination := false }
    ∃ verdict last final, (start f starting config (.after 5)).solve = .ok (verdict, last) ∧
      (start g .empty config (.after 5)).solve = .ok (verdict, final) ∧
      last.stats = final.stats ∧ last.course = final.course := by
  intro f starting g config
  have hs : prepare f starting config (.after 5) = .ok (start f starting config (.after 5)) := rfl
  have ht : prepare g .empty config (.after 5) = .ok (start g .empty config (.after 5)) := rfl
  have hsets : problemSets f starting = problemSets g .empty := by decide
  have hvariables : ∀ v, f.contains v = true ∨ starting.binds v = true ↔
      g.contains v = true ∨ Binding.empty.binds v = true := by
    intro v
    have hf : f.scope.variables = #[⟨1⟩, ⟨2⟩, ⟨3⟩, ⟨4⟩] := by decide
    have hg : g.scope.variables = #[⟨4⟩, ⟨3⟩, ⟨2⟩, ⟨1⟩] := by decide
    have hstarting : starting.toList.map Prod.fst = [⟨4⟩] := by decide
    have hempty : Binding.empty.toList.map Prod.fst = [] := by decide
    rw [Formula.contains, Formula.contains, Scope.contains_iff, Scope.contains_iff, hf, hg,
      ← mem_variables, ← mem_variables, hstarting, hempty]
    simp only [List.mem_toArray, List.mem_cons, List.not_mem_nil]
    tauto
  obtain ⟨verdict, last, other, final, hsolve, hother, hstats, hcourse, _, hsame⟩ :=
    solve_of_problemSets hs ht hsets
  rw [← hsame (Or.inr hvariables)] at hother
  exact ⟨verdict, last, final, hsolve, hother, hstats, hcourse⟩

end Search

end SatSearch
