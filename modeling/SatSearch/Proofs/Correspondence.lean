import SatSearch.Proofs.Course
import SatSearch.Proofs.Renaming

/-!
# Corresponding searches

Two searches, the second on the renamed problem of the first, run side by side: they are on branches
that correspond, have the same statistics and have recorded the same moves, renamed.  One step keeps
this, so a whole search does, and the two come to the same kind of end.
-/

namespace SatSearch

/-- Configurations that differ in nothing but how an index is built. -/
structure SearchConfig.Alike (c d : SearchConfig) : Prop where
  pureLiteralElimination : c.pureLiteralElimination = d.pureLiteralElimination
  completeModel : c.completeModel = d.completeModel

theorem SearchConfig.Alike.refl (c : SearchConfig) : c.Alike c :=
  ⟨rfl, rfl⟩

namespace LogRecord

/-- The record of an inference, of a decision or of backtracking. -/
def isMove : LogRecord → Bool
  | propagating .. | eliminating .. | decision .. | backtracking .. => true
  | parsed .. | merging .. | solving .. | satisfiable .. | unsatisfiable .. | cancelled .. => false

def rename (r : Variable → Variable) : LogRecord → LogRecord
  | decision literal level flipped => decision (literal.rename r) level flipped
  | backtracking literal => backtracking (literal.rename r)
  | other => other

@[simp] theorem rename_id : rename id = id := by
  funext record
  cases record with
  | decision | backtracking | parsed | merging | solving | propagating | eliminating
  | satisfiable | unsatisfiable | cancelled => rfl

theorem isMove_rename (r : Variable → Variable) (d : LogRecord) :
    (d.rename r).isMove = d.isMove := by
  cases d with
  | decision | backtracking | parsed | merging | solving | propagating | eliminating
  | satisfiable | unsatisfiable | cancelled => rfl

end LogRecord

namespace Search

variable {r : Variable → Variable} {known : Set Variable} {cs ds : List Clause} {s t : Search}

/-- The moves of a search, oldest first. -/
def course (s : Search) : List LogRecord :=
  s.log.toList.filter LogRecord.isMove

theorem course_record (s : Search) (r : LogRecord) :
    (s.record r).course = s.course ++ [r].filter LogRecord.isMove := by
  simp [course, record]

structure Renamed (r : Variable → Variable) (known : Set Variable) (cs ds : List Clause)
    (s t : Search) : Prop where
  branch : Branch.Renamed r known cs ds s.branch t.branch
  config : s.config.Alike t.config
  cancellation : s.cancellation = t.cancellation
  stats : s.stats = t.stats
  course : t.course = s.course.map (LogRecord.rename r)

theorem Renamed.record (h : Renamed r known cs ds s t) (d : LogRecord) :
    Renamed r known cs ds (s.record d) (t.record (d.rename r)) where
  branch := h.branch
  config := h.config
  cancellation := h.cancellation
  stats := h.stats
  course := by
    rw [course_record, course_record, h.course, List.map_append, List.filter_singleton,
      List.filter_singleton, LogRecord.isMove_rename]
    cases d.isMove with
    | false => rfl
    | true => rfl

theorem Renamed.countConflict (h : Renamed r known cs ds s t) :
    Renamed r known cs ds s.countConflict t.countConflict where
  branch := h.branch
  config := h.config
  cancellation := h.cancellation
  stats := by rw [Search.countConflict, Search.countConflict, h.stats]
  course := h.course

theorem Renamed.announce (h : Renamed r known cs ds s t) :
    Renamed r known cs ds s.announce t.announce where
  branch := h.branch
  config := h.config
  cancellation := h.cancellation
  stats := h.stats
  course := by
    rw [Search.announce, Search.announce, course_record, course_record, h.course,
      List.map_append]
    rfl

/-! ## Simplification -/

section

variable (hr : Renaming r known cs ds)

include hr

theorem Renamed.infer (h : Renamed r known cs ds s t) {ls ms : List Literal}
    (hperm : (ls.map (Literal.rename r)).Perm ms) (hnodup : (ls.map Literal.var).Nodup)
    (hremains : ∀ l ∈ ls, Remains cs s.branch.binding l) :
    ∃ above beyond, s.infer ls = .ok above ∧ t.infer ms = .ok beyond ∧
      Renamed r known cs ds above beyond := by
  obtain ⟨above, beyond, habove, hbeyond, hbranch⟩ := h.branch.infer hr hperm hnodup hremains
  refine ⟨_, _, infer_eq_ok habove, infer_eq_ok hbeyond, hbranch, h.config, h.cancellation, ?_,
    h.course⟩
  rw [h.stats, ← hperm.length_eq, List.length_map]

theorem Renamed.inferBatch (h : Renamed r known cs ds s t) (record : Nat → LogRecord)
    (hsame : ∀ n, (record n).rename r = record n) {ls ms : List Literal}
    (hperm : (ls.map (Literal.rename r)).Perm ms) (hnodup : (ls.map Literal.var).Nodup)
    (hremains : ∀ l ∈ ls, Remains cs s.branch.binding l) :
    ∃ above beyond, s.inferBatch record ls = .ok above ∧ t.inferBatch record ms = .ok beyond ∧
      Renamed r known cs ds above beyond := by
  unfold Search.inferBatch
  rw [← hperm.isEmpty_eq, ← hperm.length_eq, List.isEmpty_map, List.length_map]
  cases hempty : ls.isEmpty with
  | true => exact ⟨s, t, rfl, rfl, h⟩
  | false =>
      have hrecord := h.record (record ls.length)
      rw [hsame] at hrecord
      exact hrecord.infer hr hperm hnodup hremains

theorem Renamed.inferPures (h : Renamed r known cs ds s t) :
    ∃ ls ms, (ls.map (Literal.rename r)).Perm ms ∧
      (if s.config.pureLiteralElimination then s.branch.pureLiterals else []) = ls ∧
      (if t.config.pureLiteralElimination then t.branch.pureLiterals else []) = ms ∧
      ∃ above beyond, s.inferBatch .eliminating ls = .ok above ∧
        t.inferBatch .eliminating ms = .ok beyond ∧ Renamed r known cs ds above beyond := by
  rw [← h.config.pureLiteralElimination]
  cases hpure : s.config.pureLiteralElimination with
  | false => exact ⟨[], [], .refl _, rfl, rfl, s, t, rfl, rfl, h⟩
  | true =>
      have hperm := h.branch.pureLiterals_perm hr
      obtain ⟨hnodup, hremains⟩ := h.branch.of_left.batch_nodup (Or.inr ⟨hpure, rfl⟩)
      exact ⟨_, _, hperm, rfl, rfl,
        h.inferBatch hr .eliminating (fun _ => rfl) hperm hnodup hremains⟩

theorem Renamed.round (h : Renamed r known cs ds s t) :
    ∃ result above beyond, s.round = .ok (result, above) ∧ t.round = .ok (result, beyond) ∧
      Renamed r known cs ds above beyond := by
  cases hfalsified : s.branch.hasFalsified with
  | true =>
      have hother := h.branch.hasFalsified_eq hr ▸ hfalsified
      exact ⟨.conflict, s, t, round_of_conflicting (Or.inl hfalsified),
        round_of_conflicting (Or.inl hother), h⟩
  | false =>
      obtain ⟨hs, ht⟩ | ⟨units, others, hunits, hothers, hperm⟩ := h.branch.unitLiterals hr
      · exact ⟨.conflict, s, t, round_of_conflicting (Or.inr hs),
          round_of_conflicting (Or.inr ht), h⟩
      have hother : t.branch.hasFalsified = false := h.branch.hasFalsified_eq hr ▸ hfalsified
      have hbatch : Branch.Batch true s.branch units := Or.inl hunits
      obtain ⟨hnodup, hremains⟩ := h.branch.of_left.batch_nodup hbatch
      obtain ⟨mid, middle, hmid, hmiddle, hrenamed⟩ :=
        h.inferBatch hr .propagating (fun _ => rfl) hperm hnodup hremains
      have hround := round_of_units hfalsified hunits hmid
      have hcounterpart := round_of_units hother hothers hmiddle
      rw [← hrenamed.branch.hasFalsified_eq hr] at hcounterpart
      cases hagain : mid.branch.hasFalsified with
      | true =>
          rw [hagain, if_pos rfl] at hround hcounterpart
          exact ⟨.conflict, mid, middle, hround, hcounterpart, hrenamed⟩
      | false =>
          rw [hagain, if_neg Bool.false_ne_true] at hround hcounterpart
          obtain ⟨pures, counterparts, hpuresPerm, hpures, hcounterparts, above, beyond, habove,
            hbeyond, hlast⟩ := hrenamed.inferPures hr
          simp only [hpures, habove, Except.map] at hround
          simp only [hcounterparts, hbeyond, Except.map, ← hperm.isEmpty_eq,
            ← hpuresPerm.isEmpty_eq, List.isEmpty_map] at hcounterpart
          exact ⟨_, above, beyond, hround, hcounterpart, hlast⟩

theorem Renamed.simplifyWithin (h : Renamed r known cs ds s t) {rounds : Nat} {changed : Bool}
    {result : Simplified} {above : Search}
    (hs : s.simplifyWithin changed rounds = .ok (result, above)) :
    ∃ beyond, t.simplifyWithin changed rounds = .ok (result, beyond) ∧
      Renamed r known cs ds above beyond := by
  induction rounds generalizing s t changed with
  | zero => cases hs
  | succ rounds ih =>
      obtain ⟨outcome, mid, middle, hmid, hmiddle, hrenamed⟩ := h.round hr
      rw [Search.simplifyWithin] at hs ⊢
      rw [hmid] at hs
      rw [hmiddle]
      cases outcome with
      | conflict =>
          cases hs
          exact ⟨middle, rfl, hrenamed⟩
      | rest =>
          cases hs
          exact ⟨middle, rfl, hrenamed⟩
      | progress => exact ih hrenamed hs

theorem Renamed.simplify (h : Renamed r known cs ds s t) :
    ∃ result above beyond, s.simplify = .ok (result, above) ∧ t.simplify = .ok (result, beyond) ∧
      SimplifyOutcome s result above ∧ Renamed r known cs ds above beyond := by
  obtain ⟨result, above, habove, houtcome⟩ := simplify_exists h.branch.of_left
  obtain ⟨beyond, hbeyond, hrenamed⟩ := h.simplifyWithin hr habove
  rw [h.branch.size_eq hr] at hbeyond
  exact ⟨result, above, beyond, habove, hbeyond, houtcome, hrenamed⟩

end

/-! ## Steps -/

/-- Steps that lead to corresponding searches, and to the same kind of end if they end them. -/
inductive RenamedSteps (r : Variable → Variable) (known : Set Variable) (cs ds : List Clause) :
    Step → Step → Prop
  | continues {s t : Search} (h : Renamed r known cs ds s t) :
      RenamedSteps r known cs ds (.continues s) (.continues t)
  | satisfied {s t : Search} (h : Renamed r known cs ds s t) (hs : s.branch.isSatisfied = true) :
      RenamedSteps r known cs ds (.ends (.satisfied s.model) s) (.ends (.satisfied t.model) t)
  | unsatisfiable {s t : Search} (h : Renamed r known cs ds s t) :
      RenamedSteps r known cs ds (.ends .unsatisfiable s) (.ends .unsatisfiable t)
  | cancelled {s t : Search} {decisions : Nat} (h : Renamed r known cs ds s t) :
      RenamedSteps r known cs ds (.ends (.cancelled decisions) s) (.ends (.cancelled decisions) t)

section

variable (hr : Renaming r known cs ds)

include hr

theorem Renamed.decide (h : Renamed r known cs ds s t) {l : Literal} (hknown : l.var ∈ known)
    (hl : s.branch.binding.binds l.var = false) (flipped : Bool) :
    ∃ step other, s.decide l flipped = .ok step ∧ t.decide (l.rename r) flipped = .ok other ∧
      RenamedSteps r known cs ds step other := by
  unfold Search.decide
  rw [h.cancellation, h.stats]
  cases hrequested : t.cancellation.requested t.stats.decisions with
  | true => exact ⟨_, _, rfl, rfl, .cancelled (h.record (.cancelled t.stats))⟩
  | false =>
      obtain ⟨above, beyond, habove, hbeyond, hbranch⟩ := h.branch.choose hr hknown hl flipped
      simp only [habove, hbeyond, h.branch.level_eq, Bool.false_eq_true, if_false, bind,
        Except.bind]
      have hrecord := h.record (.decision l (t.branch.level + 1) flipped)
      exact ⟨_, _, rfl, rfl,
        .continues ⟨hbranch, h.config, h.cancellation, rfl, hrecord.course⟩⟩

theorem Renamed.backtrack (h : Renamed r known cs ds s t) :
    ∃ step other, s.backtrack = .ok step ∧ t.backtrack = .ok other ∧
      RenamedSteps r known cs ds step other := by
  have hon : ∀ {b c : Branch}, Branch.Renamed r known cs ds b c →
      Renamed r known cs ds { s with branch := b } { t with branch := c } :=
    fun hbranch => ⟨hbranch, h.config, h.cancellation, h.stats, h.course⟩
  unfold Search.backtrack
  obtain ⟨hs, ht⟩ | ⟨l, before, below, hs, ht, hknown, hl, hbranch⟩ := h.branch.unwind
  · have hrecord : LogRecord.unsatisfiable s.stats = .unsatisfiable t.stats := by rw [h.stats]
    rw [hs, ht, hrecord]
    exact ⟨_, _, rfl, rfl, .unsatisfiable ((hon .root).record (.unsatisfiable t.stats))⟩
  · rw [hs, ht]
    exact ((hon hbranch).record (.backtracking l)).decide hr (l := -l) hknown hl true

theorem Renamed.step (h : Renamed r known cs ds s t) :
    ∃ step other, s.step = .ok step ∧ t.step = .ok other ∧
      RenamedSteps r known cs ds step other := by
  obtain ⟨result, above, beyond, habove, hbeyond, houtcome, hrenamed⟩ := h.simplify hr
  cases result with
  | conflict =>
      rw [step_of_conflict habove, step_of_conflict hbeyond]
      exact hrenamed.countConflict.backtrack hr
  | rest changed =>
      have hsame := hrenamed.branch.isSatisfied_eq hr
      cases hsatisfied : above.branch.isSatisfied with
      | true =>
          rw [step_of_satisfied habove hsatisfied,
            step_of_satisfied hbeyond (hsame ▸ hsatisfied), ← hrenamed.stats]
          exact ⟨_, _, rfl, rfl,
            .satisfied (hrenamed.record (.satisfiable above.stats)) hsatisfied⟩
      | false =>
          have hof := hrenamed.branch.of_left
          cases hv : above.branch.nextVariable? with
          | none =>
              rw [hof.isSatisfied_of_nextVariable?_eq_none hv
                (houtcome.rest changed rfl).hasFalsified] at hsatisfied
              contradiction
          | some v =>
              have hother := hrenamed.branch.nextVariable?_eq hr
              rw [hv, Option.map_some] at hother
              obtain ⟨⟨l, hvar, hremains⟩, _⟩ := hof.nextVariable?_eq_some hv
              have hknown := hr.known_of_remains hremains
              rw [hvar] at hknown
              rw [step_of_nextVariable habove hsatisfied hv,
                step_of_nextVariable hbeyond (hsame ▸ hsatisfied) hother]
              exact hrenamed.decide hr (l := v.positive) hknown (hvar ▸ hremains.1) false

theorem Renamed.runWithin (h : Renamed r known cs ds s t) {fuel : Nat} {verdict : Verdict}
    {last : Search} (hs : s.runWithin fuel = .ok (verdict, last)) :
    ∃ other final, t.runWithin fuel = .ok (other, final) ∧
      RenamedSteps r known cs ds (.ends verdict last) (.ends other final) := by
  induction fuel generalizing s t with
  | zero => cases hs
  | succ fuel ih =>
      obtain ⟨step, other, hstep, hother, hsteps⟩ := h.step hr
      rw [Search.runWithin_succ] at hs ⊢
      rw [hstep] at hs
      rw [hother]
      cases hsteps with
      | continues hnext => exact ih hnext hs
      | satisfied hend hsatisfied =>
          cases hs
          exact ⟨_, _, rfl, .satisfied hend hsatisfied⟩
      | unsatisfiable hend =>
          cases hs
          exact ⟨_, _, rfl, .unsatisfiable hend⟩
      | cancelled hend =>
          cases hs
          exact ⟨_, _, rfl, .cancelled hend⟩

/-- Corresponding searches come to corresponding ends. -/
theorem Renamed.solve (h : Renamed r known cs ds s t) {verdict : Verdict} {last : Search}
    (hs : s.solve = .ok (verdict, last)) :
    ∃ other final, t.solve = .ok (other, final) ∧
      RenamedSteps r known cs ds (.ends verdict last) (.ends other final) := by
  have hsize : s.treeSize = t.treeSize := by
    unfold treeSize
    rw [h.branch.size_eq hr]
  unfold Search.solve at hs ⊢
  rw [hsize] at hs
  exact h.announce.runWithin hr hs

end

/-! ## The beginning -/

theorem course_start (f : Formula) (starting : Binding) (config : SearchConfig)
    (cancellation : Cancellation) : (start f starting config cancellation).course = [] := by
  have hlog : ∀ entries, (startingLog config entries).toList.filter LogRecord.isMove = [] := by
    intro entries
    unfold startingLog mergeRecord?
    split
    · cases OccurrenceIndex.chunks entries config.indexWorkers with
      | none => rfl
      | some parts => rfl
    · rfl
  exact hlog _

theorem renamed_start (f g : Formula) (a b : Binding) {config other : SearchConfig}
    (hconfig : config.Alike other) (cancellation : Cancellation) :
    Renamed r known (startingClauses f a) (startingClauses g b)
      (start f a config cancellation) (start g b other cancellation) where
  branch := by
    rw [branch_start, branch_start]
    exact .root
  config := hconfig
  cancellation := rfl
  stats := rfl
  course := by
    rw [course_start, course_start]
    rfl

end Search

end SatSearch
