import SatSearch.Search
import SatSearch.Proofs.Situation

/-!
# Simplification

Simplifying assigns batches of literals: the forced ones, and the pure ones if they are asked for.
`Branch.Simplifies` is the relation between a branch and what such batches make of it.  A batch
that is not empty binds a remaining variable, so simplification comes to an end within its bound;
it ends in a conflict or at rest.
-/

namespace SatSearch

variable {clauses : List Clause} {b last : Branch}

/-! ## Remaining variables -/

/-- The variables of the literals that remain. -/
def remainingVariables (clauses : List Clause) (b : Binding) : Finset Variable :=
  ((((clauses.filter fun c => c.Open b).flatMap Clause.literals).map Literal.var).filter
    fun v => !b.binds v).toFinset

theorem mem_remainingVariables {b : Binding} {v : Variable} :
    v ∈ remainingVariables clauses b ↔ ∃ l, l.var = v ∧ Remains clauses b l := by
  unfold remainingVariables Remains
  simp only [List.mem_toFinset, List.mem_filter, List.mem_map, List.mem_flatMap,
    decide_eq_true_eq, Bool.not_eq_true']
  constructor
  · rintro ⟨⟨l, ⟨c, ⟨hc, hopen⟩, hl⟩, rfl⟩, hunbound⟩
    exact ⟨l, rfl, hunbound, c, hc, hopen, hl⟩
  · rintro ⟨l, rfl, hunbound, c, hc, hopen, hl⟩
    exact ⟨⟨l, ⟨c, ⟨hc, hopen⟩, hl⟩, rfl⟩, hunbound⟩

theorem Remains.of_assign {b : Binding} {l m : Literal} (hl : b.binds l.var = false)
    (h : Remains clauses (b.assign l) m) : Remains clauses b m := by
  rcases h with ⟨hunbound, c, hc, hopen, hm⟩
  rw [← Bool.not_eq_true, Binding.binds_assign, not_or, Bool.not_eq_true] at hunbound
  refine ⟨hunbound.2, c, hc, ?_, hm⟩
  intro k hk htrue
  exact hopen k hk ((Binding.value?_assign_eq_true_iff hl).mpr (Or.inr htrue))

namespace Branch

theorem Of.remains_of_assignEach (h : Of clauses b)
    {sequence : List (Literal × Cause)} (hlast : b.assignEach sequence = .ok last) {m : Literal}
    (hm : Remains clauses last.binding m) : Remains clauses b.binding m := by
  induction sequence generalizing b with
  | nil =>
      cases hlast
      exact hm
  | cons step rest ih =>
      rcases assignEach_cons_eq_ok hlast with ⟨next, hnext, htail⟩
      have hunbound := Branch.assign_eq_ok hnext
      rcases h.assign_eq_ok hnext with ⟨_, hbinding, _⟩
      have hback := ih (h.assign hnext) htail
      rw [hbinding] at hback
      exact hback.of_assign hunbound

theorem Of.card_remainingVariables_le_size (h : Of clauses b) :
    (remainingVariables clauses b.binding).card ≤ b.formula.index.size := by
  have hsubset : remainingVariables clauses b.binding ⊆
      (b.formula.index.literals.map Literal.var).toFinset := by
    intro v hv
    rcases mem_remainingVariables.mp hv with ⟨l, hvar, hremains⟩
    have hl : l ∈ b.formula.index.literals :=
      OccurrenceIndex.mem_literals.mpr (h.records_iff_remains.mpr hremains)
    exact List.mem_toFinset.mpr (List.mem_map.mpr ⟨l, hl, hvar⟩)
  calc
    (remainingVariables clauses b.binding).card ≤
        (b.formula.index.literals.map Literal.var).toFinset.card :=
      Finset.card_le_card hsubset
    _ ≤ (b.formula.index.literals.map Literal.var).length := List.toFinset_card_le _
    _ = b.formula.index.size := by
      rw [List.length_map, OccurrenceIndex.length_literals]

/-! ## Batches of inferences -/

/-- The literals are to be inferred next. -/
def Batch (pure : Bool) (b : Branch) (ls : List Literal) : Prop :=
  b.unitLiterals = .ok (some ls) ∨ pure = true ∧ ls = b.pureLiterals

/-- Assigning one batch after the other leads from the first branch to the second. -/
inductive Simplifies (pure : Bool) : Branch → Branch → Prop
  | refl (b : Branch) : Simplifies pure b b
  | batch {b mid last : Branch} {ls : List Literal} (hbatch : Batch pure b ls)
      (hmid : b.assignAll ls .inference = .ok mid) (hlast : Simplifies pure mid last) :
      Simplifies pure b last

/-- The clauses and the binding contradict each other. -/
def Conflicting (b : Branch) : Prop :=
  b.hasFalsified = true ∨ b.unitLiterals = .ok none

/-- Nothing is left to infer. -/
structure AtRest (pure : Bool) (b : Branch) : Prop where
  hasFalsified : b.hasFalsified = false
  unitLiterals : b.unitLiterals = .ok (some [])
  pureLiterals : pure = true → b.pureLiterals = []

theorem Simplifies.trans {pure : Bool} {b mid last : Branch} (hfirst : Simplifies pure b mid)
    (hsecond : Simplifies pure mid last) : Simplifies pure b last := by
  induction hfirst with
  | refl => exact hsecond
  | batch hbatch hmid _ ih => exact .batch hbatch hmid (ih hsecond)

theorem Of.unitLiterals_eq_some (h : Of clauses b) {ls : List Literal}
    (hls : b.unitLiterals = .ok (some ls)) :
    (ls.map Literal.var).Nodup ∧ (∀ l, l ∈ ls ↔ Forced clauses b.binding l) ∧
      ∀ l, Forced clauses b.binding l → ¬Forced clauses b.binding (-l) := by
  rcases h.unitLiterals_cases with ⟨hnone, _⟩ | ⟨found, hfound, hrest⟩
  · rw [hls] at hnone
    cases hnone
  · rw [hls] at hfound
    cases hfound
    exact hrest

theorem Of.batch_nodup {pure : Bool} (h : Of clauses b) {ls : List Literal}
    (hbatch : Batch pure b ls) :
    (ls.map Literal.var).Nodup ∧ ∀ l ∈ ls, Remains clauses b.binding l := by
  rcases hbatch with hunits | ⟨_, rfl⟩
  · rcases h.unitLiterals_eq_some hunits with ⟨hnodup, hmem, _⟩
    exact ⟨hnodup, fun l hl => ((hmem l).mp hl).remains⟩
  · exact ⟨h.nodup_pureLiterals, fun l hl => (h.mem_pureLiterals.mp hl).1⟩

theorem Of.assignAll_exists (h : Of clauses b) {ls : List Literal}
    (hnodup : (ls.map Literal.var).Nodup) (hunbound : ∀ l ∈ ls, b.binding.binds l.var = false)
    (cause : Cause) : ∃ last, b.assignAll ls cause = .ok last := by
  rw [assignAll_eq_assignEach]
  apply h.assignEach_exists
  · simpa [List.map_map, Function.comp_def] using hnodup
  · intro step hstep
    rcases List.mem_map.mp hstep with ⟨l, hl, rfl⟩
    exact hunbound l hl

theorem Of.batch_exists {pure : Bool} (h : Of clauses b) {ls : List Literal}
    (hbatch : Batch pure b ls) : ∃ last, b.assignAll ls .inference = .ok last := by
  rcases h.batch_nodup hbatch with ⟨hnodup, hremains⟩
  exact h.assignAll_exists hnodup (fun l hl => (hremains l hl).1) .inference

theorem Of.of_assignAll (h : Of clauses b) {ls : List Literal} {cause : Cause}
    (hlast : b.assignAll ls cause = .ok last) : Of clauses last := by
  rw [assignAll_eq_assignEach] at hlast
  exact (h.assignEach_eq_ok hlast).1

theorem Of.value?_assignAll (h : Of clauses b) {ls : List Literal} {cause : Cause}
    (hlast : b.assignAll ls cause = .ok last) {l : Literal} :
    last.binding.value? l = some true ↔ l ∈ ls ∨ b.binding.value? l = some true := by
  obtain ⟨newer, hnewer, hliterals, _⟩ := h.newer_of_assignAll hlast
  rw [(h.of_assignAll hlast).tracks.value?_iff, h.tracks.value?_iff, hnewer, List.map_append,
    hliterals, List.mem_append, List.mem_reverse]

theorem Of.level_assignAll (h : Of clauses b) {ls : List Literal}
    (hlast : b.assignAll ls .inference = .ok last) : last.level = b.level := by
  obtain ⟨newer, hnewer, _, hcause⟩ := h.newer_of_assignAll hlast
  have hnone : newer.countP (fun e => e.cause.isDecision) = 0 := by
    rw [List.countP_eq_zero]
    intro e he
    rw [hcause e he]
    exact Bool.false_ne_true
  unfold level Trail.level
  rw [hnewer, List.countP_append, hnone, Nat.zero_add]

theorem Of.unwind_assignAll (h : Of clauses b) {ls : List Literal}
    (hlast : b.assignAll ls .inference = .ok last) : last.unwind = b.unwind := by
  rw [assignAll_eq_assignEach] at hlast
  induction ls generalizing b with
  | nil =>
      cases hlast
      rfl
  | cons l ls ih =>
      obtain ⟨next, hnext, htail⟩ := assignEach_cons_eq_ok hlast
      rw [ih (h.assign hnext) htail, h.unwind_assign hnext, if_neg Cause.noConfusion]

theorem Of.of_simplifies {pure : Bool} (h : Of clauses b)
    (hlast : Simplifies pure b last) : Of clauses last := by
  induction hlast with
  | refl => exact h
  | batch _ hmid _ ih => exact ih (h.of_assignAll hmid)

/-- The literals that simplification makes true are added to the trail as inferences. -/
theorem Of.steps_of_simplifies {pure : Bool} (h : Of clauses b)
    (hlast : Simplifies pure b last) :
    ∃ ls : List Literal, b.assignAll ls .inference = .ok last ∧
      ∀ l ∈ ls, Remains clauses b.binding l := by
  induction hlast with
  | refl b => exact ⟨[], rfl, by simp⟩
  | @batch b mid last ls hbatch hmid _ ih =>
      rcases ih (h.of_assignAll hmid) with ⟨rest, hrest, hremains⟩
      rw [assignAll_eq_assignEach] at hmid hrest
      refine ⟨ls ++ rest, ?_, ?_⟩
      · rw [assignAll_eq_assignEach, List.map_append, assignEach_append hmid, hrest]
      · intro l hl
        rcases List.mem_append.mp hl with hl | hl
        · exact (h.batch_nodup hbatch).2 l hl
        · exact h.remains_of_assignEach hmid (hremains l hl)

theorem Of.remainingVariables_subset (h : Of clauses b)
    {sequence : List (Literal × Cause)} (hlast : b.assignEach sequence = .ok last) :
    remainingVariables clauses last.binding ⊆ remainingVariables clauses b.binding := by
  intro v hv
  rcases mem_remainingVariables.mp hv with ⟨l, hvar, hremains⟩
  exact mem_remainingVariables.mpr ⟨l, hvar, h.remains_of_assignEach hlast hremains⟩

/-- Binding a remaining variable leaves fewer of them. -/
theorem Of.card_remainingVariables_lt (h : Of clauses b)
    {sequence : List (Literal × Cause)} (hlast : b.assignEach sequence = .ok last)
    {step : Literal × Cause} (hstep : step ∈ sequence)
    (hvar : step.1.var ∈ remainingVariables clauses b.binding) :
    (remainingVariables clauses last.binding).card <
      (remainingVariables clauses b.binding).card := by
  apply Finset.card_lt_card
  refine (Finset.ssubset_iff_of_subset (h.remainingVariables_subset hlast)).mpr
    ⟨step.1.var, hvar, ?_⟩
  intro hstill
  rcases mem_remainingVariables.mp hstill with ⟨m, hm, hremains⟩
  rcases h.assignEach_eq_ok hlast with ⟨hof, hsteps, _⟩
  have hbound : last.binding.binds step.1.var = true := by
    have hin : step ∈ last.steps := by
      rw [hsteps]
      exact List.mem_append_left _ (List.mem_reverse.mpr hstep)
    rcases List.mem_map.mp hin with ⟨e, he, heq⟩
    exact hof.tracks.binds_iff.mpr ⟨e, he, by rw [← heq]⟩
  rw [← hm, hremains.1] at hbound
  contradiction

end Branch

/-! ## Rounds -/

namespace Search

/-- The later search is about the same problem. -/
structure SameProblem (s next : Search) : Prop where
  config : next.config = s.config
  cancellation : next.cancellation = s.cancellation
  scope : next.scope = s.scope

theorem SameProblem.refl (s : Search) : SameProblem s s :=
  ⟨rfl, rfl, rfl⟩

theorem SameProblem.trans {s mid next : Search} (hfirst : SameProblem s mid)
    (hsecond : SameProblem mid next) : SameProblem s next where
  config := hsecond.config.trans hfirst.config
  cancellation := hsecond.cancellation.trans hfirst.cancellation
  scope := hsecond.scope.trans hfirst.scope

/-- The later search has made the same decisions and met the same conflicts. -/
structure Keeps (s next : Search) : Prop extends SameProblem s next where
  decisions : next.stats.decisions = s.stats.decisions
  conflicts : next.stats.conflicts = s.stats.conflicts

theorem Keeps.refl (s : Search) : Keeps s s :=
  ⟨SameProblem.refl s, rfl, rfl⟩

theorem Keeps.trans {s mid next : Search} (hfirst : Keeps s mid) (hsecond : Keeps mid next) :
    Keeps s next where
  toSameProblem := hfirst.toSameProblem.trans hsecond.toSameProblem
  decisions := hsecond.decisions.trans hfirst.decisions
  conflicts := hsecond.conflicts.trans hfirst.conflicts

variable {s : Search}

theorem infer_eq_ok {ls : List Literal} {last : Branch}
    (h : s.branch.assignAll ls .inference = .ok last) :
    s.infer ls = .ok
      { s with
        branch := last
        stats := { s.stats with propagations := s.stats.propagations + ls.length } } := by
  unfold infer
  rw [h]
  rfl

theorem inferBatch_eq_ok (r : Nat → LogRecord) {ls : List Literal} {last : Branch}
    (h : s.branch.assignAll ls .inference = .ok last) :
    ∃ next, s.inferBatch r ls = .ok next ∧ next.branch = last ∧ Keeps s next := by
  cases ls with
  | nil =>
      cases h
      exact ⟨s, rfl, rfl, Keeps.refl s⟩
  | cons l ls =>
      have hrecord : (s.record (r (l :: ls).length)).branch.assignAll (l :: ls) .inference =
          .ok last := h
      exact ⟨_, infer_eq_ok hrecord, rfl, ⟨rfl, rfl, rfl⟩, rfl, rfl⟩

theorem round_of_conflicting (h : s.branch.Conflicting) : s.round = .ok (.conflict, s) := by
  unfold round
  rcases h with hfalsified | hnone
  · simp only [hfalsified, if_true]
    rfl
  · cases hfalsified : s.branch.hasFalsified with
    | true =>
        simp only [if_true]
        rfl
    | false =>
        simp only [Bool.false_eq_true, if_false, hnone, bind, Except.bind]
        rfl

/-- What a round does once the forced literals are known not to contradict each other. -/
theorem round_of_units {units : List Literal} {mid : Search}
    (hfalsified : s.branch.hasFalsified = false)
    (hunits : s.branch.unitLiterals = .ok (some units))
    (hmid : s.inferBatch .propagating units = .ok mid) :
    s.round =
      if mid.branch.hasFalsified then .ok (.conflict, mid)
      else
        let pures :=
          if mid.config.pureLiteralElimination then mid.branch.pureLiterals else []
        (mid.inferBatch .eliminating pures).map fun next =>
          (if units.isEmpty && pures.isEmpty then .rest else .progress, next) := by
  unfold round
  simp only [hfalsified, Bool.false_eq_true, if_false, hunits, hmid, bind, Except.bind]
  split
  · rfl
  · rfl

/-- What a round can come to. -/
structure RoundOutcome (clauses : List Clause) (s : Search) (result : RoundResult)
    (next : Search) : Prop where
  keeps : Keeps s next
  simplifies : Branch.Simplifies s.config.pureLiteralElimination s.branch next.branch
  conflict : result = .conflict → next.branch.Conflicting
  rest : result = .rest → next = s ∧ s.branch.AtRest s.config.pureLiteralElimination
  progress : result = .progress →
    (remainingVariables clauses next.branch.binding).card <
      (remainingVariables clauses s.branch.binding).card

theorem card_lt_of_batches {mid last : Branch} {pure : Bool} (h : Branch.Of clauses s.branch)
    {units pures : List Literal} (hunits : Branch.Batch pure s.branch units)
    (hmid : s.branch.assignAll units .inference = .ok mid)
    (hpures : pures ≠ [] → Branch.Batch pure mid pures)
    (hlast : mid.assignAll pures .inference = .ok last)
    (hsome : ¬(units = [] ∧ pures = [])) :
    (remainingVariables clauses last.binding).card <
      (remainingVariables clauses s.branch.binding).card := by
  have hof := h.of_assignAll hmid
  rw [Branch.assignAll_eq_assignEach] at hmid hlast
  cases units with
  | cons l ls =>
      have hvar : l.var ∈ remainingVariables clauses s.branch.binding :=
        mem_remainingVariables.mpr ⟨l, rfl, (h.batch_nodup hunits).2 l List.mem_cons_self⟩
      have hfirst := h.card_remainingVariables_lt hmid (List.mem_cons_self) hvar
      have hsecond := Finset.card_le_card (hof.remainingVariables_subset hlast)
      omega
  | nil =>
      cases hmid
      cases pures with
      | nil => exact absurd ⟨rfl, rfl⟩ hsome
      | cons l ls =>
          have hbatch := hpures (List.cons_ne_nil l ls)
          have hvar : l.var ∈ remainingVariables clauses s.branch.binding :=
            mem_remainingVariables.mpr ⟨l, rfl, (h.batch_nodup hbatch).2 l List.mem_cons_self⟩
          exact h.card_remainingVariables_lt hlast (List.mem_cons_self) hvar

theorem RoundOutcome.of_conflict {next : Search} (hkeeps : Keeps s next)
    (hsimplifies : Branch.Simplifies s.config.pureLiteralElimination s.branch next.branch)
    (hconflict : next.branch.Conflicting) : RoundOutcome clauses s .conflict next where
  keeps := hkeeps
  simplifies := hsimplifies
  conflict := fun _ => hconflict
  rest := RoundResult.noConfusion
  progress := RoundResult.noConfusion

/-- The pure literals, if they are asked for, can be inferred. -/
theorem inferPures_exists (h : Branch.Of clauses s.branch) {pures : List Literal}
    (hpures : (if s.config.pureLiteralElimination then s.branch.pureLiterals else []) = pures) :
    ∃ next, s.inferBatch .eliminating pures = .ok next ∧ Keeps s next ∧
      (pures ≠ [] → Branch.Batch s.config.pureLiteralElimination s.branch pures) ∧
      s.branch.assignAll pures .inference = .ok next.branch ∧
      Branch.Simplifies s.config.pureLiteralElimination s.branch next.branch := by
  have hbatch : pures ≠ [] →
      Branch.Batch s.config.pureLiteralElimination s.branch pures := by
    intro hne
    by_cases hpure : s.config.pureLiteralElimination = true
    · rw [if_pos hpure] at hpures
      exact Or.inr ⟨hpure, hpures.symm⟩
    · rw [if_neg hpure] at hpures
      exact absurd hpures.symm hne
  by_cases hempty : pures = []
  · subst hempty
    exact ⟨s, rfl, Keeps.refl s, hbatch, rfl, .refl s.branch⟩
  · rcases h.batch_exists (hbatch hempty) with ⟨last, hlast⟩
    rcases inferBatch_eq_ok .eliminating hlast with ⟨next, hnext, hbranch, hkeeps⟩
    rw [← hbranch] at hlast
    exact ⟨next, hnext, hkeeps, hbatch, hlast, .batch (hbatch hempty) hlast (.refl _)⟩

/-- A round that gets past its forced literals. -/
theorem round_past_units (h : Branch.Of clauses s.branch) {units : List Literal} {mid : Search}
    (hfalsified : s.branch.hasFalsified = false)
    (hunits : s.branch.unitLiterals = .ok (some units))
    (hmid : s.inferBatch .propagating units = .ok mid)
    (hassign : s.branch.assignAll units .inference = .ok mid.branch) (hkeeps : Keeps s mid)
    (hagain : mid.branch.hasFalsified = false) :
    ∃ result next, s.round = .ok (result, next) ∧ RoundOutcome clauses s result next := by
  have hbatch : Branch.Batch s.config.pureLiteralElimination s.branch units := Or.inl hunits
  have hof := h.of_assignAll hassign
  have hround := round_of_units hfalsified hunits hmid
  rw [hagain, if_neg Bool.false_ne_true] at hround
  simp only at hround
  generalize hpures : (if mid.config.pureLiteralElimination = true then
    mid.branch.pureLiterals else []) = pures at hround
  obtain ⟨next, hnext, hkeepsNext, hbatchPures, hlast, hsimplifies⟩ :=
    inferPures_exists hof hpures
  rw [hkeeps.config] at hbatchPures hsimplifies
  rw [hnext] at hround
  by_cases hempty : units = [] ∧ pures = []
  · rcases hempty with ⟨hunitsNil, hpuresNil⟩
    subst hunitsNil hpuresNil
    cases hmid
    cases hnext
    refine ⟨.rest, s, hround, Keeps.refl s, .refl _, RoundResult.noConfusion, ?_,
      RoundResult.noConfusion⟩
    intro _
    refine ⟨rfl, hfalsified, hunits, ?_⟩
    intro hpure
    rwa [if_pos hpure] at hpures
  · have hprogress : (units.isEmpty && pures.isEmpty) = false := by
      rw [← Bool.not_eq_true, Bool.and_eq_true, List.isEmpty_iff, List.isEmpty_iff]
      exact hempty
    simp only [Except.map, hprogress, Bool.false_eq_true, if_false] at hround
    exact ⟨.progress, next, hround, hkeeps.trans hkeepsNext, .batch hbatch hassign hsimplifies,
      RoundResult.noConfusion, RoundResult.noConfusion,
      fun _ => card_lt_of_batches h hbatch hassign hbatchPures hlast hempty⟩

theorem round_exists (h : Branch.Of clauses s.branch) :
    ∃ result next, s.round = .ok (result, next) ∧ RoundOutcome clauses s result next := by
  cases hfalsified : s.branch.hasFalsified with
  | true =>
      have hconflict : s.branch.Conflicting := Or.inl hfalsified
      exact ⟨.conflict, s, round_of_conflicting hconflict,
        .of_conflict (Keeps.refl s) (.refl _) hconflict⟩
  | false =>
      rcases h.unitLiterals_cases with ⟨hnone, _⟩ | ⟨units, hunits, _⟩
      · have hconflict : s.branch.Conflicting := Or.inr hnone
        exact ⟨.conflict, s, round_of_conflicting hconflict,
          .of_conflict (Keeps.refl s) (.refl _) hconflict⟩
      · have hbatch : Branch.Batch s.config.pureLiteralElimination s.branch units :=
          Or.inl hunits
        rcases h.batch_exists hbatch with ⟨branch, hassign⟩
        rcases inferBatch_eq_ok .propagating hassign with ⟨mid, hmid, hbranch, hkeeps⟩
        subst hbranch
        cases hagain : mid.branch.hasFalsified with
        | true =>
            have hround := round_of_units hfalsified hunits hmid
            rw [hagain, if_pos rfl] at hround
            exact ⟨.conflict, mid, hround,
              .of_conflict hkeeps (.batch hbatch hassign (.refl _)) (Or.inl hagain)⟩
        | false => exact round_past_units h hfalsified hunits hmid hassign hkeeps hagain

/-- What simplification can come to. -/
structure SimplifyOutcome (s : Search) (result : Simplified) (next : Search) : Prop where
  keeps : Keeps s next
  simplifies : Branch.Simplifies s.config.pureLiteralElimination s.branch next.branch
  conflict : result = .conflict → next.branch.Conflicting
  rest : ∀ changed, result = .rest changed →
    next.branch.AtRest s.config.pureLiteralElimination

theorem simplifyWithin_exists (h : Branch.Of clauses s.branch) {rounds : Nat}
    (hrounds : (remainingVariables clauses s.branch.binding).card < rounds) (changed : Bool) :
    ∃ result next, s.simplifyWithin changed rounds = .ok (result, next) ∧
      SimplifyOutcome s result next := by
  induction rounds generalizing s changed with
  | zero => omega
  | succ rounds ih =>
      rcases round_exists h with ⟨result, mid, hround, houtcome⟩
      unfold simplifyWithin
      rw [hround]
      cases result with
      | conflict =>
          exact ⟨.conflict, mid, rfl, houtcome.keeps, houtcome.simplifies,
            fun _ => houtcome.conflict rfl, fun _ => Simplified.noConfusion⟩
      | rest =>
          rcases houtcome.rest rfl with ⟨rfl, hrest⟩
          exact ⟨.rest changed, mid, rfl, houtcome.keeps, houtcome.simplifies,
            Simplified.noConfusion, fun _ _ => hrest⟩
      | progress =>
          have hfewer := houtcome.progress rfl
          obtain ⟨final, next, hnext, hfinal⟩ :=
            ih (h.of_simplifies houtcome.simplifies) (by omega) true
          have hsimplifies := hfinal.simplifies
          have hrest := hfinal.rest
          rw [houtcome.keeps.config] at hsimplifies hrest
          exact ⟨final, next, hnext, houtcome.keeps.trans hfinal.keeps,
            houtcome.simplifies.trans hsimplifies, hfinal.conflict, hrest⟩

/-- Simplification comes to an end. -/
theorem simplify_exists (h : Branch.Of clauses s.branch) :
    ∃ result next, s.simplify = .ok (result, next) ∧ SimplifyOutcome s result next := by
  have hsize := h.card_remainingVariables_le_size
  exact simplifyWithin_exists h (by omega) false

end Search

end SatSearch
