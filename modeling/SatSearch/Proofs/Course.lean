import SatSearch.Proofs.Transcript

/-!
# The course of a search

Every step of a search simplifies first.  A step that goes on makes one decision from there: the
next variable is made true, or, out of a conflict, the newest untried decision is replaced by its
opposite.  A step that ends the search makes none.  What each step keeps, a whole run keeps; in
particular a run of `n` steps makes `n` decisions.
-/

namespace SatSearch

namespace Search

variable {clauses : List Clause} {s mid last final next : Search} {verdict : Verdict}

/-! ## One step -/

/-- The decision that a search makes once simplification has come to `b`, with the branch it is
made on. -/
inductive Turn (clauses : List Clause) (b : Branch) : Branch → Literal → Bool → Prop
  | descend {v : Variable} (hv : b.nextVariable? = some v) : Turn clauses b b v.positive false
  | flip {newer : List TrailEntry} {e : TrailEntry} {before : Branch}
      (hconflict : b.Conflicting) (htrail : b.trail.entries = newer ++ e :: before.trail.entries)
      (hsettled : Branch.Settled newer) (hcause : e.cause = .decision false)
      (hbefore : Branch.Of clauses before) : Turn clauses b before (-e.literal) true

theorem Turn.of {b before : Branch} {l : Literal} {flipped : Bool}
    (h : Turn clauses b before l flipped) (hb : Branch.Of clauses b) :
    Branch.Of clauses before := by
  cases h with
  | descend => exact hb
  | flip _ _ _ _ hbefore => exact hbefore

theorem step_eq_continues (h : Branch.Of clauses s.branch)
    (hstep : s.step = .ok (.continues next)) :
    SameProblem s next ∧ next.stats.decisions = s.stats.decisions + 1 ∧
      ∃ (b before : Branch) (l : Literal) (flipped : Bool),
        Branch.Simplifies s.config.pureLiteralElimination s.branch b ∧
        Turn clauses b before l flipped ∧
        before.assign l (.decision flipped) = .ok next.branch := by
  cases stepped_of_eq h hstep with
  | @descended c _ _ hc _ hv hdecided =>
      cases hdecided with
      | made hassign =>
          have hdecisions := congrArg Nat.succ hc.keeps.decisions
          refine ⟨hc.keeps.toSameProblem.trans ⟨rfl, rfl, rfl⟩, hdecisions, ?_⟩
          exact ⟨c.branch, c.branch, _, false, hc.simplifies, .descend hv, hassign⟩
  | @flipped c _ e before _ hc hconflict htrail hsettled hcause hbefore hdecided =>
      cases hdecided with
      | made hassign =>
          have hdecisions := congrArg Nat.succ hc.keeps.decisions
          refine ⟨hc.keeps.toSameProblem.trans ⟨rfl, rfl, rfl⟩, hdecisions, ?_⟩
          exact ⟨c.branch, before, -e.literal, true, hc.simplifies,
            .flip hconflict htrail hsettled hcause hbefore, hassign⟩

/-- A step that ends the search makes no decision.  A model is that of the satisfied branch which
simplification has come to. -/
theorem step_eq_ends (h : Branch.Of clauses s.branch)
    (hstep : s.step = .ok (.ends verdict final)) :
    SameProblem s final ∧ final.stats.decisions = s.stats.decisions ∧
      ∀ model, verdict = .satisfied model →
        Branch.Simplifies s.config.pureLiteralElimination s.branch final.branch ∧
        final.branch.isSatisfied = true ∧ model = final.model := by
  cases stepped_of_eq h hstep with
  | @satisfied c hc _ hsatisfied =>
      refine ⟨hc.keeps.toSameProblem.trans ⟨rfl, rfl, rfl⟩, hc.keeps.decisions, ?_⟩
      intro model hmodel
      cases hmodel
      exact ⟨hc.simplifies, hsatisfied, rfl⟩
  | descended hc _ _ hdecided =>
      cases hdecided
      exact ⟨hc.keeps.toSameProblem.trans ⟨rfl, rfl, rfl⟩, hc.keeps.decisions,
        fun _ => Verdict.noConfusion⟩
  | exhausted hc _ _ =>
      exact ⟨hc.keeps.toSameProblem.trans ⟨rfl, rfl, rfl⟩, hc.keeps.decisions,
        fun _ => Verdict.noConfusion⟩
  | flipped hc _ _ _ _ _ hdecided =>
      cases hdecided
      exact ⟨hc.keeps.toSameProblem.trans ⟨rfl, rfl, rfl⟩, hc.keeps.decisions,
        fun _ => Verdict.noConfusion⟩

theorem of_step (h : Branch.Of clauses s.branch) (hstep : s.step = .ok (.continues next)) :
    Branch.Of clauses next.branch := by
  obtain ⟨_, _, _, _, _, _, hsimplifies, hturn, hassign⟩ := step_eq_continues h hstep
  exact (hturn.of (h.of_simplifies hsimplifies)).assign hassign

/-! ## Whole runs -/

/-- What every step keeps, a run keeps. -/
theorem Runs.invariant {P : Search → Prop} {n : Nat} (h : Runs s n last) (hs : P s)
    (hstep : ∀ {s next : Search}, P s → s.step = .ok (.continues next) → P next) : P last := by
  induction h with
  | refl => exact hs
  | step hmid _ ih => exact ih (hstep hs hmid)

theorem Runs.of {n : Nat} (h : Runs s n last) (hs : Branch.Of clauses s.branch) :
    Branch.Of clauses last.branch :=
  h.invariant (P := fun s => Branch.Of clauses s.branch) hs of_step

/-- What every step on a branch of the given clauses keeps, a run keeps. -/
theorem Runs.invariant_of {P : Search → Prop} {n : Nat} (h : Runs s n last)
    (hof : Branch.Of clauses s.branch) (hs : P s)
    (hstep : ∀ {s next : Search}, Branch.Of clauses s.branch → P s →
      s.step = .ok (.continues next) → P next) : P last := by
  have hboth : Branch.Of clauses last.branch ∧ P last := by
    refine h.invariant (P := fun s => Branch.Of clauses s.branch ∧ P s) ⟨hof, hs⟩ ?_
    intro s next hs hnext
    exact ⟨of_step hs.1 hnext, hstep hs.1 hs.2 hnext⟩
  exact hboth.2

theorem Runs.sameProblem {n : Nat} (h : Runs s n last) (hs : Branch.Of clauses s.branch) :
    SameProblem s last :=
  h.invariant_of (P := SameProblem s) hs (SameProblem.refl s) fun hof hsame hnext =>
    hsame.trans (step_eq_continues hof hnext).1

theorem Runs.decisions_eq {n : Nat} (h : Runs s n last) (hs : Branch.Of clauses s.branch) :
    last.stats.decisions = s.stats.decisions + n := by
  induction h with
  | refl => rfl
  | step hmid _ ih =>
      have hdecisions := (step_eq_continues hs hmid).2.1
      rw [ih (of_step hs hmid), hdecisions]
      omega

theorem runWithin_succ_eq_ok {fuel : Nat}
    (h : s.runWithin (fuel + 1) = .ok (verdict, final)) :
    s.step = .ok (.ends verdict final) ∨
      ∃ next, s.step = .ok (.continues next) ∧ next.runWithin fuel = .ok (verdict, final) := by
  rw [runWithin_succ] at h
  cases hstep : s.step with
  | error fault =>
      rw [hstep] at h
      cases h
  | ok step =>
      rw [hstep] at h
      cases step with
      | continues next => exact Or.inr ⟨next, rfl, h⟩
      | ends other last =>
          cases h
          exact Or.inl rfl

/-- A run that comes to a verdict consists of steps that go on and a last one. -/
theorem runWithin_eq_ok {fuel : Nat} (h : s.runWithin fuel = .ok (verdict, final)) :
    ∃ n last, n < fuel ∧ Runs s n last ∧ last.step = .ok (.ends verdict final) := by
  induction fuel generalizing s with
  | zero => cases h
  | succ fuel ih =>
      obtain hend | ⟨next, hnext, hrest⟩ := runWithin_succ_eq_ok h
      · exact ⟨0, s, Nat.succ_pos fuel, .refl s, hend⟩
      · obtain ⟨n, last, hn, hruns, hlast⟩ := ih hrest
        exact ⟨n + 1, last, Nat.succ_lt_succ hn, .step hnext hruns, hlast⟩

theorem sameProblem_of_solve (h : Branch.Of clauses s.branch)
    (hsolve : s.solve = .ok (verdict, final)) : SameProblem s final := by
  obtain ⟨n, last, _, hruns, hend⟩ := runWithin_eq_ok hsolve
  have hannounced : Branch.Of clauses s.announce.branch := h
  have hstart : SameProblem s s.announce := ⟨rfl, rfl, rfl⟩
  exact hstart.trans
    ((hruns.sameProblem hannounced).trans (step_eq_ends (hruns.of hannounced) hend).1)

end Search

end SatSearch
