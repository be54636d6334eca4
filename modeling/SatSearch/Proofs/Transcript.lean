import SatSearch.Proofs.Exploration
import SatSearch.Proofs.Success

/-!
# What a search records

Simplification leaves records of inferences only.  A step that goes on adds the record of its
decision, and right before it that of backtracking if it comes out of a conflict.  `Stepped` takes a
step apart into these pieces, with the branch each of them happens on, so that what a whole run
records can be read off step by step.
-/

namespace SatSearch

/-- The record of a batch of inferences. -/
def LogRecord.isInference : LogRecord → Bool
  | propagating .. | eliminating .. => true
  | parsed .. | merging .. | solving .. | decision .. | backtracking .. | satisfiable ..
  | unsatisfiable .. | cancelled .. => false

/-- The number of literals that were inferred, according to the record. -/
def LogRecord.inferred : LogRecord → Nat
  | propagating count | eliminating count => count
  | parsed .. | merging .. | solving .. | decision .. | backtracking .. | satisfiable ..
  | unsatisfiable .. | cancelled .. => 0

/-- The number of literals that were inferred, according to the log. -/
def inferredCount (log : List LogRecord) : Nat :=
  (log.map LogRecord.inferred).sum

theorem inferredCount_concat (log : List LogRecord) (r : LogRecord) :
    inferredCount (log ++ [r]) = inferredCount log + r.inferred := by
  simp [inferredCount]

namespace Search

variable {clauses : List Clause} {s mid next : Search}

/-! ## What a round consists of -/

/-- The pure literals to be inferred, if the configuration asks for them. -/
def pureBatch (s : Search) : List Literal :=
  if s.config.pureLiteralElimination then s.branch.pureLiterals else []

/-- The batches of inferences that a round makes. -/
inductive Rounds (s : Search) : RoundResult → Search → Prop
  | conflict (hconflict : s.branch.Conflicting) : Rounds s .conflict s
  | falsified {units : List Literal} {mid : Search} (hfalsified : s.branch.hasFalsified = false)
      (hunits : s.branch.unitLiterals = .ok (some units))
      (hmid : s.inferBatch .propagating units = .ok mid)
      (hagain : mid.branch.hasFalsified = true) : Rounds s .conflict mid
  | batches {units : List Literal} {mid next : Search}
      (hfalsified : s.branch.hasFalsified = false)
      (hunits : s.branch.unitLiterals = .ok (some units))
      (hmid : s.inferBatch .propagating units = .ok mid)
      (hagain : mid.branch.hasFalsified = false)
      (hnext : mid.inferBatch .eliminating mid.pureBatch = .ok next) :
      Rounds s (if units.isEmpty && mid.pureBatch.isEmpty then .rest else .progress) next

theorem Rounds.round_eq {result : RoundResult} (h : Rounds s result next) :
    s.round = .ok (result, next) := by
  cases h with
  | conflict hconflict => exact round_of_conflicting hconflict
  | falsified hfalsified hunits hmid hagain =>
      rw [round_of_units hfalsified hunits hmid, if_pos hagain]
  | batches hfalsified hunits hmid hagain hnext =>
      have hbatch : ∀ mid : Search, (if mid.config.pureLiteralElimination then
        mid.branch.pureLiterals else []) = mid.pureBatch := fun _ => rfl
      rw [round_of_units hfalsified hunits hmid, if_neg (ne_true_of_eq_false hagain)]
      simp only [hbatch, hnext]
      rfl

theorem rounds_of_eq {result : RoundResult} (h : s.round = .ok (result, next)) :
    Rounds s result next := by
  unfold round at h
  cases hfalsified : s.branch.hasFalsified with
  | true =>
      rw [hfalsified, if_pos rfl] at h
      cases h
      exact .conflict (Or.inl hfalsified)
  | false =>
      rw [hfalsified, if_neg Bool.false_ne_true, bind_eq_ok_iff] at h
      obtain ⟨found, hunits, h⟩ := h
      cases found with
      | none =>
          cases h
          exact .conflict (Or.inr hunits)
      | some units =>
          obtain ⟨mid, hmid, h⟩ := bind_eq_ok_iff.mp h
          cases hagain : mid.branch.hasFalsified with
          | true =>
              rw [hagain, if_pos rfl] at h
              cases h
              exact .falsified hfalsified hunits hmid hagain
          | false =>
              rw [hagain, if_neg Bool.false_ne_true] at h
              obtain ⟨last, hlast, h⟩ := bind_eq_ok_iff.mp h
              cases h
              exact .batches hfalsified hunits hmid hagain hlast

/-! ## Records of inferences -/

/-- The later search has recorded nothing but inferences since. -/
def Infers (s next : Search) : Prop :=
  ∃ records, next.log.toList = s.log.toList ++ records ∧
    ∀ r ∈ records, r.isInference = true

theorem Infers.refl (s : Search) : Infers s s :=
  ⟨[], (List.append_nil _).symm, List.forall_mem_nil _⟩

theorem Infers.trans (hfirst : Infers s mid) (hsecond : Infers mid next) : Infers s next := by
  obtain ⟨records, hmid, hrecords⟩ := hfirst
  obtain ⟨others, hnext, hothers⟩ := hsecond
  refine ⟨records ++ others, by rw [hnext, hmid, List.append_assoc], ?_⟩
  intro r hr
  rcases List.mem_append.mp hr with hr | hr
  · exact hrecords r hr
  · exact hothers r hr

/-- What every record of an inference keeps, the records of inferences keep. -/
theorem Infers.induction {P : List LogRecord → Prop} (h : Infers s next) (hs : P s.log.toList)
    (hstep : ∀ log r, r.isInference = true → P log → P (log ++ [r])) : P next.log.toList := by
  obtain ⟨records, hlog, hrecords⟩ := h
  rw [hlog]
  clear hlog
  induction records using List.reverseRecOn with
  | nil =>
      rw [List.append_nil]
      exact hs
  | append_singleton records r ih =>
      rw [← List.append_assoc]
      exact hstep _ r (hrecords r (List.mem_append_right _ List.mem_cons_self))
        (ih fun d hd => hrecords d (List.mem_append_left _ hd))

theorem infers_record {r : LogRecord} (hr : r.isInference = true) : Infers s (s.record r) := by
  refine ⟨[r], Array.toList_push, ?_⟩
  intro other hother
  rw [List.mem_singleton.mp hother]
  exact hr

/-- What every batch of inferences keeps, a round keeps. -/
theorem Rounds.invariant {P : Search → Prop} {result : RoundResult} (h : Rounds s result next)
    (hs : P s) (hbatch : ∀ {r : Nat → LogRecord} {ls : List Literal} {s next : Search},
      r = .propagating ∨ r = .eliminating → s.inferBatch r ls = .ok next → P s → P next) :
    P next := by
  cases h with
  | conflict => exact hs
  | falsified _ _ hmid => exact hbatch (Or.inl rfl) hmid hs
  | batches _ _ hmid _ hnext => exact hbatch (Or.inr rfl) hnext (hbatch (Or.inl rfl) hmid hs)

/-- What every batch of inferences keeps, simplification keeps. -/
theorem simplifyWithin_invariant {P : Search → Prop} {rounds : Nat} {changed : Bool}
    {result : Simplified} (h : s.simplifyWithin changed rounds = .ok (result, next)) (hs : P s)
    (hbatch : ∀ {r : Nat → LogRecord} {ls : List Literal} {s next : Search},
      r = .propagating ∨ r = .eliminating → s.inferBatch r ls = .ok next → P s → P next) :
    P next := by
  induction rounds generalizing s changed with
  | zero => cases h
  | succ rounds ih =>
      rw [simplifyWithin] at h
      obtain ⟨⟨outcome, mid⟩, hround, h⟩ := bind_eq_ok_iff.mp h
      have hmid : P mid := (rounds_of_eq hround).invariant hs hbatch
      cases outcome with
      | conflict =>
          cases h
          exact hmid
      | rest =>
          cases h
          exact hmid
      | progress => exact ih h hmid

theorem infers_of_inferBatch {r : Nat → LogRecord} (hr : ∀ n, (r n).isInference = true)
    {ls : List Literal} (h : s.inferBatch r ls = .ok next) : Infers s next := by
  unfold inferBatch at h
  split at h
  next =>
    cases h
    exact Infers.refl s
  next =>
    obtain ⟨branch, _, hnext⟩ := bind_eq_ok_iff.mp h
    cases hnext
    exact infers_record (hr ls.length)

theorem infers_of_simplifyWithin {rounds : Nat} {changed : Bool} {result : Simplified}
    (h : s.simplifyWithin changed rounds = .ok (result, next)) : Infers s next := by
  refine simplifyWithin_invariant (P := Infers s) h (Infers.refl s) ?_
  rintro r ls mid next (rfl | rfl) hbatch hmid
  · exact hmid.trans (infers_of_inferBatch (fun _ => rfl) hbatch)
  · exact hmid.trans (infers_of_inferBatch (fun _ => rfl) hbatch)

/-- The later search has counted as many inferred literals as it has recorded since. -/
def Counts (s next : Search) : Prop :=
  next.stats.propagations + inferredCount s.log.toList =
    s.stats.propagations + inferredCount next.log.toList

theorem Counts.trans (hfirst : Counts s mid) (hsecond : Counts mid next) : Counts s next := by
  unfold Counts at hfirst hsecond ⊢
  omega

theorem counts_of_inferBatch {r : Nat → LogRecord} (hr : ∀ n, (r n).inferred = n)
    {ls : List Literal} (h : s.inferBatch r ls = .ok next) : Counts s next := by
  unfold inferBatch at h
  split at h
  next =>
    cases h
    rfl
  next =>
    obtain ⟨branch, _, hnext⟩ := bind_eq_ok_iff.mp h
    cases hnext
    unfold Counts record
    rw [Array.toList_push, inferredCount_concat, hr]
    change s.stats.propagations + ls.length + _ = _
    omega

theorem counts_of_simplifyWithin {rounds : Nat} {changed : Bool} {result : Simplified}
    (h : s.simplifyWithin changed rounds = .ok (result, next)) : Counts s next := by
  refine simplifyWithin_invariant (P := Counts s) h rfl ?_
  rintro r ls mid next (rfl | rfl) hbatch hmid
  · exact hmid.trans (counts_of_inferBatch (fun _ => rfl) hbatch)
  · exact hmid.trans (counts_of_inferBatch (fun _ => rfl) hbatch)

/-! ## Steps and their records -/

/-- What simplification makes of a search. -/
structure SimplifiesTo (s c : Search) : Prop where
  keeps : Keeps s c
  simplifies : Branch.Simplifies s.config.pureLiteralElimination s.branch c.branch
  infers : Infers s c
  counts : Counts s c

/-- What deciding a literal comes to: it is refused by a cancellation, or made and recorded. -/
inductive Decided (s : Search) (l : Literal) (flipped : Bool) : Step → Prop
  | refused :
      Decided s l flipped (.ends (.cancelled s.stats.decisions) (s.record (.cancelled s.stats)))
  | made {branch : Branch} (hassign : s.branch.assign l (.decision flipped) = .ok branch) :
      Decided s l flipped (.continues
        { s.record (.decision l (s.branch.level + 1) flipped) with
          branch
          stats := { s.stats with decisions := s.stats.decisions + 1 } })

theorem decide_of_requested (h : s.cancellation.requested s.stats.decisions = true) (l : Literal)
    (flipped : Bool) :
    s.decide l flipped =
      .ok (.ends (.cancelled s.stats.decisions) (s.record (.cancelled s.stats))) := by
  unfold decide
  rw [if_pos h]
  rfl

theorem decided_of_eq {l : Literal} {flipped : Bool} {step : Step}
    (h : s.decide l flipped = .ok step) : Decided s l flipped step := by
  cases hrequested : s.cancellation.requested s.stats.decisions with
  | true =>
      rw [decide_of_requested hrequested] at h
      cases h
      exact .refused
  | false =>
      unfold decide at h
      rw [hrequested, if_neg Bool.false_ne_true] at h
      obtain ⟨branch, hassign, hnext⟩ := bind_eq_ok_iff.mp h
      cases hnext
      exact .made hassign

/-- The search on the branch that unwinding leads to, with the conflict counted and the backtracking
recorded. -/
def backtrackedTo (s : Search) (before : Branch) (l : Literal) : Search :=
  { s.countConflict with branch := before }.record (.backtracking l)

/-- The search that has found every decision exhausted. -/
def exhausted (s : Search) (clauses : List Clause) : Search :=
  { s.countConflict with branch := Branch.root clauses }.record
    (.unsatisfiable s.countConflict.stats)

/-- What a step consists of.  After simplification, at rest, it finds the branch satisfied or
decides the next variable; in a conflict it finds every decision exhausted or flips the newest one
whose opposite is untried. -/
inductive Stepped (clauses : List Clause) (s : Search) : Step → Prop
  | satisfied {c : Search} (hc : SimplifiesTo s c)
      (hrest : c.branch.AtRest s.config.pureLiteralElimination)
      (hsatisfied : c.branch.isSatisfied = true) :
      Stepped clauses s (.ends (.satisfied c.model) (c.record (.satisfiable c.stats)))
  | descended {c : Search} {v : Variable} {step : Step} (hc : SimplifiesTo s c)
      (hrest : c.branch.AtRest s.config.pureLiteralElimination)
      (hv : c.branch.nextVariable? = some v) (hstep : Decided c v.positive false step) :
      Stepped clauses s step
  | exhausted {c : Search} (hc : SimplifiesTo s c) (hconflict : c.branch.Conflicting)
      (hsettled : Branch.Settled c.branch.trail.entries) :
      Stepped clauses s (.ends .unsatisfiable (c.exhausted clauses))
  | flipped {c : Search} {newer : List TrailEntry} {e : TrailEntry} {before : Branch} {step : Step}
      (hc : SimplifiesTo s c) (hconflict : c.branch.Conflicting)
      (htrail : c.branch.trail.entries = newer ++ e :: before.trail.entries)
      (hsettled : Branch.Settled newer) (hcause : e.cause = .decision false)
      (hbefore : Branch.Of clauses before)
      (hstep : Decided (c.backtrackedTo before e.literal) (-e.literal) true step) :
      Stepped clauses s step

theorem stepped_of_conflict {c : Search} (h : Branch.Of clauses c.branch) (hc : SimplifiesTo s c)
    (hconflict : c.branch.Conflicting) {step : Step}
    (hstep : c.countConflict.backtrack = .ok step) : Stepped clauses s step := by
  unfold backtrack at hstep
  have hunwind := Branch.Of.unwind_cases (b := c.countConflict.branch) h
  obtain ⟨hsettled, hroot⟩ |
    ⟨newer, e, _, before, htrail, hsettled, hcause, hbefore, rfl, _, hback⟩ := hunwind
  · rw [hroot] at hstep
    cases hstep
    exact .exhausted hc hconflict hsettled
  · rw [hback] at hstep
    exact .flipped hc hconflict htrail hsettled hcause hbefore (decided_of_eq hstep)

theorem stepped_of_rest {c : Search} {changed : Bool} (h : Branch.Of clauses c.branch)
    (hc : SimplifiesTo s c) (hrest : c.branch.AtRest s.config.pureLiteralElimination)
    (hsimplify : s.simplify = .ok (.rest changed, c)) {step : Step} (hstep : s.step = .ok step) :
    Stepped clauses s step := by
  cases hsatisfied : c.branch.isSatisfied with
  | true =>
      rw [step_of_satisfied hsimplify hsatisfied] at hstep
      cases hstep
      exact .satisfied hc hrest hsatisfied
  | false =>
      cases hv : c.branch.nextVariable? with
      | none =>
          rw [h.isSatisfied_of_nextVariable?_eq_none hv hrest.hasFalsified] at hsatisfied
          contradiction
      | some v =>
          rw [step_of_nextVariable hsimplify hsatisfied hv] at hstep
          exact .descended hc hrest hv (decided_of_eq hstep)

theorem stepped_of_eq (h : Branch.Of clauses s.branch) {step : Step} (hstep : s.step = .ok step) :
    Stepped clauses s step := by
  obtain ⟨result, c, hsimplify, houtcome⟩ := simplify_exists h
  have hof := h.of_simplifies houtcome.simplifies
  have hc : SimplifiesTo s c :=
    ⟨houtcome.keeps, houtcome.simplifies, infers_of_simplifyWithin hsimplify,
      counts_of_simplifyWithin hsimplify⟩
  cases result with
  | conflict =>
      rw [step_of_conflict hsimplify] at hstep
      exact stepped_of_conflict hof hc (houtcome.conflict rfl) hstep
  | rest changed => exact stepped_of_rest hof hc (houtcome.rest changed rfl) hsimplify hstep

end Search

end SatSearch
