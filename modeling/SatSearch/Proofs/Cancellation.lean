import Std.Data.TreeMap
import SatSearch.Proofs.Course
import SatSearch.Proofs.Solver

/-!
# Cancellation

The search looks at the request of its host right before a decision and nowhere else.  So a search
that is asked to stop runs side by side with the one that is not, up to the decision that the
request replaces.  Until then the logs are the same, and without such a decision so is the end.
-/

namespace SatSearch

namespace Search

variable {clauses : List Clause} {s mid next last final : Search} {c : Cancellation}

/-! ## The log grows -/

/-- The log of the later search begins with that of the earlier one. -/
def LogsOn (s next : Search) : Prop :=
  s.log.toList <+: next.log.toList

theorem LogsOn.trans (hfirst : LogsOn s mid) (hsecond : LogsOn mid next) : LogsOn s next :=
  List.IsPrefix.trans hfirst hsecond

theorem logsOn_record (s : Search) (r : LogRecord) : LogsOn s (s.record r) := by
  unfold LogsOn record
  rw [Array.toList_push]
  exact List.prefix_append _ _

theorem Infers.logsOn (h : Infers s next) : LogsOn s next := by
  obtain ⟨records, hlog, _⟩ := h
  exact ⟨records, hlog.symm⟩

/-! ## The same search under another request -/

/-- The search, which its host asks to stop at another moment. -/
def heeding (s : Search) (c : Cancellation) : Search :=
  { s with cancellation := c }

theorem infer_heeding {ls : List Literal} (h : s.infer ls = .ok next) :
    (s.heeding c).infer ls = .ok (next.heeding c) := by
  obtain ⟨branch, hbranch, h⟩ := bind_eq_ok_iff.mp h
  cases h
  exact infer_eq_ok (s := s.heeding c) hbranch

theorem inferBatch_heeding {r : Nat → LogRecord} {ls : List Literal}
    (h : s.inferBatch r ls = .ok next) :
    (s.heeding c).inferBatch r ls = .ok (next.heeding c) := by
  unfold inferBatch at h ⊢
  split at h
  next hempty =>
    cases h
    rw [if_pos hempty]
    rfl
  next hsome =>
    rw [if_neg hsome]
    exact infer_heeding h

theorem Rounds.heeding {result : RoundResult} (h : Rounds s result next) (c : Cancellation) :
    Rounds (s.heeding c) result (next.heeding c) := by
  cases h with
  | conflict hconflict => exact .conflict hconflict
  | falsified hfalsified hunits hmid hagain =>
      exact .falsified hfalsified hunits (inferBatch_heeding hmid) hagain
  | batches hfalsified hunits hmid hagain hnext =>
      have hfirst := inferBatch_heeding (c := c) hmid
      have hsecond := inferBatch_heeding (c := c) hnext
      have hall := Rounds.batches (s := s.heeding c) hfalsified hunits hfirst hagain hsecond
      exact hall

theorem simplifyWithin_heeding {rounds : Nat} {changed : Bool} {result : Simplified}
    (h : s.simplifyWithin changed rounds = .ok (result, next)) :
    (s.heeding c).simplifyWithin changed rounds = .ok (result, next.heeding c) := by
  induction rounds generalizing s changed with
  | zero => cases h
  | succ rounds ih =>
      rw [simplifyWithin] at h ⊢
      obtain ⟨⟨outcome, mid⟩, hround, h⟩ := bind_eq_ok_iff.mp h
      rw [((rounds_of_eq hround).heeding c).round_eq]
      cases outcome with
      | conflict =>
          cases h
          rfl
      | rest =>
          cases h
          rfl
      | progress => exact ih h

/-! ## Steps -/

/-- A step without a request, which leads on to the given number of decisions or ends the search,
and the step of the same search under the request `c`.  They part only where the request stops the
search instead of its next decision. -/
inductive Heeds (c : Cancellation) (decisions : Nat) : Step → Step → Prop
  | ends (verdict : Verdict) (s : Search) :
      Heeds c decisions (.ends verdict s) (.ends verdict (s.heeding c))
  | continues (next : Search) (hgoes : c.requested decisions = false) :
      Heeds c decisions (.continues next) (.continues (next.heeding c))
  | stopped (next before : Search) (hrequested : c.requested decisions = true)
      (hlog : LogsOn before next) :
      Heeds c decisions (.continues next)
        (.ends (.cancelled decisions) (before.record (.cancelled before.stats)))

theorem decide_of_assign (h : s.cancellation.requested s.stats.decisions = false) {l : Literal}
    {flipped : Bool} {branch : Branch}
    (hassign : s.branch.assign l (.decision flipped) = .ok branch) :
    s.decide l flipped =
      .ok (.continues { s.record (.decision l (s.branch.level + 1) flipped) with
        branch
        stats := { s.stats with decisions := s.stats.decisions + 1 } }) := by
  unfold decide
  simp only [h, hassign, Bool.false_eq_true, if_false, bind, Except.bind]
  rfl

theorem decide_heeding (hnever : s.cancellation = .never) {l : Literal} {flipped : Bool}
    {step : Step} (h : s.decide l flipped = .ok step) :
    LogsOn s step.search ∧ ∃ other, (s.heeding c).decide l flipped = .ok other ∧
      Heeds c s.stats.decisions step other := by
  have hgoes : s.cancellation.requested s.stats.decisions = false := by
    rw [hnever]
    rfl
  unfold decide at h
  rw [hgoes, if_neg Bool.false_ne_true] at h
  obtain ⟨branch, hassign, h⟩ := bind_eq_ok_iff.mp h
  cases h
  have hlog := logsOn_record s (.decision l (s.branch.level + 1) flipped)
  refine ⟨hlog, ?_⟩
  cases hrequested : c.requested s.stats.decisions with
  | true =>
      exact ⟨_, decide_of_requested (s := s.heeding c) hrequested l flipped,
        .stopped _ (s.heeding c) hrequested hlog⟩
  | false =>
      exact ⟨_, decide_of_assign (s := s.heeding c) hrequested hassign,
        .continues _ hrequested⟩

theorem backtrack_heeding (hnever : s.cancellation = .never) {step : Step}
    (h : s.backtrack = .ok step) :
    LogsOn s step.search ∧ ∃ other, (s.heeding c).backtrack = .ok other ∧
      Heeds c s.stats.decisions step other := by
  obtain ⟨⟨found, branch⟩, hunwind, h⟩ := bind_eq_ok_iff.mp h
  cases found with
  | none =>
      cases h
      exact ⟨logsOn_record s _, _, bind_eq_ok_iff.mpr ⟨_, hunwind, rfl⟩, .ends _ _⟩
  | some l =>
      let back := { s with branch }.record (.backtracking l)
      have hdecide : back.decide (-l) true = .ok step := h
      obtain ⟨hlog, other, hother, hheeds⟩ := decide_heeding (s := back) (c := c) hnever hdecide
      have hrecord : LogsOn s back := logsOn_record { s with branch } _
      exact ⟨hrecord.trans hlog, other, bind_eq_ok_iff.mpr ⟨_, hunwind, hother⟩, hheeds⟩

theorem step_heeding (h : Branch.Of clauses s.branch) (hnever : s.cancellation = .never)
    {step : Step} (hstep : s.step = .ok step) :
    LogsOn s step.search ∧ ∃ other, (s.heeding c).step = .ok other ∧
      Heeds c s.stats.decisions step other := by
  obtain ⟨result, mid, hmid, houtcome⟩ := simplify_exists h
  have hother := simplifyWithin_heeding (c := c) hmid
  have hlog := (infers_of_simplifyWithin hmid).logsOn
  have hkeeps := houtcome.keeps
  rw [← hkeeps.decisions]
  rw [← hkeeps.cancellation] at hnever
  cases result with
  | conflict =>
      rw [step_of_conflict hmid] at hstep
      rw [step_of_conflict hother]
      obtain ⟨hlogNext, hheeds⟩ := backtrack_heeding (c := c) (s := mid.countConflict) hnever hstep
      exact ⟨hlog.trans hlogNext, hheeds⟩
  | rest changed =>
      cases hsatisfied : mid.branch.isSatisfied with
      | true =>
          rw [step_of_satisfied hmid hsatisfied] at hstep
          rw [step_of_satisfied hother hsatisfied]
          cases hstep
          exact ⟨hlog.trans (logsOn_record mid _), _, rfl, .ends _ _⟩
      | false =>
          cases hv : mid.branch.nextVariable? with
          | none =>
              have hof := h.of_simplifies houtcome.simplifies
              rw [hof.isSatisfied_of_nextVariable?_eq_none hv
                (houtcome.rest changed rfl).hasFalsified] at hsatisfied
              contradiction
          | some v =>
              rw [step_of_nextVariable hmid hsatisfied hv] at hstep
              rw [step_of_nextVariable hother hsatisfied hv]
              obtain ⟨hlogNext, hheeds⟩ := decide_heeding (c := c) hnever hstep
              exact ⟨hlog.trans hlogNext, hheeds⟩

/-! ## Whole searches -/

/-- What a request to stop after `k` decisions makes of a search that ends with `verdict` and `last`
without it. -/
structure Stopped (k : Nat) (verdict : Verdict) (last : Search) (other : Verdict)
    (final : Search) : Prop where
  unaffected : last.stats.decisions ≤ k → other = verdict ∧ final = last.heeding (.after k)
  cancelled : k < last.stats.decisions → other = .cancelled k ∧
    ∃ records stats rest, final.log.toList = records ++ [.cancelled stats] ∧
      last.log.toList = records ++ rest

theorem requested_after {k decisions : Nat} :
    (Cancellation.after k).requested decisions = true ↔ k ≤ decisions :=
  decide_eq_true_iff

theorem runWithin_grows (h : Branch.Of clauses s.branch) (hnever : s.cancellation = .never)
    {fuel : Nat} {verdict : Verdict} (hrun : s.runWithin fuel = .ok (verdict, last)) :
    LogsOn s last ∧ s.stats.decisions ≤ last.stats.decisions := by
  induction fuel generalizing s with
  | zero => cases hrun
  | succ fuel ih =>
      obtain hend | ⟨next, hnext, hrest⟩ := runWithin_succ_eq_ok hrun
      · have hdecisions := (step_eq_ends h hend).2.1
        exact ⟨(step_heeding (c := .never) h hnever hend).1, by omega⟩
      · obtain ⟨hsame, hdecisions, _⟩ := step_eq_continues h hnext
        have hlog := (step_heeding (c := .never) h hnever hnext).1
        obtain ⟨hlogRest, hle⟩ := ih (of_step h hnext) (hsame.cancellation.trans hnever) hrest
        exact ⟨hlog.trans hlogRest, by omega⟩

/-- The two searches run side by side until the request comes. -/
theorem runWithin_heeding (h : Branch.Of clauses s.branch) (hnever : s.cancellation = .never)
    {k fuel : Nat} (hk : s.stats.decisions ≤ k) {verdict : Verdict}
    (hrun : s.runWithin fuel = .ok (verdict, last)) :
    ∃ other final, (s.heeding (.after k)).runWithin fuel = .ok (other, final) ∧
      Stopped k verdict last other final := by
  induction fuel generalizing s with
  | zero => cases hrun
  | succ fuel ih =>
      rw [runWithin_succ]
      obtain hend | ⟨next, hnext, hrest⟩ := runWithin_succ_eq_ok hrun
      · obtain ⟨_, other, hother, hheeds⟩ := step_heeding (c := .after k) h hnever hend
        have hdecisions := (step_eq_ends h hend).2.1
        rw [hother]
        cases hheeds with
        | ends =>
            exact ⟨verdict, _, rfl, fun _ => ⟨rfl, rfl⟩, fun hlt => by omega⟩
      · obtain ⟨_, other, hother, hheeds⟩ := step_heeding (c := .after k) h hnever hnext
        obtain ⟨hsame, hdecisions, _⟩ := step_eq_continues h hnext
        have hof := of_step h hnext
        have hstill := hsame.cancellation.trans hnever
        rw [hother]
        cases hheeds with
        | continues _ hgoes =>
            have hnot : ¬k ≤ s.stats.decisions := by
              rw [← requested_after, hgoes]
              exact Bool.false_ne_true
            exact ih hof hstill (by omega) hrest
        | stopped _ before hrequested hlog =>
            -- the request comes after exactly `k` decisions, and one more follows without it
            have heq : s.stats.decisions = k := Nat.le_antisymm hk (requested_after.mp hrequested)
            obtain ⟨hlogRest, hle⟩ := runWithin_grows hof hstill hrest
            obtain ⟨rest, hsplit⟩ := hlog.trans hlogRest
            refine ⟨_, _, rfl, fun hlast => by omega, fun _ => ⟨by rw [heq], ?_⟩⟩
            exact ⟨before.log.toList, before.stats, rest, Array.toList_push, hsplit.symm⟩

theorem solve_heeding (h : Branch.Of clauses s.branch) (hnever : s.cancellation = .never)
    {k : Nat} (hk : s.stats.decisions ≤ k) {verdict : Verdict}
    (hsolve : s.solve = .ok (verdict, last)) :
    ∃ other final, (s.heeding (.after k)).solve = .ok (other, final) ∧
      Stopped k verdict last other final :=
  runWithin_heeding (s := s.announce) h hnever hk hsolve

end Search

open Search

variable {f : Formula} {starting : Binding} {config : SearchConfig}

theorem solveWith_of_prepare {cancellation : Cancellation} {s last : Search} {verdict : Verdict}
    (hprepare : prepare f starting config cancellation = .ok s)
    (hsolve : s.solve = .ok (verdict, last)) :
    solveWith f starting config cancellation = verdict.result := by
  unfold solveWith
  rw [hprepare]
  change s.finish.1 = _
  unfold finish
  rw [hsolve]

/-- A request to stop after `k` decisions does not affect a search that makes no more than `k`
decisions without it.  Any other search it stops right there, with a log that goes along with that
of the search without the request. -/
theorem solveWith_after (f : Formula) (starting : Binding) (config : SearchConfig) (k : Nat) :
    (∀ v, solveWith f starting config .never = .error (.invalidInput v) →
      solveWith f starting config (.after k) = .error (.invalidInput v)) ∧
    ∀ s, prepare f starting config .never = .ok s →
      ∃ t verdict last other final, prepare f starting config (.after k) = .ok t ∧
        s.solve = .ok (verdict, last) ∧ solveWith f starting config .never = verdict.result ∧
        t.solve = .ok (other, final) ∧ solveWith f starting config (.after k) = other.result ∧
        (last.stats.decisions ≤ k → other = verdict ∧ final.stats = last.stats) ∧
        (k < last.stats.decisions → other = .cancelled k ∧
          ∃ records stats rest, final.log.toList = records ++ [.cancelled stats] ∧
            last.log.toList = records ++ rest) := by
  refine ⟨?_, ?_⟩
  · intro v hv
    rw [solveWith_eq_invalidInput_iff] at hv ⊢
    exact hv
  · intro s hprepare
    have hs := prepare_eq_ok hprepare
    have hother : prepare f starting config (.after k) = .ok (s.heeding (.after k)) := by
      unfold prepare at hprepare ⊢
      rw [hs]
      split at hprepare
      · cases hprepare
      · rfl
    have hroot := of_prepare hprepare
    have hof := Branch.Of.of_eq_root hroot
    obtain ⟨verdict, last, hsolve⟩ := solve_exists hof (Branch.settled_of_eq_root hroot)
    have hnever : s.cancellation = .never := by
      rw [hs]
      rfl
    have hnone : s.stats.decisions ≤ k := by
      rw [hs]
      exact Nat.zero_le k
    obtain ⟨other, final, hstopped, h⟩ := solve_heeding hof hnever hnone hsolve
    refine ⟨_, verdict, last, other, final, hother, hsolve, solveWith_of_prepare hprepare hsolve,
      hstopped, solveWith_of_prepare hother hstopped, ?_, h.cancelled⟩
    intro hle
    obtain ⟨hverdict, hfinal⟩ := h.unaffected hle
    exact ⟨hverdict, by rw [hfinal]; rfl⟩

theorem solveWith_after_one_of_two_decisions :
    let f := Formula.ofClauses [⟨[⟨⟨1⟩, true⟩, ⟨⟨2⟩, true⟩]⟩, ⟨[⟨⟨1⟩, false⟩, ⟨⟨2⟩, false⟩]⟩,
      ⟨[⟨⟨1⟩, true⟩, ⟨⟨2⟩, false⟩]⟩, ⟨[⟨⟨1⟩, false⟩, ⟨⟨2⟩, true⟩]⟩]
    solveWith f .empty {} (.after 1) = .error (.cancelled 1) ∧
      solveWith f .empty {} (.after 2) = .error .unsatisfiable := by
  intro f
  have hprepare : prepare f .empty {} .never = .ok (start f .empty {} .never) := rfl
  have hrun : (start f .empty {} .never).solve.map
      (fun (verdict, last) => (verdict, last.stats.decisions)) = .ok (.unsatisfiable, 2) := by
    cbv
  constructor
  · obtain ⟨_, verdict, last, other, _, _, hsolve, _, _, hother, _, hcancelled⟩ :=
      (solveWith_after f .empty {} 1).2 _ hprepare
    rw [hsolve] at hrun
    have hdecisions : last.stats.decisions = 2 := congrArg Prod.snd (Except.ok.inj hrun)
    rw [hother, (hcancelled (by omega)).1]
    rfl
  · obtain ⟨_, verdict, last, other, _, _, hsolve, _, _, hother, hunaffected, _⟩ :=
      (solveWith_after f .empty {} 2).2 _ hprepare
    rw [hsolve] at hrun
    have hverdict : verdict = .unsatisfiable := congrArg Prod.fst (Except.ok.inj hrun)
    have hdecisions : last.stats.decisions = 2 := congrArg Prod.snd (Except.ok.inj hrun)
    rw [hother, (hunaffected (by omega)).1, hverdict]
    rfl

end SatSearch
