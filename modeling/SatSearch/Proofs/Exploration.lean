import SatSearch.Proofs.Models
import SatSearch.Proofs.Reachability

/-!
# Exploration of the search tree

From any branch the search explores the subtree below it.  It finds a satisfied branch there, or it
is cancelled, or it meets a conflict that leaves no decision of the subtree untried, and then no
model extends the branch.  The proof is by induction on the number of remaining variables: each
decision binds one of them, and a conflict below it leads to the opposite decision.  The subtree has
at most as many nodes as a full binary tree of that depth, so the search stays within its bound.
-/

namespace SatSearch

variable {clauses : List Clause}

namespace Branch

/-! ## Going down the tree -/

/-- The later branch adds assignments of remaining variables, for admitted causes only. -/
def Descends (clauses : List Clause) (admitted : Cause → Prop) (b last : Branch) : Prop :=
  ∃ sequence, b.assignEach sequence = .ok last ∧
    ∀ step ∈ sequence, step.1.var ∈ remainingVariables clauses b.binding ∧ admitted step.2

variable {admitted : Cause → Prop} {b mid last : Branch}

theorem Descends.mono {weaker : Cause → Prop} (h : Descends clauses admitted b last)
    (hle : ∀ cause, admitted cause → weaker cause) : Descends clauses weaker b last := by
  rcases h with ⟨sequence, hlast, hsteps⟩
  exact ⟨sequence, hlast, fun step hstep => ⟨(hsteps step hstep).1, hle _ (hsteps step hstep).2⟩⟩

theorem Of.of_descends (h : Of clauses b) (hlast : Descends clauses admitted b last) :
    Of clauses last := by
  rcases hlast with ⟨_, hsequence, _⟩
  exact (h.assignEach_eq_ok hsequence).1

theorem Of.descends_trans (h : Of clauses b) (hfirst : Descends clauses admitted b mid)
    (hsecond : Descends clauses admitted mid last) : Descends clauses admitted b last := by
  rcases hfirst with ⟨first, hmid, hfirstSteps⟩
  rcases hsecond with ⟨second, hlast, hsecondSteps⟩
  refine ⟨first ++ second, by rw [assignEach_append hmid, hlast], ?_⟩
  intro step hstep
  rcases List.mem_append.mp hstep with hstep | hstep
  · exact hfirstSteps step hstep
  · rcases hsecondSteps step hstep with ⟨hvar, hcause⟩
    exact ⟨h.remainingVariables_subset hmid hvar, hcause⟩

theorem Of.card_le_of_descends (h : Of clauses b) (hlast : Descends clauses admitted b last) :
    (remainingVariables clauses last.binding).card ≤
      (remainingVariables clauses b.binding).card := by
  rcases hlast with ⟨_, hsequence, _⟩
  exact Finset.card_le_card (h.remainingVariables_subset hsequence)

theorem Of.descends_of_simplifies (h : Of clauses b) {pure : Bool}
    (hlast : Simplifies pure b last) : Descends clauses (· = .inference) b last := by
  rcases h.steps_of_simplifies hlast with ⟨ls, hassign, hremains⟩
  rw [assignAll_eq_assignEach] at hassign
  refine ⟨_, hassign, ?_⟩
  intro step hstep
  rcases List.mem_map.mp hstep with ⟨l, hl, rfl⟩
  exact ⟨mem_remainingVariables.mpr ⟨l, rfl, hremains l hl⟩, rfl⟩

theorem assignEach_singleton {l : Literal} {cause : Cause} (h : b.assign l cause = .ok last) :
    b.assignEach [(l, cause)] = .ok last :=
  assignEach_cons h

theorem descends_of_assign {l : Literal} {cause : Cause} (h : b.assign l cause = .ok last)
    (hvar : l.var ∈ remainingVariables clauses b.binding) (hcause : admitted cause) :
    Descends clauses admitted b last := by
  refine ⟨[(l, cause)], assignEach_singleton h, ?_⟩
  intro step hstep
  rw [List.mem_singleton.mp hstep]
  exact ⟨hvar, hcause⟩

theorem Of.card_lt_of_assign (h : Of clauses b) {l : Literal} {cause : Cause}
    (hlast : b.assign l cause = .ok last)
    (hvar : l.var ∈ remainingVariables clauses b.binding) :
    (remainingVariables clauses last.binding).card <
      (remainingVariables clauses b.binding).card :=
  h.card_remainingVariables_lt (assignEach_singleton hlast) List.mem_cons_self hvar

/-- A branch is extensible only if one of the two branches below it is. -/
theorem Of.not_extensible_of_both (h : Of clauses b) {l : Literal} {first second : Cause}
    (hmid : b.assign l first = .ok mid) (hlast : b.assign (-l) second = .ok last)
    (hmidNone : ¬mid.Extensible clauses) (hlastNone : ¬last.Extensible clauses) :
    ¬b.Extensible clauses := by
  rintro ⟨a, hagrees, hmodels⟩
  rcases h.assign_eq_ok hmid with ⟨_, hmidBinding, _⟩
  rcases h.assign_eq_ok hlast with ⟨_, hlastBinding, _⟩
  cases hholds : l.holds a with
  | true =>
      refine hmidNone ⟨a, ?_, hmodels⟩
      rw [hmidBinding, Binding.agreesWith_assign_iff (Branch.assign_eq_ok hmid)]
      exact ⟨hagrees, hholds⟩
  | false =>
      refine hlastNone ⟨a, ?_, hmodels⟩
      rw [hlastBinding, Binding.agreesWith_assign_iff (Branch.assign_eq_ok hlast)]
      exact ⟨hagrees, by rw [Literal.holds_neg, hholds]; rfl⟩

/-! ## Coming back up -/

/-- The causes of the assignments that unwinding takes back without looking further. -/
abbrev Spent (cause : Cause) : Prop := cause ≠ .decision false

theorem Of.spent_of_simplifies (h : Of clauses b) {pure : Bool} (hlast : Simplifies pure b last) :
    Descends clauses Spent b last := by
  refine (h.descends_of_simplifies hlast).mono ?_
  rintro _ rfl
  exact Cause.noConfusion

theorem Of.settled_of_descends (h : Of clauses b) (hlast : Descends clauses Spent b last) :
    ∃ newer, last.trail.entries = newer ++ b.trail.entries ∧ Settled newer := by
  rcases hlast with ⟨sequence, hsequence, hspent⟩
  obtain ⟨newer, hnewer, hsame⟩ := h.newer_of_assignEach hsequence
  refine ⟨newer, hnewer, ?_⟩
  intro e he
  have hmem : (e.literal, e.cause) ∈ sequence.reverse := by
    rw [← hsame]
    exact List.mem_map_of_mem he
  exact (hspent _ (List.mem_reverse.mp hmem)).2

/-- The newest untried decision is found in one place only. -/
theorem eq_of_settled {newer fresh older rest : List TrailEntry} {e d : TrailEntry}
    (h : newer ++ e :: older = fresh ++ d :: rest) (hnewer : Settled newer)
    (hfresh : Settled fresh) (he : e.cause = .decision false) (hd : d.cause = .decision false) :
    e = d ∧ older = rest := by
  induction newer generalizing fresh with
  | nil =>
      cases fresh with
      | nil => exact List.cons.inj h
      | cons x fresh =>
          have hx : e = x := (List.cons.inj h).1
          exact absurd he (hx ▸ hfresh x List.mem_cons_self)
  | cons y newer ih =>
      cases fresh with
      | nil =>
          have hy : y = d := (List.cons.inj h).1
          exact absurd hd (hy ▸ hnewer y List.mem_cons_self)
      | cons x fresh =>
          exact ih (List.cons.inj h).2 (fun z hz => hnewer z (List.mem_cons_of_mem y hz))
            (fun z hz => hfresh z (List.mem_cons_of_mem x hz))

/-- On the way down from an untried decision it stays the newest one. -/
theorem Of.untried_of_descends (h : Of clauses b) {l : Literal}
    (hmid : b.assign l (.decision false) = .ok mid) (hlast : Descends clauses Spent mid last) :
    ∃ fresh d, last.trail.entries = fresh ++ d :: b.trail.entries ∧ Settled fresh ∧
      d.literal = l ∧ d.cause = .decision false := by
  obtain ⟨d, _, hd, hliteral, hcause, _⟩ := h.assign_eq_ok hmid
  obtain ⟨fresh, hfresh, hsettled⟩ := (h.assign hmid).settled_of_descends hlast
  exact ⟨fresh, d, by rw [hfresh, hd], hsettled, hliteral, hcause⟩

/-- Coming back up to the newest untried decision leads to the branch it was made on. -/
theorem Of.newest_of_descends (h : Of clauses b) {l : Literal} {back : Branch}
    {newer : List TrailEntry} {e : TrailEntry} (hmid : b.assign l (.decision false) = .ok mid)
    (hlast : Descends clauses Spent mid last)
    (htrail : last.trail.entries = newer ++ e :: back.trail.entries) (hnewer : Settled newer)
    (he : e.cause = .decision false) (hback : Of clauses back) : e.literal = l ∧ back = b := by
  obtain ⟨fresh, d, hfresh, hsettled, rfl, hcause⟩ := h.untried_of_descends hmid hlast
  rw [hfresh] at htrail
  obtain ⟨rfl, holder⟩ := eq_of_settled htrail.symm hnewer hsettled he hcause
  refine ⟨rfl, hback.eq_of_steps h ?_⟩
  unfold steps
  rw [holder]

end Branch

namespace Search

variable {s mid last : Search}

/-- A conflict below an untried decision leads to the opposite decision. -/
theorem backtrack_below_decision {b above : Branch} (hb : Branch.Of clauses b) {l : Literal}
    (habove : b.assign l (.decision false) = .ok above)
    (hs : Branch.Descends clauses Branch.Spent above s.branch) :
    ∃ next, next.branch = b ∧ Keeps s next ∧ s.backtrack = next.decide (-l) true := by
  rcases backtrack_cases ((hb.assign habove).of_descends hs) with ⟨hall, _⟩ |
    ⟨newer, e, _, next, htrail, hnewer, he, hnext, rfl, _, hkeeps, hback⟩
  · obtain ⟨fresh, d, hfresh, _, _, hcause⟩ := hb.untried_of_descends habove hs
    have hmem : d ∈ s.branch.trail.entries := by
      rw [hfresh]
      simp
    exact absurd hcause (hall d hmem)
  · obtain ⟨rfl, hsame⟩ := hb.newest_of_descends habove hs htrail hnewer he hnext
    exact ⟨next, hsame, hkeeps, hback⟩

theorem backtrack_of_settled (h : Branch.Of clauses s.branch)
    (hsettled : Branch.Settled s.branch.trail.entries) :
    ∃ next, s.backtrack = .ok (.ends .unsatisfiable next) := by
  rcases backtrack_cases h with ⟨_, next, hnext, _⟩ | ⟨newer, e, older, _, htrail, _, he, _⟩
  · exact ⟨next, hnext⟩
  · have hmem : e ∈ s.branch.trail.entries := by
      rw [htrail]
      simp
    exact absurd he (hsettled e hmem)

/-! ## Steps -/

/-- The search goes on for this many steps. -/
inductive Runs : Search → Nat → Search → Prop
  | refl (s : Search) : Runs s 0 s
  | step {s mid last : Search} {n : Nat} (hmid : s.step = .ok (.continues mid))
      (hlast : Runs mid n last) : Runs s (n + 1) last

theorem Runs.trans {m n : Nat} (hfirst : Runs s m mid) (hsecond : Runs mid n last) :
    Runs s (m + n) last := by
  induction hfirst with
  | refl =>
      rw [Nat.zero_add]
      exact hsecond
  | @step _ _ _ k hmid _ ih =>
      rw [show k + 1 + n = k + n + 1 by omega]
      exact .step hmid (ih hsecond)

theorem Runs.snoc {n : Nat} (hfirst : Runs s n mid) (hlast : mid.step = .ok (.continues last)) :
    Runs s (n + 1) last :=
  hfirst.trans (.step hlast (.refl last))

theorem runWithin_of_continues (h : s.step = .ok (.continues mid)) (n : Nat) :
    s.runWithin (n + 1) = mid.runWithin n := by
  rw [runWithin_succ, h]
  rfl

theorem Runs.runWithin_eq {m : Nat} (h : Runs s m last) (n : Nat) :
    s.runWithin (m + n) = last.runWithin n := by
  induction h with
  | refl => rw [Nat.zero_add]
  | @step s mid _ k hmid _ ih =>
      rw [show k + 1 + n = k + n + 1 by omega, runWithin_of_continues hmid]
      exact ih

theorem runWithin_of_ends {verdict : Verdict} {final : Search}
    (h : s.step = .ok (.ends verdict final)) (n : Nat) :
    s.runWithin (n + 1) = .ok (verdict, final) := by
  rw [runWithin_succ, h]
  rfl

theorem step_of_conflict {c : Search} (h : s.simplify = .ok (.conflict, c)) :
    s.step = c.countConflict.backtrack := by
  unfold step
  rw [h]
  rfl

theorem step_of_satisfied {c : Search} {changed : Bool}
    (h : s.simplify = .ok (.rest changed, c)) (hsatisfied : c.branch.isSatisfied = true) :
    s.step = .ok (.ends (.satisfied c.model) (c.record (.satisfiable c.stats))) := by
  unfold step
  rw [h]
  simp only [hsatisfied, bind, Except.bind, if_true]
  rfl

theorem step_of_nextVariable {c : Search} {changed : Bool} {v : Variable}
    (h : s.simplify = .ok (.rest changed, c)) (hsatisfied : c.branch.isSatisfied = false)
    (hv : c.branch.nextVariable? = some v) : s.step = c.decide v.positive false := by
  unfold step
  rw [h]
  simp only [hsatisfied, hv, bind, Except.bind, Bool.false_eq_true, if_false]

/-- A step meets a conflict, finds a satisfied branch, or decides the next variable. -/
theorem step_cases (h : Branch.Of clauses s.branch) :
    ∃ c, Keeps s c ∧
      Branch.Simplifies s.config.pureLiteralElimination s.branch c.branch ∧
      ((s.simplify = .ok (.conflict, c) ∧ c.branch.Conflicting) ∨
        (c.branch.isSatisfied = true ∧
          s.step = .ok (.ends (.satisfied c.model) (c.record (.satisfiable c.stats)))) ∨
        ∃ v, c.branch.nextVariable? = some v ∧ s.step = c.decide v.positive false) := by
  rcases simplify_exists h with ⟨result, c, hsimplify, houtcome⟩
  refine ⟨c, houtcome.keeps, houtcome.simplifies, ?_⟩
  have hof := h.of_simplifies houtcome.simplifies
  cases result with
  | conflict => exact Or.inl ⟨hsimplify, houtcome.conflict rfl⟩
  | rest changed =>
      right
      have hrest := houtcome.rest changed rfl
      by_cases hsatisfied : c.branch.isSatisfied = true
      · exact Or.inl ⟨hsatisfied, step_of_satisfied hsimplify hsatisfied⟩
      · right
        rw [Bool.not_eq_true] at hsatisfied
        cases hnext : c.branch.nextVariable? with
        | none =>
            rw [hof.isSatisfied_of_nextVariable?_eq_none hnext hrest.hasFalsified]
              at hsatisfied
            contradiction
        | some v => exact ⟨v, rfl, step_of_nextVariable hsimplify hsatisfied hnext⟩

/-! ## Subtrees -/

/-- What the steps from a search on come to before they leave the subtree below it. -/
inductive Explored (clauses : List Clause) (s : Search) (steps : Nat) : Prop
  | satisfied (last c final : Search) (hruns : Runs s steps last)
      (hstep : last.step = .ok (.ends (.satisfied c.model) final))
      (hsame : SameProblem s c)
      (hdescends : Branch.Descends clauses (fun _ => True) s.branch c.branch)
      (hsatisfied : c.branch.isSatisfied = true)
  | cancelled (last final : Search) (decisions : Nat) (hruns : Runs s steps last)
      (hstep : last.step = .ok (.ends (.cancelled decisions) final))
      (hrequested : s.cancellation.requested decisions = true)
  | exhausted (last c : Search) (hruns : Runs s steps last)
      (hconflict : last.simplify = .ok (.conflict, c)) (hsame : SameProblem s c)
      (hdescends : Branch.Descends clauses Branch.Spent s.branch c.branch)
      (hnone : ¬s.branch.Extensible clauses)

/-- Unless the subtree below a later search is exhausted, it decides what the steps come to. -/
theorem Explored.prepend {m n : Nat} (h : Branch.Of clauses s.branch) (hruns : Runs s m mid)
    (hsame : SameProblem s mid)
    (hdescends : Branch.Descends clauses (fun _ => True) s.branch mid.branch)
    (hmid : Explored clauses mid n) :
    Explored clauses s (m + n) ∨
      ∃ last c, Runs s (m + n) last ∧ last.simplify = .ok (.conflict, c) ∧ SameProblem s c ∧
        Branch.Descends clauses Branch.Spent mid.branch c.branch ∧
        ¬mid.branch.Extensible clauses := by
  cases hmid with
  | satisfied last c final hlast hstep hc hdown hsatisfied =>
      exact Or.inl (.satisfied last c final (hruns.trans hlast) hstep (hsame.trans hc)
        (h.descends_trans hdescends hdown) hsatisfied)
  | cancelled last final decisions hlast hstep hrequested =>
      rw [hsame.cancellation] at hrequested
      exact Or.inl (.cancelled last final decisions (hruns.trans hlast) hstep hrequested)
  | exhausted last c hlast hconflict hc hdown hnone =>
      exact Or.inr ⟨last, c, hruns.trans hlast, hconflict, hsame.trans hc, hdown, hnone⟩

/-- The search goes on with a decision, and what it comes to below it is known. -/
theorem explored_of_decide {c : Search} {l : Literal} {flipped : Bool} {m bound : Nat}
    (h : Branch.Of clauses s.branch) (hruns : Runs s m last)
    (hlast : last.step = c.decide l flipped) (hsame : SameProblem s c)
    (hdown : Branch.Descends clauses (fun _ => True) s.branch c.branch)
    (hl : l.var ∈ remainingVariables clauses c.branch.binding) (hbound : 0 < bound)
    (hbelow : ∀ next : Search, Branch.Of clauses next.branch →
      (remainingVariables clauses next.branch.binding).card <
        (remainingVariables clauses c.branch.binding).card →
      ∃ steps, steps + 1 < bound ∧ Explored clauses next steps) :
    ∃ steps, steps ≤ m + bound - 1 ∧
      (Explored clauses s steps ∨
        ∃ above : Branch, c.branch.assign l (.decision flipped) = .ok above ∧
          ¬above.Extensible clauses ∧
          ∃ last d, Runs s steps last ∧ last.simplify = .ok (.conflict, d) ∧
            SameProblem s d ∧ Branch.Descends clauses Branch.Spent above d.branch) := by
  have hof := h.of_descends hdown
  have hunbound : c.branch.binding.binds l.var = false := by
    rcases mem_remainingVariables.mp hl with ⟨k, hk, hremains⟩
    rw [← hk]
    exact hremains.1
  rcases decide_cases hof hunbound flipped with ⟨hrequested, hdecide⟩ |
    ⟨_, next, hdecide, hassign, hnext⟩
  · rw [hsame.cancellation] at hrequested
    exact ⟨m, by omega, Or.inl (.cancelled last _ _ hruns (hlast.trans hdecide) hrequested)⟩
  · obtain ⟨n, hn, hexplored⟩ :=
      hbelow next (hof.assign hassign) (hof.card_lt_of_assign hassign hl)
    have hto : Branch.Descends clauses (fun _ => True) s.branch next.branch :=
      h.descends_trans hdown (Branch.descends_of_assign hassign hl trivial)
    refine ⟨m + 1 + n, by omega, ?_⟩
    rcases hexplored.prepend h (hruns.snoc (hlast.trans hdecide)) (hsame.trans hnext) hto with
      hdone | ⟨last', d, hlast', hconflict, hd, hspent, hnone⟩
    · exact Or.inl hdone
    · exact Or.inr ⟨next.branch, hassign, hnone, last', d, hlast', hconflict, hd, hspent⟩

/-- Both choices for a variable are explored, the opposite one after a conflict below the first. -/
theorem explored_of_choice {c : Search} {v : Variable} {bound : Nat}
    (h : Branch.Of clauses s.branch) (hsame : SameProblem s c)
    (hsimplifies : Branch.Simplifies s.config.pureLiteralElimination s.branch c.branch)
    (hv : v ∈ remainingVariables clauses c.branch.binding)
    (hstep : s.step = c.decide v.positive false) (hbound : 0 < bound)
    (hbelow : ∀ next : Search, Branch.Of clauses next.branch →
      (remainingVariables clauses next.branch.binding).card <
        (remainingVariables clauses c.branch.binding).card →
      ∃ steps, steps + 1 < bound ∧ Explored clauses next steps) :
    ∃ steps, steps + 1 < 2 * bound ∧ Explored clauses s steps := by
  have hof := h.of_simplifies hsimplifies
  have hdown := h.descends_of_simplifies hsimplifies
  obtain ⟨m, hm, hdone | ⟨first, hfirst, hfirstNone, last, d, hlast, hconflict, hd, hspent⟩⟩ :=
    explored_of_decide h (.refl s) hstep hsame (hdown.mono fun _ _ => trivial) hv
      hbound hbelow
  · exact ⟨m, by omega, hdone⟩
  obtain ⟨back, hback, hkeeps, hbacktrack⟩ :=
    backtrack_below_decision (s := d.countConflict) hof hfirst hspent
  have hlastStep : last.step = back.decide (-v.positive) true := by
    rw [step_of_conflict hconflict, hbacktrack]
  have hbackSame : SameProblem s back :=
    hd.trans ⟨hkeeps.config, hkeeps.cancellation, hkeeps.scope⟩
  rw [← hback] at hdown hsimplifies hv hbelow hfirst hof
  obtain ⟨n, hn, hdone |
      ⟨second, hsecond, hsecondNone, last', e, hlast', hconflict', he, hspent'⟩⟩ :=
    explored_of_decide h hlast hlastStep hbackSame (hdown.mono fun _ _ => trivial) hv
      hbound hbelow
  · exact ⟨n, by omega, hdone⟩
  refine ⟨n, by omega, .exhausted last' e hlast' hconflict' he ?_ ?_⟩
  · have hto : Branch.Descends clauses Branch.Spent back.branch second :=
      Branch.descends_of_assign hsecond hv (by simp)
    exact h.descends_trans (h.descends_trans (h.spent_of_simplifies hsimplifies) hto) hspent'
  · intro hextensible
    exact hof.not_extensible_of_both hfirst hsecond hfirstNone hsecondNone
      (h.extensible_of_simplifies hsimplifies hextensible)

theorem explored_exists (h : Branch.Of clauses s.branch) :
    ∃ steps, steps + 1 < 2 ^ ((remainingVariables clauses s.branch.binding).card + 1) ∧
      Explored clauses s steps := by
  induction hcard : (remainingVariables clauses s.branch.binding).card using
    Nat.strong_induction_on generalizing s with
  | _ n ih =>
      have hone : 0 + 1 < 2 ^ (n + 1) := Nat.one_lt_two_pow (Nat.succ_ne_zero n)
      rcases step_cases h with ⟨c, hkeeps, hsimplifies, hcases⟩
      have hsame := hkeeps.toSameProblem
      have hdown := h.descends_of_simplifies hsimplifies
      have hof := h.of_simplifies hsimplifies
      rcases hcases with ⟨hconflict, hconflicting⟩ | ⟨hsatisfied, hstep⟩ | ⟨v, hnext, hstep⟩
      · refine ⟨0, hone, .exhausted s c (.refl s) hconflict hsame
          (h.spent_of_simplifies hsimplifies) ?_⟩
        intro hextensible
        exact hof.not_extensible hconflicting
          (h.extensible_of_simplifies hsimplifies hextensible)
      · exact ⟨0, hone, .satisfied s c _ (.refl s) hstep hsame (hdown.mono fun _ _ => trivial)
          hsatisfied⟩
      · have hv : v ∈ remainingVariables clauses c.branch.binding :=
          mem_remainingVariables.mpr (hof.nextVariable?_eq_some hnext).1
        have hle := h.card_le_of_descends hdown
        have hbound : 2 ^ (n + 1) = 2 * 2 ^ n := by
          rw [Nat.pow_succ, Nat.mul_comm]
        rw [hbound]
        apply explored_of_choice h hsame hsimplifies hv hstep (Nat.two_pow_pos n)
        intro next hnext hfewer
        rcases ih _ (by omega) hnext rfl with ⟨steps, hsteps, hexplored⟩
        have hpow : 2 ^ ((remainingVariables clauses next.branch.binding).card + 1) ≤ 2 ^ n :=
          Nat.pow_le_pow_right (by omega) (by omega)
        exact ⟨steps, by omega, hexplored⟩

/-! ## Whole searches -/

/-- A search without an untried decision ends after a number of steps that the full binary tree of
its remaining variables bounds: with a satisfied branch, cancelled, or without any model that
extends its branch. -/
theorem ends_cases (h : Branch.Of clauses s.branch)
    (hsettled : Branch.Settled s.branch.trail.entries) :
    ∃ steps last verdict final,
      steps + 1 < 2 ^ ((remainingVariables clauses s.branch.binding).card + 1) ∧
      Runs s steps last ∧ last.step = .ok (.ends verdict final) ∧
      ((∃ c : Search, verdict = .satisfied c.model ∧ SameProblem s c ∧
          Branch.Descends clauses (fun _ => True) s.branch c.branch ∧
          c.branch.isSatisfied = true) ∨
        (∃ decisions, verdict = .cancelled decisions ∧
          s.cancellation.requested decisions = true) ∨
        verdict = .unsatisfiable ∧ ¬s.branch.Extensible clauses) := by
  obtain ⟨steps, hsteps, hexplored⟩ := explored_exists h
  cases hexplored with
  | satisfied last c final hruns hstep hsame hdown hsatisfied =>
      exact ⟨steps, last, _, final, hsteps, hruns, hstep,
        Or.inl ⟨c, rfl, hsame, hdown, hsatisfied⟩⟩
  | cancelled last final decisions hruns hstep hrequested =>
      exact ⟨steps, last, _, final, hsteps, hruns, hstep,
        Or.inr (Or.inl ⟨decisions, rfl, hrequested⟩)⟩
  | exhausted last c hruns hconflict hsame hdown hnone =>
      obtain ⟨newer, hnewer, hspent⟩ := h.settled_of_descends hdown
      have hall : Branch.Settled c.countConflict.branch.trail.entries := by
        intro e he
        have hmem : e ∈ newer ++ s.branch.trail.entries := hnewer ▸ he
        rcases List.mem_append.mp hmem with hmem | hmem
        · exact hspent e hmem
        · exact hsettled e hmem
      have hof : Branch.Of clauses c.countConflict.branch := h.of_descends hdown
      obtain ⟨final, hfinal⟩ := backtrack_of_settled hof hall
      exact ⟨steps, last, _, final, hsteps, hruns, (step_of_conflict hconflict).trans hfinal,
        Or.inr (Or.inr ⟨rfl, hnone⟩)⟩

theorem Runs.runWithin_of_ends {n fuel : Nat} (h : Runs s n last) {verdict : Verdict}
    {final : Search} (hlast : last.step = .ok (.ends verdict final)) (hfuel : n < fuel) :
    s.runWithin fuel = .ok (verdict, final) := by
  obtain ⟨rest, rfl⟩ : ∃ rest, fuel = n + (rest + 1) := ⟨fuel - n - 1, by omega⟩
  rw [h.runWithin_eq, Search.runWithin_of_ends hlast]

/-- The bound that the search sets itself is large enough. -/
theorem Runs.solve_eq_ok {n : Nat} (h : Branch.Of clauses s.branch)
    (hruns : Runs s.announce n last) {verdict : Verdict} {final : Search}
    (hlast : last.step = .ok (.ends verdict final))
    (hn : n + 1 < 2 ^ ((remainingVariables clauses s.branch.binding).card + 1)) :
    s.solve = .ok (verdict, final) := by
  have hsize := h.card_remainingVariables_le_size
  have htree : 2 ^ ((remainingVariables clauses s.branch.binding).card + 1) ≤ s.treeSize :=
    Nat.pow_le_pow_right (by omega) (by omega)
  exact hruns.runWithin_of_ends hlast (by omega)

/-- A search without an untried decision comes to an end: with a satisfied branch, cancelled, or
without any model that extends its branch. -/
theorem solve_cases (h : Branch.Of clauses s.branch)
    (hsettled : Branch.Settled s.branch.trail.entries) :
    (∃ c final, s.solve = .ok (.satisfied c.model, final) ∧ SameProblem s c ∧
      Branch.Descends clauses (fun _ => True) s.branch c.branch ∧
      c.branch.isSatisfied = true) ∨
    (∃ decisions final, s.solve = .ok (.cancelled decisions, final) ∧
      s.cancellation.requested decisions = true) ∨
    ∃ final, s.solve = .ok (.unsatisfiable, final) ∧ ¬s.branch.Extensible clauses := by
  have hannounced : Branch.Of clauses s.announce.branch := h
  obtain ⟨steps, last, verdict, final, hsteps, hruns, hend, hcases⟩ :=
    ends_cases hannounced hsettled
  have hsolve := hruns.solve_eq_ok h hend hsteps
  rcases hcases with ⟨c, rfl, hsame, hdown, hsatisfied⟩ | ⟨decisions, rfl, hrequested⟩ |
    ⟨rfl, hnone⟩
  · exact Or.inl ⟨c, final, hsolve, ⟨hsame.config, hsame.cancellation, hsame.scope⟩, hdown,
      hsatisfied⟩
  · exact Or.inr (Or.inl ⟨decisions, final, hsolve, hrequested⟩)
  · exact Or.inr (Or.inr ⟨final, hsolve, hnone⟩)

theorem solve_exists (h : Branch.Of clauses s.branch)
    (hsettled : Branch.Settled s.branch.trail.entries) :
    ∃ verdict final, s.solve = .ok (verdict, final) := by
  rcases solve_cases h hsettled with ⟨c, final, hsolve, _⟩ | ⟨decisions, final, hsolve, _⟩ |
    ⟨final, hsolve, _⟩
  · exact ⟨.satisfied c.model, final, hsolve⟩
  · exact ⟨.cancelled decisions, final, hsolve⟩
  · exact ⟨.unsatisfiable, final, hsolve⟩

end Search

end SatSearch
