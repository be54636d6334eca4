import SatSearch.Solver
import SatSearch.Proofs.Simplification

/-!
# Reachable searches

A host can ask a search to infer literals, to simplify, to decide and to backtrack, in any order.
Every search that is reached this way is on a branch of the starting clauses, so its parts agree
with each other.  It also remembers where its decisions were made: what backtracking leads to is
the search that made the newest decision whose opposite is untried, with the opposite decided.
-/

namespace SatSearch

namespace Search

variable {clauses : List Clause} {s : Search}

/-! ## The start -/

theorem entries_eq_openEntries {cs : List WorkingClause} (h : ∀ w ∈ cs, w.satisfied = false) :
    WorkingFormula.entries cs = WorkingFormula.openEntries cs := by
  unfold WorkingFormula.entries WorkingFormula.openEntries
  congr 1
  symm
  apply List.filter_eq_self.mpr
  rintro ⟨w, n⟩ hw
  simp [h w (List.fst_mem_of_mem_zipIdx hw)]

theorem startingIndex_eq_build (config : SearchConfig) (entries : List IndexEntry) :
    startingIndex config entries = .build entries := by
  unfold startingIndex
  split
  · rw [OccurrenceIndex.buildInChunks_eq_build]
  · rfl

theorem branch_start (f : Formula) (starting : Binding) (config : SearchConfig)
    (cancellation : Cancellation) :
    (start f starting config cancellation).branch =
      Branch.root (startingClauses f starting) := by
  have hopen : ∀ w ∈ (startingClauses f starting).map
      (fun c => WorkingClause.ofLiterals c.literals), w.satisfied = false := by
    intro w hw
    rcases List.mem_map.mp hw with ⟨c, _, rfl⟩
    rfl
  unfold start startingFormula Branch.root WorkingFormula.ofClauses
  simp only [startingIndex_eq_build, entries_eq_openEntries hopen]

theorem prepare_eq_ok_iff {f : Formula} {starting : Binding} {config : SearchConfig}
    {cancellation : Cancellation} : prepare f starting config cancellation = .ok s ↔
      foreignVariable? f starting = none ∧ s = start f starting config cancellation := by
  unfold prepare
  split
  next v hv => simp [hv]
  next hnone => simp [hnone, eq_comm]

theorem prepare_eq_ok {f : Formula} {starting : Binding} {config : SearchConfig}
    {cancellation : Cancellation} (h : prepare f starting config cancellation = .ok s) :
    s = start f starting config cancellation :=
  (prepare_eq_ok_iff.mp h).2

/-! ## Decisions and backtracking -/

/-- Deciding an unbound variable is refused by a cancellation only. -/
theorem decide_cases (h : Branch.Of clauses s.branch) {l : Literal}
    (hl : s.branch.binding.binds l.var = false) (flipped : Bool) :
    (s.cancellation.requested s.stats.decisions = true ∧
      s.decide l flipped =
        .ok (.ends (.cancelled s.stats.decisions) (s.record (.cancelled s.stats)))) ∨
    s.cancellation.requested s.stats.decisions = false ∧
      ∃ next, s.decide l flipped = .ok (.continues next) ∧
        s.branch.assign l (.decision flipped) = .ok next.branch ∧ SameProblem s next := by
  unfold decide
  cases hrequested : s.cancellation.requested s.stats.decisions with
  | true => exact Or.inl ⟨rfl, rfl⟩
  | false =>
      rcases h.assign_exists hl (.decision flipped) with ⟨branch, _, hbranch, _⟩
      right
      simp only [Bool.false_eq_true, if_false, hbranch, bind, Except.bind]
      exact ⟨trivial, _, rfl, rfl, ⟨rfl, rfl, rfl⟩⟩

/-- Backtracking takes everything back, or goes on from the newest decision whose opposite is
untried. -/
theorem backtrack_cases (h : Branch.Of clauses s.branch) :
    (Branch.Settled s.branch.trail.entries ∧ ∃ next,
      s.backtrack = .ok (.ends .unsatisfiable next) ∧ next.branch = Branch.root clauses ∧
      Keeps s next) ∨
    ∃ newer e older mid, s.branch.trail.entries = newer ++ e :: older ∧
      Branch.Settled newer ∧ e.cause = .decision false ∧ Branch.Of clauses mid.branch ∧
      mid.branch.trail.entries = older ∧ mid.branch.binding.binds e.literal.var = false ∧
      Keeps s mid ∧ s.backtrack = mid.decide (-e.literal) true := by
  unfold backtrack
  rcases h.unwind_cases with ⟨hsettled, hunwind⟩ |
    ⟨newer, e, older, before, htrail, hsettled, hcause, hbefore, holder, hunbound, hunwind⟩
  · left
    refine ⟨hsettled, ({ s with branch := Branch.root clauses }.record (.unsatisfiable s.stats)),
      ?_, rfl, ⟨rfl, rfl, rfl⟩, rfl, rfl⟩
    simp only [hunwind, bind, Except.bind]
    rfl
  · right
    refine ⟨newer, e, older, { s with branch := before }.record (.backtracking e.literal),
      htrail, hsettled, hcause, hbefore, holder, hunbound, ⟨⟨rfl, rfl, rfl⟩, rfl, rfl⟩, ?_⟩
    simp only [hunwind, bind, Except.bind]

theorem backtrack_exists (h : Branch.Of clauses s.branch) : ∃ step, s.backtrack = .ok step := by
  rcases backtrack_cases h with ⟨_, next, hnext, _⟩ |
    ⟨_, e, _, mid, _, _, _, hmid, _, hunbound, _, hback⟩
  · exact ⟨_, hnext⟩
  · rw [hback]
    rcases decide_cases (l := -e.literal) hmid hunbound true with ⟨_, hrefused⟩ |
      ⟨_, next, hnext, _⟩
    · exact ⟨_, hrefused⟩
    · exact ⟨_, hnext⟩

/-! ## Calls -/

/-- What a host can ask of a search. -/
inductive Call where
  | infer (literals : List Literal)
  | simplify
  | decide (literal : Literal) (flipped : Bool)
  | backtrack
deriving DecidableEq, Repr

/-- The variables to be assigned are distinct and unbound. -/
def Call.Allowed (s : Search) : Call → Prop
  | infer ls =>
    (ls.map Literal.var).Nodup ∧ ∀ l ∈ ls, s.branch.binding.binds l.var = false
  | simplify | backtrack => True
  | decide l _ => s.branch.binding.binds l.var = false

def Step.search : Step → Search
  | continues s => s
  | ends _ s => s

/-- The search after a call, whatever the call answers. -/
def perform (s : Search) : Call → Except Fault Search
  | .infer ls => s.infer ls
  | .simplify => s.simplify.map Prod.snd
  | .decide l flipped => (s.decide l flipped).map Step.search
  | .backtrack => s.backtrack.map Step.search

/-- The searches that finitely many allowed calls lead to. -/
inductive Reachable (s₀ : Search) : Search → Prop
  | start : Reachable s₀ s₀
  | perform {s next : Search} (call : Call) (hs : Reachable s₀ s) (hallowed : call.Allowed s)
      (hnext : s.perform call = .ok next) : Reachable s₀ next

/-- The later branch keeps some of the oldest assignments and adds none that unwinding would stop
at. -/
def Extends (b next : Branch) : Prop :=
  ∃ fresh kept dropped, next.trail.entries = fresh ++ kept ∧
    b.trail.entries = dropped ++ kept ∧ Branch.Settled fresh

/-- What a call makes of a search. -/
inductive Performed (clauses : List Clause) (s next : Search) : Prop
  | extended (hof : Branch.Of clauses next.branch) (hsame : SameProblem s next)
      (hextends : Extends s.branch next.branch)
  | decided (l : Literal) (hof : Branch.Of clauses next.branch) (hsame : SameProblem s next)
      (hdecide : s.decide l false = .ok (.continues next))
      (hassign : s.branch.assign l (.decision false) = .ok next.branch)

theorem Extends.refl (b : Branch) : Extends b b :=
  ⟨[], b.trail.entries, [], rfl, rfl, by simp [Branch.Settled]⟩

theorem extends_of_assignAll {b last : Branch} (h : Branch.Of clauses b) {ls : List Literal}
    (hlast : b.assignAll ls .inference = .ok last) : Extends b last := by
  obtain ⟨newer, hnewer, _, hcause⟩ := h.newer_of_assignAll hlast
  refine ⟨newer, b.trail.entries, [], hnewer, rfl, ?_⟩
  intro e he
  rw [hcause e he]
  exact Cause.noConfusion

theorem extends_of_assign {b before next : Branch} (hbefore : Branch.Of clauses before)
    {dropped : List TrailEntry} (hdropped : b.trail.entries = dropped ++ before.trail.entries)
    {l : Literal} (hnext : before.assign l (.decision true) = .ok next) : Extends b next := by
  rcases hbefore.assign_eq_ok hnext with ⟨e, _, htrail, _, hcause, _⟩
  refine ⟨[e], before.trail.entries, dropped, htrail, hdropped, ?_⟩
  intro d hd
  rw [List.mem_singleton.mp hd, hcause]
  simp

theorem perform_infer (h : Branch.Of clauses s.branch) {ls : List Literal}
    (hallowed : (Call.infer ls).Allowed s) :
    ∃ next, s.perform (.infer ls) = .ok next ∧ Performed clauses s next := by
  rcases h.assignAll_exists hallowed.1 hallowed.2 .inference with ⟨last, hlast⟩
  exact ⟨_, infer_eq_ok hlast,
    .extended (h.of_assignAll hlast) ⟨rfl, rfl, rfl⟩ (extends_of_assignAll h hlast)⟩

theorem perform_simplify (h : Branch.Of clauses s.branch) :
    ∃ next, s.perform .simplify = .ok next ∧ Performed clauses s next := by
  rcases simplify_exists h with ⟨_, next, hnext, houtcome⟩
  rcases h.steps_of_simplifies houtcome.simplifies with ⟨_, hlast, _⟩
  refine ⟨next, ?_, .extended (h.of_assignAll hlast) houtcome.keeps.toSameProblem
    (extends_of_assignAll h hlast)⟩
  simp only [perform, hnext]
  rfl

theorem perform_decide (h : Branch.Of clauses s.branch) {l : Literal} (flipped : Bool)
    (hallowed : (Call.decide l flipped).Allowed s) :
    ∃ next, s.perform (.decide l flipped) = .ok next ∧ Performed clauses s next := by
  simp only [perform]
  rcases decide_cases h hallowed flipped with ⟨_, hdecide⟩ |
    ⟨_, next, hdecide, hassign, hsame⟩
  · rw [hdecide]
    exact ⟨_, rfl, .extended h ⟨rfl, rfl, rfl⟩ (Extends.refl s.branch)⟩
  · refine ⟨next, by rw [hdecide]; rfl, ?_⟩
    cases flipped with
    | false => exact .decided l (h.assign hassign) hsame hdecide hassign
    | true =>
        exact .extended (h.assign hassign) hsame
          (extends_of_assign h (List.nil_append _).symm hassign)

theorem perform_backtrack (h : Branch.Of clauses s.branch) :
    ∃ next, s.perform .backtrack = .ok next ∧ Performed clauses s next := by
  simp only [perform]
  rcases backtrack_cases h with ⟨_, next, hnext, hroot, hkeeps⟩ |
    ⟨newer, e, older, mid, htrail, _, _, hmid, holder, hunbound, hkeeps, hback⟩
  · refine ⟨next, by rw [hnext]; rfl,
      .extended (.of_eq_root hroot) hkeeps.toSameProblem ?_⟩
    exact ⟨[], [], s.branch.trail.entries, by rw [hroot]; rfl, by simp,
      by simp [Branch.Settled]⟩
  · have hdropped : s.branch.trail.entries = (newer ++ [e]) ++ mid.branch.trail.entries := by
      rw [htrail, holder, List.append_assoc]
      rfl
    rw [hback]
    rcases decide_cases (l := -e.literal) hmid hunbound true with ⟨_, hdecide⟩ |
      ⟨_, next, hdecide, hassign, hsame⟩
    · rw [hdecide]
      refine ⟨_, rfl, .extended hmid (hkeeps.toSameProblem.trans ⟨rfl, rfl, rfl⟩) ?_⟩
      exact ⟨[], mid.branch.trail.entries, newer ++ [e], rfl, hdropped,
        by simp [Branch.Settled]⟩
    · exact ⟨next, by rw [hdecide]; rfl, .extended (hmid.assign hassign)
        (hkeeps.toSameProblem.trans hsame) (extends_of_assign hmid hdropped hassign)⟩

/-- Every allowed call succeeds. -/
theorem perform_exists (h : Branch.Of clauses s.branch) {call : Call}
    (hallowed : call.Allowed s) :
    ∃ next, s.perform call = .ok next ∧ Performed clauses s next := by
  cases call with
  | infer ls => exact perform_infer h hallowed
  | simplify => exact perform_simplify h
  | decide l flipped => exact perform_decide h flipped hallowed
  | backtrack => exact perform_backtrack h

theorem performed (h : Branch.Of clauses s.branch) {call : Call} (hallowed : call.Allowed s)
    {next : Search} (hnext : s.perform call = .ok next) : Performed clauses s next := by
  rcases perform_exists h hallowed with ⟨other, hother, hperformed⟩
  rw [hnext] at hother
  cases hother
  exact hperformed

theorem Reachable.of {s₀ : Search} (hs : Reachable s₀ s) (h₀ : Branch.Of clauses s₀.branch) :
    Branch.Of clauses s.branch := by
  induction hs with
  | start => exact h₀
  | perform call _ hallowed hnext ih =>
      cases performed ih hallowed hnext with
      | extended hof => exact hof
      | decided _ hof => exact hof

theorem Reachable.sameProblem {s₀ : Search} (hs : Reachable s₀ s)
    (h₀ : Branch.Of clauses s₀.branch) : SameProblem s₀ s := by
  induction hs with
  | start => exact SameProblem.refl s₀
  | perform call hs hallowed hnext ih =>
      cases performed (hs.of h₀) hallowed hnext with
      | extended _ hsame => exact ih.trans hsame
      | decided _ _ hsame => exact ih.trans hsame

/-! ## The parts of a reachable search -/

/-- What the parts of a branch have to do with each other and with the given clauses. -/
structure Coherent (clauses : List Clause) (b : Branch) : Prop where
  size : b.formula.clauses.size = clauses.length
  satisfied_iff : ∀ (n : Nat) (c : Clause) (w : WorkingClause), clauses[n]? = some c →
    b.formula.clauses[n]? = some w →
    (w.satisfied = true ↔ ∃ l ∈ c.literals, b.binding.value? l = some true)
  literals_eq : ∀ (n : Nat) (c : Clause) (w : WorkingClause), clauses[n]? = some c →
    b.formula.clauses[n]? = some w → w.satisfied = false →
    w.literals = c.literals.eraseDups.filter fun l => !b.binding.binds l.var
  mem_statuses : ∀ (status : ClauseStatus) (n : Nat), n ∈ b.formula.statuses.get status ↔
    ∃ w, b.formula.clauses[n]? = some w ∧ w.status = status
  index : b.formula.index =
    .build (WorkingFormula.openEntries b.formula.clauses.toList)
  binding : ∀ (v : Variable) (value : Bool), b.binding.get? v = some value ↔
    ∃ e ∈ b.trail.entries, e.literal = ⟨v, value⟩
  nodup : (b.trail.entries.map fun e => e.literal.var).Nodup

theorem coherent_of {b : Branch} (h : Branch.Of clauses b) : Coherent clauses b where
  size := by
    rw [← Array.length_toList]
    exact h.tracks.residues.length_eq.symm
  satisfied_iff := fun n c w hc hw => (h.residue hc hw).satisfied_iff
  literals_eq := fun n c w hc hw => (h.residue hc hw).literals_eq
  mem_statuses := by
    intro status n
    have hstatuses : b.formula.statuses = .ofClauses b.formula.clauses.toList :=
      congrArg WorkingFormula.statuses h.tracks.formula_eq
    rw [hstatuses, StatusSets.mem_get_ofClauses]
    simp only [Array.getElem?_toList]
  index := congrArg WorkingFormula.index h.tracks.formula_eq
  binding := by
    intro v value
    have hvalue := h.tracks.value?_iff ⟨v, value⟩
    rw [Binding.value?_eq_some_iff, List.mem_map] at hvalue
    simpa using hvalue
  nodup := h.tracks.nodup

/-! ## Where decisions were made -/

/-- Each decision on the trail whose opposite is untried was made by a search on the way, whose
trail was the part below it. -/
def Remembers (s₀ s : Search) : Prop :=
  ∀ newer e older, s.branch.trail.entries = newer ++ e :: older → e.cause = .decision false →
    ∃ s₁ s₂, Reachable s₀ s₁ ∧ s₁.branch.trail.entries = older ∧
      s₁.decide e.literal false = .ok (.continues s₂) ∧
      s₁.branch.assign e.literal (.decision false) = .ok s₂.branch ∧ Reachable s₂ s

theorem Remembers.extended {s₀ next : Search} (h : Remembers s₀ s) {call : Call}
    (hallowed : call.Allowed s) (hnext : s.perform call = .ok next)
    (hextends : Extends s.branch next.branch) : Remembers s₀ next := by
  rcases hextends with ⟨fresh, kept, dropped, hnextTrail, htrail, hsettled⟩
  intro newer e older hsplit hcause
  have hkept : ∃ front, kept = front ++ e :: older := by
    rw [hnextTrail] at hsplit
    rcases List.append_eq_append_iff.mp hsplit with ⟨front, _, hkept⟩ | ⟨back, hfresh, hback⟩
    · exact ⟨front, hkept⟩
    · cases back with
      | nil => exact ⟨[], hback.symm⟩
      | cons d back =>
          rw [List.cons_append, List.cons.injEq] at hback
          have hmem : e ∈ fresh := by
            rw [hfresh, hback.1]
            simp
          exact absurd hcause (hsettled e hmem)
  rcases hkept with ⟨front, rfl⟩
  have hbelow : s.branch.trail.entries = (dropped ++ front) ++ e :: older := by
    rw [htrail, List.append_assoc]
  rcases h (dropped ++ front) e older hbelow hcause with ⟨s₁, s₂, hs₁, holder, hdecide, hassign, hs⟩
  exact ⟨s₁, s₂, hs₁, holder, hdecide, hassign, hs.perform call hallowed hnext⟩

theorem Remembers.decided {s₀ next : Search} (h : Remembers s₀ s) (hs : Reachable s₀ s)
    (hof : Branch.Of clauses s.branch) {call : Call} (hallowed : call.Allowed s)
    (hnext : s.perform call = .ok next) {l : Literal}
    (hdecide : s.decide l false = .ok (.continues next))
    (hassign : s.branch.assign l (.decision false) = .ok next.branch) : Remembers s₀ next := by
  rcases hof.assign_eq_ok hassign with ⟨d, _, htrail, hliteral, _⟩
  intro newer e older hsplit hcause
  rw [htrail] at hsplit
  cases newer with
  | nil =>
      rcases List.cons.inj hsplit with ⟨rfl, rfl⟩
      rw [hliteral]
      exact ⟨s, next, hs, rfl, hdecide, hassign, .start⟩
  | cons x newer =>
      obtain ⟨s₁, s₂, hs₁, holder, hmade, hadded, hreached⟩ :=
        h newer e older (List.cons.inj hsplit).2 hcause
      exact ⟨s₁, s₂, hs₁, holder, hmade, hadded, hreached.perform call hallowed hnext⟩

theorem Reachable.remembers {s₀ : Search} (hs : Reachable s₀ s)
    (h₀ : s₀.branch = Branch.root clauses) : Remembers s₀ s := by
  have hroot := Branch.Of.of_eq_root h₀
  induction hs with
  | start =>
      intro newer e older hsplit
      rw [h₀] at hsplit
      simp [Branch.root] at hsplit
  | perform call hs hallowed hnext ih =>
      cases performed (hs.of hroot) hallowed hnext with
      | extended _ _ hextends => exact ih.extended hallowed hnext hextends
      | decided l _ _ hdecide hassign =>
          exact ih.decided hs (hs.of hroot) hallowed hnext hdecide hassign

/-- Backtracking goes on from the search that made the newest decision whose opposite is
untried. -/
theorem Reachable.backtrack_continues {s₀ next : Search} (hs : Reachable s₀ s)
    (h₀ : s₀.branch = Branch.root clauses) (hnext : s.backtrack = .ok (.continues next)) :
    ∃ s₁ s₂ d since, Reachable s₀ s₁ ∧ s₁.decide d false = .ok (.continues s₂) ∧
      Reachable s₂ s ∧ s₂.branch.assignEach since = .ok s.branch ∧
      (∀ step ∈ since, step.2 ≠ .decision false) ∧
      s₁.branch.assign (-d) (.decision true) = .ok next.branch ∧ SameProblem s₁ next := by
  have hroot := Branch.Of.of_eq_root h₀
  have hof := hs.of hroot
  rcases backtrack_cases hof with ⟨_, _, hends, _⟩ |
    ⟨newer, e, older, mid, htrail, hsettled, hcause, hmid, holder, hunbound, hkeeps, hback⟩
  · rw [hnext] at hends
    cases hends
  obtain ⟨s₁, s₂, hs₁, hbelow, hdecide, hassign, hreached⟩ :=
    hs.remembers h₀ newer e older htrail hcause
  have hof₁ := hs₁.of hroot
  have hsame : mid.branch = s₁.branch := by
    apply hmid.eq_of_steps hof₁
    unfold Branch.steps
    rw [holder, hbelow]
  rcases decide_cases (l := -e.literal) hmid hunbound true with ⟨_, hrefused⟩ |
    ⟨_, other, hother, hflipped, hproblem⟩
  · rw [hback, hrefused] at hnext
    cases hnext
  rw [hback, hother] at hnext
  cases hnext
  rcases hof.before htrail with ⟨before, hbefore, hbeforeTrail, hsince⟩
  have hmade : before = s₂.branch := by
    rcases hof₁.assign_eq_ok hassign with ⟨d, _, hd, hliteral, hdcause, _⟩
    apply hbefore.eq_of_steps (hof₁.assign hassign)
    simp [Branch.steps, hbeforeTrail, hd, hbelow, hliteral, hdcause, hcause]
  rw [hmade] at hsince
  refine ⟨s₁, s₂, e.literal, _, hs₁, hdecide, hreached, hsince, ?_, hsame ▸ hflipped, ?_⟩
  · intro step hstep
    rcases List.mem_map.mp hstep with ⟨d, hd, rfl⟩
    exact hsettled d (List.mem_reverse.mp hd)
  · have hfirst := hs₁.sameProblem hroot
    have hsecond := (hs.sameProblem hroot).trans (hkeeps.toSameProblem.trans hproblem)
    exact ⟨hsecond.config.trans hfirst.config.symm,
      hsecond.cancellation.trans hfirst.cancellation.symm,
      hsecond.scope.trans hfirst.scope.symm⟩

theorem backtrack_ends {next : Search} (h : Branch.Of clauses s.branch)
    (hnext : s.backtrack = .ok (.ends .unsatisfiable next)) :
    next.branch = Branch.root clauses ∧ Keeps s next := by
  rcases backtrack_cases h with ⟨_, other, hother, hroot, hkeeps⟩ |
    ⟨_, e, _, mid, _, _, _, hmid, _, hunbound, _, hback⟩
  · rw [hother] at hnext
    cases hnext
    exact ⟨hroot, hkeeps⟩
  · rcases decide_cases (l := -e.literal) hmid hunbound true with ⟨_, hrefused⟩ |
      ⟨_, other, hother, _⟩
    · rw [hback, hrefused] at hnext
      cases hnext
    · rw [hback, hother] at hnext
      cases hnext

/-! ## Main results -/

theorem of_prepare {f : Formula} {starting : Binding} {config : SearchConfig}
    {cancellation : Cancellation} {s₀ : Search}
    (hprepare : prepare f starting config cancellation = .ok s₀) :
    s₀.branch = Branch.root (startingClauses f starting) := by
  rw [prepare_eq_ok hprepare, branch_start]

theorem Reachable.of_prepared {f : Formula} {starting : Binding} {config : SearchConfig}
    {cancellation : Cancellation} {s₀ : Search} (hs : Reachable s₀ s)
    (hprepare : prepare f starting config cancellation = .ok s₀) :
    Branch.Of (startingClauses f starting) s.branch :=
  hs.of (Branch.Of.of_eq_root (of_prepare hprepare))

theorem perform_prepared {f : Formula} {starting : Binding} {config : SearchConfig}
    {cancellation : Cancellation} {s₀ : Search}
    (hprepare : prepare f starting config cancellation = .ok s₀) {call : Call}
    (hallowed : call.Allowed s₀) : ∃ s, s₀.perform call = .ok s ∧ Reachable s₀ s := by
  obtain ⟨s, hs, _⟩ := perform_exists (Branch.Of.of_eq_root (of_prepare hprepare)) hallowed
  exact ⟨s, hs, .perform call .start hallowed hs⟩

/-- The parts of every reachable search agree with each other, the two questions about all clauses
are answered as evaluation answers them, and every allowed call succeeds. -/
theorem reachable_coherent {f : Formula} {starting : Binding} {config : SearchConfig}
    {cancellation : Cancellation} {s₀ s : Search}
    (hprepare : prepare f starting config cancellation = .ok s₀) (hs : Reachable s₀ s) :
    Coherent (startingClauses f starting) s.branch ∧
      (s.branch.isSatisfied = true ↔
        ∀ c ∈ startingClauses f starting, c.evaluate s.branch.binding = .yes) ∧
      (s.branch.hasFalsified = true ↔
        ∃ c ∈ startingClauses f starting, c.evaluate s.branch.binding = .no) ∧
      ∀ call : Call, call.Allowed s → ∃ next, s.perform call = .ok next := by
  have hroot := Branch.Of.of_eq_root (of_prepare hprepare)
  have hof := hs.of hroot
  refine ⟨coherent_of hof, hof.isSatisfied_iff, hof.hasFalsified_iff, ?_⟩
  intro call hallowed
  rcases perform_exists hof hallowed with ⟨next, hnext, _⟩
  exact ⟨next, hnext⟩

theorem reachable_coherent_after_decision :
    let f := Formula.ofClauses [⟨[⟨⟨1⟩, true⟩, ⟨⟨2⟩, false⟩, ⟨⟨1⟩, false⟩]⟩]
    ∃ s, (start f .empty {} .never).perform (.decide ⟨⟨1⟩, true⟩ false) = .ok s ∧
      Coherent (startingClauses f .empty) s.branch := by
  intro f
  have hroot := Branch.Of.of_eq_root (branch_start f .empty {} .never)
  have hallowed : (Call.decide ⟨⟨1⟩, true⟩ false).Allowed (start f .empty {} .never) := rfl
  rcases perform_exists hroot hallowed with ⟨s, hs, _⟩
  exact ⟨s, hs, (reachable_coherent rfl (.perform _ .start hallowed hs)).1⟩

/-- Taking back as many assignments as were made gives every reachable search its branch back.
Backtracking leads to the branch of the search that made the newest decision whose opposite is
untried, with the opposite assigned, or without such a decision to the branch at the start. -/
theorem reachable_taken_back {f : Formula} {starting : Binding} {config : SearchConfig}
    {cancellation : Cancellation} {s₀ s : Search}
    (hprepare : prepare f starting config cancellation = .ok s₀) (hs : Reachable s₀ s) :
    (∀ sequence : List (Literal × Cause), (sequence.map fun step => step.1.var).Nodup →
      (∀ step ∈ sequence, s.branch.binding.binds step.1.var = false) →
      ∃ last, s.branch.assignEach sequence = .ok last ∧
        last.undoTimes sequence.length = .ok (sequence.reverse, s.branch)) ∧
    (∃ step, s.backtrack = .ok step) ∧
    (∀ next, s.backtrack = .ok (.continues next) →
      ∃ s₁ s₂ d since, Reachable s₀ s₁ ∧ s₁.decide d false = .ok (.continues s₂) ∧
        Reachable s₂ s ∧ s₂.branch.assignEach since = .ok s.branch ∧
        (∀ step ∈ since, step.2 ≠ .decision false) ∧
        s₁.branch.assign (-d) (.decision true) = .ok next.branch ∧ SameProblem s₁ next) ∧
    ∀ next, s.backtrack = .ok (.ends .unsatisfiable next) →
      next.branch = s₀.branch ∧ next.branch.binding = .empty ∧ SameProblem s₀ next := by
  have hstart := of_prepare hprepare
  have hroot := Branch.Of.of_eq_root hstart
  have hof := hs.of hroot
  refine ⟨?_, backtrack_exists hof, fun next hnext => hs.backtrack_continues hstart hnext, ?_⟩
  · intro sequence hnodup hunbound
    rcases hof.assignEach_exists hnodup hunbound with ⟨last, hlast⟩
    exact ⟨last, hlast, hof.undoTimes_assignEach hlast⟩
  · intro next hnext
    rcases backtrack_ends hof hnext with ⟨hback, hkeeps⟩
    rw [hback, hstart]
    exact ⟨rfl, rfl, (hs.sameProblem hroot).trans hkeeps.toSameProblem⟩

theorem reachable_taken_back_after_decision :
    let f := Formula.ofClauses [⟨[⟨⟨1⟩, true⟩, ⟨⟨2⟩, false⟩, ⟨⟨1⟩, false⟩]⟩]
    let s₀ := start f .empty {} .never
    ∃ s next, s₀.perform (.decide ⟨⟨1⟩, true⟩ false) = .ok s ∧
      (∃ last, s.branch.assignEach [(⟨⟨2⟩, true⟩, .inference)] = .ok last ∧
        last.undoTimes 1 = .ok ([(⟨⟨2⟩, true⟩, .inference)], s.branch)) ∧
      s.backtrack = .ok (.continues next) ∧
      ∃ s₁ d, Reachable s₀ s₁ ∧
        s₁.branch.assign (-d) (.decision true) = .ok next.branch := by
  intro f s₀
  have hprepare : prepare f .empty {} .never = .ok s₀ := rfl
  have hallowed : (Call.decide ⟨⟨1⟩, true⟩ false).Allowed s₀ := rfl
  have hrun : ((s₀.perform (.decide ⟨⟨1⟩, true⟩ false)).bind backtrack).map
      (fun step => step matches .continues _) = .ok true := by decide
  have hfree : (s₀.perform (.decide ⟨⟨1⟩, true⟩ false)).map
      (fun s => s.branch.binding.binds ⟨2⟩) = .ok false := by decide
  cases hs : s₀.perform (.decide ⟨⟨1⟩, true⟩ false) with
  | error fault =>
      rw [hs] at hrun
      contradiction
  | ok s =>
      have hall := reachable_taken_back hprepare (.perform _ .start hallowed hs)
      rw [hs] at hrun hfree
      cases hback : s.backtrack with
      | error fault => simp [Except.bind, Except.map, hback] at hrun
      | ok step =>
          cases step with
          | ends verdict next => simp [Except.bind, Except.map, hback] at hrun
          | continues next =>
              rcases hall.2.2.1 next hback with ⟨s₁, _, d, _, hs₁, _, _, _, _, hassign, _⟩
              refine ⟨s, next, rfl, hall.1 _ (by decide) ?_, hback, s₁, d, hs₁, hassign⟩
              intro step hstep
              rw [List.mem_singleton.mp hstep]
              exact Except.ok.inj hfree

end Search

end SatSearch
