import SatSearch.Proofs.Cancellation
import SatSearch.Proofs.Tractability

/-!
# The statistics of a search

The counts of a search are those of its log.  Each conflict, but for the last one of an exhausted
search, turns one decision into its opposite, and no decision is turned twice.  So there are two
decisions for each conflict, apart from those that are never turned.  These are the untried
decisions of the branch: turning one takes the newest of them off the branch, with nothing but
flipped decisions and inferences above it.
-/

namespace SatSearch

/-! ## Turned decisions -/

/-- The decision that turns this one. -/
def Choice.turn (c : Choice) : Choice :=
  ⟨-c.literal, c.level, true⟩

/-- Of the later decisions, the first one at this level or above turns this one. -/
def Choice.TurnedIn (c : Choice) (later : List Choice) : Prop :=
  later.find? (fun d => d.level ≤ c.level) = some c.turn

instance (c : Choice) (later : List Choice) : Decidable (c.TurnedIn later) :=
  inferInstanceAs (Decidable (_ = _))

/-- The decisions, oldest first, that are not flipped themselves and never turned. -/
def unturned : List Choice → List Choice
  | [] => []
  | c :: later =>
    if c.flipped = false ∧ ¬c.TurnedIn later then c :: unturned later else unturned later

/-- The decisions of a stack whose opposite is untried. -/
def untried (stack : List Choice) : List Choice :=
  stack.filter fun c => !c.flipped

section

variable {cs later us : List Choice} {c d u : Choice}

theorem Choice.turnedIn_concat : c.TurnedIn (later ++ [d]) ↔
    c.TurnedIn later ∨ (∀ e ∈ later, c.level < e.level) ∧ d = c.turn := by
  unfold Choice.TurnedIn
  rw [List.find?_append]
  cases hfound : later.find? (fun e => e.level ≤ c.level) with
  | some e =>
      have hnot : ¬∀ e ∈ later, c.level < e.level := by
        intro hall
        have habove := hall e (List.mem_of_find?_eq_some hfound)
        have hle := List.find?_some hfound
        simp only [decide_eq_true_eq] at hle
        omega
      simp [hnot]
  | none =>
      have hall : ∀ e ∈ later, c.level < e.level := by
        simpa using hfound
      rw [Option.none_or]
      simp only [reduceCtorEq, false_or]
      constructor
      · intro hd
        exact ⟨hall, (List.mem_singleton.mp (List.mem_of_find?_eq_some hd)).symm⟩
      · rintro ⟨_, rfl⟩
        simp [Choice.turn]

theorem Choice.TurnedIn.concat (h : c.TurnedIn later) (d : Choice) : c.TurnedIn (later ++ [d]) :=
  Choice.turnedIn_concat.mpr (Or.inl h)

theorem latestWithin_cons (level : Nat) : latestWithin level (c :: later) =
    (latestWithin level later).or (if c.level ≤ level then some c else none) := by
  unfold latestWithin
  rw [List.reverse_cons, List.find?_append, List.find?_singleton]
  simp

theorem unturned_concat_of_free (h : d.flipped = false) :
    unturned (cs ++ [d]) = unturned cs ++ [d] := by
  induction cs with
  | nil => simp [unturned, Choice.TurnedIn, h]
  | cons c later ih =>
      have hsame : c.TurnedIn (later ++ [d]) ↔ c.TurnedIn later := by
        rw [Choice.turnedIn_concat]
        refine or_iff_left ?_
        rintro ⟨_, rfl⟩
        cases h
      rw [List.cons_append, unturned, unturned, ih]
      simp only [hsame]
      split
      · rfl
      · rfl

theorem unturned_concat_sublist (h : d.flipped = true) :
    (unturned (cs ++ [d])).Sublist (unturned cs) := by
  induction cs with
  | nil => simp [unturned, h]
  | cons c later ih =>
      rw [List.cons_append, unturned, unturned]
      by_cases hstill : c.flipped = false ∧ ¬c.TurnedIn (later ++ [d])
      · have hbefore : c.flipped = false ∧ ¬c.TurnedIn later :=
          ⟨hstill.1, fun hturned => hstill.2 (hturned.concat d)⟩
        rw [if_pos hstill, if_pos hbefore]
        exact ih.cons_cons c
      · rw [if_neg hstill]
        split
        · exact ih.cons c
        · exact ih

/-- If a decision is the latest one at its level or above, then it is this one and all later ones
are deeper, or it is among the later ones. -/
theorem latestWithin_cons_eq_some (h : latestWithin u.level (c :: later) = some u) :
    latestWithin u.level later = some u ∨ c = u ∧ ∀ d ∈ later, u.level < d.level := by
  rw [latestWithin_cons] at h
  cases hfound : latestWithin u.level later with
  | some d =>
      rw [hfound, Option.some_or] at h
      exact Or.inl h
  | none =>
      rw [hfound, Option.none_or] at h
      unfold latestWithin at hfound
      refine Or.inr ⟨?_, fun d hd => ?_⟩
      · split at h
        · exact Option.some.inj h
        · cases h
      · simpa using List.find?_eq_none.mp hfound d (List.mem_reverse.mpr hd)

theorem not_turnedIn_of_deeper (h : ∀ d ∈ later, c.level < d.level) : ¬c.TurnedIn later := by
  intro hturned
  have hmem := List.mem_of_find?_eq_some hturned
  exact absurd (h _ hmem) (lt_irrefl _)

/-- The latest decision at its level or above is not turned. -/
theorem mem_unturned (hfree : u.flipped = false) (hlatest : latestWithin u.level cs = some u) :
    u ∈ unturned cs := by
  induction cs with
  | nil => cases hlatest
  | cons c later ih =>
      rw [unturned]
      obtain hlater | ⟨rfl, hdeeper⟩ := latestWithin_cons_eq_some hlatest
      · have hmem := ih hlater
        split
        · exact List.mem_cons_of_mem c hmem
        · exact hmem
      · rw [if_pos ⟨hfree, not_turnedIn_of_deeper hdeeper⟩]
        exact List.mem_cons_self

theorem unturned_cons_concat_turn (hdeeper : ∀ d ∈ later, u.level < d.level)
    (hnone : unturned later = []) : unturned (u :: later ++ [u.turn]) = [] := by
  have hturned : u.TurnedIn (later ++ [u.turn]) :=
    Choice.turnedIn_concat.mpr (Or.inr ⟨hdeeper, rfl⟩)
  have hsublist : (unturned (later ++ [u.turn])).Sublist (unturned later) :=
    unturned_concat_sublist rfl
  rw [hnone] at hsublist
  rw [List.cons_append, unturned, if_neg fun hcounts => hcounts.2 hturned]
  exact List.sublist_nil.mp hsublist

/-- Turning the latest decision at its level or above takes it away, and it alone. -/
theorem unturned_concat_turn (hfree : u.flipped = false)
    (hlatest : latestWithin u.level cs = some u) (hsplit : unturned cs = us ++ [u])
    (hother : ∀ d ∈ us, d.literal ≠ u.literal) : unturned (cs ++ [u.turn]) = us := by
  induction cs generalizing us with
  | nil => cases hlatest
  | cons c later ih =>
      rw [unturned] at hsplit
      obtain hlater | ⟨rfl, hdeeper⟩ := latestWithin_cons_eq_some hlatest
      · rw [List.cons_append, unturned]
        by_cases hcounts : c.flipped = false ∧ ¬c.TurnedIn later
        · rw [if_pos hcounts] at hsplit
          obtain ⟨_, hsingle⟩ | ⟨rest, hrest, hsplit⟩ := List.cons_eq_append_iff.mp hsplit
          · -- no later decision would be unturned, but the latest one is
            have hmem := mem_unturned hfree hlater
            rw [← (List.cons.inj hsingle).2] at hmem
            exact absurd hmem List.not_mem_nil
          · rw [hrest] at hother ⊢
            have hc : c.literal ≠ u.literal := hother c List.mem_cons_self
            rw [if_pos, ih hlater hsplit fun d hd => hother d (List.mem_cons_of_mem c hd)]
            refine ⟨hcounts.1, fun hturned => ?_⟩
            obtain hturned | ⟨_, hsame⟩ := Choice.turnedIn_concat.mp hturned
            · exact hcounts.2 hturned
            · have hneg : -u.literal = -c.literal := congrArg Choice.literal hsame
              exact hc (by rw [← Literal.neg_neg c.literal, ← hneg, Literal.neg_neg])
        · rw [if_neg hcounts] at hsplit
          rw [if_neg, ih hlater hsplit hother]
          rintro ⟨hc, hstill⟩
          exact hcounts ⟨hc, fun hturned => hstill (hturned.concat u.turn)⟩
      · rw [if_pos ⟨hfree, not_turnedIn_of_deeper hdeeper⟩] at hsplit
        cases us with
        | nil => exact unturned_cons_concat_turn hdeeper (List.cons.inj hsplit).2
        | cons d rest =>
            have hd : d.literal = c.literal := congrArg Choice.literal (List.cons.inj hsplit).1.symm
            exact absurd hd (hother d List.mem_cons_self)

/-- Each flipped decision goes with the one that it turned, and those that are not turned are the
untried ones of the stack. -/
structure Balanced (cs stack : List Choice) : Prop where
  unturned_eq : unturned cs = (untried stack).reverse
  length_eq : cs.length = 2 * cs.countP Choice.flipped + (unturned cs).length

theorem balanced_nil : Balanced [] [] where
  unturned_eq := rfl
  length_eq := rfl

variable {stack newer older : List Choice} {l : Literal}

theorem untried_append_of_flipped (h : ∀ c ∈ newer, c.flipped = true) :
    untried (newer ++ older) = untried older := by
  unfold untried
  rw [List.filter_append, List.filter_eq_nil_iff.mpr, List.nil_append]
  intro c hc
  rw [h c hc]
  exact Bool.false_ne_true

theorem Balanced.descend (h : Balanced cs stack) (hfree : d.flipped = false) :
    Balanced (cs ++ [d]) (d :: stack) where
  unturned_eq := by
    unfold untried
    rw [unturned_concat_of_free hfree, h.unturned_eq, List.filter_cons_of_pos (by simp [hfree]),
      List.reverse_cons]
    rfl
  length_eq := by
    have hlength := h.length_eq
    rw [unturned_concat_of_free hfree, List.countP_append, List.countP_singleton, hfree]
    simp only [List.length_append, List.length_singleton, Bool.false_eq_true, if_false]
    omega

theorem Balanced.turn (h : Balanced cs (newer ++ ⟨l, older.length + 1, false⟩ :: older))
    (hs : Stacked cs (newer ++ ⟨l, older.length + 1, false⟩ :: older))
    (hnewer : ∀ c ∈ newer, c.flipped = true) :
    Balanced (cs ++ [⟨-l, older.length + 1, true⟩]) (⟨-l, older.length + 1, true⟩ :: older) := by
  have hsplit : unturned cs = (untried older).reverse ++ [⟨l, older.length + 1, false⟩] := by
    rw [h.unturned_eq, untried_append_of_flipped hnewer, ← List.reverse_cons]
    rfl
  have hnodup := hs.nodup
  rw [List.map_append, List.map_cons] at hnodup
  have hother : ∀ d ∈ (untried older).reverse, d.literal ≠ l := by
    rintro d hd rfl
    have hd : d ∈ older := List.mem_of_mem_filter (List.mem_reverse.mp hd)
    exact (List.nodup_cons.mp hnodup.of_append_right).1 (List.mem_map.mpr ⟨d, hd, rfl⟩)
  have hturned : unturned (cs ++ [⟨-l, older.length + 1, true⟩]) = (untried older).reverse :=
    unturned_concat_turn rfl hs.current.of_append.2.1 hsplit hother
  refine ⟨hturned, ?_⟩
  have hlength := h.length_eq
  rw [hsplit, List.length_append, List.length_singleton] at hlength
  rw [hturned, List.countP_append, List.countP_singleton]
  simp only [List.length_append, List.length_singleton, if_true]
  omega

end

/-! ## Decisions of a branch -/

theorem decided_append_of_settled {newer : List TrailEntry} (h : Branch.Settled newer)
    (older : List TrailEntry) : ∃ turned, decided (newer ++ older) = turned ++ decided older ∧
      ∀ c ∈ turned, c.flipped = true := by
  induction newer with
  | nil => exact ⟨[], rfl, List.forall_mem_nil _⟩
  | cons e newer ih =>
      obtain ⟨hcause, hrest⟩ := Branch.settled_cons.mp h
      obtain ⟨turned, hturned, hall⟩ := ih hrest
      rw [List.cons_append, decided, hturned]
      cases hkind : e.cause with
      | decision flipped =>
          cases flipped with
          | true => exact ⟨_ :: turned, rfl, List.forall_mem_cons.mpr ⟨rfl, hall⟩⟩
          | false => exact absurd hkind hcause
      | inference => exact ⟨turned, rfl, hall⟩

theorem untried_decided_of_settled {entries : List TrailEntry} (h : Branch.Settled entries) :
    untried (decided entries) = [] := by
  obtain ⟨turned, hturned, hall⟩ := decided_append_of_settled h []
  rw [List.append_nil] at hturned
  rw [hturned, untried_append_of_flipped hall]
  rfl

theorem Branch.Of.decided_of_assign {clauses : List Clause} {b above : Branch}
    (h : Branch.Of clauses b) {l : Literal} {flipped : Bool}
    (habove : b.assign l (.decision flipped) = .ok above) :
    decided above.trail.entries =
      ⟨l, (decided b.trail.entries).length + 1, flipped⟩ :: decided b.trail.entries := by
  obtain ⟨e, _, htrail, rfl, hcause, _⟩ := h.assign_eq_ok habove
  rw [htrail, decided_cons hcause]

/-! ## The counts along a search -/

namespace Search

variable {clauses : List Clause} {s c next last final : Search} {verdict : Verdict} {n : Nat}

/-- The statistics say what the log says, `pending` conflicts apart that have turned no decision. -/
structure Tallied (s : Search) (pending : Nat) : Prop where
  decisions : (choices s.log.toList).length = s.stats.decisions
  conflicts : (choices s.log.toList).countP Choice.flipped + pending = s.stats.conflicts
  propagations : inferredCount s.log.toList = s.stats.propagations

theorem choices_record {r : LogRecord} (h : r.choice? = none) :
    choices (s.record r).log.toList = choices s.log.toList := by
  unfold record
  rw [Array.toList_push, choices_concat_of_none h]

theorem Tallied.record (h : Tallied s n) {r : LogRecord} (hchoice : r.choice? = none)
    (hinferred : r.inferred = 0) : Tallied (s.record r) n where
  decisions := by
    rw [choices_record hchoice]
    exact h.decisions
  conflicts := by
    rw [choices_record hchoice]
    exact h.conflicts
  propagations := by
    unfold Search.record
    rw [Array.toList_push, inferredCount_concat, hinferred]
    exact h.propagations

theorem Tallied.simplified (h : Tallied s n) (hc : SimplifiesTo s c) : Tallied c n where
  decisions := by
    rw [hc.infers.choices_eq, hc.keeps.decisions]
    exact h.decisions
  conflicts := by
    rw [hc.infers.choices_eq, hc.keeps.conflicts]
    exact h.conflicts
  propagations := by
    have hcounts := hc.counts
    have hbefore := h.propagations
    unfold Counts at hcounts
    omega

theorem Tallied.countConflict (h : Tallied s n) : Tallied s.countConflict (n + 1) :=
  ⟨h.decisions, congrArg Nat.succ h.conflicts, h.propagations⟩

theorem Tallied.onBranch (h : Tallied s n) (b : Branch) : Tallied { s with branch := b } n :=
  ⟨h.decisions, h.conflicts, h.propagations⟩

theorem Tallied.backtrackedTo (h : Tallied s n) (before : Branch) (l : Literal) :
    Tallied (s.backtrackedTo before l) (n + 1) :=
  (h.countConflict.onBranch before).record rfl rfl

theorem choices_backtrackedTo (s : Search) (before : Branch) (l : Literal) :
    choices (s.backtrackedTo before l).log.toList = choices s.log.toList :=
  choices_record (s := { s.countConflict with branch := before }) rfl

theorem Tallied.exhausted (h : Tallied s n) (clauses : List Clause) :
    Tallied (s.exhausted clauses) (n + 1) :=
  (h.countConflict.onBranch (Branch.root clauses)).record rfl rfl

theorem choices_exhausted (s : Search) (clauses : List Clause) :
    choices (s.exhausted clauses).log.toList = choices s.log.toList :=
  choices_record (s := { s.countConflict with branch := Branch.root clauses }) rfl

theorem Decided.choices_eq {l : Literal} {flipped : Bool}
    (h : Decided s l flipped (.continues next)) :
    choices next.log.toList = choices s.log.toList ++ [⟨l, s.stack.length + 1, flipped⟩] := by
  cases h with
  | made hassign =>
      rw [← level_eq_length_stack]
      change choices (s.log.push _).toList = _
      rw [Array.toList_push, choices_concat rfl]

theorem Decided.stack_eq {l : Literal} {flipped : Bool} (hof : Branch.Of clauses s.branch)
    (h : Decided s l flipped (.continues next)) :
    next.stack = ⟨l, s.stack.length + 1, flipped⟩ :: s.stack := by
  cases h with
  | made hassign => exact hof.decided_of_assign hassign

/-- A flipped decision settles a pending conflict. -/
theorem Tallied.decided {l : Literal} {flipped : Bool}
    (h : Tallied s (n + if flipped then 1 else 0))
    (hnext : Decided s l flipped (.continues next)) : Tallied next n := by
  have hchoices := hnext.choices_eq
  cases hnext with
  | made hassign =>
      refine ⟨?_, ?_, ?_⟩
      · rw [hchoices, List.length_append, h.decisions]
        rfl
      · have hconflicts := h.conflicts
        rw [hchoices, List.countP_append, List.countP_singleton]
        change _ + (if flipped = true then 1 else 0) + n = s.stats.conflicts
        omega
      · change inferredCount (s.log.push _).toList = s.stats.propagations
        rw [Array.toList_push, inferredCount_concat]
        exact h.propagations

/-- The search has made its log, and all its conflicts have turned a decision. -/
structure Accounted (s : Search) : Prop where
  traced : s.Traced
  balanced : Balanced (choices s.log.toList) s.stack
  tallied : Tallied s 0

theorem Accounted.simplified (hs : Accounted s) (h : Branch.Of clauses s.branch)
    (hc : SimplifiesTo s c) : Accounted c where
  traced := hc.traced h hs.traced
  balanced := by
    rw [hc.infers.choices_eq, hc.stack_eq h]
    exact hs.balanced
  tallied := hs.tallied.simplified hc

theorem Accounted.step (hs : Accounted s) (h : Branch.Of clauses s.branch)
    (hnext : s.step = .ok (.continues next)) : Accounted next := by
  have hstepped := stepped_of_eq h hnext
  refine ⟨hstepped.traced h hs.traced, ?_, ?_⟩
  · cases hstepped with
    | @descended c v _ hc _ hv hstep =>
        have hof := h.of_simplifies hc.simplifies
        rw [hstep.choices_eq, hstep.stack_eq hof]
        exact (hs.simplified h hc).balanced.descend rfl
    | @flipped c newer e before _ hc _ htrail hsettled hcause hbefore hstep =>
        have hsimplified := hs.simplified h hc
        -- only flipped decisions lie above the one that is turned
        obtain ⟨turned, hturned, hall⟩ :=
          decided_append_of_settled hsettled (e :: before.trail.entries)
        have hstack : c.stack = turned ++
            ⟨e.literal, (decided before.trail.entries).length + 1, false⟩ ::
              decided before.trail.entries := by
          unfold stack
          rw [htrail, hturned, decided_cons hcause]
        have hstacked := hsimplified.traced.stacked
        have hbalanced := hsimplified.balanced
        rw [hstack] at hstacked hbalanced
        rw [hstep.choices_eq, hstep.stack_eq hbefore, choices_backtrackedTo]
        exact hbalanced.turn hstacked hall
  · cases hstepped with
    | descended hc _ _ hstep => exact (hs.tallied.simplified hc).decided hstep
    | flipped hc _ _ _ _ _ hstep =>
        exact ((hs.tallied.simplified hc).backtrackedTo _ _).decided hstep

/-- The statistics at the end of a search.  Only the last conflict of an exhausted search turns no
decision, and a cancelled search may stop short of turning one. -/
inductive Closed (final : Search) : Verdict → Prop
  | satisfied (model : Binding) (htallied : Tallied final 0) : Closed final (.satisfied model)
  | unsatisfiable (htallied : Tallied final 1) (hnone : unturned (choices final.log.toList) = []) :
      Closed final .unsatisfiable
  | cancelled (decisions pending : Nat) (htallied : Tallied final pending) :
      Closed final (.cancelled decisions)

theorem Closed.tallied (h : Closed final verdict) : ∃ pending, Tallied final pending := by
  cases h with
  | satisfied _ htallied => exact ⟨0, htallied⟩
  | unsatisfiable htallied _ => exact ⟨1, htallied⟩
  | cancelled _ pending htallied => exact ⟨pending, htallied⟩

theorem Accounted.ends (hs : Accounted s) (h : Branch.Of clauses s.branch)
    (hend : s.step = .ok (.ends verdict final)) :
    choices final.log.toList = choices s.log.toList ∧ Closed final verdict := by
  cases stepped_of_eq h hend with
  | satisfied hc _ _ =>
      refine ⟨?_, .satisfied _ ((hs.tallied.simplified hc).record rfl rfl)⟩
      rw [choices_record rfl, hc.infers.choices_eq]
  | descended hc _ _ hstep =>
      cases hstep
      refine ⟨?_, .cancelled _ 0 ((hs.tallied.simplified hc).record rfl rfl)⟩
      rw [choices_record rfl, hc.infers.choices_eq]
  | exhausted hc _ hsettled =>
      refine ⟨?_, .unsatisfiable ((hs.tallied.simplified hc).exhausted clauses) ?_⟩
      · rw [choices_exhausted, hc.infers.choices_eq]
      · rw [choices_exhausted, (hs.simplified h hc).balanced.unturned_eq]
        unfold stack
        rw [untried_decided_of_settled hsettled]
        rfl
  | flipped hc _ _ _ _ _ hstep =>
      cases hstep
      refine ⟨?_, .cancelled _ 1 (((hs.tallied.simplified hc).backtrackedTo _ _).record rfl rfl)⟩
      rw [choices_record rfl, choices_backtrackedTo, hc.infers.choices_eq]

theorem Accounted.announce (hs : Accounted s) : Accounted s.announce := by
  have hchoices : choices s.announce.log.toList = choices s.log.toList := choices_record rfl
  refine ⟨?_, ?_, hs.tallied.record rfl rfl⟩
  · unfold Traced Search.announce Search.record
    rw [Array.toList_push]
    exact .other hs.traced rfl
  · rw [hchoices]
    exact hs.balanced

theorem Accounted.solve (hs : Accounted s) (h : Branch.Of clauses s.branch)
    (hsolve : s.solve = .ok (verdict, final)) :
    (choices final.log.toList).length = 2 * (choices final.log.toList).countP Choice.flipped +
        (unturned (choices final.log.toList)).length ∧
      Closed final verdict := by
  obtain ⟨_, last, _, hruns, hend⟩ := runWithin_eq_ok hsolve
  have hannounced : Branch.Of clauses s.announce.branch := h
  have hlast : Accounted last :=
    hruns.invariant_of hannounced hs.announce fun h hs hnext => hs.step h hnext
  obtain ⟨hchoices, hclosed⟩ := hlast.ends (hruns.of hannounced) hend
  refine ⟨?_, hclosed⟩
  rw [hchoices]
  exact hlast.balanced.length_eq

/-! ## Prepared searches -/

variable {f : Formula} {starting : Binding} {config : SearchConfig} {cancellation : Cancellation}

theorem choices_startingLog (config : SearchConfig) (entries : List IndexEntry) :
    choices (startingLog config entries).toList = [] ∧
      inferredCount (startingLog config entries).toList = 0 := by
  unfold startingLog mergeRecord?
  split
  · cases OccurrenceIndex.chunks entries config.indexWorkers with
    | none => exact ⟨rfl, rfl⟩
    | some parts => exact ⟨rfl, rfl⟩
  · exact ⟨rfl, rfl⟩

theorem accounted_of_prepare (hprepare : prepare f starting config cancellation = .ok s) :
    Accounted s := by
  rw [prepare_eq_ok hprepare]
  have hlog : choices (start f starting config cancellation).log.toList = [] ∧
      inferredCount (start f starting config cancellation).log.toList = 0 :=
    choices_startingLog config _
  obtain ⟨hchoices, hinferred⟩ := hlog
  refine ⟨traces_startingLog config _, ?_, ?_, ?_, hinferred⟩
  · rw [hchoices]
    exact balanced_nil
  · rw [hchoices]
    rfl
  · rw [hchoices]
    rfl

/-- Unless the host cancels it, the statistics of a search account for it.  Each conflict, but for
the last one of an unsatisfiable problem, comes with a flipped decision and the one that it turned,
and all other decisions are never turned.  The decisions and the inferred literals are those of the
log. -/
theorem prepared_accounted (hprepare : prepare f starting config cancellation = .ok s) :
    ∃ verdict final, s.solve = .ok (verdict, final) ∧
      solveWith f starting config cancellation = verdict.result ∧
      (cancellation = .never → ∀ decisions, verdict ≠ .cancelled decisions) ∧
      (verdict = .unsatisfiable → 1 ≤ final.stats.conflicts ∧
        final.stats.decisions = 2 * (final.stats.conflicts - 1) ∧
        (choices final.log.toList).countP Choice.flipped = final.stats.conflicts - 1) ∧
      (∀ model, verdict = .satisfied model → 2 * final.stats.conflicts ≤ final.stats.decisions ∧
        (unturned (choices final.log.toList)).length =
          final.stats.decisions - 2 * final.stats.conflicts ∧
        (choices final.log.toList).countP Choice.flipped = final.stats.conflicts) ∧
      (choices final.log.toList).length = final.stats.decisions ∧
      inferredCount final.log.toList = final.stats.propagations := by
  have hroot := of_prepare hprepare
  have hof := Branch.Of.of_eq_root hroot
  have hsettled := Branch.settled_of_eq_root hroot
  obtain ⟨verdict, final, hsolve⟩ := solve_exists hof hsettled
  obtain ⟨hlength, hclosed⟩ := (accounted_of_prepare hprepare).solve hof hsolve
  obtain ⟨_, htallied⟩ := hclosed.tallied
  refine ⟨verdict, final, hsolve, solveWith_of_prepare hprepare hsolve, ?_, ?_, ?_,
    htallied.decisions, htallied.propagations⟩
  · rintro rfl
    refine not_cancelled_of_never hof hsettled ?_ hsolve
    rw [prepare_eq_ok hprepare]
    rfl
  · rintro rfl
    cases hclosed with
    | unsatisfiable htallied hnone =>
        rw [hnone, List.length_nil, htallied.decisions] at hlength
        have hconflicts := htallied.conflicts
        omega
  · rintro model rfl
    cases hclosed with
    | satisfied _ htallied =>
        rw [htallied.decisions] at hlength
        have hconflicts := htallied.conflicts
        omega

theorem prepared_accounted_of_one_turned :
    let f := Formula.ofClauses [⟨[⟨⟨1⟩, false⟩, ⟨⟨2⟩, true⟩]⟩, ⟨[⟨⟨1⟩, false⟩, ⟨⟨2⟩, false⟩]⟩,
      ⟨[⟨⟨3⟩, true⟩, ⟨⟨4⟩, true⟩]⟩, ⟨[⟨⟨3⟩, false⟩, ⟨⟨4⟩, false⟩]⟩]
    let config : SearchConfig := { pureLiteralElimination := false }
    ∃ model final, (start f .empty config .never).solve = .ok (.satisfied model, final) ∧
      final.stats.decisions = 3 ∧ final.stats.conflicts = 1 ∧
      (unturned (choices final.log.toList)).length = 1 := by
  intro f config
  have hprepare : prepare f .empty config .never = .ok (start f .empty config .never) := rfl
  have hstats : (start f .empty config .never).solve.map
      (fun ended => (ended.2.stats.decisions, ended.2.stats.conflicts)) = .ok (3, 1) := by
    cbv
  obtain ⟨verdict, final, hsolve, _, hcancelled, hunsatisfiable, hsatisfied, _⟩ :=
    prepared_accounted hprepare
  rw [hsolve] at hstats
  have hdecisions : final.stats.decisions = 3 := congrArg Prod.fst (Except.ok.inj hstats)
  have hconflicts : final.stats.conflicts = 1 := congrArg Prod.snd (Except.ok.inj hstats)
  cases verdict with
  | satisfied model =>
      refine ⟨model, final, hsolve, hdecisions, hconflicts, ?_⟩
      rw [(hsatisfied model rfl).2.1, hdecisions, hconflicts]
  | unsatisfiable =>
      have heven := (hunsatisfiable rfl).2.1
      rw [hdecisions, hconflicts] at heven
      cases heven
  | cancelled decisions => exact absurd rfl (hcancelled rfl decisions)

end Search

end SatSearch
