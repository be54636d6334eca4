import SatSearch.Proofs.Bounds
import SatSearch.Proofs.Equisatisfiability
import SatSearch.Proofs.Traversal

/-!
# Searches without deep backtracking

A branch at rest has at least two unbound literals left in each open clause.  If no clause has two
positive literals, making the open variables false satisfies what is left; if no clause has more
than two literals, the open clauses have not been touched at all, and a model of the problem
satisfies them.  So for both kinds of problems every branch at rest is extensible.

A search on such a problem is never more than one wrong decision away from an extensible branch.
Every conflict is met right below the latest decision, whose opposite is extensible again.
-/

namespace SatSearch

variable {clauses : List Clause}

/-! ## Horn and Krom clauses -/

/-- At most one literal of the clause is positive, repetitions apart. -/
def Clause.Horn (c : Clause) : Prop :=
  (c.literals.toFinset.filter fun l => l.positive = true).card ≤ 1

/-- The clause has at most two literals, repetitions apart. -/
def Clause.Krom (c : Clause) : Prop :=
  c.literals.toFinset.card ≤ 2

instance (c : Clause) : Decidable c.Horn :=
  inferInstanceAs (Decidable (_ ≤ 1))

instance (c : Clause) : Decidable c.Krom :=
  inferInstanceAs (Decidable (_ ≤ 2))

theorem Clause.Horn.negative {c : Clause} (h : c.Horn) {l m : Literal} (hl : l ∈ c.literals)
    (hm : m ∈ c.literals) (hne : l ≠ m) : l.positive = false ∨ m.positive = false := by
  by_contra hboth
  simp only [not_or, Bool.not_eq_false] at hboth
  refine hne (Finset.card_le_one.mp h l ?_ m ?_)
  · exact Finset.mem_filter.mpr ⟨List.mem_toFinset.mpr hl, hboth.1⟩
  · exact Finset.mem_filter.mpr ⟨List.mem_toFinset.mpr hm, hboth.2⟩

theorem Clause.Krom.eq_or_eq {c : Clause} (h : c.Krom) {l m k : Literal} (hl : l ∈ c.literals)
    (hm : m ∈ c.literals) (hne : l ≠ m) (hk : k ∈ c.literals) : k = l ∨ k = m := by
  have hpair : ({l, m} : Finset Literal) ⊆ c.literals.toFinset := by
    intro d hd
    rw [Finset.mem_insert, Finset.mem_singleton] at hd
    rcases hd with rfl | rfl
    · exact List.mem_toFinset.mpr hl
    · exact List.mem_toFinset.mpr hm
  have hall := Finset.eq_of_subset_of_card_le hpair (by rw [Finset.card_pair hne]; exact h)
  have hmem : k ∈ ({l, m} : Finset Literal) := hall ▸ List.mem_toFinset.mpr hk
  simpa using hmem

theorem Clause.horn_unit (l : Literal) : (Clause.unit l).Horn :=
  (Finset.card_filter_le _ _).trans (List.toFinset_card_le _)

theorem Clause.krom_unit (l : Literal) : (Clause.unit l).Krom :=
  (List.toFinset_card_le _).trans (Nat.le_succ 1)

/-! ## Branches at rest -/

namespace Branch

variable {b : Branch} {pure : Bool}

theorem AtRest.exists_two (hrest : b.AtRest pure) (h : Of clauses b) {c : Clause}
    (hc : c ∈ clauses) (hopen : c.Open b.binding) :
    ∃ l ∈ c.literals, ∃ m ∈ c.literals, l ≠ m ∧ b.binding.binds l.var = false ∧
      b.binding.binds m.var = false := by
  obtain ⟨l, hl, hunbound⟩ :=
    hopen.exists_unbound_of_evaluate_ne_no (h.evaluate_ne_no hrest.hasFalsified hc)
  obtain ⟨_, hforced, _⟩ := h.unitLiterals_eq_some hrest.unitLiterals
  by_contra hnone
  refine List.not_mem_nil ((hforced l).mpr ⟨c, hc, hopen, hl, fun m hm => ⟨?_, ?_⟩⟩)
  · intro hmUnbound
    by_contra hne
    exact hnone ⟨l, hl, m, hm, fun heq => hne heq.symm, hunbound, hmUnbound⟩
  · rintro rfl
    exact hunbound

/-- An assignment that agrees with a branch and makes its open clauses true is a model. -/
theorem extensible_of_open {a : Assignment} (hagrees : b.binding.AgreesWith a)
    (hopen : ∀ c ∈ clauses, c.Open b.binding → c.holds a = true) : b.Extensible clauses := by
  refine ⟨a, hagrees, fun c hc => ?_⟩
  by_cases hc' : c.Open b.binding
  · exact hopen c hc hc'
  · obtain ⟨l, hl, htrue⟩ := Clause.not_open_iff.mp hc'
    exact Clause.holds_iff.mpr ⟨l, hl, Binding.agreesWith_iff.mp hagrees l htrue⟩

end Branch

/-- Every branch at rest is extensible. -/
def Tractable (clauses : List Clause) : Prop :=
  ∀ (pure : Bool) (b : Branch), Branch.Of clauses b → b.AtRest pure → b.Extensible clauses

theorem Binding.holds_totalized_of_negative {b : Binding} {l : Literal}
    (hunbound : b.binds l.var = false) (hl : l.positive = false) :
    l.holds b.totalized = true := by
  have hnone : b.get? l.var = none := by
    simpa [binds_eq_isSome] using hunbound
  simp [Literal.holds, totalized, hnone, hl]

theorem tractable_of_horn (hhorn : ∀ c ∈ clauses, c.Horn) : Tractable clauses := by
  intro pure b h hrest
  refine Branch.extensible_of_open b.binding.agreesWith_totalized fun c hc hopen => ?_
  obtain ⟨l, hl, m, hm, hne, hlUnbound, hmUnbound⟩ := hrest.exists_two h hc hopen
  rw [Clause.holds_iff]
  obtain hnegative | hnegative := (hhorn c hc).negative hl hm hne
  · exact ⟨l, hl, Binding.holds_totalized_of_negative hlUnbound hnegative⟩
  · exact ⟨m, hm, Binding.holds_totalized_of_negative hmUnbound hnegative⟩

/-- The assignment changed so that it agrees with the binding. -/
def Binding.overlay (b : Binding) (a : Assignment) : Assignment :=
  fun v => (b.get? v).getD (a v)

theorem Binding.agreesWith_overlay (b : Binding) (a : Assignment) : b.AgreesWith (b.overlay a) := by
  intro v value hvalue
  simp [overlay, hvalue]

theorem Binding.holds_overlay {b : Binding} {l : Literal} (hunbound : b.binds l.var = false)
    (a : Assignment) : l.holds (b.overlay a) = l.holds a := by
  have hnone : b.get? l.var = none := by
    simpa [binds_eq_isSome] using hunbound
  simp [Literal.holds, overlay, hnone]

theorem tractable_of_krom (hkrom : ∀ c ∈ clauses, c.Krom) {a : Assignment}
    (hmodels : Models clauses a) : Tractable clauses := by
  intro pure b h hrest
  refine Branch.extensible_of_open (b.binding.agreesWith_overlay a) fun c hc hopen => ?_
  obtain ⟨l, hl, m, hm, hne, hlUnbound, hmUnbound⟩ := hrest.exists_two h hc hopen
  obtain ⟨k, hk, hholds⟩ := Clause.holds_iff.mp (hmodels c hc)
  have hkUnbound : b.binding.binds k.var = false := by
    obtain heq | heq := (hkrom c hc).eq_or_eq hl hm hne hk
    · rw [heq]
      exact hlUnbound
    · rw [heq]
      exact hmUnbound
  exact Clause.holds_iff.mpr ⟨k, hk, by rw [Binding.holds_overlay hkUnbound, hholds]⟩

/-! ## Flipping the latest decision -/

/-- Every backtracking is over the latest decision, and its opposite is decided at once. -/
def FlipsAtOnce (log : List LogRecord) : Prop :=
  ∀ before l, before ++ [.backtracking l] <+: log → ∃ level,
    (choices before).getLast? = some ⟨l, level, false⟩ ∧
      before ++ [.backtracking l, .decision (-l) level true] <+: log

section

variable {log : List LogRecord} {r : LogRecord}

theorem FlipsAtOnce.concat (h : FlipsAtOnce log) (hr : ∀ l, r ≠ .backtracking l) :
    FlipsAtOnce (log ++ [r]) := by
  intro before l hp
  obtain heq | hp := List.prefix_concat_iff.mp hp
  · exact absurd (List.append_singleton_inj.mp heq).2.symm (hr l)
  · obtain ⟨level, hlast, hflip⟩ := h before l hp
    exact ⟨level, hlast, hflip.trans (List.prefix_append _ _)⟩

theorem FlipsAtOnce.flip (h : FlipsAtOnce log) {l : Literal} {level : Nat}
    (hlast : (choices log).getLast? = some ⟨l, level, false⟩) :
    FlipsAtOnce (log ++ [.backtracking l, .decision (-l) level true]) := by
  intro before m hp
  rw [List.append_cons log] at hp
  obtain heq | hp := List.prefix_concat_iff.mp hp
  · cases (List.append_singleton_inj.mp heq).2
  obtain heq | hp := List.prefix_concat_iff.mp hp
  · obtain ⟨hbefore, hsame⟩ := List.append_singleton_inj.mp heq
    cases hsame
    rw [hbefore]
    exact ⟨level, hlast, List.prefix_refl _⟩
  · obtain ⟨before, hlast, hflip⟩ := h before m hp
    exact ⟨before, hlast, hflip.trans (List.prefix_append _ _)⟩

end

namespace Search

variable {s c next final : Search} {verdict : Verdict} {n : Nat}

theorem Infers.flipsAtOnce (h : Infers s next) (hs : FlipsAtOnce s.log.toList) :
    FlipsAtOnce next.log.toList := by
  refine h.induction (P := FlipsAtOnce) hs ?_
  intro log r hr hlog
  refine hlog.concat ?_
  rintro l rfl
  cases hr

theorem Infers.choices_eq (h : Infers s next) :
    choices next.log.toList = choices s.log.toList :=
  h.induction (P := fun log => choices log = choices s.log.toList) rfl fun _ _ hr hlog =>
    (choices_concat_of_none (choice?_of_isInference hr)).trans hlog

/-! ## Levels -/

theorem SimplifiesTo.level_eq (hc : SimplifiesTo s c) (h : Branch.Of clauses s.branch) :
    c.branch.level = s.branch.level := by
  rw [level_eq_length_stack, level_eq_length_stack, hc.stack_eq h]

/-- The decisions of the branch and the variables left below it are at most `n`. -/
def Fits (clauses : List Clause) (n : Nat) (b : Branch) : Prop :=
  b.level + (remainingVariables clauses b.binding).card ≤ n

theorem Fits.of_simplifies (hs : Fits clauses n s.branch) (hc : SimplifiesTo s c)
    (h : Branch.Of clauses s.branch) : Fits clauses n c.branch := by
  have hcard := h.card_le_of_descends (h.descends_of_simplifies hc.simplifies)
  unfold Fits at hs ⊢
  rw [hc.level_eq h]
  omega

theorem Fits.of_assign {b above : Branch} (hb : Fits clauses n b) (h : Branch.Of clauses b)
    {l : Literal} (hl : l.var ∈ remainingVariables clauses b.binding) {flipped : Bool}
    (habove : b.assign l (.decision flipped) = .ok above) : Fits clauses n above := by
  have hcard := h.card_lt_of_assign habove hl
  have hlevel := h.level_assign habove
  unfold Fits at hb ⊢
  omega

/-! ## The course of a search on a tractable problem -/

/-- Every flipped decision takes the place of one that is counted by its level, `pending` decisions
apart, which may still be flipped. -/
structure Counted (s : Search) (pending : Nat) : Prop where
  decisions : s.stats.decisions = s.branch.level + s.stats.conflicts
  conflicts : s.stats.conflicts + pending ≤ s.branch.level
  flips : FlipsAtOnce s.log.toList

/-- The branch is extensible, or it was until the latest decision. -/
inductive Prospective (clauses : List Clause) (n : Nat) (s : Search) : Prop
  | extensible (h : Branch.Of clauses s.branch) (hextensible : s.branch.Extensible clauses)
      (hfits : Fits clauses n s.branch) (hcounted : Counted s 0)
  | decided {before : Branch} {l : Literal} (hbefore : Branch.Of clauses before)
      (hextensible : before.Extensible clauses) (hfits : Fits clauses n before)
      (hl : l.var ∈ remainingVariables clauses before.binding)
      (hassign : before.assign l (.decision false) = .ok s.branch) (hcounted : Counted s 1)
      (hlatest : (choices s.log.toList).getLast? = some ⟨l, s.branch.level, false⟩)

theorem Prospective.of (h : Prospective clauses n s) : Branch.Of clauses s.branch := by
  cases h with
  | extensible h => exact h
  | decided hbefore _ _ _ hassign => exact hbefore.assign hassign

theorem Prospective.fits (h : Prospective clauses n s) : Fits clauses n s.branch := by
  cases h with
  | extensible _ _ hfits => exact hfits
  | decided hbefore _ hfits hl hassign => exact hfits.of_assign hbefore hl hassign

theorem Counted.mono {pending : Nat} (h : Counted s pending) : Counted s 0 :=
  ⟨h.decisions, by have hconflicts := h.conflicts; omega, h.flips⟩

theorem Prospective.counted (h : Prospective clauses n s) : Counted s 0 := by
  cases h with
  | extensible _ _ _ hcounted => exact hcounted
  | decided _ _ _ _ _ hcounted => exact hcounted.mono

theorem Prospective.descended (hs : Prospective clauses n s) (htractable : Tractable clauses)
    {v : Variable} (hc : SimplifiesTo s c)
    (hrest : c.branch.AtRest s.config.pureLiteralElimination)
    (hv : c.branch.nextVariable? = some v)
    (hnext : Decided c v.positive false (.continues next)) : Prospective clauses n next := by
  have hof := hs.of.of_simplifies hc.simplifies
  have hlevel := hc.level_eq hs.of
  obtain ⟨hdecisions, hconflicts, hflips⟩ := hs.counted
  cases hnext with
  | @made branch hassign =>
      have habove := hof.level_assign hassign
      refine .decided hof (htractable _ _ hof hrest) (hs.fits.of_simplifies hc hs.of)
        (mem_remainingVariables.mpr (hof.nextVariable?_eq_some hv).1) hassign ⟨?_, ?_, ?_⟩ ?_
      · change c.stats.decisions + 1 = branch.level + c.stats.conflicts
        rw [hc.keeps.decisions, hc.keeps.conflicts]
        omega
      · change c.stats.conflicts + 1 ≤ branch.level
        rw [hc.keeps.conflicts]
        omega
      · change FlipsAtOnce (c.log.push _).toList
        rw [Array.toList_push]
        exact (hc.infers.flipsAtOnce hflips).concat fun _ => LogRecord.noConfusion
      · change (choices (c.log.push _).toList).getLast? = some ⟨_, branch.level, _⟩
        rw [Array.toList_push, choices_concat rfl, List.getLast?_concat, habove]

theorem SimplifiesTo.inextensible (hc : SimplifiesTo s c) (h : Branch.Of clauses s.branch)
    (hconflict : c.branch.Conflicting) : ¬s.branch.Extensible clauses := by
  rw [h.extensible_iff_simplifies hc.simplifies]
  exact (h.of_simplifies hc.simplifies).not_extensible hconflict

theorem Prospective.flipped (hs : Prospective clauses n s) {newer : List TrailEntry}
    {e : TrailEntry} {back : Branch} (hc : SimplifiesTo s c) (hconflict : c.branch.Conflicting)
    (htrail : c.branch.trail.entries = newer ++ e :: back.trail.entries)
    (hsettled : Branch.Settled newer) (hcause : e.cause = .decision false)
    (hback : Branch.Of clauses back)
    (hnext : Decided (c.backtrackedTo back e.literal) (-e.literal) true (.continues next)) :
    Prospective clauses n next := by
  have hnone := hc.inextensible hs.of hconflict
  cases hs with
  | extensible _ hextensible => exact absurd hextensible hnone
  | decided hbefore hextensible hfits hl hassign hcounted hlatest =>
      have hspent := (hbefore.assign hassign).spent_of_simplifies hc.simplifies
      obtain ⟨rfl, rfl⟩ :=
        hbefore.newest_of_descends hassign hspent htrail hsettled hcause hback
      have hlevel := hback.level_assign hassign
      obtain ⟨hdecisions, hconflicts, hflips⟩ := hcounted
      cases hnext with
      | @made branch hopposite =>
          have habove := hback.level_assign hopposite
          have hopen : (-e.literal).var ∈ remainingVariables clauses back.binding := hl
          refine .extensible (hback.assign hopposite) ?_ (hfits.of_assign hback hopen hopposite)
            ⟨?_, ?_, ?_⟩
          · by_contra hnone'
            exact hback.not_extensible_of_both hassign hopposite hnone hnone' hextensible
          · change c.stats.decisions + 1 = branch.level + (c.stats.conflicts + 1)
            rw [hc.keeps.decisions, hc.keeps.conflicts]
            omega
          · change c.stats.conflicts + 1 + 0 ≤ branch.level
            rw [hc.keeps.conflicts]
            omega
          · change FlipsAtOnce ((c.log.push _).push _).toList
            rw [Array.toList_push, Array.toList_push, List.append_assoc]
            refine (hc.infers.flipsAtOnce hflips).flip ?_
            rw [hc.infers.choices_eq, hlatest, hlevel]
            rfl

theorem Prospective.step (hs : Prospective clauses n s) (htractable : Tractable clauses)
    (hnext : s.step = .ok (.continues next)) : Prospective clauses n next := by
  cases stepped_of_eq hs.of hnext with
  | descended hc hrest hv hstep => exact hs.descended htractable hc hrest hv hstep
  | flipped hc hconflict htrail hsettled hcause hback hstep =>
      exact hs.flipped hc hconflict htrail hsettled hcause hback hstep

/-- Few decisions and conflicts, and each conflict is met right below the latest decision. -/
structure Shallow (n : Nat) (s : Search) : Prop where
  decisions : s.stats.decisions ≤ 2 * n
  conflicts : s.stats.conflicts ≤ n
  flips : FlipsAtOnce s.log.toList

/-- A search that has a prospect of a model and is not cancelled comes to one. -/
theorem Prospective.ends (hs : Prospective clauses n s)
    (hend : s.step = .ok (.ends verdict final)) :
    (∃ decisions, verdict = .cancelled decisions) ∨
      ∃ model, verdict = .satisfied model ∧ Shallow n final := by
  cases stepped_of_eq hs.of hend with
  | @satisfied c hc _ _ =>
      obtain ⟨hdecisions, hconflicts, hflips⟩ := hs.counted
      have hfits := hs.fits
      unfold Fits at hfits
      refine Or.inr ⟨_, rfl, ?_, ?_, ?_⟩
      · change c.stats.decisions ≤ 2 * n
        rw [hc.keeps.decisions]
        omega
      · change c.stats.conflicts ≤ n
        rw [hc.keeps.conflicts]
        omega
      · change FlipsAtOnce (c.log.push _).toList
        rw [Array.toList_push]
        exact (hc.infers.flipsAtOnce hflips).concat fun _ => LogRecord.noConfusion
  | descended hc hrest hv hstep =>
      cases hstep
      exact Or.inl ⟨_, rfl⟩
  | exhausted hc hconflict hsettled =>
      have hnone := hc.inextensible hs.of hconflict
      cases hs with
      | extensible _ hextensible => exact absurd hextensible hnone
      | decided hbefore _ _ _ hassign =>
          have hspent := (hbefore.assign hassign).spent_of_simplifies hc.simplifies
          obtain ⟨fresh, d, hfresh, _, _, hdecision⟩ :=
            hbefore.untried_of_descends hassign hspent
          refine absurd hdecision (hsettled d ?_)
          rw [hfresh]
          exact List.mem_append_right fresh List.mem_cons_self
  | flipped hc hconflict htrail hsettled hcause hback hstep =>
      cases hstep
      exact Or.inl ⟨_, rfl⟩

/-- A search that has no prospect of a model sees it in its first step. -/
theorem Stepped.unsatisfiable (htractable : Tractable clauses) (h : Branch.Of clauses s.branch)
    (hsettled : Branch.Settled s.branch.trail.entries) (hnone : ¬s.branch.Extensible clauses)
    {step : Step} (hstep : Stepped clauses s step) :
    ∃ final, step = .ends .unsatisfiable final ∧ final.stats.decisions = s.stats.decisions ∧
      final.stats.conflicts = s.stats.conflicts + 1 := by
  cases hstep with
  | satisfied hc hrest _ =>
      have hextensible := htractable _ _ (h.of_simplifies hc.simplifies) hrest
      exact absurd ((h.extensible_iff_simplifies hc.simplifies).mpr hextensible) hnone
  | descended hc hrest _ _ =>
      have hextensible := htractable _ _ (h.of_simplifies hc.simplifies) hrest
      exact absurd ((h.extensible_iff_simplifies hc.simplifies).mpr hextensible) hnone
  | @exhausted c hc _ _ =>
      refine ⟨_, rfl, hc.keeps.decisions, ?_⟩
      change c.stats.conflicts + 1 = s.stats.conflicts + 1
      rw [hc.keeps.conflicts]
  | @flipped c newer e before _ hc _ htrail _ hcause _ _ =>
      obtain ⟨fresh, hfresh, hspent⟩ :=
        h.settled_of_descends (h.spent_of_simplifies hc.simplifies)
      have he : e ∈ fresh ++ s.branch.trail.entries := by
        rw [← hfresh, htrail]
        exact List.mem_append_right newer List.mem_cons_self
      rcases List.mem_append.mp he with he | he
      · exact absurd hcause (hspent e he)
      · exact absurd hcause (hsettled e he)

theorem announce_prospective (h : Branch.Of clauses s.branch)
    (hextensible : s.branch.Extensible clauses) (hfits : Fits clauses n s.branch)
    (hcounted : Counted s 0) : Prospective clauses n s.announce := by
  refine .extensible h hextensible hfits ⟨hcounted.decisions, hcounted.conflicts, ?_⟩
  unfold announce record
  rw [Array.toList_push]
  exact hcounted.flips.concat fun _ => LogRecord.noConfusion

/-- On a tractable problem, solving is over with the first step, or it is shallow unless it is
cancelled. -/
theorem solve_of_tractable (htractable : Tractable clauses) (h : Branch.Of clauses s.branch)
    (hsettled : Branch.Settled s.branch.trail.entries) (hfits : Fits clauses n s.branch)
    (hcounted : Counted s 0) (hsolve : s.solve = .ok (verdict, final)) :
    (¬s.branch.Extensible clauses ∧ verdict = .unsatisfiable ∧
        final.stats.decisions = s.stats.decisions ∧
        final.stats.conflicts = s.stats.conflicts + 1) ∨
      (∃ decisions, verdict = .cancelled decisions) ∨
      ∃ model, verdict = .satisfied model ∧ Shallow n final := by
  obtain ⟨steps, last, _, hruns, hend⟩ := runWithin_eq_ok hsolve
  by_cases hextensible : s.branch.Extensible clauses
  · have hlast : Prospective clauses n last :=
      hruns.invariant (P := Prospective clauses n)
        (announce_prospective h hextensible hfits hcounted) fun hs => hs.step htractable
    exact Or.inr (hlast.ends hend)
  · have hannounced : Branch.Of clauses s.announce.branch := h
    have hfirst : ∀ step, s.announce.step = .ok step → ∃ final, step = .ends .unsatisfiable final ∧
        final.stats.decisions = s.stats.decisions ∧
        final.stats.conflicts = s.stats.conflicts + 1 := by
      intro step hstep
      exact (stepped_of_eq hannounced hstep).unsatisfiable htractable hannounced hsettled
        hextensible
    cases hruns with
    | refl =>
        obtain ⟨_, hsame, hdecisions, hconflicts⟩ := hfirst _ hend
        cases hsame
        exact Or.inl ⟨hextensible, rfl, hdecisions, hconflicts⟩
    | step hmid _ =>
        obtain ⟨_, hsame, _⟩ := hfirst _ hmid
        cases hsame

/-! ## Horn and Krom problems -/

variable {f : Formula} {starting : Binding} {config : SearchConfig} {cancellation : Cancellation}

theorem flipsAtOnce_startingLog (config : SearchConfig) (entries : List IndexEntry) :
    FlipsAtOnce (startingLog config entries).toList := by
  have hnone : FlipsAtOnce [] := by
    intro before l hp
    simp at hp
  unfold startingLog mergeRecord?
  split
  · cases OccurrenceIndex.chunks entries config.indexWorkers with
    | none => exact hnone
    | some parts => exact hnone.concat fun _ => LogRecord.noConfusion
  · exact hnone

theorem counted_of_prepare (hprepare : prepare f starting config cancellation = .ok s) :
    Counted s 0 := by
  have hroot := of_prepare hprepare
  have hlevel : s.branch.level = 0 := by
    rw [hroot]
    rfl
  rw [prepare_eq_ok hprepare] at hlevel ⊢
  refine ⟨?_, Nat.zero_le _, flipsAtOnce_startingLog config _⟩
  rw [hlevel]
  rfl

theorem fits_of_prepare (hprepare : prepare f starting config cancellation = .ok s) :
    Fits (startingClauses f starting) (mentionedVariables f starting).card s.branch := by
  have hcard : (remainingVariables (startingClauses f starting) s.branch.binding).card ≤
      (mentionedVariables f starting).card :=
    card_remainingVariables_le_open.trans card_openVariables_le
  have hlevel : s.branch.level = 0 := by
    rw [of_prepare hprepare]
    rfl
  unfold Fits
  omega

/-- What holds of all unit clauses and of the clauses of the formula holds of all the clauses that
a search starts with. -/
theorem forall_startingClauses {P : Clause → Prop} (hunit : ∀ l, P (.unit l))
    (hclauses : ∀ c ∈ f.clauses, P c) : ∀ c ∈ startingClauses f starting, P c := by
  intro c hc
  rcases mem_startingClauses.mp hc with hc | ⟨l, _, rfl⟩
  · exact hclauses c hc
  · exact hunit l

theorem solve_prepared_of_tractable
    (hprepare : prepare f starting config cancellation = .ok s)
    (htractable : Tractable (startingClauses f starting))
    (hsolve : s.solve = .ok (verdict, final)) :
    (¬f.SatisfiableFrom starting ∧ verdict = .unsatisfiable ∧ final.stats.decisions = 0 ∧
        final.stats.conflicts = 1) ∨
      (∃ decisions, verdict = .cancelled decisions) ∨
      ∃ model, verdict = .satisfied model ∧ Shallow (mentionedVariables f starting).card final := by
  have hroot := of_prepare hprepare
  have hcases := solve_of_tractable htractable (Branch.Of.of_eq_root hroot)
    (Branch.settled_of_eq_root hroot) (fits_of_prepare hprepare) (counted_of_prepare hprepare)
    hsolve
  rwa [prepare_eq_ok hprepare, extensible_start_iff] at hcases

theorem not_cancelled_of_never (h : Branch.Of clauses s.branch)
    (hsettled : Branch.Settled s.branch.trail.entries) (hnever : s.cancellation = .never)
    (hsolve : s.solve = .ok (verdict, final)) (decisions : Nat) :
    verdict ≠ .cancelled decisions := by
  rcases solve_cases h hsettled with ⟨c, other, hother, _⟩ | ⟨_, _, _, hrequested⟩ |
    ⟨other, hother, _⟩
  · rw [hsolve] at hother
    cases hother
    exact Verdict.noConfusion
  · rw [hnever] at hrequested
    cases hrequested
  · rw [hsolve] at hother
    cases hother
    exact Verdict.noConfusion

/-- Horn problems, and satisfiable problems of clauses with at most two literals, need no deep
backtracking.  Unless the host cancels it, solving a Horn problem either sees in the first step that
there is no model, or it is shallow; on a satisfiable problem of the other kind it is shallow. -/
theorem prepared_shallow (hprepare : prepare f starting config cancellation = .ok s) :
    ∃ verdict final, s.solve = .ok (verdict, final) ∧
      (cancellation = .never → ∀ decisions, verdict ≠ .cancelled decisions) ∧
      ((∀ c ∈ f.clauses, c.Horn) →
        (verdict = .unsatisfiable → final.stats.decisions = 0 ∧ final.stats.conflicts = 1) ∧
        ∀ model, verdict = .satisfied model →
          Shallow (mentionedVariables f starting).card final) ∧
      ((∀ c ∈ f.clauses, c.Krom) → f.SatisfiableFrom starting →
        verdict ≠ .unsatisfiable ∧
        ∀ model, verdict = .satisfied model →
          Shallow (mentionedVariables f starting).card final) := by
  have hroot := of_prepare hprepare
  obtain ⟨verdict, final, hsolve⟩ :=
    solve_exists (Branch.Of.of_eq_root hroot) (Branch.settled_of_eq_root hroot)
  refine ⟨verdict, final, hsolve, ?_, ?_, ?_⟩
  · rintro rfl
    refine not_cancelled_of_never (Branch.Of.of_eq_root hroot) (Branch.settled_of_eq_root hroot)
      ?_ hsolve
    rw [prepare_eq_ok hprepare]
    rfl
  · intro hhorn
    have htractable : Tractable (startingClauses f starting) :=
      tractable_of_horn (forall_startingClauses Clause.horn_unit hhorn)
    obtain ⟨_, rfl, hcounts⟩ | ⟨decisions, rfl⟩ | ⟨model, rfl, hshallow⟩ :=
      solve_prepared_of_tractable hprepare htractable hsolve
    · exact ⟨fun _ => hcounts, fun _ => Verdict.noConfusion⟩
    · exact ⟨Verdict.noConfusion, fun _ => Verdict.noConfusion⟩
    · exact ⟨Verdict.noConfusion, fun _ _ => hshallow⟩
  · rintro hkrom ⟨a, hagrees, hholds⟩
    have hmodels : Models (startingClauses f starting) a :=
      models_startingClauses_iff.mpr ⟨hagrees, hholds⟩
    have htractable := tractable_of_krom (forall_startingClauses Clause.krom_unit hkrom) hmodels
    obtain ⟨hnone, _⟩ | ⟨decisions, rfl⟩ | ⟨model, rfl, hshallow⟩ :=
      solve_prepared_of_tractable hprepare htractable hsolve
    · exact absurd ⟨a, hagrees, hholds⟩ hnone
    · exact ⟨Verdict.noConfusion, fun _ => Verdict.noConfusion⟩
    · exact ⟨Verdict.noConfusion, fun _ _ => hshallow⟩

theorem prepared_shallow_after_flip :
    let f := Formula.ofClauses
      [⟨[⟨⟨1⟩, false⟩, ⟨⟨2⟩, true⟩]⟩, ⟨[⟨⟨1⟩, false⟩, ⟨⟨2⟩, false⟩]⟩]
    let config : SearchConfig := { pureLiteralElimination := false }
    (∀ c ∈ f.clauses, c.Horn) ∧ (∀ c ∈ f.clauses, c.Krom) ∧ f.SatisfiableFrom .empty ∧
      ∃ model final, (start f .empty config .never).solve = .ok (.satisfied model, final) ∧
        final.stats.decisions = 2 ∧ final.stats.conflicts = 1 ∧ Shallow 2 final := by
  intro f config
  have hprepare : prepare f .empty config .never = .ok (start f .empty config .never) := rfl
  have hhorn : ∀ c ∈ f.clauses, c.Horn := by decide
  have hkrom : ∀ c ∈ f.clauses, c.Krom := by decide
  have hsatisfiable : f.SatisfiableFrom .empty :=
    ⟨fun _ => false, fun v value hvalue => by simp [Binding.get?, Binding.empty] at hvalue,
      by decide⟩
  have hmentioned : (mentionedVariables f .empty).card = 2 := by decide
  have hstats : (start f .empty config .never).solve.map
      (fun ended => (ended.2.stats.decisions, ended.2.stats.conflicts)) = .ok (2, 1) := by
    cbv
  obtain ⟨verdict, final, hsolve, hcancelled, hhornShallow, hkromShallow⟩ :=
    prepared_shallow hprepare
  rw [hsolve] at hstats
  rw [hmentioned] at hhornShallow
  cases verdict with
  | satisfied model =>
      exact ⟨hhorn, hkrom, hsatisfiable, model, final, hsolve,
        congrArg Prod.fst (Except.ok.inj hstats), congrArg Prod.snd (Except.ok.inj hstats),
        (hhornShallow hhorn).2 model rfl⟩
  | unsatisfiable => exact absurd rfl (hkromShallow hkrom hsatisfiable).1
  | cancelled decisions => exact absurd rfl (hcancelled rfl decisions)

end Search

end SatSearch
