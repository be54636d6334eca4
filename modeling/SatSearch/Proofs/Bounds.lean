import SatSearch.Proofs.Course
import SatSearch.Proofs.Requests

/-!
# Bounds on the work of a search

Let `n` be the number of variables that the formula and the starting binding mention, and `u` the
number of those that are open.  Every round of simplification but the last binds an open variable,
so there are at most `u + 1` rounds.  The search tree has no more nodes than the full binary tree
of depth `n`, so there are at most `2 ^ (n + 1) - 1` steps, each of which makes one decision except
the last.
-/

namespace SatSearch

/-! ## The variables of a problem -/

/-- The variables of the clauses and of the starting binding. -/
def mentionedVariables (f : Formula) (starting : Binding) : Finset Variable :=
  ((f.clauses.toList.flatMap Clause.literals).map Literal.var ++
    starting.toList.map Prod.fst).toFinset

/-- The mentioned variables that a binding leaves open. -/
def openVariables (f : Formula) (starting b : Binding) : Finset Variable :=
  (mentionedVariables f starting).filter fun v => !b.binds v

variable {f : Formula} {starting b : Binding}

theorem mem_mentionedVariables_of_clause {c : Clause}
    (hc : c ∈ Search.startingClauses f starting) {l : Literal} (hl : l ∈ c.literals) :
    l.var ∈ mentionedVariables f starting := by
  unfold mentionedVariables
  rw [List.mem_toFinset, List.mem_append]
  unfold Search.startingClauses at hc
  rcases List.mem_append.mp hc with hc | hc
  · exact Or.inl (List.mem_map_of_mem (List.mem_flatMap.mpr ⟨c, hc, hl⟩))
  · right
    obtain ⟨m, hm, rfl⟩ := List.mem_map.mp hc
    rw [List.mem_singleton.mp hl]
    obtain ⟨pair, hpair, rfl⟩ := List.mem_map.mp hm
    exact List.mem_map.mpr ⟨pair, hpair, rfl⟩

theorem remainingVariables_subset_openVariables :
    remainingVariables (Search.startingClauses f starting) b ⊆ openVariables f starting b := by
  intro v hv
  obtain ⟨l, rfl, hunbound, c, hc, _, hl⟩ := mem_remainingVariables.mp hv
  unfold openVariables
  rw [Finset.mem_filter, hunbound]
  exact ⟨mem_mentionedVariables_of_clause hc hl, rfl⟩

theorem card_remainingVariables_le_open :
    (remainingVariables (Search.startingClauses f starting) b).card ≤
      (openVariables f starting b).card :=
  Finset.card_le_card remainingVariables_subset_openVariables

theorem card_openVariables_le :
    (openVariables f starting b).card ≤ (mentionedVariables f starting).card :=
  Finset.card_filter_le _ _

namespace Search

/-! ## More rounds and steps than needed -/

variable {s : Search}

theorem simplifyWithin_mono {rounds more : Nat} {changed : Bool} {result : Simplified × Search}
    (h : s.simplifyWithin changed rounds = .ok result) (hle : rounds ≤ more) :
    s.simplifyWithin changed more = .ok result := by
  induction rounds generalizing s changed more with
  | zero => cases h
  | succ rounds ih =>
      obtain ⟨more, rfl⟩ : ∃ k, more = k + 1 := ⟨more - 1, by omega⟩
      rw [simplifyWithin] at h ⊢
      cases hround : s.round with
      | error fault =>
          rw [hround] at h
          cases h
      | ok pair =>
          obtain ⟨outcome, next⟩ := pair
          rw [hround] at h
          cases outcome with
          | conflict => exact h
          | rest => exact h
          | progress => exact ih h (by omega)

/-- Simplification takes at most one round more than there are open variables. -/
def SimplifiesInTime (f : Formula) (starting : Binding) (s : Search) : Prop :=
  ∃ result, s.simplify = .ok result ∧
    s.simplifyWithin false ((openVariables f starting s.branch.binding).card + 1) = .ok result

theorem simplifiesInTime_of (h : Branch.Of (startingClauses f starting) s.branch) :
    SimplifiesInTime f starting s := by
  obtain ⟨result, next, hnext, _⟩ := simplifyWithin_exists h (Nat.lt_succ_self _) false
  have hindex := h.card_remainingVariables_le_size
  have hopen : (remainingVariables (startingClauses f starting) s.branch.binding).card ≤
      (openVariables f starting s.branch.binding).card := card_remainingVariables_le_open
  exact ⟨(result, next), simplifyWithin_mono hnext (by omega),
    simplifyWithin_mono hnext (by omega)⟩

/-- A search on which nothing is untried takes at most as many steps as the full binary tree over
the mentioned variables has nodes, and each step but the last makes one decision. -/
theorem solve_within_tree (h : Branch.Of (startingClauses f starting) s.branch)
    (hsettled : Branch.Settled s.branch.trail.entries) :
    ∃ verdict final, s.solve = .ok (verdict, final) ∧
      s.announce.runWithin (2 ^ ((mentionedVariables f starting).card + 1) - 1) =
        .ok (verdict, final) ∧
      final.stats.decisions + 2 ≤
        s.stats.decisions + 2 ^ ((mentionedVariables f starting).card + 1) := by
  have hannounced : Branch.Of (startingClauses f starting) s.announce.branch := h
  obtain ⟨steps, last, verdict, final, hsteps, hruns, hend, _⟩ :=
    ends_cases hannounced hsettled
  have hcard : (remainingVariables (startingClauses f starting) s.branch.binding).card ≤
      (mentionedVariables f starting).card :=
    card_remainingVariables_le_open.trans card_openVariables_le
  have htree : steps + 1 < 2 ^ ((mentionedVariables f starting).card + 1) :=
    lt_of_lt_of_le hsteps (Nat.pow_le_pow_right (by omega) (Nat.succ_le_succ hcard))
  refine ⟨verdict, final, hruns.solve_eq_ok h hend hsteps,
    hruns.runWithin_of_ends hend (by omega), ?_⟩
  have hdecisions : final.stats.decisions = s.stats.decisions + steps := by
    rw [(step_eq_ends (hruns.of hannounced) hend).2.1, hruns.decisions_eq hannounced]
    rfl
  omega

/-- Every call of simplification takes at most one round more than there are open variables, be it
made by the host or while solving.  Solving, whatever was requested before, takes at most as many
steps as the full binary tree over the mentioned variables has nodes, with a decision in each step
but the last. -/
theorem prepared_work_bounded {config : SearchConfig} {cancellation : Cancellation} {s₀ : Search}
    (hprepare : prepare f starting config cancellation = .ok s₀) :
    (∀ s, Reachable s₀ s → SimplifiesInTime f starting s) ∧
    ∀ requests, AllowedInTurn s₀ requests → ∃ replies s verdict final,
      s₀.serveAll requests = .ok (replies, s) ∧ s.solve = .ok (verdict, final) ∧
      (∀ n mid, Runs s.announce n mid → SimplifiesInTime f starting mid) ∧
      s.announce.runWithin (2 ^ ((mentionedVariables f starting).card + 1) - 1) =
        .ok (verdict, final) ∧
      final.stats.decisions ≤ 2 ^ ((mentionedVariables f starting).card + 1) - 2 := by
  have hroot := of_prepare hprepare
  have hof := Branch.Of.of_eq_root hroot
  refine ⟨fun s hs => simplifiesInTime_of (hs.of hof), ?_⟩
  intro requests hallowed
  obtain ⟨replies, s, hs, hserved⟩ := serveAll_exists hof (undecided_root hroot) hallowed
  obtain ⟨verdict, final, hsolve, hrun, hdecisions⟩ :=
    solve_within_tree hserved.of hserved.settled
  have hannounced : Branch.Of (startingClauses f starting) s.announce.branch := hserved.of
  have hnone : s.stats.decisions = 0 := by
    rw [hserved.keeps.decisions, prepare_eq_ok hprepare]
    rfl
  exact ⟨replies, s, verdict, final, hs, hsolve,
    fun _ _ hruns => simplifiesInTime_of (hruns.of hannounced), hrun, by omega⟩

theorem prepared_work_bounded_with_one_bound :
    let f := Formula.ofClauses
      [⟨[⟨⟨1⟩, true⟩, ⟨⟨2⟩, true⟩]⟩, ⟨[⟨⟨1⟩, false⟩, ⟨⟨3⟩, true⟩, ⟨⟨2⟩, false⟩]⟩]
    let s := start f (.ofLiterals [⟨⟨3⟩, false⟩]) {} (.after 2)
    (∃ result, s.simplify = .ok result ∧ s.simplifyWithin false 4 = .ok result) ∧
      ∃ replies next verdict final, s.serveAll [.unitLiterals, .simplify] = .ok (replies, next) ∧
        next.solve = .ok (verdict, final) ∧ next.announce.runWithin 15 = .ok (verdict, final) ∧
        final.stats.decisions ≤ 14 := by
  intro f s
  have hprepare : prepare f (.ofLiterals [⟨⟨3⟩, false⟩]) {} (.after 2) = .ok s := rfl
  have hmentioned : (mentionedVariables f (.ofLiterals [⟨⟨3⟩, false⟩])).card = 3 := by decide
  have hopen :
      (openVariables f (.ofLiterals [⟨⟨3⟩, false⟩]) s.branch.binding).card = 3 := by decide
  obtain ⟨hrounds, hsteps⟩ := prepared_work_bounded hprepare
  have hfirst := hrounds s .start
  unfold SimplifiesInTime at hfirst
  obtain ⟨replies, next, verdict, final, hnext, hsolve, _, hrun, hdecisions⟩ :=
    hsteps [.unitLiterals, .simplify] ⟨trivial, fun _ _ _ => ⟨trivial, fun _ _ _ => trivial⟩⟩
  rw [hopen] at hfirst
  rw [hmentioned] at hrun hdecisions
  exact ⟨hfirst, replies, next, verdict, final, hnext, hsolve, hrun, hdecisions⟩

end Search

end SatSearch
