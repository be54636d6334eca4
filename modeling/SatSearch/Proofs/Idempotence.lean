import SatSearch.Proofs.Reachability

/-!
# Simplification is idempotent

At rest there is nothing left to infer, so simplifying once more leaves the search as it is.  After
a conflict it does so too: what has been met is met again at once.
-/

namespace SatSearch

namespace Search

variable {f : Formula} {starting : Binding} {config : SearchConfig} {cancellation : Cancellation}
  {s₀ s : Search}

/-- The search as it goes on with another configuration. -/
def configured (s : Search) (config : SearchConfig) : Search :=
  { s with config }

theorem Reachable.configured_eq (hprepare : prepare f starting config cancellation = .ok s₀)
    (hs : Reachable s₀ s) : s.configured config = s := by
  have hsame := hs.sameProblem (Branch.Of.of_eq_root (of_prepare hprepare))
  have hconfig : config = s₀.config := by
    rw [prepare_eq_ok hprepare]
    rfl
  rw [hconfig, ← hsame.config]
  rfl

theorem round_of_atRest (h : s.branch.AtRest s.config.pureLiteralElimination) :
    s.round = .ok (.rest, s) := by
  have hnone : s.inferBatch .propagating [] = .ok s := rfl
  have hpures :
      (if s.config.pureLiteralElimination then s.branch.pureLiterals else []) = [] := by
    split
    next hpure => exact h.pureLiterals hpure
    next => rfl
  rw [round_of_units h.hasFalsified h.unitLiterals hnone,
    if_neg (ne_true_of_eq_false h.hasFalsified)]
  simp only [hpures]
  rfl

theorem simplifyWithin_of_atRest (h : s.branch.AtRest s.config.pureLiteralElimination)
    (changed : Bool) (rounds : Nat) :
    s.simplifyWithin changed (rounds + 1) = .ok (.rest changed, s) := by
  rw [simplifyWithin, round_of_atRest h]
  rfl

theorem simplify_of_atRest (h : s.branch.AtRest s.config.pureLiteralElimination) :
    s.simplify = .ok (.rest false, s) :=
  simplifyWithin_of_atRest h false _

theorem simplify_of_conflicting (h : s.branch.Conflicting) :
    s.simplify = .ok (.conflict, s) := by
  unfold simplify simplifyWithin
  rw [round_of_conflicting h]
  rfl

/-- On every reachable search, whatever configuration it goes on with, simplification ends.  At rest
no clause is refuted and nothing is left to infer.  Simplifying once more changes nothing and gives
the same answer, except that it reports no change. -/
theorem reachable_simplify_idempotent (hprepare : prepare f starting config cancellation = .ok s₀)
    (hs : Reachable s₀ s) (other : SearchConfig) :
    ∃ result next, (s.configured other).simplify = .ok (result, next) ∧
      (∀ changed, result = .rest changed →
        next.branch.hasFalsified = false ∧
        (∀ c ∈ startingClauses f starting, c.evaluate next.branch.binding ≠ .no) ∧
        next.branch.unitLiterals = .ok (some []) ∧
        (other.pureLiteralElimination = true → next.branch.pureLiterals = []) ∧
        next.simplify = .ok (.rest false, next)) ∧
      (result = .conflict → next.simplify = .ok (.conflict, next)) := by
  have hof : Branch.Of (startingClauses f starting) (s.configured other).branch :=
    hs.of_prepared hprepare
  obtain ⟨result, next, hnext, houtcome⟩ := simplify_exists hof
  refine ⟨result, next, hnext, ?_, fun hresult =>
    simplify_of_conflicting (houtcome.conflict hresult)⟩
  intro changed hresult
  have hrest := houtcome.rest changed hresult
  refine ⟨hrest.hasFalsified, ?_, hrest.unitLiterals, hrest.pureLiterals, ?_⟩
  · intro c hc hno
    have hlast := hof.of_simplifies houtcome.simplifies
    have hfalsified := hlast.hasFalsified_iff.mpr ⟨c, hc, hno⟩
    rw [hrest.hasFalsified] at hfalsified
    contradiction
  · rw [← houtcome.keeps.config] at hrest
    exact simplify_of_atRest hrest

theorem reachable_simplify_idempotent_after_decision :
    let f := Formula.ofClauses [⟨[⟨⟨1⟩, false⟩, ⟨⟨2⟩, true⟩]⟩,
      ⟨[⟨⟨2⟩, false⟩, ⟨⟨3⟩, true⟩, ⟨⟨4⟩, true⟩]⟩, ⟨[⟨⟨3⟩, false⟩, ⟨⟨4⟩, false⟩]⟩,
      ⟨[⟨⟨3⟩, true⟩, ⟨⟨5⟩, true⟩]⟩]
    ∃ s next, (start f .empty {} .never).perform (.decide ⟨⟨1⟩, true⟩ false) = .ok s ∧
      s.simplify = .ok (.rest true, next) ∧ next.branch.pureLiterals = [] ∧
      next.simplify = .ok (.rest false, next) := by
  intro f
  have hprepare : prepare f .empty {} .never = .ok (start f .empty {} .never) := rfl
  have hallowed : (Call.decide ⟨⟨1⟩, true⟩ false).Allowed (start f .empty {} .never) := rfl
  obtain ⟨s, hs, hreachable⟩ := perform_prepared hprepare hallowed
  have hresult : ((start f .empty {} .never).perform (.decide ⟨⟨1⟩, true⟩ false)).bind
      (fun s => s.simplify.map Prod.fst) = .ok (.rest true) := by decide
  obtain ⟨result, next, hnext, hrest, _⟩ :=
    reachable_simplify_idempotent hprepare hreachable {}
  rw [hreachable.configured_eq hprepare] at hnext
  obtain rfl : result = .rest true := by
    simpa [hs, hnext, Except.bind, Except.map] using hresult
  obtain ⟨_, _, _, hpures, hagain⟩ := hrest true rfl
  exact ⟨s, next, hs, hnext, hpures rfl, hagain⟩

end Search

end SatSearch
