import SatSearch.Proofs.Cancellation
import SatSearch.Proofs.Equivariance
import SatSearch.Proofs.Idempotence

/-!
# Satisfying bindings are fixed points

A starting binding that confirms the formula makes a literal of every starting clause true.  So the
unit clauses, be they the formula's or the starting ones, force exactly the literals of the binding.
The first batch assigns them, after which every clause is satisfied and nothing is left to infer or
to decide.
-/

namespace SatSearch

variable {f : Formula} {b starting : Binding} {config : SearchConfig}
  {cancellation : Cancellation} {clauses : List Clause}

namespace Binding

theorem length_literals (b : Binding) : b.literals.length = b.size := by
  unfold literals toList size
  rw [List.length_map]
  exact Std.ExtTreeMap.length_toList

/-- There is nothing to complete where all of the variables are bound. -/
theorem complete_of_binds {vs : List Variable} (h : ∀ v ∈ vs, b.binds v = true) :
    b.complete vs = b := by
  have hnone : b.complete vs = b.complete [] := by
    apply complete_congr
    intro v hv
    refine ⟨fun hmem => ?_, fun hmem => absurd hmem List.not_mem_nil⟩
    rw [h v hmem] at hv
    contradiction
  exact hnone

end Binding

/-! ## Satisfied branches -/

namespace Branch

variable {branch : Branch}

theorem Of.not_remains (h : Of clauses branch) (hsatisfied : branch.isSatisfied = true)
    (l : Literal) : ¬Remains clauses branch.binding l := by
  rintro ⟨_, c, hc, hopen, _⟩
  obtain ⟨m, hm, htrue⟩ := Clause.evaluate_eq_yes_iff.mp (h.isSatisfied_iff.mp hsatisfied c hc)
  exact hopen m hm htrue

theorem Of.atRest_of_isSatisfied (h : Of clauses branch) (hsatisfied : branch.isSatisfied = true)
    (pure : Bool) : branch.AtRest pure where
  hasFalsified := by
    rw [← Bool.not_eq_true, h.hasFalsified_iff]
    rintro ⟨c, hc, hno⟩
    rw [h.isSatisfied_iff.mp hsatisfied c hc] at hno
    contradiction
  unitLiterals := by
    obtain ⟨_, l, hl, _⟩ | ⟨units, hunits, _, hforced, _⟩ := h.unitLiterals_cases
    · exact absurd hl.remains (h.not_remains hsatisfied l)
    · have hnil : units = [] := by
        rw [List.eq_nil_iff_forall_not_mem]
        intro l hl
        exact h.not_remains hsatisfied l ((hforced l).mp hl).remains
      rw [hunits, hnil]
  pureLiterals := by
    intro _
    rw [List.eq_nil_iff_forall_not_mem]
    intro l hl
    exact h.not_remains hsatisfied l (h.mem_pureLiterals.mp hl).1

end Branch

namespace Search

variable {s mid : Search}

/-! ## The first batch -/

theorem evaluate_startingClauses (hyes : f.evaluate b = .yes) {c : Clause}
    (hc : c ∈ startingClauses f b) : c.evaluate b = .yes := by
  rcases mem_startingClauses.mp hc with hc | ⟨l, hl, rfl⟩
  · exact Formula.evaluate_eq_yes_iff.mp hyes c hc
  · exact Clause.evaluate_eq_yes_iff.mpr ⟨l, List.mem_singleton_self l, hl⟩

/-- What is forced from the beginning is what the starting binding makes true. -/
theorem forced_startingClauses_iff (hyes : f.evaluate b = .yes) {l : Literal} :
    Forced (startingClauses f b) .empty l ↔ b.value? l = some true := by
  have hunbound : ∀ v, Binding.empty.binds v = false := by
    intro v
    simp [Binding.binds, Binding.empty]
  constructor
  · rintro ⟨c, hc, _, _, honly⟩
    obtain ⟨m, hm, htrue⟩ :=
      Clause.evaluate_eq_yes_iff.mp (evaluate_startingClauses hyes hc)
    rwa [← (honly m hm).mp (hunbound m.var)]
  · intro htrue
    refine ⟨.unit l, mem_startingClauses.mpr (Or.inr ⟨l, htrue, rfl⟩), ?_,
      List.mem_singleton_self l, ?_⟩
    · intro m _ hm
      rw [Binding.value?_eq_none_iff.mpr (hunbound m.var)] at hm
      contradiction
    · intro m hm
      exact iff_of_true (hunbound m.var) (List.mem_singleton.mp hm)

theorem unitLiterals_of_confirmed (hyes : f.evaluate b = .yes) {branch : Branch}
    (hroot : branch = Branch.root (startingClauses f b)) :
    ∃ units, branch.unitLiterals = .ok (some units) ∧ units.Perm b.literals := by
  have hof := Branch.Of.of_eq_root hroot
  have hbinding : branch.binding = .empty := by
    rw [hroot]
    rfl
  have hforced : ∀ l, Forced (startingClauses f b) branch.binding l ↔ b.value? l = some true := by
    intro l
    rw [hbinding, forced_startingClauses_iff hyes]
  obtain ⟨_, l, hl, hneg⟩ | ⟨units, hunits, hnodup, hmem, _⟩ := hof.unitLiterals_cases
  · have hfalse := Binding.value?_neg.mp ((hforced (-l)).mp hneg)
    rw [(hforced l).mp hl] at hfalse
    contradiction
  · refine ⟨units, hunits, ?_⟩
    rw [List.perm_ext_iff_of_nodup hnodup.of_map b.nodup_literals.of_map]
    intro l
    rw [hmem, hforced, Binding.mem_literals]

theorem stats_of_inferBatch {r : Nat → LogRecord} {ls : List Literal}
    (h : s.inferBatch r ls = .ok mid) :
    mid.stats = { s.stats with propagations := s.stats.propagations + ls.length } := by
  unfold inferBatch at h
  split at h
  next hempty =>
    cases h
    rw [List.isEmpty_iff.mp hempty]
    rfl
  next =>
    obtain ⟨branch, _, hmid⟩ := bind_eq_ok_iff.mp h
    cases hmid
    rfl

/-- The search with the literals of the binding inferred and nothing else. -/
structure Confirms (s : Search) (b : Binding) (mid : Search) : Prop where
  keeps : Keeps s mid
  binding : mid.branch.binding = b
  satisfied : mid.branch.isSatisfied = true
  stats : mid.stats = { s.stats with propagations := s.stats.propagations + b.size }

theorem confirms_of_inferBatch (hyes : f.evaluate b = .yes)
    (hroot : s.branch = Branch.root (startingClauses f b)) :
    ∃ units mid, s.branch.unitLiterals = .ok (some units) ∧
      s.inferBatch .propagating units = .ok mid ∧ Branch.Of (startingClauses f b) mid.branch ∧
      Confirms s b mid := by
  have hof := Branch.Of.of_eq_root hroot
  obtain ⟨units, hunits, hperm⟩ := unitLiterals_of_confirmed hyes hroot
  have hbatch : Branch.Batch s.config.pureLiteralElimination s.branch units := Or.inl hunits
  obtain ⟨branch, hassign⟩ := hof.batch_exists hbatch
  obtain ⟨mid, hmid, rfl, hkeeps⟩ := inferBatch_eq_ok .propagating hassign
  have hlast := hof.of_assignAll hassign
  have hbinding : mid.branch.binding = b := by
    apply Binding.ext_value?
    intro l
    rw [hof.value?_assignAll hassign, hperm.mem_iff, Binding.mem_literals, hroot]
    simp [Branch.root, Binding.value?, Binding.get?, Binding.empty]
  refine ⟨units, mid, hunits, hmid, hlast, hkeeps, hbinding, ?_, ?_⟩
  · rw [hlast.isSatisfied_iff, hbinding]
    exact fun c hc => evaluate_startingClauses hyes hc
  · rw [stats_of_inferBatch hmid, hperm.length_eq, b.length_literals]

theorem hasFalsified_of_confirmed (hyes : f.evaluate b = .yes)
    (hroot : s.branch = Branch.root (startingClauses f b)) : s.branch.hasFalsified = false := by
  have hbinding : s.branch.binding = .empty := by
    rw [hroot]
    rfl
  rw [← Bool.not_eq_true, (Branch.Of.of_eq_root hroot).hasFalsified_iff, hbinding]
  rintro ⟨c, hc, hno⟩
  obtain ⟨l, hl, _⟩ := Clause.evaluate_eq_yes_iff.mp (evaluate_startingClauses hyes hc)
  have hfalse := Clause.evaluate_eq_no_iff.mp hno l hl
  simp [Binding.value?, Binding.get?, Binding.empty] at hfalse

theorem simplify_of_confirmed (hyes : f.evaluate b = .yes)
    (hroot : s.branch = Branch.root (startingClauses f b)) :
    ∃ changed mid, s.simplify = .ok (.rest changed, mid) ∧ Confirms s b mid := by
  obtain ⟨units, mid, hunits, hmid, hof, hconfirms⟩ := confirms_of_inferBatch hyes hroot
  have hrest := hof.atRest_of_isSatisfied hconfirms.satisfied mid.config.pureLiteralElimination
  cases units with
  | nil =>
      cases hmid
      exact ⟨false, s, simplify_of_atRest hrest, hconfirms⟩
  | cons l units =>
      have hround : s.round = .ok (.progress, mid) := by
        rw [round_of_units (hasFalsified_of_confirmed hyes hroot) hunits hmid,
          if_neg (ne_true_of_eq_false hrest.hasFalsified)]
        have hpures : (if mid.config.pureLiteralElimination then mid.branch.pureLiterals
            else []) = [] := by
          split
          next hpure => exact hrest.pureLiterals hpure
          next => rfl
        simp only [hpures]
        rfl
      -- the bound on the rounds leaves room for the second one
      obtain ⟨result, next, hnext, _⟩ := simplify_exists (Branch.Of.of_eq_root hroot)
      have hunfold : s.simplify = mid.simplifyWithin true s.branch.formula.index.size := by
        unfold simplify
        rw [simplifyWithin, hround]
        rfl
      rw [hunfold] at hnext
      cases hsize : s.branch.formula.index.size with
      | zero =>
          rw [hsize] at hnext
          cases hnext
      | succ rounds =>
          rw [hsize] at hunfold
          exact ⟨true, mid, hunfold.trans (simplifyWithin_of_atRest hrest true rounds), hconfirms⟩

theorem solve_of_confirmed (hyes : f.evaluate b = .yes)
    (hroot : s.branch = Branch.root (startingClauses f b)) :
    ∃ final, s.solve = .ok (.satisfied (if s.config.completeModel then
        b.complete s.scope.variables.toList else b), final) ∧
      final.stats = { s.stats with propagations := s.stats.propagations + b.size } := by
  have hannounced : s.announce.branch = Branch.root (startingClauses f b) := hroot
  obtain ⟨changed, mid, hmid, hconfirms⟩ := simplify_of_confirmed hyes hannounced
  have hstep := step_of_satisfied hmid hconfirms.satisfied
  have hmodel : mid.model =
      if s.config.completeModel then b.complete s.scope.variables.toList else b := by
    unfold model
    rw [hconfirms.keeps.config, hconfirms.keeps.scope, hconfirms.binding]
    rfl
  obtain ⟨size, hsize⟩ : ∃ size, s.treeSize = size + 1 :=
    ⟨s.treeSize - 1, (Nat.sub_add_cancel (Nat.pow_pos (by omega))).symm⟩
  refine ⟨mid.record (.satisfiable mid.stats), ?_, hconfirms.stats⟩
  unfold solve
  rw [hsize, runWithin_of_ends hstep, hmodel]

end Search

open Search

/-! ## Solving -/

theorem get?_complete_scope (f : Formula) (b : Binding) (v : Variable) :
    (b.complete f.scope.variables.toList).get? v =
      if b.binds v then b.get? v else if f.contains v then some false else none := by
  cases hv : b.binds v with
  | true =>
      obtain ⟨value, hvalue⟩ := Binding.binds_iff.mp hv
      rw [Binding.get?_complete hvalue, hvalue, if_pos rfl]
  | false =>
      have hmem : v ∈ f.scope.variables.toList ↔ f.contains v = true := by
        rw [Array.mem_toList_iff]
        exact Scope.contains_iff.symm
      rw [Binding.get?_complete_of_open hv, if_neg Bool.false_ne_true]
      simp only [hmem]

theorem prepare_of_within (hwithin : f.closed = true → ∀ v, b.binds v = true → f.contains v = true)
    (config : SearchConfig) (cancellation : Cancellation) :
    prepare f b config cancellation = .ok (start f b config cancellation) := by
  refine prepare_eq_ok_iff.mpr ⟨foreignVariable?_eq_none_iff.mpr ?_, rfl⟩
  rintro ⟨v, hclosed, hbinds, hforeign⟩
  rw [hwithin hclosed v hbinds] at hforeign
  contradiction

theorem solveWith_of_confirmed (hyes : f.evaluate b = .yes)
    (hwithin : f.closed = true → ∀ v, b.binds v = true → f.contains v = true)
    (config : SearchConfig) (cancellation : Cancellation) :
    solveWith f b config cancellation =
      .ok (if config.completeModel then b.complete f.scope.variables.toList else b) := by
  obtain ⟨final, hsolve, _⟩ :=
    solve_of_confirmed hyes (branch_start f b config cancellation)
  rw [solveWith_of_prepare (prepare_of_within hwithin config cancellation) hsolve]
  rfl

/-- The variables of an answer belong to a closed formula. -/
theorem within_of_solveWith (h : solveWith f starting config cancellation = .ok b)
    (hclosed : f.closed = true) {v : Variable} (hv : b.binds v = true) : f.contains v = true := by
  rcases (solveWith_sound h).2.2.1 v hv with hcontains | hstarting
  · exact hcontains
  · cases hforeign : foreignVariable? f starting with
    | some w =>
        rw [solveWith_of_foreign hforeign] at h
        contradiction
    | none =>
        by_contra hnot
        exact foreignVariable?_eq_none_iff.mp hforeign
          ⟨v, hclosed, hstarting, Bool.eq_false_iff.mpr hnot⟩

/-- A starting binding that confirms the formula is answered with itself, without a decision or a
conflict and whatever the host requests.  Each of its values counts as one inference.  A complete
model binds the other variables of the formula to false.  So an answer is answered with itself,
unless only the second one is to be complete. -/
theorem solveWith_fixed (f : Formula) (config : SearchConfig) (cancellation : Cancellation) :
    (∀ b, f.evaluate b = .yes →
      (f.closed = true → ∀ v, b.binds v = true → f.contains v = true) →
      ∃ s model final, prepare f b config cancellation = .ok s ∧
        s.solve = .ok (.satisfied model, final) ∧
        solveWith f b config cancellation = .ok model ∧
        final.stats.decisions = 0 ∧ final.stats.conflicts = 0 ∧
        final.stats.propagations = b.size ∧
        (config.completeModel = false → model = b) ∧
        (config.completeModel = true → ∀ v, model.get? v =
          if b.binds v then b.get? v else if f.contains v then some false else none)) ∧
    ∀ starting first request b, solveWith f starting first request = .ok b →
      (config.completeModel = true → first.completeModel = true) →
      solveWith f b config cancellation = .ok b := by
  refine ⟨?_, ?_⟩
  · intro b hyes hwithin
    obtain ⟨final, hsolve, hstats⟩ :=
      solve_of_confirmed hyes (branch_start f b config cancellation)
    refine ⟨_, _, final, prepare_of_within hwithin config cancellation, hsolve,
      solveWith_of_confirmed hyes hwithin config cancellation, ?_, ?_, ?_, ?_, ?_⟩
    · rw [hstats]
      rfl
    · rw [hstats]
      rfl
    · rw [hstats]
      exact Nat.zero_add b.size
    · intro hpartial
      exact if_neg (ne_true_of_eq_false hpartial)
    · intro hcomplete v
      rw [← get?_complete_scope]
      exact congrArg (Binding.get? · v) (if_pos hcomplete)
  · intro starting first request b hb hfirst
    obtain ⟨hyes, _, _, hcomplete⟩ := solveWith_sound hb
    rw [solveWith_of_confirmed hyes fun hclosed v hv => within_of_solveWith hb hclosed hv]
    split
    next hmodel =>
      have hall : ∀ v ∈ f.scope.variables.toList, b.binds v = true := by
        intro v hv
        have hcontains : f.contains v = true :=
          Scope.contains_iff.mpr (Array.mem_toList_iff.mp hv)
        exact (hcomplete (hfirst hmodel) v).mpr (Or.inl hcontains)
      rw [Binding.complete_of_binds hall]
    next => rfl

theorem solveWith_fixed_of_partial_binding :
    let f := ((Formula.withVariables [⟨1⟩, ⟨2⟩, ⟨3⟩]).extend
      [⟨[⟨⟨1⟩, true⟩]⟩, ⟨[⟨⟨3⟩, true⟩, ⟨⟨2⟩, false⟩, ⟨⟨3⟩, false⟩]⟩]).1
    let b := Binding.ofLiterals [⟨⟨1⟩, true⟩, ⟨⟨2⟩, false⟩]
    f.evaluate b = .yes ∧
      (∃ s final, prepare f b { completeModel := false } (.after 0) = .ok s ∧
        s.solve = .ok (.satisfied b, final) ∧ final.stats.propagations = 2) ∧
      ∃ model, solveWith f .empty {} .never = .ok model ∧
        solveWith f model {} (.after 0) = .ok model := by
  intro f b
  have hyes : f.evaluate b = .yes := by decide
  have hwithin : f.closed = true → ∀ v, b.binds v = true → f.contains v = true := by
    intro _ v hv
    have hall : ∀ w ∈ b.toList.map Prod.fst, f.contains w = true := by decide
    exact hall v (mem_variables.mpr hv)
  have hanswer : solveWith f .empty {} .never =
      .ok (.ofLiterals [⟨⟨1⟩, true⟩, ⟨⟨2⟩, false⟩, ⟨⟨3⟩, false⟩]) := by decide
  obtain ⟨s, model, final, hs, hsolve, _, _, _, hpropagations, hpartial, _⟩ :=
    (solveWith_fixed f { completeModel := false } (.after 0)).1 b hyes hwithin
  rw [hpartial rfl] at hsolve
  exact ⟨hyes, ⟨s, final, hs, hsolve, hpropagations⟩, _, hanswer,
    (solveWith_fixed f {} (.after 0)).2 _ _ _ _ hanswer fun _ => rfl⟩

end SatSearch
