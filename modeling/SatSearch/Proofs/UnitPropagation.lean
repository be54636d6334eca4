import SatSearch.Proofs.Idempotence
import SatSearch.Proofs.Equisatisfiability

/-!
# Unit propagation as a closure

Unit propagation is described without batches, bindings and order: a literal follows from the true
ones if all other literals of some clause are false, and what follows is the least set that is
closed under this rule.  Simplification ends in a conflict if and only if that set contradicts
itself, and otherwise it makes all of the set true.

Pure literals change nothing about it.  When a literal is pure its negation is left in no open
clause, so no clause that is still to be propagated ever misses it; what is forced later follows
from the old literals alone.
-/

namespace SatSearch

variable {clauses : List Clause} {b : Binding}

/-! ## What follows by propagation -/

/-- The literals that follow from those that the binding makes true: the least set that contains
them and, with the negations of all other literals of a clause, the literal that is left. -/
inductive Follows (clauses : List Clause) (b : Binding) : Literal → Prop
  | bound {l : Literal} (h : b.value? l = some true) : Follows clauses b l
  | unit {c : Clause} {l : Literal} (hc : c ∈ clauses) (hl : l ∈ c.literals)
      (hothers : ∀ m ∈ c.literals, m ≠ l → Follows clauses b (-m)) : Follows clauses b l

/-- Two opposite literals follow, or some clause has no literals. -/
def Contradicts (clauses : List Clause) (b : Binding) : Prop :=
  (∃ l, Follows clauses b l ∧ Follows clauses b (-l)) ∨ ∃ c ∈ clauses, c.literals = []

theorem contradicts_of_refuted {c : Clause} (hc : c ∈ clauses)
    (hrefuted : ∀ m ∈ c.literals, Follows clauses b (-m)) : Contradicts clauses b := by
  cases hliterals : c.literals with
  | nil => exact Or.inr ⟨c, hc, hliterals⟩
  | cons l ls =>
      have hl : l ∈ c.literals := by
        rw [hliterals]
        exact List.mem_cons_self
      have hunit : Follows clauses b l := .unit hc hl fun m hm _ => hrefuted m hm
      exact Or.inl ⟨l, hunit, hrefuted l hl⟩

theorem Follows.holds {l : Literal} {a : Assignment} (h : Follows clauses b l)
    (hagrees : b.AgreesWith a) (hmodels : Models clauses a) : l.holds a = true := by
  induction h with
  | bound htrue => exact Binding.agreesWith_iff.mp hagrees _ htrue
  | @unit c l hc _ _ ih =>
      obtain ⟨m, hm, hholds⟩ := Clause.holds_iff.mp (hmodels c hc)
      by_cases heq : m = l
      · rwa [← heq]
      · have hneg := ih m hm heq
        simp [hholds] at hneg

theorem not_contradicts_of_models {a : Assignment} (hagrees : b.AgreesWith a)
    (hmodels : Models clauses a) : ¬Contradicts clauses b := by
  rintro (⟨l, hl, hneg⟩ | ⟨c, hc, hnil⟩)
  · have hholds := hneg.holds hagrees hmodels
    simp [hl.holds hagrees hmodels] at hholds
  · have hholds := hmodels c hc
    simp [Clause.holds, hnil] at hholds

/-- What the current binding makes true follows from the original one, or it plays no part in open
clauses. -/
def Explained (clauses : List Clause) (b current : Binding) : Prop :=
  ∀ l, current.value? l = some true →
    Follows clauses b l ∨ ∀ c ∈ clauses, c.Open current → -l ∉ c.literals

theorem explained_self : Explained clauses b b :=
  fun _ hl => Or.inl (.bound hl)

theorem Clause.Open.of_value? {c : Clause} {current later : Binding} (h : c.Open later)
    (hkept : ∀ l, current.value? l = some true → later.value? l = some true) : c.Open current :=
  fun l hl htrue => h l hl (hkept l htrue)

namespace Explained

variable {current : Binding} {c : Clause} {l m : Literal}

/-- The false literals of an open clause are false because their negations follow. -/
theorem follows_neg (h : Explained clauses b current) (hc : c ∈ clauses) (hopen : c.Open current)
    (hm : m ∈ c.literals) (hfalse : current.value? m = some false) : Follows clauses b (-m) := by
  have htrue : current.value? (-m) = some true := by
    rw [Binding.value?_neg, hfalse]
    rfl
  obtain hfollows | hunused := h (-m) htrue
  · exact hfollows
  · refine absurd ?_ (hunused c hc hopen)
    rwa [Literal.neg_neg]

theorem follows_of_forced (h : Explained clauses b current) (hl : Forced clauses current l) :
    Follows clauses b l := by
  obtain ⟨c, hc, hopen, hlc, honly⟩ := hl
  refine .unit hc hlc fun m hm hne => h.follows_neg hc hopen hm ?_
  have hbinds : current.binds m.var = true := by
    rw [← Bool.not_eq_false, honly m hm]
    exact hne
  exact (Binding.binds_iff_value?.mp hbinds).resolve_left (hopen m hm)

end Explained

namespace Branch

variable {branch last : Branch}

theorem contradicts_of_conflicting (h : Of clauses branch)
    (hexplained : Explained clauses b branch.binding) (hconflict : branch.Conflicting) :
    Contradicts clauses b := by
  obtain hfalsified | hnone := hconflict
  · obtain ⟨c, hc, hno⟩ := h.hasFalsified_iff.mp hfalsified
    have hfalse := Clause.evaluate_eq_no_iff.mp hno
    have hopen : c.Open branch.binding := by
      intro l hl htrue
      rw [hfalse l hl] at htrue
      cases htrue
    exact contradicts_of_refuted hc fun m hm => hexplained.follows_neg hc hopen hm (hfalse m hm)
  · obtain ⟨_, l, hl, hneg⟩ | ⟨units, hunits, _⟩ := h.unitLiterals_cases
    · exact Or.inl ⟨l, hexplained.follows_of_forced hl, hexplained.follows_of_forced hneg⟩
    · rw [hnone] at hunits
      cases hunits

theorem explained_of_batch (h : Of clauses branch) {pure : Bool} {ls : List Literal}
    (hexplained : Explained clauses b branch.binding) (hbatch : Batch pure branch ls)
    (hlast : branch.assignAll ls .inference = .ok last) : Explained clauses b last.binding := by
  intro l hl
  have hkept : ∀ m, branch.binding.value? m = some true → last.binding.value? m = some true :=
    fun m hm => (h.value?_assignAll hlast).mpr (Or.inr hm)
  obtain hnew | hold := (h.value?_assignAll hlast).mp hl
  · obtain hunits | ⟨_, rfl⟩ := hbatch
    · obtain ⟨_, hforced, _⟩ := h.unitLiterals_eq_some hunits
      exact Or.inl (hexplained.follows_of_forced ((hforced l).mp hnew))
    · -- the negation of a pure literal is left in no open clause
      obtain ⟨⟨hunbound, _⟩, hnone⟩ := h.mem_pureLiterals.mp hnew
      exact Or.inr fun c hc hopen hneg =>
        hnone ⟨hunbound, c, hc, hopen.of_value? hkept, hneg⟩
  · obtain hfollows | hunused := hexplained l hold
    · exact Or.inl hfollows
    · exact Or.inr fun c hc hopen => hunused c hc (hopen.of_value? hkept)

theorem explained_of_simplifies (h : Of clauses branch) {pure : Bool}
    (hexplained : Explained clauses b branch.binding) (hlast : Simplifies pure branch last) :
    Explained clauses b last.binding := by
  induction hlast with
  | refl => exact hexplained
  | batch hbatch hmid _ ih =>
      exact ih (h.of_assignAll hmid) (explained_of_batch h hexplained hbatch hmid)

/-- Without pure literals everything that simplification makes true follows. -/
theorem follows_of_simplifies (h : Of clauses branch)
    (hbranch : ∀ l, branch.binding.value? l = some true → Follows clauses b l)
    (hlast : Simplifies false branch last) {l : Literal}
    (hl : last.binding.value? l = some true) : Follows clauses b l := by
  induction hlast with
  | refl => exact hbranch l hl
  | batch hbatch hmid _ ih =>
      obtain hunits | ⟨hpure, _⟩ := hbatch
      · have hexplained : Explained clauses b _ := fun m hm => Or.inl (hbranch m hm)
        obtain ⟨_, hforced, _⟩ := h.unitLiterals_eq_some hunits
        refine ih (h.of_assignAll hmid) (fun m hm => ?_) hl
        obtain hnew | hold := (h.value?_assignAll hmid).mp hm
        · exact hexplained.follows_of_forced ((hforced m).mp hnew)
        · exact hbranch m hold
      · cases hpure

/-- On a branch at rest, what follows from some of the true literals is true. -/
theorem AtRest.value?_of_follows {pure : Bool} (hrest : branch.AtRest pure)
    (h : Of clauses branch) (hb : ∀ l, b.value? l = some true → branch.binding.value? l = some true)
    {l : Literal} (hl : Follows clauses b l) : branch.binding.value? l = some true := by
  induction hl with
  | bound htrue => exact hb _ htrue
  | @unit c l hc hl _ ih =>
      have hfalse : ∀ m ∈ c.literals, m ≠ l → branch.binding.value? m = some false := by
        intro m hm hne
        simpa using Binding.value?_neg.mp (ih m hm hne)
      cases hvalue : branch.binding.value? l with
      | none =>
          -- the clause would force the literal
          obtain ⟨_, hforced, _⟩ := h.unitLiterals_eq_some hrest.unitLiterals
          refine absurd ((hforced l).mpr ⟨c, hc, ?_, hl, ?_⟩) List.not_mem_nil
          · intro m hm htrue
            by_cases heq : m = l
            · rw [heq, hvalue] at htrue
              cases htrue
            · rw [hfalse m hm heq] at htrue
              cases htrue
          · intro m hm
            refine ⟨fun hunbound => ?_, ?_⟩
            · by_contra hne
              rw [← Binding.value?_eq_none_iff, hfalse m hm hne] at hunbound
              cases hunbound
            · rintro rfl
              exact Binding.value?_eq_none_iff.mp hvalue
      | some value =>
          cases value with
          | true => rfl
          | false =>
              -- the clause would be refuted
              have hno : c.evaluate branch.binding = .no := by
                rw [Clause.evaluate_eq_no_iff]
                intro m hm
                by_cases heq : m = l
                · rw [heq, hvalue]
                · exact hfalse m hm heq
              exact absurd hno (h.evaluate_ne_no hrest.hasFalsified hc)

theorem AtRest.not_contradicts {pure : Bool} (hrest : branch.AtRest pure) (h : Of clauses branch)
    (hb : ∀ l, b.value? l = some true → branch.binding.value? l = some true) :
    ¬Contradicts clauses b := by
  rintro (⟨l, hl, hneg⟩ | ⟨c, hc, hnil⟩)
  · have htrue := hrest.value?_of_follows h hb hl
    have hfalse := Binding.value?_neg.mp (hrest.value?_of_follows h hb hneg)
    rw [htrue] at hfalse
    cases hfalse
  · have hno : c.evaluate branch.binding = .no := by
      rw [Clause.evaluate_eq_no_iff, hnil]
      exact List.forall_mem_nil _
    exact h.evaluate_ne_no hrest.hasFalsified hc hno

end Branch

/-! ## Simplification -/

namespace Search

variable {s : Search}

/-- What simplification has to do with the literals that follow from the binding. -/
structure Propagates (clauses : List Clause) (s : Search) (result : Simplified) (next : Search) :
    Prop where
  conflict_iff : result = .conflict ↔ Contradicts clauses s.branch.binding
  complete : ∀ changed, result = .rest changed →
    ∀ l, Follows clauses s.branch.binding l → next.branch.binding.value? l = some true
  sound : s.config.pureLiteralElimination = false →
    ∀ l, next.branch.binding.value? l = some true → Follows clauses s.branch.binding l

theorem simplify_propagates (h : Branch.Of clauses s.branch) :
    ∃ result next, s.simplify = .ok (result, next) ∧ Propagates clauses s result next := by
  obtain ⟨result, next, hnext, houtcome⟩ := simplify_exists h
  have hsimplifies := houtcome.simplifies
  have hlast := h.of_simplifies hsimplifies
  have hkept : ∀ l, s.branch.binding.value? l = some true →
      next.branch.binding.value? l = some true := fun l => h.value?_of_simplifies hsimplifies
  refine ⟨result, next, hnext, ⟨fun hresult => ?_, fun hcontradicts => ?_⟩, ?_, ?_⟩
  · have hexplained := Branch.explained_of_simplifies h explained_self hsimplifies
    exact Branch.contradicts_of_conflicting hlast hexplained (houtcome.conflict hresult)
  · cases result with
    | conflict => rfl
    | rest changed =>
        exact absurd hcontradicts ((houtcome.rest changed rfl).not_contradicts hlast hkept)
  · intro changed hresult l hl
    exact (houtcome.rest changed hresult).value?_of_follows hlast hkept hl
  · intro hpure l hl
    rw [hpure] at hsimplifies
    exact Branch.follows_of_simplifies h (fun _ htrue => .bound htrue) hsimplifies hl

variable {f : Formula} {starting : Binding} {config : SearchConfig} {cancellation : Cancellation}
  {s₀ : Search}

/-- Without pure literals, simplifying a reachable search computes the literals that follow from its
binding.  It ends in a conflict if and only if two of them are opposite or some clause is empty;
otherwise they are the literals that it leaves true. -/
theorem reachable_simplify_follows (hprepare : prepare f starting config cancellation = .ok s₀)
    (hs : Reachable s₀ s) {other : SearchConfig} (hpure : other.pureLiteralElimination = false) :
    ∃ result next, (s.configured other).simplify = .ok (result, next) ∧
      (result = .conflict ↔
        (∃ l, Follows (startingClauses f starting) s.branch.binding l ∧
          Follows (startingClauses f starting) s.branch.binding (-l)) ∨
        ∃ c ∈ startingClauses f starting, c.literals = []) ∧
      ∀ changed, result = .rest changed → ∀ l, l ∈ next.branch.binding.literals ↔
        Follows (startingClauses f starting) s.branch.binding l := by
  have hof : Branch.Of (startingClauses f starting) (s.configured other).branch :=
    hs.of_prepared hprepare
  obtain ⟨result, next, hnext, hpropagates⟩ := simplify_propagates hof
  refine ⟨result, next, hnext, hpropagates.conflict_iff, ?_⟩
  intro changed hresult l
  rw [Binding.mem_literals]
  exact ⟨hpropagates.sound hpure l, hpropagates.complete changed hresult l⟩

theorem reachable_simplify_follows_after_decision :
    let f := Formula.ofClauses [⟨[⟨⟨1⟩, false⟩, ⟨⟨2⟩, true⟩]⟩,
      ⟨[⟨⟨1⟩, false⟩, ⟨⟨3⟩, true⟩, ⟨⟨2⟩, false⟩]⟩, ⟨[⟨⟨4⟩, true⟩, ⟨⟨5⟩, true⟩]⟩]
    let config : SearchConfig := { pureLiteralElimination := false }
    ∃ s result next, (start f .empty config .never).perform (.decide ⟨⟨1⟩, true⟩ false) = .ok s ∧
      s.simplify = .ok (result, next) ∧ result ≠ .conflict ∧
      (∀ l, l ∈ next.branch.binding.literals ↔
        Follows (startingClauses f .empty) s.branch.binding l) ∧
      Follows (startingClauses f .empty) s.branch.binding ⟨⟨3⟩, true⟩ ∧
      ¬Follows (startingClauses f .empty) s.branch.binding ⟨⟨4⟩, true⟩ := by
  intro f config
  have hprepare : prepare f .empty config .never = .ok (start f .empty config .never) := rfl
  have hallowed : (Call.decide ⟨⟨1⟩, true⟩ false).Allowed (start f .empty config .never) := rfl
  obtain ⟨s, hs, hreachable⟩ := perform_prepared hprepare hallowed
  have hends : ((start f .empty config .never).perform (.decide ⟨⟨1⟩, true⟩ false)).bind
      (fun s => s.simplify.map fun ended => (ended.1, ended.2.branch.binding.literals)) =
        .ok (.rest true, [⟨⟨1⟩, true⟩, ⟨⟨2⟩, true⟩, ⟨⟨3⟩, true⟩]) := by decide
  have hpure : config.pureLiteralElimination = false := rfl
  obtain ⟨result, next, hnext, _, hrest⟩ := reachable_simplify_follows hprepare hreachable hpure
  rw [hreachable.configured_eq hprepare] at hnext
  rw [hs] at hends
  change s.simplify.map _ = _ at hends
  rw [hnext] at hends
  obtain ⟨hresult, hliterals⟩ := Prod.mk.inj (Except.ok.inj hends)
  have hfollows := hrest true hresult
  refine ⟨s, result, next, hs, hnext, ?_, hfollows, ?_, ?_⟩
  · rintro rfl
    cases hresult
  · rw [← hfollows, hliterals]
    decide
  · rw [← hfollows, hliterals]
    decide

/-- Eliminating pure literals neither hides a conflict nor causes one: a reachable search is
simplified to the same end with and without it, and at rest all that is true without it is true
with it. -/
theorem reachable_simplify_with_pure_literals
    (hprepare : prepare f starting config cancellation = .ok s₀) (hs : Reachable s₀ s) :
    let eliminating : SearchConfig := { config with pureLiteralElimination := true }
    let propagating : SearchConfig := { config with pureLiteralElimination := false }
    ∃ result next other last, (s.configured eliminating).simplify = .ok (result, next) ∧
      (s.configured propagating).simplify = .ok (other, last) ∧
      (result = .conflict ↔ other = .conflict) ∧
      (result ≠ .conflict → ∀ l ∈ last.branch.binding.literals,
        l ∈ next.branch.binding.literals) := by
  intro eliminating propagating
  have hof : Branch.Of (startingClauses f starting) s.branch :=
    hs.of_prepared hprepare
  obtain ⟨result, next, hnext, hwith⟩ := simplify_propagates (s := s.configured eliminating) hof
  obtain ⟨other, last, hlast, hwithout⟩ := simplify_propagates (s := s.configured propagating) hof
  refine ⟨result, next, other, last, hnext, hlast,
    hwith.conflict_iff.trans hwithout.conflict_iff.symm, ?_⟩
  intro hresult l hl
  have hfollows := hwithout.sound rfl l (Binding.mem_literals.mp hl)
  rw [Binding.mem_literals]
  cases result with
  | conflict => exact absurd rfl hresult
  | rest changed => exact hwith.complete changed rfl l hfollows

theorem reachable_simplify_with_pure_literals_after_decision :
    let f := Formula.ofClauses [⟨[⟨⟨1⟩, false⟩, ⟨⟨2⟩, true⟩, ⟨⟨3⟩, true⟩]⟩,
      ⟨[⟨⟨2⟩, true⟩, ⟨⟨3⟩, false⟩]⟩, ⟨[⟨⟨1⟩, false⟩, ⟨⟨4⟩, false⟩]⟩,
      ⟨[⟨⟨4⟩, true⟩, ⟨⟨5⟩, true⟩, ⟨⟨6⟩, false⟩]⟩]
    ∃ s result next other last,
      (start f .empty {} .never).perform (.decide ⟨⟨1⟩, true⟩ false) = .ok s ∧
      s.simplify = .ok (result, next) ∧
      (s.configured { pureLiteralElimination := false }).simplify = .ok (other, last) ∧
      result ≠ .conflict ∧ other ≠ .conflict ∧
      last.branch.binding.literals = [⟨⟨1⟩, true⟩, ⟨⟨4⟩, false⟩] ∧
      ∀ l ∈ last.branch.binding.literals, l ∈ next.branch.binding.literals := by
  intro f
  have hprepare : prepare f .empty {} .never = .ok (start f .empty {} .never) := rfl
  have hallowed : (Call.decide ⟨⟨1⟩, true⟩ false).Allowed (start f .empty {} .never) := rfl
  obtain ⟨s, hs, hreachable⟩ := perform_prepared hprepare hallowed
  have hends : ((start f .empty {} .never).perform (.decide ⟨⟨1⟩, true⟩ false)).bind
      (fun s => (s.configured { pureLiteralElimination := false }).simplify.map fun ended =>
        (ended.1, ended.2.branch.binding.literals)) =
          .ok (.rest true, [⟨⟨1⟩, true⟩, ⟨⟨4⟩, false⟩]) := by decide
  obtain ⟨result, next, other, last, hnext, hlast, hiff, hcontained⟩ :=
    reachable_simplify_with_pure_literals hprepare hreachable
  rw [hs] at hends
  change (s.configured _).simplify.map _ = _ at hends
  rw [hlast] at hends
  obtain ⟨hother, hliterals⟩ := Prod.mk.inj (Except.ok.inj hends)
  have hagrees : other ≠ .conflict := by
    rintro rfl
    cases hother
  have hrest : result ≠ .conflict := fun hresult => hagrees (hiff.mp hresult)
  change (s.configured {}).simplify = .ok (result, next) at hnext
  rw [hreachable.configured_eq hprepare] at hnext
  exact ⟨s, result, next, other, last, hs, hnext, hlast, hrest, hagrees, hliterals,
    hcontained hrest⟩

end Search

end SatSearch
