import SatSearch.Proofs.Tractability

/-!
# Evaluation and the completions of a binding

The completions of a binding are the total assignments that agree with it.  What evaluation says of
a formula under a binding is a statement about all of them: a value that is known stays as it is
when more variables are bound, and it is the truth value of the formula under every completion.  If
all variables of the clauses are bound, the value is known.

For a single clause the value is unknown exactly as long as completions of both kinds exist,
provided that the clause has no complementary literals: some completion makes an unbound literal
true, and another one makes every literal false.
-/

namespace SatSearch

/-- What is known of `t` holds of `u`. -/
def Truth.Approximates (t u : Truth) : Prop :=
  t ≠ .unknown → u = t

theorem Truth.approximates_iff {t u : Truth} :
    t.Approximates u ↔ (t = .yes → u = .yes) ∧ (t = .no → u = .no) := by
  cases t <;> simp [Approximates]

theorem Truth.approximates_ofBool_iff {t : Truth} {p : Bool} :
    t.Approximates (ofBool p) ↔ (t = .yes → p = true) ∧ (t = .no → p = false) := by
  rw [approximates_iff, ofBool_eq_yes, ofBool_eq_no]

variable {b d : Binding} {a : Assignment} {c : Clause} {f : Formula}

/-! ## Extended bindings -/

/-- The binding `d` gives the variables that `b` binds the same values. -/
def Binding.Extends (d b : Binding) : Prop :=
  ∀ v value, b.get? v = some value → d.get? v = some value

theorem Binding.Extends.value? (h : d.Extends b) {l : Literal} {value : Bool}
    (hl : b.value? l = some value) : d.value? l = some value := by
  rw [Binding.value?_eq_some_iff] at hl ⊢
  exact h l.var _ hl

theorem Binding.extends_iff : d.Extends b ↔ ∀ l ∈ b.literals, l ∈ d.literals := by
  simp only [Binding.mem_literals]
  constructor
  · intro h l hl
    exact h.value? hl
  · intro h v value hv
    have hl := h ⟨v, value⟩ (Binding.value?_eq_some_iff.mpr (by simpa using hv))
    simpa [Binding.value?_eq_some_iff] using hl

instance (d b : Binding) : Decidable (d.Extends b) :=
  decidable_of_iff _ Binding.extends_iff.symm

theorem Clause.evaluate_approximates_evaluate (hextends : d.Extends b) (c : Clause) :
    (c.evaluate b).Approximates (c.evaluate d) := by
  rw [Truth.approximates_iff]
  constructor
  · exact Clause.evaluate_eq_yes_of_le fun l => hextends.value?
  · intro hno
    rw [Clause.evaluate_eq_no_iff] at hno ⊢
    exact fun l hl => hextends.value? (hno l hl)

theorem Formula.evaluate_approximates_evaluate (hextends : d.Extends b) (f : Formula) :
    (f.evaluate b).Approximates (f.evaluate d) := by
  rw [Truth.approximates_iff]
  constructor
  · exact Formula.evaluate_eq_yes_of_le fun l => hextends.value?
  · intro hno
    obtain ⟨c, hc, hrefuted⟩ := Formula.evaluate_eq_no_iff.mp hno
    have hclause := Truth.approximates_iff.mp (c.evaluate_approximates_evaluate hextends)
    exact Formula.evaluate_eq_no_iff.mpr ⟨c, hc, hclause.2 hrefuted⟩

/-! ## Completions -/

theorem Clause.evaluate_approximates_holds (hagrees : b.AgreesWith a) (c : Clause) :
    (c.evaluate b).Approximates (Truth.ofBool (c.holds a)) := by
  rw [Truth.approximates_ofBool_iff]
  constructor
  · intro hyes
    obtain ⟨l, hl, htrue⟩ := Clause.evaluate_eq_yes_iff.mp hyes
    exact Clause.holds_iff.mpr ⟨l, hl, Binding.agreesWith_iff.mp hagrees l htrue⟩
  · intro hno
    rw [← Bool.not_eq_true, Clause.holds_iff]
    rintro ⟨l, hl, hholds⟩
    rw [hagrees.holds_eq_false (Clause.evaluate_eq_no_iff.mp hno l hl)] at hholds
    contradiction

theorem Formula.evaluate_approximates_holds (hagrees : b.AgreesWith a) (f : Formula) :
    (f.evaluate b).Approximates (Truth.ofBool (f.holds a)) := by
  rw [Truth.approximates_ofBool_iff]
  constructor
  · exact Formula.holds_of_evaluate hagrees
  · intro hno
    obtain ⟨c, hc, hrefuted⟩ := Formula.evaluate_eq_no_iff.mp hno
    have hclause := Truth.approximates_ofBool_iff.mp (c.evaluate_approximates_holds hagrees)
    rw [← Bool.not_eq_true, Formula.holds_iff]
    intro hall
    have hfalse := hclause.2 hrefuted
    rw [hall c hc] at hfalse
    contradiction

/-- The binding binds every variable of the clause. -/
def Clause.BoundBy (c : Clause) (b : Binding) : Prop :=
  ∀ l ∈ c.literals, b.binds l.var = true

/-- The binding binds every variable of the clauses. -/
def Formula.BoundBy (f : Formula) (b : Binding) : Prop :=
  ∀ c ∈ f.clauses, c.BoundBy b

instance (c : Clause) (b : Binding) : Decidable (c.BoundBy b) :=
  inferInstanceAs (Decidable (∀ l ∈ c.literals, b.binds l.var = true))

instance (f : Formula) (b : Binding) : Decidable (f.BoundBy b) :=
  inferInstanceAs (Decidable (∀ c ∈ f.clauses, c.BoundBy b))

/-- The value of a clause is unknown as long as no literal is true and some literal is unbound. -/
theorem Clause.evaluate_eq_unknown_iff :
    c.evaluate b = .unknown ↔ c.Open b ∧ ∃ l ∈ c.literals, b.binds l.var = false := by
  constructor
  · intro hunknown
    have hopen : c.Open b := Clause.open_iff_evaluate_ne_yes.mpr (by simp [hunknown])
    exact ⟨hopen, hopen.exists_unbound_of_evaluate_ne_no (by simp [hunknown])⟩
  · rintro ⟨hopen, l, hl, hunbound⟩
    cases hvalue : c.evaluate b with
    | no =>
        have hfalse := Clause.evaluate_eq_no_iff.mp hvalue l hl
        rw [Binding.value?_eq_none_iff.mpr hunbound] at hfalse
        contradiction
    | unknown => rfl
    | yes => exact absurd hvalue (Clause.open_iff_evaluate_ne_yes.mp hopen)

theorem Clause.BoundBy.evaluate_ne_unknown (h : c.BoundBy b) : c.evaluate b ≠ .unknown := by
  intro hunknown
  obtain ⟨_, l, hl, hunbound⟩ := Clause.evaluate_eq_unknown_iff.mp hunknown
  rw [h l hl] at hunbound
  contradiction

theorem Formula.BoundBy.evaluate_ne_unknown (h : f.BoundBy b) : f.evaluate b ≠ .unknown := by
  intro hunknown
  have hyes : f.evaluate b = .yes := by
    rw [Formula.evaluate_eq_yes_iff]
    intro c hc
    cases hvalue : c.evaluate b with
    | no =>
        have hno := Formula.evaluate_eq_no_iff.mpr ⟨c, hc, hvalue⟩
        rw [hunknown] at hno
        contradiction
    | unknown => exact absurd hvalue (h c hc).evaluate_ne_unknown
    | yes => rfl
  rw [hunknown] at hyes
  contradiction

/-! ## Clauses without complementary literals -/

/-- No literal of the clause is the negation of another one. -/
def Clause.Consistent (c : Clause) : Prop :=
  ∀ l ∈ c.literals, -l ∉ c.literals

instance (c : Clause) : Decidable c.Consistent :=
  inferInstanceAs (Decidable (∀ l ∈ c.literals, -l ∉ c.literals))

/-- The assignment that makes those variables true that are negated in the clause. -/
def Clause.refutation (c : Clause) : Assignment :=
  fun v => decide (v.negative ∈ c.literals)

theorem Clause.Consistent.holds_refutation (h : c.Consistent) {l : Literal}
    (hl : l ∈ c.literals) : l.holds c.refutation = false := by
  obtain ⟨v, positive⟩ := l
  cases positive with
  | true =>
      have hneg : v.negative ∉ c.literals := h _ hl
      simp [Literal.holds, Clause.refutation, hneg]
  | false =>
      have hneg : v.negative ∈ c.literals := hl
      simp [Literal.holds, Clause.refutation, hneg]

theorem Clause.exists_completion_holds {l : Literal} (hl : l ∈ c.literals)
    (hunbound : b.binds l.var = false) : ∃ a, b.AgreesWith a ∧ c.holds a = true := by
  refine ⟨b.overlay fun _ => l.positive, b.agreesWith_overlay _, ?_⟩
  rw [Clause.holds_iff]
  refine ⟨l, hl, ?_⟩
  rw [Binding.holds_overlay hunbound, Literal.holds, beq_self_eq_true]

theorem Clause.Open.exists_completion_fails (hopen : c.Open b) (h : c.Consistent) :
    ∃ a, b.AgreesWith a ∧ c.holds a = false := by
  have hagrees := b.agreesWith_overlay c.refutation
  refine ⟨b.overlay c.refutation, hagrees, ?_⟩
  rw [← Bool.not_eq_true]
  intro hholds
  -- the literal that holds is unbound, so the refutation decides it
  obtain ⟨l, hl, hunbound, htrue⟩ := hopen.exists_unbound hagrees hholds
  rw [Binding.holds_overlay hunbound, h.holds_refutation hl] at htrue
  contradiction

theorem Clause.consistent_of_fails (hfails : c.holds a = false) : c.Consistent := by
  have hnone : ∀ l ∈ c.literals, l.holds a = false := by
    simpa [Clause.holds] using hfails
  intro l hl hneg
  have hopposite := hnone (-l) hneg
  rw [Literal.holds_neg, hnone l hl] at hopposite
  contradiction

/-- The completions differ on a clause if and only if its value is unknown and it has no
complementary literals. -/
theorem Clause.completions_differ_iff :
    (∃ a, b.AgreesWith a ∧ c.holds a = true) ∧ (∃ a, b.AgreesWith a ∧ c.holds a = false) ↔
      c.Consistent ∧ c.evaluate b = .unknown := by
  constructor
  · rintro ⟨⟨a, hagrees, hholds⟩, ⟨e, hagreesToo, hfails⟩⟩
    refine ⟨Clause.consistent_of_fails hfails, ?_⟩
    by_contra hknown
    have hyes := c.evaluate_approximates_holds hagrees hknown
    have hno := c.evaluate_approximates_holds hagreesToo hknown
    rw [hholds] at hyes
    rw [hfails, ← hyes] at hno
    contradiction
  · rintro ⟨hconsistent, hunknown⟩
    obtain ⟨hopen, l, hl, hunbound⟩ := Clause.evaluate_eq_unknown_iff.mp hunknown
    exact ⟨Clause.exists_completion_holds hl hunbound,
      hopen.exists_completion_fails hconsistent⟩

/-- Evaluation under a binding approximates the completions of the binding.  A known value of a
formula is kept by every extension, is the truth value of the formula under every completion, and
is there as soon as every variable of the clauses is bound; and the value of a clause without
complementary literals is unknown if and only if the completions do not agree on it. -/
theorem evaluate_approximates_completions (b : Binding) :
    (∀ f : Formula,
      (∀ d : Binding, d.Extends b → f.evaluate b ≠ .unknown → f.evaluate d = f.evaluate b) ∧
      (f.BoundBy b → ∀ a, b.AgreesWith a → f.evaluate b = Truth.ofBool (f.holds a)) ∧
      (f.evaluate b = .yes → ∀ a, b.AgreesWith a → f.holds a = true) ∧
      (f.evaluate b = .no → ∀ a, b.AgreesWith a → f.holds a = false)) ∧
    ∀ c : Clause, c.Consistent →
      (c.evaluate b = .unknown ↔
        (∃ a, b.AgreesWith a ∧ c.holds a = true) ∧
          ∃ a, b.AgreesWith a ∧ c.holds a = false) := by
  refine ⟨fun f => ⟨?_, ?_, ?_, ?_⟩, ?_⟩
  · intro d hextends
    exact f.evaluate_approximates_evaluate hextends
  · intro hbound a hagrees
    exact (f.evaluate_approximates_holds hagrees hbound.evaluate_ne_unknown).symm
  · intro hyes a hagrees
    exact (Truth.approximates_ofBool_iff.mp (f.evaluate_approximates_holds hagrees)).1 hyes
  · intro hno a hagrees
    exact (Truth.approximates_ofBool_iff.mp (f.evaluate_approximates_holds hagrees)).2 hno
  · intro c hconsistent
    rw [Clause.completions_differ_iff, and_iff_right hconsistent]

theorem evaluate_approximates_completions_with_one_unbound :
    let b := Binding.ofLiterals [⟨⟨1⟩, true⟩, ⟨⟨2⟩, false⟩]
    let d := Binding.ofLiterals [⟨⟨2⟩, false⟩, ⟨⟨3⟩, true⟩, ⟨⟨1⟩, true⟩]
    let f := Formula.ofClauses [⟨[⟨⟨3⟩, true⟩, ⟨⟨1⟩, true⟩, ⟨⟨3⟩, false⟩]⟩,
      ⟨[⟨⟨2⟩, false⟩, ⟨⟨3⟩, true⟩]⟩]
    let g := Formula.ofClauses [⟨[⟨⟨1⟩, true⟩]⟩, ⟨[⟨⟨2⟩, true⟩, ⟨⟨1⟩, false⟩, ⟨⟨2⟩, true⟩]⟩]
    let c : Clause := ⟨[⟨⟨2⟩, true⟩, ⟨⟨3⟩, false⟩, ⟨⟨2⟩, true⟩]⟩
    (d.Extends b ∧ f.evaluate b = .yes ∧ f.evaluate d = .yes ∧
        ∀ a, b.AgreesWith a → f.holds a = true) ∧
      (g.BoundBy b ∧ g.evaluate b = .no ∧ b.AgreesWith b.totalized ∧
        Truth.ofBool (g.holds b.totalized) = .no ∧ ∀ a, b.AgreesWith a → g.holds a = false) ∧
      (c.Consistent ∧ c.evaluate b = .unknown ∧
        (∃ a, b.AgreesWith a ∧ c.holds a = true) ∧
          ∃ a, b.AgreesWith a ∧ c.holds a = false) := by
  intro b d f g c
  have hextends : d.Extends b := by decide
  have hyes : f.evaluate b = .yes := by decide
  have hbound : g.BoundBy b := by decide
  have hno : g.evaluate b = .no := by decide
  have hconsistent : c.Consistent := by decide
  have hunknown : c.evaluate b = .unknown := by decide
  have hagrees := b.agreesWith_totalized
  obtain ⟨hformula, hclause⟩ := evaluate_approximates_completions b
  obtain ⟨hkept, _, hall, _⟩ := hformula f
  obtain ⟨_, hexact, _, hnone⟩ := hformula g
  refine ⟨⟨hextends, hyes, ?_, hall hyes⟩, ⟨hbound, hno, hagrees, ?_, hnone hno⟩,
    hconsistent, hunknown, (hclause c hconsistent).mp hunknown⟩
  · rw [hkept d hextends (by simp [hyes]), hyes]
  · rw [← hexact hbound _ hagrees, hno]

end SatSearch
