import SatSearch.Proofs.ExactlyOne
import SatSearch.Proofs.Formula
import SatSearch.Proofs.UnitPropagation

/-!
# Unit propagation on exactly one of several variables

Unit propagation decides the clauses of exactly one as well as can be.  The marks of false inputs
become false, and so do the marks of all inputs but a true one.  Once a single mark is left its
clause makes it true, and it settles every input; once none is left there is a conflict.  As long as
two inputs are open and none is true, nothing else follows.
-/

namespace SatSearch

variable {supply : VariableSupply} {vs : List Variable} {starting : Binding}

/-- The clauses of exactly one of `vs`, with those of the starting binding. -/
def exactlyOneProblem (supply : VariableSupply) (vs : List Variable) (starting : Binding) :
    List Clause :=
  Search.startingClauses (Formula.ofClauses (exactlyOneOf supply vs).1) starting

theorem mem_exactlyOneProblem {c : Clause} :
    c ∈ exactlyOneProblem supply vs starting ↔ c = someMark supply vs ∨
      (∃ x v w, Marks supply vs x v ∧ w ∈ vs ∧ c = settles x v w) ∨
      ∃ l, starting.value? l = some true ∧ c = .unit l := by
  unfold exactlyOneProblem
  rw [Search.mem_startingClauses, ← Array.mem_toList_iff, Formula.clauses_ofClauses,
    mem_exactlyOneOf, or_assoc]

/-- The literal follows by unit propagation from nothing but the clauses. -/
def Propagated (supply : VariableSupply) (vs : List Variable) (starting : Binding) (l : Literal) :
    Prop :=
  Follows (exactlyOneProblem supply vs starting) .empty l

/-! ## What single clauses propagate -/

theorem propagated_of_starting {l : Literal} (h : starting.value? l = some true) :
    Propagated supply vs starting l := by
  have hunit : Clause.unit l ∈ exactlyOneProblem supply vs starting :=
    mem_exactlyOneProblem.mpr (Or.inr (Or.inr ⟨l, h, rfl⟩))
  refine .unit hunit List.mem_cons_self ?_
  intro m hm hne
  exact absurd (List.mem_singleton.mp hm) hne

section

variable {x v w : Variable}

theorem settles_mem (hv : Marks supply vs x v) (hw : w ∈ vs) :
    settles x v w ∈ exactlyOneProblem supply vs starting :=
  mem_exactlyOneProblem.mpr (Or.inr (Or.inl ⟨x, v, w, hv, hw, rfl⟩))

/-- A true mark settles the inputs. -/
theorem propagated_input (hv : Marks supply vs x v) (hw : w ∈ vs)
    (hx : Propagated supply vs starting x.positive) :
    Propagated supply vs starting ⟨w, w = v⟩ := by
  refine .unit (settles_mem hv hw) (by simp [settles]) ?_
  intro m hm hne
  simp only [settles, List.mem_cons, List.not_mem_nil, or_false, hne] at hm
  rw [hm]
  exact hx

/-- A mark is false once an input is not as it would settle it. -/
theorem propagated_unmarked (hv : Marks supply vs x v) (hw : w ∈ vs)
    (h : Propagated supply vs starting ⟨w, w ≠ v⟩) :
    Propagated supply vs starting x.negative := by
  refine .unit (settles_mem hv hw) (by simp [settles]) ?_
  intro m hm hne
  simp only [settles, List.mem_cons, List.not_mem_nil, or_false, hne, false_or] at hm
  have hneg : -m = ⟨w, w ≠ v⟩ := by
    rw [hm, decide_not]
    rfl
  rw [hneg]
  exact h

theorem propagated_mark (hv : Marks supply vs x v)
    (h : ∀ y w, Marks supply vs y w → y ≠ x → Propagated supply vs starting y.negative) :
    Propagated supply vs starting x.positive := by
  have hsome : someMark supply vs ∈ exactlyOneProblem supply vs starting :=
    mem_exactlyOneProblem.mpr (Or.inl rfl)
  refine .unit hsome (mem_someMark.mpr ⟨x, v, hv, rfl⟩) ?_
  intro m hm hne
  obtain ⟨y, w, hw, rfl⟩ := mem_someMark.mp hm
  refine h y w hw ?_
  rintro rfl
  exact hne rfl

theorem contradicts_of_unmarked
    (h : ∀ y w, Marks supply vs y w → Propagated supply vs starting y.negative) :
    Contradicts (exactlyOneProblem supply vs starting) .empty := by
  have hsome : someMark supply vs ∈ exactlyOneProblem supply vs starting :=
    mem_exactlyOneProblem.mpr (Or.inl rfl)
  refine contradicts_of_refuted hsome ?_
  intro m hm
  obtain ⟨y, w, hw, rfl⟩ := mem_someMark.mp hm
  exact h y w hw

theorem propagated_unmarked_of_false (hv : Marks supply vs x v)
    (hfalse : starting.get? v = some false) : Propagated supply vs starting x.negative := by
  apply propagated_unmarked hv hv.mem
  apply propagated_of_starting
  simp [Binding.value?, hfalse]

theorem propagated_unmarked_of_true (hv : Marks supply vs x v) (hw : w ∈ vs) (hne : w ≠ v)
    (htrue : starting.get? w = some true) : Propagated supply vs starting x.negative := by
  apply propagated_unmarked hv hw
  apply propagated_of_starting
  simp [Binding.value?, htrue, hne]

end

/-! ## Inputs that can be chosen -/

/-- The starting binding leaves it open that `v` is the only true input. -/
structure Eligible (vs : List Variable) (starting : Binding) (v : Variable) : Prop where
  mem : v ∈ vs
  not_false : starting.get? v ≠ some false
  others : ∀ w ∈ vs, w ≠ v → starting.get? w ≠ some true

/-- The assignment that makes `v` and its marks true and every other variable false. -/
def choosing (supply : VariableSupply) (vs : List Variable) (v : Variable) : Assignment :=
  marking supply vs (fun w => decide (w = v)) v

theorem choosing_input (hvs : ∀ v ∈ vs, supply.Used v) {v w : Variable} (hw : w ∈ vs) :
    choosing supply vs v w = decide (w = v) := by
  simp [choosing, marking, hvs w hw]

theorem choosing_mark {x v w : Variable} (hw : Marks supply vs x w) :
    choosing supply vs v x = decide (Marks supply vs x v) := by
  simp [choosing, marking, hw.not_used]

section

variable (hvs : ∀ v ∈ vs, supply.Used v) (hstarting : ∀ v, starting.binds v = true → v ∈ vs)

include hvs hstarting

theorem Eligible.agreesWith {v : Variable} (h : Eligible vs starting v) :
    starting.AgreesWith (choosing supply vs v) := by
  intro w value hw
  have hmem : w ∈ vs := hstarting w (Binding.binds_iff.mpr ⟨value, hw⟩)
  rw [choosing_input hvs hmem]
  by_cases heq : w = v
  · subst heq
    cases value with
    | false => exact absurd hw h.not_false
    | true => simp
  · cases value with
    | false => simp [heq]
    | true => exact absurd hw (h.others w hmem heq)

theorem Eligible.models {v : Variable} (h : Eligible vs starting v) :
    Models (exactlyOneProblem supply vs starting) (choosing supply vs v) := by
  unfold exactlyOneProblem
  rw [Search.models_startingClauses_iff]
  refine ⟨h.agreesWith hvs hstarting, ?_⟩
  rw [Formula.holds_iff]
  intro c hc
  rw [← Array.mem_toList_iff, Formula.clauses_ofClauses] at hc
  exact models_marking hvs h.mem (fun _ _ => rfl) c hc

theorem Eligible.not_contradicts {v : Variable} (h : Eligible vs starting v) :
    ¬Contradicts (exactlyOneProblem supply vs starting) .empty := by
  have hempty : Binding.empty.AgreesWith (choosing supply vs v) := by
    intro w value hw
    simp [Binding.get?, Binding.empty] at hw
  exact not_contradicts_of_models hempty (h.models hvs hstarting)

/-- The inputs contradict the clauses if and only if two of them are true or all are false. -/
theorem contradicts_exactlyOneProblem_iff :
    Contradicts (exactlyOneProblem supply vs starting) .empty ↔
      (∃ v ∈ vs, ∃ w ∈ vs, v ≠ w ∧ starting.get? v = some true ∧ starting.get? w = some true) ∨
      ∀ v ∈ vs, starting.get? v = some false := by
  constructor
  · intro hcontradicts
    by_contra hnot
    obtain ⟨hone, hsome⟩ := not_or.mp hnot
    push Not at hone hsome
    apply absurd hcontradicts
    by_cases htrue : ∃ v ∈ vs, starting.get? v = some true
    · obtain ⟨v, hv, hvalue⟩ := htrue
      have h : Eligible vs starting v :=
        ⟨hv, by simp [hvalue], fun w hw hne => hone v hv w hw (Ne.symm hne) hvalue⟩
      exact h.not_contradicts hvs hstarting
    · push Not at htrue
      obtain ⟨v, hv, hvalue⟩ := hsome
      have h : Eligible vs starting v := ⟨hv, hvalue, fun w hw _ => htrue w hw⟩
      exact h.not_contradicts hvs hstarting
  · rintro (⟨v, hv, w, hw, hne, hvalue, hother⟩ | hfalse)
    · apply contradicts_of_unmarked
      intro y u hu
      by_cases heq : v = u
      · exact propagated_unmarked_of_true hu hw (heq ▸ hne.symm) hother
      · exact propagated_unmarked_of_true hu hv heq hvalue
    · apply contradicts_of_unmarked
      intro y u hu
      exact propagated_unmarked_of_false hu (hfalse u hu.mem)

end

theorem var_of_mem_exactlyOneProblem (hstarting : ∀ v, starting.binds v = true → v ∈ vs)
    {c : Clause} (hc : c ∈ exactlyOneProblem supply vs starting)
    {l : Literal} (hl : l ∈ c.literals) : l.var ∈ vs ∨ ∃ w, Marks supply vs l.var w := by
  rcases mem_exactlyOneProblem.mp hc with rfl | ⟨x, v, w, hv, hw, rfl⟩ | ⟨m, hm, rfl⟩
  · obtain ⟨x, v, hv, rfl⟩ := mem_someMark.mp hl
    exact Or.inr ⟨v, hv⟩
  · simp only [settles, List.mem_cons, List.not_mem_nil, or_false] at hl
    rcases hl with rfl | rfl
    · exact Or.inr ⟨v, hv⟩
    · exact Or.inl hw
  · rw [List.mem_singleton.mp hl]
    exact Or.inl (hstarting m.var (Binding.binds_iff_value?.mpr (Or.inl hm)))

/-! ## One input left -/

/-- Some input is true, or only one of them is open and all others are false. -/
def Determined (vs : List Variable) (starting : Binding) : Prop :=
  (∃ v ∈ vs, starting.get? v = some true) ∨
    ∃ v ∈ vs, starting.get? v = none ∧ ∀ w ∈ vs, w ≠ v → starting.get? w = some false

/-- The input `v` is true, or all others are false. -/
def Sole (vs : List Variable) (starting : Binding) (v : Variable) : Prop :=
  starting.get? v = some true ∨ ∀ w ∈ vs, w ≠ v → starting.get? w = some false

theorem exists_eligible_sole (h : Determined vs starting)
    (hone : ∀ v ∈ vs, ∀ w ∈ vs, v ≠ w → starting.get? v = some true →
      starting.get? w ≠ some true) :
    ∃ v, Eligible vs starting v ∧ Sole vs starting v := by
  rcases h with ⟨v, hv, hvalue⟩ | ⟨v, hv, hopen, hothers⟩
  · refine ⟨v, ⟨hv, by simp [hvalue], ?_⟩, Or.inl hvalue⟩
    intro w hw hne
    exact hone v hv w hw (Ne.symm hne) hvalue
  · refine ⟨v, ⟨hv, by simp [hopen], ?_⟩, Or.inr hothers⟩
    intro w hw hne
    simp [hothers w hw hne]

/-- When one input is left, all that holds of the inputs and their marks once it is chosen is
propagated: the other marks become false, then its own mark true, and that settles the inputs. -/
theorem propagated_of_sole (hvs : ∀ v ∈ vs, supply.Used v) (hnodup : vs.Nodup) {v : Variable}
    (hv : v ∈ vs) (hsole : Sole vs starting v) {l : Literal}
    (hvar : l.var ∈ vs ∨ ∃ w, Marks supply vs l.var w)
    (hl : l.holds (choosing supply vs v) = true) : Propagated supply vs starting l := by
  have hunmarked : ∀ y w, Marks supply vs y w → w ≠ v →
      Propagated supply vs starting y.negative := by
    intro y w hw hne
    rcases hsole with htrue | hothers
    · exact propagated_unmarked_of_true hw hv (Ne.symm hne) htrue
    · exact propagated_unmarked_of_false hw (hothers w hw.mem hne)
  have hmarked : ∀ x, Marks supply vs x v → Propagated supply vs starting x.positive := by
    intro x hx
    apply propagated_mark hx
    intro y w hw hne
    refine hunmarked y w hw ?_
    rintro rfl
    exact hne (hw.mark_eq hnodup hx)
  obtain ⟨u, positive⟩ := l
  have hvalue : choosing supply vs v u = positive := by
    simpa [Literal.holds] using hl
  rcases hvar with hu | ⟨w, hw⟩
  · obtain ⟨x, hx⟩ := exists_marks supply hv
    rw [choosing_input hvs hu] at hvalue
    rw [← hvalue]
    exact propagated_input hx hu (hmarked x hx)
  · change Marks supply vs u w at hw
    rw [choosing_mark hw] at hvalue
    rw [← hvalue]
    by_cases hu : Marks supply vs u v
    · rw [decide_eq_true hu]
      exact hmarked u hu
    · have hne : w ≠ v := by
        rintro rfl
        exact hu hw
      rw [decide_eq_false hu]
      exact hunmarked u w hw hne

/-! ## Two inputs left -/

theorem exists_two_open (hnot : ¬Determined vs starting)
    (hsome : ∃ v ∈ vs, starting.get? v ≠ some false) :
    ∃ v ∈ vs, ∃ w ∈ vs, v ≠ w ∧ starting.get? v = none ∧ starting.get? w = none := by
  obtain ⟨htrue, hopen⟩ := not_or.mp hnot
  push Not at htrue hopen
  have hnone : ∀ v ∈ vs, starting.get? v ≠ some false → starting.get? v = none := by
    intro v hv hvalue
    have hnottrue := htrue v hv
    cases hget : starting.get? v with
    | none => rfl
    | some value => cases value <;> simp_all
  obtain ⟨v, hv, hvalue⟩ := hsome
  have hvnone := hnone v hv hvalue
  obtain ⟨w, hw, hne, hother⟩ := hopen v hv hvnone
  exact ⟨v, hv, w, hw, Ne.symm hne, hvnone, hnone w hw hother⟩

/-- The starting literals and the negated marks of false inputs. -/
def Excluded (supply : VariableSupply) (vs : List Variable) (starting : Binding) (l : Literal) :
    Prop :=
  starting.value? l = some true ∨
    ∃ x v, Marks supply vs x v ∧ starting.get? v = some false ∧ l = x.negative

section

variable (hvs : ∀ v ∈ vs, supply.Used v) {x v w : Variable} {positive : Bool}

include hvs

/-- A mark is settled through its own input only. -/
theorem Excluded.mark_false (hstarting : ∀ v, starting.binds v = true → v ∈ vs)
    (h : Excluded supply vs starting ⟨x, positive⟩) (hx : Marks supply vs x v) :
    positive = false ∧ starting.get? v = some false := by
  rcases h with hold | ⟨y, w, hy, hfalse, heq⟩
  · have hbinds : starting.binds x = true :=
      Binding.binds_iff_value?.mpr (Or.inl hold)
    exact absurd (hvs x (hstarting x hbinds)) hx.not_used
  · obtain ⟨rfl, rfl⟩ := Literal.mk.inj heq
    rw [hx.input_eq hy]
    exact ⟨rfl, hfalse⟩

theorem Excluded.input_value (h : Excluded supply vs starting ⟨w, positive⟩) (hw : w ∈ vs) :
    starting.get? w = some positive := by
  rcases h with hold | ⟨y, v, hy, _, heq⟩
  · simpa using Binding.value?_eq_some_iff.mp hold
  · obtain ⟨rfl, -⟩ := Literal.mk.inj heq
    exact absurd (hvs w hw) hy.not_used

/-- Unless an input is true, no clause of a mark settles anything but marks of false inputs. -/
theorem excluded_of_settles (hstarting : ∀ v, starting.binds v = true → v ∈ vs)
    (hnottrue : ∀ v ∈ vs, starting.get? v ≠ some true) (hv : Marks supply vs x v) (hw : w ∈ vs)
    {l : Literal} (hl : l ∈ (settles x v w).literals)
    (hothers : ∀ m ∈ (settles x v w).literals, m ≠ l → Excluded supply vs starting (-m)) :
    Excluded supply vs starting l := by
  have hdiffer : w ≠ x := by
    rintro rfl
    exact hv.not_used (hvs w hw)
  simp only [settles, List.mem_cons, List.not_mem_nil, or_false] at hl hothers
  rcases hl with rfl | rfl
  · have hne : (⟨w, w = v⟩ : Literal) ≠ x.negative :=
      fun heq => hdiffer (congrArg Literal.var heq)
    have hvalue := (hothers _ (Or.inr rfl) hne).input_value hvs hw
    by_cases heq : w = v
    · subst heq
      exact Or.inr ⟨x, w, hv, by simpa using hvalue, rfl⟩
    · exact absurd (by simpa [heq] using hvalue) (hnottrue w hw)
  · have hne : x.negative ≠ (⟨w, w = v⟩ : Literal) :=
      fun heq => hdiffer (congrArg Literal.var heq).symm
    have hpositive := ((hothers _ (Or.inl rfl) hne).mark_false hvs hstarting hv).1
    contradiction

/-- With two open inputs, every mark leaves another one that is not settled. -/
theorem exists_not_excluded (hstarting : ∀ v, starting.binds v = true → v ∈ vs)
    (htwo : ∃ v ∈ vs, ∃ w ∈ vs, v ≠ w ∧ starting.get? v = none ∧ starting.get? w = none)
    (hx : Marks supply vs x v) :
    ∃ y w, Marks supply vs y w ∧ y ≠ x ∧ ¬Excluded supply vs starting y.negative := by
  have hopen : ∃ w ∈ vs, w ≠ v ∧ starting.get? w = none := by
    obtain ⟨u, hu, w, hw, hne, hunone, hwnone⟩ := htwo
    by_cases heq : u = v
    · exact ⟨w, hw, heq ▸ hne.symm, hwnone⟩
    · exact ⟨u, hu, heq, hunone⟩
  obtain ⟨w, hw, hne, hwnone⟩ := hopen
  obtain ⟨y, hy⟩ := exists_marks supply hw
  refine ⟨y, w, hy, ?_, ?_⟩
  · rintro rfl
    exact hne (hy.input_eq hx)
  · intro hexcluded
    have hfalse := (hexcluded.mark_false hvs hstarting hy).2
    rw [hwnone] at hfalse
    contradiction

/-- While two inputs are open and none is true, only the marks of false inputs are settled. -/
theorem propagated_iff_of_open (hstarting : ∀ v, starting.binds v = true → v ∈ vs)
    (hnottrue : ∀ v ∈ vs, starting.get? v ≠ some true)
    (htwo : ∃ v ∈ vs, ∃ w ∈ vs, v ≠ w ∧ starting.get? v = none ∧ starting.get? w = none)
    {l : Literal} :
    Propagated supply vs starting l ↔ Excluded supply vs starting l := by
  constructor
  · intro h
    induction h with
    | bound htrue => simp [Binding.value?, Binding.get?, Binding.empty] at htrue
    | @unit c l hc hl _ ih =>
        rcases mem_exactlyOneProblem.mp hc with rfl | ⟨x, v, w, hv, hw, rfl⟩ | ⟨m, hm, rfl⟩
        · obtain ⟨x, v, hv, rfl⟩ := mem_someMark.mp hl
          obtain ⟨y, w, hy, hne, hnot⟩ := exists_not_excluded hvs hstarting htwo hv
          have hother : y.positive ≠ x.positive :=
            fun heq => hne (congrArg Literal.var heq)
          exact absurd (ih y.positive (mem_someMark.mpr ⟨y, w, hy, rfl⟩) hother) hnot
        · exact excluded_of_settles hvs hstarting hnottrue hv hw hl ih
        · rw [List.mem_singleton.mp hl]
          exact Or.inl hm
  · rintro (hold | ⟨x, v, hv, hfalse, rfl⟩)
    · exact propagated_of_starting hold
    · exact propagated_unmarked_of_false hv hfalse

end

/-! ## Simplification -/

namespace Search

variable {config : SearchConfig}

theorem prepare_of_open {f : Formula} (hopen : f.closed = false) (starting : Binding)
    (config : SearchConfig) (cancellation : Cancellation) :
    prepare f starting config cancellation = .ok (start f starting config cancellation) :=
  prepare_eq_ok_iff.mpr ⟨by simp [foreignVariable?, hopen], rfl⟩

/-- What unit propagation leaves of the inputs and their marks when one input is left. -/
structure Settled (supply : VariableSupply) (vs : List Variable) (b : Branch) : Prop where
  inputs : ∀ v ∈ vs, b.binding.binds v = true
  marks : ∀ x ∈ supply.fresh vs.length, b.binding.binds x = true
  sole : ∃! v, v ∈ vs ∧ b.binding.get? v = some true
  satisfied : b.isSatisfied = true

theorem settled_of_sole {b : Branch} (hvs : ∀ v ∈ vs, supply.Used v) (hnodup : vs.Nodup)
    (hstarting : ∀ v, starting.binds v = true → v ∈ vs)
    (hof : Branch.Of (exactlyOneProblem supply vs starting) b)
    (hcomplete : ∀ l, Propagated supply vs starting l → b.binding.value? l = some true)
    {v : Variable} (hv : Eligible vs starting v) (hsole : Sole vs starting v) :
    Settled supply vs b := by
  have hvalue : ∀ l : Literal, (l.var ∈ vs ∨ ∃ w, Marks supply vs l.var w) →
      l.holds (choosing supply vs v) = true → b.binding.value? l = some true :=
    fun l hvar hl => hcomplete l (propagated_of_sole hvs hnodup hv.mem hsole hvar hl)
  have hget : ∀ x : Variable, (x ∈ vs ∨ ∃ w, Marks supply vs x w) →
      b.binding.get? x = some (choosing supply vs v x) := by
    intro x hx
    have hl := hvalue ⟨x, choosing supply vs v x⟩ hx (by simp [Literal.holds])
    simpa using Binding.value?_eq_some_iff.mp hl
  refine ⟨?_, ?_, ?_, ?_⟩
  · intro w hw
    exact Binding.binds_iff.mpr ⟨_, hget w (Or.inl hw)⟩
  · intro x hx
    exact Binding.binds_iff.mpr ⟨_, hget x (Or.inr (mem_fresh_iff_marks.mp hx))⟩
  · refine ⟨v, ⟨hv.mem, ?_⟩, ?_⟩
    · rw [hget v (Or.inl hv.mem), choosing_input hvs hv.mem]
      simp
    · rintro w ⟨hw, htrue⟩
      rw [hget w (Or.inl hw), choosing_input hvs hw] at htrue
      simpa using htrue
  · rw [hof.isSatisfied_iff]
    intro c hc
    obtain ⟨l, hl, hholds⟩ := Clause.holds_iff.mp (hv.models hvs hstarting c hc)
    rw [Clause.evaluate_eq_yes_iff]
    exact ⟨l, hl, hvalue l (var_of_mem_exactlyOneProblem hstarting hc hl) hholds⟩

/-- Simplifying the clauses of exactly one of several distinct variables without pure literals
decides them as well as can be.  There is a conflict if and only if two inputs are true or all are
false.  Otherwise, if an input is true or only one is open, every variable is bound, exactly one
input is true and all clauses are satisfied; and if not, the marks of the false inputs become false
and nothing else is bound. -/
theorem simplify_exactlyOneOf (hvs : ∀ v ∈ vs, supply.Used v) (hnodup : vs.Nodup)
    (hstarting : ∀ v, starting.binds v = true → v ∈ vs)
    (hpure : config.pureLiteralElimination = false) (cancellation : Cancellation) :
    ∃ s result next,
      prepare (Formula.ofClauses (exactlyOneOf supply vs).1) starting config cancellation = .ok s ∧
      s.simplify = .ok (result, next) ∧
      (result = .conflict ↔
        (∃ v ∈ vs, ∃ w ∈ vs, v ≠ w ∧ starting.get? v = some true ∧ starting.get? w = some true) ∨
        ∀ v ∈ vs, starting.get? v = some false) ∧
      (result ≠ .conflict → Determined vs starting → Settled supply vs next.branch) ∧
      (result ≠ .conflict → ¬Determined vs starting → ∀ l, l ∈ next.branch.binding.literals ↔
        l ∈ starting.literals ∨
        ∃ v x, (v, x) ∈ vs.zip (supply.fresh vs.length) ∧ starting.get? v = some false ∧
          l = x.negative) := by
  have hprepare := prepare_of_open (Formula.closed_ofClauses (exactlyOneOf supply vs).1) starting
    config cancellation
  have hroot := of_prepare hprepare
  have hof := Branch.Of.of_eq_root hroot
  obtain ⟨result, next, hnext, hpropagates⟩ := simplify_propagates hof
  obtain ⟨_, _, hsame, houtcome⟩ := simplify_exists hof
  rw [hnext] at hsame
  cases hsame
  have hempty : (start (Formula.ofClauses (exactlyOneOf supply vs).1) starting config
      cancellation).branch.binding = .empty := by
    rw [hroot]
    rfl
  obtain ⟨hconflict, hcomplete, hsound⟩ := hpropagates
  rw [hempty] at hconflict hcomplete hsound
  have hiff := hconflict.trans (contradicts_exactlyOneProblem_iff hvs hstarting)
  refine ⟨_, result, next, hprepare, hnext, hiff, ?_, ?_⟩
  · intro hresult hdetermined
    cases result with
    | conflict => contradiction
    | rest changed =>
        obtain ⟨hone, _⟩ := not_or.mp (mt hiff.mpr hresult)
        push Not at hone
        obtain ⟨v, hv, hsole⟩ := exists_eligible_sole hdetermined hone
        exact settled_of_sole hvs hnodup hstarting (hof.of_simplifies houtcome.simplifies)
          (hcomplete changed rfl) hv hsole
  · intro hresult hopen l
    cases result with
    | conflict => contradiction
    | rest changed =>
        obtain ⟨_, hsome⟩ := not_or.mp (mt hiff.mpr hresult)
        push Not at hsome
        have hnottrue : ∀ v ∈ vs, starting.get? v ≠ some true :=
          fun v hv htrue => hopen (Or.inl ⟨v, hv, htrue⟩)
        have hpropagated : next.branch.binding.value? l = some true ↔
            Propagated supply vs starting l := ⟨hsound hpure l, hcomplete changed rfl l⟩
        rw [Binding.mem_literals, Binding.mem_literals, hpropagated,
          propagated_iff_of_open hvs hstarting hnottrue (exists_two_open hopen hsome), Excluded,
          exists_comm]
        exact Iff.rfl

theorem simplify_exactlyOneOf_with_one_and_two_false :
    let supply : VariableSupply := ⟨4⟩
    let vs : List Variable := [⟨1⟩, ⟨2⟩, ⟨3⟩]
    let f := Formula.ofClauses (exactlyOneOf supply vs).1
    let config : SearchConfig := { pureLiteralElimination := false }
    let one := Binding.ofLiterals [⟨⟨1⟩, false⟩]
    let two := Binding.ofLiterals [⟨⟨1⟩, false⟩, ⟨⟨3⟩, false⟩]
    (∃ s result next, prepare f one config .never = .ok s ∧ s.simplify = .ok (result, next) ∧
      result ≠ .conflict ∧ ⟨⟨4⟩, false⟩ ∈ next.branch.binding.literals ∧
      ⟨⟨5⟩, false⟩ ∉ next.branch.binding.literals) ∧
    ∃ s result next, prepare f two config .never = .ok s ∧ s.simplify = .ok (result, next) ∧
      result ≠ .conflict ∧ Settled supply vs next.branch := by
  intro supply vs f config one two
  have hvs : ∀ v ∈ vs, supply.Used v := by decide
  have hnodup : vs.Nodup := by decide
  have hone : ∀ v, one.binds v = true → v ∈ vs := by
    intro v hv
    have hall : ∀ w ∈ one.toList.map Prod.fst, w ∈ vs := by decide
    exact hall v (mem_variables.mpr hv)
  have htwo : ∀ v, two.binds v = true → v ∈ vs := by
    intro v hv
    have hall : ∀ w ∈ two.toList.map Prod.fst, w ∈ vs := by decide
    exact hall v (mem_variables.mpr hv)
  have hpure : config.pureLiteralElimination = false := rfl
  constructor
  · obtain ⟨s, result, next, hs, hnext, hconflict, _, hopen⟩ :=
      simplify_exactlyOneOf hvs hnodup hone hpure .never
    have hresult : result ≠ .conflict := mt hconflict.mp (by decide)
    have hliterals := hopen hresult (by unfold Determined; decide)
    refine ⟨s, result, next, hs, hnext, hresult, ?_, ?_⟩
    · exact (hliterals _).mpr (Or.inr ⟨⟨1⟩, ⟨4⟩, by decide, by decide, rfl⟩)
    · have hothers : ∀ p ∈ vs.zip (supply.fresh vs.length), one.get? p.1 = some false →
          (⟨⟨5⟩, false⟩ : Literal) ≠ p.2.negative := by decide
      rw [hliterals]
      rintro (hold | ⟨v, x, hx, hfalse, heq⟩)
      · exact absurd hold (by decide)
      · exact hothers (v, x) hx hfalse heq
  · obtain ⟨s, result, next, hs, hnext, hconflict, hsettled, _⟩ :=
      simplify_exactlyOneOf hvs hnodup htwo hpure .never
    have hresult : result ≠ .conflict := mt hconflict.mp (by decide)
    exact ⟨s, result, next, hs, hnext, hresult, hsettled hresult (by unfold Determined; decide)⟩

end Search

end SatSearch
