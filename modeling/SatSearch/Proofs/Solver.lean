import SatSearch.Proofs.Exploration

/-!
# Soundness and completeness of solving

A binding that solving returns confirms the formula, extends the starting binding and binds no
other variables than those of the formula and of the starting binding.  Without cancellation an
input is rejected for a foreign variable of the starting binding, or solving decides whether some
total assignment that agrees with the starting binding satisfies the formula.
-/

namespace SatSearch

variable {f : Formula} {starting : Binding} {config : SearchConfig}
  {cancellation : Cancellation}

namespace Binding

variable {b : Binding} {vs : List Variable} {v : Variable}

theorem get?_complete {value : Bool} (h : b.get? v = some value) :
    (b.complete vs).get? v = some value := by
  unfold complete
  induction vs generalizing b with
  | nil => exact h
  | cons w vs ih =>
      rw [List.foldl_cons]
      apply ih
      by_cases hw : b.binds w = true
      · rw [if_pos hw]
        exact h
      · have hne : w.negative.var ≠ v := by
          rintro rfl
          exact hw (binds_iff.mpr ⟨value, h⟩)
        rw [if_neg hw, assign, get?_set, if_neg hne]
        exact h

theorem binds_complete :
    (b.complete vs).binds v = true ↔ b.binds v = true ∨ v ∈ vs := by
  unfold complete
  induction vs generalizing b with
  | nil => simp
  | cons w vs ih =>
      rw [List.foldl_cons, ih, List.mem_cons, ← or_assoc]
      refine or_congr_left ?_
      by_cases hw : b.binds w = true
      · rw [if_pos hw]
        refine ⟨Or.inl, ?_⟩
        rintro (hv | rfl)
        · exact hv
        · exact hw
      · rw [if_neg hw, binds_assign, or_comm]
        exact or_congr_right eq_comm

theorem get?_complete_of_open (h : b.binds v = false) :
    (b.complete vs).get? v = if v ∈ vs then some false else none := by
  induction vs generalizing b with
  | nil => simpa [complete, binds_eq_isSome] using h
  | cons w vs ih =>
      have hcons : b.complete (w :: vs) =
          (if b.binds w then b else b.assign w.negative).complete vs := rfl
      rw [hcons]
      by_cases hw : w = v
      · subst hw
        rw [h, if_neg Bool.false_ne_true, if_pos List.mem_cons_self]
        apply get?_complete
        simp [assign, get?_set, Variable.negative]
      · have hopen : (if b.binds w then b else b.assign w.negative).binds v = false := by
          split
          · exact h
          · rw [← Bool.not_eq_true, binds_assign, not_or, Bool.not_eq_true]
            exact ⟨hw, h⟩
        rw [ih hopen]
        simp [List.mem_cons, Ne.symm hw]

/-- Which variables are listed matters for the open ones only. -/
theorem complete_congr {ws : List Variable}
    (h : ∀ v, b.binds v = false → (v ∈ vs ↔ v ∈ ws)) : b.complete vs = b.complete ws := by
  ext1 v
  cases hv : b.binds v with
  | true =>
      obtain ⟨value, hvalue⟩ := binds_iff.mp hv
      rw [get?_complete hvalue, get?_complete hvalue]
  | false => simp only [get?_complete_of_open hv, h v hv]

end Binding

namespace Search

/-! ## Starting clauses -/

theorem mem_startingClauses {c : Clause} : c ∈ startingClauses f starting ↔
    c ∈ f.clauses ∨ ∃ l, starting.value? l = some true ∧ c = .unit l := by
  unfold startingClauses
  rw [List.mem_append, Array.mem_toList_iff, List.mem_map]
  refine or_congr_right (exists_congr ?_)
  intro l
  rw [Binding.mem_literals]
  exact and_congr_right fun _ => eq_comm

theorem holds_unit_iff {l : Literal} {a : Assignment} :
    (Clause.unit l).holds a = true ↔ l.holds a = true := by
  simp [Clause.holds, Clause.unit]

theorem models_startingClauses_iff {a : Assignment} :
    Models (startingClauses f starting) a ↔ starting.AgreesWith a ∧ f.holds a = true := by
  rw [Binding.agreesWith_iff, Formula.holds_iff]
  unfold Models
  simp only [mem_startingClauses]
  constructor
  · intro h
    refine ⟨?_, fun c hc => h c (Or.inl hc)⟩
    intro l hl
    exact holds_unit_iff.mp (h (.unit l) (Or.inr ⟨l, hl, rfl⟩))
  · rintro ⟨hstarting, hf⟩ c (hc | ⟨l, hl, rfl⟩)
    · exact hf c hc
    · exact holds_unit_iff.mpr (hstarting l hl)

theorem extensible_start_iff :
    (start f starting config cancellation).branch.Extensible (startingClauses f starting) ↔
      f.SatisfiableFrom starting := by
  have hempty : ∀ a, (Branch.root (startingClauses f starting)).binding.AgreesWith a := by
    intro a v value hv
    simp [Branch.root, Binding.get?, Binding.empty] at hv
  rw [branch_start]
  unfold Branch.Extensible Formula.SatisfiableFrom
  simp only [models_startingClauses_iff, hempty, true_and]

theorem binds_of_mem_startingClauses {c : Clause} (hc : c ∈ startingClauses f starting)
    {l : Literal} (hl : l ∈ c.literals) :
    f.contains l.var = true ∨ starting.binds l.var = true := by
  rcases mem_startingClauses.mp hc with hc | ⟨m, hm, rfl⟩
  · exact Or.inl (f.covered c hc l hl)
  · right
    rw [List.mem_singleton.mp hl, Binding.binds_iff_value?]
    exact Or.inl hm

/-! ## Completing a model -/

variable {s : Search}

theorem get?_model {v : Variable} {value : Bool} (h : s.branch.binding.get? v = some value) :
    s.model.get? v = some value := by
  unfold model
  split
  · exact Binding.get?_complete h
  · exact h

theorem binds_model {v : Variable} : s.model.binds v = true ↔
    s.branch.binding.binds v = true ∨
      s.config.completeModel = true ∧ v ∈ s.scope.variables := by
  unfold model
  split
  next hcomplete => simp only [Binding.binds_complete, Array.mem_toList_iff, hcomplete, true_and]
  next hpartial => simp [hpartial]

/-! ## Foreign variables -/

/-- The binding binds the variable, but the closed formula does not contain it. -/
def Foreign (f : Formula) (starting : Binding) (v : Variable) : Prop :=
  f.closed = true ∧ starting.binds v = true ∧ f.contains v = false

theorem pairwise_variables (b : Binding) :
    (b.toList.map Prod.fst).Pairwise fun v w => v.id < w.id := by
  have hkeys : b.toList.map Prod.fst = b.values.keys := Std.ExtTreeMap.map_fst_toList_eq_keys
  rw [hkeys]
  refine List.Pairwise.imp ?_ Std.ExtTreeMap.ordered_keys
  intro v w hlt
  rw [Variable.compare_def] at hlt
  exact Nat.compare_eq_lt.mp hlt

theorem mem_variables {b : Binding} {v : Variable} :
    v ∈ b.toList.map Prod.fst ↔ b.binds v = true := by
  rw [Binding.binds_iff, List.mem_map]
  constructor
  · rintro ⟨⟨w, value⟩, hw, rfl⟩
    exact ⟨value, Binding.mem_toList.mp hw⟩
  · rintro ⟨value, hvalue⟩
    exact ⟨(v, value), Binding.mem_toList.mpr hvalue, rfl⟩

theorem foreignVariable?_eq_none_iff :
    foreignVariable? f starting = none ↔ ¬∃ v, Foreign f starting v := by
  unfold foreignVariable? Foreign
  cases f.closed with
  | false => simp
  | true =>
      rw [if_pos rfl, List.find?_eq_none]
      simp only [mem_variables, true_and, not_exists, not_and, Bool.not_eq_true',
        Bool.not_eq_false]

/-- The foreign variable that is found is the first one. -/
theorem foreignVariable?_eq_some {v : Variable} (h : foreignVariable? f starting = some v) :
    Foreign f starting v ∧ ∀ w, Foreign f starting w → v.id ≤ w.id := by
  unfold foreignVariable? at h
  split at h
  next hclosed =>
    rcases List.find?_eq_some_iff_append.mp h with ⟨hv, before, after, hsplit, hbefore⟩
    have hmem : v ∈ starting.toList.map Prod.fst := by
      rw [hsplit]
      simp
    refine ⟨⟨hclosed, mem_variables.mp hmem, by simpa using hv⟩, ?_⟩
    rintro w ⟨_, hbinds, hforeign⟩
    have hw := mem_variables.mpr hbinds
    have hordered := pairwise_variables starting
    rw [hsplit] at hw hordered
    rcases List.mem_append.mp hw with hw | hw
    · have hcontains := hbefore w hw
      simp [hforeign] at hcontains
    · rcases List.mem_cons.mp hw with rfl | hw
      · exact Nat.le_refl _
      · have hafter := (List.pairwise_append.mp hordered).2.1
        exact Nat.le_of_lt ((List.pairwise_cons.mp hafter).1 w hw)
  next => contradiction

theorem foreignVariable?_eq_some_iff {v : Variable} :
    foreignVariable? f starting = some v ↔
      Foreign f starting v ∧ ∀ w, Foreign f starting w → v.id ≤ w.id := by
  refine ⟨foreignVariable?_eq_some, ?_⟩
  rintro ⟨hv, hleast⟩
  cases hfound : foreignVariable? f starting with
  | none => exact absurd ⟨v, hv⟩ (foreignVariable?_eq_none_iff.mp hfound)
  | some w =>
      rcases foreignVariable?_eq_some hfound with ⟨hw, hfirst⟩
      exact congrArg some (Variable.eq_of_id (Nat.le_antisymm (hfirst v hv) (hleast w hw)))

end Search

open Search

/-! ## Results -/

theorem solveWith_of_foreign {v : Variable} (h : foreignVariable? f starting = some v) :
    solveWith f starting config cancellation = .error (.invalidInput v) := by
  unfold solveWith prepare
  rw [h]
  rfl

theorem solve_of_solveWith {b : Binding} (h : solveWith f starting config cancellation = .ok b) :
    ∃ final, (start f starting config cancellation).solve = .ok (.satisfied b, final) := by
  unfold solveWith at h
  cases hprepare : prepare f starting config cancellation with
  | error reason =>
      rw [hprepare] at h
      cases h
  | ok s =>
      rw [hprepare] at h
      rw [← prepare_eq_ok hprepare]
      change s.finish.1 = .ok b at h
      unfold finish at h
      cases hsolve : s.solve with
      | error fault =>
          rw [hsolve] at h
          cases h
      | ok result =>
          obtain ⟨verdict, final⟩ := result
          rw [hsolve] at h
          cases verdict with
          | satisfied model =>
              cases h
              exact ⟨final, rfl⟩
          | unsatisfiable => cases h
          | cancelled decisions => cases h

/-- What solving comes to when no variable is foreign. -/
theorem solveWith_cases (h : foreignVariable? f starting = none) :
    (∃ c : Search, solveWith f starting config cancellation = .ok c.model ∧
      SameProblem (start f starting config cancellation) c ∧
      Branch.Descends (startingClauses f starting) (fun _ => True)
        (Branch.root (startingClauses f starting)) c.branch ∧
      c.branch.isSatisfied = true) ∨
    (∃ decisions, solveWith f starting config cancellation = .error (.cancelled decisions) ∧
      cancellation.requested decisions = true) ∨
    (solveWith f starting config cancellation = .error .unsatisfiable ∧
      ¬f.SatisfiableFrom starting) := by
  have hresult : solveWith f starting config cancellation =
      (start f starting config cancellation).finish.1 := by
    unfold solveWith prepare
    rw [h]
    rfl
  have hstart := branch_start f starting config cancellation
  have hof := Branch.Of.of_eq_root hstart
  have hsettled := Branch.settled_of_eq_root hstart
  unfold finish at hresult
  rcases solve_cases hof hsettled with ⟨c, _, hsolve, hsame, hdown, hsatisfied⟩ |
    ⟨decisions, _, hsolve, hrequested⟩ | ⟨_, hsolve, hnone⟩
  · rw [hstart] at hdown
    rw [hsolve] at hresult
    exact Or.inl ⟨c, hresult, hsame, hdown, hsatisfied⟩
  · rw [hsolve] at hresult
    exact Or.inr (Or.inl ⟨decisions, hresult, hrequested⟩)
  · rw [hsolve] at hresult
    exact Or.inr (Or.inr ⟨hresult, mt extensible_start_iff.mpr hnone⟩)

/-- A returned binding is the model of a satisfied branch of the starting clauses. -/
theorem solveWith_eq_ok {b : Binding} (h : solveWith f starting config cancellation = .ok b) :
    ∃ c : Search, b = c.model ∧ SameProblem (start f starting config cancellation) c ∧
      Branch.Descends (startingClauses f starting) (fun _ => True)
        (Branch.root (startingClauses f starting)) c.branch ∧
      c.branch.isSatisfied = true := by
  cases hforeign : foreignVariable? f starting with
  | some v =>
      rw [solveWith_of_foreign hforeign] at h
      contradiction
  | none =>
      rcases solveWith_cases hforeign with ⟨c, hok, hrest⟩ | ⟨_, hcancelled, _⟩ | ⟨hnone, _⟩
      · rw [h] at hok
        exact ⟨c, Except.ok.inj hok, hrest⟩
      · rw [h] at hcancelled
        contradiction
      · rw [h] at hnone
        contradiction

theorem binds_of_descends {last : Branch}
    (h : Branch.Descends (startingClauses f starting) (fun _ => True)
      (Branch.root (startingClauses f starting)) last) {v : Variable}
    (hv : last.binding.binds v = true) : f.contains v = true ∨ starting.binds v = true := by
  rcases h with ⟨sequence, hlast, hvars⟩
  rcases Branch.Of.root.assignEach_eq_ok hlast with ⟨hof, hsteps, _⟩
  rcases hof.tracks.binds_iff.mp hv with ⟨e, he, rfl⟩
  have hmem : (e.literal, e.cause) ∈ sequence := by
    have hin : (e.literal, e.cause) ∈ last.steps := List.mem_map.mpr ⟨e, he, rfl⟩
    rw [hsteps] at hin
    simpa [Branch.steps, Branch.root] using hin
  rcases mem_remainingVariables.mp (hvars _ hmem).1 with ⟨l, hl, hremains⟩
  rcases hremains with ⟨_, c, hc, _, hlc⟩
  rw [← hl]
  exact binds_of_mem_startingClauses hc hlc

section

variable {c : Search}

theorem evaluate_model (h : Branch.Of (startingClauses f starting) c.branch)
    (hsatisfied : c.branch.isSatisfied = true) : f.evaluate c.model = .yes := by
  have hkept : ∀ l, c.branch.binding.value? l = some true → c.model.value? l = some true := by
    intro l hl
    rw [Binding.value?_eq_some_iff] at hl ⊢
    exact get?_model hl
  apply Formula.evaluate_eq_yes_of_le hkept
  rw [Formula.evaluate_eq_yes_iff]
  intro d hd
  exact h.isSatisfied_iff.mp hsatisfied d (mem_startingClauses.mpr (Or.inl hd))

theorem get?_of_starting (h : Branch.Of (startingClauses f starting) c.branch)
    (hsatisfied : c.branch.isSatisfied = true) {v : Variable} {value : Bool}
    (hvalue : starting.get? v = some value) : c.branch.binding.get? v = some value := by
  have hl : starting.value? ⟨v, value⟩ = some true :=
    Binding.value?_eq_some_iff.mpr (by simpa using hvalue)
  have hyes := h.isSatisfied_iff.mp hsatisfied (.unit ⟨v, value⟩)
    (mem_startingClauses.mpr (Or.inr ⟨_, hl, rfl⟩))
  rcases Clause.evaluate_eq_yes_iff.mp hyes with ⟨m, hm, htrue⟩
  rw [List.mem_singleton.mp hm, Binding.value?_eq_some_iff] at htrue
  simpa using htrue

theorem not_binds_starting (h : Branch.Of (startingClauses f starting) c.branch)
    (hsatisfied : c.branch.isSatisfied = true) {v : Variable}
    (hopen : c.branch.binding.binds v = false) : ¬starting.binds v = true := by
  intro hbinds
  obtain ⟨value, hvalue⟩ := Binding.binds_iff.mp hbinds
  rw [Binding.binds_iff.mpr ⟨value, get?_of_starting h hsatisfied hvalue⟩] at hopen
  contradiction

theorem get?_model_of_starting (h : Branch.Of (startingClauses f starting) c.branch)
    (hsatisfied : c.branch.isSatisfied = true) {v : Variable} {value : Bool}
    (hvalue : starting.get? v = some value) : c.model.get? v = some value :=
  get?_model (get?_of_starting h hsatisfied hvalue)

theorem mem_variables_iff (h : SameProblem (start f starting config cancellation) c)
    {v : Variable} : v ∈ c.scope.variables ↔ f.contains v = true := by
  have hscope : c.scope = f.scope := h.scope
  rw [hscope]
  exact Scope.contains_iff.symm

end

/-- Solving is sound: a returned binding confirms the formula, keeps the starting values and binds
variables of the formula and of the starting binding only, all of them if it is to be complete. -/
theorem solveWith_sound {b : Binding} (h : solveWith f starting config cancellation = .ok b) :
    f.evaluate b = .yes ∧
      (∀ v value, starting.get? v = some value → b.get? v = some value) ∧
      (∀ v, b.binds v = true → f.contains v = true ∨ starting.binds v = true) ∧
      (config.completeModel = true →
        ∀ v, b.binds v = true ↔ f.contains v = true ∨ starting.binds v = true) := by
  rcases solveWith_eq_ok h with ⟨c, rfl, hsame, hdown, hsatisfied⟩
  have hof : Branch.Of (startingClauses f starting) c.branch :=
    Branch.Of.root.of_descends hdown
  have honly : ∀ v, c.model.binds v = true → f.contains v = true ∨ starting.binds v = true := by
    intro v hv
    rcases binds_model.mp hv with hv | ⟨_, hv⟩
    · exact binds_of_descends hdown hv
    · exact Or.inl ((mem_variables_iff hsame).mp hv)
  refine ⟨evaluate_model hof hsatisfied,
    fun v value hvalue => get?_model_of_starting hof hsatisfied hvalue, honly, ?_⟩
  intro hcomplete v
  refine ⟨honly v, ?_⟩
  rintro (hv | hv)
  · have hconfig : c.config.completeModel = true := by
      rw [hsame.config]
      exact hcomplete
    exact binds_model.mpr (Or.inr ⟨hconfig, (mem_variables_iff hsame).mpr hv⟩)
  · rcases Binding.binds_iff.mp hv with ⟨value, hvalue⟩
    exact Binding.binds_iff.mpr ⟨value, get?_model_of_starting hof hsatisfied hvalue⟩

theorem solveWith_sound_of_starting_value :
    let f := Formula.ofClauses
      [⟨[⟨⟨1⟩, true⟩, ⟨⟨2⟩, false⟩]⟩, ⟨[⟨⟨1⟩, false⟩, ⟨⟨3⟩, true⟩, ⟨⟨1⟩, false⟩]⟩]
    let starting := Binding.ofLiterals [⟨⟨2⟩, true⟩]
    ∃ b, solveWith f starting {} .never = .ok b ∧ f.evaluate b = .yes ∧
      b.get? ⟨2⟩ = some true ∧ b.binds ⟨3⟩ = true := by
  intro f starting
  have hresult : solveWith f starting {} .never =
      .ok (.ofLiterals [⟨⟨1⟩, true⟩, ⟨⟨2⟩, true⟩, ⟨⟨3⟩, true⟩]) := by decide
  rcases solveWith_sound hresult with ⟨hyes, hkept, _, hcomplete⟩
  exact ⟨_, hresult, hyes, hkept _ _ (by decide),
    (hcomplete rfl _).mpr (Or.inl (by decide))⟩

theorem solveWith_eq_invalidInput_iff {v : Variable} :
    solveWith f starting config cancellation = .error (.invalidInput v) ↔
      foreignVariable? f starting = some v := by
  refine ⟨?_, solveWith_of_foreign⟩
  intro h
  cases hforeign : foreignVariable? f starting with
  | some w =>
      rw [solveWith_of_foreign hforeign] at h
      cases h
      rfl
  | none =>
      rcases solveWith_cases hforeign with ⟨_, hok, _⟩ | ⟨_, hcancelled, _⟩ | ⟨hnone, _⟩
      · rw [h] at hok
        contradiction
      · rw [h] at hcancelled
        cases hcancelled
      · rw [h] at hnone
        cases hnone

/-- The total assignment that makes the variables false that the binding leaves open. -/
def Binding.totalized (b : Binding) : Assignment :=
  fun v => (b.get? v).getD false

theorem Binding.agreesWith_totalized (b : Binding) : b.AgreesWith b.totalized := by
  intro v value hv
  simp [Binding.totalized, hv]

theorem Formula.holds_of_evaluate {b : Binding} {a : Assignment} (hagrees : b.AgreesWith a)
    (h : f.evaluate b = .yes) : f.holds a = true := by
  rw [Formula.holds_iff]
  intro c hc
  obtain ⟨l, hl, htrue⟩ :=
    Clause.evaluate_eq_yes_iff.mp (Formula.evaluate_eq_yes_iff.mp h c hc)
  exact Clause.holds_iff.mpr ⟨l, hl, Binding.agreesWith_iff.mp hagrees l htrue⟩

theorem satisfiableFrom_of_solveWith {b : Binding}
    (h : solveWith f starting config cancellation = .ok b) : f.SatisfiableFrom starting := by
  rcases solveWith_eq_ok h with ⟨c, rfl, _, hdown, hsatisfied⟩
  have hof : Branch.Of (startingClauses f starting) c.branch :=
    Branch.Of.root.of_descends hdown
  have hagrees := c.model.agreesWith_totalized
  refine ⟨c.model.totalized, ?_, Formula.holds_of_evaluate hagrees (evaluate_model hof hsatisfied)⟩
  intro v value hvalue
  exact hagrees v value (get?_model_of_starting hof hsatisfied hvalue)

theorem solveWith_never_cases (h : foreignVariable? f starting = none) :
    (∃ b, solveWith f starting config .never = .ok b ∧ f.SatisfiableFrom starting) ∨
      solveWith f starting config .never = .error .unsatisfiable ∧
        ¬f.SatisfiableFrom starting := by
  rcases solveWith_cases h with ⟨c, hok, _⟩ | ⟨_, _, hrequested⟩ | hnone
  · exact Or.inl ⟨c.model, hok, satisfiableFrom_of_solveWith hok⟩
  · contradiction
  · exact Or.inr hnone

/-- Solving rejects an input for the first foreign variable of its starting binding.  Any other
input it decides without cancellation: it returns a binding, or it finds the formula unsatisfiable
from the starting binding, and this exactly when it is. -/
theorem solveWith_complete (f : Formula) (starting : Binding) (config : SearchConfig) :
    (∀ cancellation v,
      solveWith f starting config cancellation = .error (.invalidInput v) ↔
        Foreign f starting v ∧ ∀ w, Foreign f starting w → v.id ≤ w.id) ∧
    (∀ cancellation,
      (∃ v, solveWith f starting config cancellation = .error (.invalidInput v)) ↔
        ∃ v, Foreign f starting v) ∧
    ((¬∃ v, Foreign f starting v) →
      (solveWith f starting config .never = .error .unsatisfiable ↔
        ¬f.SatisfiableFrom starting) ∧
      (f.SatisfiableFrom starting → ∃ b, solveWith f starting config .never = .ok b)) := by
  refine ⟨?_, ?_, ?_⟩
  · intro cancellation v
    rw [solveWith_eq_invalidInput_iff, foreignVariable?_eq_some_iff]
  · intro cancellation
    simp only [solveWith_eq_invalidInput_iff]
    rw [← not_iff_not, ← foreignVariable?_eq_none_iff, Option.eq_none_iff_forall_ne_some,
      not_exists]
  · intro hforeign
    rcases solveWith_never_cases (foreignVariable?_eq_none_iff.mpr hforeign) with
      ⟨b, hok, hsatisfiable⟩ | ⟨hnone, hunsatisfiable⟩
    · rw [hok]
      refine ⟨⟨?_, fun hnot => absurd hsatisfiable hnot⟩, fun _ => ⟨b, rfl⟩⟩
      intro h
      cases h
    · exact ⟨⟨fun _ => hunsatisfiable, fun _ => hnone⟩,
        fun hsatisfiable => absurd hsatisfiable hunsatisfiable⟩

theorem solveWith_complete_of_contradiction :
    let f := Formula.ofClauses
      [⟨[⟨⟨1⟩, true⟩, ⟨⟨2⟩, true⟩]⟩, ⟨[⟨⟨1⟩, false⟩, ⟨⟨2⟩, true⟩]⟩, ⟨[⟨⟨2⟩, false⟩]⟩]
    ¬f.SatisfiableFrom .empty := by
  intro f
  have hforeign : ¬∃ v, Foreign f .empty v := by
    rintro ⟨v, hclosed, _⟩
    contradiction
  exact ((solveWith_complete f .empty {}).2.2 hforeign).1.mp (by decide)

end SatSearch
