import SatSearch.Proofs.Cancellation
import SatSearch.Proofs.Correspondence

/-!
# Solving renamed problems

Renaming the variables of a problem without changing their order renames its outcome and changes
nothing else.  So what solving does depends on the order of the variables, never on their numbers:
a formula read a second time, with fresh variables, is solved in the same way.
-/

namespace SatSearch

/-! ## Renamed problems and outcomes -/

def Clause.rename (r : Variable → Variable) (c : Clause) : Clause :=
  ⟨c.literals.map (Literal.rename r)⟩

theorem Formula.covers_rename (f : Formula) (r : Variable → Variable) :
    ∀ c ∈ f.clauses.map (Clause.rename r),
      (Formula.empty.scope.declareAll (f.scope.variables.toList.map r)).Covers c := by
  intro c hc m hm
  obtain ⟨d, hd, rfl⟩ := Array.mem_map.mp hc
  obtain ⟨l, hl, rfl⟩ := List.mem_map.mp hm
  have hvar := Scope.contains_iff.mp (f.covered d hd l hl)
  exact Scope.contains_declareAll.mpr
    (Or.inr (List.mem_map.mpr ⟨l.var, Array.mem_toList_iff.mpr hvar, rfl⟩))

/-- The variables, in the order of their declaration, and the clauses are renamed one by one. -/
def Formula.rename (r : Variable → Variable) (f : Formula) : Formula where
  scope := Formula.empty.scope.declareAll (f.scope.variables.toList.map r)
  closed := f.closed
  clauses := f.clauses.map (Clause.rename r)
  covered := f.covers_rename r

def Binding.rename (r : Variable → Variable) (b : Binding) : Binding :=
  .ofLiterals (b.literals.map (Literal.rename r))

def SolveError.rename (r : Variable → Variable) : SolveError → SolveError
  | invalidInput foreign => invalidInput (r foreign)
  | other => other

/-- The outcome of solving with its variables renamed. -/
def renameOutcome (r : Variable → Variable) :
    Except SolveError Binding → Except SolveError Binding
  | .ok b => .ok (b.rename r)
  | .error e => .error (e.rename r)

/-- The variables of the formula and of the starting binding. -/
def problemVariables (f : Formula) (starting : Binding) : Set Variable :=
  {v | f.contains v = true ∨ starting.binds v = true}

/-! ## Renamed bindings -/

variable {r : Variable → Variable} {known : Set Variable}

namespace Binding

variable {b c : Binding}

theorem value?_foldl_assign {ls : List Literal} (hnodup : (ls.map Literal.var).Nodup)
    (hopen : ∀ l ∈ ls, b.binds l.var = false) {m : Literal} :
    (ls.foldl assign b).value? m = some true ↔ m ∈ ls ∨ b.value? m = some true := by
  induction ls generalizing b with
  | nil => simp
  | cons l ls ih =>
      obtain ⟨hnew, hrest⟩ := List.nodup_cons.mp hnodup
      have hl := hopen l List.mem_cons_self
      rw [List.foldl_cons, ih hrest, value?_assign_eq_true_iff hl, List.mem_cons, or_left_comm,
        or_assoc]
      intro k hk
      rw [← Bool.not_eq_true, binds_assign, not_or, Bool.not_eq_true]
      refine ⟨fun hvar => hnew ?_, hopen k (List.mem_cons_of_mem l hk)⟩
      exact hvar ▸ List.mem_map_of_mem hk

theorem nodup_literals (b : Binding) : (b.literals.map Literal.var).Nodup := by
  have hvariables : b.literals.map Literal.var = b.toList.map Prod.fst := by
    unfold literals
    rw [List.map_map]
    rfl
  rw [hvariables]
  refine (Search.pairwise_variables b).imp ?_
  rintro v w hlt rfl
  exact Nat.lt_irrefl _ hlt

theorem renamedTo_rename (hr : Set.InjOn r known)
    (hknown : ∀ l, b.value? l = some true → l.var ∈ known) :
    b.RenamedTo r known (b.rename r) where
  known := hknown
  value?_iff := by
    intro m
    have hnodup := nodup_map_var_rename hr b.nodup_literals fun l hl =>
      hknown l (mem_literals.mp hl)
    have hnone : empty.value? m ≠ some true := by
      simp [empty, value?, get?]
    unfold rename ofLiterals
    rw [value?_foldl_assign hnodup fun _ _ => rfl, or_iff_left hnone, List.mem_map]
    simp only [mem_literals]

/-- A renamed binding is determined. -/
theorem RenamedTo.eq_rename (h : b.RenamedTo r known c) (hr : Set.InjOn r known) :
    c = b.rename r := by
  apply ext_value?
  intro m
  rw [h.value?_iff, (renamedTo_rename hr h.known).value?_iff]

theorem value?_complete_eq_true_iff {vs : List Variable} {l : Literal} :
    (b.complete vs).value? l = some true ↔
      b.value? l = some true ∨ b.binds l.var = false ∧ l.var ∈ vs ∧ l.positive = false := by
  rw [value?_eq_some_iff, value?_eq_some_iff]
  cases hl : b.binds l.var with
  | true =>
      obtain ⟨value, hvalue⟩ := binds_iff.mp hl
      rw [get?_complete hvalue, hvalue]
      simp
  | false =>
      have hnone : b.get? l.var = none := by
        simpa [binds_eq_isSome] using hl
      rw [get?_complete_of_open hl, hnone]
      split
      next hmem => cases hpositive : l.positive <;> simp [hmem]
      next hmem => simp [hmem]

theorem RenamedTo.binds_iff (h : b.RenamedTo r known c) {w : Variable} :
    c.binds w = true ↔ ∃ v, b.binds v = true ∧ r v = w := by
  constructor
  · intro hw
    obtain ⟨value, hvalue⟩ := Binding.binds_iff.mp hw
    have htrue : c.value? ⟨w, value⟩ = some true :=
      value?_eq_some_iff.mpr (by simpa using hvalue)
    obtain ⟨l, hl, heq⟩ := (h.value?_iff _).mp htrue
    exact ⟨l.var, binds_iff_value?.mpr (Or.inl hl), congrArg Literal.var heq⟩
  · rintro ⟨v, hv, rfl⟩
    obtain ⟨value, hvalue⟩ := Binding.binds_iff.mp hv
    have htrue : b.value? ⟨v, value⟩ = some true :=
      value?_eq_some_iff.mpr (by simpa using hvalue)
    exact binds_iff_value?.mpr (Or.inl ((h.value?_iff _).mpr ⟨_, htrue, rfl⟩))

/-- Renamed bindings that are completed over renamed variables are renamed again. -/
theorem RenamedTo.complete (h : b.RenamedTo r known c) (hr : Set.InjOn r known)
    {vs ws : List Variable} (hknown : ∀ v ∈ vs, v ∈ known)
    (hsame : ∀ w, w ∈ ws ↔ ∃ v ∈ vs, r v = w) :
    (b.complete vs).RenamedTo r known (c.complete ws) where
  known := by
    intro l hl
    rcases value?_complete_eq_true_iff.mp hl with hl | ⟨_, hmem, _⟩
    · exact h.known l hl
    · exact hknown l.var hmem
  value?_iff := by
    intro m
    rw [value?_complete_eq_true_iff, h.value?_iff]
    simp only [value?_complete_eq_true_iff, or_and_right, exists_or]
    refine or_congr_right ⟨?_, ?_⟩
    · rintro ⟨hopen, hmem, hnegative⟩
      obtain ⟨v, hv, hvar⟩ := (hsame m.var).mp hmem
      have hrename : v.negative.rename r = m := by
        rw [Literal.rename, Variable.negative, hvar, ← hnegative]
      rw [← hrename, Literal.var_rename, h.binds_rename hr (l := v.negative) (hknown v hv)] at hopen
      exact ⟨v.negative, ⟨hopen, hv, rfl⟩, hrename⟩
    · rintro ⟨l, ⟨hopen, hmem, hnegative⟩, rfl⟩
      rw [Literal.var_rename, h.binds_rename hr (hknown l.var hmem)]
      exact ⟨hopen, (hsame _).mpr ⟨l.var, hmem, rfl⟩, hnegative⟩

end Binding

/-! ## Renamed formulas -/

section

variable {f : Formula} {starting : Binding}

theorem Formula.contains_rename {w : Variable} :
    (f.rename r).contains w = true ↔ ∃ v, f.contains v = true ∧ r v = w := by
  unfold Formula.contains Formula.rename
  rw [Scope.contains_declareAll]
  simp only [List.mem_map, Array.mem_toList_iff, ← Scope.contains_iff]
  simp [Scope.contains_iff, Formula.empty]

theorem Clause.renamedTo_rename (r : Variable → Variable) (c : Clause) :
    c.RenamedTo r (c.rename r) := by
  intro m
  unfold Clause.rename
  rw [List.mem_map]

namespace Search

/-- The renaming keeps the order of the variables of the problem. -/
def KeepsOrder (r : Variable → Variable) (f : Formula) (starting : Binding) : Prop :=
  ∀ v ∈ problemVariables f starting, ∀ w ∈ problemVariables f starting,
    v.id < w.id → (r v).id < (r w).id

theorem renamedTo_starting (hr : KeepsOrder r f starting) :
    starting.RenamedTo r (problemVariables f starting) (starting.rename r) :=
  Binding.renamedTo_rename (injOn_of_increasing hr) fun _ hl =>
    Or.inr (Binding.binds_iff_value?.mpr (Or.inl hl))

theorem renaming_startingClauses (hr : KeepsOrder r f starting) :
    Renaming r (problemVariables f starting) (startingClauses f starting)
      (startingClauses (f.rename r) (starting.rename r)) where
  increasing := hr
  covers := fun c hc l hl => binds_of_mem_startingClauses hc hl
  forth := by
    intro c hc
    rcases mem_startingClauses.mp hc with hc | ⟨l, hl, rfl⟩
    · refine ⟨c.rename r, mem_startingClauses.mpr (Or.inl ?_), c.renamedTo_rename r⟩
      exact Array.mem_map.mpr ⟨c, hc, rfl⟩
    · have hstarting := ((renamedTo_starting hr).value?_iff (l.rename r)).mpr ⟨l, hl, rfl⟩
      exact ⟨_, mem_startingClauses.mpr (Or.inr ⟨_, hstarting, rfl⟩),
        (Clause.unit l).renamedTo_rename r⟩
  back := by
    intro d hd
    rcases mem_startingClauses.mp hd with hd | ⟨m, hm, rfl⟩
    · obtain ⟨c, hc, rfl⟩ := Array.mem_map.mp hd
      exact ⟨c, mem_startingClauses.mpr (Or.inl hc), c.renamedTo_rename r⟩
    · obtain ⟨l, hl, rfl⟩ := ((renamedTo_starting hr).value?_iff m).mp hm
      exact ⟨_, mem_startingClauses.mpr (Or.inr ⟨l, hl, rfl⟩), (Clause.unit l).renamedTo_rename r⟩

theorem foreign_rename_iff (hr : KeepsOrder r f starting) {w : Variable} :
    Foreign (f.rename r) (starting.rename r) w ↔ ∃ v, Foreign f starting v ∧ r v = w := by
  unfold Foreign
  rw [(renamedTo_starting hr).binds_iff]
  constructor
  · rintro ⟨hclosed, ⟨v, hbinds, rfl⟩, hforeign⟩
    refine ⟨v, ⟨hclosed, hbinds, ?_⟩, rfl⟩
    rw [← Bool.not_eq_true] at hforeign ⊢
    exact fun hcontains => hforeign (Formula.contains_rename.mpr ⟨v, hcontains, rfl⟩)
  · rintro ⟨v, ⟨hclosed, hbinds, hforeign⟩, rfl⟩
    refine ⟨hclosed, ⟨v, hbinds, rfl⟩, ?_⟩
    rw [← Bool.not_eq_true] at hforeign ⊢
    intro hcontains
    obtain ⟨u, hu, hsame⟩ := Formula.contains_rename.mp hcontains
    have hvariable : u = v := injOn_of_increasing hr (Or.inl hu) (Or.inr hbinds) hsame
    exact hforeign (hvariable ▸ hu)

theorem foreignVariable?_rename (hr : KeepsOrder r f starting) :
    foreignVariable? (f.rename r) (starting.rename r) = (foreignVariable? f starting).map r := by
  cases hv : foreignVariable? f starting with
  | none =>
      rw [Option.map_none, foreignVariable?_eq_none_iff]
      rintro ⟨w, hw⟩
      obtain ⟨v, hforeign, _⟩ := (foreign_rename_iff hr).mp hw
      exact foreignVariable?_eq_none_iff.mp hv ⟨v, hforeign⟩
  | some v =>
      obtain ⟨hforeign, hleast⟩ := foreignVariable?_eq_some hv
      rw [Option.map_some, foreignVariable?_eq_some_iff]
      refine ⟨(foreign_rename_iff hr).mpr ⟨v, hforeign, rfl⟩, ?_⟩
      intro w hw
      obtain ⟨u, hu, rfl⟩ := (foreign_rename_iff hr).mp hw
      rw [(renaming_startingClauses hr).le_iff (Or.inr hforeign.2.1) (Or.inr hu.2.1)]
      exact hleast u hu

/-! ## Outcomes -/

variable {config : SearchConfig} {cancellation : Cancellation} {s t : Search}

theorem Renamed.model_eq (hr : KeepsOrder r f starting)
    (h : Renamed r (problemVariables f starting) (startingClauses f starting)
      (startingClauses (f.rename r) (starting.rename r)) s t)
    (hs : SameProblem (start f starting config cancellation) s)
    (ht : SameProblem (start (f.rename r) (starting.rename r) config cancellation) t) :
    t.model = s.model.rename r := by
  have hinj := injOn_of_increasing hr
  unfold model
  rw [h.config.completeModel]
  cases t.config.completeModel with
  | false => exact h.branch.binding.eq_rename hinj
  | true =>
      refine (h.branch.binding.complete hinj ?_ ?_).eq_rename hinj
      · intro v hv
        exact Or.inl ((mem_variables_iff hs).mp (Array.mem_toList_iff.mp hv))
      · intro w
        simp only [Array.mem_toList_iff, mem_variables_iff hs, mem_variables_iff ht,
          Formula.contains_rename]

theorem prepare_rename (hr : KeepsOrder r f starting)
    (hs : prepare f starting config cancellation = .ok s) :
    prepare (f.rename r) (starting.rename r) config cancellation =
      .ok (start (f.rename r) (starting.rename r) config cancellation) := by
  rw [prepare_eq_ok_iff, foreignVariable?_rename hr, (prepare_eq_ok_iff.mp hs).1]
  exact ⟨rfl, rfl⟩

/-- A prepared search and the one for the renamed problem come to corresponding ends. -/
theorem solve_rename (hr : KeepsOrder r f starting)
    (hs : prepare f starting config cancellation = .ok s)
    (ht : prepare (f.rename r) (starting.rename r) config cancellation = .ok t) :
    ∃ verdict last other final, s.solve = .ok (verdict, last) ∧ t.solve = .ok (other, final) ∧
      other.result = renameOutcome r verdict.result ∧ final.stats = last.stats ∧
      final.course = last.course.map (LogRecord.rename r) := by
  have hrenaming := renaming_startingClauses hr
  have hroot := of_prepare hs
  obtain ⟨verdict, last, hsolve⟩ :=
    solve_exists (Branch.Of.of_eq_root hroot) (Branch.settled_of_eq_root hroot)
  have hstart : Renamed r (problemVariables f starting) (startingClauses f starting)
      (startingClauses (f.rename r) (starting.rename r)) s t := by
    rw [prepare_eq_ok hs, prepare_eq_ok ht]
    exact renamed_start f (f.rename r) starting (starting.rename r) (.refl config) cancellation
  obtain ⟨other, final, hother, hends⟩ := hstart.solve hrenaming hsolve
  refine ⟨verdict, last, other, final, hsolve, hother, ?_⟩
  cases hends with
  | satisfied h _ =>
      have hleft := sameProblem_of_solve hstart.branch.of_left hsolve
      have hright := sameProblem_of_solve hstart.branch.of_right hother
      rw [prepare_eq_ok hs] at hleft
      rw [prepare_eq_ok ht] at hright
      refine ⟨?_, h.stats.symm, h.course⟩
      exact congrArg Except.ok (h.model_eq hr hleft hright)
  | unsatisfiable h => exact ⟨rfl, h.stats.symm, h.course⟩
  | cancelled h => exact ⟨rfl, h.stats.symm, h.course⟩

end Search

open Search

/-- Solving a problem whose variables have been renamed, in the same order, gives the renamed
outcome, with the same statistics and the renamed moves. -/
theorem solveWith_rename (config : SearchConfig) (cancellation : Cancellation)
    (hr : KeepsOrder r f starting) :
    solveWith (f.rename r) (starting.rename r) config cancellation =
        renameOutcome r (solveWith f starting config cancellation) ∧
      ∀ s, prepare f starting config cancellation = .ok s →
        ∃ t verdict last other final,
          prepare (f.rename r) (starting.rename r) config cancellation = .ok t ∧
          s.solve = .ok (verdict, last) ∧ t.solve = .ok (other, final) ∧
          final.stats = last.stats ∧ final.course = last.course.map (LogRecord.rename r) := by
  constructor
  · cases hforeign : foreignVariable? f starting with
    | some v =>
        have hother : foreignVariable? (f.rename r) (starting.rename r) = some (r v) := by
          rw [foreignVariable?_rename hr, hforeign]
          rfl
        rw [solveWith_of_foreign hforeign, solveWith_of_foreign hother]
        rfl
    | none =>
        have hs : prepare f starting config cancellation =
            .ok (start f starting config cancellation) := by
          unfold prepare
          rw [hforeign]
        have ht := prepare_rename hr hs
        obtain ⟨verdict, last, other, final, hsolve, hother, hresult, _⟩ := solve_rename hr hs ht
        rw [solveWith_of_prepare hs hsolve, solveWith_of_prepare ht hother, hresult]
  · intro s hs
    have ht := prepare_rename hr hs
    obtain ⟨verdict, last, other, final, hsolve, hother, _, hstats, hcourse⟩ :=
      solve_rename hr hs ht
    exact ⟨_, verdict, last, other, final, ht, hsolve, hother, hstats, hcourse⟩

theorem solveWith_rename_halved :
    let f := Formula.ofClauses [⟨[⟨⟨3⟩, true⟩, ⟨⟨5⟩, true⟩]⟩, ⟨[⟨⟨3⟩, false⟩, ⟨⟨5⟩, false⟩]⟩,
      ⟨[⟨⟨3⟩, false⟩, ⟨⟨5⟩, true⟩, ⟨⟨9⟩, false⟩]⟩]
    let starting := Binding.ofLiterals [⟨⟨9⟩, true⟩]
    let config : SearchConfig := { pureLiteralElimination := false }
    let r : Variable → Variable := fun v => ⟨v.id / 2⟩
    KeepsOrder r f starting ∧
      solveWith (f.rename r) (starting.rename r) config (.after 2) =
        .ok ((Binding.ofLiterals [⟨⟨3⟩, false⟩, ⟨⟨5⟩, true⟩, ⟨⟨9⟩, true⟩]).rename r) := by
  intro f starting config r
  have hscope : f.scope.variables = #[⟨3⟩, ⟨5⟩, ⟨9⟩] := by decide
  have hstarting : starting.toList.map Prod.fst = [⟨9⟩] := by decide
  have hvariables : ∀ v ∈ problemVariables f starting, v.id = 3 ∨ v.id = 5 ∨ v.id = 9 := by
    intro v hv
    change f.scope.contains v = true ∨ starting.binds v = true at hv
    rw [Scope.contains_iff, hscope, ← mem_variables, hstarting] at hv
    simp only [List.mem_toArray, List.mem_cons, List.not_mem_nil, or_false] at hv
    rcases hv with (rfl | rfl | rfl) | rfl <;> simp
  have hr : KeepsOrder r f starting := by
    intro v hv w hw hlt
    have hv := hvariables v hv
    have hw := hvariables w hw
    change v.id / 2 < w.id / 2
    omega
  refine ⟨hr, ?_⟩
  rw [(solveWith_rename config (.after 2) hr).1]
  have hsolve : solveWith f starting config (.after 2) =
      .ok (Binding.ofLiterals [⟨⟨3⟩, false⟩, ⟨⟨5⟩, true⟩, ⟨⟨9⟩, true⟩]) := by
    cbv
  rw [hsolve]
  rfl

end

end SatSearch
