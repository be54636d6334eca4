import SatSearch.Proofs.Simplification

/-!
# Models

A model of a list of clauses is a total assignment that makes all of them true.  Forced literals
hold under every model that extends the binding, and making pure literals true does no harm to a
model.  So simplification keeps a branch extensible, and a conflict shows that it was not.
-/

namespace SatSearch

variable {clauses : List Clause} {b last : Branch}

/-- The assignment makes every clause true. -/
def Models (clauses : List Clause) (a : Assignment) : Prop :=
  ∀ c ∈ clauses, c.holds a = true

/-- The assignment changed so that it makes the given literals true. -/
def Assignment.override (a : Assignment) (ls : List Literal) : Assignment :=
  fun v => ((ls.find? fun l => l.var = v).map Literal.positive).getD (a v)

theorem Literal.holds_override_of_mem {a : Assignment} {ls : List Literal}
    (hnodup : (ls.map Literal.var).Nodup) {l : Literal} (hl : l ∈ ls) :
    l.holds (Assignment.override a ls) = true := by
  have hfind : (ls.find? fun m => m.var = l.var) = some l := by
    induction ls with
    | nil => exact absurd hl List.not_mem_nil
    | cons m ls ih =>
        rcases List.nodup_cons.mp hnodup with ⟨hnew, hrest⟩
        rcases List.mem_cons.mp hl with rfl | hl
        · simp
        · have hne : m.var ≠ l.var := by
            intro heq
            exact hnew (heq ▸ List.mem_map_of_mem hl)
          rw [List.find?_cons_of_neg (by simpa using hne)]
          exact ih hrest hl
  simp [Literal.holds, Assignment.override, hfind]

theorem Literal.holds_override_of_not_mem {a : Assignment} {ls : List Literal} {l : Literal}
    (hl : ∀ m ∈ ls, m.var ≠ l.var) : l.holds (Assignment.override a ls) = l.holds a := by
  have hfind : (ls.find? fun m => m.var = l.var) = none := by
    apply List.find?_eq_none.mpr
    intro m hm
    simpa using hl m hm
  simp [Literal.holds, Assignment.override, hfind]

theorem Binding.agreesWith_iff {b : Binding} {a : Assignment} :
    b.AgreesWith a ↔ ∀ l, b.value? l = some true → l.holds a = true := by
  constructor
  · intro h l hl
    rw [Binding.value?_eq_some_iff] at hl
    simp [Literal.holds, h l.var _ hl]
  · intro h v value hv
    have hl := h ⟨v, value⟩ (Binding.value?_eq_some_iff.mpr (by simpa using hv))
    simpa [Literal.holds] using hl

theorem Binding.agreesWith_assign_iff {b : Binding} {l : Literal} {a : Assignment}
    (hl : b.binds l.var = false) :
    (b.assign l).AgreesWith a ↔ b.AgreesWith a ∧ l.holds a = true := by
  rw [Binding.agreesWith_iff, Binding.agreesWith_iff]
  simp only [Binding.value?_assign_eq_true_iff hl]
  constructor
  · intro h
    exact ⟨fun m hm => h m (Or.inr hm), h l (Or.inl rfl)⟩
  · rintro ⟨hb, hl⟩ m (rfl | hm)
    · exact hl
    · exact hb m hm

theorem Binding.AgreesWith.holds_eq_false {b : Binding} {a : Assignment} (h : b.AgreesWith a)
    {l : Literal} (hl : b.value? l = some false) : l.holds a = false := by
  have hneg := Binding.agreesWith_iff.mp h (-l) (by simp [Binding.value?_neg, hl])
  simpa using hneg

/-- An open clause that holds has an unbound literal that holds. -/
theorem Clause.Open.exists_unbound {c : Clause} {b : Binding} {a : Assignment}
    (hopen : c.Open b) (hagrees : b.AgreesWith a) (hc : c.holds a = true) :
    ∃ l ∈ c.literals, b.binds l.var = false ∧ l.holds a = true := by
  rcases Clause.holds_iff.mp hc with ⟨l, hl, hholds⟩
  refine ⟨l, hl, ?_, hholds⟩
  rw [← Bool.not_eq_true]
  intro hbinds
  rcases Binding.binds_iff_value?.mp hbinds with htrue | hfalse
  · exact hopen l hl htrue
  · rw [hagrees.holds_eq_false hfalse] at hholds
    contradiction

theorem Forced.holds {b : Binding} {l : Literal} {a : Assignment} (h : Forced clauses b l)
    (hagrees : b.AgreesWith a) (hmodels : Models clauses a) : l.holds a = true := by
  rcases h with ⟨c, hc, hopen, _, honly⟩
  rcases hopen.exists_unbound hagrees (hmodels c hc) with ⟨m, hm, hunbound, hholds⟩
  rwa [← (honly m hm).mp hunbound]

/-- Making pure literals true does no harm to a model. -/
theorem Models.override_pure {b : Binding} {a : Assignment} (hmodels : Models clauses a)
    (hagrees : b.AgreesWith a) {ls : List Literal} (hnodup : (ls.map Literal.var).Nodup)
    (hpure : ∀ l ∈ ls, Pure clauses b l) :
    Models clauses (Assignment.override a ls) := by
  intro c hc
  rw [Clause.holds_iff]
  by_cases hopen : c.Open b
  · rcases hopen.exists_unbound hagrees (hmodels c hc) with ⟨m, hm, hunbound, hholds⟩
    by_cases hin : ∃ l ∈ ls, l.var = m.var
    · rcases hin with ⟨l, hl, hvar⟩
      rcases Branch.eq_or_eq_neg_of_var_eq hvar with rfl | rfl
      · exact ⟨l, hm, Literal.holds_override_of_mem hnodup hl⟩
      · have hremains : Remains clauses b m := ⟨hunbound, c, hc, hopen, hm⟩
        rw [← Literal.neg_neg m] at hremains
        exact absurd hremains (hpure (-m) hl).2
    · refine ⟨m, hm, ?_⟩
      rw [Literal.holds_override_of_not_mem (fun l hl hvar => hin ⟨l, hl, hvar⟩)]
      exact hholds
  · rcases Clause.not_open_iff.mp hopen with ⟨m, hm, htrue⟩
    refine ⟨m, hm, ?_⟩
    rw [Literal.holds_override_of_not_mem]
    · exact Binding.agreesWith_iff.mp hagrees m htrue
    · intro l hl hvar
      have hunbound := (hpure l hl).1.1
      rw [hvar, Binding.binds_iff_value?.mpr (Or.inl htrue)] at hunbound
      contradiction

theorem Binding.AgreesWith.override {b : Binding} {a : Assignment} (hagrees : b.AgreesWith a)
    {ls : List Literal} (hunbound : ∀ l ∈ ls, b.binds l.var = false) :
    b.AgreesWith (Assignment.override a ls) := by
  rw [Binding.agreesWith_iff] at hagrees ⊢
  intro m hm
  rw [Literal.holds_override_of_not_mem]
  · exact hagrees m hm
  · intro l hl hvar
    have hnone := hunbound l hl
    rw [hvar, Binding.binds_iff_value?.mpr (Or.inl hm)] at hnone
    contradiction

namespace Branch

theorem Of.agreesWith_assignAll (h : Of clauses b) {ls : List Literal} {cause : Cause}
    (hlast : b.assignAll ls cause = .ok last) {a : Assignment} :
    last.binding.AgreesWith a ↔ b.binding.AgreesWith a ∧ ∀ l ∈ ls, l.holds a = true := by
  rw [assignAll_eq_assignEach] at hlast
  induction ls generalizing b with
  | nil =>
      cases hlast
      simp
  | cons l ls ih =>
      rcases assignEach_cons_eq_ok hlast with ⟨next, hnext, htail⟩
      rcases h.assign_eq_ok hnext with ⟨_, hbinding, _⟩
      rw [ih (h.assign hnext) htail, hbinding,
        Binding.agreesWith_assign_iff (Branch.assign_eq_ok hnext), List.forall_mem_cons,
        and_assoc]

/-- A model of the clauses that extends the binding of the branch. -/
def Extensible (clauses : List Clause) (b : Branch) : Prop :=
  ∃ a, b.binding.AgreesWith a ∧ Models clauses a

theorem Of.not_extensible (h : Of clauses b) (hconflict : b.Conflicting) :
    ¬b.Extensible clauses := by
  rintro ⟨a, hagrees, hmodels⟩
  rcases hconflict with hfalsified | hnone
  · rcases h.hasFalsified_iff.mp hfalsified with ⟨c, hc, hno⟩
    rcases Clause.holds_iff.mp (hmodels c hc) with ⟨l, hl, hholds⟩
    rw [hagrees.holds_eq_false (Clause.evaluate_eq_no_iff.mp hno l hl)] at hholds
    contradiction
  · rcases h.unitLiterals_cases with ⟨_, l, hl, hneg⟩ | ⟨ls, hls, _⟩
    · have hholds := hl.holds hagrees hmodels
      have hnot := hneg.holds hagrees hmodels
      rw [Literal.holds_neg, hholds] at hnot
      contradiction
    · rw [hnone] at hls
      cases hls

/-- A model survives a batch of inferences once some of the inferred literals are made true. -/
theorem Of.repair_batch (h : Of clauses b) {pure : Bool} {ls : List Literal}
    (hbatch : Batch pure b ls) (hlast : b.assignAll ls .inference = .ok last) {a : Assignment}
    (hagrees : b.binding.AgreesWith a) (hmodels : Models clauses a) :
    ∃ chosen : List Literal, (∀ l ∈ chosen, l ∈ ls) ∧
      last.binding.AgreesWith (Assignment.override a chosen) ∧
      Models clauses (Assignment.override a chosen) := by
  rcases hbatch with hunits | ⟨_, rfl⟩
  · rcases h.unitLiterals_eq_some hunits with ⟨_, hmem, _⟩
    have hsame : Assignment.override a [] = a := rfl
    refine ⟨[], by simp, ?_, hmodels⟩
    rw [hsame, h.agreesWith_assignAll hlast]
    exact ⟨hagrees, fun l hl => ((hmem l).mp hl).holds hagrees hmodels⟩
  · have hpure : ∀ l ∈ b.pureLiterals, Pure clauses b.binding l :=
      fun l hl => h.mem_pureLiterals.mp hl
    refine ⟨b.pureLiterals, fun l hl => hl, ?_,
      hmodels.override_pure hagrees h.nodup_pureLiterals hpure⟩
    rw [h.agreesWith_assignAll hlast]
    exact ⟨hagrees.override fun l hl => (hpure l hl).1.1,
      fun l hl => Literal.holds_override_of_mem h.nodup_pureLiterals hl⟩

theorem Of.extensible_of_simplifies (h : Of clauses b) {pure : Bool}
    (hlast : Simplifies pure b last) (hb : b.Extensible clauses) : last.Extensible clauses := by
  induction hlast with
  | refl => exact hb
  | batch hbatch hmid _ ih =>
      rcases hb with ⟨a, hagrees, hmodels⟩
      rcases h.repair_batch hbatch hmid hagrees hmodels with ⟨chosen, _, hagrees', hmodels'⟩
      exact ih (h.of_assignAll hmid) ⟨_, hagrees', hmodels'⟩

end Branch

end SatSearch
