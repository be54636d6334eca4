import SatSearch.Proofs.Branch
import SatSearch.Proofs.Evaluation

/-!
# What a branch knows about its clauses

The questions that a search asks of a branch are answered from the status sets and the index.  The
answers are stated here in terms of the given clauses and the binding alone: whether all clauses
are confirmed or some clause is refuted, which literals are forced, which are pure, and which
variable comes next.
-/

namespace SatSearch

namespace Clause

/-- No literal of the clause is true. -/
def Open (b : Binding) (c : Clause) : Prop :=
  ∀ l ∈ c.literals, b.value? l ≠ some true

instance (b : Binding) (c : Clause) : Decidable (c.Open b) :=
  inferInstanceAs (Decidable (∀ l ∈ c.literals, b.value? l ≠ some true))

/-- The clause is open and `l` is the only literal left of it. -/
def Forces (b : Binding) (c : Clause) (l : Literal) : Prop :=
  c.Open b ∧ l ∈ c.literals ∧ ∀ m ∈ c.literals, b.binds m.var = false ↔ m = l

theorem not_open_iff {b : Binding} {c : Clause} :
    ¬c.Open b ↔ ∃ l ∈ c.literals, b.value? l = some true := by
  simp [Open]

theorem open_iff_evaluate_ne_yes {b : Binding} {c : Clause} : c.Open b ↔ c.evaluate b ≠ .yes := by
  rw [ne_eq, evaluate_eq_yes_iff, ← not_open_iff, not_not]

/-- An open clause that is not refuted has an unbound literal. -/
theorem Open.exists_unbound_of_evaluate_ne_no {b : Binding} {c : Clause} (hopen : c.Open b)
    (hunrefuted : c.evaluate b ≠ .no) : ∃ l ∈ c.literals, b.binds l.var = false := by
  by_contra hall
  refine hunrefuted (evaluate_eq_no_iff.mpr fun l hl => ?_)
  have hbinds : b.binds l.var = true := by
    rw [← Bool.not_eq_false]
    exact fun hunbound => hall ⟨l, hl, hunbound⟩
  exact (Binding.binds_iff_value?.mp hbinds).resolve_left (hopen l hl)

end Clause

/-- Some clause forces the literal. -/
def Forced (clauses : List Clause) (b : Binding) (l : Literal) : Prop :=
  ∃ c ∈ clauses, c.Forces b l

/-- The literal is left in some open clause. -/
def Remains (clauses : List Clause) (b : Binding) (l : Literal) : Prop :=
  b.binds l.var = false ∧ ∃ c ∈ clauses, c.Open b ∧ l ∈ c.literals

/-- The literal remains and its negation does not. -/
def Pure (clauses : List Clause) (b : Binding) (l : Literal) : Prop :=
  Remains clauses b l ∧ ¬Remains clauses b (-l)

variable {clauses : List Clause} {b : Binding}

theorem Forced.remains {l : Literal} (h : Forced clauses b l) : Remains clauses b l := by
  rcases h with ⟨c, hc, hopen, hl, honly⟩
  exact ⟨(honly l hl).mpr rfl, c, hc, hopen, hl⟩

namespace WorkingClause.IsResidue

variable {c : Clause} {w : WorkingClause}

theorem satisfied_eq_false_iff (h : IsResidue c b w) :
    w.satisfied = false ↔ c.Open b := by
  rw [← Bool.not_eq_true, h.satisfied_iff]
  simp only [not_exists, not_and]
  exact Iff.rfl

theorem nil_iff (h : IsResidue c b w) :
    w.satisfied = false ∧ w.literals = [] ↔ c.evaluate b = .no := by
  rw [Clause.evaluate_eq_no_iff]
  constructor
  · rintro ⟨hopen, hnil⟩ l hl
    have hbinds : b.binds l.var = true := by
      rw [← Bool.not_eq_false]
      intro hunbound
      have hmem := (h.mem_literals hopen).mpr ⟨hl, hunbound⟩
      rw [hnil] at hmem
      exact List.not_mem_nil hmem
    rcases Binding.binds_iff_value?.mp hbinds with htrue | hfalse
    · exact absurd htrue (h.satisfied_eq_false_iff.mp hopen l hl)
    · exact hfalse
  · intro hfalse
    have hopen : w.satisfied = false := by
      rw [h.satisfied_eq_false_iff]
      intro l hl
      rw [hfalse l hl]
      simp
    refine ⟨hopen, ?_⟩
    apply List.eq_nil_iff_forall_not_mem.mpr
    intro l hmem
    rcases (h.mem_literals hopen).mp hmem with ⟨hl, hunbound⟩
    have hnone := Binding.value?_eq_none_iff.mpr hunbound
    rw [hfalse l hl] at hnone
    contradiction

theorem singleton_iff (h : IsResidue c b w) {l : Literal} :
    w.satisfied = false ∧ w.literals = [l] ↔ c.Forces b l := by
  unfold Clause.Forces
  rw [h.satisfied_eq_false_iff]
  refine and_congr_right ?_
  intro hclause
  have hopen := h.satisfied_eq_false_iff.mpr hclause
  constructor
  · intro hsingle
    have hmem : ∀ m, m = l ↔ m ∈ c.literals ∧ b.binds m.var = false := by
      intro m
      rw [← h.mem_literals hopen, hsingle, List.mem_singleton]
    refine ⟨((hmem l).mp rfl).1, ?_⟩
    intro m hm
    rw [hmem m]
    simp [hm]
  · rintro ⟨hl, honly⟩
    have hmem : l ∈ w.literals := (h.mem_literals hopen).mpr ⟨hl, (honly l hl).mpr rfl⟩
    apply List.perm_singleton.mp
    apply (List.perm_ext_iff_of_nodup h.nodup (List.nodup_singleton l)).mpr
    intro m
    rw [List.mem_singleton]
    constructor
    · intro hm
      rcases (h.mem_literals hopen).mp hm with ⟨hmc, hunbound⟩
      exact (honly m hmc).mp hunbound
    · rintro rfl
      exact hmem

end WorkingClause.IsResidue

namespace Branch

section

variable {b : Branch}

theorem Of.residue (h : Of clauses b) {n : Nat} {c : Clause} {w : WorkingClause}
    (hc : clauses[n]? = some c) (hw : b.formula.clauses[n]? = some w) :
    WorkingClause.IsResidue c b.binding w := by
  rw [← Array.getElem?_toList] at hw
  rcases List.getElem?_eq_some_iff.mp hc with ⟨hn, rfl⟩
  rcases List.getElem?_eq_some_iff.mp hw with ⟨hk, rfl⟩
  exact h.tracks.residues.get hn hk

theorem Of.exists_residue (h : Of clauses b) {c : Clause} (hc : c ∈ clauses) :
    ∃ w ∈ b.formula.clauses.toList, WorkingClause.IsResidue c b.binding w := by
  rcases List.getElem_of_mem hc with ⟨n, hn, rfl⟩
  have hlength := h.tracks.residues.length_eq
  have hlt : n < b.formula.clauses.toList.length := by omega
  exact ⟨_, List.getElem_mem hlt, h.tracks.residues.get hn hlt⟩

theorem Of.exists_original (h : Of clauses b) {w : WorkingClause}
    (hw : w ∈ b.formula.clauses.toList) :
    ∃ c ∈ clauses, WorkingClause.IsResidue c b.binding w := by
  rcases List.getElem_of_mem hw with ⟨n, hn, rfl⟩
  have hlength := h.tracks.residues.length_eq
  have hlt : n < clauses.length := by omega
  exact ⟨_, List.getElem_mem hlt, h.tracks.residues.get hlt hn⟩

theorem Of.isSatisfied_iff (h : Of clauses b) :
    b.isSatisfied = true ↔ ∀ c ∈ clauses, c.evaluate b.binding = .yes := by
  unfold isSatisfied
  rw [h.tracks.formula_eq, WorkingFormula.isSatisfied_ofClauses]
  constructor
  · intro hall c hc
    rcases h.exists_residue hc with ⟨w, hw, hresidue⟩
    exact Clause.evaluate_eq_yes_iff.mpr (hresidue.satisfied_iff.mp (hall w hw))
  · intro hall w hw
    rcases h.exists_original hw with ⟨c, hc, hresidue⟩
    exact hresidue.satisfied_iff.mpr (Clause.evaluate_eq_yes_iff.mp (hall c hc))

theorem Of.hasFalsified_iff (h : Of clauses b) :
    b.hasFalsified = true ↔ ∃ c ∈ clauses, c.evaluate b.binding = .no := by
  unfold hasFalsified
  rw [h.tracks.formula_eq, WorkingFormula.hasFalsified_ofClauses]
  constructor
  · rintro ⟨w, hw, hempty⟩
    rcases h.exists_original hw with ⟨c, hc, hresidue⟩
    exact ⟨c, hc, hresidue.nil_iff.mp hempty⟩
  · rintro ⟨c, hc, hno⟩
    rcases h.exists_residue hc with ⟨w, hw, hresidue⟩
    exact ⟨w, hw, hresidue.nil_iff.mpr hno⟩

theorem Of.evaluate_ne_no (h : Of clauses b) (hfalsified : b.hasFalsified = false) {c : Clause}
    (hc : c ∈ clauses) : c.evaluate b.binding ≠ .no := by
  intro hno
  rw [h.hasFalsified_iff.mpr ⟨c, hc, hno⟩] at hfalsified
  contradiction

theorem Of.records_iff_remains (h : Of clauses b) {l : Literal} :
    (∃ n, b.formula.index.records l n = true) ↔ Remains clauses b.binding l := by
  rw [h.tracks.formula_eq]
  simp only [WorkingFormula.records_index_ofClauses]
  constructor
  · rintro ⟨n, w, hw, hopen, hl⟩
    rcases h.exists_original (List.mem_of_getElem? hw) with ⟨c, hc, hresidue⟩
    rcases (hresidue.mem_literals hopen).mp hl with ⟨hlc, hunbound⟩
    exact ⟨hunbound, c, hc, hresidue.satisfied_eq_false_iff.mp hopen, hlc⟩
  · rintro ⟨hunbound, c, hc, hopen, hlc⟩
    rcases h.exists_residue hc with ⟨w, hw, hresidue⟩
    rcases List.mem_iff_getElem?.mp hw with ⟨n, hn⟩
    have hwopen := hresidue.satisfied_eq_false_iff.mpr hopen
    exact ⟨n, w, hn, hwopen, (hresidue.mem_literals hwopen).mpr ⟨hlc, hunbound⟩⟩

theorem Of.mem_pureLiterals (h : Of clauses b) {l : Literal} :
    l ∈ b.pureLiterals ↔ Pure clauses b.binding l := by
  unfold pureLiterals Pure
  rw [OccurrenceIndex.mem_pureLiterals, h.records_iff_remains, ← h.records_iff_remains (l := -l),
    not_exists]

theorem eq_or_eq_neg_of_var_eq {l m : Literal} (h : l.var = m.var) : l = m ∨ l = -m := by
  cases l with
  | mk v p =>
      cases m with
      | mk w q =>
          simp only at h
          subst h
          cases p <;> cases q <;> simp [Neg.neg]

/-- Literals no two of which are opposite have as many variables as there are of them. -/
theorem nodup_map_var {ls : List Literal} (hnodup : ls.Nodup)
    (hconsistent : ∀ l ∈ ls, -l ∉ ls) : (ls.map Literal.var).Nodup := by
  rw [List.nodup_map_iff_inj_on hnodup]
  intro l hl m hm hvar
  rcases eq_or_eq_neg_of_var_eq hvar with heq | heq
  · exact heq
  · rw [heq] at hl
    exact absurd hl (hconsistent m hm)

theorem Of.nodup_pureLiterals (h : Of clauses b) : (b.pureLiterals.map Literal.var).Nodup := by
  apply nodup_map_var
  · exact (OccurrenceIndex.nodup_literals _).filter _
  · intro l hl hneg
    exact (h.mem_pureLiterals.mp hl).2 (h.mem_pureLiterals.mp hneg).1

end

/-- No literal is opposite to another one or to one that was seen. -/
def Clear (seen : Std.ExtTreeSet Literal) (ls : List Literal) : Prop :=
  ∀ l ∈ ls, -l ∉ seen ∧ -l ∉ ls

theorem mem_insert_iff {seen : Std.ExtTreeSet Literal} {l m : Literal} :
    m ∈ seen.insert l ↔ l = m ∨ m ∈ seen := by
  rw [Std.ExtTreeSet.mem_insert, Std.LawfulEqOrd.compare_eq_iff_eq]

theorem clear_cons {seen : Std.ExtTreeSet Literal} {l : Literal} {ls : List Literal} :
    Clear seen (l :: ls) ↔ -l ∉ seen ∧ Clear (seen.insert l) ls := by
  unfold Clear
  constructor
  · intro h
    refine ⟨(h l List.mem_cons_self).1, ?_⟩
    intro m hm
    rcases h m (List.mem_cons_of_mem l hm) with ⟨hseen, hls⟩
    rw [List.mem_cons, not_or] at hls
    rw [mem_insert_iff, not_or]
    exact ⟨⟨fun heq => hls.1 heq.symm, hseen⟩, hls.2⟩
  · intro h m hm
    rcases h with ⟨hneg, hrest⟩
    rw [List.mem_cons, not_or]
    rcases List.mem_cons.mp hm with heq | hm
    · rw [heq]
      refine ⟨hneg, Literal.neg_ne l, ?_⟩
      intro hin
      have hback := (hrest (-l) hin).1
      rw [Literal.neg_neg] at hback
      exact hback (mem_insert_iff.mpr (Or.inl rfl))
    · rcases hrest m hm with ⟨hseen, hls⟩
      rw [mem_insert_iff, not_or] at hseen
      exact ⟨hseen.2, fun heq => hseen.1 heq.symm, hls⟩

theorem consistent_cons_of_clear {seen : Std.ExtTreeSet Literal} {l : Literal}
    (hl : -l ∉ seen) (ls : List Literal) :
    consistent seen (l :: ls) =
      (consistent (seen.insert l) ls).map fun found =>
        if l ∈ seen then found else l :: found := by
  rw [consistent]
  simp only [Std.ExtTreeSet.contains_iff_mem]
  rw [if_neg hl]
  by_cases hold : l ∈ seen
  · have hsame : seen.insert l = seen := by
      apply Std.ExtTreeSet.ext_mem
      intro m
      rw [mem_insert_iff]
      refine ⟨?_, Or.inr⟩
      intro h
      rcases h with heq | hm
      · rw [← heq]
        exact hold
      · exact hm
    simp [hold, hsame]
  · simp [hold]

theorem consistent_eq_none_iff {seen : Std.ExtTreeSet Literal} {ls : List Literal} :
    consistent seen ls = none ↔ ¬Clear seen ls := by
  induction ls generalizing seen with
  | nil => simp [consistent, Clear]
  | cons l ls ih =>
      rw [clear_cons]
      by_cases hneg : -l ∈ seen
      · simp [consistent, hneg]
      · rw [consistent_cons_of_clear hneg, Option.map_eq_none_iff, ih]
        simp [hneg]

/-- The answer lists the literals that were not seen before, each of them once. -/
theorem consistent_eq_some {seen : Std.ExtTreeSet Literal} {ls found : List Literal}
    (h : consistent seen ls = some found) :
    found.Nodup ∧ ∀ m, m ∈ found ↔ m ∈ ls ∧ m ∉ seen := by
  induction ls generalizing seen found with
  | nil =>
      cases h
      simp
  | cons l ls ih =>
      have hneg : -l ∉ seen := by
        intro hin
        simp [consistent, hin] at h
      rw [consistent_cons_of_clear hneg] at h
      rcases Option.map_eq_some_iff.mp h with ⟨rest, hrest, hfound⟩
      rcases ih hrest with ⟨hnodup, hmem⟩
      by_cases hold : l ∈ seen
      · rw [if_pos hold] at hfound
        subst hfound
        refine ⟨hnodup, ?_⟩
        intro m
        rw [hmem, mem_insert_iff, List.mem_cons]
        by_cases heq : m = l
        · simp [heq, hold]
        · have hne : ¬l = m := fun hlm => heq hlm.symm
          simp [heq, hne]
      · rw [if_neg hold] at hfound
        subst hfound
        constructor
        · rw [List.nodup_cons, hmem, mem_insert_iff]
          exact ⟨fun hin => hin.2 (Or.inl rfl), hnodup⟩
        · intro m
          rw [List.mem_cons, hmem, mem_insert_iff, List.mem_cons]
          by_cases heq : m = l
          · simp [heq, hold]
          · have hne : ¬l = m := fun hlm => heq hlm.symm
            simp [heq, hne]

section

variable {b : Branch}

theorem Of.soleLiterals_exists (h : Of clauses b) :
    ∃ ls, b.formula.soleLiterals = .ok ls ∧ ∀ l, l ∈ ls ↔ Forced clauses b.binding l := by
  obtain ⟨ls, hls, hmem⟩ := WorkingFormula.soleLiterals_ofClauses b.formula.clauses.toList
  rw [← h.tracks.formula_eq] at hls
  refine ⟨ls, hls, ?_⟩
  intro l
  rw [hmem]
  constructor
  · rintro ⟨w, hw, hsingle⟩
    obtain ⟨c, hc, hresidue⟩ := h.exists_original hw
    exact ⟨c, hc, hresidue.singleton_iff.mp hsingle⟩
  · rintro ⟨c, hc, hforces⟩
    obtain ⟨w, hw, hresidue⟩ := h.exists_residue hc
    exact ⟨w, hw, hresidue.singleton_iff.mpr hforces⟩

/-- The forced literals can be read off, and unless two of them contradict each other the answer
lists each of them once. -/
theorem Of.unitLiterals_cases (h : Of clauses b) :
    (b.unitLiterals = .ok none ∧
      ∃ l, Forced clauses b.binding l ∧ Forced clauses b.binding (-l)) ∨
    ∃ ls, b.unitLiterals = .ok (some ls) ∧ (ls.map Literal.var).Nodup ∧
      (∀ l, l ∈ ls ↔ Forced clauses b.binding l) ∧
      ∀ l, Forced clauses b.binding l → ¬Forced clauses b.binding (-l) := by
  obtain ⟨ls, hls, hforced⟩ := h.soleLiterals_exists
  have hunit : b.unitLiterals = .ok (consistent ∅ ls) := by
    unfold unitLiterals
    rw [hls]
    rfl
  have hempty : ∀ l : Literal, l ∉ (∅ : Std.ExtTreeSet Literal) :=
    fun _ => Std.ExtTreeSet.not_mem_empty
  rw [hunit]
  cases hfound : consistent ∅ ls with
  | none =>
      left
      have hclash := consistent_eq_none_iff.mp hfound
      unfold Clear at hclash
      push Not at hclash
      rcases hclash with ⟨l, hl, hneg⟩
      exact ⟨rfl, l, (hforced l).mp hl, (hforced (-l)).mp (hneg (hempty (-l)))⟩
  | some found =>
      right
      rcases consistent_eq_some hfound with ⟨hnodup, hmemFound⟩
      have hclear : Clear ∅ ls := by
        by_contra hclash
        rw [consistent_eq_none_iff.mpr hclash] at hfound
        contradiction
      have hsame : ∀ l, l ∈ found ↔ l ∈ ls := by
        intro l
        simp [hmemFound, hempty]
      refine ⟨found, rfl, ?_, ?_, ?_⟩
      · apply nodup_map_var hnodup
        intro l hl hneg
        exact (hclear l ((hsame l).mp hl)).2 ((hsame (-l)).mp hneg)
      · intro l
        rw [hsame, hforced]
      · intro l hl hneg
        exact (hclear l ((hforced l).mpr hl)).2 ((hforced (-l)).mpr hneg)

theorem Of.nextVariable?_eq_none_iff (h : Of clauses b) :
    b.nextVariable? = none ↔ ∀ l, ¬Remains clauses b.binding l := by
  unfold nextVariable?
  rw [Option.map_eq_none_iff, OccurrenceIndex.firstLiteral?_eq_none_iff]
  refine forall_congr' ?_
  intro l
  rw [← h.records_iff_remains, not_exists]

/-- The next variable is the least one of the remaining literals. -/
theorem Of.nextVariable?_eq_some (h : Of clauses b) {v : Variable}
    (hv : b.nextVariable? = some v) :
    (∃ l, l.var = v ∧ Remains clauses b.binding l) ∧
      ∀ l, Remains clauses b.binding l → v.id ≤ l.var.id := by
  unfold nextVariable? at hv
  rcases Option.map_eq_some_iff.mp hv with ⟨l, hl, rfl⟩
  rcases OccurrenceIndex.firstLiteral?_eq_some_iff.mp hl with ⟨hrecords, hleast⟩
  refine ⟨⟨l, rfl, h.records_iff_remains.mp hrecords⟩, ?_⟩
  intro m hm
  rcases h.records_iff_remains.mpr hm with ⟨n, hn⟩
  have hle := hleast m n hn
  rw [Literal.compare_def, Variable.compare_def] at hle
  by_contra hlt
  have hgt : compare l.var.id m.var.id = .gt := Nat.compare_eq_gt.mpr (by omega)
  rw [hgt] at hle
  contradiction

/-- In a situation without a refuted clause some literal remains unless every clause is
confirmed. -/
theorem Of.isSatisfied_of_nextVariable?_eq_none (h : Of clauses b)
    (hnone : b.nextVariable? = none) (hfalsified : b.hasFalsified = false) :
    b.isSatisfied = true := by
  rw [h.isSatisfied_iff]
  intro c hc
  by_contra hconfirmed
  have hopen : c.Open b.binding := Clause.open_iff_evaluate_ne_yes.mpr hconfirmed
  obtain ⟨l, hl, hunbound⟩ :=
    hopen.exists_unbound_of_evaluate_ne_no (h.evaluate_ne_no hfalsified hc)
  exact h.nextVariable?_eq_none_iff.mp hnone l ⟨hunbound, c, hc, hopen, hl⟩

end

end Branch

end SatSearch
