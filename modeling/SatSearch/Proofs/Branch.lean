import SatSearch.Branch
import SatSearch.Proofs.WorkingFormula

/-!
# Branches of the search tree

A branch of a list of clauses is what assigning literals makes of the root.  On every branch the
working clauses are what the binding leaves of the given ones, and the binding is the set of the
literals on the trail.  Assigning an unbound literal never fails, and undoing it gives the branch
back as it was; so a branch is determined by the literals and causes on its trail, and unwinding
leads to a branch that was there before.
-/

namespace SatSearch

namespace Binding

theorem value?_eq_some_iff {b : Binding} {l : Literal} {value : Bool} :
    b.value? l = some value ↔ b.get? l.var = some (value == l.positive) := by
  unfold value?
  cases b.get? l.var with
  | none => simp
  | some found => cases found <;> cases value <;> cases l.positive <;> simp

theorem binds_iff {b : Binding} {v : Variable} :
    b.binds v = true ↔ ∃ value, b.get? v = some value := by
  rw [binds_eq_isSome, Option.isSome_iff_exists]

theorem binds_iff_value? {b : Binding} {l : Literal} :
    b.binds l.var = true ↔ b.value? l = some true ∨ b.value? l = some false := by
  rw [binds_iff, value?_eq_some_iff, value?_eq_some_iff]
  constructor
  · rintro ⟨value, hvalue⟩
    cases value <;> cases hl : l.positive <;> simp [hvalue]
  · rintro (h | h) <;> exact ⟨_, h⟩

theorem value?_neg {b : Binding} {l : Literal} {value : Bool} :
    b.value? (-l) = some value ↔ b.value? l = some (!value) := by
  rw [value?_eq_some_iff, value?_eq_some_iff]
  cases value <;> cases hl : l.positive <;> simp [hl]

theorem value?_eq_none_iff {b : Binding} {l : Literal} :
    b.value? l = none ↔ b.binds l.var = false := by
  rw [← Bool.not_eq_true, binds_iff_value?]
  cases b.value? l with
  | none => simp
  | some value => cases value <;> simp

theorem ext_value? {b c : Binding}
    (h : ∀ l, b.value? l = some true ↔ c.value? l = some true) : b = c := by
  ext1 v
  apply Option.ext
  intro value
  have hl := h ⟨v, value⟩
  rw [value?_eq_some_iff, value?_eq_some_iff] at hl
  simpa using hl

theorem value?_assign_eq_true_iff {b : Binding} {l m : Literal}
    (hl : b.binds l.var = false) :
    (b.assign l).value? m = some true ↔ m = l ∨ b.value? m = some true := by
  rw [value?_eq_some_iff, value?_eq_some_iff, assign, get?_set]
  by_cases hvar : l.var = m.var
  · have hnone : b.get? m.var = none := by
      rw [← hvar]
      simpa [binds_eq_isSome] using hl
    rw [if_pos hvar, hnone]
    cases l with
    | mk v p =>
        cases m with
        | mk w q =>
            simp only at hvar
            subst hvar
            simp [eq_comm]
  · have hne : m ≠ l := by
      rintro rfl
      exact hvar rfl
    rw [if_neg hvar]
    simp [hne]

theorem binds_assign {b : Binding} {l : Literal} {v : Variable} :
    (b.assign l).binds v = true ↔ l.var = v ∨ b.binds v = true := by
  rw [binds_iff, binds_iff, assign]
  simp only [get?_set]
  split
  next h => simp [h]
  next h => simp [h]

theorem unset_assign {b : Binding} {l : Literal} (hl : b.binds l.var = false) :
    (b.assign l).unset l.var = b := by
  ext1 v
  rw [get?_unset, assign, get?_set]
  split
  next h =>
    have hnone : b.get? l.var = none := by
      simpa [binds_eq_isSome] using hl
    rw [← h, hnone]
  next => rfl

end Binding

/-- What a binding leaves of a clause. -/
structure WorkingClause.IsResidue (c : Clause) (b : Binding) (w : WorkingClause) : Prop where
  satisfied_iff : w.satisfied = true ↔ ∃ l ∈ c.literals, b.value? l = some true
  literals_eq : w.satisfied = false →
    w.literals = c.literals.eraseDups.filter fun l => !b.binds l.var
  nodup : w.literals.Nodup

namespace WorkingClause.IsResidue

variable {c : Clause} {b : Binding} {w : WorkingClause}

theorem mem_literals (h : IsResidue c b w) (hopen : w.satisfied = false) {l : Literal} :
    l ∈ w.literals ↔ l ∈ c.literals ∧ b.binds l.var = false := by
  rw [h.literals_eq hopen, List.mem_filter, List.mem_eraseDups, Bool.not_eq_true']

theorem satisfied_assign_iff (h : IsResidue c b w) {l : Literal}
    (hl : b.binds l.var = false) :
    (w.assign l).satisfied = true ↔
      ∃ m ∈ c.literals, (b.assign l).value? m = some true := by
  rw [WorkingClause.satisfied_assign]
  simp only [Binding.value?_assign_eq_true_iff hl]
  cases hw : w.satisfied with
  | true =>
      rcases h.satisfied_iff.mp hw with ⟨m, hm, hvalue⟩
      simp only [true_or, true_iff]
      exact ⟨m, hm, Or.inr hvalue⟩
  | false =>
      have hnone : ¬∃ m ∈ c.literals, b.value? m = some true := by
        rw [← h.satisfied_iff, hw]
        exact Bool.false_ne_true
      rw [h.mem_literals hw]
      simp only [Bool.false_eq_true, false_or, hl, and_true]
      constructor
      · intro hmem
        exact ⟨l, hmem, Or.inl rfl⟩
      · rintro ⟨m, hm, rfl | hvalue⟩
        · exact hm
        · exact absurd ⟨m, hm, hvalue⟩ hnone

theorem assign (h : IsResidue c b w) {l : Literal} (hl : b.binds l.var = false) :
    IsResidue c (b.assign l) (w.assign l) where
  satisfied_iff := h.satisfied_assign_iff hl
  nodup := WorkingClause.nodup_assign h.nodup
  literals_eq := by
    intro hopen
    have hnot : ¬(w.satisfied = true ∨ l ∈ w.literals) := by
      rw [← WorkingClause.satisfied_assign, hopen]
      exact Bool.false_ne_true
    rcases not_or.mp hnot with ⟨hw, hmem⟩
    rw [Bool.not_eq_true] at hw
    have hlc : l ∉ c.literals := by
      intro hin
      exact hmem ((h.mem_literals hw).mpr ⟨hin, hl⟩)
    rw [WorkingClause.literals_assign_of_open hopen, h.nodup.erase_eq_filter,
      h.literals_eq hw, List.filter_filter]
    apply List.filter_congr
    intro m hm
    have hml : m ≠ l := by
      rintro rfl
      exact hlc (List.mem_eraseDups.mp hm)
    rw [Bool.eq_iff_iff]
    simp only [Bool.and_eq_true, bne_iff_ne, ne_eq, Bool.not_eq_true', ← Bool.not_eq_true,
      Binding.binds_assign, not_or]
    refine and_congr_left ?_
    intro _
    refine not_congr ⟨?_, ?_⟩
    · rintro rfl
      rfl
    · intro hvar
      cases l with
      | mk v p =>
          cases m with
          | mk u q =>
              simp only at hvar
              subst hvar
              cases p <;> cases q <;> simp_all [Neg.neg]

end WorkingClause.IsResidue

theorem nodup_eraseDups (ls : List Literal) : ls.eraseDups.Nodup := by
  induction hlength : ls.length using Nat.strong_induction_on generalizing ls with
  | _ n ih =>
      cases ls with
      | nil => simp
      | cons l ls =>
          rw [List.eraseDups_cons, List.nodup_cons]
          refine ⟨by simp [List.mem_eraseDups], ih _ ?_ _ rfl⟩
          rw [← hlength, List.length_cons]
          exact Nat.lt_succ_of_le (List.length_filter_le _ ls)

theorem WorkingClause.isResidue_ofLiterals (c : Clause) :
    IsResidue c .empty (.ofLiterals c.literals) := by
  have hnone : ∀ v, Binding.empty.binds v = false := by
    intro v
    simp [Binding.binds, Binding.empty]
  have hvalue : ∀ l, Binding.empty.value? l = none := fun l =>
    Binding.value?_eq_none_iff.mpr (hnone l.var)
  refine ⟨?_, ?_, ?_⟩
  · simp [WorkingClause.ofLiterals, hvalue]
  · intro _
    simp [WorkingClause.ofLiterals, hnone]
  · exact nodup_eraseDups c.literals

namespace Trail

theorem pop?_record_push (t : Trail) (l : Literal) (cause : Cause) (changes : List Change) :
    ((t.push l cause).record changes).pop? =
      some (⟨l, cause, t.journal.length⟩, changes.reverse, t) := by
  have hcount : (changes.reverse ++ t.journal).length - t.journal.length =
      changes.reverse.length := by
    rw [List.length_append, Nat.add_sub_cancel]
  unfold pop? record push
  simp only [hcount, List.take_left, List.drop_left]

end Trail

namespace Branch

/-- The branch at the root of the search tree of the given clauses. -/
def root (clauses : List Clause) : Branch where
  formula := .ofClauses (clauses.map fun c => .ofLiterals c.literals)

/-- The branches of the search tree of the given clauses. -/
inductive Of (clauses : List Clause) : Branch → Prop
  | root : Of clauses (root clauses)
  | assign {b next : Branch} {l : Literal} {cause : Cause} (hb : Of clauses b)
      (hnext : b.assign l cause = .ok next) : Of clauses next

/-- The parts of a branch fit together. -/
structure Tracks (clauses : List Clause) (b : Branch) : Prop where
  formula_eq : b.formula = .ofClauses b.formula.clauses.toList
  residues : List.Forall₂ (fun c w => WorkingClause.IsResidue c b.binding w) clauses
    b.formula.clauses.toList
  value?_iff : ∀ l, b.binding.value? l = some true ↔ l ∈ b.trail.entries.map TrailEntry.literal
  nodup : (b.trail.entries.map fun e => e.literal.var).Nodup

theorem tracks_root (clauses : List Clause) : Tracks clauses (root clauses) where
  formula_eq := by simp [root, WorkingFormula.ofClauses]
  residues := by
    simp only [root, WorkingFormula.ofClauses, List.forall₂_map_right_iff]
    exact List.forall₂_same.mpr fun c _ => WorkingClause.isResidue_ofLiterals c
  value?_iff := by
    intro l
    simp [root, Binding.value?, Binding.get?, Binding.empty]
  nodup := by simp [root]

theorem Tracks.distinct {clauses : List Clause} {b : Branch} (h : Tracks clauses b) :
    ∀ w ∈ b.formula.clauses.toList, w.literals.Nodup := by
  intro w hw
  rcases List.mem_iff_getElem?.mp hw with ⟨n, hn⟩
  rcases List.getElem?_eq_some_iff.mp hn with ⟨hlt, hget⟩
  have hlength := h.residues.length_eq
  have hresidue := h.residues.get (i := n) (by omega) hlt
  simp only [List.get_eq_getElem, hget] at hresidue
  exact hresidue.nodup

theorem Tracks.binds_iff {clauses : List Clause} {b : Branch} (h : Tracks clauses b)
    {v : Variable} : b.binding.binds v = true ↔ ∃ e ∈ b.trail.entries, e.literal.var = v := by
  have hliteral : ∀ l : Literal, b.binding.binds l.var = true ↔
      (∃ e ∈ b.trail.entries, e.literal = l) ∨ ∃ e ∈ b.trail.entries, e.literal = -l := by
    intro l
    have hneg : b.binding.value? l = some false ↔ b.binding.value? (-l) = some true := by
      simp [Binding.value?_neg]
    rw [Binding.binds_iff_value?, hneg, h.value?_iff, h.value?_iff, List.mem_map, List.mem_map]
  have hv := hliteral v.positive
  constructor
  · intro hbinds
    rcases hv.mp hbinds with ⟨e, he, heq⟩ | ⟨e, he, heq⟩ <;>
      exact ⟨e, he, by rw [heq]; rfl⟩
  · rintro ⟨e, he, rfl⟩
    exact (hliteral e.literal).mpr (Or.inl ⟨e, he, rfl⟩)

/-- Assigning an unbound literal succeeds, and the branch it leads to can be taken back. -/
theorem Tracks.assign {clauses : List Clause} {b : Branch} (h : Tracks clauses b)
    {l : Literal} (hl : b.binding.binds l.var = false) (cause : Cause) :
    ∃ next e, b.assign l cause = .ok next ∧ Tracks clauses next ∧
      next.binding = b.binding.assign l ∧ next.trail.entries = e :: b.trail.entries ∧
      e.literal = l ∧ e.cause = cause ∧ next.undo = .ok (some (e, b)) := by
  rcases WorkingFormula.assign_ofClauses h.distinct l with ⟨changes, hassign, hleads⟩
  rw [← h.formula_eq] at hassign
  let next : Branch := {
    formula := .ofClauses (b.formula.clauses.toList.map (·.assign l))
    binding := b.binding.assign l
    trail := (b.trail.push l cause).record changes }
  have hclauses : next.formula.clauses.toList =
      b.formula.clauses.toList.map (·.assign l) := by
    simp [next, WorkingFormula.ofClauses]
  have hentries : next.trail.entries = ⟨l, cause, b.trail.journal.length⟩ :: b.trail.entries :=
    rfl
  refine ⟨next, _, ?_, ⟨?_, ?_, ?_, ?_⟩, rfl, hentries, rfl, rfl, ?_⟩
  · simp [Branch.assign, hl, hassign, bind, Except.bind, pure, Except.pure, next]
  · rw [hclauses]
  · rw [hclauses, List.forall₂_map_right_iff]
    exact h.residues.imp fun c w hresidue => hresidue.assign hl
  · intro m
    rw [hentries, List.map_cons, List.mem_cons, ← h.value?_iff m,
      Binding.value?_assign_eq_true_iff hl]
  · rw [hentries, List.map_cons, List.nodup_cons]
    refine ⟨?_, h.nodup⟩
    intro hmem
    rcases List.mem_map.mp hmem with ⟨d, hd, hvar⟩
    rw [h.binds_iff.mpr ⟨d, hd, hvar⟩] at hl
    exact absurd hl (by simp)
  · have hrevert := hleads.revertAll
    rw [← h.formula_eq] at hrevert
    have hbinds : (b.binding.assign l).binds l.var = true :=
      Binding.binds_assign.mpr (Or.inl rfl)
    have hpop : next.trail.pop? = _ := b.trail.pop?_record_push l cause changes
    unfold undo
    rw [hpop]
    simp [next, hrevert, hbinds, Binding.unset_assign hl, bind, Except.bind, pure,
      Except.pure]

theorem assign_eq_ok {b next : Branch} {l : Literal} {cause : Cause}
    (h : b.assign l cause = .ok next) : b.binding.binds l.var = false := by
  cases hbinds : b.binding.binds l.var with
  | false => rfl
  | true => simp [assign, hbinds, throw, throwThe, MonadExceptOf.throw, bind, Except.bind] at h

theorem Of.tracks {clauses : List Clause} {b : Branch} (h : Of clauses b) :
    Tracks clauses b := by
  induction h with
  | root => exact tracks_root clauses
  | @assign b next l cause _ hnext ih =>
      rcases ih.assign (assign_eq_ok hnext) cause with ⟨other, _, hother, htracks, _⟩
      rw [hnext] at hother
      cases hother
      exact htracks

theorem Of.of_eq_root {clauses : List Clause} {b : Branch} (h : b = Branch.root clauses) :
    Of clauses b := by
  rw [h]
  exact .root

theorem Of.assign_exists {clauses : List Clause} {b : Branch} (h : Of clauses b)
    {l : Literal} (hl : b.binding.binds l.var = false) (cause : Cause) :
    ∃ next e, b.assign l cause = .ok next ∧ Of clauses next ∧
      next.binding = b.binding.assign l ∧ next.trail.entries = e :: b.trail.entries ∧
      e.literal = l ∧ e.cause = cause ∧ next.undo = .ok (some (e, b)) := by
  rcases h.tracks.assign hl cause with ⟨next, e, hnext, _, hrest⟩
  exact ⟨next, e, hnext, h.assign hnext, hrest⟩

/-! ## Sequences of assignments -/

/-- Makes literals true in turn, each for a cause of its own. -/
def assignEach (b : Branch) (steps : List (Literal × Cause)) : Except Fault Branch :=
  steps.foldlM (fun b step => b.assign step.1 step.2) b

/-- The literals on the trail with their causes, newest first. -/
def steps (b : Branch) : List (Literal × Cause) :=
  b.trail.entries.map fun e => (e.literal, e.cause)

/-- Takes back the given number of assignments, or as many as there are. -/
def undoTimes (b : Branch) : Nat → Except Fault (List (Literal × Cause) × Branch)
  | 0 => return ([], b)
  | n + 1 => do
    match ← b.undo with
    | none => return ([], b)
    | some (e, b) =>
      let (steps, b) ← b.undoTimes n
      return ((e.literal, e.cause) :: steps, b)

theorem assignAll_eq_assignEach (b : Branch) (ls : List Literal) (cause : Cause) :
    b.assignAll ls cause = b.assignEach (ls.map fun l => (l, cause)) := by
  unfold assignAll assignEach
  rw [List.foldlM_map]

theorem assignEach_cons {b next : Branch} {step : Literal × Cause}
    {rest : List (Literal × Cause)} (h : b.assign step.1 step.2 = .ok next) :
    b.assignEach (step :: rest) = next.assignEach rest := by
  unfold assignEach
  rw [List.foldlM_cons, h]
  rfl

theorem assignEach_cons_eq_ok {b last : Branch} {step : Literal × Cause}
    {rest : List (Literal × Cause)} (h : b.assignEach (step :: rest) = .ok last) :
    ∃ next, b.assign step.1 step.2 = .ok next ∧ next.assignEach rest = .ok last := by
  unfold assignEach at h
  rw [List.foldlM_cons] at h
  cases hnext : b.assign step.1 step.2 with
  | error fault =>
      rw [hnext] at h
      contradiction
  | ok next =>
      rw [hnext] at h
      exact ⟨next, rfl, h⟩

theorem assignEach_append {b mid : Branch} {first second : List (Literal × Cause)}
    (h : b.assignEach first = .ok mid) :
    b.assignEach (first ++ second) = mid.assignEach second := by
  unfold assignEach at h ⊢
  rw [List.foldlM_append, h]
  rfl

theorem Of.assign_eq_ok {clauses : List Clause} {b next : Branch} (h : Of clauses b)
    {l : Literal} {cause : Cause} (hnext : b.assign l cause = .ok next) :
    ∃ e, next.binding = b.binding.assign l ∧ next.trail.entries = e :: b.trail.entries ∧
      e.literal = l ∧ e.cause = cause ∧ next.undo = .ok (some (e, b)) := by
  rcases h.assign_exists (Branch.assign_eq_ok hnext) cause with ⟨other, e, hother, _, hrest⟩
  rw [hnext] at hother
  cases hother
  exact ⟨e, hrest⟩

theorem Of.level_assign {clauses : List Clause} {b next : Branch} (h : Of clauses b)
    {l : Literal} {flipped : Bool} (hnext : b.assign l (.decision flipped) = .ok next) :
    next.level = b.level + 1 := by
  obtain ⟨e, _, htrail, _, hcause, _⟩ := h.assign_eq_ok hnext
  unfold level Trail.level
  rw [htrail, List.countP_cons_of_pos]
  rw [hcause]
  rfl

/-- Assigning distinct unbound variables one after the other succeeds. -/
theorem Of.assignEach_exists {clauses : List Clause} {b : Branch} (h : Of clauses b)
    {sequence : List (Literal × Cause)} (hnodup : (sequence.map fun step => step.1.var).Nodup)
    (hunbound : ∀ step ∈ sequence, b.binding.binds step.1.var = false) :
    ∃ last, b.assignEach sequence = .ok last := by
  induction sequence generalizing b with
  | nil => exact ⟨b, rfl⟩
  | cons step rest ih =>
      rcases List.nodup_cons.mp hnodup with ⟨hnew, hrest⟩
      obtain ⟨next, e, hnext, hof, hbinding, _⟩ :=
        h.assign_exists (hunbound step List.mem_cons_self) step.2
      rw [assignEach_cons hnext]
      apply ih hof hrest
      intro other hother
      rw [← Bool.not_eq_true, hbinding, Binding.binds_assign, not_or, Bool.not_eq_true]
      refine ⟨?_, hunbound other (List.mem_cons_of_mem step hother)⟩
      intro hvar
      exact hnew (List.mem_map.mpr ⟨other, hother, hvar.symm⟩)

theorem Of.assignEach_eq_ok {clauses : List Clause} {b last : Branch} (h : Of clauses b)
    {sequence : List (Literal × Cause)} (hlast : b.assignEach sequence = .ok last) :
    Of clauses last ∧ last.steps = sequence.reverse ++ b.steps ∧
      ∃ newer, last.trail.entries = newer ++ b.trail.entries ∧
        newer.length = sequence.length := by
  induction sequence generalizing b with
  | nil =>
      cases hlast
      exact ⟨h, rfl, [], rfl, rfl⟩
  | cons step rest ih =>
      rcases assignEach_cons_eq_ok hlast with ⟨next, hnext, htail⟩
      rcases h.assign_eq_ok hnext with ⟨e, _, htrail, hliteral, hcause, _⟩
      rcases ih (h.assign hnext) htail with ⟨hof, hsteps, newer, hnewer, hlength⟩
      have hnextSteps : next.steps = step :: b.steps := by
        simp [steps, htrail, hliteral, hcause]
      refine ⟨hof, ?_, newer ++ [e], ?_, ?_⟩
      · rw [hsteps, hnextSteps, List.reverse_cons, List.append_assoc]
        rfl
      · rw [hnewer, htrail, List.append_assoc]
        rfl
      · simp [hlength]

/-- The new entries of the trail are the assignments that were made. -/
theorem Of.newer_of_assignEach {clauses : List Clause} {b last : Branch} (h : Of clauses b)
    {sequence : List (Literal × Cause)} (hlast : b.assignEach sequence = .ok last) :
    ∃ newer, last.trail.entries = newer ++ b.trail.entries ∧
      newer.map (fun e => (e.literal, e.cause)) = sequence.reverse := by
  obtain ⟨_, hsteps, newer, hnewer, _⟩ := h.assignEach_eq_ok hlast
  refine ⟨newer, hnewer, ?_⟩
  unfold steps at hsteps
  rwa [hnewer, List.map_append, List.append_left_inj] at hsteps

theorem Of.newer_of_assignAll {clauses : List Clause} {b last : Branch} (h : Of clauses b)
    {ls : List Literal} {cause : Cause} (hlast : b.assignAll ls cause = .ok last) :
    ∃ newer, last.trail.entries = newer ++ b.trail.entries ∧
      newer.map TrailEntry.literal = ls.reverse ∧ ∀ e ∈ newer, e.cause = cause := by
  rw [assignAll_eq_assignEach] at hlast
  obtain ⟨newer, hnewer, hsame⟩ := h.newer_of_assignEach hlast
  refine ⟨newer, hnewer, ?_, ?_⟩
  · have hliterals := congrArg (List.map Prod.fst) hsame
    simpa [List.map_map, Function.comp_def] using hliterals
  · intro e he
    have hmem : (e.literal, e.cause) ∈ (ls.map fun l => (l, cause)).reverse := by
      rw [← hsame]
      exact List.mem_map_of_mem he
    obtain ⟨l, _, hl⟩ := List.mem_map.mp (List.mem_reverse.mp hmem)
    exact (congrArg Prod.snd hl).symm

/-! ## Taking assignments back -/

theorem Of.undo_cons {clauses : List Clause} {b : Branch} (h : Of clauses b) {e : TrailEntry}
    {older : List TrailEntry} (htrail : b.trail.entries = e :: older) :
    ∃ before, Of clauses before ∧ before.trail.entries = older ∧
      before.assign e.literal e.cause = .ok b ∧ b.undo = .ok (some (e, before)) := by
  cases h with
  | root => simp [Branch.root] at htrail
  | @assign before _ l cause hbefore hnext =>
      rcases hbefore.assign_eq_ok hnext with ⟨d, _, hd, rfl, rfl, hundo⟩
      rw [hd, List.cons.injEq] at htrail
      rcases htrail with ⟨rfl, rfl⟩
      exact ⟨before, hbefore, rfl, hnext, hundo⟩

theorem Of.undo_of_assign {clauses : List Clause} {b next : Branch} (h : Of clauses b)
    {l : Literal} {cause : Cause} (hnext : b.assign l cause = .ok next) :
    ∃ e, e.literal = l ∧ e.cause = cause ∧ next.undo = .ok (some (e, b)) := by
  rcases h.assign_eq_ok hnext with ⟨e, _, _, hrest⟩
  exact ⟨e, hrest⟩

theorem Of.undoTimes_add {clauses : List Clause} {b last : Branch} (h : Of clauses b)
    {sequence : List (Literal × Cause)} (hlast : b.assignEach sequence = .ok last) (n : Nat)
    {earlier : List (Literal × Cause)} {before : Branch}
    (hundo : b.undoTimes n = .ok (earlier, before)) :
    last.undoTimes (sequence.length + n) = .ok (sequence.reverse ++ earlier, before) := by
  induction sequence generalizing b n earlier with
  | nil =>
      cases hlast
      simpa using hundo
  | cons step rest ih =>
      rcases step with ⟨l, cause⟩
      rcases assignEach_cons_eq_ok hlast with ⟨next, hnext, htail⟩
      rcases h.undo_of_assign hnext with ⟨e, rfl, rfl, hback⟩
      have hone : next.undoTimes (n + 1) =
          .ok ((e.literal, e.cause) :: earlier, before) := by
        simp [undoTimes, hback, hundo, bind, Except.bind, pure, Except.pure]
      have hall := ih (h.assign hnext) htail (n + 1) hone
      rw [List.length_cons, List.reverse_cons, List.append_assoc,
        show rest.length + 1 + n = rest.length + (n + 1) by omega]
      exact hall

/-- Taking back as many assignments as were made gives the branch back, and names them newest
first. -/
theorem Of.undoTimes_assignEach {clauses : List Clause} {b last : Branch} (h : Of clauses b)
    {sequence : List (Literal × Cause)} (hlast : b.assignEach sequence = .ok last) :
    last.undoTimes sequence.length = .ok (sequence.reverse, b) := by
  have hnone : b.undoTimes 0 = .ok ([], b) := rfl
  simpa using h.undoTimes_add hlast 0 hnone

/-- A branch is determined by the literals and causes on its trail. -/
theorem Of.eq_of_steps {clauses : List Clause} {b c : Branch} (hb : Of clauses b)
    (hc : Of clauses c) (h : b.steps = c.steps) : b = c := by
  induction hb generalizing c with
  | root =>
      have htrail : c.trail.entries = [] := by
        simpa [steps, Branch.root] using h.symm
      cases hc with
      | root => rfl
      | assign hbefore hnext =>
          rcases hbefore.assign_eq_ok hnext with ⟨e, _, he, _⟩
          rw [he] at htrail
          contradiction
  | @assign before b l cause hbefore hnext ih =>
      rcases hbefore.assign_eq_ok hnext with ⟨e, _, he, hliteral, hcause, _⟩
      have hsteps : b.steps = (l, cause) :: before.steps := by
        simp [steps, he, hliteral, hcause]
      rw [hsteps] at h
      cases hctrail : c.trail.entries with
      | nil => simp [steps, hctrail] at h
      | cons d older =>
          rcases hc.undo_cons hctrail with ⟨before', hbefore', htrail', hassign', _⟩
          have hcsteps : c.steps = (d.literal, d.cause) :: before'.steps := by
            simp [steps, hctrail, htrail']
          rw [hcsteps, List.cons.injEq, Prod.mk.injEq] at h
          rcases h with ⟨⟨rfl, rfl⟩, hrest⟩
          rw [ih hbefore' hrest, hassign'] at hnext
          exact (Except.ok.inj hnext).symm

/-- What the newest assignments were added to. -/
theorem Of.before {clauses : List Clause} {b : Branch} (h : Of clauses b)
    {newer older : List TrailEntry} (htrail : b.trail.entries = newer ++ older) :
    ∃ before, Of clauses before ∧ before.trail.entries = older ∧
      before.assignEach (newer.reverse.map fun e => (e.literal, e.cause)) = .ok b := by
  induction newer generalizing b with
  | nil => exact ⟨b, h, htrail, rfl⟩
  | cons e newer ih =>
      rcases h.undo_cons htrail with ⟨mid, hmid, hmidTrail, hassign, _⟩
      rcases ih hmid hmidTrail with ⟨before, hbefore, hbeforeTrail, hsteps⟩
      refine ⟨before, hbefore, hbeforeTrail, ?_⟩
      rw [List.reverse_cons, List.map_append, assignEach_append hsteps]
      unfold assignEach
      simp only [List.map_cons, List.map_nil, List.foldlM_cons, hassign]
      rfl

/-! ## Unwinding -/

/-- The assignments of the entries that unwinding takes back without looking further. -/
def Settled (es : List TrailEntry) : Prop :=
  ∀ e ∈ es, e.cause ≠ .decision false

theorem settled_of_eq_root {clauses : List Clause} {b : Branch} (h : b = root clauses) :
    Settled b.trail.entries := by
  rw [h]
  exact List.forall_mem_nil _

theorem settled_cons {e : TrailEntry} {es : List TrailEntry} :
    Settled (e :: es) ↔ e.cause ≠ .decision false ∧ Settled es :=
  List.forall_mem_cons

/-- Unwinding stops at a decision that is not flipped and goes on below everything else. -/
theorem Of.unwind_assign {clauses : List Clause} {b next : Branch} (h : Of clauses b)
    {l : Literal} {cause : Cause} (hnext : b.assign l cause = .ok next) :
    next.unwind = if cause = .decision false then .ok (some l, b) else b.unwind := by
  obtain ⟨e, _, htrail, rfl, rfl, hundo⟩ := h.assign_eq_ok hnext
  unfold unwind
  rw [htrail, List.length_cons, unwindWithin, hundo]
  by_cases hfree : e.cause = .decision false
  · simp [hfree, bind, Except.bind, pure, Except.pure]
  · simp [hfree, bind, Except.bind]

theorem Of.unwind_cases {clauses : List Clause} {b : Branch} (h : Of clauses b) :
    (Settled b.trail.entries ∧ b.unwind = .ok (none, Branch.root clauses)) ∨
      ∃ newer e older before, b.trail.entries = newer ++ e :: older ∧ Settled newer ∧
        e.cause = .decision false ∧ Of clauses before ∧ before.trail.entries = older ∧
        before.binding.binds e.literal.var = false ∧
        b.unwind = .ok (some e.literal, before) := by
  induction h with
  | root => exact Or.inl ⟨settled_of_eq_root rfl, rfl⟩
  | @assign before next l cause hbefore hnext ih =>
      obtain ⟨e, _, htrail, rfl, rfl, _⟩ := hbefore.assign_eq_ok hnext
      rw [hbefore.unwind_assign hnext, htrail]
      by_cases hfree : e.cause = .decision false
      · rw [if_pos hfree]
        exact Or.inr ⟨[], e, before.trail.entries, before, rfl, List.forall_mem_nil _, hfree,
          hbefore, rfl, Branch.assign_eq_ok hnext, rfl⟩
      · rw [if_neg hfree]
        obtain ⟨hsettled, hroot⟩ | ⟨newer, d, older, below, hsplit, hsettled, hrest⟩ := ih
        · exact Or.inl ⟨settled_cons.mpr ⟨hfree, hsettled⟩, hroot⟩
        · exact Or.inr ⟨e :: newer, d, older, below, by rw [hsplit]; rfl,
            settled_cons.mpr ⟨hfree, hsettled⟩, hrest⟩

end Branch

end SatSearch
