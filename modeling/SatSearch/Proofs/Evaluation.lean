import SatSearch.Assignment
import SatSearch.Evaluation
import Mathlib.Tactic

/-!
# Truth under a binding and under a total assignment

A clause is confirmed by a binding when one of its literals is true, and refuted when all of them
are false.  A total assignment that agrees with a binding makes the literals true that the binding
makes true, so a confirmed formula holds under it.
-/

namespace SatSearch

theorem Literal.evaluate_eq_yes_iff {l : Literal} {b : Binding} :
    l.evaluate b = .yes ↔ b.value? l = some true := by
  unfold Literal.evaluate
  cases b.value? l with
  | none => simp [Truth.ofOption]
  | some value => cases value <;> simp [Truth.ofOption, Truth.ofBool]

theorem Literal.evaluate_eq_no_iff {l : Literal} {b : Binding} :
    l.evaluate b = .no ↔ b.value? l = some false := by
  unfold Literal.evaluate
  cases b.value? l with
  | none => simp [Truth.ofOption]
  | some value => cases value <;> simp [Truth.ofOption, Truth.ofBool]

theorem foldl_or_eq_yes_iff {ls : List Literal} {b : Binding} {t : Truth} :
    ls.foldl (fun t l => t.or (l.evaluate b)) t = .yes ↔
      t = .yes ∨ ∃ l ∈ ls, b.value? l = some true := by
  induction ls generalizing t with
  | nil => simp
  | cons l ls ih =>
      rw [List.foldl_cons, ih, Truth.or_eq_yes, Literal.evaluate_eq_yes_iff,
        List.exists_mem_cons_iff, or_assoc]

theorem foldl_or_eq_no_iff {ls : List Literal} {b : Binding} {t : Truth} :
    ls.foldl (fun t l => t.or (l.evaluate b)) t = .no ↔
      t = .no ∧ ∀ l ∈ ls, b.value? l = some false := by
  induction ls generalizing t with
  | nil => simp
  | cons l ls ih =>
      rw [List.foldl_cons, ih, Truth.or_eq_no, Literal.evaluate_eq_no_iff,
        List.forall_mem_cons, and_assoc]

theorem Clause.evaluate_eq_yes_iff {c : Clause} {b : Binding} :
    c.evaluate b = .yes ↔ ∃ l ∈ c.literals, b.value? l = some true := by
  unfold Clause.evaluate
  rw [foldl_or_eq_yes_iff]
  simp

theorem Clause.evaluate_eq_no_iff {c : Clause} {b : Binding} :
    c.evaluate b = .no ↔ ∀ l ∈ c.literals, b.value? l = some false := by
  unfold Clause.evaluate
  rw [foldl_or_eq_no_iff]
  simp

theorem foldl_and_eq_yes_iff {cs : List Clause} {b : Binding} {t : Truth} :
    cs.foldl (fun t c => t.and (c.evaluate b)) t = .yes ↔
      t = .yes ∧ ∀ c ∈ cs, c.evaluate b = .yes := by
  induction cs generalizing t with
  | nil => simp
  | cons c cs ih =>
      rw [List.foldl_cons, ih, Truth.and_eq_yes, List.forall_mem_cons, and_assoc]

theorem Formula.evaluate_eq_yes_iff {f : Formula} {b : Binding} :
    f.evaluate b = .yes ↔ ∀ c ∈ f.clauses, c.evaluate b = .yes := by
  unfold Formula.evaluate
  rw [foldl_and_eq_yes_iff]
  simp only [true_and, Array.mem_toList_iff]

theorem foldl_and_eq_no_iff {cs : List Clause} {b : Binding} {t : Truth} :
    cs.foldl (fun t c => t.and (c.evaluate b)) t = .no ↔
      t = .no ∨ ∃ c ∈ cs, c.evaluate b = .no := by
  induction cs generalizing t with
  | nil => simp
  | cons c cs ih =>
      rw [List.foldl_cons, ih, Truth.and_eq_no, List.exists_mem_cons_iff, or_assoc]

theorem Formula.evaluate_eq_no_iff {f : Formula} {b : Binding} :
    f.evaluate b = .no ↔ ∃ c ∈ f.clauses, c.evaluate b = .no := by
  unfold Formula.evaluate
  rw [foldl_and_eq_no_iff]
  simp only [reduceCtorEq, false_or, Array.mem_toList_iff]

/-- A binding is confirmed by more variables being bound. -/
theorem Clause.evaluate_eq_yes_of_le {c : Clause} {b d : Binding}
    (hle : ∀ l, b.value? l = some true → d.value? l = some true)
    (h : c.evaluate b = .yes) : c.evaluate d = .yes := by
  rcases Clause.evaluate_eq_yes_iff.mp h with ⟨l, hl, hvalue⟩
  exact Clause.evaluate_eq_yes_iff.mpr ⟨l, hl, hle l hvalue⟩

theorem Formula.evaluate_eq_yes_of_le {f : Formula} {b d : Binding}
    (hle : ∀ l, b.value? l = some true → d.value? l = some true)
    (h : f.evaluate b = .yes) : f.evaluate d = .yes :=
  Formula.evaluate_eq_yes_iff.mpr fun c hc =>
    Clause.evaluate_eq_yes_of_le hle (Formula.evaluate_eq_yes_iff.mp h c hc)

end SatSearch
