import SatSearch.Formula
import Mathlib.Tactic

/-!
# Scopes and growing formulas

A scope is determined by the list of its variables, and a formula by its scope, its clauses and
whether it is closed.  A closed formula takes every clause over its scope.
-/

namespace SatSearch

namespace Scope

theorem ext_variables {s t : Scope} (h : s.variables = t.variables) : s = t := by
  obtain ⟨vs, known, _, hknown⟩ := s
  obtain ⟨ws, other, _, hother⟩ := t
  simp only at h
  subst h
  obtain rfl : known = other := by
    apply Std.ExtTreeSet.ext_mem
    intro v
    rw [hknown, hother]
  rfl

theorem variables_declare {s : Scope} {v : Variable} (hv : v ∉ s.variables.toList) :
    (s.declare v).2.variables.toList = s.variables.toList ++ [v] := by
  have hnew : ¬s.contains v = true := by
    rwa [contains_iff, ← Array.mem_toList_iff]
  unfold declare
  rw [dif_neg hnew, Array.toList_push]

/-- New variables are listed in the order in which they are declared. -/
theorem variables_declareAll {s : Scope} {vs : List Variable}
    (hnodup : (s.variables.toList ++ vs).Nodup) :
    (s.declareAll vs).variables.toList = s.variables.toList ++ vs := by
  induction vs generalizing s with
  | nil => rw [List.append_nil]; rfl
  | cons v vs ih =>
      have hv : v ∉ s.variables.toList := by
        intro hold
        exact List.disjoint_of_nodup_append hnodup hold List.mem_cons_self
      have hdeclare := variables_declare hv
      have hcons : s.declareAll (v :: vs) = (s.declare v).2.declareAll vs := rfl
      rw [hcons, ih, hdeclare, List.append_assoc]
      · rfl
      · rwa [hdeclare, List.append_assoc]

end Scope

namespace Formula

theorem ext_parts {f g : Formula} (hscope : f.scope = g.scope) (hclosed : f.closed = g.closed)
    (hclauses : f.clauses = g.clauses) : f = g := by
  cases f
  cases g
  simp only at hscope hclosed hclauses
  subst hscope hclosed hclauses
  rfl

theorem variables_withVariables {vs : List Variable} (hnodup : vs.Nodup) :
    (withVariables vs).scope.variables.toList = vs := by
  have hall : (({} : Scope).variables.toList ++ vs).Nodup := hnodup
  exact Scope.variables_declareAll hall

theorem clauses_foldl_adopt (f : Formula) (cs : List Clause) :
    (cs.foldl adopt f).clauses.toList = f.clauses.toList ++ cs := by
  induction cs generalizing f with
  | nil => simp
  | cons c cs ih => simp [ih, adopt]

@[simp] theorem clauses_ofClauses (cs : List Clause) :
    (ofClauses cs).clauses.toList = cs := by
  simp [ofClauses, clauses_foldl_adopt, empty]

theorem closed_foldl_adopt (f : Formula) (cs : List Clause) :
    (cs.foldl adopt f).closed = f.closed := by
  induction cs generalizing f with
  | nil => rfl
  | cons c cs ih => simp [ih, adopt]

@[simp] theorem closed_ofClauses (cs : List Clause) : (ofClauses cs).closed = false :=
  closed_foldl_adopt empty cs

theorem addClause_of_covers {f : Formula} {c : Clause} (hclosed : f.closed = true)
    (hc : f.scope.Covers c) :
    ∃ g, f.addClause c = (g, none) ∧ g.scope = f.scope ∧ g.closed = true ∧
      g.clauses = f.clauses.push c := by
  have hfind : (c.literals.find? fun l => !f.contains l.var) = none := by
    apply List.find?_eq_none.mpr
    intro l hl
    simpa [contains] using hc l hl
  unfold addClause
  rw [if_pos hclosed]
  split
  next l hl =>
    rw [hfind] at hl
    contradiction
  next => exact ⟨_, rfl, rfl, hclosed, rfl⟩

end Formula

end SatSearch
