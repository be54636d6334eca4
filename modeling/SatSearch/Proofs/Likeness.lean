import SatSearch.Proofs.Renaming

/-!
# Alike branches

Two lists of clauses pose the same problem if their clauses have the same sets of literals.
Branches of the two are alike if the same decisions were made on them and, between any two of
these, the same literals were inferred, in whatever order.  In other words, they correspond under
the renaming that keeps all names; so they have the same binding and the same answers.
-/

namespace SatSearch

variable {cs ds : List Clause}

/-! ## Clauses as sets -/

/-- The sets of literals of the clauses. -/
def literalSets (clauses : List Clause) : Finset (Finset Literal) :=
  (clauses.map fun c => c.literals.toFinset).toFinset

theorem exists_counterpart (h : literalSets cs = literalSets ds) {c : Clause} (hc : c ∈ cs) :
    ∃ d ∈ ds, ∀ l, l ∈ d.literals ↔ l ∈ c.literals := by
  have hmem : c.literals.toFinset ∈ literalSets ds := by
    rw [← h]
    exact List.mem_toFinset.mpr (List.mem_map.mpr ⟨c, hc, rfl⟩)
  obtain ⟨d, hd, hsame⟩ := List.mem_map.mp (List.mem_toFinset.mp hmem)
  refine ⟨d, hd, ?_⟩
  intro l
  rw [← List.mem_toFinset, hsame, List.mem_toFinset]

/-- Lists of clauses that pose the same problem are renamings of each other that keep all names. -/
theorem renaming_of_literalSets (h : literalSets cs = literalSets ds) :
    Renaming id Set.univ cs ds where
  increasing := fun _ _ _ _ hlt => hlt
  covers := fun _ _ _ _ => trivial
  forth := by
    intro c hc
    obtain ⟨d, hd, hsame⟩ := exists_counterpart h hc
    refine ⟨d, hd, fun m => ?_⟩
    simp [hsame]
  back := by
    intro d hd
    obtain ⟨c, hc, hsame⟩ := exists_counterpart h.symm hd
    refine ⟨c, hc, fun m => ?_⟩
    simp [hsame]

namespace Branch

variable {b c : Branch}

/-! ## Alike branches -/

/-- The branches of two lists of clauses that the same decisions and the same batches of
inferences lead to. -/
inductive Alike (cs ds : List Clause) : Branch → Branch → Prop
  | root : Alike cs ds (root cs) (root ds)
  | inferred {b c above beyond : Branch} {ls ms : List Literal} (h : Alike cs ds b c)
      (hperm : ls.Perm ms) (habove : b.assignAll ls .inference = .ok above)
      (hbeyond : c.assignAll ms .inference = .ok beyond) : Alike cs ds above beyond
  | decided {b c above beyond : Branch} {l : Literal} {flipped : Bool} (h : Alike cs ds b c)
      (habove : b.assign l (.decision flipped) = .ok above)
      (hbeyond : c.assign l (.decision flipped) = .ok beyond) : Alike cs ds above beyond

theorem Alike.renamed (h : Alike cs ds b c) : Renamed id Set.univ cs ds b c := by
  induction h with
  | root => exact .root
  | inferred _ hperm habove hbeyond ih =>
      refine .inferred ih (fun _ _ => trivial) ?_ habove hbeyond
      rwa [Literal.rename_id, List.map_id]
  | decided _ habove hbeyond ih => exact .decided ih trivial habove hbeyond

theorem Renamed.alike (h : Renamed id Set.univ cs ds b c) : Alike cs ds b c := by
  induction h with
  | root => exact .root
  | inferred _ _ hperm habove hbeyond ih =>
      rw [Literal.rename_id, List.map_id] at hperm
      exact .inferred ih hperm habove hbeyond
  | decided _ _ habove hbeyond ih => exact .decided ih habove hbeyond

theorem Alike.of_left (h : Alike cs ds b c) : Of cs b :=
  h.renamed.of_left

theorem Alike.of_right (h : Alike cs ds b c) : Of ds c :=
  h.renamed.of_right

theorem Alike.binding_eq (h : Alike cs ds b c) : b.binding = c.binding := by
  apply Binding.ext_value?
  intro l
  rw [h.renamed.binding.value?_iff]
  simp

theorem Alike.isSatisfied_eq (hsets : literalSets cs = literalSets ds) (h : Alike cs ds b c) :
    b.isSatisfied = c.isSatisfied :=
  h.renamed.isSatisfied_eq (renaming_of_literalSets hsets)

end Branch

end SatSearch
