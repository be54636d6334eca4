import SatSearch.WorkingFormula
import SatSearch.Proofs.OccurrenceIndex

/-!
# Working formulas as lists of clauses

The index and the status sets of a working formula are determined by its clauses, and
`WorkingFormula.ofClauses` puts the three together.  Applying a change to such a formula changes one
clause and brings the index and the status sets up to date; reverting the change gives the formula
back.  Making a literal true does to every clause what `WorkingClause.assign` does to one, and the
changes that it records lead back exactly.
-/

namespace SatSearch

namespace StatusSets

theorem get_put (s : StatusSets) (status other : ClauseStatus) (set : ClauseSet) :
    (s.put status set).get other = if status = other then set else s.get other := by
  cases status <;> cases other <;> rfl

theorem mem_get_insert {s : StatusSets} {status other : ClauseStatus} {n k : Nat} :
    k ∈ (s.insert status n).get other ↔ (status = other ∧ n = k) ∨ k ∈ s.get other := by
  unfold insert
  rw [get_put]
  split
  next heq =>
    subst heq
    simp [Std.ExtTreeSet.mem_insert]
  next hne => simp [hne]

theorem mem_get_erase {s : StatusSets} {status other : ClauseStatus} {n k : Nat} :
    k ∈ (s.erase status n).get other ↔ ¬(status = other ∧ n = k) ∧ k ∈ s.get other := by
  unfold erase
  rw [get_put]
  split
  next heq =>
    subst heq
    simp [Std.ExtTreeSet.mem_erase]
  next hne => simp [hne]

theorem eq_of_mem_get {s t : StatusSets}
    (h : ∀ status n, n ∈ s.get status ↔ n ∈ t.get status) : s = t := by
  have hget : ∀ status, s.get status = t.get status :=
    fun status => Std.ExtTreeSet.ext_mem (h status)
  cases s
  cases t
  have hsatisfied := hget .satisfied
  have hfalsified := hget .falsified
  have hunit := hget .unit
  have hunresolved := hget .unresolved
  simp only [get] at hsatisfied hfalsified hunit hunresolved
  rw [hsatisfied, hfalsified, hunit, hunresolved]

theorem mem_get_foldl_insert {s : StatusSets} {pairs : List (WorkingClause × Nat)}
    {status : ClauseStatus} {n : Nat} :
    n ∈ (pairs.foldl (fun s (c, n) => s.insert c.status n) s).get status ↔
      (∃ c, (c, n) ∈ pairs ∧ c.status = status) ∨ n ∈ s.get status := by
  induction pairs generalizing s with
  | nil => simp
  | cons pair pairs ih =>
      rcases pair with ⟨c, k⟩
      rw [List.foldl_cons, ih, mem_get_insert]
      simp only [List.mem_cons, Prod.mk.injEq]
      constructor
      · rintro (⟨d, hd, hstatus⟩ | ⟨hstatus, rfl⟩ | hold)
        · exact Or.inl ⟨d, Or.inr hd, hstatus⟩
        · exact Or.inl ⟨c, Or.inl ⟨rfl, rfl⟩, hstatus⟩
        · exact Or.inr hold
      · rintro (⟨d, ⟨rfl, rfl⟩ | hd, hstatus⟩ | hold)
        · exact Or.inr (Or.inl ⟨hstatus, rfl⟩)
        · exact Or.inl ⟨d, hd, hstatus⟩
        · exact Or.inr (Or.inr hold)

/-- A clause number is in the set of the status of its clause and in no other. -/
theorem mem_get_ofClauses (cs : List WorkingClause) (status : ClauseStatus) (n : Nat) :
    n ∈ (ofClauses cs).get status ↔ ∃ c, cs[n]? = some c ∧ c.status = status := by
  unfold ofClauses
  rw [mem_get_foldl_insert]
  have hempty : n ∉ ({} : StatusSets).get status := by
    cases status <;> exact Std.ExtTreeSet.not_mem_empty
  simp only [hempty, or_false, List.mk_mem_zipIdx_iff_getElem?]

theorem move_ofClauses {cs : List WorkingClause} {n : Nat} {c : WorkingClause}
    (hc : cs[n]? = some c) (d : WorkingClause) :
    (ofClauses cs).move c.status d.status n = .ok (ofClauses (cs.set n d)) := by
  have hn : n < cs.length := (List.getElem?_eq_some_iff.mp hc).1
  have hset : ∀ k, (cs.set n d)[k]? = if n = k then some d else cs[k]? := by
    intro k
    rw [List.getElem?_set, if_pos hn]
  unfold move
  split
  next heq =>
    congr 1
    apply eq_of_mem_get
    intro status k
    simp only [mem_get_ofClauses, hset]
    by_cases hk : n = k
    · subst hk
      simp [hc, heq]
    · simp [hk]
  next hne =>
    have hold : ((ofClauses cs).get c.status).contains n = true :=
      Std.ExtTreeSet.contains_iff_mem.mpr ((mem_get_ofClauses cs c.status n).mpr ⟨c, hc, rfl⟩)
    have hnew : ¬((ofClauses cs).get d.status).contains n = true := by
      rw [Std.ExtTreeSet.contains_iff_mem, mem_get_ofClauses]
      rintro ⟨e, he, hstatus⟩
      rw [hc] at he
      cases he
      exact hne hstatus
    simp only [hold, hnew, Bool.not_true, Bool.false_eq_true, if_false]
    congr 1
    apply eq_of_mem_get
    intro status k
    rw [mem_get_insert, mem_get_erase]
    simp only [mem_get_ofClauses, hset]
    by_cases hk : n = k
    · subst hk
      simp [hc, eq_comm]
    · simp [hk]

end StatusSets

namespace WorkingFormula

/-- The clauses that are not satisfied, as the entries of an index. -/
def openEntries (cs : List WorkingClause) : List IndexEntry :=
  (cs.zipIdx.filter fun (c, _) => !c.satisfied).map fun (c, n) => ⟨n, c.literals⟩

/-- The working formula with the given clauses. -/
def ofClauses (cs : List WorkingClause) : WorkingFormula where
  clauses := cs.toArray
  index := .build (openEntries cs)
  statuses := .ofClauses cs

theorem records_index_ofClauses {cs : List WorkingClause} {l : Literal} {n : Nat} :
    (ofClauses cs).index.records l n = true ↔
      ∃ c, cs[n]? = some c ∧ c.satisfied = false ∧ l ∈ c.literals := by
  unfold ofClauses openEntries
  simp only [OccurrenceIndex.records_build, List.mem_map, List.mem_filter, Prod.exists,
    List.mk_mem_zipIdx_iff_getElem?, Bool.not_eq_true']
  constructor
  · rintro ⟨e, ⟨c, k, ⟨hc, hopen⟩, rfl⟩, hl, rfl⟩
    exact ⟨c, hc, hopen, hl⟩
  · rintro ⟨c, hc, hopen, hl⟩
    exact ⟨⟨n, c.literals⟩, ⟨c, n, ⟨hc, hopen⟩, rfl⟩, hl, rfl⟩

theorem clause_ofClauses {cs : List WorkingClause} {n : Nat} {c : WorkingClause}
    (hc : cs[n]? = some c) : (ofClauses cs).clause n = .ok c := by
  simp [clause, ofClauses, hc]

theorem replace_ofClauses {cs : List WorkingClause} {n : Nat} {c : WorkingClause}
    (hc : cs[n]? = some c) (d : WorkingClause) (index : OccurrenceIndex)
    (hindex : ∀ l k, index.records l k = true ↔
      (ofClauses (cs.set n d)).index.records l k = true) :
    (ofClauses cs).replace n c.status d index = .ok (ofClauses (cs.set n d)) := by
  have hsame : index = (ofClauses (cs.set n d)).index := OccurrenceIndex.eq_of_records hindex
  have hmove : (ofClauses cs).statuses.move c.status d.status n =
      .ok (ofClauses (cs.set n d)).statuses :=
    StatusSets.move_ofClauses hc d
  unfold replace
  rw [hmove, hsame]
  simp [bind, Except.bind, pure, Except.pure, ofClauses]

/-- Putting a clause back in place of the one that replaced it. -/
theorem replace_set_ofClauses {cs : List WorkingClause} {n : Nat} {c : WorkingClause}
    (hc : cs[n]? = some c) (d : WorkingClause) {index : OccurrenceIndex}
    (hindex : ∀ l k, index.records l k = true ↔ (ofClauses cs).index.records l k = true) :
    (ofClauses (cs.set n d)).replace n d.status c index = .ok (ofClauses cs) := by
  rcases List.getElem?_eq_some_iff.mp hc with ⟨hn, hget⟩
  have hd : (cs.set n d)[n]? = some d := by simp [hn]
  have hback : (cs.set n d).set n c = cs := by
    rw [List.set_set, ← hget]
    exact List.set_getElem_self hn
  have hreplace := replace_ofClauses hd c index (by simpa [hback] using hindex)
  rwa [hback] at hreplace

theorem records_index_set {cs : List WorkingClause} {n : Nat} {c : WorkingClause}
    (hc : cs[n]? = some c) (d : WorkingClause) {l : Literal} {k : Nat} :
    (ofClauses (cs.set n d)).index.records l k = true ↔
      if n = k then d.satisfied = false ∧ l ∈ d.literals
      else (ofClauses cs).index.records l k = true := by
  have hn : n < cs.length := (List.getElem?_eq_some_iff.mp hc).1
  simp only [records_index_ofClauses, List.getElem?_set, if_pos hn]
  split
  next => simp
  next => rfl

end WorkingFormula

/-! ## Changes -/

namespace Change

def number : Change → Nat
  | satisfied n => n
  | shrunk n _ _ => n

/-- The clause after the change. -/
def result : Change → WorkingClause → WorkingClause
  | satisfied _, c => { c with satisfied := true }
  | shrunk _ _ position, c => { c with literals := c.literals.eraseIdx position }

/-- The change can be made to an open clause, and it can be told from its result what it was. -/
def Fits : Change → WorkingClause → Prop
  | satisfied _, c => c.satisfied = false
  | shrunk _ l position, c =>
    c.satisfied = false ∧ c.literals[position]? = some l ∧ l ∉ c.literals.eraseIdx position

/-- Making the changes one after the other leads from the first list of clauses to the second. -/
inductive Leads : List WorkingClause → List Change → List WorkingClause → Prop
  | nil (cs : List WorkingClause) : Leads cs [] cs
  | cons {cs ds : List WorkingClause} {change : Change} {changes : List Change}
      {c : WorkingClause} (hc : cs[change.number]? = some c) (hfits : change.Fits c)
      (htail : Leads (cs.set change.number (change.result c)) changes ds) :
      Leads cs (change :: changes) ds

theorem mem_iff_eq_or_mem_eraseIdx {ls : List Literal} {position : Nat} {l m : Literal}
    (hl : ls[position]? = some l) : m ∈ ls ↔ m = l ∨ m ∈ ls.eraseIdx position := by
  have hperm : (l :: ls.eraseIdx position).Perm ls := by
    rcases List.getElem?_eq_some_iff.mp hl with ⟨hposition, hget⟩
    rw [← hget]
    exact List.getElem_cons_eraseIdx_perm hposition
  rw [← hperm.mem_iff, List.mem_cons]

theorem insertIdx_eraseIdx {ls : List Literal} {position : Nat} {l : Literal}
    (hl : ls[position]? = some l) : (ls.eraseIdx position).insertIdx position l = ls := by
  rcases List.getElem?_eq_some_iff.mp hl with ⟨hposition, hget⟩
  rw [← hget]
  exact List.insertIdx_eraseIdx_getElem hposition

theorem apply_ofClauses {cs : List WorkingClause} {change : Change} {c : WorkingClause}
    (hc : cs[change.number]? = some c) (hfits : change.Fits c) :
    (WorkingFormula.ofClauses cs).apply change =
      .ok (.ofClauses (cs.set change.number (change.result c))) := by
  cases change with
  | satisfied n =>
      simp only [number, result, Fits] at hc hfits ⊢
      unfold WorkingFormula.apply
      simp only [WorkingFormula.clause_ofClauses hc, bind, Except.bind]
      apply WorkingFormula.replace_ofClauses hc
      intro l k
      rw [OccurrenceIndex.records_eraseAll, WorkingFormula.records_index_set hc]
      split
      next heq =>
        subst heq
        simp only [WorkingFormula.records_index_ofClauses, hc, Option.some.injEq,
          exists_eq_left', Bool.true_eq_false, false_and, iff_false, not_and, and_true]
        intro hnot _
        exact hnot
      next hne => simp [hne]
  | shrunk n m position =>
      simp only [number, result, Fits] at hc hfits ⊢
      rcases hfits with ⟨hopen, hposition, hrest⟩
      unfold WorkingFormula.apply
      simp only [WorkingFormula.clause_ofClauses hc, bind, Except.bind, hposition, if_true]
      apply WorkingFormula.replace_ofClauses hc
      intro l k
      rw [OccurrenceIndex.records_erase, WorkingFormula.records_index_set hc]
      split
      next heq =>
        subst heq
        simp only [WorkingFormula.records_index_ofClauses, hc, and_true, Option.some.injEq,
          exists_eq_left', hopen, true_and, mem_iff_eq_or_mem_eraseIdx hposition]
        constructor
        · rintro ⟨hne, rfl | hmem⟩
          · exact absurd rfl hne
          · exact hmem
        · intro hmem
          refine ⟨?_, Or.inr hmem⟩
          rintro rfl
          exact hrest hmem
      next hne => simp [hne]

theorem revert_ofClauses {cs : List WorkingClause} {change : Change} {c : WorkingClause}
    (hc : cs[change.number]? = some c) (hfits : change.Fits c) :
    (WorkingFormula.ofClauses (cs.set change.number (change.result c))).revert change =
      .ok (.ofClauses cs) := by
  have hn : change.number < cs.length := (List.getElem?_eq_some_iff.mp hc).1
  have hd : (cs.set change.number (change.result c))[change.number]? =
      some (change.result c) := by
    simp [hn]
  cases change with
  | satisfied n =>
      simp only [number, result, Fits] at hc hfits hd ⊢
      have hopen : { c with satisfied := false } = c := by
        rw [← hfits]
      unfold WorkingFormula.revert
      simp only [WorkingFormula.clause_ofClauses hd, bind, Except.bind]
      rw [hopen]
      apply WorkingFormula.replace_set_ofClauses hc { c with satisfied := true }
      intro l k
      rw [OccurrenceIndex.records_insertAll, WorkingFormula.records_index_set hc]
      split
      next heq =>
        subst heq
        simp [WorkingFormula.records_index_ofClauses, hc, hfits]
      next hne => simp [hne]
  | shrunk n m position =>
      simp only [number, result, Fits] at hc hfits hd ⊢
      rcases hfits with ⟨hopen, hposition, _⟩
      have hlength : position ≤ (c.literals.eraseIdx position).length := by
        have hlt := (List.getElem?_eq_some_iff.mp hposition).1
        rw [List.length_eraseIdx_of_lt hlt]
        omega
      unfold WorkingFormula.revert
      simp only [WorkingFormula.clause_ofClauses hd, bind, Except.bind, hlength, if_true,
        insertIdx_eraseIdx hposition]
      apply WorkingFormula.replace_set_ofClauses hc
        { c with literals := c.literals.eraseIdx position }
      intro l k
      rw [OccurrenceIndex.records_insert, WorkingFormula.records_index_set hc]
      split
      next heq =>
        subst heq
        simp only [WorkingFormula.records_index_ofClauses, hc, hopen, Option.some.injEq,
          exists_eq_left', true_and, and_true, mem_iff_eq_or_mem_eraseIdx hposition]
        rw [eq_comm]
      next hne => simp [hne]

namespace Leads

variable {cs ds es : List WorkingClause} {changes others : List Change}

theorem append (hfirst : Leads cs changes ds) (hsecond : Leads ds others es) :
    Leads cs (changes ++ others) es := by
  induction hfirst with
  | nil => exact hsecond
  | cons hc hfits _ ih => exact .cons hc hfits (ih hsecond)

theorem applyAll (h : Leads cs changes ds) :
    (WorkingFormula.ofClauses cs).applyAll changes = .ok (.ofClauses ds) := by
  unfold WorkingFormula.applyAll
  induction h with
  | nil => rfl
  | cons hc hfits _ ih =>
      rw [List.foldlM_cons, apply_ofClauses hc hfits]
      exact ih

theorem revertAll (h : Leads cs changes ds) :
    (WorkingFormula.ofClauses ds).revertAll changes.reverse = .ok (.ofClauses cs) := by
  unfold WorkingFormula.revertAll
  induction h with
  | nil => rfl
  | cons hc hfits _ ih =>
      rw [List.reverse_cons, List.foldlM_append, ih]
      simp only [bind, Except.bind, List.foldlM_cons, revert_ofClauses hc hfits]
      rfl

end Leads

/-- Changes to clauses with different numbers do not get in each other's way. -/
theorem leads_of_nodup (change : Nat → Change) (hnumber : ∀ n, (change n).number = n)
    (result : WorkingClause → WorkingClause) {ns : List Nat} (hnodup : ns.Nodup)
    (cs : List WorkingClause)
    (hfits : ∀ n ∈ ns, ∃ c, cs[n]? = some c ∧ (change n).Fits c ∧
      (change n).result c = result c) :
    Leads cs (ns.map change) (cs.mapIdx fun n c => if n ∈ ns then result c else c) := by
  induction ns generalizing cs with
  | nil =>
      have hsame : (cs.mapIdx fun n c => if n ∈ ([] : List Nat) then result c else c) = cs := by
        apply List.ext_getElem?
        intro k
        simp
      rw [hsame]
      exact .nil cs
  | cons n ns ih =>
      rcases List.nodup_cons.mp hnodup with ⟨hn, htail⟩
      rcases hfits n List.mem_cons_self with ⟨c, hc, hfit, hresult⟩
      have hlt : n < cs.length := (List.getElem?_eq_some_iff.mp hc).1
      have hrest := ih htail (cs.set n (result c)) (by
        intro m hm
        rcases hfits m (List.mem_cons_of_mem n hm) with ⟨d, hd, hfit, hresult⟩
        have hne : n ≠ m := by
          rintro rfl
          exact hn hm
        exact ⟨d, by rwa [List.getElem?_set_ne hne], hfit, hresult⟩)
      have hsame : ((cs.set n (result c)).mapIdx fun m d => if m ∈ ns then result d else d) =
          cs.mapIdx fun m d => if m ∈ n :: ns then result d else d := by
        apply List.ext_getElem?
        intro k
        rw [List.getElem?_mapIdx, List.getElem?_mapIdx]
        by_cases hk : n = k
        · subst hk
          rw [List.getElem?_set_self hlt, hc]
          simp [hn]
        · simp [List.getElem?_set_ne hk, Ne.symm hk]
      rw [hsame] at hrest
      refine .cons (c := c) (by rwa [hnumber]) hfit ?_
      rwa [hnumber, hresult]

end Change

/-! ## Making a literal true -/

namespace WorkingClause

/-- The clause once `l` is true, apart from `-l`. -/
def satisfyBy (l : Literal) (c : WorkingClause) : WorkingClause :=
  if c.satisfied = false ∧ l ∈ c.literals then { c with satisfied := true } else c

/-- The clause once `l` is false, apart from `-l`. -/
def cut (l : Literal) (c : WorkingClause) : WorkingClause :=
  if c.satisfied = false then { c with literals := c.literals.erase l } else c

/-- The clause once `l` is true. -/
def assign (l : Literal) (c : WorkingClause) : WorkingClause :=
  (c.satisfyBy l).cut (-l)

theorem literals_satisfyBy (l : Literal) (c : WorkingClause) :
    (c.satisfyBy l).literals = c.literals := by
  unfold satisfyBy
  split <;> rfl

theorem cut_of_not {l : Literal} {c : WorkingClause}
    (h : ¬(c.satisfied = false ∧ l ∈ c.literals)) : c.cut l = c := by
  unfold cut
  split
  next hopen => rw [List.erase_of_not_mem fun hl => h ⟨hopen, hl⟩]
  next => rfl

theorem nodup_assign {l : Literal} {c : WorkingClause} (hc : c.literals.Nodup) :
    (c.assign l).literals.Nodup := by
  unfold assign cut
  split
  next =>
    rw [literals_satisfyBy]
    exact hc.erase (-l)
  next => rwa [literals_satisfyBy]

theorem satisfied_assign {l : Literal} {c : WorkingClause} :
    (c.assign l).satisfied = true ↔ c.satisfied = true ∨ l ∈ c.literals := by
  have hcut : (c.assign l).satisfied = (c.satisfyBy l).satisfied := by
    unfold assign cut
    split <;> rfl
  rw [hcut]
  unfold satisfyBy
  by_cases hopen : c.satisfied = false <;> by_cases hl : l ∈ c.literals <;>
    simp [hopen, hl]

theorem literals_assign_of_open {l : Literal} {c : WorkingClause}
    (h : (c.assign l).satisfied = false) :
    (c.assign l).literals = c.literals.erase (-l) := by
  have hnot : ¬(c.satisfied = true ∨ l ∈ c.literals) := by
    rw [← satisfied_assign, h]
    exact Bool.false_ne_true
  rcases not_or.mp hnot with ⟨hopen, hl⟩
  simp [assign, satisfyBy, cut, hl, Bool.eq_false_iff.mpr hopen]

end WorkingClause

namespace WorkingFormula

theorem mem_clauses_index_ofClauses {cs : List WorkingClause} {l : Literal} {n : Nat} :
    n ∈ (ofClauses cs).index.clauses l ↔
      ∃ c, cs[n]? = some c ∧ c.satisfied = false ∧ l ∈ c.literals := by
  rw [OccurrenceIndex.mem_clauses, records_index_ofClauses]

theorem leads_changesOfTrue (cs : List WorkingClause) (l : Literal) :
    Change.Leads cs ((ofClauses cs).changesOfTrue l) (cs.map (·.satisfyBy l)) := by
  have hleads := Change.leads_of_nodup Change.satisfied (fun _ => rfl) (·.satisfyBy l)
    ((ofClauses cs).index.nodup_clauses l) cs (by
      intro n hn
      rcases mem_clauses_index_ofClauses.mp hn with ⟨c, hc, hopen, hl⟩
      refine ⟨c, hc, hopen, ?_⟩
      simp [Change.result, WorkingClause.satisfyBy, hopen, hl])
  have hmap : (cs.mapIdx fun n c =>
      if n ∈ (ofClauses cs).index.clauses l then c.satisfyBy l else c) =
      cs.map (·.satisfyBy l) := by
    apply List.ext_getElem?
    intro n
    rw [List.getElem?_mapIdx, List.getElem?_map]
    cases hc : cs[n]? with
    | none => rfl
    | some c =>
        simp only [Option.map_some, mem_clauses_index_ofClauses, hc, Option.some.injEq,
          exists_eq_left']
        by_cases hin : c.satisfied = false ∧ l ∈ c.literals
        · simp [hin]
        · simp [hin, WorkingClause.satisfyBy]
  rwa [hmap] at hleads

theorem leads_changesOfFalse (cs : List WorkingClause)
    (hdistinct : ∀ c ∈ cs, c.literals.Nodup) (l : Literal) :
    Change.Leads cs ((ofClauses cs).changesOfFalse l) (cs.map (·.cut l)) := by
  have hleads := Change.leads_of_nodup
    (fun n => .shrunk n l
      (((ofClauses cs).clauses[n]?.map fun c => c.literals.idxOf l).getD 0))
    (fun _ => rfl) (·.cut l) ((ofClauses cs).index.nodup_clauses l) cs (by
      intro n hn
      rcases mem_clauses_index_ofClauses.mp hn with ⟨c, hc, hopen, hl⟩
      have hget : (ofClauses cs).clauses[n]? = some c := by simpa [ofClauses] using hc
      have hnodup : c.literals.Nodup := hdistinct c (List.mem_of_getElem? hc)
      have herase : c.literals.eraseIdx (c.literals.idxOf l) = c.literals.erase l :=
        (List.erase_eq_eraseIdx_of_idxOf rfl).symm
      refine ⟨c, hc, ?_, ?_⟩
      · simp only [hget, Option.map_some, Option.getD_some, Change.Fits]
        refine ⟨hopen, List.getElem?_idxOf hl, ?_⟩
        rw [herase]
        exact hnodup.not_mem_erase
      · simp [hget, Change.result, WorkingClause.cut, hopen, herase])
  have hmap : (cs.mapIdx fun n c =>
      if n ∈ (ofClauses cs).index.clauses l then c.cut l else c) = cs.map (·.cut l) := by
    apply List.ext_getElem?
    intro n
    rw [List.getElem?_mapIdx, List.getElem?_map]
    cases hc : cs[n]? with
    | none => rfl
    | some c =>
        simp only [Option.map_some, mem_clauses_index_ofClauses, hc, Option.some.injEq,
          exists_eq_left']
        by_cases hin : c.satisfied = false ∧ l ∈ c.literals
        · simp [hin]
        · rw [if_neg hin, WorkingClause.cut_of_not hin]
  rwa [hmap] at hleads

/-- Making `l` true does not fail, does to every clause what it does to one, and records changes
that can be reverted. -/
theorem assign_ofClauses {cs : List WorkingClause}
    (hdistinct : ∀ c ∈ cs, c.literals.Nodup) (l : Literal) :
    ∃ changes, (ofClauses cs).assign l = .ok (changes, ofClauses (cs.map (·.assign l))) ∧
      Change.Leads cs changes (cs.map (·.assign l)) := by
  have htrue := leads_changesOfTrue cs l
  have hfalse := leads_changesOfFalse (cs.map (·.satisfyBy l)) (by
    intro c hc
    rcases List.mem_map.mp hc with ⟨d, hd, rfl⟩
    rw [WorkingClause.literals_satisfyBy]
    exact hdistinct d hd) (-l)
  have hmap : (cs.map (·.satisfyBy l)).map (·.cut (-l)) = cs.map (·.assign l) := by
    rw [List.map_map]
    rfl
  rw [hmap] at hfalse
  refine ⟨_, ?_, htrue.append hfalse⟩
  unfold assign
  simp only [htrue.applyAll, hfalse.applyAll, bind, Except.bind]
  rfl

end WorkingFormula

/-! ## What the status sets tell -/

namespace WorkingClause

theorem status_eq_satisfied_iff {c : WorkingClause} :
    c.status = .satisfied ↔ c.satisfied = true := by
  unfold status
  split
  next h => simp [h]
  next h => split <;> simp [h]

theorem status_eq_falsified_iff {c : WorkingClause} :
    c.status = .falsified ↔ c.satisfied = false ∧ c.literals = [] := by
  unfold status
  split
  next h => simp [h]
  next h =>
    split
    next hls => simp [h, hls]
    next hls => simp [hls]
    next hnil _ =>
      simp only [reduceCtorEq, false_iff, not_and]
      exact fun _ => hnil

theorem status_eq_unit_iff {c : WorkingClause} :
    c.status = .unit ↔ c.satisfied = false ∧ ∃ l, c.literals = [l] := by
  unfold status
  split
  next h => simp [h]
  next h =>
    split
    next hls => simp [hls]
    next l hls => simp [h, hls]
    next _ hsingle =>
      simp only [reduceCtorEq, false_iff, not_and, not_exists]
      intro _ l hl
      exact hsingle l hl

end WorkingClause

namespace WorkingFormula

theorem toList_satisfied_perm (cs : List WorkingClause) :
    (ofClauses cs).statuses.satisfied.toList.Perm
      ((List.range cs.length).filter fun n => (cs[n]?.map (·.satisfied)).getD false) := by
  have hnodup : (ofClauses cs).statuses.satisfied.toList.Nodup := by
    have hdistinct :=
      Std.ExtTreeSet.distinct_toList (t := (ofClauses cs).statuses.satisfied)
    refine hdistinct.imp ?_
    rintro m n hne rfl
    exact hne Std.ReflCmp.compare_self
  apply (List.perm_ext_iff_of_nodup hnodup (List.nodup_range.filter _)).mpr
  intro n
  have hmem : n ∈ (ofClauses cs).statuses.satisfied.toList ↔
      ∃ c, cs[n]? = some c ∧ c.status = .satisfied := by
    rw [Std.ExtTreeSet.mem_toList]
    exact StatusSets.mem_get_ofClauses cs .satisfied n
  rw [hmem, List.mem_filter, List.mem_range]
  simp only [WorkingClause.status_eq_satisfied_iff]
  constructor
  · rintro ⟨c, hc, hsatisfied⟩
    exact ⟨(List.getElem?_eq_some_iff.mp hc).1, by simp [hc, hsatisfied]⟩
  · rintro ⟨hn, hsatisfied⟩
    rw [List.getElem?_eq_getElem hn] at hsatisfied ⊢
    exact ⟨cs[n], rfl, hsatisfied⟩

theorem isSatisfied_ofClauses {cs : List WorkingClause} :
    (ofClauses cs).isSatisfied = true ↔ ∀ c ∈ cs, c.satisfied = true := by
  have hsize : (ofClauses cs).isSatisfied = true ↔
      ((List.range cs.length).filter fun n => (cs[n]?.map (·.satisfied)).getD false).length =
        (List.range cs.length).length := by
    unfold isSatisfied
    rw [← (toList_satisfied_perm cs).length_eq, Std.ExtTreeSet.length_toList,
      List.length_range, beq_iff_eq]
    exact Iff.rfl
  rw [hsize, List.length_filter_eq_length_iff]
  constructor
  · intro h c hc
    rcases List.getElem_of_mem hc with ⟨n, hn, rfl⟩
    simpa [List.getElem?_eq_getElem hn] using h n (List.mem_range.mpr hn)
  · intro h n hn
    have hlt : n < cs.length := List.mem_range.mp hn
    simpa [List.getElem?_eq_getElem hlt] using h cs[n] (List.getElem_mem hlt)

theorem hasFalsified_ofClauses {cs : List WorkingClause} :
    (ofClauses cs).hasFalsified = true ↔ ∃ c ∈ cs, c.satisfied = false ∧ c.literals = [] := by
  unfold hasFalsified
  rw [Bool.not_eq_true', Std.ExtTreeSet.isEmpty_eq_false_iff,
    Std.ExtTreeSet.eq_empty_iff_forall_not_mem, not_forall]
  have hmem : ∀ n, n ∈ (ofClauses cs).statuses.falsified ↔
      ∃ c, cs[n]? = some c ∧ c.status = .falsified :=
    fun n => StatusSets.mem_get_ofClauses cs .falsified n
  simp only [hmem, not_not, WorkingClause.status_eq_falsified_iff]
  constructor
  · rintro ⟨n, c, hc, hfalsified⟩
    exact ⟨c, List.mem_of_getElem? hc, hfalsified⟩
  · rintro ⟨c, hc, hfalsified⟩
    rcases List.mem_iff_getElem?.mp hc with ⟨n, hn⟩
    exact ⟨n, c, hn, hfalsified⟩

theorem mapM_eq_ok_of_forall {α β : Type} {f : α → Except Fault β} {P : α → β → Prop}
    {xs : List α} (h : ∀ x ∈ xs, ∃ y, f x = .ok y ∧ P x y) :
    ∃ ys, xs.mapM f = .ok ys ∧ (∀ y ∈ ys, ∃ x ∈ xs, P x y) ∧ ∀ x ∈ xs, ∃ y ∈ ys, P x y := by
  induction xs with
  | nil => exact ⟨[], rfl, by simp, by simp⟩
  | cons x xs ih =>
      rcases h x List.mem_cons_self with ⟨y, hy, hP⟩
      rcases ih fun z hz => h z (List.mem_cons_of_mem x hz) with ⟨ys, hys, hfrom, hto⟩
      refine ⟨y :: ys, ?_, ?_, ?_⟩
      · rw [List.mapM_cons, hy, hys]
        rfl
      · intro z hz
        rcases List.mem_cons.mp hz with rfl | hz
        · exact ⟨x, List.mem_cons_self, hP⟩
        · rcases hfrom z hz with ⟨w, hw, hPw⟩
          exact ⟨w, List.mem_cons_of_mem x hw, hPw⟩
      · intro z hz
        rcases List.mem_cons.mp hz with rfl | hz
        · exact ⟨y, List.mem_cons_self, hP⟩
        · rcases hto z hz with ⟨w, hw, hPw⟩
          exact ⟨w, List.mem_cons_of_mem y hw, hPw⟩

/-- The literals of the unit clauses can be read off. -/
theorem soleLiterals_ofClauses (cs : List WorkingClause) :
    ∃ ls, (ofClauses cs).soleLiterals = .ok ls ∧
      ∀ l, l ∈ ls ↔ ∃ c ∈ cs, c.satisfied = false ∧ c.literals = [l] := by
  have hmem : ∀ n, n ∈ (ofClauses cs).statuses.unit.toList ↔
      ∃ c, cs[n]? = some c ∧ c.status = .unit := by
    intro n
    rw [Std.ExtTreeSet.mem_toList]
    exact StatusSets.mem_get_ofClauses cs .unit n
  have hread : ∀ n ∈ (ofClauses cs).statuses.unit.toList, ∃ l,
      (ofClauses cs).soleLiteral n = .ok l ∧
        ∃ c, cs[n]? = some c ∧ c.satisfied = false ∧ c.literals = [l] := by
    intro n hn
    rcases (hmem n).mp hn with ⟨c, hc, hunit⟩
    rcases WorkingClause.status_eq_unit_iff.mp hunit with ⟨hopen, l, hl⟩
    refine ⟨l, ?_, c, hc, hopen, hl⟩
    unfold soleLiteral
    simp only [clause_ofClauses hc, bind, Except.bind, hl]
    rfl
  rcases mapM_eq_ok_of_forall hread with ⟨ls, hls, hfrom, hto⟩
  refine ⟨ls, hls, ?_⟩
  intro l
  constructor
  · intro hl
    rcases hfrom l hl with ⟨n, _, c, hc, hunit⟩
    exact ⟨c, List.mem_of_getElem? hc, hunit⟩
  · rintro ⟨c, hc, hopen, hl⟩
    rcases List.mem_iff_getElem?.mp hc with ⟨n, hn⟩
    have hunit : c.status = .unit := WorkingClause.status_eq_unit_iff.mpr ⟨hopen, l, hl⟩
    rcases hto n ((hmem n).mpr ⟨c, hn, hunit⟩) with ⟨m, hm, d, hd, _, hdl⟩
    rw [hn] at hd
    cases hd
    rw [hl] at hdl
    cases hdl
    exact hm

end WorkingFormula

end SatSearch
