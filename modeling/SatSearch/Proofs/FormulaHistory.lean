import SatSearch.Proofs.Formula

/-!
# Histories of a formula

A formula begins without clauses or with a collection of them, and grows by declarations and
clauses.  The account of its history lists what was declared and which clauses were accepted.  Every
call adds to the account what it adds to the formula.  So the formula has the accepted clauses, and
its scope lists the variables of the account in the order in which they were first mentioned.
-/

namespace SatSearch

/-! ## First mention -/

/-- The mentioned variables are listed once each, in the order of their first mention. -/
structure ListsMentioned (mentioned listed : List Variable) : Prop where
  nodup : listed.Nodup
  mem_iff : ∀ v, v ∈ listed ↔ v ∈ mentioned
  ordered : listed.Pairwise fun v w => mentioned.idxOf v < mentioned.idxOf w

namespace ListsMentioned

variable {mentioned listed : List Variable} {v : Variable}

/-- Further mentions do not move the variables that were mentioned before. -/
theorem ordered_concat (h : ListsMentioned mentioned listed) (v : Variable) :
    listed.Pairwise fun w x => (mentioned ++ [v]).idxOf w < (mentioned ++ [v]).idxOf x := by
  refine h.ordered.imp_of_mem ?_
  intro w x hw hx hlt
  rwa [List.idxOf_append_of_mem ((h.mem_iff w).mp hw),
    List.idxOf_append_of_mem ((h.mem_iff x).mp hx)]

theorem concat_of_mem (h : ListsMentioned mentioned listed) (hv : v ∈ listed) :
    ListsMentioned (mentioned ++ [v]) listed where
  nodup := h.nodup
  mem_iff := by
    intro w
    rw [h.mem_iff, List.mem_append, List.mem_singleton]
    refine ⟨Or.inl, ?_⟩
    rintro (hw | rfl)
    · exact hw
    · exact (h.mem_iff w).mp hv
  ordered := h.ordered_concat v

theorem concat_of_not_mem (h : ListsMentioned mentioned listed) (hv : v ∉ listed) :
    ListsMentioned (mentioned ++ [v]) (listed ++ [v]) where
  nodup := List.nodup_append.mpr ⟨h.nodup, List.nodup_singleton v, by
    intro w hw x hx
    rw [List.mem_singleton.mp hx]
    exact ne_of_mem_of_not_mem hw hv⟩
  mem_iff := by
    intro w
    rw [List.mem_append, List.mem_append, h.mem_iff]
  ordered := by
    have hnew : v ∉ mentioned := mt (h.mem_iff v).mpr hv
    rw [List.pairwise_append]
    refine ⟨h.ordered_concat v, List.pairwise_singleton _ v, ?_⟩
    intro w hw x hx
    have hmem : w ∈ mentioned := (h.mem_iff w).mp hw
    rw [List.mem_singleton.mp hx, List.idxOf_append_of_mem hmem,
      List.idxOf_append_of_notMem hnew]
    exact Nat.lt_add_right _ (List.idxOf_lt_length_of_mem hmem)

end ListsMentioned

namespace Scope

variable {s : Scope} {mentioned vs : List Variable} {v : Variable}

theorem declare_of_contains (h : s.contains v = true) : s.declare v = (false, s) :=
  dif_pos h

theorem declare_new_iff : (s.declare v).1 = true ↔ s.contains v = false := by
  unfold declare
  split
  next hold => simp [hold]
  next hnew => simpa using hnew

theorem declareAll_of_contains (h : ∀ v ∈ vs, s.contains v = true) : s.declareAll vs = s := by
  induction vs with
  | nil => rfl
  | cons v vs ih =>
      obtain ⟨hv, hvs⟩ := List.forall_mem_cons.mp h
      have hcons : s.declareAll (v :: vs) = (s.declare v).2.declareAll vs := rfl
      rw [hcons, declare_of_contains hv, ih hvs]

theorem listsMentioned_declare (h : ListsMentioned mentioned s.variables.toList) (v : Variable) :
    ListsMentioned (mentioned ++ [v]) (s.declare v).2.variables.toList := by
  by_cases hv : v ∈ s.variables.toList
  · rw [declare_of_contains (contains_iff.mpr (Array.mem_toList_iff.mp hv))]
    exact h.concat_of_mem hv
  · rw [variables_declare hv]
    exact h.concat_of_not_mem hv

theorem listsMentioned_declareAll (h : ListsMentioned mentioned s.variables.toList)
    (vs : List Variable) :
    ListsMentioned (mentioned ++ vs) (s.declareAll vs).variables.toList := by
  induction vs generalizing s mentioned with
  | nil => rwa [List.append_nil]
  | cons v vs ih =>
      have htail := ih (listsMentioned_declare h v)
      rwa [List.append_assoc] at htail

theorem contains_iff_mem_toList : s.contains v = true ↔ v ∈ s.variables.toList := by
  rw [contains_iff, Array.mem_toList_iff]

end Scope

/-! ## Adding clauses -/

namespace Formula

variable {f g : Formula} {c : Clause} {cs : List Clause}

/-- A formula adopts the clauses that it takes. -/
theorem addClause_eq_none_iff :
    f.addClause c = (g, none) ↔ (f.closed = true → f.scope.Covers c) ∧ g = f.adopt c := by
  unfold addClause
  cases hclosed : f.closed with
  | false =>
      rw [if_neg Bool.false_ne_true, Prod.mk.injEq, and_iff_left rfl, eq_comm]
      exact (and_iff_right fun h => absurd h Bool.false_ne_true).symm
  | true =>
      rw [if_pos rfl]
      split
      next l hfind =>
        refine iff_of_false (fun h => by cases h) ?_
        rintro ⟨hcovers, _⟩
        obtain ⟨hunknown, before, after, hsplit, _⟩ := List.find?_eq_some_iff_append.mp hfind
        have hl : l ∈ c.literals := by
          rw [hsplit]
          exact List.mem_append_right before List.mem_cons_self
        have hknown : f.contains l.var = true := hcovers rfl l hl
        rw [hknown] at hunknown
        contradiction
      next hfind =>
        have hcovers := covers_of_find?_eq_none hfind
        have hscope : f.scope.declareAll (c.literals.map Literal.var) = f.scope :=
          Scope.declareAll_of_contains (List.forall_mem_map.mpr hcovers)
        rw [Prod.mk.injEq, and_iff_left rfl, and_iff_right fun _ => hcovers, eq_comm]
        refine Eq.congr_right ?_
        exact ext_parts hscope.symm hclosed.symm rfl

/-- A formula that refuses a clause is left as it was.  The reason is the first literal that is not
known. -/
theorem addClause_eq_some_iff {e : FormulaError} :
    f.addClause c = (g, some e) ↔ g = f ∧ f.closed = true ∧ ∃ before l after,
      c.literals = before ++ l :: after ∧ (∀ m ∈ before, f.contains m.var = true) ∧
      f.contains l.var = false ∧ e = .unknownVariable l := by
  have hfind : ∀ l, (c.literals.find? fun m => !f.contains m.var) = some l ↔
      ∃ before after, c.literals = before ++ l :: after ∧
        (∀ m ∈ before, f.contains m.var = true) ∧ f.contains l.var = false := by
    intro l
    rw [List.find?_eq_some_iff_append]
    simp only [Bool.not_eq_true', Bool.not_not]
    constructor
    · rintro ⟨hl, before, after, hsplit, hbefore⟩
      exact ⟨before, after, hsplit, hbefore, hl⟩
    · rintro ⟨before, after, hsplit, hbefore, hl⟩
      exact ⟨hl, before, after, hsplit, hbefore⟩
  unfold addClause
  cases hclosed : f.closed with
  | false => simp
  | true =>
      rw [if_pos rfl]
      split
      next l hl =>
        rw [Prod.mk.injEq, Option.some.injEq]
        constructor
        · rintro ⟨rfl, rfl⟩
          obtain ⟨before, after, hrest⟩ := (hfind l).mp hl
          exact ⟨rfl, rfl, before, l, after, hrest.1, hrest.2.1, hrest.2.2, rfl⟩
        · rintro ⟨rfl, _, before, m, after, hsplit, hbefore, hm, rfl⟩
          have hsame := (hfind m).mpr ⟨before, after, hsplit, hbefore, hm⟩
          rw [hl] at hsame
          exact ⟨rfl, congrArg _ (Option.some.inj hsame)⟩
      next hnone =>
        refine iff_of_false (fun h => by cases h) ?_
        rintro ⟨_, _, before, m, after, hsplit, hbefore, hm, _⟩
        rw [(hfind m).mpr ⟨before, after, hsplit, hbefore, hm⟩] at hnone
        contradiction

theorem exists_addClause_eq_some_iff (hclosed : f.closed = true) :
    (∃ g e, f.addClause c = (g, some e)) ↔ ∃ l ∈ c.literals, f.contains l.var = false := by
  constructor
  · rintro ⟨g, e, he⟩
    obtain ⟨_, _, before, l, after, hsplit, _, hl, _⟩ := addClause_eq_some_iff.mp he
    refine ⟨l, ?_, hl⟩
    rw [hsplit]
    exact List.mem_append_right before List.mem_cons_self
  · rintro ⟨l, hl, hunknown⟩
    rcases hadd : f.addClause c with ⟨g, _ | e⟩
    · have hknown : f.contains l.var = true := (addClause_eq_none_iff.mp hadd).1 hclosed l hl
      rw [hunknown] at hknown
      contradiction
    · exact ⟨g, e, rfl⟩

/-- The formula takes the clauses one after the other and is `g` then. -/
def Takes (f : Formula) : List Clause → Formula → Prop
  | [], g => g = f
  | c :: cs, g => ∃ mid, f.addClause c = (mid, none) ∧ mid.Takes cs g

/-- The clauses before the first refused one. -/
def accepted (f : Formula) : List Clause → List Clause
  | [] => []
  | c :: cs =>
    match f.addClause c with
    | (_, some _) => []
    | (g, none) => c :: g.accepted cs

/-- Extending a formula adds the clauses before the first refused one. -/
theorem extend_accepted (f : Formula) (cs : List Clause) :
    ∃ rest, cs = f.accepted cs ++ rest ∧ f.Takes (f.accepted cs) (f.extend cs).1 ∧
      (rest = [] ∧ (f.extend cs).2 = none ∨
        ∃ c others e, rest = c :: others ∧
          (f.extend cs).1.addClause c = ((f.extend cs).1, some e) ∧
          (f.extend cs).2 = some e) := by
  induction cs generalizing f with
  | nil => exact ⟨[], rfl, rfl, Or.inl ⟨rfl, rfl⟩⟩
  | cons c cs ih =>
      unfold accepted extend
      rcases hadd : f.addClause c with ⟨g, _ | e⟩
      · obtain ⟨rest, hsplit, htakes, hend⟩ := ih g
        exact ⟨rest, congrArg (c :: ·) hsplit, ⟨g, hadd, htakes⟩, hend⟩
      · obtain ⟨rfl, _⟩ := addClause_eq_some_iff.mp hadd
        exact ⟨c :: cs, rfl, rfl, Or.inr ⟨c, cs, e, rfl, hadd, rfl⟩⟩

theorem Takes.closed_eq (h : f.Takes cs g) : g.closed = f.closed := by
  induction cs generalizing f with
  | nil => rw [h]
  | cons c cs ih =>
      obtain ⟨mid, hadd, hrest⟩ := h
      obtain ⟨_, rfl⟩ := addClause_eq_none_iff.mp hadd
      have hclosed : g.closed = (f.adopt c).closed := ih hrest
      exact hclosed

theorem closed_extend (f : Formula) (cs : List Clause) : (f.extend cs).1.closed = f.closed := by
  obtain ⟨_, _, htakes, _⟩ := f.extend_accepted cs
  exact htakes.closed_eq

theorem addClause_of_open (hopen : f.closed = false) (c : Clause) :
    f.addClause c = (f.adopt c, none) := by
  refine addClause_eq_none_iff.mpr ⟨fun hclosed => ?_, rfl⟩
  rw [hopen] at hclosed
  contradiction

theorem extend_of_open (hopen : f.closed = false) (cs : List Clause) :
    f.extend cs = (cs.foldl adopt f, none) := by
  induction cs generalizing f with
  | nil => rfl
  | cons c cs ih =>
      have hadopted : (f.adopt c).closed = false := hopen
      unfold extend
      rw [addClause_of_open hopen]
      exact ih hadopted

theorem extend_empty (cs : List Clause) : empty.extend cs = (.ofClauses cs, none) :=
  extend_of_open rfl cs

end Formula

/-! ## Accounts -/

/-- What a history contributes to its formula. -/
inductive Contribution where
  | declaration (v : Variable)
  | clause (c : Clause)

namespace Contribution

def mentioned : Contribution → List Variable
  | declaration v => [v]
  | clause c => c.literals.map Literal.var

def clause? : Contribution → Option Clause
  | declaration _ => none
  | clause c => some c

end Contribution

/-- The formula consists of what is accounted for. -/
structure Formula.Accounts (f : Formula) (account : List Contribution) : Prop where
  scope : ListsMentioned (account.flatMap Contribution.mentioned) f.scope.variables.toList
  clauses : f.clauses.toList = account.filterMap Contribution.clause?

namespace Formula.Accounts

variable {f g : Formula} {account : List Contribution}

theorem empty : Formula.empty.Accounts [] :=
  ⟨⟨List.nodup_nil, fun _ => Iff.rfl, List.Pairwise.nil⟩, rfl⟩

theorem declare (h : f.Accounts account) (v : Variable) :
    (f.declare v).2.Accounts (account ++ [.declaration v]) where
  scope := by
    rw [List.flatMap_append]
    exact Scope.listsMentioned_declare h.scope v
  clauses := by
    rw [List.filterMap_append]
    exact h.clauses.trans (List.append_nil _).symm

theorem adopt (h : f.Accounts account) (c : Clause) :
    (f.adopt c).Accounts (account ++ [.clause c]) where
  scope := by
    rw [List.flatMap_append, List.flatMap_singleton]
    exact Scope.listsMentioned_declareAll h.scope _
  clauses := by
    rw [List.filterMap_append, ← h.clauses]
    exact Array.toList_push

theorem takes (h : f.Accounts account) {cs : List Clause} (htakes : f.Takes cs g) :
    g.Accounts (account ++ cs.map .clause) := by
  induction cs generalizing f account with
  | nil =>
      cases htakes
      rwa [List.map_nil, List.append_nil]
  | cons c cs ih =>
      obtain ⟨mid, hadd, hrest⟩ := htakes
      obtain ⟨_, rfl⟩ := Formula.addClause_eq_none_iff.mp hadd
      have htail := ih (h.adopt c) hrest
      rwa [List.append_assoc] at htail

theorem extend (h : f.Accounts account) (cs : List Clause) :
    (f.extend cs).1.Accounts (account ++ (f.accepted cs).map .clause) := by
  obtain ⟨_, _, htakes, _⟩ := f.extend_accepted cs
  exact h.takes htakes

end Formula.Accounts

/-! ## Histories -/

/-- How a formula begins. -/
inductive FormulaOrigin where
  | empty
  | withVariables (vs : List Variable)
  | ofClauses (cs : List Clause)

namespace FormulaOrigin

def formula : FormulaOrigin → Formula
  | empty => .empty
  | withVariables vs => .withVariables vs
  | ofClauses cs => .ofClauses cs

def contributions : FormulaOrigin → List Contribution
  | empty => []
  | withVariables vs => vs.map .declaration
  | ofClauses cs => cs.map .clause

theorem accounts (origin : FormulaOrigin) : origin.formula.Accounts origin.contributions := by
  cases origin with
  | empty => exact .empty
  | withVariables vs =>
      have hnone : ListsMentioned [] ({} : Scope).variables.toList := Formula.Accounts.empty.scope
      have hscope := Scope.listsMentioned_declareAll hnone vs
      refine ⟨?_, ?_⟩
      · have hmentioned :
            (vs.map Contribution.declaration).flatMap Contribution.mentioned = vs := by
          rw [List.flatMap_map]
          exact List.flatMap_singleton' vs
        exact hmentioned.symm ▸ hscope
      · have hclauses : (vs.map Contribution.declaration).filterMap Contribution.clause? = [] := by
          rw [List.filterMap_map]
          exact List.filterMap_none vs
        exact hclauses.symm
  | ofClauses cs =>
      obtain ⟨rest, hsplit, htakes, hend⟩ := Formula.empty.extend_accepted cs
      rw [Formula.extend_empty] at htakes hend
      obtain ⟨rfl, _⟩ | ⟨_, _, _, _, _, hrefused⟩ := hend
      · rw [List.append_nil] at hsplit
        rw [← hsplit] at htakes
        exact Formula.Accounts.empty.takes htakes
      · contradiction

end FormulaOrigin

/-- The calls by which a formula grows. -/
inductive FormulaCall where
  | declare (v : Variable)
  | addClause (c : Clause)
  | extend (cs : List Clause)

namespace FormulaCall

/-- The formula after a call, and the reason if it was refused. -/
def perform (f : Formula) : FormulaCall → Formula × Option FormulaError
  | declare v => ((f.declare v).2, none)
  | addClause c => f.addClause c
  | extend cs => f.extend cs

def contributions (f : Formula) : FormulaCall → List Contribution
  | declare v => [.declaration v]
  | addClause c => (f.accepted [c]).map .clause
  | extend cs => (f.accepted cs).map .clause

def performAll (f : Formula) : List FormulaCall → Formula
  | [] => f
  | call :: calls => performAll (call.perform f).1 calls

def contributionsOfAll (f : Formula) : List FormulaCall → List Contribution
  | [] => []
  | call :: calls => call.contributions f ++ contributionsOfAll (call.perform f).1 calls

variable {f : Formula} {account : List Contribution}

theorem perform_addClause (f : Formula) (c : Clause) :
    (addClause c).perform f = f.extend [c] := by
  rcases hadd : f.addClause c with ⟨g, _ | e⟩ <;> simp only [perform, Formula.extend, hadd]

theorem accounts_perform (h : f.Accounts account) (call : FormulaCall) :
    (call.perform f).1.Accounts (account ++ call.contributions f) := by
  cases call with
  | declare v => exact h.declare v
  | addClause c =>
      rw [perform_addClause]
      exact h.extend [c]
  | extend cs => exact h.extend cs

theorem accounts_performAll (h : f.Accounts account) (calls : List FormulaCall) :
    (performAll f calls).Accounts (account ++ contributionsOfAll f calls) := by
  induction calls generalizing f account with
  | nil => rwa [contributionsOfAll, List.append_nil]
  | cons call calls ih =>
      rw [performAll, contributionsOfAll, ← List.append_assoc]
      exact ih (accounts_perform h call)

theorem closed_perform (f : Formula) (call : FormulaCall) :
    (call.perform f).1.closed = f.closed := by
  cases call with
  | declare v => rfl
  | addClause c =>
      rw [perform_addClause]
      exact f.closed_extend [c]
  | extend cs => exact f.closed_extend cs

theorem closed_performAll (f : Formula) (calls : List FormulaCall) :
    (performAll f calls).closed = f.closed := by
  induction calls generalizing f with
  | nil => rfl
  | cons call calls ih =>
      rw [performAll, ih, closed_perform]

end FormulaCall

open FormulaCall

/-- Whatever its history, a formula has the clauses that were accepted, and its scope lists what was
declared and what these clauses mention, by first mention.  A variable is new if it is not listed.
An open formula takes every clause.  A closed one refuses those that mention a variable outside of
its scope, names the first literal with such a variable, and is left as it was.  Extending adds the
clauses before the first refused one, and collecting clauses is extending the empty formula. -/
theorem formula_accounted (origin : FormulaOrigin) (calls : List FormulaCall) :
    let f := performAll origin.formula calls
    let account := origin.contributions ++ contributionsOfAll origin.formula calls
    let listed := f.scope.variables.toList
    ListsMentioned (account.flatMap Contribution.mentioned) listed ∧
      (∀ v, f.contains v = true ↔ v ∈ listed) ∧
      f.clauses.toList = account.filterMap Contribution.clause? ∧
      (∀ c ∈ f.clauses, ∀ l ∈ c.literals, l.var ∈ listed) ∧
      f.closed = origin.formula.closed ∧
      (f.closed = false → (∀ c, ∃ g, f.addClause c = (g, none)) ∧ ∀ cs, (f.extend cs).2 = none) ∧
      (f.closed = true → ∀ c,
        (∃ g e, f.addClause c = (g, some e)) ↔ ∃ l ∈ c.literals, l.var ∉ listed) ∧
      (∀ c g e, f.addClause c = (g, some e) →
        g = f ∧ ∃ before l after, c.literals = before ++ l :: after ∧
          (∀ m ∈ before, m.var ∈ listed) ∧ l.var ∉ listed ∧ e = .unknownVariable l) ∧
      (∀ cs, ∃ rest, cs = f.accepted cs ++ rest ∧ f.Takes (f.accepted cs) (f.extend cs).1 ∧
        (rest = [] ∧ (f.extend cs).2 = none ∨ ∃ c others e, rest = c :: others ∧
          (f.extend cs).1.addClause c = ((f.extend cs).1, some e) ∧ (f.extend cs).2 = some e)) ∧
      (∀ cs, Formula.empty.extend cs = (.ofClauses cs, none)) ∧
      ∀ v, (f.declare v).1 = true ↔ v ∉ listed := by
  intro f account listed
  have haccounts : f.Accounts account := accounts_performAll origin.accounts calls
  have hlisted : ∀ v, f.contains v = true ↔ v ∈ listed := fun _ => Scope.contains_iff_mem_toList
  have hunlisted : ∀ v, f.contains v = false ↔ v ∉ listed := by
    intro v
    rw [← hlisted, Bool.not_eq_true]
  refine ⟨haccounts.scope, hlisted, haccounts.clauses, ?_, closed_performAll _ calls, ?_, ?_, ?_,
    f.extend_accepted, Formula.extend_empty, fun v => Scope.declare_new_iff.trans (hunlisted v)⟩
  · intro c hc l hl
    exact (hlisted l.var).mp (f.covered c hc l hl)
  · intro hopen
    refine ⟨fun c => ⟨f.adopt c, Formula.addClause_of_open hopen c⟩, fun cs => ?_⟩
    rw [Formula.extend_of_open hopen]
  · intro hclosed c
    rw [Formula.exists_addClause_eq_some_iff hclosed]
    simp only [hunlisted]
  · intro c g e he
    obtain ⟨rfl, _, before, l, after, hsplit, hbefore, hl, rfl⟩ :=
      Formula.addClause_eq_some_iff.mp he
    exact ⟨rfl, before, l, after, hsplit, fun m hm => (hlisted m.var).mp (hbefore m hm),
      (hunlisted l.var).mp hl, rfl⟩

theorem formula_accounted_of_refused_clause :
    let c : Clause := ⟨[⟨⟨2⟩, false⟩, ⟨⟨7⟩, true⟩, ⟨⟨1⟩, true⟩, ⟨⟨8⟩, true⟩]⟩
    let d : Clause := ⟨[⟨⟨5⟩, true⟩, ⟨⟨2⟩, true⟩]⟩
    let f := performAll (.withVariables [⟨2⟩, ⟨1⟩, ⟨2⟩])
      [.declare ⟨5⟩, .extend [d, c, ⟨[]⟩], .declare ⟨1⟩]
    ListsMentioned [⟨2⟩, ⟨1⟩, ⟨2⟩, ⟨5⟩, ⟨5⟩, ⟨2⟩, ⟨1⟩] f.scope.variables.toList ∧
      f.clauses.toList = [d] ∧ (∃ e, (addClause c).perform f = (f, some e)) ∧
      ∃ rest, [d, c, d] = f.accepted [d, c, d] ++ rest ∧
        f.Takes (f.accepted [d, c, d]) (f.extend [d, c, d]).1 := by
  intro c d f
  obtain ⟨hlists, _, hclauses, _, _, _, hrefuses, hrefused, hextend, _⟩ :=
    formula_accounted (.withVariables [⟨2⟩, ⟨1⟩, ⟨2⟩])
      [.declare ⟨5⟩, .extend [d, c, ⟨[]⟩], .declare ⟨1⟩]
  obtain ⟨g, e, he⟩ := (hrefuses rfl c).mpr ⟨⟨⟨7⟩, true⟩, by decide, by decide⟩
  obtain ⟨rfl, _⟩ := hrefused c g e he
  obtain ⟨rest, hsplit, htakes, _⟩ := hextend [d, c, d]
  exact ⟨hlists, hclauses, ⟨e, he⟩, rest, hsplit, htakes⟩

end SatSearch
