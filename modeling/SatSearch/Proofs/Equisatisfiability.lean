import SatSearch.Proofs.Assumptions
import SatSearch.Proofs.Success

/-!
# Simplification and satisfiability

Simplification extends the working binding, and the longer binding is extended by a model if and
only if the shorter one is.  A forced literal holds in every model that extends the binding, so such
a model needs no change; a model that fails a pure literal is repaired by making that literal true.
The repairs of one batch after the other amount to one, by literals of the new binding.
-/

namespace SatSearch

variable {clauses : List Clause}

/-- Of two repairs in turn the later one counts first. -/
theorem Assignment.override_override (a : Assignment) (ls ms : List Literal) :
    Assignment.override (Assignment.override a ls) ms = Assignment.override a (ms ++ ls) := by
  funext v
  simp only [Assignment.override, List.find?_append]
  cases ms.find? fun l => l.var = v with
  | none => rfl
  | some l => rfl

namespace Branch

variable {b last : Branch}

/-- Simplification takes no value back. -/
theorem Of.get?_of_simplifies (h : Of clauses b) {pure : Bool} (hlast : Simplifies pure b last)
    {v : Variable} {value : Bool} (hvalue : b.binding.get? v = some value) :
    last.binding.get? v = some value := by
  have htrue : b.binding.value? ⟨v, value⟩ = some true :=
    Binding.value?_eq_some_iff.mpr (by simpa using hvalue)
  simpa using Binding.value?_eq_some_iff.mp (h.value?_of_simplifies hlast htrue)

theorem Of.extensible_iff_simplifies (h : Of clauses b) {pure : Bool}
    (hlast : Simplifies pure b last) : b.Extensible clauses ↔ last.Extensible clauses := by
  refine ⟨h.extensible_of_simplifies hlast, ?_⟩
  rintro ⟨a, hagrees, hmodels⟩
  exact ⟨a, fun v value hvalue => hagrees v value (h.get?_of_simplifies hlast hvalue), hmodels⟩

/-- A model that extends a branch survives simplification once some of the literals that are true
afterwards are made true in it. -/
theorem Of.repair_simplifies (h : Of clauses b) {pure : Bool} (hlast : Simplifies pure b last)
    {a : Assignment} (hagrees : b.binding.AgreesWith a) (hmodels : Models clauses a) :
    ∃ ls : List Literal, (∀ l ∈ ls, last.binding.value? l = some true) ∧
      last.binding.AgreesWith (Assignment.override a ls) ∧
      Models clauses (Assignment.override a ls) := by
  induction hlast generalizing a with
  | refl b => exact ⟨[], List.forall_mem_nil _, hagrees, hmodels⟩
  | @batch b mid last ls hbatch hmid hrest ih =>
      obtain ⟨chosen, hchosen, hmidAgrees, hmidModels⟩ :=
        h.repair_batch hbatch hmid hagrees hmodels
      have hof := h.of_assignAll hmid
      obtain ⟨later, hlater, hlastAgrees, hlastModels⟩ := ih hof hmidAgrees hmidModels
      rw [Assignment.override_override] at hlastAgrees hlastModels
      refine ⟨later ++ chosen, ?_, hlastAgrees, hlastModels⟩
      intro l hl
      rcases List.mem_append.mp hl with hl | hl
      · exact hlater l hl
      · have htrue : mid.binding.value? l = some true :=
          (h.value?_assignAll hmid).mpr (Or.inl (hchosen l hl))
        exact hof.value?_of_simplifies hrest htrue

end Branch

namespace Search

variable {s next : Search}

/-- Simplification that comes to rest reports a change if it has bound a remaining variable;
otherwise it has left the search as it was. -/
theorem simplifyWithin_eq_rest (h : Branch.Of clauses s.branch) {rounds : Nat}
    {changed result : Bool}
    (hrest : s.simplifyWithin changed rounds = .ok (.rest result, next)) :
    (result = changed ∧ next = s) ∨
      (result = true ∧ (remainingVariables clauses next.branch.binding).card <
        (remainingVariables clauses s.branch.binding).card) := by
  induction rounds generalizing s changed with
  | zero => cases hrest
  | succ rounds ih =>
      obtain ⟨outcome, mid, hround, houtcome⟩ := round_exists h
      rw [simplifyWithin, hround] at hrest
      cases outcome with
      | conflict => cases hrest
      | rest =>
          cases hrest
          exact Or.inl ⟨rfl, (houtcome.rest rfl).1⟩
      | progress =>
          have hfewer := houtcome.progress rfl
          have hof := h.of_simplifies houtcome.simplifies
          obtain ⟨hresult, hnext⟩ | ⟨hresult, hless⟩ := ih hof hrest
          · rw [hnext]
            exact Or.inr ⟨hresult, hfewer⟩
          · exact Or.inr ⟨hresult, hless.trans hfewer⟩

theorem simplify_changed_iff (h : Branch.Of clauses s.branch) {changed : Bool}
    (hrest : s.simplify = .ok (.rest changed, next)) :
    changed = true ↔ next.branch.binding ≠ s.branch.binding := by
  obtain ⟨hchanged, hnext⟩ | ⟨hchanged, hless⟩ := simplifyWithin_eq_rest h hrest
  · rw [hchanged, hnext]
    simp
  · refine ⟨fun _ hsame => ?_, fun _ => hchanged⟩
    rw [hsame] at hless
    exact Nat.lt_irrefl _ hless

/-- The total assignment satisfies the formula and extends both bindings. -/
structure Completes (f : Formula) (starting working : Binding) (a : Assignment) : Prop where
  formula : f.holds a = true
  starting : starting.AgreesWith a
  working : working.AgreesWith a

theorem completes_iff {f : Formula} {starting working : Binding} {a : Assignment} :
    Completes f starting working a ↔
      working.AgreesWith a ∧ Models (startingClauses f starting) a := by
  rw [models_startingClauses_iff]
  constructor
  · intro h
    exact ⟨h.working, h.starting, h.formula⟩
  · rintro ⟨hworking, hstarting, hformula⟩
    exact ⟨hformula, hstarting, hworking⟩

/-- On every reachable search simplification ends.  It ends in a conflict only if no model extends
the working binding.  At rest it has extended the working binding; every model that extended the old
one extends the new one after some of its literals are made true, so there is one for the new
binding if and only if there was one for the old; and it reports a change if and only if the binding
is another one. -/
theorem reachable_simplify_equisatisfiable {f : Formula} {starting : Binding}
    {config : SearchConfig} {cancellation : Cancellation} {s₀ s : Search}
    (hprepare : prepare f starting config cancellation = .ok s₀) (hs : Reachable s₀ s) :
    ∃ result next, s.simplify = .ok (result, next) ∧
      (result = .conflict → ¬∃ a, Completes f starting s.branch.binding a) ∧
      ∀ changed, result = .rest changed →
        (∀ v value, s.branch.binding.get? v = some value →
          next.branch.binding.get? v = some value) ∧
        (∀ a, Completes f starting s.branch.binding a →
          ∃ ls : List Literal, (∀ l ∈ ls, next.branch.binding.value? l = some true) ∧
            Completes f starting next.branch.binding (Assignment.override a ls)) ∧
        ((∃ a, Completes f starting s.branch.binding a) ↔
          ∃ a, Completes f starting next.branch.binding a) ∧
        (changed = true ↔ next.branch.binding ≠ s.branch.binding) := by
  have hof := hs.of (Branch.Of.of_eq_root (of_prepare hprepare))
  obtain ⟨result, next, hnext, houtcome⟩ := simplify_exists hof
  have hsimplifies := houtcome.simplifies
  simp only [completes_iff]
  refine ⟨result, next, hnext, ?_, ?_⟩
  · intro hresult hextensible
    exact (hof.of_simplifies hsimplifies).not_extensible (houtcome.conflict hresult)
      (hof.extensible_of_simplifies hsimplifies hextensible)
  · rintro changed rfl
    refine ⟨fun v value => hof.get?_of_simplifies hsimplifies, ?_,
      hof.extensible_iff_simplifies hsimplifies, simplify_changed_iff hof hnext⟩
    rintro a ⟨hagrees, hmodels⟩
    exact hof.repair_simplifies hsimplifies hagrees hmodels

theorem reachable_simplify_equisatisfiable_after_decision :
    let f := Formula.ofClauses [⟨[⟨⟨1⟩, true⟩, ⟨⟨2⟩, true⟩]⟩, ⟨[⟨⟨1⟩, true⟩, ⟨⟨3⟩, true⟩]⟩,
      ⟨[⟨⟨3⟩, false⟩, ⟨⟨2⟩, false⟩, ⟨⟨4⟩, true⟩]⟩]
    let a : Assignment := fun v => v.id != 1
    ∃ s next, (start f .empty {} .never).perform (.decide ⟨⟨4⟩, true⟩ false) = .ok s ∧
      Completes f .empty s.branch.binding a ∧ s.simplify = .ok (.rest true, next) ∧
      next.branch.binding ≠ s.branch.binding ∧
      ∃ ls : List Literal, (∀ l ∈ ls, next.branch.binding.value? l = some true) ∧
        Completes f .empty next.branch.binding (Assignment.override a ls) := by
  intro f a
  have hprepare : prepare f .empty {} .never = .ok (start f .empty {} .never) := rfl
  have hallowed : (Call.decide ⟨⟨4⟩, true⟩ false).Allowed (start f .empty {} .never) := rfl
  have hof := Branch.Of.of_eq_root (of_prepare hprepare)
  obtain ⟨s, hs, _⟩ := perform_exists hof hallowed
  have hliterals : ((start f .empty {} .never).perform (.decide ⟨⟨4⟩, true⟩ false)).map
      (fun s => s.branch.binding.literals) = .ok [⟨⟨4⟩, true⟩] := by decide
  have hresult : ((start f .empty {} .never).perform (.decide ⟨⟨4⟩, true⟩ false)).bind
      (fun s => s.simplify.map Prod.fst) = .ok (.rest true) := by decide
  rw [hs] at hliterals hresult
  have hsingle : s.branch.binding.literals = [⟨⟨4⟩, true⟩] := Except.ok.inj hliterals
  have hworking : s.branch.binding.AgreesWith a := by
    rw [Binding.agreesWith_iff]
    intro l hl
    have hmem := Binding.mem_literals.mpr hl
    rw [hsingle, List.mem_singleton] at hmem
    rw [hmem]
    rfl
  have ha : Completes f .empty s.branch.binding a :=
    ⟨by decide, fun v value hvalue => by simp [Binding.get?, Binding.empty] at hvalue, hworking⟩
  obtain ⟨result, next, hnext, _, hrest⟩ :=
    reachable_simplify_equisatisfiable hprepare (.perform _ .start hallowed hs)
  obtain rfl : result = .rest true := by
    simpa [hnext, Except.bind, Except.map] using hresult
  obtain ⟨_, hrepair, _, hchanged⟩ := hrest true rfl
  exact ⟨s, next, hs, ha, hnext, hchanged.mp rfl, hrepair a ha⟩

end Search

end SatSearch
