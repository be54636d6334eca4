import Std.Data.TreeMap
import SatSearch.Proofs.Course
import SatSearch.Proofs.Solver

/-!
# The greatest model

Without pure literal elimination, every literal that was not chosen freely is entailed by the ones
before it, and a free choice makes the least remaining variable true.  So a model that leaves the
branch does so at a free choice, which the branch makes true and the model false; every variable
that is bound later is greater.  The binding that the search returns is therefore the greatest one
on the variables it binds, with true before false and small variables first.
-/

namespace SatSearch

variable {clauses : List Clause}

theorem Forced.assign {b : Binding} {l k : Literal} (h : Forced clauses b l)
    (hk : b.binds k.var = false) (hvar : k.var ≠ l.var) : Forced clauses (b.assign k) l := by
  obtain ⟨c, hc, hopen, hl, honly⟩ := h
  -- no literal over the variable of `k` stands in the clause
  have hother : ∀ m ∈ c.literals, k.var ≠ m.var := by
    intro m hm heq
    have hunbound : b.binds m.var = false := heq ▸ hk
    rw [(honly m hm).mp hunbound] at heq
    exact hvar heq
  refine ⟨c, hc, ?_, hl, ?_⟩
  · intro m hm htrue
    rcases (Binding.value?_assign_eq_true_iff hk).mp htrue with rfl | hold
    · exact hother m hm rfl
    · exact hopen m hm hold
  · intro m hm
    have hbinds : (b.assign k).binds m.var = true ↔ b.binds m.var = true := by
      rw [Binding.binds_assign]
      exact or_iff_right (hother m hm)
    rw [← honly m hm, ← Bool.not_eq_true, ← Bool.not_eq_true, hbinds]

namespace Branch

variable {b before next last : Branch}

/-! ## Guided branches -/

/-- What is known of a literal that is made true on a branch: it concerns a remaining variable, the
least one if it is decided, positively at first; and unless it is chosen freely it holds in every
model that extends the branch. -/
structure Guides (clauses : List Clause) (b : Branch) (l : Literal) (cause : Cause) : Prop where
  remains : l.var ∈ remainingVariables clauses b.binding
  least : cause.isDecision = true →
    ∀ v ∈ remainingVariables clauses b.binding, l.var.id ≤ v.id
  positive : cause = .decision false → l.positive = true
  entailed : cause ≠ .decision false →
    ∀ a, Models clauses a → b.binding.AgreesWith a → l.holds a = true

/-- The branches on which every literal was known that much about when it was made true. -/
inductive Guided (clauses : List Clause) : Branch → Prop
  | root : Guided clauses (root clauses)
  | assign {b next : Branch} {l : Literal} {cause : Cause} (hb : Guided clauses b)
      (hguides : Guides clauses b l cause) (hnext : b.assign l cause = .ok next) :
      Guided clauses next

theorem Guided.of (h : Guided clauses b) : Of clauses b := by
  induction h with
  | root => exact .root
  | assign _ _ hnext ih => exact ih.assign hnext

theorem Guides.of_forced {l : Literal} (h : Forced clauses b.binding l) :
    Guides clauses b l .inference where
  remains := mem_remainingVariables.mpr ⟨l, rfl, h.remains⟩
  least := fun hdecision => absurd hdecision Bool.false_ne_true
  positive := Cause.noConfusion
  entailed := fun _ _ hmodels hagrees => h.holds hagrees hmodels

theorem Guided.assignAll (h : Guided clauses b) {ls : List Literal}
    (hnodup : (ls.map Literal.var).Nodup) (hforced : ∀ l ∈ ls, Forced clauses b.binding l)
    (hlast : b.assignAll ls .inference = .ok last) : Guided clauses last := by
  rw [assignAll_eq_assignEach] at hlast
  induction ls generalizing b with
  | nil =>
      cases hlast
      exact h
  | cons l ls ih =>
      obtain ⟨hnew, hrest⟩ := List.nodup_cons.mp hnodup
      obtain ⟨next, hnext, htail⟩ := assignEach_cons_eq_ok hlast
      have hguides := Guides.of_forced (hforced l List.mem_cons_self)
      obtain ⟨_, hbinding, _⟩ := h.of.assign_eq_ok hnext
      apply ih (h.assign hguides hnext) hrest ?_ htail
      intro m hm
      rw [hbinding]
      apply (hforced m (List.mem_cons_of_mem l hm)).assign (Branch.assign_eq_ok hnext)
      intro hvar
      exact hnew (hvar ▸ List.mem_map_of_mem hm)

theorem Guided.of_simplifies (h : Guided clauses b) (hlast : Simplifies false b last) :
    Guided clauses last := by
  induction hlast with
  | refl => exact h
  | batch hbatch hmid _ ih =>
      obtain hunits | ⟨hpure, _⟩ := hbatch
      · obtain ⟨hnodup, hforced, _⟩ := h.of.unitLiterals_eq_some hunits
        exact ih (h.assignAll hnodup (fun l hl => (hforced l).mp hl) hmid)
      · exact absurd hpure Bool.false_ne_true

/-- Below the newest free choice the branch was guided, and a model that agrees with it up to and
including that choice agrees with all of it. -/
theorem Guided.at_choice (h : Guided clauses b) (hbefore : Of clauses before)
    {newer : List TrailEntry} {e : TrailEntry}
    (htrail : b.trail.entries = newer ++ e :: before.trail.entries) (hsettled : Settled newer) :
    Guided clauses before ∧ Guides clauses before e.literal e.cause ∧
      ∀ a, Models clauses a → before.binding.AgreesWith a → e.literal.holds a = true →
        b.binding.AgreesWith a := by
  induction h generalizing newer with
  | root => simp [Branch.root] at htrail
  | @assign mid next l cause hmid hguides hnext ih =>
      obtain ⟨d, hbinding, hd, rfl, rfl, _⟩ := hmid.of.assign_eq_ok hnext
      rw [hbinding]
      simp only [Binding.agreesWith_assign_iff (Branch.assign_eq_ok hnext)]
      rw [hd] at htrail
      cases newer with
      | nil =>
          obtain ⟨rfl, hentries⟩ := List.cons.inj htrail
          obtain rfl : mid = before := by
            apply hmid.of.eq_of_steps hbefore
            unfold steps
            rw [hentries]
          exact ⟨hmid, hguides, fun a _ hagrees hholds => ⟨hagrees, hholds⟩⟩
      | cons x newer =>
          obtain ⟨rfl, hrest⟩ := List.cons.inj htrail
          obtain ⟨hguided, hbelow, hall⟩ :=
            ih hrest fun y hy => hsettled y (List.mem_cons_of_mem d hy)
          refine ⟨hguided, hbelow, ?_⟩
          intro a hmodels hagrees hholds
          have hmidAgrees := hall a hmodels hagrees hholds
          exact ⟨hmidAgrees,
            hguides.entailed (hsettled d List.mem_cons_self) a hmodels hmidAgrees⟩

theorem Guided.of_turn (h : Guided clauses b) {l : Literal} {flipped : Bool}
    (hturn : Search.Turn clauses b before l flipped)
    (hnext : before.assign l (.decision flipped) = .ok next) : Guided clauses next := by
  cases hturn with
  | descend hv =>
      obtain ⟨hremains, hleast⟩ := h.of.nextVariable?_eq_some hv
      refine h.assign ⟨mem_remainingVariables.mpr hremains, ?_, fun _ => rfl,
        fun hfree => absurd rfl hfree⟩ hnext
      intro _ w hw
      obtain ⟨m, rfl, hm⟩ := mem_remainingVariables.mp hw
      exact hleast m hm
  | @flip newer e before hconflict htrail hsettled hcause hbefore =>
      obtain ⟨hguided, hbelow, hall⟩ := h.at_choice hbefore htrail hsettled
      -- no model makes the first choice, since everything above it is entailed
      have hentailed : ∀ a, Models clauses a → before.binding.AgreesWith a →
          (-e.literal).holds a = true := by
        intro a hmodels hagrees
        rw [Literal.holds_neg, Bool.not_eq_true', ← Bool.not_eq_true]
        intro hholds
        exact h.of.not_extensible hconflict ⟨a, hall a hmodels hagrees hholds, hmodels⟩
      have hguides : Guides clauses before (-e.literal) (.decision true) :=
        ⟨hbelow.remains, fun _ => hbelow.least (by rw [hcause]; rfl), by simp,
          fun _ => hentailed⟩
      exact hguided.assign hguides hnext

/-! ## Models that leave a branch -/

/-- The branch makes the variable true and the assignment makes it false; they agree on smaller
variables, and no remaining variable is smaller. -/
structure LeavesAt (clauses : List Clause) (b : Branch) (a : Assignment) (v : Variable) : Prop where
  chosen : b.binding.get? v = some true
  refused : a v = false
  smaller : ∀ w value, w.id < v.id → b.binding.get? w = some value → a w = value
  greater : ∀ w ∈ remainingVariables clauses b.binding, v.id ≤ w.id

variable {a : Assignment} {l : Literal} {cause : Cause}

theorem Of.get?_assign (h : Of clauses b) (hnext : b.assign l cause = .ok next) (v : Variable) :
    next.binding.get? v = if l.var = v then some l.positive else b.binding.get? v := by
  obtain ⟨_, hbinding, _⟩ := h.assign_eq_ok hnext
  rw [hbinding, Binding.assign, Binding.get?_set]
  simp

/-- A model that agreed so far leaves the branch at a free choice that it does not make. -/
theorem Guides.leavesAt (hguides : Guides clauses b l (.decision false)) (h : Of clauses b)
    (hnext : b.assign l (.decision false) = .ok next) (hagrees : b.binding.AgreesWith a)
    (hholds : l.holds a = false) : LeavesAt clauses next a l.var := by
  have hpositive := hguides.positive rfl
  have hsubset := h.remainingVariables_subset (assignEach_singleton hnext)
  refine ⟨?_, ?_, ?_, fun w hw => hguides.least rfl w (hsubset hw)⟩
  · rw [h.get?_assign hnext, if_pos rfl, hpositive]
  · simpa [Literal.holds, hpositive] using hholds
  · intro w value hlt hw
    have hne : l.var ≠ w := by
      rintro rfl
      exact Nat.lt_irrefl _ hlt
    rw [h.get?_assign hnext, if_neg hne] at hw
    exact hagrees w value hw

/-- An assignment that has left the branch does not come back: a variable that is bound later
remained when it left. -/
theorem LeavesAt.assign {v : Variable} (hleaves : LeavesAt clauses b a v) (h : Of clauses b)
    (hguides : Guides clauses b l cause) (hnext : b.assign l cause = .ok next) :
    LeavesAt clauses next a v := by
  have hle := hleaves.greater l.var hguides.remains
  have hunbound := Branch.assign_eq_ok hnext
  have hsubset := h.remainingVariables_subset (assignEach_singleton hnext)
  refine ⟨?_, hleaves.refused, ?_, fun w hw => hleaves.greater w (hsubset hw)⟩
  · have hne : l.var ≠ v := by
      rintro rfl
      rw [Binding.binds_iff.mpr ⟨true, hleaves.chosen⟩] at hunbound
      contradiction
    rw [h.get?_assign hnext, if_neg hne, hleaves.chosen]
  · intro w value hlt hw
    have hne : l.var ≠ w := by
      rintro rfl
      omega
    rw [h.get?_assign hnext, if_neg hne] at hw
    exact hleaves.smaller w value hlt hw

theorem Guided.agrees_or_leaves (h : Guided clauses b) (hmodels : Models clauses a) :
    b.binding.AgreesWith a ∨ ∃ v, LeavesAt clauses b a v := by
  induction h with
  | root =>
      left
      intro v value hv
      simp [Branch.root, Binding.get?, Binding.empty] at hv
  | @assign b next l cause hb hguides hnext ih =>
      obtain hagrees | ⟨v, hleaves⟩ := ih
      · cases hholds : l.holds a with
        | true =>
            obtain ⟨_, hbinding, _⟩ := hb.of.assign_eq_ok hnext
            left
            rw [hbinding, Binding.agreesWith_assign_iff (Branch.assign_eq_ok hnext)]
            exact ⟨hagrees, hholds⟩
        | false =>
            obtain rfl : cause = .decision false := by
              by_contra hne
              rw [hguides.entailed hne a hmodels hagrees] at hholds
              contradiction
            exact Or.inr ⟨l.var, hguides.leavesAt hb.of hnext hagrees hholds⟩
      · exact Or.inr ⟨v, hleaves.assign hb.of hguides hnext⟩

end Branch

namespace Search

variable {s last final : Search}

/-! ## Guided searches -/

theorem guided_of_step {next : Search} (hpure : s.config.pureLiteralElimination = false)
    (h : Branch.Guided clauses s.branch) (hstep : s.step = .ok (.continues next)) :
    Branch.Guided clauses next.branch := by
  obtain ⟨_, _, b, before, l, flipped, hsimplifies, hturn, hassign⟩ :=
    step_eq_continues h.of hstep
  rw [hpure] at hsimplifies
  exact (h.of_simplifies hsimplifies).of_turn hturn hassign

theorem Runs.guided {n : Nat} (hruns : Runs s n last)
    (hpure : s.config.pureLiteralElimination = false) (h : Branch.Guided clauses s.branch) :
    last.config.pureLiteralElimination = false ∧ Branch.Guided clauses last.branch := by
  apply hruns.invariant (P := fun s =>
    s.config.pureLiteralElimination = false ∧ Branch.Guided clauses s.branch) ⟨hpure, h⟩
  intro s next hs hstep
  have hconfig := (step_eq_continues hs.2.of hstep).1.config
  exact ⟨by rw [hconfig]; exact hs.1, guided_of_step hs.1 hs.2 hstep⟩

/-- Without pure literals a search that starts on a guided branch finds its model on one. -/
theorem guided_of_solve {model : Binding} (hpure : s.config.pureLiteralElimination = false)
    (h : Branch.Guided clauses s.branch) (hsolve : s.solve = .ok (.satisfied model, final)) :
    model = final.model ∧ Branch.Guided clauses final.branch := by
  obtain ⟨n, last, _, hruns, hend⟩ := runWithin_eq_ok hsolve
  have hannounced : Branch.Guided clauses s.announce.branch := h
  obtain ⟨hlastPure, hlast⟩ := hruns.guided hpure hannounced
  obtain ⟨hsimplifies, _, heq⟩ := (step_eq_ends hlast.of hend).2.2 model rfl
  rw [hlastPure] at hsimplifies
  exact ⟨heq, hlast.of_simplifies hsimplifies⟩

end Search

open Search

/-- Without pure literal elimination and completion, the returned binding is the greatest one on
its variables: a total assignment that agrees with the starting binding and satisfies the formula
agrees with the returned one, or differs from it first at a variable that the returned one makes
true. -/
theorem solveWith_greatest {f : Formula} {starting b : Binding} {config : SearchConfig}
    {cancellation : Cancellation} (hpure : config.pureLiteralElimination = false)
    (hpartial : config.completeModel = false)
    (h : solveWith f starting config cancellation = .ok b) {a : Assignment}
    (hstarting : starting.AgreesWith a) (hf : f.holds a = true) :
    b.AgreesWith a ∨ ∃ v, b.get? v = some true ∧ a v = false ∧
      ∀ w value, w.id < v.id → b.get? w = some value → a w = value := by
  obtain ⟨final, hsolve⟩ := solve_of_solveWith h
  have hroot : Branch.Guided (startingClauses f starting)
      (start f starting config cancellation).branch := by
    rw [branch_start]
    exact .root
  obtain ⟨hmodel, hguided⟩ := guided_of_solve hpure hroot hsolve
  have hbinding : b = final.branch.binding := by
    have hconfig : final.config.completeModel = false := by
      rw [(sameProblem_of_solve hroot.of hsolve).config]
      exact hpartial
    rw [hmodel, model, hconfig, if_neg Bool.false_ne_true]
  rw [hbinding]
  have hmodels := models_startingClauses_iff.mpr ⟨hstarting, hf⟩
  obtain hagrees | ⟨v, hleaves⟩ := hguided.agrees_or_leaves hmodels
  · exact Or.inl hagrees
  · exact Or.inr ⟨v, hleaves.chosen, hleaves.refused, hleaves.smaller⟩

theorem solveWith_greatest_after_conflict :
    let f := Formula.ofClauses [⟨[⟨⟨1⟩, false⟩, ⟨⟨2⟩, true⟩]⟩,
      ⟨[⟨⟨2⟩, false⟩, ⟨⟨1⟩, false⟩]⟩, ⟨[⟨⟨3⟩, true⟩, ⟨⟨2⟩, true⟩, ⟨⟨4⟩, true⟩]⟩]
    let starting := Binding.ofLiterals [⟨⟨4⟩, false⟩]
    let b := Binding.ofLiterals [⟨⟨1⟩, false⟩, ⟨⟨2⟩, true⟩, ⟨⟨4⟩, false⟩]
    let a : Assignment := fun v => v.id == 3
    solveWith f starting { pureLiteralElimination := false, completeModel := false } .never =
        .ok b ∧
      starting.AgreesWith a ∧ f.holds a = true ∧
      ∃ v, b.get? v = some true ∧ a v = false ∧
        ∀ w value, w.id < v.id → b.get? w = some value → a w = value := by
  intro f starting b a
  have hresult : solveWith f starting
      { pureLiteralElimination := false, completeModel := false } .never = .ok b := by cbv
  have hstarting : starting.AgreesWith a := by
    intro v value hv
    have hliterals : starting.literals = [⟨⟨4⟩, false⟩] := by decide
    have hmem : (⟨v, value⟩ : Literal) ∈ starting.literals :=
      Binding.mem_literals.mpr (Binding.value?_eq_some_iff.mpr (by simpa using hv))
    rw [hliterals, List.mem_singleton] at hmem
    cases hmem
    rfl
  have hf : f.holds a = true := by decide
  refine ⟨hresult, hstarting, hf, ?_⟩
  obtain hagrees | hgreater := solveWith_greatest rfl rfl hresult hstarting hf
  · have htrue := hagrees ⟨2⟩ true (by decide)
    contradiction
  · exact hgreater

end SatSearch
