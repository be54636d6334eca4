import SatSearch.Proofs.Requests
import SatSearch.Proofs.Solver
import SatSearch.Proofs.Success

/-!
# Solving under assumptions

The literals that a host has inferred before it solves are assumptions: the search never takes one
back, and it decides whether some model makes all of them true.  Forced literals hold in every such
model.  A pure literal need not, but a model can be repaired where it fails.  What carries over to
later assumptions is that repairing changes a model on bound variables only, so that it does not
touch the variables that can still be assumed.
-/

namespace SatSearch

variable {clauses : List Clause} {assumed : List Literal}

/-- The binding does no harm: a model that makes the assumed literals true can be changed on bound
variables to one that agrees with the binding. -/
def Harmless (clauses : List Clause) (assumed : List Literal) (b : Binding) : Prop :=
  ∀ a, Models clauses a → (∀ l ∈ assumed, l.holds a = true) →
    ∃ repaired, Models clauses repaired ∧ b.AgreesWith repaired ∧
      ∀ v, b.binds v = false → repaired v = a v

theorem harmless_empty : Harmless clauses [] .empty := by
  intro a hmodels _
  refine ⟨a, hmodels, ?_, fun _ _ => rfl⟩
  intro v value hvalue
  simp [Binding.empty, Binding.get?] at hvalue

namespace Branch

variable {b last : Branch}

theorem Of.binds_of_assignAll (h : Of clauses b) {ls : List Literal} {cause : Cause}
    (hlast : b.assignAll ls cause = .ok last) {v : Variable}
    (hv : last.binding.binds v = false) : b.binding.binds v = false ∧ ∀ l ∈ ls, l.var ≠ v := by
  have hnot : ∀ l : Literal, l.var = v → last.binding.value? l ≠ some true := by
    rintro l rfl htrue
    rw [Binding.binds_iff_value?.mpr (Or.inl htrue)] at hv
    contradiction
  refine ⟨?_, fun l hl hvar => hnot l hvar ((h.value?_assignAll hlast).mpr (Or.inl hl))⟩
  rw [← Bool.not_eq_true, Binding.binds_iff]
  rintro ⟨value, hvalue⟩
  have htrue : b.binding.value? ⟨v, value⟩ = some true :=
    Binding.value?_eq_some_iff.mpr (by simpa using hvalue)
  exact hnot ⟨v, value⟩ rfl ((h.value?_assignAll hlast).mpr (Or.inr htrue))

/-- Assuming further literals, of unbound variables, does no harm. -/
theorem Of.harmless_assume (h : Of clauses b) {ls : List Literal}
    (hunbound : ∀ l ∈ ls, b.binding.binds l.var = false)
    (hlast : b.assignAll ls .inference = .ok last) (hb : Harmless clauses assumed b.binding) :
    Harmless clauses (assumed ++ ls) last.binding := by
  intro a hmodels hassumed
  obtain ⟨repaired, hrepaired, hagrees, hsame⟩ :=
    hb a hmodels fun l hl => hassumed l (List.mem_append_left ls hl)
  refine ⟨repaired, hrepaired, (h.agreesWith_assignAll hlast).mpr ⟨hagrees, ?_⟩, ?_⟩
  · intro l hl
    -- the repair does not touch the variables that are assumed next
    have hholds := hassumed l (List.mem_append_right assumed hl)
    rwa [Literal.holds, hsame l.var (hunbound l hl)]
  · intro v hv
    exact hsame v (h.binds_of_assignAll hlast hv).1

theorem Of.harmless_batch (h : Of clauses b) {pure : Bool} {ls : List Literal}
    (hbatch : Batch pure b ls) (hlast : b.assignAll ls .inference = .ok last)
    (hb : Harmless clauses assumed b.binding) : Harmless clauses assumed last.binding := by
  intro a hmodels hassumed
  obtain ⟨before, hbefore, hagrees, hsame⟩ := hb a hmodels hassumed
  obtain ⟨chosen, hchosen, hrepaired, hholds⟩ := h.repair_batch hbatch hlast hagrees hbefore
  refine ⟨_, hholds, hrepaired, ?_⟩
  intro v hv
  obtain ⟨hunbound, hother⟩ := h.binds_of_assignAll hlast hv
  have hfind : (chosen.find? fun l => l.var = v) = none := by
    apply List.find?_eq_none.mpr
    intro l hl
    simpa using hother l (hchosen l hl)
  simp only [Assignment.override, hfind, Option.map_none, Option.getD_none, hsame v hunbound]

theorem Of.harmless_simplifies (h : Of clauses b) {pure : Bool}
    (hlast : Simplifies pure b last) (hb : Harmless clauses assumed b.binding) :
    Harmless clauses assumed last.binding := by
  induction hlast with
  | refl => exact hb
  | batch hbatch hmid _ ih => exact ih (h.of_assignAll hmid) (h.harmless_batch hbatch hmid hb)

theorem Of.value?_of_simplifies (h : Of clauses b) {pure : Bool}
    (hlast : Simplifies pure b last) {l : Literal} (hl : b.binding.value? l = some true) :
    last.binding.value? l = some true := by
  obtain ⟨ls, hls, _⟩ := h.steps_of_simplifies hlast
  exact (h.value?_assignAll hls).mpr (Or.inr hl)

/-- What is true on a branch stays true further down. -/
theorem Of.value?_of_descends (h : Of clauses b) {admitted : Cause → Prop}
    (hlast : Descends clauses admitted b last) {l : Literal}
    (hl : b.binding.value? l = some true) : last.binding.value? l = some true := by
  obtain ⟨sequence, hsequence, _⟩ := hlast
  obtain ⟨newer, hnewer, _⟩ := h.newer_of_assignEach hsequence
  have hof := (h.assignEach_eq_ok hsequence).1
  rw [hof.tracks.value?_iff, hnewer, List.map_append]
  exact List.mem_append_right _ (h.tracks.value?_iff l |>.mp hl)

end Branch

namespace Search

variable {s next : Search}

/-! ## Assumptions of a host -/

/-- The literals that a request adds to the assumptions. -/
def Request.assumptions : Request → List Literal
  | infer ls => ls
  | simplify | unitLiterals | pureLiterals => []

/-- The search has made the assumed literals true, and nothing that it has inferred besides does any
harm. -/
structure Assumes (clauses : List Clause) (assumed : List Literal) (s : Search) : Prop where
  confirmed : ∀ l ∈ assumed, s.branch.binding.value? l = some true
  harmless : Harmless clauses assumed s.branch.binding

theorem Assumes.serve (h : Assumes clauses assumed s) (hof : Branch.Of clauses s.branch)
    {request : Request} (hallowed : request.Allowed s) {reply : Reply}
    (hnext : s.serve request = .ok (reply, next)) :
    Assumes clauses (assumed ++ request.assumptions) next := by
  cases request with
  | infer ls =>
      obtain ⟨_, hinfer, hreply⟩ := bind_eq_ok_iff.mp hnext
      obtain ⟨last, hlast, hbranch⟩ := bind_eq_ok_iff.mp hinfer
      cases hbranch
      cases hreply
      refine ⟨?_, hof.harmless_assume hallowed.2 hlast h.harmless⟩
      intro l hl
      rw [hof.value?_assignAll hlast]
      exact (List.mem_append.mp hl).symm.imp id (h.confirmed l)
  | simplify =>
      obtain ⟨result, last, hlast, houtcome⟩ := simplify_exists hof
      obtain ⟨_, hsimplify, hreply⟩ := bind_eq_ok_iff.mp hnext
      obtain rfl := Except.ok.inj (hlast.symm.trans hsimplify)
      cases hreply
      rw [Request.assumptions, List.append_nil]
      exact ⟨fun l hl => hof.value?_of_simplifies houtcome.simplifies (h.confirmed l hl),
        hof.harmless_simplifies houtcome.simplifies h.harmless⟩
  | unitLiterals =>
      obtain ⟨_, _, hreply⟩ := bind_eq_ok_iff.mp hnext
      cases hreply
      rwa [Request.assumptions, List.append_nil]
  | pureLiterals =>
      cases hnext
      rwa [Request.assumptions, List.append_nil]

theorem Assumes.serveAll (h : Assumes clauses assumed s) (hof : Branch.Of clauses s.branch)
    (hundecided : ∀ e ∈ s.branch.trail.entries, e.cause = .inference) {requests : List Request}
    (hallowed : AllowedInTurn s requests) :
    ∃ replies next, s.serveAll requests = .ok (replies, next) ∧ Served clauses s next ∧
      Assumes clauses (assumed ++ requests.flatMap Request.assumptions) next := by
  induction requests generalizing s assumed with
  | nil =>
      rw [List.flatMap_nil, List.append_nil]
      exact ⟨[], s, rfl, ⟨hof, hundecided, Keeps.refl s⟩, h⟩
  | cons request requests ih =>
      obtain ⟨hfirst, hrest⟩ := hallowed
      obtain ⟨reply, mid, hmid, hserved⟩ := serve_exists hof hundecided hfirst
      obtain ⟨replies, next, hnext, hlast, hassumes⟩ :=
        ih (h.serve hof hfirst hmid) hserved.of hserved.undecided (hrest reply mid hmid)
      rw [List.flatMap_cons, ← List.append_assoc]
      exact ⟨reply :: replies, next, serveAll_cons hmid hnext, hserved.trans hlast, hassumes⟩

/-! ## Solving -/

variable {f : Formula} {starting b : Binding} {config : SearchConfig}

/-- Some total assignment that agrees with `starting` makes the formula and the assumed literals
true. -/
def SatisfiableUnder (f : Formula) (starting : Binding) (assumed : List Literal) : Prop :=
  ∃ a, starting.AgreesWith a ∧ f.holds a = true ∧ ∀ l ∈ assumed, l.holds a = true

/-- What a binding found under assumptions amounts to; `working` is the binding that solving went
out from. -/
structure SolvesUnder (f : Formula) (starting working : Binding) (assumed : List Literal)
    (b : Binding) : Prop where
  evaluate : f.evaluate b = .yes
  starting : ∀ v value, starting.get? v = some value → b.get? v = some value
  assumed : ∀ l ∈ assumed, b.value? l = some true
  working : ∀ v value, working.get? v = some value → b.get? v = some value

theorem SolvesUnder.satisfiable {working : Binding}
    (h : SolvesUnder f starting working assumed b) : SatisfiableUnder f starting assumed := by
  have hagrees := b.agreesWith_totalized
  exact ⟨b.totalized, fun v value hvalue => hagrees v value (h.starting v value hvalue),
    Formula.holds_of_evaluate hagrees h.evaluate,
    fun l hl => Binding.agreesWith_iff.mp hagrees l (h.assumed l hl)⟩

theorem Assumes.extensible (h : Assumes (startingClauses f starting) assumed s)
    (hsatisfiable : SatisfiableUnder f starting assumed) :
    s.branch.Extensible (startingClauses f starting) := by
  obtain ⟨a, hstarting, hholds, hassumed⟩ := hsatisfiable
  obtain ⟨repaired, hmodels, hagrees, _⟩ :=
    h.harmless a (models_startingClauses_iff.mpr ⟨hstarting, hholds⟩) hassumed
  exact ⟨repaired, hagrees, hmodels⟩

theorem Assumes.solvesUnder (h : Assumes (startingClauses f starting) assumed s)
    (hof : Branch.Of (startingClauses f starting) s.branch) {c : Search}
    (hdown : Branch.Descends (startingClauses f starting) (fun _ => True) s.branch c.branch)
    (hsatisfied : c.branch.isSatisfied = true) :
    SolvesUnder f starting s.branch.binding assumed c.model := by
  have hlast := hof.of_descends hdown
  have hkept : ∀ l, s.branch.binding.value? l = some true → c.model.value? l = some true := by
    intro l hl
    have htrue := hof.value?_of_descends hdown hl
    rw [Binding.value?_eq_some_iff] at htrue ⊢
    exact get?_model htrue
  refine ⟨evaluate_model hlast hsatisfied,
    fun v value hvalue => get?_model_of_starting hlast hsatisfied hvalue,
    fun l hl => hkept l (h.confirmed l hl), ?_⟩
  intro v value hvalue
  have htrue := hkept ⟨v, value⟩ (Binding.value?_eq_some_iff.mpr (by simpa using hvalue))
  rw [Binding.value?_eq_some_iff] at htrue
  simpa using htrue

/-- Whatever was inferred and simplified before, solving returns a binding if and only if some model
makes all assumptions true.  The binding confirms the formula and keeps the starting values, the
assumptions and all that was true when solving began. -/
theorem prepared_solves_under_assumptions {s₀ : Search}
    (hprepare : prepare f starting config .never = .ok s₀) {requests : List Request}
    (hallowed : AllowedInTurn s₀ requests) :
    ∃ replies s, s₀.serveAll requests = .ok (replies, s) ∧
      ((∃ b, s.finish.1 = .ok b) ↔
        SatisfiableUnder f starting (requests.flatMap Request.assumptions)) ∧
      (∀ b, s.finish.1 = .ok b →
        SolvesUnder f starting s.branch.binding (requests.flatMap Request.assumptions) b) ∧
      ((¬∃ b, s.finish.1 = .ok b) → s.finish.1 = .error .unsatisfiable) := by
  have hroot := of_prepare hprepare
  have hof := Branch.Of.of_eq_root hroot
  have hassumes : Assumes (startingClauses f starting) [] s₀ :=
    ⟨List.forall_mem_nil _, by rw [hroot]; exact harmless_empty⟩
  obtain ⟨replies, s, hs, hserved, hlast⟩ :=
    hassumes.serveAll hof (undecided_root hroot) hallowed
  rw [List.nil_append] at hlast
  refine ⟨replies, s, hs, ?_⟩
  unfold finish
  rcases solve_cases hserved.of hserved.settled with ⟨c, final, hsolve, _, hdown, hsatisfied⟩ |
    ⟨_, _, _, hrequested⟩ | ⟨final, hsolve, hnone⟩
  · have hsolves := hlast.solvesUnder hserved.of hdown hsatisfied
    rw [hsolve]
    refine ⟨⟨fun _ => hsolves.satisfiable, fun _ => ⟨c.model, rfl⟩⟩, ?_,
      fun hnot => absurd ⟨c.model, rfl⟩ hnot⟩
    intro b hb
    cases hb
    exact hsolves
  · rw [hserved.keeps.cancellation, prepare_eq_ok hprepare] at hrequested
    contradiction
  · have hnot : ¬∃ b, (.error .unsatisfiable : Except SolveError Binding) = .ok b := by
      rintro ⟨b, hb⟩
      cases hb
    rw [hsolve]
    exact ⟨⟨fun h => absurd h hnot, fun h => absurd (hlast.extensible h) hnone⟩,
      fun b hb => absurd ⟨b, hb⟩ hnot, fun _ => rfl⟩

theorem prepared_solves_under_assumptions_after_pure_literal :
    let f := Formula.ofClauses [⟨[⟨⟨1⟩, true⟩, ⟨⟨2⟩, true⟩]⟩, ⟨[⟨⟨1⟩, true⟩, ⟨⟨2⟩, false⟩]⟩,
      ⟨[⟨⟨3⟩, true⟩, ⟨⟨4⟩, true⟩]⟩, ⟨[⟨⟨3⟩, false⟩, ⟨⟨4⟩, false⟩]⟩]
    let requests : List Request := [.simplify, .infer [⟨⟨3⟩, true⟩, ⟨⟨4⟩, true⟩], .simplify]
    ∃ replies s, (start f .empty {} .never).serveAll requests = .ok (replies, s) ∧
      s.finish.1 = .error .unsatisfiable ∧
      ¬SatisfiableUnder f .empty [⟨⟨3⟩, true⟩, ⟨⟨4⟩, true⟩] := by
  intro f requests
  have hprepare : prepare f .empty {} .never = .ok (start f .empty {} .never) := rfl
  have hfree : ((start f .empty {} .never).serve .simplify).map (fun served =>
      (served.2.branch.binding.binds ⟨3⟩, served.2.branch.binding.binds ⟨4⟩)) =
        .ok (false, false) := by decide
  have hfinish : ((start f .empty {} .never).serveAll requests).map
      (fun served => served.2.finish.1) = .ok (.error .unsatisfiable) := by decide
  have hallowed : AllowedInTurn (start f .empty {} .never) requests := by
    refine ⟨trivial, fun reply next hnext => ⟨⟨by decide, ?_⟩, fun _ _ _ =>
      ⟨trivial, fun _ _ _ => trivial⟩⟩⟩
    rw [hnext] at hfree
    obtain ⟨hthird, hfourth⟩ := Prod.mk.inj (Except.ok.inj hfree)
    simp [hthird, hfourth]
  obtain ⟨replies, s, hs, hiff, _⟩ := prepared_solves_under_assumptions hprepare hallowed
  rw [hs] at hfinish
  have hunsatisfiable : s.finish.1 = .error .unsatisfiable := Except.ok.inj hfinish
  refine ⟨replies, s, hs, hunsatisfiable, ?_⟩
  intro hsatisfiable
  obtain ⟨b, hb⟩ := hiff.mpr hsatisfiable
  rw [hunsatisfiable] at hb
  cases hb

end Search

end SatSearch
