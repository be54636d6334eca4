import SatSearch.Proofs.Exploration

/-!
# Requests of a host

Before it solves, a host can ask a search to infer literals, to simplify, and for the forced and
the pure literals, in any order and as often as it likes.  A step that found two parts of the state
in disagreement would stop with a fault; so would a loop at its bound.  None of them ever does: as
long as the host infers distinct unbound variables only, every request is answered, and solving
comes to a verdict.
-/

namespace SatSearch

namespace Search

variable {clauses : List Clause} {s next : Search}

/-! ## Requests -/

inductive Request where
  | infer (literals : List Literal)
  | simplify
  | unitLiterals
  | pureLiterals
deriving DecidableEq, Repr

inductive Reply where
  | inferred
  | simplified (result : Simplified)
  /-- The forced literals, or `none` if two of them contradict each other. -/
  | units (literals : Option (List Literal))
  | pures (literals : List Literal)
deriving DecidableEq, Repr

def serve (s : Search) : Request → Except Fault (Reply × Search)
  | .infer ls => do
    let s ← s.infer ls
    return (.inferred, s)
  | .simplify => do
    let (result, s) ← s.simplify
    return (.simplified result, s)
  | .unitLiterals => do
    let units ← s.branch.unitLiterals
    return (.units units, s)
  | .pureLiterals => return (.pures s.branch.pureLiterals, s)

/-- Serves the requests one after the other. -/
def serveAll (s : Search) : List Request → Except Fault (List Reply × Search)
  | [] => return ([], s)
  | request :: requests => do
    let (reply, s) ← s.serve request
    let (replies, s) ← s.serveAll requests
    return (reply :: replies, s)

def Request.Allowed (s : Search) : Request → Prop
  | infer ls =>
    (ls.map Literal.var).Nodup ∧ ∀ l ∈ ls, s.branch.binding.binds l.var = false
  | simplify | unitLiterals | pureLiterals => True

/-- Each request is allowed once the ones before it have been served. -/
def AllowedInTurn (s : Search) : List Request → Prop
  | [] => True
  | request :: requests =>
    request.Allowed s ∧ ∀ reply next, s.serve request = .ok (reply, next) →
      AllowedInTurn next requests

/-! ## Serving -/

/-- What serving requests keeps: the search stays on a branch of its clauses, on which nothing was
decided, and its problem and its decisions stay the same. -/
structure Served (clauses : List Clause) (s next : Search) : Prop where
  of : Branch.Of clauses next.branch
  undecided : ∀ e ∈ next.branch.trail.entries, e.cause = .inference
  keeps : Keeps s next

theorem Served.trans {mid : Search} (hfirst : Served clauses s mid)
    (hsecond : Served clauses mid next) : Served clauses s next where
  of := hsecond.of
  undecided := hsecond.undecided
  keeps := hfirst.keeps.trans hsecond.keeps

theorem Served.settled (h : Served clauses s next) :
    Branch.Settled next.branch.trail.entries := by
  intro e he hcause
  rw [h.undecided e he] at hcause
  cases hcause

theorem undecided_of_assignAll {b last : Branch} (h : Branch.Of clauses b)
    (hundecided : ∀ e ∈ b.trail.entries, e.cause = .inference) {ls : List Literal}
    (hlast : b.assignAll ls .inference = .ok last) :
    ∀ e ∈ last.trail.entries, e.cause = .inference := by
  obtain ⟨newer, hnewer, _, hcause⟩ := h.newer_of_assignAll hlast
  intro e he
  rw [hnewer] at he
  rcases List.mem_append.mp he with he | he
  · exact hcause e he
  · exact hundecided e he

/-- An allowed request is answered. -/
theorem serve_exists (h : Branch.Of clauses s.branch)
    (hundecided : ∀ e ∈ s.branch.trail.entries, e.cause = .inference) {request : Request}
    (hallowed : request.Allowed s) :
    ∃ reply next, s.serve request = .ok (reply, next) ∧ Served clauses s next := by
  have hsame : Served clauses s s := ⟨h, hundecided, Keeps.refl s⟩
  cases request with
  | infer ls =>
      obtain ⟨last, hlast⟩ := h.assignAll_exists hallowed.1 hallowed.2 .inference
      obtain ⟨next, hnext, hbranch, hkeeps⟩ :
          ∃ next, s.infer ls = .ok next ∧ next.branch = last ∧ Keeps s next :=
        ⟨_, infer_eq_ok hlast, rfl, ⟨rfl, rfl, rfl⟩, rfl, rfl⟩
      subst hbranch
      refine ⟨.inferred, next, ?_, h.of_assignAll hlast,
        undecided_of_assignAll h hundecided hlast, hkeeps⟩
      simp only [serve, hnext, bind, Except.bind]
      rfl
  | simplify =>
      obtain ⟨result, next, hnext, houtcome⟩ := simplify_exists h
      obtain ⟨_, hlast, _⟩ := h.steps_of_simplifies houtcome.simplifies
      refine ⟨.simplified result, next, ?_, h.of_assignAll hlast,
        undecided_of_assignAll h hundecided hlast, houtcome.keeps⟩
      simp only [serve, hnext, bind, Except.bind]
      rfl
  | unitLiterals =>
      obtain ⟨units, hunits⟩ : ∃ units, s.branch.unitLiterals = .ok units := by
        rcases h.unitLiterals_cases with ⟨hnone, _⟩ | ⟨ls, hls, _⟩
        · exact ⟨none, hnone⟩
        · exact ⟨some ls, hls⟩
      refine ⟨.units units, s, ?_, hsame⟩
      simp only [serve, hunits, bind, Except.bind]
      rfl
  | pureLiterals => exact ⟨.pures s.branch.pureLiterals, s, rfl, hsame⟩

theorem serveAll_cons {request : Request} {requests : List Request} {reply : Reply}
    {replies : List Reply} {mid : Search} (hmid : s.serve request = .ok (reply, mid))
    (hnext : mid.serveAll requests = .ok (replies, next)) :
    s.serveAll (request :: requests) = .ok (reply :: replies, next) := by
  simp only [serveAll, hmid, hnext, bind, Except.bind]
  rfl

/-- Requests are answered if each of them is allowed when it is made. -/
theorem serveAll_exists (h : Branch.Of clauses s.branch)
    (hundecided : ∀ e ∈ s.branch.trail.entries, e.cause = .inference) {requests : List Request}
    (hallowed : AllowedInTurn s requests) :
    ∃ replies next, s.serveAll requests = .ok (replies, next) ∧ Served clauses s next := by
  induction requests generalizing s with
  | nil => exact ⟨[], s, rfl, h, hundecided, Keeps.refl s⟩
  | cons request requests ih =>
      obtain ⟨hfirst, hrest⟩ := hallowed
      obtain ⟨reply, mid, hmid, hserved⟩ := serve_exists h hundecided hfirst
      obtain ⟨replies, next, hnext, hlast⟩ :=
        ih hserved.of hserved.undecided (hrest reply mid hmid)
      exact ⟨reply :: replies, next, serveAll_cons hmid hnext, hserved.trans hlast⟩

theorem undecided_root {b : Branch} (h : b = Branch.root clauses) :
    ∀ e ∈ b.trail.entries, e.cause = .inference := by
  rw [h]
  exact List.forall_mem_nil _

/-- A prepared search never stops with a fault: it answers all requests that are allowed in turn,
and then solving comes to a verdict. -/
theorem prepared_never_faults {f : Formula} {starting : Binding} {config : SearchConfig}
    {cancellation : Cancellation} {s₀ : Search}
    (hprepare : prepare f starting config cancellation = .ok s₀) {requests : List Request}
    (hallowed : AllowedInTurn s₀ requests) :
    ∃ replies s verdict final, s₀.serveAll requests = .ok (replies, s) ∧
      s.solve = .ok (verdict, final) := by
  have hroot := of_prepare hprepare
  have hof := Branch.Of.of_eq_root hroot
  obtain ⟨replies, s, hs, hserved⟩ := serveAll_exists hof (undecided_root hroot) hallowed
  obtain ⟨verdict, final, hsolve⟩ := solve_exists hserved.of hserved.settled
  exact ⟨replies, s, verdict, final, hs, hsolve⟩

theorem prepared_never_faults_after_two_inferences :
    let f := Formula.ofClauses
      [⟨[⟨⟨1⟩, true⟩, ⟨⟨2⟩, false⟩, ⟨⟨1⟩, false⟩]⟩, ⟨[⟨⟨2⟩, false⟩, ⟨⟨3⟩, true⟩]⟩]
    ∃ replies s verdict final,
      (start f .empty {} .never).serveAll
        [.infer [⟨⟨2⟩, true⟩], .infer [⟨⟨3⟩, false⟩], .unitLiterals, .simplify, .pureLiterals] =
          .ok (replies, s) ∧
      s.solve = .ok (verdict, final) := by
  intro f
  have hprepare : prepare f .empty {} .never = .ok (start f .empty {} .never) := rfl
  have hfree : ((start f .empty {} .never).serve (.infer [⟨⟨2⟩, true⟩])).map
      (fun served => served.2.branch.binding.binds ⟨3⟩) = .ok false := by decide
  refine prepared_never_faults hprepare ⟨⟨by decide, by decide⟩, ?_⟩
  intro reply next hnext
  rw [hnext] at hfree
  refine ⟨⟨by decide, ?_⟩, fun _ _ _ => ⟨trivial, fun _ _ _ => ⟨trivial, fun _ _ _ =>
    ⟨trivial, fun _ _ _ => trivial⟩⟩⟩⟩
  intro l hl
  rw [List.mem_singleton.mp hl]
  exact Except.ok.inj hfree

end Search

end SatSearch
