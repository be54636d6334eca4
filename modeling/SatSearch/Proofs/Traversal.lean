import Std.Data.TreeMap
import SatSearch.Proofs.Course
import SatSearch.Proofs.Requests

/-!
# The log as a depth first traversal

The decisions that a search records walk a binary tree depth first.  Going down makes the next
variable true one level deeper; turning replaces the newest decision whose opposite is untried and
drops everything above it.  The stack of the decisions on the branch is the link between the two
sides: the records are related to it one by one, and what they say about levels and paths is read
off it.  A path that is left for another one comes before it in the lexicographic order, so no path
is taken twice.
-/

namespace SatSearch

/-! ## Choices and paths -/

/-- A decision as the log records it. -/
structure Choice where
  literal : Literal
  level : Nat
  flipped : Bool
deriving DecidableEq, Repr

def LogRecord.choice? : LogRecord → Option Choice
  | decision literal level flipped => some ⟨literal, level, flipped⟩
  | parsed .. | merging .. | solving .. | propagating .. | eliminating .. | backtracking ..
  | satisfiable .. | unsatisfiable .. | cancelled .. => none

theorem choice?_of_isInference {r : LogRecord} (h : r.isInference = true) : r.choice? = none := by
  cases r with
  | propagating | eliminating => rfl
  | parsed | merging | solving | decision | backtracking | satisfiable | unsatisfiable
  | cancelled => cases h

/-- The recorded decisions, oldest first. -/
def choices (log : List LogRecord) : List Choice :=
  log.filterMap LogRecord.choice?

/-- The level of the latest decision; before any decision it is zero. -/
def currentLevel (cs : List Choice) : Nat :=
  (cs.getLast?.map Choice.level).getD 0

/-- The latest decision whose level is at most the given one. -/
def latestWithin (level : Nat) (cs : List Choice) : Option Choice :=
  cs.reverse.find? fun c => c.level ≤ level

/-- The latest decision at the given level. -/
def latestAt (level : Nat) (cs : List Choice) : Option Choice :=
  cs.reverse.find? fun c => c.level = level

/-- The current path: the literal of the latest decision at each level up to the current one. -/
def path (cs : List Choice) : List Literal :=
  (List.range (currentLevel cs)).filterMap fun n => (latestAt (n + 1) cs).map Choice.literal

/-- The decisions of the log walk a binary tree depth first. -/
structure DepthFirst (log : List LogRecord) : Prop where
  /-- A decision that is not flipped makes a variable true one level below the decision before. -/
  descends : ∀ before l level, before ++ [.decision l level false] <+: log →
    l.positive = true ∧ level = currentLevel (choices before) + 1
  /-- A flipped decision comes right after the backtracking over its opposite, which is the latest
  decision of its level or above. -/
  turns : ∀ before l level, before ++ [.decision l level true] <+: log →
    ∃ v : Variable, l = v.negative ∧ before.getLast? = some (.backtracking v.positive) ∧
      latestWithin level (choices before) = some ⟨v.positive, level, false⟩
  /-- At any moment the path has a decision at every level, each on another variable. -/
  distinct : ∀ cs, cs <+: choices log →
    (path cs).length = currentLevel cs ∧ ((path cs).map Literal.var).Nodup
  /-- No path is taken twice. -/
  fresh : ∀ cs ds, cs <+: choices log → ds <+: choices log → path cs = path ds → cs = ds

section

variable {cs newer older stack : List Choice} {c : Choice} {log : List LogRecord} {r : LogRecord}

theorem choices_concat_of_none (h : r.choice? = none) : choices (log ++ [r]) = choices log := by
  unfold choices
  rw [List.filterMap_append, List.filterMap_cons_none h, List.filterMap_nil, List.append_nil]

theorem choices_concat (h : r.choice? = some c) : choices (log ++ [r]) = choices log ++ [c] := by
  unfold choices
  rw [List.filterMap_append, List.filterMap_cons_some h, List.filterMap_nil]

theorem currentLevel_concat : currentLevel (cs ++ [c]) = c.level := by
  unfold currentLevel
  rw [List.getLast?_concat]
  rfl

theorem latestWithin_concat_of_le {level : Nat} (h : c.level ≤ level) :
    latestWithin level (cs ++ [c]) = some c := by
  unfold latestWithin
  rw [List.reverse_concat]
  exact List.find?_cons_of_pos (decide_eq_true h)

theorem latestWithin_concat_of_lt {level : Nat} (h : level < c.level) :
    latestWithin level (cs ++ [c]) = latestWithin level cs := by
  unfold latestWithin
  rw [List.reverse_concat, List.find?_cons_of_neg (by simpa using h)]

theorem latestAt_of_latestWithin (h : latestWithin c.level cs = some c) :
    latestAt c.level cs = some c := by
  unfold latestWithin at h
  unfold latestAt
  rw [List.find?_eq_some_iff_append] at h ⊢
  obtain ⟨_, later, earlier, hsplit, hlater⟩ := h
  refine ⟨decide_eq_true rfl, later, earlier, hsplit, ?_⟩
  intro d hd
  have habove := hlater d hd
  simp only [Bool.not_eq_true', decide_eq_false_iff_not] at habove ⊢
  intro hsame
  exact habove hsame.le

/-! ## The stack of a traversal -/

/-- The stack, newest decision first, has one decision for each level, and each of them is the
latest one of its level or above. -/
def Current (cs : List Choice) : List Choice → Prop
  | [] => True
  | c :: older =>
    c.level = older.length + 1 ∧ latestWithin c.level cs = some c ∧ Current cs older

theorem Current.of_append (h : Current cs (newer ++ older)) : Current cs older := by
  induction newer with
  | nil => exact h
  | cons c newer ih => exact ih h.2.2

theorem Current.concat (h : Current cs stack) (hlevel : stack.length < c.level) :
    Current (cs ++ [c]) stack := by
  induction stack with
  | nil => trivial
  | cons d older ih =>
      obtain ⟨hd, hlatest, holder⟩ := h
      rw [List.length_cons] at hlevel
      refine ⟨hd, ?_, ih holder (by omega)⟩
      rw [latestWithin_concat_of_lt (by omega)]
      exact hlatest

theorem Current.filterMap_range (h : Current cs stack) :
    (List.range stack.length).filterMap (fun n => (latestAt (n + 1) cs).map Choice.literal) =
      (stack.map Choice.literal).reverse := by
  induction stack with
  | nil => rfl
  | cons c older ih =>
      obtain ⟨hlevel, hlatest, holder⟩ := h
      have hc := latestAt_of_latestWithin hlatest
      rw [hlevel] at hc
      rw [List.length_cons, List.range_succ, List.filterMap_append, ih holder, List.map_cons,
        List.reverse_cons]
      simp [hc]

/-- The stack is what the decisions have left to be tried. -/
structure Stacked (cs stack : List Choice) : Prop where
  level : currentLevel cs = stack.length
  current : Current cs stack
  positive : ∀ c ∈ stack, c.flipped = false → c.literal.positive = true
  nodup : (stack.map fun c => c.literal.var).Nodup

theorem Stacked.path_eq (h : Stacked cs stack) :
    path cs = (stack.map Choice.literal).reverse := by
  unfold path
  rw [h.level]
  exact h.current.filterMap_range

/-- A decision on a new variable takes the place of the newest decisions of the stack. -/
theorem Stacked.push (h : Stacked cs (newer ++ older)) {l : Literal} {flipped : Bool}
    (hpositive : flipped = false → l.positive = true)
    (hnew : ∀ c ∈ older, c.literal.var ≠ l.var) :
    Stacked (cs ++ [⟨l, older.length + 1, flipped⟩])
      (⟨l, older.length + 1, flipped⟩ :: older) where
  level := currentLevel_concat
  current :=
    ⟨rfl, latestWithin_concat_of_le (le_refl _), h.current.of_append.concat (Nat.lt_succ_self _)⟩
  positive := by
    intro c hc hfree
    rcases List.mem_cons.mp hc with heq | hc
    · rw [heq] at hfree ⊢
      exact hpositive hfree
    · exact h.positive c (List.mem_append_right newer hc) hfree
  nodup := by
    have hall := h.nodup
    rw [List.map_append] at hall
    rw [List.map_cons, List.nodup_cons]
    refine ⟨?_, hall.of_append_right⟩
    intro hmem
    obtain ⟨c, hc, hvar⟩ := List.mem_map.mp hmem
    exact hnew c hc hvar

/-- The records have been made by a traversal whose decisions now form this stack, newest first. -/
inductive Traces : List LogRecord → List Choice → Prop
  | start : Traces [] []
  | other {log : List LogRecord} {stack : List Choice} {r : LogRecord} (h : Traces log stack)
      (hr : r.choice? = none) : Traces (log ++ [r]) stack
  | descend {log : List LogRecord} {stack : List Choice} {v : Variable} (h : Traces log stack)
      (hnew : ∀ c ∈ stack, c.literal.var ≠ v) :
      Traces (log ++ [.decision v.positive (stack.length + 1) false])
        (⟨v.positive, stack.length + 1, false⟩ :: stack)
  | turn {log : List LogRecord} {newer older : List Choice} {l : Literal}
      (h : Traces log (newer ++ ⟨l, older.length + 1, false⟩ :: older))
      (hback : log.getLast? = some (.backtracking l)) :
      Traces (log ++ [.decision (-l) (older.length + 1) true])
        (⟨-l, older.length + 1, true⟩ :: older)

theorem Traces.stacked (h : Traces log stack) : Stacked (choices log) stack := by
  induction h with
  | start => exact ⟨rfl, trivial, List.forall_mem_nil _, List.nodup_nil⟩
  | other _ hr ih =>
      rw [choices_concat_of_none hr]
      exact ih
  | descend _ hnew ih =>
      rw [choices_concat rfl]
      have hstacked : Stacked _ ([] ++ _) := ih
      exact hstacked.push (fun _ => rfl) hnew
  | @turn log newer older l _ _ ih =>
      rw [choices_concat rfl]
      have hall := ih.nodup
      rw [List.map_append, List.map_cons] at hall
      have hnew := (List.nodup_cons.mp hall.of_append_right).1
      rw [List.append_cons] at ih
      refine ih.push Bool.noConfusion ?_
      intro c hc hvar
      exact hnew (List.mem_map.mpr ⟨c, hc, hvar⟩)

theorem Traces.of_prefix {before : List LogRecord} (h : Traces log stack) (hp : before <+: log) :
    ∃ stack, Traces before stack := by
  induction h with
  | start =>
      rw [List.prefix_nil.mp hp]
      exact ⟨[], .start⟩
  | other h hr ih =>
      obtain heq | hp := List.prefix_concat_iff.mp hp
      · rw [heq]
        exact ⟨_, .other h hr⟩
      · exact ih hp
  | descend h hnew ih =>
      obtain heq | hp := List.prefix_concat_iff.mp hp
      · rw [heq]
        exact ⟨_, .descend h hnew⟩
      · exact ih hp
  | turn h hback ih =>
      obtain heq | hp := List.prefix_concat_iff.mp hp
      · rw [heq]
        exact ⟨_, .turn h hback⟩
      · exact ih hp

/-- How a decision that has just been recorded was made. -/
theorem Traces.decision_cases {l : Literal} {level : Nat} {flipped : Bool}
    (h : Traces (log ++ [.decision l level flipped]) stack) :
    (flipped = false ∧ l.positive = true ∧ level = currentLevel (choices log) + 1) ∨
      (flipped = true ∧ (-l).positive = true ∧ log.getLast? = some (.backtracking (-l)) ∧
        latestWithin level (choices log) = some ⟨-l, level, false⟩) := by
  generalize hfull : log ++ [.decision l level flipped] = full at h
  cases h with
  | start => simp at hfull
  | other h hr =>
      obtain ⟨_, hsame⟩ := List.append_singleton_inj.mp hfull
      rw [← hsame] at hr
      cases hr
  | descend h _ =>
      obtain ⟨hlog, hsame⟩ := List.append_singleton_inj.mp hfull
      cases hsame
      rw [hlog, h.stacked.level]
      exact Or.inl ⟨rfl, rfl, rfl⟩
  | turn h hback =>
      obtain ⟨hlog, hsame⟩ := List.append_singleton_inj.mp hfull
      cases hsame
      have hstacked := h.stacked
      rw [hlog, Literal.neg_neg]
      refine Or.inr ⟨rfl, ?_, hback, hstacked.current.of_append.2.1⟩
      exact hstacked.positive _ (List.mem_append_right _ List.mem_cons_self) rfl

/-! ## The order of paths -/

/-- The first path is left for the second one: it is continued, or from some decision on the
opposite is tried instead. -/
def LeftFor : List Literal → List Literal → Prop :=
  List.Lex fun l m => l.positive = true ∧ m = -l

theorem LeftFor.trans {p q k : List Literal} (hfirst : LeftFor p q) (hsecond : LeftFor q k) :
    LeftFor p k := by
  refine List.lex_trans ?_ hfirst hsecond
  rintro l m _ ⟨hl, rfl⟩ ⟨hm, _⟩
  simp [hl] at hm

theorem LeftFor.irrefl (p : List Literal) : ¬LeftFor p p :=
  List.lex_irrefl (fun l h => Literal.neg_ne l h.2.symm) p

theorem leftFor_concat (p : List Literal) (l : Literal) : LeftFor p (p ++ [l]) := by
  have hlonger : LeftFor (p ++ []) (p ++ [l]) := List.Lex.append_left _ .nil p
  rwa [List.append_nil] at hlonger

theorem leftFor_opposite {l : Literal} (hl : l.positive = true) (p q : List Literal) :
    LeftFor (p ++ l :: q) (p ++ [-l]) :=
  List.Lex.append_left _ (.rel ⟨hl, rfl⟩) p

theorem Stacked.path_push (h : Stacked (cs ++ [c]) (c :: older)) :
    path (cs ++ [c]) = (older.map Choice.literal).reverse ++ [c.literal] := by
  rw [h.path_eq, List.map_cons, List.reverse_cons]

/-- The current path has been reached from every earlier one. -/
theorem Traces.leftFor (h : Traces log stack) (hcs : cs <+: choices log) :
    cs = choices log ∨ LeftFor (path cs) (path (choices log)) := by
  induction h with
  | start => exact Or.inl (List.prefix_nil.mp hcs)
  | other _ hr ih =>
      rw [choices_concat_of_none hr] at hcs ⊢
      exact ih hcs
  | @descend log stack v h hnew ih =>
      have hstacked := (h.descend hnew).stacked
      rw [choices_concat rfl] at hcs hstacked ⊢
      have hstep : LeftFor (path (choices log))
          (path (choices log ++ [⟨v.positive, stack.length + 1, false⟩])) := by
        rw [hstacked.path_push, h.stacked.path_eq]
        exact leftFor_concat _ _
      obtain heq | hcs := List.prefix_concat_iff.mp hcs
      · exact Or.inl heq
      obtain heq | hleft := ih hcs
      · rw [heq]
        exact Or.inr hstep
      · exact Or.inr (hleft.trans hstep)
  | @turn log newer older l h hback ih =>
      have hpositive : l.positive = true :=
        h.stacked.positive _ (List.mem_append_right newer List.mem_cons_self) rfl
      have hstacked := (h.turn hback).stacked
      rw [choices_concat rfl] at hcs hstacked ⊢
      have hstep : LeftFor (path (choices log))
          (path (choices log ++ [⟨-l, older.length + 1, true⟩])) := by
        rw [hstacked.path_push, h.stacked.path_eq, List.map_append, List.map_cons,
          List.reverse_append, List.reverse_cons, List.append_assoc]
        exact leftFor_opposite hpositive _ _
      obtain heq | hcs := List.prefix_concat_iff.mp hcs
      · exact Or.inl heq
      obtain heq | hleft := ih hcs
      · rw [heq]
        exact Or.inr hstep
      · exact Or.inr (hleft.trans hstep)

theorem Traces.of_prefix_choices (h : Traces log stack) (hcs : cs <+: choices log) :
    ∃ before stack, Traces before stack ∧ choices before = cs := by
  obtain ⟨rest, hrest⟩ := hcs
  obtain ⟨before, after, hlog, hbefore, _⟩ := List.filterMap_eq_append_iff.mp hrest.symm
  obtain ⟨earlier, hearlier⟩ := h.of_prefix ⟨after, hlog.symm⟩
  exact ⟨before, earlier, hearlier, hbefore⟩

theorem Traces.eq_of_path_eq {ds : List Choice} (h : Traces log stack) (hcs : cs <+: ds)
    (hds : ds <+: choices log) (hpath : path cs = path ds) : cs = ds := by
  obtain ⟨before, _, hbefore, rfl⟩ := h.of_prefix_choices hds
  obtain heq | hleft := hbefore.leftFor hcs
  · exact heq
  · rw [hpath] at hleft
    exact absurd hleft (LeftFor.irrefl _)

theorem Traces.depthFirst (h : Traces log stack) : DepthFirst log where
  descends := by
    intro before l level hp
    obtain ⟨_, hdecision⟩ := h.of_prefix hp
    obtain ⟨_, hl, hlevel⟩ | ⟨hflipped, _⟩ := hdecision.decision_cases
    · exact ⟨hl, hlevel⟩
    · cases hflipped
  turns := by
    intro before l level hp
    obtain ⟨_, hdecision⟩ := h.of_prefix hp
    obtain ⟨hfree, _⟩ | ⟨_, hpositive, hback, hlatest⟩ := hdecision.decision_cases
    · cases hfree
    · have hl : -l = l.var.positive := by
        rw [Variable.positive, ← hpositive]
        rfl
      rw [hl] at hback hlatest
      refine ⟨l.var, ?_, hback, hlatest⟩
      rw [← Literal.neg_neg l, hl]
      rfl
  distinct := by
    intro cs hcs
    obtain ⟨before, _, hbefore, rfl⟩ := h.of_prefix_choices hcs
    have hstacked := hbefore.stacked
    rw [hstacked.path_eq, hstacked.level]
    refine ⟨by simp, ?_⟩
    rw [List.map_reverse, List.nodup_reverse, List.map_map]
    exact hstacked.nodup
  fresh := by
    intro cs ds hcs hds hpath
    obtain hle | hle := List.prefix_or_prefix_of_prefix hcs hds
    · exact h.eq_of_path_eq hle hds hpath
    · exact (h.eq_of_path_eq hle hcs hpath.symm).symm

end

/-! ## The stack of a branch -/

/-- The decisions among the entries of a trail, newest first. -/
def decided : List TrailEntry → List Choice
  | [] => []
  | e :: older =>
    match e.cause with
    | .decision flipped => ⟨e.literal, (decided older).length + 1, flipped⟩ :: decided older
    | .inference => decided older

section

variable {e : TrailEntry} {newer older : List TrailEntry}

theorem decided_cons {flipped : Bool} (h : e.cause = .decision flipped) :
    decided (e :: older) = ⟨e.literal, (decided older).length + 1, flipped⟩ :: decided older := by
  rw [decided, h]

theorem decided_append_of_inferences (h : ∀ e ∈ newer, e.cause = .inference) :
    decided (newer ++ older) = decided older := by
  induction newer with
  | nil => rfl
  | cons e newer ih =>
      rw [List.cons_append, decided, h e List.mem_cons_self]
      exact ih fun d hd => h d (List.mem_cons_of_mem e hd)

theorem decided_append (newer older : List TrailEntry) :
    ∃ choices, decided (newer ++ older) = choices ++ decided older := by
  induction newer with
  | nil => exact ⟨[], rfl⟩
  | cons e newer ih =>
      obtain ⟨choices, hchoices⟩ := ih
      rw [List.cons_append, decided, hchoices]
      cases e.cause with
      | decision flipped => exact ⟨_ :: choices, rfl⟩
      | inference => exact ⟨choices, rfl⟩

theorem length_decided (entries : List TrailEntry) :
    (decided entries).length = entries.countP fun e => e.cause.isDecision := by
  induction entries with
  | nil => rfl
  | cons e older ih =>
      rw [decided, List.countP_cons]
      cases e.cause with
      | decision flipped => simp [ih, Cause.isDecision]
      | inference => simp [ih, Cause.isDecision]

theorem exists_entry_of_mem_decided {entries : List TrailEntry} {c : Choice}
    (h : c ∈ decided entries) : ∃ e ∈ entries, e.literal = c.literal := by
  induction entries with
  | nil => exact absurd h List.not_mem_nil
  | cons e older ih =>
      rw [decided] at h
      cases hcause : e.cause with
      | decision flipped =>
          rw [hcause] at h
          rcases List.mem_cons.mp h with heq | h
          · exact ⟨e, List.mem_cons_self, by rw [heq]⟩
          · obtain ⟨d, hd, hliteral⟩ := ih h
            exact ⟨d, List.mem_cons_of_mem e hd, hliteral⟩
      | inference =>
          rw [hcause] at h
          obtain ⟨d, hd, hliteral⟩ := ih h
          exact ⟨d, List.mem_cons_of_mem e hd, hliteral⟩

end

/-! ## The log of a search -/

namespace Search

variable {clauses : List Clause} {s c next last final : Search} {verdict : Verdict}

/-- The stack of the decisions on the branch, newest first. -/
def stack (s : Search) : List Choice :=
  decided s.branch.trail.entries

theorem level_eq_length_stack (s : Search) : s.branch.level = s.stack.length :=
  (length_decided _).symm

/-- The log has been made by a traversal that has come to the branch. -/
def Traced (s : Search) : Prop :=
  Traces s.log.toList s.stack

theorem Infers.traces {stack : List Choice} (h : Infers s next)
    (hs : Traces s.log.toList stack) : Traces next.log.toList stack :=
  h.induction (P := fun log => Traces log stack) hs fun _ _ hr hlog =>
    .other hlog (choice?_of_isInference hr)

theorem SimplifiesTo.stack_eq (hc : SimplifiesTo s c) (h : Branch.Of clauses s.branch) :
    c.stack = s.stack := by
  obtain ⟨ls, hlast, _⟩ := h.steps_of_simplifies hc.simplifies
  obtain ⟨newer, hnewer, _, hinferences⟩ := h.newer_of_assignAll hlast
  unfold stack
  rw [hnewer, decided_append_of_inferences hinferences]

theorem SimplifiesTo.traced (hc : SimplifiesTo s c) (h : Branch.Of clauses s.branch)
    (hs : s.Traced) : c.Traced := by
  unfold Traced
  rw [hc.stack_eq h]
  exact hc.infers.traces hs

/-- The log after the step has been made by a traversal, and if the step goes on, the traversal has
come to the branch. -/
def Step.Traced : Step → Prop
  | .continues s => s.Traced
  | .ends _ s => ∃ stack, Traces s.log.toList stack

theorem Decided.traced {l : Literal} {flipped : Bool} {step : Step}
    (hstep : Decided s l flipped step) (h : Branch.Of clauses s.branch) {stack : List Choice}
    (hs : Traces s.log.toList stack)
    (hmade : Traces (s.log.toList ++ [.decision l (s.stack.length + 1) flipped])
      (⟨l, s.stack.length + 1, flipped⟩ :: s.stack)) : step.Traced := by
  cases hstep with
  | refused =>
      refine ⟨stack, ?_⟩
      unfold record
      rw [Array.toList_push]
      exact .other hs rfl
  | @made branch hassign =>
      obtain ⟨e, _, htrail, rfl, hcause, _⟩ := h.assign_eq_ok hassign
      change Traces (s.log.push _).toList (decided branch.trail.entries)
      rw [Array.toList_push, htrail, decided_cons hcause, level_eq_length_stack]
      exact hmade

theorem Stepped.traced {step : Step} (hstep : Stepped clauses s step)
    (h : Branch.Of clauses s.branch) (hs : s.Traced) : step.Traced := by
  cases hstep with
  | @satisfied c hc _ _ =>
      refine ⟨c.stack, ?_⟩
      unfold record
      rw [Array.toList_push]
      exact .other (hc.traced h hs) rfl
  | @descended c v _ hc _ hv hstep =>
      have hof := h.of_simplifies hc.simplifies
      refine hstep.traced hof (hc.traced h hs) (.descend (hc.traced h hs) ?_)
      intro d hd hvar
      obtain ⟨⟨l, hl, hunbound, _⟩, _⟩ := hof.nextVariable?_eq_some hv
      obtain ⟨e, he, hliteral⟩ := exists_entry_of_mem_decided hd
      rw [hl, hof.tracks.binds_iff.mpr ⟨e, he, by rw [hliteral, hvar]⟩] at hunbound
      cases hunbound
  | @exhausted c hc _ _ =>
      refine ⟨c.stack, ?_⟩
      unfold Search.exhausted record
      rw [Array.toList_push]
      exact .other (hc.traced h hs) rfl
  | @flipped c newer e before _ hc _ htrail _ hcause hbefore hstep =>
      have hlog : (c.backtrackedTo before e.literal).log.toList =
          c.log.toList ++ [.backtracking e.literal] := Array.toList_push
      obtain ⟨above, habove⟩ := decided_append newer (e :: before.trail.entries)
      have hstack : c.stack = above ++
          ⟨e.literal, (decided before.trail.entries).length + 1, false⟩ ::
            decided before.trail.entries := by
        unfold stack
        rw [htrail, habove, decided_cons hcause]
      have hback : Traces (c.backtrackedTo before e.literal).log.toList c.stack := by
        rw [hlog]
        exact .other (hc.traced h hs) rfl
      refine hstep.traced hbefore hback (.turn (hstack ▸ hback) ?_)
      rw [hlog, List.getLast?_concat]

theorem traced_of_runs {n : Nat} (hruns : Runs s n last) (h : Branch.Of clauses s.branch)
    (hs : s.Traced) : last.Traced :=
  hruns.invariant_of h hs fun h hs hstep => (stepped_of_eq h hstep).traced h hs

theorem depthFirst_of_solve (h : Branch.Of clauses s.branch) (hs : s.Traced)
    (hsolve : s.solve = .ok (verdict, final)) : DepthFirst final.log.toList := by
  obtain ⟨n, last, _, hruns, hend⟩ := runWithin_eq_ok hsolve
  have hannounced : s.announce.Traced := by
    unfold announce Traced record
    rw [Array.toList_push]
    exact .other hs rfl
  have hlast : Branch.Of clauses last.branch := hruns.of (s := s.announce) h
  have htraced := traced_of_runs hruns h hannounced
  obtain ⟨_, hfinal⟩ := (stepped_of_eq hlast hend).traced hlast htraced
  exact hfinal.depthFirst

/-! ## Prepared searches -/

theorem traces_startingLog (config : SearchConfig) (entries : List IndexEntry) :
    Traces (startingLog config entries).toList [] := by
  unfold startingLog mergeRecord?
  split
  · cases OccurrenceIndex.chunks entries config.indexWorkers with
    | none => exact .start
    | some parts => exact .other .start rfl
  · exact .start

theorem infers_of_serve {request : Request} {reply : Reply}
    (h : s.serve request = .ok (reply, next)) : Infers s next := by
  cases request with
  | infer ls =>
      obtain ⟨mid, hmid, h⟩ := bind_eq_ok_iff.mp h
      obtain ⟨_, _, hmid⟩ := bind_eq_ok_iff.mp hmid
      cases hmid
      cases h
      exact Infers.refl s
  | simplify =>
      obtain ⟨⟨result, mid⟩, hmid, h⟩ := bind_eq_ok_iff.mp h
      cases h
      exact infers_of_simplifyWithin hmid
  | unitLiterals =>
      obtain ⟨units, _, h⟩ := bind_eq_ok_iff.mp h
      cases h
      exact Infers.refl s
  | pureLiterals =>
      cases h
      exact Infers.refl s

theorem infers_of_serveAll {requests : List Request} {replies : List Reply}
    (h : s.serveAll requests = .ok (replies, next)) : Infers s next := by
  induction requests generalizing s replies with
  | nil =>
      cases h
      exact Infers.refl _
  | cons request requests ih =>
      obtain ⟨⟨reply, mid⟩, hmid, h⟩ := bind_eq_ok_iff.mp h
      obtain ⟨⟨rest, last⟩, hlast, h⟩ := bind_eq_ok_iff.mp h
      cases h
      exact (infers_of_serve hmid).trans (ih hlast)

/-- Whatever was requested before, and whether or not the host cancels it, solving records its
decisions as a depth first traversal. -/
theorem solve_depthFirst {f : Formula} {starting : Binding} {config : SearchConfig}
    {cancellation : Cancellation} {s₀ : Search}
    (hprepare : prepare f starting config cancellation = .ok s₀) {requests : List Request}
    (hallowed : AllowedInTurn s₀ requests) :
    ∃ replies s verdict final, s₀.serveAll requests = .ok (replies, s) ∧
      s.solve = .ok (verdict, final) ∧ DepthFirst final.log.toList := by
  have hroot := of_prepare hprepare
  have hof := Branch.Of.of_eq_root hroot
  obtain ⟨replies, s, hs, hserved⟩ := serveAll_exists hof (undecided_root hroot) hallowed
  obtain ⟨verdict, final, hsolve⟩ := solve_exists hserved.of hserved.settled
  have hstart : Traces s₀.log.toList [] := by
    rw [prepare_eq_ok hprepare]
    exact traces_startingLog config _
  have hstack : s.stack = [] := by
    unfold stack
    rw [← List.append_nil s.branch.trail.entries,
      decided_append_of_inferences hserved.undecided, decided]
  have htraced : s.Traced := by
    unfold Traced
    rw [hstack]
    exact (infers_of_serveAll hs).traces hstart
  exact ⟨replies, s, verdict, final, hs, hsolve, depthFirst_of_solve hserved.of htraced hsolve⟩

theorem solve_depthFirst_after_simplification :
    let f := Formula.ofClauses [⟨[⟨⟨1⟩, true⟩, ⟨⟨2⟩, true⟩]⟩, ⟨[⟨⟨1⟩, false⟩, ⟨⟨2⟩, false⟩]⟩,
      ⟨[⟨⟨1⟩, true⟩, ⟨⟨2⟩, false⟩]⟩, ⟨[⟨⟨1⟩, false⟩, ⟨⟨2⟩, true⟩]⟩]
    ∃ replies s verdict final,
      (start f .empty {} .never).serveAll [.simplify, .pureLiterals] = .ok (replies, s) ∧
      s.solve = .ok (verdict, final) ∧ DepthFirst final.log.toList ∧
      choices final.log.toList = [⟨⟨⟨1⟩, true⟩, 1, false⟩, ⟨⟨⟨1⟩, false⟩, 1, true⟩] := by
  intro f
  have hprepare : prepare f .empty {} .never = .ok (start f .empty {} .never) := rfl
  have hchoices : ((start f .empty {} .never).serveAll [.simplify, .pureLiterals]).bind
      (fun served => served.2.solve.map fun ended => choices ended.2.log.toList) =
        .ok [⟨⟨⟨1⟩, true⟩, 1, false⟩, ⟨⟨⟨1⟩, false⟩, 1, true⟩] := by
    cbv
  have hallowed : AllowedInTurn (start f .empty {} .never) [.simplify, .pureLiterals] :=
    ⟨trivial, fun _ _ _ => ⟨trivial, fun _ _ _ => trivial⟩⟩
  obtain ⟨replies, s, verdict, final, hs, hsolve, hdepthFirst⟩ :=
    solve_depthFirst hprepare hallowed
  rw [hs] at hchoices
  change s.solve.map _ = _ at hchoices
  rw [hsolve] at hchoices
  exact ⟨replies, s, verdict, final, hs, hsolve, hdepthFirst, Except.ok.inj hchoices⟩

end Search

end SatSearch
