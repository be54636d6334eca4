import SatSearch.CommandLine
import SatSearch.Proofs.Grammar
import SatSearch.Proofs.Solver

/-!
# Answers to a file

A choice of signs for the numbers from 1 to `n` is a total assignment of the variables that stand
for them.  So the numbers on the line of a model are a choice that every written clause has a number
in common with, and there is no such choice where the file is found unsatisfiable.
-/

namespace SatSearch

namespace Dimacs

/-! ## Clauses as lists of numbers -/

/-- A number from 1 to `n` with either sign, for each of them and in this order. -/
def Choice (n : Nat) (signs : List Int) : Prop :=
  signs.map Int.natAbs = List.range' 1 n

/-- Every clause contains a chosen number. -/
def Hits (signs : List Int) (clauses : List (List Int)) : Prop :=
  ∀ clause ∈ clauses, ∃ number ∈ clause, number ∈ signs

/-- The clauses contain no zero and no number above `n` in absolute value. -/
def Within (n : Nat) (clauses : List (List Int)) : Prop :=
  ∀ clause ∈ clauses, ∀ number ∈ clause, number ≠ 0 ∧ number.natAbs ≤ n

variable {supply : VariableSupply} {d : Dimacs} {n : Nat} {signs numbers : List Int}
  {clauses : List (List Int)} {a : Assignment} {b : Binding}

theorem within_writtenClauses (h : ∀ number ∈ numbers, number.natAbs ≤ n) :
    Within n (writtenClauses numbers) := by
  intro clause hclause number hnumber
  obtain ⟨hmem, hzero⟩ := Text.mem_of_mem_pieces (List.mem_of_mem_dropLast hclause) hnumber
  exact ⟨by simpa using hzero, h number hmem⟩

/-- The number with the given absolute value that is positive or not. -/
def signed (positive : Bool) (k : Nat) : Int :=
  if positive then Int.ofNat k else -Int.ofNat k

theorem natAbs_signed (positive : Bool) (k : Nat) : (signed positive k).natAbs = k := by
  cases positive <;> simp [signed]

theorem decide_signed_pos (positive : Bool) (i : Nat) :
    decide (0 < signed positive (i + 1)) = positive := by
  cases positive <;> simp [signed]

theorem signed_natAbs (number : Int) : signed (decide (0 < number)) number.natAbs = number := by
  unfold signed
  rw [Int.ofNat_eq_natCast]
  by_cases hpos : 0 < number
  · rw [if_pos (decide_eq_true hpos)]
    omega
  · rw [if_neg (by simpa using hpos)]
    omega

/-! ## Choices and assignments -/

/-- The numbers of the variables, each with the sign that the assignment gives it. -/
def chosen (vs : List Variable) (a : Assignment) : List Int :=
  vs.zipIdx.map fun (v, i) => signed (a v) (i + 1)

theorem choice_chosen (vs : List Variable) (a : Assignment) :
    Choice vs.length (chosen vs a) := by
  unfold Choice chosen
  apply List.ext_getElem
  · simp
  · intro i hi hrange
    simp only [List.getElem_map, List.getElem_range', natAbs_signed, List.getElem_zipIdx]
    omega

theorem exists_chosen {vs : List Variable} (hnodup : vs.Nodup) (h : Choice vs.length signs) :
    ∃ a, chosen vs a = signs := by
  have hlength : signs.length = vs.length := by
    simpa using congrArg List.length h
  -- the position of a variable in the list says which of the signs is its own
  refine ⟨fun v => decide (0 < (signs[vs.idxOf v]?).getD 0), ?_⟩
  unfold chosen
  apply List.ext_getElem
  · simp [hlength]
  · intro i hi hsigns
    have habs : signs[i].natAbs = i + 1 := by
      have hget := List.getElem_of_eq h (i := i) (by simpa using hsigns)
      rw [List.getElem_map, List.getElem_range'] at hget
      omega
    have hvs : i < vs.length := hlength ▸ hsigns
    simp only [List.getElem_map, List.getElem_zipIdx, Nat.zero_add, hnodup.idxOf_getElem i hvs,
      List.getElem?_eq_getElem hsigns, Option.getD_some]
    rw [← habs, signed_natAbs]

theorem mem_chosen_iff {declared : Array Variable} {number : Int} {l : Literal}
    (hzero : number ≠ 0) (hliteral : literal? declared number = some l) :
    number ∈ chosen declared.toList a ↔ l.holds a = true := by
  obtain ⟨hvar, hsign⟩ := literal?_eq_some_iff.mp hliteral
  unfold chosen
  simp only [List.mem_map, List.mem_zipIdx_iff_getElem?, Prod.exists]
  rw [Literal.holds, beq_iff_eq, hsign]
  constructor
  · rintro ⟨v, i, hv, rfl⟩
    rw [natAbs_signed, Nat.add_sub_cancel, hv] at hvar
    obtain rfl := Option.some.inj hvar
    exact (decide_signed_pos (a l.var) i).symm
  · intro hvalue
    have hindex : number.natAbs - 1 + 1 = number.natAbs := by omega
    exact ⟨l.var, number.natAbs - 1, hvar, by rw [hvalue, hindex, signed_natAbs]⟩

/-- One of the literals is there and true. -/
def SomeHolds (a : Assignment) (ls : List (Option Literal)) : Prop :=
  ∃ l, some l ∈ ls ∧ l.holds a = true

theorem Represents.holds_iff (h : d.Represents supply n clauses)
    (hclauses : Within n clauses) :
    d.formula.holds a = true ↔ Hits (chosen d.declared.toList a) clauses := by
  have hsize : d.declared.size = n := h.length_declared
  have hformula : d.formula.holds a = true ↔
      ∀ ls ∈ d.formula.clauses.toList.map fun c => c.literals.map some, SomeHolds a ls := by
    rw [Formula.holds_iff, List.forall_mem_map]
    simp [SomeHolds, Clause.holds_iff]
  have hwritten : ∀ clause ∈ clauses, SomeHolds a (clause.map (literal? d.declared)) ↔
      ∃ number ∈ clause, number ∈ chosen d.declared.toList a := by
    intro clause hclause
    constructor
    · rintro ⟨l, hl, htrue⟩
      obtain ⟨number, hnumber, hliteral⟩ := List.mem_map.mp hl
      have hzero := (hclauses clause hclause number hnumber).1
      exact ⟨number, hnumber, (mem_chosen_iff hzero hliteral).mpr htrue⟩
    · rintro ⟨number, hnumber, hchosen⟩
      obtain ⟨hzero, hbound⟩ := hclauses clause hclause number hnumber
      obtain ⟨l, hl⟩ := exists_literal hzero (hbound.trans_eq hsize.symm)
      exact ⟨l, hl ▸ List.mem_map_of_mem hnumber, (mem_chosen_iff hzero hl).mp hchosen⟩
  rw [hformula, h.clauses, List.forall_mem_map]
  exact forall₂_congr hwritten

/-! ## Models -/

/-- A binding of all variables chooses a sign for each of their numbers. -/
theorem trueNumbers_eq_chosen (h : ∀ v ∈ d.declared.toList, b.binds v = true) :
    d.trueNumbers b = chosen d.declared.toList b.totalized := by
  unfold trueNumbers chosen
  rw [← List.filterMap_eq_map]
  apply List.filterMap_congr
  rintro ⟨v, i⟩ hmem
  obtain ⟨value, hvalue⟩ := Binding.binds_iff.mp (h v (List.fst_mem_of_mem_zipIdx hmem))
  simp [Binding.totalized, hvalue, signed]

theorem Represents.satisfiable_iff (h : d.Represents supply n clauses)
    (hclauses : Within n clauses) :
    d.formula.SatisfiableFrom .empty ↔ ∃ signs, Choice n signs ∧ Hits signs clauses := by
  have hlength := h.length_declared
  have hnodup : d.declared.toList.Nodup := by
    rw [h.declared]
    exact nodup_fresh supply n
  constructor
  · rintro ⟨a, _, ha⟩
    refine ⟨chosen d.declared.toList a, hlength ▸ choice_chosen d.declared.toList a, ?_⟩
    exact (h.holds_iff hclauses).mp ha
  · rintro ⟨signs, hchoice, hhits⟩
    obtain ⟨a, rfl⟩ := exists_chosen hnodup (hlength ▸ hchoice)
    refine ⟨a, ?_, (h.holds_iff hclauses).mpr hhits⟩
    intro v value hvalue
    simp [Binding.get?, Binding.empty] at hvalue

theorem foreignVariable?_empty (f : Formula) : Search.foreignVariable? f .empty = none := by
  rw [Search.foreignVariable?_eq_none_iff]
  rintro ⟨v, _, hbinds, _⟩
  simp [Binding.binds, Binding.empty] at hbinds

/-- The search finds a choice of signs, unless there is none. -/
theorem Represents.solved (h : d.Represents supply n clauses)
    (hclauses : Within n clauses) :
    (∃ b, solveWith d.formula .empty {} .never = .ok b ∧ Choice n (d.trueNumbers b) ∧
      Hits (d.trueNumbers b) clauses) ∨
    solveWith d.formula .empty {} .never = .error .unsatisfiable ∧
      ¬∃ signs, Choice n signs ∧ Hits signs clauses := by
  rw [← h.satisfiable_iff hclauses]
  have hcases : (∃ b, solveWith d.formula .empty {} .never = .ok b ∧ _) ∨
      solveWith d.formula .empty {} .never = .error .unsatisfiable ∧ _ :=
    solveWith_never_cases (foreignVariable?_empty d.formula)
  rcases hcases with ⟨b, hok, _⟩ | hunsatisfiable
  · left
    obtain ⟨c, rfl, hsame, hdown, hsatisfied⟩ := solveWith_eq_ok hok
    have hof : Branch.Of (Search.startingClauses d.formula .empty) c.branch :=
      Branch.Of.root.of_descends hdown
    have hbinds : ∀ v ∈ d.declared.toList, c.model.binds v = true := by
      intro v hv
      rw [h.declared, ← h.scope, Array.mem_toList_iff] at hv
      have hcomplete : c.config.completeModel = true := by rw [hsame.config]; rfl
      exact Search.binds_model.mpr (Or.inr ⟨hcomplete,
        (mem_variables_iff hsame).mpr (Scope.contains_iff.mpr hv)⟩)
    have hlength := h.length_declared
    refine ⟨c.model, hok, ?_⟩
    rw [trueNumbers_eq_chosen hbinds]
    refine ⟨hlength ▸ choice_chosen d.declared.toList _, ?_⟩
    exact (h.holds_iff hclauses).mp
      (Formula.holds_of_evaluate c.model.agreesWith_totalized (evaluate_model hof hsatisfied))
  · exact Or.inr hunsatisfiable

end Dimacs

namespace CommandLine

open Dimacs

variable {content : ByteArray} {d : Dimacs} {n : Nat} {numbers : List Int}

/-- The answer with the model line of a choice of signs. -/
def modelText (signs : List Int) : String :=
  "SAT\nv" ++ String.join (signs.map fun number => s!" {number}") ++ " 0\n"

theorem modelText_ne (signs : List Int) : modelText signs ≠ "UNSAT\n" := by
  intro h
  have hfirst := congrArg (fun text : String => text.toList.head?) h
  simp [modelText] at hfirst

theorem check_of_parse_failure {path : String} {failure : Failure ParseError}
    (h : parse {} content = .error failure) :
    check path (.ok content) = .error (failure.map .parseFailed) := by
  have hparse : parseFile {} path (.ok content) = .error failure := h
  unfold check prepareCheck
  rw [hparse]
  rfl

theorem check_of_parse {path : String} (h : parse {} content = .ok d) :
    check path (.ok content) = answer d (solveWith d.formula .empty {} .never) := by
  have hparse : parseFile {} path (.ok content) = .ok d := h
  have hprepare : Search.prepare d.formula .empty {} .never =
      .ok (Search.start d.formula .empty {} .never) := by
    rw [Search.prepare, foreignVariable?_empty]
  unfold check prepareCheck solveWith
  rw [hparse]
  simp only [hprepare]
  rfl

theorem answer_of_ok {b : Binding} : answer d (.ok b) = .ok (modelText (d.trueNumbers b)) := by
  have htext : ∀ numbers : String,
      "SAT\n" ++ ("v" ++ numbers ++ " 0") ++ "\n" = "SAT\nv" ++ numbers ++ " 0\n" := by
    intro numbers
    apply String.toList_inj.mp
    simp
  exact congrArg Except.ok (htext _)

/-- The answer to a file is a choice of signs that hits its clauses, unless there is none. -/
theorem check_of_describes (path : String) (h : Describes content n numbers) (hlt : n < 2 ^ 60) :
    (∃ signs, Choice n signs ∧ Hits signs (writtenClauses numbers) ∧
      check path (.ok content) = .ok (modelText signs)) ∨
    check path (.ok content) = .ok "UNSAT\n" ∧
      ¬∃ signs, Choice n signs ∧ Hits signs (writtenClauses numbers) := by
  obtain ⟨d, hd, hrepresents⟩ := parse_of_describes {} h hlt
  rw [check_of_parse hd]
  rcases hrepresents.solved (within_writtenClauses h.bounded) with
    ⟨b, hok, hchoice, hhits⟩ | ⟨hunsatisfiable, hnone⟩
  · rw [hok, answer_of_ok]
    exact Or.inl ⟨d.trueNumbers b, hchoice, hhits, rfl⟩
  · rw [hunsatisfiable]
    exact Or.inr ⟨rfl, hnone⟩

theorem parseCommand_check {path : String} {rest : List String} {timeout : Option Nat}
    (h : parseTimeout rest = .ok timeout) :
    parseCommand ("check" :: path :: rest) = .ok (.check path timeout) := by
  have hparse : parseCommand ("check" :: path :: rest) =
      (parseTimeout rest >>= fun timeout => .ok (.check path timeout)) := rfl
  rw [hparse, h]
  rfl

/-- The command answers a file that is not read with an error, and any other file with a choice of
signs that every clause of the file has a number in common with, if there is one.  A file that
announces more variables than can be listed is not answered: the command panics. -/
theorem run_check {path : String} {rest : List String} {timeout : Option Nat}
    {readFile : String → Except FileError ByteArray} (program : String)
    (htimeout : parseTimeout rest = .ok timeout) (hcontent : readFile path = .ok content) :
    let outcome := run program ("check" :: path :: rest) readFile
    let oversized := Oversized (Text.lines content.data.toList)
    (oversized → outcome.exitCode = 101 ∧ outcome.stdout = "") ∧
    (¬oversized → (∀ d, parse {} content ≠ .ok d) →
      outcome.exitCode = 1 ∧ outcome.stdout = "") ∧
    ∀ d, parse {} content = .ok d →
      outcome.exitCode = 0 ∧
      (∃ n numbers, Describes content n numbers) ∧
      ∀ n numbers, Describes content n numbers →
        ((∃ signs, Choice n signs ∧ Hits signs (writtenClauses numbers) ∧
            outcome.stdout = modelText signs) ∨
          outcome.stdout = "UNSAT\n") ∧
        (outcome.stdout = "UNSAT\n" ↔
          ¬∃ signs, Choice n signs ∧ Hits signs (writtenClauses numbers)) := by
  intro outcome oversized
  have hrun : outcome = .ofResult program (check path (.ok content)) := by
    unfold outcome run
    rw [parseCommand_check htimeout, ← hcontent]
    rfl
  have hpanicked : ∀ cause, parse {} content = .error (.panicked cause) ↔ oversized :=
    fun _ => parseLines_eq_panicked_iff
  rw [hrun]
  refine ⟨?_, ?_, ?_⟩
  · intro hoversized
    rw [check_of_parse_failure ((hpanicked .capacityOverflow).mpr hoversized)]
    exact ⟨rfl, rfl⟩
  · intro hsmall hrejected
    cases hparse : parse {} content with
    | ok d => exact absurd hparse (hrejected d)
    | error failure =>
        rw [check_of_parse_failure hparse]
        cases failure with
        | returned error => exact ⟨rfl, rfl⟩
        | panicked cause => exact absurd ((hpanicked cause).mp hparse) hsmall
  · intro d hd
    have hsmall : ¬oversized := by
      rw [← hpanicked .capacityOverflow, hd]
      exact fun h => by cases h
    have hlt : ∀ {n numbers}, Describes content n numbers → n < 2 ^ 60 :=
      fun hdescribes => Nat.not_le.mp (mt hdescribes.oversized hsmall)
    obtain ⟨n, numbers, hdescribes, _⟩ := describes_of_parse hd
    refine ⟨?_, ⟨n, numbers, hdescribes⟩, ?_⟩
    · rcases check_of_describes path hdescribes (hlt hdescribes) with
        ⟨_, _, _, hsat⟩ | ⟨hunsat, _⟩
      · rw [hsat]
        rfl
      · rw [hunsat]
        rfl
    · intro n numbers hdescribes
      rcases check_of_describes path hdescribes (hlt hdescribes) with
        ⟨signs, hchoice, hhits, hsat⟩ | ⟨hunsat, hnone⟩
      · rw [hsat]
        exact ⟨Or.inl ⟨signs, hchoice, hhits, rfl⟩, fun h => absurd h (modelText_ne signs),
          fun hnone => absurd ⟨signs, hchoice, hhits⟩ hnone⟩
      · rw [hunsat]
        exact ⟨Or.inr rfl, fun _ => hnone, fun _ => rfl⟩

theorem run_check_of_spanning_clause :
    let content := "c f\np cnf 3 2\n1\n-2 0 2\nc\n3 0".toUTF8
    let readFile : String → Except FileError ByteArray := fun _ => .ok content
    let outcome := run "sat" ["check", "f", "50"] readFile
    Describes content 3 [1, -2, 0, 2, 3, 0] ∧ outcome.exitCode = 0 ∧
      ∃ signs, Choice 3 signs ∧ Hits signs [[1, -2], [2, 3]] ∧
        outcome.stdout = modelText signs := by
  intro content readFile outcome
  have hdescribes : Describes content 3 [1, -2, 0, 2, 3, 0] := by
    refine ⟨⟨"p cnf 3 2".toList, (Text.lines content.data.toList).drop 2,
      ["1".toList, "-2 0 2".toList, "c".toList, "3 0".toList], ?_, ?_, ?_, ?_⟩, ?_, ?_⟩
    · refine ⟨["c f".toUTF8.data.toList], "p cnf 3 2".toUTF8.data.toList, ?_, ?_, ?_, ?_⟩
      · decide
      · exact List.forall_mem_singleton.mpr ⟨"c f".toList, by decide, by decide⟩
      · decide
      · decide
    · exact ⟨['3'], ['2'], by decide, by decide, by decide⟩
    · exact ⟨_, [], (List.append_nil _).symm, by decide, by decide, Or.inl rfl⟩
    · unfold Spell Numerals
      decide
    · decide
    · decide
  have hclauses : writtenClauses [1, -2, 0, 2, 3, 0] = [[1, -2], [2, 3]] := by decide
  have htimeout : parseTimeout ["50"] = .ok (some 50) := by decide
  have hcontent : readFile "f" = .ok content := rfl
  obtain ⟨d, hd, _⟩ := parse_of_describes {} hdescribes (by decide)
  obtain ⟨hexit, _, hanswer⟩ := (run_check "sat" htimeout hcontent).2.2 d hd
  obtain ⟨hcase, hnone⟩ := hanswer 3 _ hdescribes
  rw [hclauses] at hcase hnone
  refine ⟨hdescribes, hexit, hcase.resolve_right fun hunsat => ?_⟩
  refine hnone.mp hunsat ⟨[1, 2, 3], by unfold Choice; decide, ?_⟩
  unfold Hits
  decide

/-- A file is not accepted where it announces variables that cannot be listed, but this is not
reported as an error. -/
theorem run_check_of_unlistable_variables :
    let content := "p cnf 1152921504606846976 1\n".toUTF8
    let outcome := run "sat" ["check", "f"] fun _ => .ok content
    (∀ d, parse {} content ≠ .ok d) ∧ outcome.exitCode ≠ 1 := by
  intro content outcome
  have hpanics : parse {} content = .error (.panicked .capacityOverflow) := rfl
  have houtcome : outcome = .ofResult "sat" (check "f" (.ok content)) := rfl
  refine ⟨fun d hd => ?_, ?_⟩
  · cases hpanics.symm.trans hd
  · rw [houtcome, check_of_parse_failure hpanics]
    decide

end CommandLine

end SatSearch
