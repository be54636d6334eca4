import SatSearch.Proofs.CommandLine
import SatSearch.Proofs.Rendering

/-!
# The line of a model, read back

The numbers on the line of a model are those of the variables that have a value, in ascending order
and with the signs of the values.  Behind a problem line for as many variables they are a file with
one clause, and what is read from it tells the values of all variables.
-/

namespace SatSearch.Dimacs

/-! ## Files that are written on two lines -/

/-- The numerals of the numbers. -/
def numeralWords (numbers : List Int) : List (List Char) :=
  numbers.map fun number => (toString number).toList

def problemText (n m : Nat) : List Char :=
  ['p'] ++ Text.spaced [['c', 'n', 'f'], n.repr.toList, m.repr.toList]

variable {n m : Nat} {numbers : List Int} {text : List Char} {c : Char}

theorem isWord_numeralWords (numbers : List Int) :
    ∀ w ∈ numeralWords numbers, Text.IsWord w := by
  intro w hw
  obtain ⟨number, _, rfl⟩ := List.mem_map.mp hw
  exact Text.isWord_toString number

theorem numerals_numeralWords (h : ∀ number ∈ numbers, number.natAbs < 2 ^ 63) :
    Numerals (numeralWords numbers) numbers := by
  unfold Numerals numeralWords
  rw [List.map_map]
  exact List.map_congr_left fun number hnumber => Text.readNumeral_toString (h number hnumber)

theorem isWord_problemWords (n m : Nat) :
    ∀ w ∈ [['c', 'n', 'f'], n.repr.toList, m.repr.toList], Text.IsWord w := by
  have hcnf : Text.IsWord ['c', 'n', 'f'] := Text.isWord_of_all (by decide) (by decide)
  simp only [List.forall_mem_cons]
  exact ⟨hcnf, Text.isWord_repr n, Text.isWord_repr m, List.forall_mem_nil _⟩

theorem isWord_p : Text.IsWord ['p'] := Text.isWord_of_all (by decide) (by decide)

theorem announces_problemText (hn : n < 2 ^ 64) (hm : m < 2 ^ 64) :
    Announces (Text.trim (problemText n m)) n m := by
  have hwords : Text.words (Text.trim (problemText n m)) =
      [['p'], ['c', 'n', 'f'], n.repr.toList, m.repr.toList] := by
    rw [Text.words_trim, problemText]
    exact Text.words_append_spaced isWord_p (isWord_problemWords n m)
  exact ⟨_, _, hwords, Text.readNumeral_unsigned_repr hn, Text.readNumeral_unsigned_repr hm⟩

theorem not_skipped_of_head? (h : text.head? = some c) (hc : c ≠ 'c') : ¬Skipped text := by
  rintro (rfl | hcomment)
  · cases h
  · rw [h, Option.some.injEq] at hcomment
    exact hc hcomment

theorem not_final_of_head? (h : text.head? = some c) (hc : c ≠ '%') : ¬Final text := by
  intro hfinal
  rw [Final, h, Option.some.injEq] at hfinal
  exact hc hfinal

theorem head?_toString (i : Int) :
    ∃ c, (toString i).toList.head? = some c ∧ c ≠ 'c' ∧ c ≠ '%' := by
  obtain ⟨c, rest, hcons⟩ := List.exists_cons_of_ne_nil (Text.isWord_toString i).1
  have hmem : c ∈ (toString i).toList := by
    rw [hcons]
    exact List.mem_cons_self
  refine ⟨c, by rw [hcons, List.head?_cons], ?_⟩
  rcases Text.mem_toString hmem with rfl | hdigit
  · decide
  · constructor <;> rintro rfl <;> exact absurd hdigit (by decide)

theorem newline_not_mem_spaced {ws : List (List Char)} (h : ∀ w ∈ ws, Text.IsWord w) :
    ∀ c ∈ Text.spaced ws, (c == '\n') = false := by
  intro c hc
  obtain ⟨w, hw, hmem⟩ := List.mem_flatMap.mp hc
  rw [beq_eq_false_iff_ne]
  rintro rfl
  rcases List.mem_cons.mp hmem with hblank | hmem
  · exact absurd hblank (by decide)
  · exact absurd ((h w hw).2 '\n' hmem) (by decide)

theorem lines_written {file : String} {ws : List (List Char)}
    (hfile : file.toList = problemText n m ++ '\n' :: Text.spaced ws)
    (hws : ∀ w ∈ ws, Text.IsWord w) :
    Text.lines file.toUTF8.data.toList =
      [Text.encode (problemText n m), Text.encode (Text.spaced ws)] := by
  have hfirst : ∀ c ∈ problemText n m, (c == '\n') = false :=
    List.forall_mem_append.mpr ⟨List.forall_mem_singleton.mpr (by decide),
      newline_not_mem_spaced (isWord_problemWords n m)⟩
  have hsecond : Text.pieces (· == '\n') ('\n' :: Text.spaced ws) = [] :: [Text.spaced ws] := by
    rw [Text.pieces_cons_of_separates (by decide),
      Text.pieces_of_forall_not (newline_not_mem_spaced hws)]
  rw [Text.toList_data_toUTF8, hfile, Text.lines_encode,
    Text.pieces_append_of_forall_not hfirst hsecond, List.append_nil]
  rfl

theorem trimmed?_encode (cs : List Char) : trimmed? (Text.encode cs) = some (Text.trim cs) := by
  rw [trimmed?, Text.decode?_encode]
  rfl

/-- A line of numerals is neither skipped nor final. -/
theorem kept_of_numerals (hne : numbers ≠ []) :
    ¬Skipped (Text.trim (Text.spaced (numeralWords numbers))) ∧
      ¬Final (Text.trim (Text.spaced (numeralWords numbers))) := by
  obtain ⟨i, others, rfl⟩ := List.exists_cons_of_ne_nil hne
  obtain ⟨c, hc, hnotComment, hnotEnd⟩ := head?_toString i
  have hhead : (Text.trim (Text.spaced (numeralWords (i :: others)))).head? = some c :=
    (Text.head?_trim_spaced (Text.isWord_toString i) (numeralWords others)).trans hc
  exact ⟨not_skipped_of_head? hhead hnotComment, not_final_of_head? hhead hnotEnd⟩

/-- A problem line and the numerals of some numbers on a second line are a file that describes
these numbers. -/
theorem describes_written {file : String}
    (hfile : file.toList = problemText n (numbers.count 0) ++
      '\n' :: Text.spaced (numeralWords numbers))
    (hn : n < 2 ^ 63) (hcount : numbers.count 0 < 2 ^ 64)
    (hbound : ∀ number ∈ numbers, number.natAbs ≤ n) (hend : numbers.getLast? = some 0) :
    Describes file.toUTF8 n numbers := by
  let first := problemText n (numbers.count 0)
  let second := Text.spaced (numeralWords numbers)
  have hne : numbers ≠ [] := by
    rintro rfl
    cases hend
  obtain ⟨hskipped, hfinal⟩ := kept_of_numerals hne
  have hopens : Opens (Text.lines file.toUTF8.data.toList) (Text.trim first)
      [Text.encode second] := by
    refine ⟨[], Text.encode first, lines_written hfile (isWord_numeralWords numbers),
      List.forall_mem_nil _, trimmed?_encode first, ?_⟩
    exact not_skipped_of_head? (Text.head?_trim_append isWord_p _) (by decide)
  have hcontains : Contains [Text.encode second] [Text.trim second] :=
    contains_cons.mpr ⟨_, trimmed?_encode second,
      Or.inr ⟨hfinal, [], rfl, contains_nil.mpr rfl⟩⟩
  have hwords : Text.words (Text.trim second) = numeralWords numbers := by
    rw [Text.words_trim]
    exact Text.words_spaced (isWord_numeralWords numbers)
  have hnumerals : Numerals (numeralWords numbers) numbers :=
    numerals_numeralWords fun number hnumber => (hbound number hnumber).trans_lt hn
  have hspelled : Spell [Text.trim second] numbers := by
    refine (spell_cons_of_not_skipped hskipped).mpr
      ⟨numbers, [], (List.append_nil numbers).symm, ?_, rfl⟩
    rwa [hwords]
  have hannounces := announces_problemText (hn.trans (by decide)) hcount
  exact ⟨⟨_, _, _, hopens, hannounces, hcontains, hspelled⟩, hbound, Or.inr hend⟩

/-! ## The numbers of a binding -/

variable {d e : Dimacs} {b b' : Binding} {number k : Nat} {i : Int} {v : Variable}

theorem variableOf?_succ (d : Dimacs) (i : Nat) : d.variableOf? (i + 1) = d.declared[i]? := rfl

theorem exists_succ_of_variableOf? (h : d.variableOf? number = some v) :
    ∃ i, number = i + 1 ∧ d.declared[i]? = some v := by
  cases number with
  | zero => cases h
  | succ i => exact ⟨i, rfl, h⟩

theorem mem_declared_iff : v ∈ d.declared.toList ↔ ∃ number, d.variableOf? number = some v := by
  constructor
  · intro hv
    obtain ⟨i, hi⟩ := List.mem_iff_getElem?.mp hv
    exact ⟨i + 1, by rwa [variableOf?_succ, ← Array.getElem?_toList]⟩
  · rintro ⟨number, hnumber⟩
    obtain ⟨i, _, hi⟩ := exists_succ_of_variableOf? hnumber
    exact List.mem_of_getElem? (Array.getElem?_toList.trans hi)

theorem le_size_of_variableOf? (h : d.variableOf? number = some v) :
    number ≠ 0 ∧ number ≤ d.declared.size := by
  obtain ⟨i, rfl, hi⟩ := exists_succ_of_variableOf? h
  obtain ⟨hlt, _⟩ := Array.getElem?_eq_some_iff.mp hi
  exact ⟨Nat.succ_ne_zero i, hlt⟩

theorem exists_variableOf? (h : d.variableOf? number = some v)
    (hsize : e.declared.size = d.declared.size) : ∃ w, e.variableOf? number = some w := by
  obtain ⟨i, rfl, hi⟩ := exists_succ_of_variableOf? h
  obtain ⟨hlt, _⟩ := Array.getElem?_eq_some_iff.mp hi
  exact ⟨e.declared[i], Array.getElem?_eq_getElem (hlt.trans_eq hsize.symm)⟩

/-- The numbers of different variables are different. -/
theorem variableOf?_inj (hnodup : d.declared.toList.Nodup) (hnumber : d.variableOf? number = some v)
    (hk : d.variableOf? k = some v) : number = k := by
  obtain ⟨i, rfl, hi⟩ := exists_succ_of_variableOf? hnumber
  obtain ⟨j, rfl, hj⟩ := exists_succ_of_variableOf? hk
  rw [← Array.getElem?_toList] at hi hj
  obtain ⟨hlt, _⟩ := List.getElem?_eq_some_iff.mp hi
  rw [(List.getElem?_inj hlt hnodup).mp (hi.trans hj.symm)]

theorem literal?_declared_eq_some_iff {l : Literal} (hi : i ≠ 0) :
    literal? d.declared i = some l ↔
      d.variableOf? i.natAbs = some l.var ∧ l.positive = decide (0 < i) := by
  rw [literal?_eq_some_iff, Array.getElem?_toList, variableOf?, if_neg (by omega)]

theorem mem_trueNumbers_iff :
    i ∈ d.trueNumbers b ↔
      ∃ v, d.variableOf? i.natAbs = some v ∧ b.get? v = some (decide (0 < i)) := by
  unfold trueNumbers
  simp only [List.mem_filterMap, List.mem_zipIdx_iff_getElem?, Prod.exists, Option.map_eq_some_iff]
  constructor
  · rintro ⟨v, j, hv, value, hvalue, hsigned⟩
    have hi : i = signed value (j + 1) := hsigned.symm
    refine ⟨v, ?_, ?_⟩
    · rwa [hi, natAbs_signed, variableOf?_succ, ← Array.getElem?_toList]
    · rwa [hi, decide_signed_pos]
  · rintro ⟨v, hv, hvalue⟩
    obtain ⟨j, hj, hget⟩ := exists_succ_of_variableOf? hv
    refine ⟨v, j, by rwa [Array.getElem?_toList], _, hvalue, ?_⟩
    have hsigned : signed (decide (0 < i)) (j + 1) = i := by rw [← hj, signed_natAbs]
    exact hsigned

theorem bound_of_mem_trueNumbers (hi : i ∈ d.trueNumbers b) :
    i ≠ 0 ∧ i.natAbs ≤ d.declared.size := by
  obtain ⟨v, hv, _⟩ := mem_trueNumbers_iff.mp hi
  obtain ⟨hpos, hbound⟩ := le_size_of_variableOf? hv
  exact ⟨by omega, hbound⟩

theorem pairwise_trueNumbers (d : Dimacs) (b : Binding) :
    ((d.trueNumbers b).map Int.natAbs).Pairwise (· < ·) := by
  have hindices : d.declared.toList.zipIdx.Pairwise fun x y => x.2 < y.2 := by
    apply List.pairwise_map.mp
    change (d.declared.toList.zipIdx.map Prod.snd).Pairwise (· < ·)
    rw [List.zipIdx_map_snd]
    exact List.pairwise_lt_range' 1
  apply List.pairwise_map.mpr
  apply List.pairwise_filterMap.mpr
  apply hindices.imp
  rintro ⟨v, j⟩ ⟨w, k⟩ hlt i hi i' hi'
  obtain ⟨value, _, hvalue⟩ := Option.map_eq_some_iff.mp hi
  obtain ⟨value', _, hvalue'⟩ := Option.map_eq_some_iff.mp hi'
  have hj : i.natAbs = j + 1 := by
    rw [← hvalue]
    exact natAbs_signed value (j + 1)
  have hk : i'.natAbs = k + 1 := by
    rw [← hvalue']
    exact natAbs_signed value' (k + 1)
  rw [hj, hk]
  exact Nat.succ_lt_succ hlt

theorem trueNumbers_congr (h : ∀ v ∈ d.declared.toList, b.get? v = b'.get? v) :
    d.trueNumbers b = d.trueNumbers b' := by
  apply List.filterMap_congr
  rintro ⟨v, i⟩ hmem
  simp only [h v (List.fst_mem_of_mem_zipIdx hmem)]

/-! ## The line of a model -/

/-- The clause of `e` consists of the literals that `b` makes true, in ascending order of their
numbers.  The variables of `e` stand for those of `d` with the same numbers. -/
structure Tells (d : Dimacs) (b : Binding) (e : Dimacs) (c : Clause) : Prop where
  size : e.declared.size = d.declared.size
  distinct : e.declared.toList.Nodup
  clauses : e.formula.clauses = #[c]
  ascending : ∃ numbers : List Nat, numbers.Pairwise (· < ·) ∧
    (c.literals.map fun l => some l.var) = numbers.map e.variableOf?
  literals : ∀ number w positive, e.variableOf? number = some w →
    (⟨w, positive⟩ ∈ c.literals ↔
      ∃ v, d.variableOf? number = some v ∧ b.get? v = some positive)

/-- What follows the first letter of the line. -/
def signedText (d : Dimacs) (b : Binding) : String :=
  String.join ((d.trueNumbers b).map fun number => s!" {number}") ++ " 0"

theorem modelLine_eq (d : Dimacs) (b : Binding) : d.modelLine b = "v" ++ d.signedText b :=
  String.append_assoc

theorem toList_signedText (d : Dimacs) (b : Binding) :
    (d.signedText b).toList = Text.spaced (numeralWords (d.trueNumbers b ++ [0])) := by
  have hnumber : ∀ number : Int, (s!" {number}").toList = ' ' :: (toString number).toList := by
    intro number
    exact String.toList_append
  rw [signedText, String.toList_append, String.toList_join, List.flatMap_map]
  simp only [hnumber, Text.spaced, numeralWords, List.flatMap_map, List.flatMap_append]
  rfl

theorem count_zero_signed (d : Dimacs) (b : Binding) : (d.trueNumbers b ++ [0]).count 0 = 1 := by
  have hzero : (0 : Int) ∉ d.trueNumbers b := fun h => (bound_of_mem_trueNumbers h).1 rfl
  rw [List.count_append, List.count_eq_zero.mpr hzero]
  rfl

theorem writtenClauses_signed (d : Dimacs) (b : Binding) :
    writtenClauses (d.trueNumbers b ++ [0]) = [d.trueNumbers b] := by
  have hkept : ∀ i ∈ d.trueNumbers b, (i == 0) = false :=
    fun i hi => beq_eq_false_iff_ne.mpr (bound_of_mem_trueNumbers hi).1
  rw [writtenClauses, Text.pieces_concat_of_separates (by decide),
    Text.pieces_of_forall_not hkept]
  rfl

theorem describes_signedText (hsize : d.declared.size < 2 ^ 63) (b : Binding) :
    Describes (s!"p cnf {d.declared.size} 1\n" ++ d.signedText b).toUTF8 d.declared.size
      (d.trueNumbers b ++ [0]) := by
  have hbound : ∀ i ∈ d.trueNumbers b ++ [0], i.natAbs ≤ d.declared.size := by
    intro i hi
    rcases List.mem_append.mp hi with hi | hi
    · exact (bound_of_mem_trueNumbers hi).2
    · rw [List.mem_singleton.mp hi]
      exact Nat.zero_le _
  apply describes_written ?_ hsize ?_ hbound List.getLast?_concat
  · have hproblem : (s!"p cnf {d.declared.size} 1\n").toList =
        problemText d.declared.size 1 ++ ['\n'] := by
      change ("p cnf " ++ d.declared.size.repr ++ " 1\n").toList = _
      have hone : Nat.toDigits 10 1 = ['1'] := by decide
      simp [problemText, Text.spaced, hone]
    rw [count_zero_signed, String.toList_append, toList_signedText, hproblem, List.append_assoc]
    rfl
  · rw [count_zero_signed]
    decide

theorem Represents.tells {supply : VariableSupply}
    (h : e.Represents supply d.declared.size [d.trueNumbers b]) : ∃ c, Tells d b e c := by
  have hsize : e.declared.size = d.declared.size := h.length_declared
  have hdistinct : e.declared.toList.Nodup := by
    rw [h.declared]
    exact nodup_fresh supply _
  obtain ⟨c, hc, hliterals⟩ : ∃ c, e.formula.clauses.toList = [c] ∧
      c.literals.map some = (d.trueNumbers b).map (literal? e.declared) := by
    have hclauses := h.clauses
    simpa [List.map_eq_singleton_iff] using hclauses
  have hmem : ∀ l : Literal, l ∈ c.literals ↔
      ∃ i ∈ d.trueNumbers b, literal? e.declared i = some l := by
    intro l
    rw [← List.mem_map_of_injective (Option.some_injective Literal), hliterals, List.mem_map]
  refine ⟨c, hsize, hdistinct, Array.toList_inj.mp hc, ?_, ?_⟩
  · refine ⟨_, pairwise_trueNumbers d b, ?_⟩
    have hvars := congrArg (List.map (Option.map Literal.var)) hliterals
    rw [List.map_map, List.map_map] at hvars
    rw [List.map_map]
    refine hvars.trans (List.map_congr_left fun i hi => ?_)
    have hzero := (bound_of_mem_trueNumbers hi).1
    change (literal? e.declared i).map Literal.var = e.variableOf? i.natAbs
    rw [literal?, Option.map_map, variableOf?, if_neg (by omega)]
    exact Option.map_id'
  · intro number w positive hw
    rw [hmem]
    constructor
    · rintro ⟨i, hi, hliteral⟩
      have hzero := (bound_of_mem_trueNumbers hi).1
      obtain ⟨hvar, rfl⟩ := (literal?_declared_eq_some_iff hzero).mp hliteral
      rw [variableOf?_inj hdistinct hw hvar]
      exact mem_trueNumbers_iff.mp hi
    · rintro ⟨v, hv, hvalue⟩
      obtain ⟨j, rfl, _⟩ := exists_succ_of_variableOf? hv
      have hzero : signed positive (j + 1) ≠ 0 := by
        intro hsigned
        have habs := natAbs_signed positive (j + 1)
        rw [hsigned] at habs
        cases habs
      refine ⟨signed positive (j + 1), mem_trueNumbers_iff.mpr ⟨v, ?_, ?_⟩, ?_⟩
      · rwa [natAbs_signed]
      · rwa [decide_signed_pos]
      · rw [literal?_declared_eq_some_iff hzero, natAbs_signed, decide_signed_pos]
        exact ⟨hw, rfl⟩

theorem Tells.get?_eq_some_iff {c : Clause} {positive : Bool} (h : Tells d b e c)
    {w : Variable} (hv : d.variableOf? number = some v) (hw : e.variableOf? number = some w) :
    b.get? v = some positive ↔ ⟨w, positive⟩ ∈ c.literals := by
  rw [h.literals number w positive hw]
  simp [hv]

/-- A clause tells the values of all variables. -/
theorem Tells.agree {c : Clause} (h : Tells d b e c) (h' : Tells d b' e c) :
    ∀ v ∈ d.declared.toList, b.get? v = b'.get? v := by
  intro v hv
  obtain ⟨number, hnumber⟩ := mem_declared_iff.mp hv
  obtain ⟨w, hw⟩ := exists_variableOf? hnumber h.size
  apply Option.ext
  intro positive
  rw [h.get?_eq_some_iff hnumber hw, h'.get?_eq_some_iff hnumber hw]

/-- The line of a model is read back as the clause of the literals that the binding makes true.  So
it determines what the binding says of the variables of the file. -/
theorem modelLine_parses_back (supply : VariableSupply) (hsize : d.declared.size < 2 ^ 60)
    (b b' : Binding) :
    (∃ line, d.modelLine b = "v" ++ line ∧
      ∃ e c, parseText supply (s!"p cnf {d.declared.size} 1\n" ++ line) = .ok e ∧
        Tells d b e c) ∧
    (d.modelLine b = d.modelLine b' ↔ ∀ v ∈ d.declared.toList, b.get? v = b'.get? v) := by
  have hback : ∀ a : Binding, ∃ e c,
      parseText supply (s!"p cnf {d.declared.size} 1\n" ++ d.signedText a) = .ok e ∧
        Tells d a e c := by
    intro a
    have hdescribes := describes_signedText (hsize.trans (by decide)) a
    obtain ⟨e, he, hrepresents⟩ := parse_of_describes supply hdescribes hsize
    rw [writtenClauses_signed] at hrepresents
    obtain ⟨c, hc⟩ := hrepresents.tells
    exact ⟨e, c, he, hc⟩
  refine ⟨⟨_, modelLine_eq d b, hback b⟩, ?_, ?_⟩
  · intro hline
    -- equal lines are read back as the same clause, and it tells the values
    obtain ⟨e, c, he, hc⟩ := hback b
    obtain ⟨e', c', he', hc'⟩ := hback b'
    have htext : d.signedText b = d.signedText b' := by
      rwa [modelLine_eq, modelLine_eq, String.append_right_inj] at hline
    rw [htext, he'] at he
    obtain rfl := Except.ok.inj he
    obtain rfl : c' = c := by
      have hclauses := hc'.clauses.symm.trans hc.clauses
      simpa using hclauses
    exact hc.agree hc'
  · intro hagree
    rw [modelLine_eq, modelLine_eq, signedText, signedText, trueNumbers_congr hagree]

theorem modelLine_parses_back_with_unbound_variable :
    let d : Dimacs := ⟨.withVariables [⟨4⟩, ⟨5⟩, ⟨6⟩], #[⟨4⟩, ⟨5⟩, ⟨6⟩]⟩
    let b := Binding.ofList [(⟨4⟩, true), (⟨6⟩, false), (⟨9⟩, true)]
    let b' := Binding.ofList [(⟨4⟩, true), (⟨6⟩, false)]
    d.declared.size < 2 ^ 60 ∧ d.modelLine b = "v 1 -3 0" ∧ d.modelLine b = d.modelLine b' ∧
      ∃ e c, parseText {} "p cnf 3 1\n 1 -3 0" = .ok e ∧ Tells d b e c := by
  intro d b b'
  have hsize : d.declared.size < 2 ^ 60 := by decide
  have htext : d.modelLine b = "v 1 -3 0" := by decide
  obtain ⟨⟨line, hline, hback⟩, hsame⟩ := modelLine_parses_back {} hsize b b'
  have hnumbers : line = " 1 -3 0" := by
    rw [htext] at hline
    exact (String.append_right_inj "v").mp hline.symm
  have hfile : s!"p cnf {d.declared.size} 1\n" ++ " 1 -3 0" = "p cnf 3 1\n 1 -3 0" := by decide
  rw [hnumbers, hfile] at hback
  exact ⟨hsize, htext, hsame.mpr (by decide), hback⟩

end SatSearch.Dimacs
