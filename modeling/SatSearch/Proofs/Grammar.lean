import SatSearch.Dimacs.Parser
import SatSearch.Proofs.Formula
import SatSearch.Proofs.Pieces
import SatSearch.Proofs.Success

/-!
# The grammar of the input

What a file says does not depend on how the reader goes through it: the lines up to the end, the
problem line, and the numbers that the other lines write one after the other.  The reader accepts
exactly the files that announce what they write, and the numbers determine what it reads.  The one
exception are files that announce more variables than can be listed, on which it panics.

Going through the file, the reader holds the runs between the zeros of the numbers so far.  One
number keeps this, so do the words of a line and the lines of a body.
-/

namespace SatSearch.Dimacs

/-! ## What a file says -/

/-- The text of a line without the blanks at its ends, if the line is encoded in UTF-8. -/
def trimmed? (line : List UInt8) : Option (List Char) :=
  (Text.decode? line).map Text.trim

/-- Blank lines and comments are skipped. -/
def Skipped (text : List Char) : Prop :=
  text = [] ∨ text.head? = some 'c'

/-- The line ends the file. -/
def Final (text : List Char) : Prop :=
  text.head? = some '%'

instance (text : List Char) : Decidable (Skipped text) :=
  inferInstanceAs (Decidable (_ ∨ _))

instance (text : List Char) : Decidable (Final text) :=
  inferInstanceAs (Decidable (_ = _))

/-- `problem` is the first line that is not skipped, and `rest` are the lines after it. -/
def Opens (lines : List (List UInt8)) (problem : List Char) (rest : List (List UInt8)) : Prop :=
  ∃ header line, lines = header ++ line :: rest ∧
    (∀ skipped ∈ header, ∃ text, trimmed? skipped = some text ∧ Skipped text) ∧
    trimmed? line = some problem ∧ ¬Skipped problem

/-- `texts` are the lines before the first final one, or all lines if none is final. -/
def Contains (lines : List (List UInt8)) (texts : List (List Char)) : Prop :=
  ∃ body rest, lines = body ++ rest ∧ body.map trimmed? = texts.map some ∧
    (∀ text ∈ texts, ¬Final text) ∧
    (rest = [] ∨ ∃ line after text, rest = line :: after ∧ trimmed? line = some text ∧ Final text)

/-- The line reads `p cnf n m`. -/
def Announces (problem : List Char) (n m : Nat) : Prop :=
  ∃ variableCount clauseCount,
    Text.words problem = [['p'], ['c', 'n', 'f'], variableCount, clauseCount] ∧
    Text.readNumeral .unsigned64 variableCount = .ok n ∧
    Text.readNumeral .unsigned64 clauseCount = .ok m

/-- The words are numerals for the given numbers. -/
def Numerals (words : List (List Char)) (numbers : List Int) : Prop :=
  words.map (Text.readNumeral .signed64) = numbers.map .ok

/-- The numbers are written on the lines that are not skipped. -/
def Spell (texts : List (List Char)) (numbers : List Int) : Prop :=
  Numerals ((texts.filter fun text => ¬Skipped text).flatMap Text.words) numbers

/-- The bytes are a file that announces `n` variables and then writes the given numbers, in as many
clauses as it announces. -/
structure Describes (bytes : ByteArray) (n : Nat) (numbers : List Int) : Prop where
  layout : ∃ problem rest texts, Opens (Text.lines bytes.data.toList) problem rest ∧
    Announces problem n (numbers.count 0) ∧ Contains rest texts ∧ Spell texts numbers
  bounded : ∀ number ∈ numbers, number.natAbs ≤ n
  terminated : numbers = [] ∨ numbers.getLast? = some 0

/-- The lines announce more variables than a list has the capacity for. -/
def Oversized (lines : List (List UInt8)) : Prop :=
  ∃ problem rest n m, Opens lines problem rest ∧ Announces problem n m ∧ 2 ^ 60 ≤ n

/-- The clauses that the numbers write: the runs between the zeros. -/
def writtenClauses (numbers : List Int) : List (List Int) :=
  (Text.pieces (· == 0) numbers).dropLast

/-- The literal that stands for a number other than zero. -/
def literal? (declared : Array Variable) (number : Int) : Option Literal :=
  declared[number.natAbs - 1]?.map fun v => ⟨v, 0 < number⟩

/-- A closed formula over `n` fresh variables, with a clause for each list of numbers. -/
structure Represents (d : Dimacs) (supply : VariableSupply) (n : Nat)
    (clauses : List (List Int)) : Prop where
  declared : d.declared.toList = supply.fresh n
  closed : d.formula.closed = true
  scope : d.formula.scope.variables.toList = supply.fresh n
  clauses : (d.formula.clauses.toList.map fun c => c.literals.map some) =
    clauses.map (List.map (literal? d.declared))

/-! ## Lines -/

theorem lineText_eq_ok_iff {line : List UInt8} {text : List Char} :
    lineText line = .ok text ↔ trimmed? line = some text := by
  unfold lineText trimmed?
  cases Text.decode? line <;> simp

theorem isSkipped_iff {text : List Char} : isSkipped text = true ↔ Skipped text := by
  cases text <;> simp [isSkipped, Skipped]

theorem isEnd_iff {text : List Char} : isEnd text = true ↔ Final text := by
  cases text <;> simp [isEnd, Final]

theorem opens_cons {line : List UInt8} {lines rest : List (List UInt8)} {problem : List Char} :
    Opens (line :: lines) problem rest ↔
      (∃ text, trimmed? line = some text ∧ Skipped text) ∧ Opens lines problem rest ∨
        trimmed? line = some problem ∧ ¬Skipped problem ∧ lines = rest := by
  constructor
  · rintro ⟨header, next, hsplit, hheader, hnext, hproblem⟩
    cases header with
    | nil =>
        obtain ⟨rfl, rfl⟩ := List.cons.inj hsplit
        exact Or.inr ⟨hnext, hproblem, rfl⟩
    | cons first header =>
        obtain ⟨rfl, hlines⟩ := List.cons.inj hsplit
        exact Or.inl ⟨hheader line List.mem_cons_self, header, next, hlines,
          fun skipped hskipped => hheader skipped (List.mem_cons_of_mem line hskipped), hnext,
          hproblem⟩
  · rintro (⟨hline, header, next, rfl, hheader, hrest⟩ | ⟨hline, hproblem, rfl⟩)
    · refine ⟨line :: header, next, rfl, ?_, hrest⟩
      exact List.forall_mem_cons.mpr ⟨hline, hheader⟩
    · exact ⟨[], line, rfl, List.forall_mem_nil _, hline, hproblem⟩

theorem not_opens_nil {rest : List (List UInt8)} {problem : List Char} :
    ¬Opens [] problem rest := by
  rintro ⟨header, line, hsplit, _⟩
  simp at hsplit

theorem contains_nil {texts : List (List Char)} : Contains [] texts ↔ texts = [] := by
  constructor
  · rintro ⟨body, rest, hsplit, htexts, _⟩
    obtain ⟨rfl, rfl⟩ := List.append_eq_nil_iff.mp hsplit.symm
    exact List.map_eq_nil_iff.mp htexts.symm
  · rintro rfl
    exact ⟨[], [], rfl, rfl, List.forall_mem_nil _, Or.inl rfl⟩

theorem contains_cons {line : List UInt8} {lines : List (List UInt8)}
    {texts : List (List Char)} :
    Contains (line :: lines) texts ↔
      ∃ text, trimmed? line = some text ∧
        (Final text ∧ texts = [] ∨
          ¬Final text ∧ ∃ others, texts = text :: others ∧ Contains lines others) := by
  constructor
  · rintro ⟨body, rest, hsplit, htexts, hopen, hrest⟩
    cases body with
    | nil =>
        obtain rfl | ⟨next, after, text, rfl, hnext, hfinal⟩ := hrest
        · cases hsplit
        · obtain ⟨rfl, rfl⟩ := List.cons.inj hsplit
          exact ⟨text, hnext, Or.inl ⟨hfinal, List.map_eq_nil_iff.mp htexts.symm⟩⟩
    | cons first body =>
        obtain ⟨rfl, rfl⟩ := List.cons.inj hsplit
        cases texts with
        | nil => cases htexts
        | cons text others =>
            obtain ⟨hline, hothers⟩ := List.cons.inj htexts
            obtain ⟨htext, hrestOpen⟩ := List.forall_mem_cons.mp hopen
            exact ⟨text, hline, Or.inr ⟨htext, others, rfl, body, rest, rfl, hothers, hrestOpen,
              hrest⟩⟩
  · rintro ⟨text, hline, ⟨hfinal, rfl⟩ | ⟨hopen, others, rfl, body, rest, rfl, hothers, hrestOpen,
      hrest⟩⟩
    · exact ⟨[], line :: lines, rfl, rfl, List.forall_mem_nil _,
        Or.inr ⟨line, lines, text, rfl, hline, hfinal⟩⟩
    · refine ⟨line :: body, rest, rfl, ?_, List.forall_mem_cons.mpr ⟨hopen, hrestOpen⟩, hrest⟩
      rw [List.map_cons, List.map_cons, hline, hothers]

theorem Skipped.not_final {text : List Char} (h : Skipped text) : ¬Final text := by
  rintro hfinal
  rcases h with rfl | hcomment
  · cases hfinal
  · rw [Final, hcomment] at hfinal
    exact absurd hfinal (by decide)

/-! ## The problem line -/

/-- The range without sign has no negative number. -/
theorem readNumeral_unsigned_nonneg {word : List Char} {i : Int}
    (h : Text.readNumeral .unsigned64 word = .ok i) : 0 ≤ i := by
  have hmagnitude : ∀ cs : List Char,
      (Text.readMagnitude (Nat.pow 2 64 - 1) .tooLarge cs).map Int.ofNat = .ok i → 0 ≤ i := by
    intro cs hcs
    obtain ⟨n, _, rfl⟩ := map_eq_ok_iff.mp hcs
    exact Int.natCast_nonneg n
  unfold Text.readNumeral at h
  split at h
  · cases h
  · exact hmagnitude _ h
  · cases h
  · exact hmagnitude _ h

theorem readCount?_eq_some_iff {word : List Char} {n : Nat} :
    readCount? word = some n ↔ Text.readNumeral .unsigned64 word = .ok n := by
  unfold readCount?
  cases hword : Text.readNumeral .unsigned64 word with
  | error cause => simp
  | ok i =>
      have hi : 0 ≤ i := readNumeral_unsigned_nonneg hword
      simp only [Option.some.injEq, Except.ok.injEq]
      omega

theorem parseProblem?_eq_some_iff {text : List Char} {problem : Problem} :
    parseProblem? text = some problem ↔
      Announces text problem.variableCount problem.clauseCount := by
  unfold parseProblem? Announces
  constructor
  · intro h
    split at h
    next n m hwords =>
      obtain ⟨i, hi, h⟩ := Option.bind_eq_some_iff.mp h
      obtain ⟨j, hj, h⟩ := Option.bind_eq_some_iff.mp h
      obtain rfl := Option.some.inj h
      exact ⟨n, m, hwords, readCount?_eq_some_iff.mp hi, readCount?_eq_some_iff.mp hj⟩
    next => cases h
  · rintro ⟨n, m, hwords, hn, hm⟩
    rw [← readCount?_eq_some_iff] at hn hm
    simp only [hwords, hn, hm]
    rfl

theorem parseHeader_cons_eq_ok_iff {line : List UInt8} {lines rest : List (List UInt8)}
    {problem : Problem} :
    parseHeader (line :: lines) = .ok (problem, rest) ↔
      ∃ text, trimmed? line = some text ∧
        (Skipped text ∧ parseHeader lines = .ok (problem, rest) ∨
          ¬Skipped text ∧ parseProblem? text = some problem ∧ lines = rest) := by
  rw [parseHeader, bind_eq_ok_iff]
  refine exists_congr fun text => and_congr lineText_eq_ok_iff ?_
  by_cases hskipped : Skipped text
  · simp [isSkipped_iff.mpr hskipped, hskipped]
  · have hkept : isSkipped text = false :=
      Bool.eq_false_iff.mpr (mt isSkipped_iff.mp hskipped)
    cases parseProblem? text <;>
      simp [hkept, hskipped, pure, Except.pure, throw, throwThe, MonadExceptOf.throw]

theorem parseHeader_eq_ok_iff {lines rest : List (List UInt8)} {problem : Problem} :
    parseHeader lines = .ok (problem, rest) ↔
      ∃ text, Opens lines text rest ∧
        Announces text problem.variableCount problem.clauseCount := by
  induction lines with
  | nil =>
      constructor
      · intro h
        cases h
      · rintro ⟨text, hopens, _⟩
        exact absurd hopens not_opens_nil
  | cons line lines ih =>
      rw [parseHeader_cons_eq_ok_iff]
      constructor
      · rintro ⟨first, hline, ⟨hskipped, htail⟩ | ⟨hskipped, hproblem, rfl⟩⟩
        · obtain ⟨text, hopens, hannounces⟩ := ih.mp htail
          exact ⟨text, opens_cons.mpr (Or.inl ⟨⟨first, hline, hskipped⟩, hopens⟩), hannounces⟩
        · exact ⟨first, opens_cons.mpr (Or.inr ⟨hline, hskipped, rfl⟩),
            parseProblem?_eq_some_iff.mp hproblem⟩
      · rintro ⟨text, hopens, hannounces⟩
        rcases opens_cons.mp hopens with
          ⟨⟨first, hline, hskipped⟩, htail⟩ | ⟨hline, hskipped, hrest⟩
        · exact ⟨first, hline, Or.inl ⟨hskipped, ih.mpr ⟨text, htail, hannounces⟩⟩⟩
        · exact ⟨text, hline,
            Or.inr ⟨hskipped, parseProblem?_eq_some_iff.mpr hannounces, hrest⟩⟩

/-! ## The words of the clauses -/

theorem numerals_append_iff {words others : List (List Char)} {numbers : List Int} :
    Numerals (words ++ others) numbers ↔
      ∃ first second, numbers = first ++ second ∧ Numerals words first ∧
        Numerals others second := by
  unfold Numerals
  constructor
  · intro h
    rw [List.map_append, eq_comm, List.map_eq_append_iff] at h
    obtain ⟨first, second, hsplit, hfirst, hsecond⟩ := h
    exact ⟨first, second, hsplit, hfirst.symm, hsecond.symm⟩
  · rintro ⟨first, second, rfl, hfirst, hsecond⟩
    rw [List.map_append, List.map_append, hfirst, hsecond]

theorem numerals_cons_iff {word : List Char} {words : List (List Char)} {numbers : List Int} :
    Numerals (word :: words) numbers ↔
      ∃ number others, numbers = number :: others ∧
        Text.readNumeral .signed64 word = .ok number ∧ Numerals words others := by
  unfold Numerals
  cases numbers with
  | nil => simp
  | cons number others => simp [and_assoc]

theorem spell_cons_of_skipped {text : List Char} {texts : List (List Char)} {numbers : List Int}
    (h : Skipped text) : Spell (text :: texts) numbers ↔ Spell texts numbers := by
  simp [Spell, h]

theorem spell_cons_of_not_skipped {text : List Char} {texts : List (List Char)}
    {numbers : List Int} (h : ¬Skipped text) :
    Spell (text :: texts) numbers ↔
      ∃ first second, numbers = first ++ second ∧ Numerals (Text.words text) first ∧
        Spell texts second := by
  unfold Spell
  rw [← numerals_append_iff]
  simp [h]

/-! ## Clauses -/

variable {declared : Array Variable} {value : Int}

theorem literalOf_eq_ok_iff {l : Literal} :
    literalOf declared value = .ok l ↔ literal? declared value = some l := by
  unfold literalOf literal?
  cases declared[value.natAbs - 1]? <;> simp

theorem literal?_eq_some_iff {l : Literal} :
    literal? declared value = some l ↔
      declared.toList[value.natAbs - 1]? = some l.var ∧ l.positive = decide (0 < value) := by
  unfold literal?
  rw [Option.map_eq_some_iff, Array.getElem?_toList]
  constructor
  · rintro ⟨v, hv, rfl⟩
    exact ⟨hv, rfl⟩
  · rintro ⟨hv, hsign⟩
    exact ⟨l.var, hv, by rw [← hsign]⟩

theorem exists_literal (hvalue : value ≠ 0) (hbound : value.natAbs ≤ declared.size) :
    ∃ l, literal? declared value = some l := by
  have hlt : value.natAbs - 1 < declared.size := by omega
  exact ⟨⟨declared[value.natAbs - 1], 0 < value⟩, by simp [literal?, hlt]⟩

theorem bound_of_literal? {l : Literal} (h : literal? declared value = some l) :
    value.natAbs ≤ declared.size ∧ l.var ∈ declared.toList := by
  obtain ⟨hvar, _⟩ := literal?_eq_some_iff.mp h
  obtain ⟨hlt, _⟩ := List.getElem?_eq_some_iff.mp hvar
  rw [Array.length_toList] at hlt
  exact ⟨by omega, List.mem_of_getElem? hvar⟩

namespace Body

/-- The clauses that have ended and the pending one are the runs between the zeros of the numbers
read so far. -/
structure Holds (declared : Array Variable) (numbers : List Int) (b : Body) : Prop where
  closed : b.formula.closed = true
  scope : b.formula.scope = Scope.declareAll {} declared.toList
  runs : ∃ ended last, Text.pieces (· == 0) numbers = ended ++ [last] ∧
    (b.formula.clauses.toList.map fun c => c.literals.map some) =
      ended.map (List.map (literal? declared)) ∧
    b.pending.toList.map some = last.map (literal? declared)

variable {b next : Body} {numbers : List Int}

/-- The pending clause is one that the formula takes. -/
theorem Holds.covers (h : Holds declared numbers b) :
    b.formula.scope.Covers ⟨b.pending.toList⟩ := by
  obtain ⟨ended, last, _, _, hpending⟩ := h.runs
  intro l hl
  have hmem : some l ∈ last.map (literal? declared) := by
    rw [← hpending]
    exact List.mem_map_of_mem hl
  obtain ⟨value, _, hvalue⟩ := List.mem_map.mp hmem
  rw [h.scope]
  exact Scope.contains_declareAll.mpr (Or.inr (bound_of_literal? hvalue).2)

theorem Holds.number (h : Holds declared numbers b) (hbound : value.natAbs ≤ declared.size) :
    ∃ next, b.number declared value = .ok next ∧ Holds declared (numbers ++ [value]) next := by
  obtain ⟨ended, last, hpieces, hended, hpending⟩ := h.runs
  unfold Body.number
  by_cases hzero : value = 0
  · obtain ⟨f, hadd, hscope, hclosed, hclauses⟩ := Formula.addClause_of_covers h.closed h.covers
    rw [if_pos hzero, hadd]
    refine ⟨_, rfl, hclosed, hscope.trans h.scope, ended ++ [last], [], ?_, ?_, rfl⟩
    · rw [Text.pieces_concat_of_separates (by simp [hzero]), hpieces]
    · simp [hclauses, hended, hpending]
  · obtain ⟨l, hl⟩ := exists_literal hzero hbound
    rw [if_neg hzero, literalOf_eq_ok_iff.mpr hl]
    refine ⟨_, rfl, h.closed, h.scope, ended, last ++ [value], ?_, hended, ?_⟩
    · exact Text.pieces_concat_of_not (by simp [hzero]) hpieces
    · simp [hpending, hl]

theorem bound_of_number (h : b.number declared value = .ok next) :
    value.natAbs ≤ declared.size := by
  unfold Body.number at h
  by_cases hzero : value = 0
  · simp [hzero]
  · rw [if_neg hzero] at h
    obtain ⟨l, hl, _⟩ := bind_eq_ok_iff.mp h
    exact (bound_of_literal? (literalOf_eq_ok_iff.mp hl)).1

theorem word_eq_ok_iff {line cs : List Char} :
    b.word declared line cs = .ok next ↔
      ∃ value, Text.readNumeral .signed64 cs = .ok value ∧
        b.number declared value = .ok next := by
  unfold Body.word
  cases Text.readNumeral .signed64 cs <;> simp

theorem Holds.words {line : List Char} {words : List (List Char)} {values : List Int}
    (h : Holds declared numbers b) (hwords : Numerals words values)
    (hbound : ∀ value ∈ values, value.natAbs ≤ declared.size) :
    ∃ next, words.foldlM (word declared line) b = .ok next ∧
      Holds declared (numbers ++ values) next := by
  induction words generalizing b numbers values with
  | nil =>
      obtain rfl : values = [] := List.map_eq_nil_iff.mp hwords.symm
      exact ⟨b, rfl, by rwa [List.append_nil]⟩
  | cons cs words ih =>
      obtain ⟨value, others, rfl, hcs, hothers⟩ := numerals_cons_iff.mp hwords
      obtain ⟨hvalue, htail⟩ := List.forall_mem_cons.mp hbound
      obtain ⟨mid, hmid, hread⟩ := h.number hvalue
      obtain ⟨next, hnext, hlast⟩ := ih hread hothers htail
      refine ⟨next, ?_, ?_⟩
      · rw [List.foldlM_cons, bind_eq_ok_iff]
        exact ⟨mid, word_eq_ok_iff.mpr ⟨value, hcs, hmid⟩, hnext⟩
      · rwa [List.append_assoc] at hlast

theorem numerals_of_words {line : List Char} {words : List (List Char)}
    (h : words.foldlM (word declared line) b = .ok next) :
    ∃ values, Numerals words values ∧ ∀ value ∈ values, value.natAbs ≤ declared.size := by
  induction words generalizing b with
  | nil => exact ⟨[], rfl, List.forall_mem_nil _⟩
  | cons cs words ih =>
      rw [List.foldlM_cons, bind_eq_ok_iff] at h
      obtain ⟨mid, hmid, htail⟩ := h
      obtain ⟨value, hcs, hnumber⟩ := word_eq_ok_iff.mp hmid
      obtain ⟨values, hvalues, hbound⟩ := ih htail
      exact ⟨value :: values, numerals_cons_iff.mpr ⟨value, values, rfl, hcs, hvalues⟩,
        List.forall_mem_cons.mpr ⟨bound_of_number hnumber, hbound⟩⟩

theorem Holds.line {text : List Char} {values : List Int} (h : Holds declared numbers b)
    (hwords : Numerals (Text.words text) values)
    (hbound : ∀ value ∈ values, value.natAbs ≤ declared.size) :
    ∃ next, b.line declared text = .ok next ∧ Holds declared (numbers ++ values) next := by
  obtain ⟨next, hnext, hread⟩ := h.words hwords hbound
  exact ⟨{ next with lastLine := text }, bind_eq_ok_iff.mpr ⟨next, hnext, rfl⟩,
    hread.closed, hread.scope, hread.runs⟩

theorem numerals_of_line {text : List Char} (h : b.line declared text = .ok next) :
    ∃ values, Numerals (Text.words text) values ∧
      ∀ value ∈ values, value.natAbs ≤ declared.size := by
  obtain ⟨mid, hmid, _⟩ := bind_eq_ok_iff.mp h
  exact numerals_of_words hmid

theorem read_cons_eq_ok_iff {line : List UInt8} {lines : List (List UInt8)} :
    b.read declared (line :: lines) = .ok next ↔
      ∃ text, trimmed? line = some text ∧
        (Skipped text ∧ b.read declared lines = .ok next ∨
          ¬Skipped text ∧ (Final text ∧ b = next ∨
            ¬Final text ∧ ∃ mid, b.line declared text = .ok mid ∧
              mid.read declared lines = .ok next)) := by
  rw [Body.read, bind_eq_ok_iff]
  refine exists_congr fun text => and_congr lineText_eq_ok_iff ?_
  by_cases hskipped : Skipped text
  · simp [isSkipped_iff.mpr hskipped, hskipped]
  · have hkept : isSkipped text = false :=
      Bool.eq_false_iff.mpr (mt isSkipped_iff.mp hskipped)
    by_cases hfinal : Final text
    · simp [hkept, hskipped, isEnd_iff.mpr hfinal, hfinal, pure, Except.pure]
    · have hopen : isEnd text = false := Bool.eq_false_iff.mpr (mt isEnd_iff.mp hfinal)
      simp [hkept, hskipped, hopen, hfinal, bind_eq_ok_iff]

theorem Holds.read {lines : List (List UInt8)} {texts : List (List Char)} {values : List Int}
    (h : Holds declared numbers b) (hlines : Contains lines texts) (hwords : Spell texts values)
    (hbound : ∀ value ∈ values, value.natAbs ≤ declared.size) :
    ∃ next, b.read declared lines = .ok next ∧ Holds declared (numbers ++ values) next := by
  induction lines generalizing b numbers texts values with
  | nil =>
      obtain rfl := contains_nil.mp hlines
      obtain rfl : values = [] := List.map_eq_nil_iff.mp hwords.symm
      exact ⟨b, rfl, by rwa [List.append_nil]⟩
  | cons line lines ih =>
      obtain ⟨text, hline, ⟨hfinal, rfl⟩ | ⟨hopen, others, rfl, hrest⟩⟩ := contains_cons.mp hlines
      · obtain rfl : values = [] := List.map_eq_nil_iff.mp hwords.symm
        have hskipped : ¬Skipped text := fun hskipped => hskipped.not_final hfinal
        refine ⟨b, ?_, by rwa [List.append_nil]⟩
        exact read_cons_eq_ok_iff.mpr ⟨text, hline, Or.inr ⟨hskipped, Or.inl ⟨hfinal, rfl⟩⟩⟩
      · by_cases hskipped : Skipped text
        · obtain ⟨next, hnext, hread⟩ :=
            ih h hrest ((spell_cons_of_skipped hskipped).mp hwords) hbound
          exact ⟨next, read_cons_eq_ok_iff.mpr ⟨text, hline, Or.inl ⟨hskipped, hnext⟩⟩, hread⟩
        · obtain ⟨first, second, rfl, hfirst, hsecond⟩ :=
            (spell_cons_of_not_skipped hskipped).mp hwords
          obtain ⟨hhead, htail⟩ := List.forall_mem_append.mp hbound
          obtain ⟨mid, hmid, hmidRead⟩ := h.line hfirst hhead
          obtain ⟨next, hnext, hread⟩ := ih hmidRead hrest hsecond htail
          refine ⟨next, ?_, by rwa [List.append_assoc] at hread⟩
          exact read_cons_eq_ok_iff.mpr
            ⟨text, hline, Or.inr ⟨hskipped, Or.inr ⟨hopen, mid, hmid, hnext⟩⟩⟩

theorem contains_of_read {lines : List (List UInt8)} (h : b.read declared lines = .ok next) :
    ∃ texts values, Contains lines texts ∧ Spell texts values ∧
      ∀ value ∈ values, value.natAbs ≤ declared.size := by
  induction lines generalizing b with
  | nil => exact ⟨[], [], contains_nil.mpr rfl, rfl, List.forall_mem_nil _⟩
  | cons line lines ih =>
      obtain ⟨text, hline, ⟨hskipped, hread⟩ | ⟨hskipped, hcase⟩⟩ := read_cons_eq_ok_iff.mp h
      · obtain ⟨texts, values, hrest, hvalues, hbound⟩ := ih hread
        refine ⟨text :: texts, values, ?_, (spell_cons_of_skipped hskipped).mpr hvalues, hbound⟩
        exact contains_cons.mpr
          ⟨text, hline, Or.inr ⟨hskipped.not_final, texts, rfl, hrest⟩⟩
      · rcases hcase with ⟨hfinal, _⟩ | ⟨hopen, mid, hmid, hread⟩
        · exact ⟨[], [], contains_cons.mpr ⟨text, hline, Or.inl ⟨hfinal, rfl⟩⟩, rfl,
            List.forall_mem_nil _⟩
        · obtain ⟨first, hfirst, hhead⟩ := numerals_of_line hmid
          obtain ⟨texts, values, hrest, hvalues, hbound⟩ := ih hread
          refine ⟨text :: texts, first ++ values, ?_, ?_,
            List.forall_mem_append.mpr ⟨hhead, hbound⟩⟩
          · exact contains_cons.mpr ⟨text, hline, Or.inr ⟨hopen, texts, rfl, hrest⟩⟩
          · exact (spell_cons_of_not_skipped hskipped).mpr ⟨first, values, rfl, hfirst, hvalues⟩

theorem Holds.pending_isEmpty_iff (h : Holds declared numbers b) :
    b.pending.isEmpty = true ↔ numbers = [] ∨ numbers.getLast? = some 0 := by
  obtain ⟨ended, last, hpieces, _, hpending⟩ := h.runs
  have hlast : b.pending.toList = [] ↔ last = [] := by
    rw [← List.map_eq_nil_iff (f := some), hpending, List.map_eq_nil_iff]
  rw [Array.isEmpty_iff, ← Array.toList_eq_nil_iff, hlast, Text.last_piece_eq_nil_iff hpieces]
  simp

theorem Holds.size_clauses (h : Holds declared numbers b) :
    b.formula.clauses.size = numbers.count 0 := by
  obtain ⟨ended, last, hpieces, hended, _⟩ := h.runs
  have hlength := congrArg List.length hended
  have hcount := Text.length_pieces (· == (0 : Int)) numbers
  rw [List.length_map, List.length_map, Array.length_toList] at hlength
  rw [hpieces, List.length_append, List.length_singleton, ← hlength] at hcount
  exact Nat.add_right_cancel hcount

theorem Holds.close_eq (h : Holds declared numbers b) (expected : Nat) :
    b.close expected =
      if numbers = [] ∨ numbers.getLast? = some 0 then
        if numbers.count 0 = expected then .ok b.formula
        else .error (.clauseCountMismatch expected (numbers.count 0))
      else .error (.unterminatedClause (String.ofList b.lastLine)) := by
  unfold close
  rw [h.size_clauses]
  by_cases hend : numbers = [] ∨ numbers.getLast? = some 0
  · have hempty := h.pending_isEmpty_iff.mpr hend
    by_cases hcount : numbers.count 0 = expected <;> simp [hempty, hend, hcount]
  · have hopen : b.pending.isEmpty = false :=
      Bool.eq_false_iff.mpr (mt h.pending_isEmpty_iff.mp hend)
    simp [hopen, hend]

theorem Holds.close_eq_ok_iff {expected : Nat} {f : Formula} (h : Holds declared numbers b) :
    b.close expected = .ok f ↔
      b.formula = f ∧ (numbers = [] ∨ numbers.getLast? = some 0) ∧ numbers.count 0 = expected := by
  rw [h.close_eq]
  by_cases hend : numbers = [] ∨ numbers.getLast? = some 0
  · by_cases hcount : numbers.count 0 = expected <;> simp [hend, hcount]
  · simp [hend]

end Body

/-! ## Files -/

theorem holds_withVariables (vs : List Variable) :
    Body.Holds vs.toArray [] { formula := .withVariables vs } :=
  ⟨rfl, rfl, [], [], rfl, rfl, rfl⟩

variable {supply : VariableSupply} {bytes : ByteArray} {n : Nat} {numbers : List Int} {d e : Dimacs}

theorem parseBody_eq_ok_iff {problem : Problem} {lines : List (List UInt8)} :
    parseBody supply problem lines = .ok d ↔
      ∃ body, Body.read (supply.fresh problem.variableCount).toArray
          { formula := .withVariables (supply.fresh problem.variableCount) } lines = .ok body ∧
        body.close problem.clauseCount = .ok d.formula ∧
        d.declared = (supply.fresh problem.variableCount).toArray := by
  unfold parseBody
  simp only [bind_eq_ok_iff]
  constructor
  · rintro ⟨body, hbody, f, hclose, heq⟩
    obtain rfl := Except.ok.inj heq
    exact ⟨body, hbody, hclose, rfl⟩
  · rintro ⟨body, hbody, hclose, hdeclared⟩
    exact ⟨body, hbody, d.formula, hclose, by rw [← hdeclared]; rfl⟩

theorem le_maxVariables_iff : n ≤ maxVariables ↔ n < 2 ^ 60 := by
  have hmax : maxVariables + 1 = 2 ^ 60 := by decide
  rw [← hmax, Nat.lt_succ_iff]

theorem parseAnnounced_of_lt {problem : Problem} (lines : List (List UInt8))
    (h : problem.variableCount < 2 ^ 60) :
    parseAnnounced supply problem lines = (parseBody supply problem lines).mapError .returned :=
  if_pos (le_maxVariables_iff.mpr h)

theorem parseAnnounced_of_le {problem : Problem} (lines : List (List UInt8))
    (h : 2 ^ 60 ≤ problem.variableCount) :
    parseAnnounced supply problem lines = .error (.panicked .capacityOverflow) :=
  if_neg (mt le_maxVariables_iff.mp (Nat.not_lt.mpr h))

theorem parseAnnounced_eq_ok_iff {problem : Problem} {lines : List (List UInt8)} :
    parseAnnounced supply problem lines = .ok d ↔
      problem.variableCount < 2 ^ 60 ∧ parseBody supply problem lines = .ok d := by
  rcases Nat.lt_or_ge problem.variableCount (2 ^ 60) with hlt | hle
  · rw [parseAnnounced_of_lt lines hlt, mapError_eq_ok_iff, and_iff_right hlt]
  · rw [parseAnnounced_of_le lines hle]
    exact iff_of_false (fun h => by cases h) fun h => absurd h.1 (Nat.not_lt.mpr hle)

theorem parseAnnounced_eq_returned_iff {problem : Problem} {lines : List (List UInt8)}
    {error : ParseError} :
    parseAnnounced supply problem lines = .error (.returned error) ↔
      problem.variableCount < 2 ^ 60 ∧ parseBody supply problem lines = .error error := by
  rcases Nat.lt_or_ge problem.variableCount (2 ^ 60) with hlt | hle
  · rw [parseAnnounced_of_lt lines hlt, mapError_eq_error_iff, and_iff_right hlt]
    simp
  · rw [parseAnnounced_of_le lines hle]
    exact iff_of_false (fun h => by cases h) fun h => absurd h.1 (Nat.not_lt.mpr hle)

theorem parseAnnounced_eq_panicked_iff {problem : Problem} {lines : List (List UInt8)}
    {cause : Panic} :
    parseAnnounced supply problem lines = .error (.panicked cause) ↔
      2 ^ 60 ≤ problem.variableCount := by
  rcases Nat.lt_or_ge problem.variableCount (2 ^ 60) with hlt | hle
  · rw [parseAnnounced_of_lt lines hlt, mapError_eq_error_iff]
    refine iff_of_false ?_ (Nat.not_le.mpr hlt)
    rintro ⟨e, _, he⟩
    cases he
  · rw [parseAnnounced_of_le lines hle]
    cases cause
    exact iff_of_true rfl hle

theorem parse_eq_ok_iff_of_read :
    parse supply bytes = .ok d ↔
      ∃ problem rest body, parseHeader (Text.lines bytes.data.toList) = .ok (problem, rest) ∧
        problem.variableCount < 2 ^ 60 ∧
        Body.read (supply.fresh problem.variableCount).toArray
          { formula := .withVariables (supply.fresh problem.variableCount) } rest = .ok body ∧
        body.close problem.clauseCount = .ok d.formula ∧
        d.declared = (supply.fresh problem.variableCount).toArray := by
  unfold parse parseLines
  simp only [bind_eq_ok_iff, mapError_eq_ok_iff, Prod.exists, parseAnnounced_eq_ok_iff,
    parseBody_eq_ok_iff]
  constructor
  · rintro ⟨problem, rest, hheader, hlt, body, hbody⟩
    exact ⟨problem, rest, body, hheader, hlt, hbody⟩
  · rintro ⟨problem, rest, body, hheader, hlt, hbody⟩
    exact ⟨problem, rest, hheader, hlt, body, hbody⟩

theorem parseLines_eq_panicked_iff {lines : List (List UInt8)} {cause : Panic} :
    parseLines supply lines = .error (.panicked cause) ↔ Oversized lines := by
  unfold parseLines
  rw [bind_eq_error_iff, mapError_eq_error_iff]
  simp only [mapError_eq_ok_iff, Prod.exists, parseHeader_eq_ok_iff,
    parseAnnounced_eq_panicked_iff]
  constructor
  · rintro (⟨e, _, he⟩ | ⟨problem, rest, ⟨text, hopens, hannounces⟩, hle⟩)
    · cases he
    · exact ⟨text, rest, _, _, hopens, hannounces, hle⟩
  · rintro ⟨text, rest, n, m, hopens, hannounces, hle⟩
    exact Or.inr ⟨⟨n, m⟩, rest, ⟨text, hopens, hannounces⟩, hle⟩

theorem nodup_fresh (supply : VariableSupply) (n : Nat) : (supply.fresh n).Nodup := by
  apply List.Nodup.map _ List.nodup_range
  intro i j h
  exact Nat.add_left_cancel (Variable.mk.inj h)

/-- A formula that ends where a clause ends represents the clauses that were written. -/
theorem represents_of_holds {body : Body} (h : body.Holds (supply.fresh n).toArray numbers)
    (hend : numbers = [] ∨ numbers.getLast? = some 0) :
    Represents ⟨body.formula, (supply.fresh n).toArray⟩ supply n (writtenClauses numbers) := by
  obtain ⟨ended, last, hpieces, hended, _⟩ := h.runs
  have hlast : last = [] := by
    rw [Text.last_piece_eq_nil_iff hpieces]
    simpa using hend
  refine ⟨rfl, h.closed, ?_, ?_⟩
  · rw [h.scope]
    exact Formula.variables_withVariables (nodup_fresh supply n)
  · rw [hended, writtenClauses, hpieces, List.dropLast_concat]

theorem Represents.length_declared {clauses : List (List Int)}
    (h : d.Represents supply n clauses) : d.declared.toList.length = n := by
  rw [h.declared, VariableSupply.length_fresh]

/-- The numbers and the clauses determine what represents them. -/
theorem Represents.unique {clauses : List (List Int)} (hd : d.Represents supply n clauses)
    (he : e.Represents supply n clauses) : d = e := by
  obtain ⟨f, declared⟩ := d
  obtain ⟨g, others⟩ := e
  obtain rfl : declared = others := Array.toList_inj.mp (hd.declared.trans he.declared.symm)
  have hscope : f.scope = g.scope :=
    Scope.ext_variables (Array.toList_inj.mp (hd.scope.trans he.scope.symm))
  have hclauses : f.clauses = g.clauses := by
    have hlists := hd.clauses.trans he.clauses.symm
    have hinjective : Function.Injective fun c : Clause => c.literals.map some := by
      intro c c' hsome
      have hliterals := List.map_injective_iff.mpr (Option.some_injective Literal) hsome
      cases c
      cases c'
      exact congrArg Clause.mk hliterals
    exact Array.toList_inj.mp (List.map_injective_iff.mpr hinjective hlists)
  rw [Formula.ext_parts hscope (hd.closed.trans he.closed.symm) hclauses]

theorem Describes.oversized (h : Describes bytes n numbers) (hle : 2 ^ 60 ≤ n) :
    Oversized (Text.lines bytes.data.toList) := by
  obtain ⟨problem, rest, _, hopens, hannounces, _⟩ := h.layout
  exact ⟨problem, rest, n, _, hopens, hannounces, hle⟩

theorem parse_of_describes (supply : VariableSupply) (h : Describes bytes n numbers)
    (hlt : n < 2 ^ 60) :
    ∃ d, parse supply bytes = .ok d ∧ d.Represents supply n (writtenClauses numbers) := by
  obtain ⟨problem, rest, texts, hopens, hannounces, hlines, hwords⟩ := h.layout
  have hheader : parseHeader (Text.lines bytes.data.toList) = .ok (⟨n, numbers.count 0⟩, rest) :=
    parseHeader_eq_ok_iff.mpr ⟨problem, hopens, hannounces⟩
  have hbound : ∀ number ∈ numbers, number.natAbs ≤ (supply.fresh n).toArray.size := by
    simpa using h.bounded
  obtain ⟨body, hbody, hread⟩ := (holds_withVariables (supply.fresh n)).read hlines hwords hbound
  refine ⟨_, ?_, represents_of_holds hread h.terminated⟩
  exact parse_eq_ok_iff_of_read.mpr ⟨_, rest, body, hheader, hlt, hbody,
    hread.close_eq_ok_iff.mpr ⟨rfl, h.terminated, rfl⟩, rfl⟩

theorem describes_of_parse (h : parse supply bytes = .ok d) :
    ∃ n numbers, Describes bytes n numbers ∧ n < 2 ^ 60 ∧
      d.Represents supply n (writtenClauses numbers) := by
  obtain ⟨problem, rest, body, hheader, hlt, hbody, hclose, hdeclared⟩ :=
    parse_eq_ok_iff_of_read.mp h
  obtain ⟨text, hopens, hannounces⟩ := parseHeader_eq_ok_iff.mp hheader
  obtain ⟨texts, numbers, hlines, hwords, hbound⟩ := Body.contains_of_read hbody
  obtain ⟨next, hnext, hread⟩ :=
    (holds_withVariables (supply.fresh problem.variableCount)).read hlines hwords hbound
  obtain rfl : body = next := Except.ok.inj (hbody.symm.trans hnext)
  rw [List.nil_append] at hread
  obtain ⟨hformula, hend, hcount⟩ := hread.close_eq_ok_iff.mp hclose
  refine ⟨problem.variableCount, numbers, ⟨⟨text, rest, texts, hopens, ?_, hlines, hwords⟩, ?_,
    hend⟩, hlt, ?_⟩
  · rwa [hcount]
  · simpa using hbound
  · have hrepresents := represents_of_holds hread hend
    rwa [hformula, ← hdeclared] at hrepresents

/-- A file is read if and only if it describes numbers and announces variables that can be listed,
and then what is read represents the clauses the numbers write.  Where its lines break has no
influence on it.  A file that announces more variables is not judged: the reader panics. -/
theorem parse_eq_ok_iff (supply : VariableSupply) (bytes : ByteArray) :
    ((∃ d, parse supply bytes = .ok d) ↔ ∃ n numbers, Describes bytes n numbers ∧ n < 2 ^ 60) ∧
      (∀ d, parse supply bytes = .ok d ↔
        ∃ n numbers, Describes bytes n numbers ∧ n < 2 ^ 60 ∧
          d.Represents supply n (writtenClauses numbers)) ∧
      (parse supply bytes = .error (.panicked .capacityOverflow) ↔
        Oversized (Text.lines bytes.data.toList)) ∧
      ∀ other n numbers, Describes bytes n numbers → Describes other n numbers →
        parse supply bytes = parse supply other := by
  refine ⟨⟨?_, ?_⟩, fun d => ⟨describes_of_parse, ?_⟩, parseLines_eq_panicked_iff, ?_⟩
  · rintro ⟨d, hd⟩
    obtain ⟨n, numbers, hdescribes, hlt, _⟩ := describes_of_parse hd
    exact ⟨n, numbers, hdescribes, hlt⟩
  · rintro ⟨n, numbers, hdescribes, hlt⟩
    obtain ⟨d, hd, _⟩ := parse_of_describes supply hdescribes hlt
    exact ⟨d, hd⟩
  · rintro ⟨n, numbers, hdescribes, hlt, hd⟩
    obtain ⟨e, he, hrepresents⟩ := parse_of_describes supply hdescribes hlt
    rwa [hd.unique hrepresents]
  · intro other n numbers hbytes hother
    rcases Nat.lt_or_ge n (2 ^ 60) with hlt | hle
    · obtain ⟨d, hd, hrepresents⟩ := parse_of_describes supply hbytes hlt
      obtain ⟨e, he, hsame⟩ := parse_of_describes supply hother hlt
      rw [hd, he, hrepresents.unique hsame]
    · have hpanics : ∀ file, Describes file n numbers →
          parse supply file = .error (.panicked .capacityOverflow) :=
        fun file hfile => parseLines_eq_panicked_iff.mpr (hfile.oversized hle)
      rw [hpanics bytes hbytes, hpanics other hother]

/-- The grammar alone does not bound the number of variables. -/
theorem parse_ne_ok_of_unlistable_variables :
    let bytes := "p cnf 1152921504606846976 0\n".toUTF8
    Describes bytes (2 ^ 60) [] ∧ ¬∃ d, parse {} bytes = .ok d := by
  intro bytes
  refine ⟨⟨⟨"p cnf 1152921504606846976 0".toList, [[]], [[]], ?_, ?_, ?_, rfl⟩,
    List.forall_mem_nil _, Or.inl rfl⟩, ?_⟩
  · exact ⟨[], "p cnf 1152921504606846976 0".toUTF8.data.toList, by decide⟩
  · exact ⟨"1152921504606846976".toList, ['0'], by decide⟩
  · exact ⟨[[]], [], by decide, by decide, by decide, Or.inl rfl⟩
  · have hpanics : parse {} bytes = .error (.panicked .capacityOverflow) := rfl
    rintro ⟨d, hd⟩
    cases hpanics.symm.trans hd

end SatSearch.Dimacs
