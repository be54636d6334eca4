import SatSearch.Proofs.Grammar

/-!
# Defects of the input

The reader looks at a line only after it has accepted the lines before it.  So a defect that stands
on a line decides the error, whatever follows, and a final line hides all that follows.  What can
only be missed at the end of the input, a zero or a clause, is reported only where every line up to
the end is in order.  Whether the variables can be listed is found out right after the problem line,
and where they cannot the reader panics there.

The file is taken apart line by line here: whatever the reader does on some lines, it does on them
with other lines behind them too, unless it gets to the end of the first ones.
-/

namespace SatSearch.Dimacs

/-! ## What can be wrong -/

def fileLines (bytes : ByteArray) : List (List UInt8) :=
  Text.lines bytes.data.toList

/-- The bytes are whole lines. -/
def EndsLine (bytes : ByteArray) : Prop :=
  bytes.data.toList = [] ∨ bytes.data.toList.getLast? = some 10

def AllSkipped (lines : List (List UInt8)) : Prop :=
  ∀ line ∈ lines, ∃ text, trimmed? line = some text ∧ Skipped text

/-- The first line that is not skipped does not announce anything. -/
def Misannounced (lines : List (List UInt8)) : Prop :=
  ∃ problem rest, Opens lines problem rest ∧ ∀ n m, ¬Announces problem n m

def Stops (lines : List (List UInt8)) : Prop :=
  ∃ line ∈ lines, ∃ text, trimmed? line = some text ∧ Final text

/-- A final line stands after the first line that is not skipped. -/
def Stopped (lines : List (List UInt8)) : Prop :=
  ∃ problem rest, Opens lines problem rest ∧ Stops rest

/-- A line before the first one that is not skipped is not encoded in UTF-8. -/
def Undecodable (lines : List (List UInt8)) : Prop :=
  ∃ header line rest, lines = header ++ line :: rest ∧ AllSkipped header ∧ trimmed? line = none

namespace ParseError

/-- The error tells what is wrong with a line or a word. -/
def Immediate : ParseError → Prop
  | cannotRead _ | malformedLiteral .. | literalOutOfRange .. => True
  | cannotOpen .. | unterminatedClause _ | missingProblemLine | rejectedClause _
  | clauseCountMismatch .. => False

/-- The error tells what is wrong with one of the lines, not what is missing from them. -/
def Defect (lines : List (List UInt8)) (e : ParseError) : Prop :=
  e.Immediate ∨ e = missingProblemLine ∧ Misannounced lines

end ParseError

/-- The lines announce `n` variables and `m` clauses and then write the numbers, as the texts before
the first final line. -/
structure Writes (lines : List (List UInt8)) (n m : Nat) (texts : List (List Char))
    (numbers : List Int) : Prop where
  layout : ∃ problem rest, Opens lines problem rest ∧ Announces problem n m ∧ Contains rest texts
  spelled : Spell texts numbers
  bounded : ∀ number ∈ numbers, number.natAbs ≤ n

/-- The last line that is neither blank nor a comment. -/
def lastText? (texts : List (List Char)) : Option (List Char) :=
  (texts.filter fun text => ¬Skipped text).getLast?

def Complete (numbers : List Int) : Prop :=
  numbers = [] ∨ numbers.getLast? = some 0

instance (numbers : List Int) : Decidable (Complete numbers) :=
  inferInstanceAs (Decidable (_ ∨ _))

/-! ## The header, line by line -/

variable {line : List UInt8} {lines front rest back : List (List UInt8)} {text problem : List Char}

theorem trimmed?_nil : trimmed? [] = some [] := by
  decide

theorem lineText_of_none (h : trimmed? line = none) :
    lineText line = .error (.cannotRead .invalidUtf8) := by
  unfold trimmed? at h
  rw [Option.map_eq_none_iff] at h
  rw [lineText, h]

theorem parseHeader_cons_of_skipped (h : trimmed? line = some text) (hskipped : Skipped text) :
    parseHeader (line :: lines) = parseHeader lines := by
  rw [parseHeader, lineText_eq_ok_iff.mpr h]
  exact if_pos (isSkipped_iff.mpr hskipped)

theorem parseHeader_append_of_skipped (h : AllSkipped front) :
    parseHeader (front ++ back) = parseHeader back := by
  induction front with
  | nil => rfl
  | cons line front ih =>
      obtain ⟨⟨text, hline, hskipped⟩, hfront⟩ := List.forall_mem_cons.mp h
      rw [List.cons_append, parseHeader_cons_of_skipped hline hskipped, ih hfront]

theorem parseHeader_of_skipped (h : AllSkipped lines) :
    parseHeader lines = .error .missingProblemLine := by
  rw [← List.append_nil lines, parseHeader_append_of_skipped h]
  rfl

theorem parseHeader_of_undecodable (h : Undecodable lines) :
    parseHeader lines = .error (.cannotRead .invalidUtf8) := by
  obtain ⟨header, line, rest, rfl, hheader, hline⟩ := h
  rw [parseHeader_append_of_skipped hheader, parseHeader, lineText_of_none hline]
  rfl

theorem parseHeader_of_opens (h : Opens lines problem rest) :
    parseHeader lines =
      match parseProblem? problem with
      | some announced => .ok (announced, rest)
      | none => .error .missingProblemLine := by
  obtain ⟨header, line, rfl, hheader, hline, hproblem⟩ := h
  have hkept : isSkipped problem = false :=
    Bool.eq_false_iff.mpr (mt isSkipped_iff.mp hproblem)
  rw [parseHeader_append_of_skipped hheader, parseHeader, lineText_eq_ok_iff.mpr hline]
  cases hparse : parseProblem? problem <;>
    simp [bind, Except.bind, hkept, hparse, pure, Except.pure, throw, throwThe,
      MonadExceptOf.throw]

theorem parseProblem?_eq_none_iff :
    parseProblem? problem = none ↔ ∀ n m, ¬Announces problem n m := by
  rw [Option.eq_none_iff_forall_ne_some]
  constructor
  · intro h n m hannounces
    exact h ⟨n, m⟩ (parseProblem?_eq_some_iff.mpr hannounces)
  · intro h announced hparse
    exact h _ _ (parseProblem?_eq_some_iff.mp hparse)

/-- The first line that is not skipped is the problem line, cannot be read or does not exist. -/
theorem header_cases (lines : List (List UInt8)) :
    AllSkipped lines ∨ (∃ problem rest, Opens lines problem rest) ∨ Undecodable lines := by
  induction lines with
  | nil => exact Or.inl (List.forall_mem_nil _)
  | cons line lines ih =>
      cases hline : trimmed? line with
      | none => exact Or.inr (Or.inr ⟨[], line, lines, rfl, List.forall_mem_nil _, hline⟩)
      | some text =>
          by_cases hskipped : Skipped text
          · have hfirst : ∃ text, trimmed? line = some text ∧ Skipped text :=
              ⟨text, hline, hskipped⟩
            obtain hall | ⟨problem, rest, hopens⟩ | ⟨header, next, rest, rfl, hheader, hnext⟩ := ih
            · exact Or.inl (List.forall_mem_cons.mpr ⟨hfirst, hall⟩)
            · exact Or.inr (Or.inl ⟨problem, rest, opens_cons.mpr (Or.inl ⟨hfirst, hopens⟩)⟩)
            · exact Or.inr (Or.inr ⟨line :: header, next, rest, rfl,
                List.forall_mem_cons.mpr ⟨hfirst, hheader⟩, hnext⟩)
          · exact Or.inr (Or.inl ⟨text, lines, opens_cons.mpr (Or.inr ⟨hline, hskipped, rfl⟩)⟩)

theorem Opens.append (h : Opens front problem rest) (back : List (List UInt8)) :
    Opens (front ++ back) problem (rest ++ back) := by
  obtain ⟨header, line, rfl, hheader, hline⟩ := h
  exact ⟨header, line, by simp, hheader, hline⟩

theorem Undecodable.append (h : Undecodable front) (back : List (List UInt8)) :
    Undecodable (front ++ back) := by
  obtain ⟨header, line, rest, rfl, hheader, hline⟩ := h
  exact ⟨header, line, rest ++ back, by simp, hheader, hline⟩

/-! ## The body, line by line -/

/-- What the reader of a body can meet on a line. -/
theorem line_cases (line : List UInt8) :
    trimmed? line = none ∨ ∃ text, trimmed? line = some text ∧
      (Skipped text ∨ Final text ∨ ¬Skipped text ∧ ¬Final text) := by
  cases hline : trimmed? line with
  | none => exact Or.inl rfl
  | some text =>
      by_cases hskipped : Skipped text
      · exact Or.inr ⟨text, rfl, Or.inl hskipped⟩
      · by_cases hfinal : Final text
        · exact Or.inr ⟨text, rfl, Or.inr (Or.inl hfinal)⟩
        · exact Or.inr ⟨text, rfl, Or.inr (Or.inr ⟨hskipped, hfinal⟩)⟩

theorem not_stops_nil : ¬Stops [] := by
  rintro ⟨line, hline, _⟩
  cases hline

theorem Stops.cons (h : Stops lines) (line : List UInt8) : Stops (line :: lines) := by
  obtain ⟨stop, hstop, hfinal⟩ := h
  exact ⟨stop, List.mem_cons_of_mem line hstop, hfinal⟩

theorem Stops.of_cons (h : Stops (line :: lines)) (hline : trimmed? line = some text)
    (hopen : ¬Final text) : Stops lines := by
  obtain ⟨stop, hstop, found, hfound, hfinal⟩ := h
  obtain rfl | hmem := List.mem_cons.mp hstop
  · obtain rfl := Option.some.inj (hline.symm.trans hfound)
    exact absurd hfinal hopen
  · exact ⟨stop, hmem, found, hfound, hfinal⟩

theorem not_stops_blank : ¬Stops [[]] := fun h =>
  not_stops_nil (h.of_cons trimmed?_nil (Skipped.not_final (Or.inl rfl)))

namespace Body

variable {declared : Array Variable} {b next : Body} {e : ParseError} {value : Int}
  {numbers : List Int} {words texts : List (List Char)}

theorem read_cons_of_none (h : trimmed? line = none) :
    b.read declared (line :: lines) = .error (.cannotRead .invalidUtf8) := by
  rw [Body.read, lineText_of_none h]
  rfl

theorem read_cons_of_skipped (h : trimmed? line = some text) (hskipped : Skipped text) :
    b.read declared (line :: lines) = b.read declared lines := by
  rw [Body.read, lineText_eq_ok_iff.mpr h]
  exact if_pos (isSkipped_iff.mpr hskipped)

theorem read_cons_of_final (h : trimmed? line = some text) (hfinal : Final text) :
    b.read declared (line :: lines) = .ok b := by
  have hkept : isSkipped text = false :=
    Bool.eq_false_iff.mpr fun hskipped => (isSkipped_iff.mp hskipped).not_final hfinal
  rw [Body.read, lineText_eq_ok_iff.mpr h]
  simp [bind, Except.bind, hkept, isEnd_iff.mpr hfinal, pure, Except.pure]

theorem read_cons_of_open (h : trimmed? line = some text) (hskipped : ¬Skipped text)
    (hopen : ¬Final text) :
    b.read declared (line :: lines) =
      (b.line declared text >>= fun next => next.read declared lines) := by
  have hkept : isSkipped text = false := Bool.eq_false_iff.mpr (mt isSkipped_iff.mp hskipped)
  have hnotEnd : isEnd text = false := Bool.eq_false_iff.mpr (mt isEnd_iff.mp hopen)
  rw [Body.read, lineText_eq_ok_iff.mpr h]
  simp [bind, Except.bind, hkept, hnotEnd]

theorem read_append_of_stops (h : Stops front) :
    b.read declared (front ++ back) = b.read declared front := by
  induction front generalizing b with
  | nil => exact absurd h not_stops_nil
  | cons line front ih =>
      rw [List.cons_append]
      obtain hnone | ⟨text, hline, hskipped | hfinal | ⟨hkept, hopen⟩⟩ := line_cases line
      · rw [read_cons_of_none hnone, read_cons_of_none hnone]
      · rw [read_cons_of_skipped hline hskipped, read_cons_of_skipped hline hskipped,
          ih (h.of_cons hline hskipped.not_final)]
      · rw [read_cons_of_final hline hfinal, read_cons_of_final hline hfinal]
      · rw [read_cons_of_open hline hkept hopen, read_cons_of_open hline hkept hopen]
        exact congrArg _ (funext fun next => ih (h.of_cons hline hopen))

theorem read_append_of_not_stops (h : ¬Stops front) :
    b.read declared (front ++ back) =
      (b.read declared front >>= fun next => next.read declared back) := by
  induction front generalizing b with
  | nil => rfl
  | cons line front ih =>
      have hlater : ¬Stops front := fun hstops => h (hstops.cons line)
      rw [List.cons_append]
      obtain hnone | ⟨text, hline, hskipped | hfinal | ⟨hkept, hopen⟩⟩ := line_cases line
      · rw [read_cons_of_none hnone, read_cons_of_none hnone]
        rfl
      · rw [read_cons_of_skipped hline hskipped, read_cons_of_skipped hline hskipped, ih hlater]
      · exact absurd ⟨line, List.mem_cons_self, text, hline, hfinal⟩ h
      · rw [read_cons_of_open hline hkept hopen, read_cons_of_open hline hkept hopen, bind_assoc]
        exact congrArg _ (funext fun next => ih hlater)

theorem read_append_of_error (h : b.read declared front = .error e) :
    b.read declared (front ++ back) = .error e := by
  -- an error is kept on both ways: without a final line the bind passes it on
  by_cases hstops : Stops front
  · rw [read_append_of_stops hstops, h]
  · rw [read_append_of_not_stops hstops, h]
    rfl

theorem read_cons_blank : b.read declared ([] :: lines) = b.read declared lines :=
  read_cons_of_skipped trimmed?_nil (Or.inl rfl)

theorem read_concat_blank : b.read declared (front ++ [[]]) = b.read declared front := by
  by_cases hstops : Stops front
  · exact read_append_of_stops hstops
  · have hblank : ∀ next : Body, next.read declared [[]] = .ok next := fun _ => read_cons_blank
    rw [read_append_of_not_stops hstops]
    simp only [hblank]
    exact bind_pure (b.read declared front)

/-! ### Errors of the body -/

theorem Holds.number_eq_error (h : Holds declared numbers b)
    (herror : b.number declared value = .error e) :
    e = .literalOutOfRange value declared.size := by
  have habove : ¬value.natAbs ≤ declared.size := by
    intro hbound
    obtain ⟨next, hnext, _⟩ := h.number hbound
    rw [hnext] at herror
    cases herror
  have hzero : value ≠ 0 := by
    rintro rfl
    exact habove (Nat.zero_le _)
  have hnone : declared[value.natAbs - 1]? = none := by
    rw [Array.getElem?_eq_none_iff]
    omega
  rw [Body.number, if_neg hzero, literalOf, hnone] at herror
  exact (Except.error.inj herror).symm

theorem Holds.of_number (h : Holds declared numbers b)
    (hnumber : b.number declared value = .ok next) : Holds declared (numbers ++ [value]) next := by
  obtain ⟨same, hsame, hholds⟩ := h.number (bound_of_number hnumber)
  obtain rfl := Except.ok.inj (hsame.symm.trans hnumber)
  exact hholds

theorem Holds.immediate_of_word {cs : List Char} (h : Holds declared numbers b)
    (herror : b.word declared text cs = .error e) : e.Immediate := by
  rw [word] at herror
  cases hnumeral : Text.readNumeral .signed64 cs with
  | error cause =>
      rw [hnumeral] at herror
      obtain rfl := Except.error.inj herror
      trivial
  | ok value =>
      rw [hnumeral] at herror
      rw [h.number_eq_error herror]
      trivial

theorem Holds.immediate_of_words (h : Holds declared numbers b)
    (herror : words.foldlM (word declared text) b = .error e) : e.Immediate := by
  induction words generalizing b numbers with
  | nil => cases herror
  | cons cs words ih =>
      rw [List.foldlM_cons, bind_eq_error_iff] at herror
      obtain hword | ⟨mid, hmid, hrest⟩ := herror
      · exact h.immediate_of_word hword
      · obtain ⟨value, _, hnumber⟩ := word_eq_ok_iff.mp hmid
        exact ih (h.of_number hnumber) hrest

theorem Holds.of_line (h : Holds declared numbers b) (hline : b.line declared text = .ok next) :
    ∃ values, Holds declared (numbers ++ values) next := by
  obtain ⟨values, hvalues, hbound⟩ := numerals_of_line hline
  obtain ⟨same, hsame, hholds⟩ := h.line hvalues hbound
  obtain rfl := Except.ok.inj (hsame.symm.trans hline)
  exact ⟨values, hholds⟩

theorem Holds.immediate_of_line (h : Holds declared numbers b)
    (herror : b.line declared text = .error e) : e.Immediate := by
  obtain hwords | ⟨mid, _, hnext⟩ := bind_eq_error_iff.mp herror
  · exact h.immediate_of_words hwords
  · cases hnext

theorem Holds.immediate_of_read (h : Holds declared numbers b)
    (herror : b.read declared lines = .error e) : e.Immediate := by
  induction lines generalizing b numbers with
  | nil => cases herror
  | cons line lines ih =>
      obtain hnone | ⟨text, hline, hskipped | hfinal | ⟨hkept, hopen⟩⟩ := line_cases line
      · rw [read_cons_of_none hnone] at herror
        obtain rfl := Except.error.inj herror
        trivial
      · rw [read_cons_of_skipped hline hskipped] at herror
        exact ih h herror
      · rw [read_cons_of_final hline hfinal] at herror
        cases herror
      · rw [read_cons_of_open hline hkept hopen, bind_eq_error_iff] at herror
        obtain hread | ⟨mid, hread, hrest⟩ := herror
        · exact h.immediate_of_line hread
        · obtain ⟨values, hmid⟩ := h.of_line hread
          exact ih hmid hrest

theorem not_immediate_of_close {expected : Nat} (h : b.close expected = .error e) :
    ¬e.Immediate := by
  unfold close at h
  split at h
  · obtain rfl := Except.error.inj h
    exact id
  · split at h
    · obtain rfl := Except.error.inj h
      exact id
    · cases h

theorem lastLine_of_line (h : b.line declared text = .ok next) : next.lastLine = text := by
  obtain ⟨mid, _, hnext⟩ := bind_eq_ok_iff.mp h
  obtain rfl := Except.ok.inj hnext
  rfl

/-- A line that is not skipped takes the place of the last one. -/
theorem lastLine_of_read (hlines : Contains lines texts)
    (h : b.read declared lines = .ok next) :
    next.lastLine = (lastText? texts).getD b.lastLine := by
  unfold lastText?
  induction lines generalizing b texts with
  | nil =>
      obtain rfl := contains_nil.mp hlines
      obtain rfl := Except.ok.inj h
      rfl
  | cons line lines ih =>
      obtain ⟨text, hline, ⟨hfinal, rfl⟩ | ⟨hopen, others, rfl, hothers⟩⟩ :=
        contains_cons.mp hlines
      · rw [read_cons_of_final hline hfinal] at h
        obtain rfl := Except.ok.inj h
        rfl
      · by_cases hskipped : Skipped text
        · rw [read_cons_of_skipped hline hskipped] at h
          rw [List.filter_cons_of_neg (by simpa using hskipped), ih hothers h]
        · rw [read_cons_of_open hline hskipped hopen, bind_eq_ok_iff] at h
          obtain ⟨mid, hmid, hread⟩ := h
          rw [List.filter_cons_of_pos (by simpa using hskipped), List.getLast?_cons,
            ih hothers hread, lastLine_of_line hmid]
          rfl

end Body

/-! ## Files -/

variable {supply : VariableSupply} {bytes : ByteArray} {n m : Nat} {texts : List (List Char)}
  {numbers : List Int} {e : ParseError}

theorem parse_eq_parseLines (supply : VariableSupply) (bytes : ByteArray) :
    parse supply bytes = parseLines supply (fileLines bytes) := rfl

theorem parseLines_of_opens (h : Opens lines problem rest) :
    parseLines supply lines =
      match parseProblem? problem with
      | some announced => parseAnnounced supply announced rest
      | none => .error (.returned .missingProblemLine) := by
  rw [parseLines, parseHeader_of_opens h]
  cases parseProblem? problem <;> rfl

theorem parseLines_of_announces (h : Opens lines problem rest)
    (hannounces : Announces problem n m) :
    parseLines supply lines = parseAnnounced supply ⟨n, m⟩ rest := by
  have hproblem : parseProblem? problem = some ⟨n, m⟩ := parseProblem?_eq_some_iff.mpr hannounces
  rw [parseLines_of_opens h, hproblem]

/-- The lines behind one problem line matter only for what is read from them. -/
theorem parseLines_congr {others after : List (List UInt8)} (hlines : Opens lines problem rest)
    (hothers : Opens others problem after)
    (hread : ∀ declared b, Body.read declared b rest = Body.read declared b after) :
    parseLines supply lines = parseLines supply others := by
  rw [parseLines_of_opens hlines, parseLines_of_opens hothers]
  unfold parseAnnounced parseBody
  simp only [hread]

theorem parseLines_of_misannounced (h : Misannounced lines) :
    parseLines supply lines = .error (.returned .missingProblemLine) := by
  obtain ⟨problem, rest, hopens, hnone⟩ := h
  rw [parseLines_of_opens hopens, parseProblem?_eq_none_iff.mpr hnone]

theorem parseLines_of_skipped (h : AllSkipped lines) :
    parseLines supply lines = .error (.returned .missingProblemLine) := by
  rw [parseLines, parseHeader_of_skipped h]
  rfl

theorem parseLines_of_undecodable (h : Undecodable lines) :
    parseLines supply lines = .error (.returned (.cannotRead .invalidUtf8)) := by
  rw [parseLines, parseHeader_of_undecodable h]
  rfl

/-- What is found of the first line that is not skipped is found without a blank line at the end. -/
theorem opens_concat_blank (h : Opens (front ++ [[]]) problem rest) :
    ∃ before, rest = before ++ [[]] ∧ Opens front problem before := by
  obtain ⟨header, line, hsplit, hheader, hline, hproblem⟩ := h
  rcases List.eq_nil_or_concat rest with rfl | ⟨before, last, rfl⟩
  · obtain ⟨_, hlast⟩ := List.append_inj' hsplit rfl
    rw [← List.singleton_inj.mp hlast, trimmed?_nil] at hline
    obtain rfl := Option.some.inj hline
    exact absurd (Or.inl rfl) hproblem
  · rw [List.concat_eq_append, ← List.cons_append, ← List.append_assoc] at hsplit
    obtain ⟨hfront, hlast⟩ := List.append_inj' hsplit rfl
    rw [List.concat_eq_append, ← hlast]
    exact ⟨before, rfl, header, line, hfront, hheader, hline, hproblem⟩

theorem Misannounced.of_concat_blank (h : Misannounced (front ++ [[]])) : Misannounced front := by
  obtain ⟨problem, rest, hopens, hnone⟩ := h
  obtain ⟨before, _, hbefore⟩ := opens_concat_blank hopens
  exact ⟨problem, before, hbefore, hnone⟩

theorem Stopped.of_concat_blank (h : Stopped (front ++ [[]])) : Stopped front := by
  obtain ⟨problem, rest, hopens, line, hline, hfinal⟩ := h
  obtain ⟨before, rfl, hbefore⟩ := opens_concat_blank hopens
  rcases List.mem_append.mp hline with hmem | hlast
  · exact ⟨problem, before, hbefore, line, hmem, hfinal⟩
  · exact absurd ⟨line, hlast, hfinal⟩ not_stops_blank

theorem Oversized.of_concat_blank (h : Oversized (front ++ [[]])) : Oversized front := by
  obtain ⟨problem, rest, n, m, hopens, hannounced⟩ := h
  obtain ⟨before, _, hbefore⟩ := opens_concat_blank hopens
  exact ⟨problem, before, n, m, hbefore, hannounced⟩

theorem Misannounced.append (h : Misannounced front) (back : List (List UInt8)) :
    Misannounced (front ++ back) := by
  obtain ⟨problem, rest, hopens, hnone⟩ := h
  exact ⟨problem, rest ++ back, hopens.append back, hnone⟩

theorem parseBody_append_of_immediate {announced : Problem}
    (herror : parseBody supply announced rest = .error e) (himmediate : e.Immediate) :
    parseBody supply announced (rest ++ back) = .error e := by
  obtain hread | ⟨body, _, hend⟩ := bind_eq_error_iff.mp herror
  · exact bind_eq_error_iff.mpr (Or.inl (Body.read_append_of_error hread))
  · -- the body was read to its end, and what is reported there is never immediate
    obtain hclose | ⟨formula, _, hdone⟩ := bind_eq_error_iff.mp hend
    · exact absurd himmediate (Body.not_immediate_of_close hclose)
    · cases hdone

/-- What the reader finds wrong with the first lines, it finds wrong with them whatever follows. -/
theorem parseLines_append_of_immediate (herror : parseLines supply front = .error (.returned e))
    (himmediate : e.Immediate) : parseLines supply (front ++ back) = .error (.returned e) := by
  obtain hskipped | ⟨problem, rest, hopens⟩ | hundecodable := header_cases front
  · rw [parseLines_of_skipped hskipped] at herror
    obtain rfl := Failure.returned.inj (Except.error.inj herror)
    exact himmediate.elim
  · rw [parseLines_of_opens hopens] at herror
    rw [parseLines_of_opens (hopens.append back)]
    cases hproblem : parseProblem? problem with
    | none =>
        rw [hproblem] at herror
        exact herror
    | some announced =>
        rw [hproblem] at herror
        obtain ⟨hlt, hbody⟩ := parseAnnounced_eq_returned_iff.mp herror
        exact parseAnnounced_eq_returned_iff.mpr
          ⟨hlt, parseBody_append_of_immediate hbody himmediate⟩
  · rw [← herror, parseLines_of_undecodable hundecodable]
    exact parseLines_of_undecodable (hundecodable.append back)

theorem parseLines_append_of_oversized (h : Oversized front) :
    parseLines supply (front ++ back) = .error (.panicked .capacityOverflow) := by
  obtain ⟨problem, rest, n, m, hopens, hannounced⟩ := h
  exact parseLines_eq_panicked_iff.mpr
    ⟨problem, rest ++ back, n, m, hopens.append back, hannounced⟩

theorem parseLines_append_of_stopped (h : Stopped front) :
    parseLines supply (front ++ back) = parseLines supply front := by
  obtain ⟨problem, rest, hopens, hstops⟩ := h
  exact parseLines_congr (hopens.append back) hopens
    fun _ _ => Body.read_append_of_stops hstops

theorem parseLines_concat_blank :
    parseLines supply (front ++ [[]]) = parseLines supply front := by
  obtain hskipped | ⟨problem, rest, hopens⟩ | hundecodable := header_cases front
  · have hblank : AllSkipped [[]] :=
      List.forall_mem_singleton.mpr ⟨[], trimmed?_nil, Or.inl rfl⟩
    rw [parseLines_of_skipped hskipped,
      parseLines_of_skipped (List.forall_mem_append.mpr ⟨hskipped, hblank⟩)]
  · exact parseLines_congr (hopens.append [[]]) hopens fun _ _ => Body.read_concat_blank
  · rw [parseLines_of_undecodable hundecodable,
      parseLines_of_undecodable (hundecodable.append [[]])]

/-! ## What whole files give -/

/-- Whole lines are followed by the lines of what is appended to them. -/
theorem exists_fileLines {a : ByteArray} (h : EndsLine a) :
    ∃ front, fileLines a = front ++ [[]] ∧ ∀ x, fileLines (a ++ x) = front ++ fileLines x := by
  obtain ⟨front, last, hpieces⟩ := Text.pieces_eq_concat (· == (10 : UInt8)) a.data.toList
  have hlast : last = [] := by
    rw [Text.last_piece_eq_nil_iff hpieces]
    simpa [EndsLine] using h
  rw [hlast] at hpieces
  refine ⟨front, hpieces, fun x => ?_⟩
  obtain ⟨first, rest, hx⟩ :=
    List.exists_cons_of_ne_nil (Text.pieces_ne_nil (· == (10 : UInt8)) x.data.toList)
  unfold fileLines Text.lines
  rw [ByteArray.data_append, Array.toList_append, Text.pieces_append hpieces hx, hx,
    List.nil_append]

theorem Writes.complete_of_lastText?_eq_none (h : Writes lines n m texts numbers)
    (hnone : lastText? texts = none) : Complete numbers := by
  have hspelled := h.spelled
  rw [Spell, List.getLast?_eq_none_iff.mp hnone] at hspelled
  exact Or.inl (List.map_eq_nil_iff.mp hspelled.symm)

/-- The reader gets to the end of what is written and finds there whether something is missing. -/
theorem Writes.parseLines_eq (h : Writes lines n m texts numbers) (hlt : n < 2 ^ 60)
    (supply : VariableSupply) :
    ∃ f, parseLines supply lines =
      if Complete numbers then
        if numbers.count 0 = m then .ok ⟨f, (supply.fresh n).toArray⟩
        else .error (.returned (.clauseCountMismatch m (numbers.count 0)))
      else
        .error (.returned (.unterminatedClause (String.ofList ((lastText? texts).getD [])))) := by
  obtain ⟨problem, rest, hopens, hannounces, hlines⟩ := h.layout
  have hbound : ∀ number ∈ numbers, number.natAbs ≤ (supply.fresh n).toArray.size := by
    simpa using h.bounded
  obtain ⟨body, hread, hholds⟩ :=
    (holds_withVariables (supply.fresh n)).read hlines h.spelled hbound
  have hlast : body.lastLine = (lastText? texts).getD [] := Body.lastLine_of_read hlines hread
  have hbody : parseBody supply ⟨n, m⟩ rest =
      (body.close m >>= fun formula => .ok ⟨formula, (supply.fresh n).toArray⟩) := by
    simp only [parseBody, hread]
    rfl
  rw [List.nil_append] at hholds
  refine ⟨body.formula, ?_⟩
  rw [parseLines_of_announces hopens hannounces, parseAnnounced_of_lt rest hlt, hbody,
    hholds.close_eq, hlast]
  change Except.mapError _ ((if Complete numbers then _ else _) >>= _) = _
  split
  · split <;> rfl
  · rfl

theorem parseLines_cases (supply : VariableSupply) (lines : List (List UInt8)) :
    (∃ e, parseLines supply lines = .error (.returned e) ∧ e.Defect lines) ∨
      (AllSkipped lines ∧ parseLines supply lines = .error (.returned .missingProblemLine)) ∨
      (Oversized lines ∧ parseLines supply lines = .error (.panicked .capacityOverflow)) ∨
      ∃ n m texts numbers, n < 2 ^ 60 ∧ Writes lines n m texts numbers := by
  obtain hskipped | ⟨problem, rest, hopens⟩ | hundecodable := header_cases lines
  · exact Or.inr (Or.inl ⟨hskipped, parseLines_of_skipped hskipped⟩)
  · cases hproblem : parseProblem? problem with
    | none =>
        have hmisannounced : Misannounced lines :=
          ⟨problem, rest, hopens, parseProblem?_eq_none_iff.mp hproblem⟩
        exact Or.inl ⟨_, parseLines_of_misannounced hmisannounced, Or.inr ⟨rfl, hmisannounced⟩⟩
    | some announced =>
        have hannounces := parseProblem?_eq_some_iff.mp hproblem
        rcases Nat.lt_or_ge announced.variableCount (2 ^ 60) with hlt | hle
        · let declared := supply.fresh announced.variableCount
          cases hread : Body.read declared.toArray { formula := .withVariables declared } rest with
          | error e =>
              have himmediate := (holds_withVariables declared).immediate_of_read hread
              have hparse : parseLines supply lines = .error (.returned e) := by
                rw [parseLines_of_announces hopens hannounces]
                exact parseAnnounced_eq_returned_iff.mpr
                  ⟨hlt, bind_eq_error_iff.mpr (Or.inl hread)⟩
              exact Or.inl ⟨e, hparse, Or.inl himmediate⟩
          | ok body =>
              obtain ⟨texts, numbers, hlines, hwords, hbound⟩ := Body.contains_of_read hread
              exact Or.inr (Or.inr (Or.inr ⟨announced.variableCount, announced.clauseCount, texts,
                numbers, hlt, ⟨problem, rest, hopens, hannounces, hlines⟩, hwords,
                by simpa [declared] using hbound⟩))
        · have hoversized : Oversized lines := ⟨problem, rest, _, _, hopens, hannounces, hle⟩
          exact Or.inr (Or.inr (Or.inl ⟨hoversized, parseLines_eq_panicked_iff.mpr hoversized⟩))
  · exact Or.inl ⟨_, parseLines_of_undecodable hundecodable, Or.inl trivial⟩

theorem parseLines_ne_rejected (supply : VariableSupply) (lines : List (List UInt8))
    (cause : FormulaError) :
    parseLines supply lines ≠ .error (.returned (.rejectedClause cause)) := by
  intro hrejected
  obtain ⟨e, herror, hdefect⟩ | ⟨_, herror⟩ | ⟨_, herror⟩ |
    ⟨n, m, texts, numbers, hlt, hwrites⟩ := parseLines_cases supply lines
  · obtain rfl := Failure.returned.inj (Except.error.inj (hrejected.symm.trans herror))
    obtain hfalse | ⟨hne, _⟩ := hdefect
    · exact hfalse
    · cases hne
  · cases hrejected.symm.trans herror
  · cases hrejected.symm.trans herror
  · obtain ⟨f, hparse⟩ := hwrites.parseLines_eq hlt supply
    rw [hrejected] at hparse
    split at hparse
    · split at hparse <;> cases hparse
    · cases hparse

/-- A defect on a line decides the error, and a final line the result, whatever follows.  Where no
line has a defect and the variables can be listed, the input is judged by what is missing at its
end: a zero first, then a clause.  Where they cannot be listed, the reader panics before it looks at
the lines that follow. -/
theorem earliest_defect_decides (supply : VariableSupply) {a : ByteArray} (ha : EndsLine a)
    (x : ByteArray) :
    (∀ e, parse supply a = .error (.returned e) → e.Defect (fileLines a) →
      parse supply (a ++ x) = .error (.returned e)) ∧
    (Stopped (fileLines a) → parse supply (a ++ x) = parse supply a) ∧
    (Oversized (fileLines a) → parse supply (a ++ x) = .error (.panicked .capacityOverflow)) ∧
    ∀ bytes,
      ((∃ e, parse supply bytes = .error (.returned e) ∧ e.Defect (fileLines bytes)) ∨
        (AllSkipped (fileLines bytes) ∧
          parse supply bytes = .error (.returned .missingProblemLine)) ∨
        (Oversized (fileLines bytes) ∧
          parse supply bytes = .error (.panicked .capacityOverflow)) ∨
        ∃ n m texts numbers, n < 2 ^ 60 ∧ Writes (fileLines bytes) n m texts numbers) ∧
      (∀ n m texts numbers, n < 2 ^ 60 → Writes (fileLines bytes) n m texts numbers →
        (¬Complete numbers → ∃ text, lastText? texts = some text ∧
          parse supply bytes = .error (.returned (.unterminatedClause (String.ofList text)))) ∧
        (Complete numbers → numbers.count 0 ≠ m →
          parse supply bytes = .error (.returned (.clauseCountMismatch m (numbers.count 0)))) ∧
        (Complete numbers → numbers.count 0 = m → ∃ d, parse supply bytes = .ok d)) ∧
      ∀ cause, parse supply bytes ≠ .error (.returned (.rejectedClause cause)) := by
  -- the last line of whole lines is blank, and it gives way to what is appended
  obtain ⟨front, hfront, happend⟩ := exists_fileLines ha
  simp only [parse_eq_parseLines]
  rw [hfront, happend, parseLines_concat_blank]
  refine ⟨?_, ?_, ?_,
    fun bytes => ⟨parseLines_cases supply _, ?_, parseLines_ne_rejected supply _⟩⟩
  · rintro e herror (himmediate | ⟨rfl, hmisannounced⟩)
    · exact parseLines_append_of_immediate herror himmediate
    · exact parseLines_of_misannounced (hmisannounced.of_concat_blank.append _)
  · intro hstopped
    exact parseLines_append_of_stopped hstopped.of_concat_blank
  · intro hoversized
    exact parseLines_append_of_oversized hoversized.of_concat_blank
  · intro n m texts numbers hlt hwrites
    obtain ⟨f, hparse⟩ := hwrites.parseLines_eq hlt supply
    refine ⟨fun hopen => ?_, fun hend hcount => ?_, fun hend hcount => ?_⟩
    · cases htext : lastText? texts with
      | none => exact absurd (hwrites.complete_of_lastText?_eq_none htext) hopen
      | some text =>
          rw [if_neg hopen, htext] at hparse
          exact ⟨text, rfl, hparse⟩
    · rwa [if_pos hend, if_neg hcount] at hparse
    · rw [if_pos hend, if_pos hcount] at hparse
      exact ⟨_, hparse⟩

theorem earliest_defect_decides_before_invalid_bytes :
    let a := "p cnf 2 1\n1 x\n".toUTF8
    let b := "p cnf 1 2\n1 0\n% 2\n".toUTF8
    let x : ByteArray := ⟨#[255]⟩
    EndsLine a ∧ parse {} (a ++ x) = .error (.returned (.malformedLiteral "1 x" .invalidDigit)) ∧
      EndsLine b ∧ parse {} (b ++ x) = .error (.returned (.clauseCountMismatch 2 1)) := by
  intro a b x
  have ha : EndsLine a := by unfold EndsLine; decide
  have hb : EndsLine b := by unfold EndsLine; decide
  have hmalformed : parse {} a = .error (.returned (.malformedLiteral "1 x" .invalidDigit)) := rfl
  have hmismatch : parse {} b = .error (.returned (.clauseCountMismatch 2 1)) := rfl
  have hopens : Opens (fileLines b) "p cnf 1 2".toList ((fileLines b).drop 1) :=
    ⟨[], "p cnf 1 2".toUTF8.data.toList, by decide⟩
  have hstops : Stops ((fileLines b).drop 1) :=
    ⟨"% 2".toUTF8.data.toList, by decide, "% 2".toList, by decide⟩
  have hcutoff := (earliest_defect_decides {} hb x).2.1 ⟨_, _, hopens, hstops⟩
  refine ⟨ha, ?_, hb, hcutoff.trans hmismatch⟩
  exact (earliest_defect_decides {} ha x).1 _ hmalformed (Or.inl trivial)

/-- Where the variables cannot be listed, a missing clause is not reported. -/
theorem parse_ne_clauseCountMismatch_of_unlistable_variables :
    let bytes := "p cnf 1152921504606846976 1\n".toUTF8
    Writes (fileLines bytes) (2 ^ 60) 1 [[]] [] ∧ Complete [] ∧ ([] : List Int).count 0 ≠ 1 ∧
      parse {} bytes ≠ .error (.returned (.clauseCountMismatch 1 0)) := by
  intro bytes
  refine ⟨⟨⟨"p cnf 1152921504606846976 1".toList, [[]], ?_, ?_, ?_⟩, rfl,
    List.forall_mem_nil _⟩, Or.inl rfl, by decide, ?_⟩
  · exact ⟨[], "p cnf 1152921504606846976 1".toUTF8.data.toList, by decide⟩
  · exact ⟨"1152921504606846976".toList, ['1'], by decide⟩
  · exact ⟨[[]], [], by decide, by decide, by decide, Or.inl rfl⟩
  · have hpanics : parse {} bytes = .error (.panicked .capacityOverflow) := rfl
    intro hmismatch
    cases hpanics.symm.trans hmismatch

end SatSearch.Dimacs
