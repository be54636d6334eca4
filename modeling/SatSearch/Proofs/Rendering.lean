import SatSearch.Text.Numeral
import SatSearch.Proofs.Pieces
import SatSearch.Proofs.Success
import Mathlib.Data.List.DropRight

/-!
# Reading what was written

Encoding does not move the ends of lines, trimming does not change words, and words that are put
behind blanks are found again.  A numeral is read back as its number if the range has it.
-/

namespace SatSearch.Text

variable {cs : List Char} {c : Char}

/-! ## Lines -/

def encode (cs : List Char) : List UInt8 :=
  cs.flatMap String.utf8EncodeChar

theorem toList_data_toUTF8 (s : String) : s.toUTF8.data.toList = encode s.toList := by
  rw [String.toUTF8_eq_toByteArray, ← String.utf8Encode_toList, List.utf8Encode,
    List.data_toByteArray]
  rfl

theorem fromUTF8?_toUTF8 (s : String) : String.fromUTF8? s.toUTF8 = some s := by
  rw [String.fromUTF8?, String.toUTF8_eq_toByteArray, dif_pos s.isValidUTF8]
  rfl

theorem decode?_encode (cs : List Char) : decode? (encode cs) = some cs := by
  have hbytes : (⟨(encode cs).toArray⟩ : ByteArray) = (String.ofList cs).toUTF8 := by
    apply ByteArray.ext
    rw [← Array.toList_inj, toList_data_toUTF8, String.toList_ofList]
  rw [decode?, hbytes, fromUTF8?_toUTF8, Option.map_some, String.toList_ofList]

/-- Only the line feed has its byte in its encoding: all bytes of a longer one are above it. -/
theorem eq_newline_of_mem_utf8EncodeChar (h : 10 ∈ String.utf8EncodeChar c) : c = '\n' := by
  unfold String.utf8EncodeChar at h
  simp only at h
  split at h
  · simp only [List.mem_singleton, ← UInt8.toNat_inj, UInt8.toNat_ofNat', UInt8.reduceToNat] at h
    apply Char.toNat_inj.mp
    change c.val.toNat = 10
    omega
  · exfalso
    split at h
    · simp [← UInt8.toNat_inj] at h
      omega
    · split at h
      · simp [← UInt8.toNat_inj] at h
        omega
      · simp [← UInt8.toNat_inj] at h
        omega

theorem lines_encode (cs : List Char) : lines (encode cs) = (pieces (· == '\n') cs).map encode := by
  induction cs with
  | nil => rfl
  | cons c cs ih =>
      by_cases hc : c = '\n'
      · have hencode : encode (c :: cs) = 10 :: encode cs := by
          rw [hc]
          rfl
        rw [lines] at ih ⊢
        rw [hencode, pieces_cons_of_separates rfl, ih, pieces_cons_of_separates (by simp [hc])]
        rfl
      · have hkept : ∀ byte ∈ String.utf8EncodeChar c, (byte == 10) = false := by
          intro byte hbyte
          rw [beq_eq_false_iff_ne]
          rintro rfl
          exact hc (eq_newline_of_mem_utf8EncodeChar hbyte)
        obtain ⟨first, rest, hcs⟩ :=
          List.exists_cons_of_ne_nil (pieces_ne_nil (· == '\n') cs)
        rw [lines, hcs] at ih
        rw [pieces_cons_of_not (by simp [hc]) hcs]
        exact pieces_append_of_forall_not hkept ih

/-! ## Words -/

theorem trim_eq (cs : List Char) : trim cs = List.rdropWhile isBlank (cs.dropWhile isBlank) := rfl

theorem words_cons_of_isBlank (hc : isBlank c = true) : words (c :: cs) = words cs := by
  rw [words, pieces_cons_of_separates hc]
  rfl

theorem words_concat_of_isBlank (hc : isBlank c = true) : words (cs ++ [c]) = words cs := by
  rw [words, pieces_concat_of_separates hc, List.filter_append]
  exact List.append_nil _

theorem words_dropWhile (cs : List Char) : words (cs.dropWhile isBlank) = words cs := by
  induction cs with
  | nil => rfl
  | cons c cs ih =>
      cases hc : isBlank c with
      | true => rw [List.dropWhile_cons_of_pos hc, ih, words_cons_of_isBlank hc]
      | false => rw [List.dropWhile_cons_of_neg (ne_true_of_eq_false hc)]

theorem words_rdropWhile (cs : List Char) : words (List.rdropWhile isBlank cs) = words cs := by
  induction cs using List.reverseRecOn with
  | nil => rfl
  | append_singleton cs c ih =>
      cases hc : isBlank c with
      | true => rw [List.rdropWhile_concat_pos _ _ _ hc, ih, words_concat_of_isBlank hc]
      | false => rw [List.rdropWhile_concat_neg _ _ _ (ne_true_of_eq_false hc)]

theorem words_trim (cs : List Char) : words (trim cs) = words cs := by
  rw [trim_eq, words_rdropWhile, words_dropWhile]

/-- Trimming keeps the first character that is not blank, and it comes first then. -/
theorem head?_trim (cs : List Char) : (trim cs).head? = cs.find? fun c => !isBlank c := by
  have hfind := List.find?_eq_head?_dropWhile_not (fun c => !isBlank c) cs
  simp only [Bool.not_not] at hfind
  rw [trim_eq, hfind]
  cases hdrop : cs.dropWhile isBlank with
  | nil => rfl
  | cons c rest =>
      have hc : ¬isBlank c = true := by
        have hne : cs.dropWhile isBlank ≠ [] := by simp [hdrop]
        simpa [hdrop] using List.head_dropWhile_not isBlank hne
      obtain ⟨tail, htail⟩ := List.rdropWhile_prefix isBlank (c :: rest)
      cases hkept : List.rdropWhile isBlank (c :: rest) with
      | nil =>
          rw [List.rdropWhile_eq_nil_iff] at hkept
          exact absurd (hkept c List.mem_cons_self) hc
      | cons first others =>
          rw [hkept] at htail
          rw [(List.cons.inj htail).1]
          rfl

def IsWord (w : List Char) : Prop :=
  w ≠ [] ∧ ∀ c ∈ w, isBlank c = false

theorem isWord_of_all {w : List Char} (hne : w ≠ []) (h : w.all (fun c => !isBlank c) = true) :
    IsWord w := by
  refine ⟨hne, fun c hc => ?_⟩
  simpa using List.all_eq_true.mp h c hc

/-- Each of the words behind a blank. -/
def spaced (ws : List (List Char)) : List Char :=
  ws.flatMap fun w => ' ' :: w

variable {w : List Char} {ws : List (List Char)}

theorem pieces_append_spaced (hw : ∀ c ∈ w, isBlank c = false) (hws : ∀ v ∈ ws, IsWord v) :
    pieces isBlank (w ++ spaced ws) = w :: ws := by
  induction ws generalizing w with
  | nil =>
      have hnil : w ++ spaced [] = w := List.append_nil w
      rw [hnil, pieces_of_forall_not hw]
  | cons v ws ih =>
      obtain ⟨hv, htail⟩ := List.forall_mem_cons.mp hws
      have hrest : pieces isBlank (spaced (v :: ws)) = [] :: v :: ws :=
        (pieces_cons_of_separates (by decide) (v ++ spaced ws)).trans
          (congrArg (List.cons []) (ih hv.2 htail))
      rw [pieces_append_of_forall_not hw hrest, List.append_nil]

theorem filter_of_isWord (hws : ∀ v ∈ ws, IsWord v) :
    (ws.filter fun piece => !piece.isEmpty) = ws := by
  apply List.filter_eq_self.mpr
  intro v hv
  simpa using (hws v hv).1

theorem words_append_spaced (hw : IsWord w) (hws : ∀ v ∈ ws, IsWord v) :
    words (w ++ spaced ws) = w :: ws := by
  rw [words, pieces_append_spaced hw.2 hws,
    filter_of_isWord (List.forall_mem_cons.mpr ⟨hw, hws⟩)]

theorem words_spaced (hws : ∀ v ∈ ws, IsWord v) : words (spaced ws) = ws := by
  have hpieces : pieces isBlank (spaced ws) = [] :: ws :=
    pieces_append_spaced (List.forall_mem_nil _) hws
  rw [words, hpieces]
  exact filter_of_isWord hws

theorem head?_trim_append (hw : IsWord w) (rest : List Char) :
    (trim (w ++ rest)).head? = w.head? := by
  obtain ⟨hne, hkept⟩ := hw
  cases w with
  | nil => exact absurd rfl hne
  | cons c w =>
      have hc := hkept c List.mem_cons_self
      rw [head?_trim]
      simp [hc]

theorem head?_trim_spaced (hw : IsWord w) (ws : List (List Char)) :
    (trim (spaced (w :: ws))).head? = w.head? :=
  head?_trim_append hw (spaced ws)

/-! ## Numerals -/

theorem isBlank_of_isDigit (hc : c.isDigit = true) : isBlank c = false := by
  simp only [Char.isDigit, Bool.and_eq_true, decide_eq_true_eq, ge_iff_le,
    UInt32.le_iff_toNat_le] at hc
  have hlow : 48 ≤ c.toNat := hc.1
  have hhigh : c.toNat ≤ 57 := hc.2
  simp [isBlank, blankRanges]
  omega

theorem le_ofDigitChars (cs : List Char) (value : Nat) : value ≤ Nat.ofDigitChars 10 cs value := by
  rw [Nat.ofDigitChars_eq_ofDigitChars_zero]
  have hpos : 1 ≤ 10 ^ cs.length := Nat.one_le_pow _ _ (by decide)
  exact (Nat.le_mul_of_pos_left value hpos).trans (Nat.le_add_right _ _)

theorem readDigits_eq_ok {limit value : Nat} {overflow : NumeralError}
    (hdigits : ∀ c ∈ cs, c.isDigit = true) (hlimit : Nat.ofDigitChars 10 cs value ≤ limit) :
    readDigits limit overflow value cs = .ok (Nat.ofDigitChars 10 cs value) := by
  induction cs generalizing value with
  | nil => rfl
  | cons c cs ih =>
      obtain ⟨hc, hcs⟩ := List.forall_mem_cons.mp hdigits
      rw [Nat.ofDigitChars_cons, Nat.mul_comm] at hlimit ⊢
      have hvalue := (le_ofDigitChars cs _).trans hlimit
      rw [readDigits, hc, ← ih hcs hlimit]
      exact if_neg (Nat.not_lt.mpr hvalue)

theorem isDigit_of_mem_repr {n : Nat} (hc : c ∈ n.repr.toList) : c.isDigit = true := by
  rw [Nat.toList_repr] at hc
  exact Nat.isDigit_of_mem_toDigits (by decide) (by decide) hc

theorem readMagnitude_repr {limit n : Nat} {overflow : NumeralError} (hn : n ≤ limit) :
    readMagnitude limit overflow n.repr.toList = .ok n := by
  have hvalue : Nat.ofDigitChars 10 n.repr.toList 0 = n := by
    rw [Nat.toList_repr]
    exact Nat.ofDigitChars_toDigits (by decide) (by decide)
  have hread : readDigits limit overflow 0 n.repr.toList = .ok n := by
    rw [readDigits_eq_ok (fun c => isDigit_of_mem_repr) (hvalue.trans_le hn), hvalue]
  rw [readMagnitude, hread]
  simp

theorem isWord_repr (n : Nat) : IsWord n.repr.toList := by
  refine ⟨?_, fun c hc => isBlank_of_isDigit (isDigit_of_mem_repr hc)⟩
  rw [Nat.toList_repr]
  exact Nat.toDigits_ne_nil

theorem readNumeral_repr {range : NumeralRange} {n : Nat} (hn : n ≤ range.positive) :
    readNumeral range n.repr.toList = .ok n := by
  have hread : readMagnitude range.positive .tooLarge n.repr.toList = .ok n :=
    readMagnitude_repr hn
  have hdigits : ∀ c ∈ n.repr.toList, c.isDigit = true := fun c => isDigit_of_mem_repr
  unfold readNumeral
  split
  next h => exact absurd h (isWord_repr n).1
  next h =>
    rw [h] at hdigits
    exact absurd (hdigits '+' List.mem_cons_self) (by decide)
  next h =>
    rw [h] at hdigits
    exact absurd (hdigits '-' List.mem_cons_self) (by decide)
  next =>
    rw [hread]
    rfl

theorem readNumeral_unsigned_repr {n : Nat} (hn : n < 2 ^ 64) :
    readNumeral .unsigned64 n.repr.toList = .ok n := by
  have hbound : n ≤ NumeralRange.unsigned64.positive := Nat.le_pred_of_lt hn
  exact readNumeral_repr hbound

theorem readNumeral_neg_repr {range : NumeralRange} {limit n : Nat}
    (hrange : range.negative = some limit) (hn : n ≤ limit) :
    readNumeral range ('-' :: n.repr.toList) = .ok (-n) := by
  rw [readNumeral, hrange]
  change (readMagnitude limit .tooSmall n.repr.toList).map _ = _
  rw [readMagnitude_repr hn]
  rfl

theorem toList_toString (i : Int) :
    (toString i).toList =
      if 0 ≤ i then i.natAbs.repr.toList else '-' :: i.natAbs.repr.toList := by
  rw [Int.toString_eq_repr, Int.repr_eq_if]
  split
  · have hnat : i.toNat = i.natAbs := by omega
    rw [hnat]
  · have hnat : (-i).toNat = i.natAbs := by omega
    rw [hnat, String.toList_append]
    rfl

theorem mem_toString {i : Int} (hc : c ∈ (toString i).toList) : c = '-' ∨ c.isDigit = true := by
  rw [toList_toString] at hc
  split at hc
  · exact Or.inr (isDigit_of_mem_repr hc)
  · exact (List.mem_cons.mp hc).imp_right isDigit_of_mem_repr

theorem isWord_toString (i : Int) : IsWord (toString i).toList := by
  obtain ⟨hne, hkept⟩ := isWord_repr i.natAbs
  rw [toList_toString]
  split
  · exact ⟨hne, hkept⟩
  · exact ⟨List.cons_ne_nil _ _, List.forall_mem_cons.mpr ⟨by decide, hkept⟩⟩

/-- What is written for a number of the signed range is read as this number. -/
theorem readNumeral_toString {i : Int} (hi : i.natAbs < 2 ^ 63) :
    readNumeral .signed64 (toString i).toList = .ok i := by
  rw [toList_toString]
  split
  next hnonneg =>
    have hbound : i.natAbs ≤ NumeralRange.signed64.positive := Nat.le_pred_of_lt hi
    rw [readNumeral_repr hbound, Int.natAbs_of_nonneg hnonneg]
  next hneg =>
    rw [readNumeral_neg_repr rfl hi.le]
    congr 1
    omega

end SatSearch.Text
