import SatSearch.Text.Blank

/-!
# Lines and words

Splitting a list at its separators gives the pieces between them, empty ones included, so there is
always one piece more than there are separators.  Lines are the pieces between line feeds, and
words the pieces between blanks that are not empty.
-/

namespace SatSearch.Text

/-- The pieces of a list between the elements that satisfy `separates`. -/
def pieces {α : Type} (separates : α → Bool) (xs : List α) : List (List α) :=
  xs.foldr
    (fun x rest =>
      if separates x then
        [] :: rest
      else
        match rest with
        | [] => [[x]]
        | piece :: rest => (x :: piece) :: rest)
    [[]]

/-- The lines of a text given by its bytes.  A carriage return before the line feed stays in its
line. -/
def lines (bytes : List UInt8) : List (List UInt8) :=
  pieces (· == 10) bytes

/-- The maximal runs of characters that are not blank. -/
def words (cs : List Char) : List (List Char) :=
  (pieces isBlank cs).filter fun piece => !piece.isEmpty

/-- The text that the bytes encode in UTF-8, if they do. -/
def decode? (bytes : List UInt8) : Option (List Char) :=
  (String.fromUTF8? ⟨bytes.toArray⟩).map String.toList

@[simp] theorem pieces_nil {α : Type} (separates : α → Bool) : pieces separates [] = [[]] := rfl

theorem pieces_ne_nil {α : Type} (separates : α → Bool) (xs : List α) :
    pieces separates xs ≠ [] := by
  cases xs with
  | nil => simp
  | cons x xs =>
    simp only [pieces, List.foldr_cons]
    split
    · simp
    · split <;> simp

theorem pieces_cons_of_separates {α : Type} {separates : α → Bool} {x : α}
    (h : separates x = true) (xs : List α) :
    pieces separates (x :: xs) = [] :: pieces separates xs := by
  simp [pieces, h]

end SatSearch.Text
