import SatSearch.Text.Pieces
import Mathlib.Tactic

/-!
# Pieces of a list

Splitting two lists one after the other splits both of them and joins the pieces where they meet.
So splitting can be followed from element to element, as a reader does that does not know what is
still to come.
-/

namespace SatSearch.Text

variable {α : Type} {separates : α → Bool} {x : α} {xs ys first last : List α}
  {front rest : List (List α)}

theorem pieces_cons_of_not (h : separates x = false) (hxs : pieces separates xs = first :: rest) :
    pieces separates (x :: xs) = (x :: first) :: rest := by
  unfold pieces at hxs ⊢
  rw [List.foldr_cons, hxs, h]
  rfl

theorem pieces_eq_concat (separates : α → Bool) (xs : List α) :
    ∃ front last, pieces separates xs = front ++ [last] :=
  ⟨_, _, (List.dropLast_append_getLast (pieces_ne_nil separates xs)).symm⟩

/-- Where two lists meet, the last piece of the first one goes on with the first piece of the
second one. -/
theorem pieces_append (hxs : pieces separates xs = front ++ [last])
    (hys : pieces separates ys = first :: rest) :
    pieces separates (xs ++ ys) = front ++ (last ++ first) :: rest := by
  induction xs generalizing front last with
  | nil =>
      obtain ⟨rfl, rfl⟩ : front = [] ∧ last = [] := by
        cases front with
        | nil => simpa [eq_comm] using hxs
        | cons piece front => simp at hxs
      exact hys
  | cons y xs ih =>
      cases hy : separates y with
      | true =>
          rw [pieces_cons_of_separates hy] at hxs
          rw [List.cons_append, pieces_cons_of_separates hy]
          cases front with
          | nil =>
              have hnil : pieces separates xs = [] := (List.cons.inj hxs).2
              exact absurd hnil (pieces_ne_nil separates xs)
          | cons piece front =>
              obtain ⟨rfl, htail⟩ := List.cons.inj hxs
              rw [ih htail]
              rfl
      | false =>
          obtain ⟨piece, others, hpieces⟩ :=
            List.exists_cons_of_ne_nil (pieces_ne_nil separates xs)
          rw [pieces_cons_of_not hy hpieces] at hxs
          rw [List.cons_append]
          cases front with
          | nil =>
              obtain ⟨rfl, rfl⟩ := List.cons.inj hxs
              have hsplit : pieces separates xs = [] ++ [piece] := hpieces
              exact pieces_cons_of_not hy (ih hsplit)
          | cons other front =>
              obtain ⟨rfl, rfl⟩ := List.cons.inj hxs
              have hsplit : pieces separates xs = (piece :: front) ++ [last] := hpieces
              exact pieces_cons_of_not hy (ih hsplit)

theorem pieces_of_forall_not (h : ∀ x ∈ xs, separates x = false) : pieces separates xs = [xs] := by
  induction xs with
  | nil => rfl
  | cons x xs ih =>
      obtain ⟨hx, hxs⟩ := List.forall_mem_cons.mp h
      exact pieces_cons_of_not hx (ih hxs)

/-- What does not separate belongs to the first piece of what follows it. -/
theorem pieces_append_of_forall_not (h : ∀ x ∈ xs, separates x = false)
    (hys : pieces separates ys = first :: rest) :
    pieces separates (xs ++ ys) = (xs ++ first) :: rest := by
  have hxs : pieces separates xs = [] ++ [xs] := pieces_of_forall_not h
  exact pieces_append hxs hys

theorem pieces_concat_of_separates (hx : separates x = true) :
    pieces separates (xs ++ [x]) = pieces separates xs ++ [[]] := by
  obtain ⟨front, last, hxs⟩ := pieces_eq_concat separates xs
  have hlast : pieces separates [x] = [[], []] := pieces_cons_of_separates hx []
  rw [pieces_append hxs hlast, hxs]
  simp

theorem pieces_concat_of_not (hx : separates x = false)
    (hxs : pieces separates xs = front ++ [last]) :
    pieces separates (xs ++ [x]) = front ++ [last ++ [x]] :=
  pieces_append hxs (pieces_cons_of_not hx rfl)

theorem length_pieces (separates : α → Bool) (xs : List α) :
    (pieces separates xs).length = xs.countP separates + 1 := by
  induction xs with
  | nil => rfl
  | cons x xs ih =>
      cases hx : separates x with
      | true => rw [pieces_cons_of_separates hx, List.length_cons, ih, List.countP_cons_of_pos hx]
      | false =>
          obtain ⟨first, rest, hxs⟩ := List.exists_cons_of_ne_nil (pieces_ne_nil separates xs)
          rw [hxs, List.length_cons] at ih
          rw [pieces_cons_of_not hx hxs, List.length_cons, ih,
            List.countP_cons_of_neg (ne_true_of_eq_false hx)]

/-- Pieces hold what does not separate. -/
theorem mem_of_mem_pieces {piece : List α} (hpiece : piece ∈ pieces separates xs)
    (hx : x ∈ piece) : x ∈ xs ∧ separates x = false := by
  induction xs generalizing piece with
  | nil =>
      rw [pieces_nil, List.mem_singleton] at hpiece
      rw [hpiece] at hx
      contradiction
  | cons y xs ih =>
      cases hy : separates y with
      | true =>
          rw [pieces_cons_of_separates hy] at hpiece
          rcases List.mem_cons.mp hpiece with rfl | hpiece
          · contradiction
          · exact ⟨List.mem_cons_of_mem y (ih hpiece hx).1, (ih hpiece hx).2⟩
      | false =>
          obtain ⟨first, rest, hxs⟩ := List.exists_cons_of_ne_nil (pieces_ne_nil separates xs)
          rw [hxs] at ih
          rw [pieces_cons_of_not hy hxs] at hpiece
          rcases List.mem_cons.mp hpiece with rfl | hpiece
          · rcases List.mem_cons.mp hx with rfl | hx
            · exact ⟨List.mem_cons_self, hy⟩
            · exact ⟨List.mem_cons_of_mem y (ih List.mem_cons_self hx).1,
                (ih List.mem_cons_self hx).2⟩
          · have hmem := ih (List.mem_cons_of_mem first hpiece) hx
            exact ⟨List.mem_cons_of_mem y hmem.1, hmem.2⟩

/-- The last piece is empty if and only if nothing follows the last separator. -/
theorem last_piece_eq_nil_iff (hxs : pieces separates xs = front ++ [last]) :
    last = [] ↔ xs = [] ∨ ∃ x, xs.getLast? = some x ∧ separates x = true := by
  rcases List.eq_nil_or_concat xs with rfl | ⟨ys, x, rfl⟩
  · have hlast := congrArg List.getLast? hxs
    simp only [pieces_nil, List.getLast?_singleton, List.getLast?_concat, Option.some.injEq]
      at hlast
    simp [← hlast]
  · cases hx : separates x with
    | true =>
        rw [List.concat_eq_append, pieces_concat_of_separates hx] at hxs
        have hlast := List.singleton_inj.mp (List.append_inj' hxs rfl).2
        simp [← hlast, hx]
    | false =>
        obtain ⟨before, piece, hys⟩ := pieces_eq_concat separates ys
        rw [List.concat_eq_append, pieces_concat_of_not hx hys] at hxs
        have hlast := List.singleton_inj.mp (List.append_inj' hxs rfl).2
        simp [← hlast, hx]

end SatSearch.Text
