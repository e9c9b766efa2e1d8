import Mathlib.Data.List.DropRight

/-! Lists that are cut at runs of a separator. -/
namespace Lib

variable {α : Type} [DecidableEq α]

/-- The pieces between separators that are not empty. -/
def pieces (a : α) (l : List α) : List (List α) := (l.splitOn a).filter fun c => c ≠ []

namespace pieces

variable (a : α)

theorem nil : pieces a [] = [] := rfl

theorem cons_self (l : List α) : pieces a (a :: l) = pieces a l := by
  unfold pieces
  rw [List.splitOn_cons_eq_if_modifyHead, if_pos (beq_self_eq_true a), List.filter_cons_of_neg]
  simp

/-- Separators at the front do not count. -/
theorem dropWhile (l : List α) : pieces a (l.dropWhile (· = a)) = pieces a l := by
  induction l with
  | nil => rfl
  | cons x l ih =>
    rw [List.dropWhile_cons]
    split_ifs with hx
    · rw [ih, of_decide_eq_true hx, cons_self]
    · rfl

theorem cons_piece {front : List α} (l : List α) (hne : front ≠ []) (hfront : a ∉ front) :
    pieces a (front ++ a :: l) = front :: pieces a l := by
  unfold pieces
  rw [List.splitOn_append_cons_self_of_not_mem hfront, List.filter_cons_of_pos]
  simpa using hne

theorem piece {front : List α} (hne : front ≠ []) (hfront : a ∉ front) :
    pieces a front = [front] := by
  unfold pieces
  rw [List.splitOn_eq_singleton hfront, List.filter_cons_of_pos]
  · rfl
  · simpa using hne

/-- The first piece of a list that does not start with a separator. -/
theorem cons_of_ne {x : α} (l : List α) (hx : x ≠ a) : pieces a (x :: l) =
    (x :: l).takeWhile (· ≠ a) :: pieces a ((x :: l).dropWhile (· ≠ a)) := by
  have hsplit := List.takeWhile_append_dropWhile (p := (· ≠ a)) (l := x :: l)
  have hfront : a ∉ (x :: l).takeWhile (· ≠ a) := by
    intro ha
    simpa using List.mem_takeWhile_imp ha
  have hne : (x :: l).takeWhile (· ≠ a) ≠ [] := by
    rw [List.takeWhile_cons_of_pos (by simpa using hx)]
    exact List.cons_ne_nil _ _
  generalize (x :: l).takeWhile (· ≠ a) = front at hsplit hfront hne ⊢
  cases hback : (x :: l).dropWhile (· ≠ a) with
  | nil =>
    rw [hback, List.append_nil] at hsplit
    rw [← hsplit, piece a hne hfront, nil]
  | cons y back =>
    have hy : y = a := by
      have hnot := List.head?_dropWhile_not (· ≠ a) (x :: l)
      rw [hback] at hnot
      simpa using hnot
    rw [hback, hy] at hsplit
    rw [← hsplit, hy, cons_piece a back hne hfront, cons_self]

end pieces

end Lib
