import Mathlib.Data.List.Nodup

/-! Singly linked lists threaded through memory. `next` reads the link stored at a node. -/
namespace Lib

/-- Following `next` from `a` visits the nodes `xs` and arrives at `e`. -/
def Chain (next : ℕ → ℕ) : ℕ → List ℕ → ℕ → Prop
  | a, [], e => a = e
  | a, x :: xs, e => a = x ∧ x ≠ 0 ∧ Chain next (next x) xs e

namespace Chain

variable {next next' : ℕ → ℕ} {a b e x : ℕ} {xs ys : List ℕ}

@[simp] theorem nil_iff : Chain next a [] e ↔ a = e := Iff.rfl

@[simp] theorem cons_iff :
    Chain next a (x :: xs) e ↔ a = x ∧ x ≠ 0 ∧ Chain next (next x) xs e := Iff.rfl

theorem ne_zero (h : Chain next a xs e) : ∀ y ∈ xs, y ≠ 0 := by
  induction xs generalizing a with
  | nil => simp
  | cons x xs ih =>
    rintro y (_ | ⟨_, hy⟩)
    · exact h.2.1
    · exact ih h.2.2 y hy

/-- Only the links of the visited nodes matter. -/
theorem frame (h : Chain next a xs e) (hn : ∀ y ∈ xs, next' y = next y) :
    Chain next' a xs e := by
  induction xs generalizing a with
  | nil => exact h
  | cons x xs ih =>
    obtain ⟨rfl, h0, ht⟩ := h
    refine ⟨rfl, h0, ?_⟩
    rw [hn a (by simp)]
    exact ih ht fun y hy => hn y (by simp [hy])

theorem eq_nil_of_zero (h : Chain next 0 xs e) : xs = [] := by
  cases xs with
  | nil => rfl
  | cons x xs => exact absurd h.1.symm h.2.1

theorem exists_cons_of_ne (h : Chain next a xs 0) (ha : a ≠ 0) :
    ∃ ys, xs = a :: ys ∧ Chain next (next a) ys 0 := by
  cases xs with
  | nil => exact absurd h ha
  | cons x xs => exact ⟨xs, by rw [h.1], by simpa [h.1] using h.2.2⟩

theorem unique (h : Chain next a xs 0) (h' : Chain next a ys 0) : xs = ys := by
  induction xs generalizing a ys with
  | nil => exact (eq_nil_of_zero (nil_iff.mp h ▸ h')).symm
  | cons x xs ih =>
    obtain ⟨rfl, h0, ht⟩ := h
    obtain ⟨zs, rfl, ht'⟩ := exists_cons_of_ne h' h0
    rw [ih ht ht']

/-- As many steps from one place lead to one place. -/
theorem unique_of_length {e' : ℕ} (h : Chain next a xs e) (h' : Chain next a ys e')
    (hl : xs.length = ys.length) : xs = ys ∧ e = e' := by
  induction xs generalizing a ys with
  | nil =>
    obtain rfl := List.eq_nil_of_length_eq_zero hl.symm
    exact ⟨rfl, h.symm.trans h'⟩
  | cons x xs ih =>
    rcases ys with _ | ⟨y, ys⟩
    · cases hl
    obtain ⟨rfl, -, ht⟩ := h
    obtain ⟨rfl, -, ht'⟩ := h'
    obtain ⟨rfl, he⟩ := ih ht ht' (Nat.succ.inj hl)
    exact ⟨rfl, he⟩

theorem append (h : Chain next a xs b) (h' : Chain next b ys e) : Chain next a (xs ++ ys) e := by
  induction xs generalizing a with
  | nil => rw [nil_iff.mp h]; exact h'
  | cons x xs ih => exact ⟨h.1, h.2.1, ih h.2.2⟩

/-- Nodes that each link to the following one. -/
theorem of_links {x : ℕ → ℕ} (n : ℕ) (h0 : ∀ j ≤ n, x j ≠ 0)
    (hl : ∀ j < n, next (x j) = x (j + 1)) :
    Chain next (x 0) ((List.range (n + 1)).map x) (next (x n)) := by
  induction n with
  | zero => exact ⟨rfl, h0 0 (Nat.le_refl 0), rfl⟩
  | succ n ih =>
    have hi := ih (fun j hj => h0 j (by omega)) fun j hj => hl j (by omega)
    rw [hl n (by omega)] at hi
    rw [List.range_succ, List.map_append]
    exact hi.append ⟨rfl, h0 _ (Nat.le_refl _), rfl⟩

end Chain
end Lib
