import Mathlib.Order.Nat

/-! Copying cell by cell from the last cell on, or from the first one, between ranges that may
overlap in any way. -/
namespace Lib

variable {A B : Type} [DecidableEq A]

/-- The cells `s 0, .., s (n - 1)` are copied to `d 0, .., d (n - 1)`, the last one first. -/
def copyDown (s d : ℕ → A) : ℕ → (A → B) → A → B
  | 0, m => m
  | n + 1, m => copyDown s d n (Function.update m (d n) (m (s n)))

/-- The same, the first one first. -/
def copyUp (s d : ℕ → A) : ℕ → (A → B) → A → B
  | 0, m => m
  | n + 1, m => copyUp (s ∘ Nat.succ) (d ∘ Nat.succ) n (Function.update m (d 0) (m (s 0)))

namespace copyDown

variable {s d : ℕ → A} {n j : ℕ} {m : A → B}

theorem frame {x : A} (h : ∀ i < n, d i ≠ x) : copyDown s d n m x = m x := by
  induction n generalizing m with
  | zero => rfl
  | succ n ih =>
    rw [copyDown, ih fun i hi => h i (Nat.lt_succ_of_lt hi)]
    exact Function.update_of_ne (h n (Nat.lt_succ_self n)).symm _ _

theorem last (hd : ∀ i < n, d i ≠ d n) : copyDown s d (n + 1) m (d n) = m (s n) := by
  rw [copyDown, frame hd, Function.update_self]

/-- A cell that is not overwritten before its turn is copied as it was. -/
theorem of_kept (hd : ∀ i < n, ∀ k < n, d i = d k → i = k) (hj : j < n)
    (h : ∀ i, j < i → i < n → d i ≠ s j) : copyDown s d n m (d j) = m (s j) := by
  induction n generalizing m with
  | zero => exact absurd hj (Nat.not_lt_zero j)
  | succ n ih =>
    rcases Nat.lt_succ_iff_lt_or_eq.mp hj with hlt | rfl
    · rw [copyDown, ih (fun i hi k hk => hd i (Nat.lt_succ_of_lt hi) k (Nat.lt_succ_of_lt hk)) hlt
        fun i hji hi => h i hji (Nat.lt_succ_of_lt hi)]
      exact Function.update_of_ne (h n hlt (Nat.lt_succ_self n)).symm _ _
    · apply last
      intro i hi he
      exact hi.ne (hd i (Nat.lt_succ_of_lt hi) j (Nat.lt_succ_self j) he)

/-- Everything arrives if and only if a cell that is overwritten before its turn held what it is
overwritten with. -/
theorem copied_iff (hd : ∀ i < n, ∀ k < n, d i = d k → i = k) :
    (∀ i < n, copyDown s d n m (d i) = m (s i)) ↔
      ∀ i < n, ∀ k < i, d i = s k → m (s i) = m (s k) := by
  induction n generalizing m with
  | zero => exact ⟨fun _ i hi => absurd hi (Nat.not_lt_zero i),
      fun _ i hi => absurd hi (Nat.not_lt_zero i)⟩
  | succ n ih =>
    have hd' : ∀ i < n, ∀ k < n, d i = d k → i = k := fun i hi k hk =>
      hd i (Nat.lt_succ_of_lt hi) k (Nat.lt_succ_of_lt hk)
    have hlast : ∀ i < n, d i ≠ d n := fun i hi he =>
      hi.ne (hd i (Nat.lt_succ_of_lt hi) n (Nat.lt_succ_self n) he)
    -- the first step overwrites no source with another value
    have hstep (h : ∀ k < n, d n = s k → m (s n) = m (s k)) :
        ∀ k < n, Function.update m (d n) (m (s n)) (s k) = m (s k) := by
      intro k hk
      by_cases he : s k = d n
      · rw [he, Function.update_self, h k hk he.symm, he]
      · exact Function.update_of_ne he _ _
    constructor
    · intro hall
      have hfirst : ∀ k < n, d n = s k → m (s n) = m (s k) := by
        intro k hk he
        have hk' := hall k (Nat.lt_succ_of_lt hk)
        rw [copyDown, of_kept hd' hk, ← he, Function.update_self] at hk'
        · rw [hk', he]
        · intro i _ hi
          rw [← he]
          exact hlast i hi
      have hsame := hstep hfirst
      have hrest := (ih hd').mp fun i hi => (hall i (Nat.lt_succ_of_lt hi)).trans (hsame i hi).symm
      intro i hi k hk he
      rcases Nat.lt_succ_iff_lt_or_eq.mp hi with hlt | rfl
      · have hvalue := hrest i hlt k hk he
        rwa [hsame i hlt, hsame k (hk.trans hlt)] at hvalue
      · exact hfirst k hk he
    · intro hall
      have hsame := hstep fun k hk he => hall n (Nat.lt_succ_self n) k hk he
      have hrest := (ih (m := Function.update m (d n) (m (s n))) hd').mpr fun i hi k hk he => by
        rw [hsame i hi, hsame k (hk.trans hi)]
        exact hall i (Nat.lt_succ_of_lt hi) k hk he
      intro i hi
      rcases Nat.lt_succ_iff_lt_or_eq.mp hi with hlt | rfl
      · exact (hrest i hlt).trans (hsame i hlt)
      · exact last hlast

theorem congr {s' d' : ℕ → A} (hs : ∀ i < n, s' i = s i) (hd : ∀ i < n, d' i = d i) :
    copyDown s' d' n m = copyDown s d n m := by
  induction n generalizing m with
  | zero => rfl
  | succ n ih =>
    rw [copyDown, copyDown, hs n (Nat.lt_succ_self n), hd n (Nat.lt_succ_self n)]
    exact ih (fun i hi => hs i (Nat.lt_succ_of_lt hi)) fun i hi => hd i (Nat.lt_succ_of_lt hi)

end copyDown

namespace copyUp

variable {s d : ℕ → A} {n j : ℕ} {m : A → B}

/-- It is copying down with the cells numbered from the other end. -/
theorem eq_copyDown : copyUp s d n m =
    copyDown (fun i => s (n - 1 - i)) (fun i => d (n - 1 - i)) n m := by
  induction n generalizing s d m with
  | zero => rfl
  | succ n ih =>
    have hcell (f : ℕ → A) (i : ℕ) (hi : i < n) : (f ∘ Nat.succ) (n - 1 - i) =
        f (n + 1 - 1 - i) := congrArg f (by omega)
    rw [copyUp, copyDown, ih, Nat.add_sub_cancel, Nat.sub_self]
    exact copyDown.congr (hcell s) (hcell d)

theorem frame {x : A} (h : ∀ i < n, d i ≠ x) : copyUp s d n m x = m x := by
  rw [eq_copyDown]
  exact copyDown.frame fun i hi => h (n - 1 - i) (by omega)

/-- A cell that is not overwritten before its turn is copied as it was. -/
theorem of_kept (hd : ∀ i < n, ∀ k < n, d i = d k → i = k) (hj : j < n)
    (h : ∀ i < j, d i ≠ s j) : copyUp s d n m (d j) = m (s j) := by
  have hback : n - 1 - (n - 1 - j) = j := by omega
  have hcopied := copyDown.of_kept (s := fun i => s (n - 1 - i)) (d := fun i => d (n - 1 - i))
    (m := m) (j := n - 1 - j) (n := n)
    (fun i hi k hk he => by
      have hsame := hd (n - 1 - i) (by omega) (n - 1 - k) (by omega) he
      omega)
    (by omega) (fun i hji hi => by
      rw [hback]
      exact h (n - 1 - i) (by omega))
  rwa [hback, ← eq_copyDown] at hcopied

end copyUp
end Lib
