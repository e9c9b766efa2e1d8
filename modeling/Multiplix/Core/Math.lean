import Mathlib.Data.Nat.Log
import Mathlib.Order.Bounds.Defs
import Mathlib.Tactic.Ring

/-! Integer logarithms and powers of two on 64-bit words, as `core.math` computes them. -/
namespace Multiplix.Core

private def log2ceilLoop : ℕ → ℕ → ℕ → ℕ
  | 0, _, n => n
  | fuel + 1, x, n => if x >>> 1 = 0 then n else log2ceilLoop fuel (x >>> 1) (n + 1)

/-- A 64-bit word is zero after 64 shifts. Despite its name the function rounds down. -/
def log2ceil (x : ℕ) : ℕ := log2ceilLoop 64 x 0

private def pow2ceilLoop (x : ℕ) : ℕ → ℕ → Option ℕ
  | 0, _ => none
  | fuel + 1, power =>
    if power < x then pow2ceilLoop x fuel (power * 2 % 2 ^ 64) else some power

/-- `none` when the loop does not end: after 64 doublings `power` is zero for good. -/
def pow2ceil (x : ℕ) : Option ℕ := pow2ceilLoop x 65 1

private theorem log2ceilLoop_eq (fuel x n : ℕ) (hx : x < 2 ^ fuel) :
    log2ceilLoop fuel x n = n + Nat.log 2 x := by
  induction fuel generalizing x n with
  | zero =>
    rw [show x = 0 by omega]
    rfl
  | succ fuel ih =>
    simp only [log2ceilLoop, Nat.shiftRight_eq_div_pow, pow_one]
    split_ifs with h
    · rw [Nat.log_of_lt (by omega)]
      rfl
    · rw [ih (x / 2) (n + 1) (by rw [pow_succ] at hx; omega),
        Nat.log_of_one_lt_of_le (b := 2) (n := x) (by omega) (by omega)]
      omega

theorem log2ceil_eq {x : ℕ} (hx : x < 2 ^ 64) : log2ceil x = Nat.log 2 x := by
  simpa [log2ceil] using log2ceilLoop_eq 64 x 0 hx

theorem log2ceil_two_pow {k : ℕ} (hk : k < 64) : log2ceil (2 ^ k) = k := by
  rw [log2ceil_eq (Nat.pow_lt_pow_right (by omega) hk), Nat.log_pow (by omega)]

/-- The loop returns the first power of two, from `2 ^ k` on, that is at least `x`. -/
private theorem pow2ceilLoop_eq (x fuel k : ℕ) (hk : k ≤ 63) (hf : 64 ≤ k + fuel)
    (hx : x ≤ 2 ^ 63) : pow2ceilLoop x fuel (2 ^ k) = some (2 ^ max k (Nat.clog 2 x)) := by
  induction fuel generalizing k with
  | zero => omega
  | succ fuel ih =>
    simp only [pow2ceilLoop]
    split_ifs with h
    · have hlt : k < 63 := (Nat.pow_lt_pow_iff_right (by omega : 1 < 2)).mp (h.trans_le hx)
      have hc : k < Nat.clog 2 x := (Nat.lt_clog_iff_pow_lt (by omega)).mpr h
      have hm : 2 ^ (k + 1) % 2 ^ 64 = 2 ^ (k + 1) :=
        Nat.mod_eq_of_lt (Nat.pow_lt_pow_right (by omega) (by omega))
      rw [← pow_succ, hm, ih (k + 1) (by omega) (by omega)]
      congr 2
      omega
    · have hc : Nat.clog 2 x ≤ k := (Nat.clog_le_iff_le_pow (by omega)).mpr (by omega)
      rw [max_eq_left hc]

theorem pow2ceil_eq {x : ℕ} (hx : x ≤ 2 ^ 63) : pow2ceil x = some (2 ^ Nat.clog 2 x) := by
  simpa [pow2ceil] using pow2ceilLoop_eq x 65 0 (by omega) (by omega) hx

/-- However long it runs, the loop does not reach a number above `2 ^ 63`. -/
private theorem pow2ceilLoop_none (x fuel k : ℕ) (hx : 2 ^ 63 < x) :
    pow2ceilLoop x fuel (2 ^ k % 2 ^ 64) = none := by
  induction fuel generalizing k with
  | zero => rfl
  | succ fuel ih =>
    have hlt : 2 ^ k % 2 ^ 64 < x := by
      rcases Nat.lt_or_ge k 64 with h | h
      · have := Nat.pow_le_pow_right (n := 2) (by omega) (by omega : k ≤ 63)
        exact (Nat.mod_le _ _).trans_lt (by omega)
      · rw [Nat.mod_eq_zero_of_dvd (pow_dvd_pow 2 h)]
        omega
    have hm : 2 ^ k % 2 ^ 64 * 2 % 2 ^ 64 = 2 ^ (k + 1) % 2 ^ 64 := by
      rw [Nat.mod_mul_mod, ← pow_succ]
    simp only [pow2ceilLoop, hlt, if_true, hm]
    exact ih (k + 1)

/-- Above `2 ^ 63` the loop never ends. -/
theorem pow2ceil_none {x : ℕ} (hx : 2 ^ 63 < x) : pow2ceil x = none := by
  simpa [pow2ceil] using pow2ceilLoop_none x 65 0 hx

theorem le_of_pow2ceil {x p : ℕ} (h : pow2ceil x = some p) : x ≤ 2 ^ 63 := by
  by_contra hx
  rw [pow2ceil_none (by omega)] at h
  cases h

/-- What `pow2ceil` returns, for callers: a power of two that is at least its argument. -/
theorem pow2ceil_spec {x p : ℕ} (h : pow2ceil x = some p) :
    ∃ k ≤ 63, p = 2 ^ k ∧ x ≤ p := by
  have hx := le_of_pow2ceil h
  rw [pow2ceil_eq hx, Option.some.injEq] at h
  refine ⟨Nat.clog 2 x, (Nat.clog_le_iff_le_pow (by omega)).mpr hx, h.symm, ?_⟩
  rw [← h]
  exact Nat.le_pow_clog (by omega) x

theorem pow2ceil_two_pow {k : ℕ} (hk : k ≤ 63) : pow2ceil (2 ^ k) = some (2 ^ k) := by
  rw [pow2ceil_eq (Nat.pow_le_pow_right (by omega) hk), Nat.clog_pow 2 k (by omega)]

/-- `pow2ceil` ends with the least power of two that is at least its argument, and `log2ceil` is
the exponent of that. -/
def RoundsUp (x : ℕ) : Prop :=
  ∃ p, pow2ceil x = some p ∧ IsLeast {q | x ≤ q ∧ ∃ k, q = 2 ^ k} p ∧ 2 ^ log2ceil p = p

theorem roundsUp_iff {x : ℕ} : RoundsUp x ↔ x ≤ 2 ^ 63 := by
  constructor
  · intro ⟨p, hp, _⟩
    exact le_of_pow2ceil hp
  · intro hx
    have hk : Nat.clog 2 x < 64 := Nat.lt_succ_of_le ((Nat.clog_le_iff_le_pow (by omega)).mpr hx)
    refine ⟨_, pow2ceil_eq hx, ⟨⟨Nat.le_pow_clog (by omega) x, _, rfl⟩, ?_⟩, ?_⟩
    · intro q ⟨hq, k, hqk⟩
      rw [hqk] at hq ⊢
      exact Nat.pow_le_pow_right (by omega) ((Nat.clog_le_iff_le_pow (by omega)).mpr hq)
    · rw [log2ceil_two_pow hk]

end Multiplix.Core
