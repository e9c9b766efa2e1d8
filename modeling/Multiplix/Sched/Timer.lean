import Mathlib.Order.Monotone.Basic
import Mathlib.Data.Nat.Find
import Mathlib.Tactic.Ring

/-! Elapsed time in microseconds, as `plix.timer` computes it from the tick counter, and the loop
of `sys_usleep` over it. -/
namespace Multiplix.Timer

/-- `Timer.us_since(prev_time)` when the counter reads `time`. The product is a 64-bit word. -/
def us_since (freq time prev_time : BitVec 64) : BitVec 64 :=
  (time - prev_time) * 1000000 / freq

/-- The counter as one call of `sys_usleep` meets it: `read 0` is `start`, and `read (i + 1)` is
what the check after `i` blocks sees. -/
structure Clock where
  freq : BitVec 64
  freq_ne : freq ≠ 0
  read : ℕ → BitVec 64
  read_mono : Monotone fun i => (read i).toNat
  read_lt : ∀ i, (read i).toNat < 2 ^ 63

namespace Clock

variable (c : Clock) (us : BitVec 64)

/-- The loop from check `i` on. A check that fails blocks the process on `ticks_queue`; `none`
after `fuel` of them. -/
def usleepLoop : ℕ → ℕ → Option ℕ
  | 0, _ => none
  | fuel + 1, i =>
    if us ≤ us_since c.freq (c.read (i + 1)) (c.read 0) then some i
    else usleepLoop fuel (i + 1)

/-- The number of times that `sys_usleep` blocks before it returns. -/
def sys_usleep (fuel : ℕ) : Option ℕ := usleepLoop c us fuel 0

/-- The call returns at check `n`. -/
def Returns (n : ℕ) : Prop := ∃ fuel, sys_usleep c us fuel = some n

/-- Ticks from `start` to check `i`. -/
def ticks (i : ℕ) : ℕ := (c.read (i + 1)).toNat - (c.read 0).toNat

/-- At check `i` the requested time has passed. -/
def Due (i : ℕ) : Prop := us.toNat ≤ c.ticks i * 1000000 / c.freq.toNat

/-- Check `n` is the first at which the requested time has passed. -/
def FirstDue (n : ℕ) : Prop := c.Due us n ∧ ∀ i < n, ¬ c.Due us i

end Clock

section Arithmetic

variable {freq : BitVec 64}

theorem toNat_us_since (freq time prev : BitVec 64) :
    (us_since freq time prev).toNat =
      (time - prev).toNat * 1000000 % 2 ^ 64 / freq.toNat := by
  have hmillion : (1000000 : BitVec 64).toNat = 1000000 := by decide
  rw [us_since, BitVec.toNat_udiv, BitVec.toNat_mul, hmillion]

/-- A product that wraps loses at least one whole unit of the quotient. -/
theorem div_mod_eq_iff {a f : ℕ} (hf : 0 < f) (hlt : f < 2 ^ 64) :
    a % 2 ^ 64 / f = a / f ↔ a < 2 ^ 64 := by
  constructor
  · intro h
    by_contra hge
    have hle : a % 2 ^ 64 + f ≤ a := by omega
    have hdiv : (a % 2 ^ 64 + f) / f ≤ a / f := Nat.div_le_div_right hle
    rw [Nat.add_div_right _ hf] at hdiv
    omega
  · intro h
    rw [Nat.mod_eq_of_lt h]

theorem us_since_exact_iff (hf : freq ≠ 0) (prev e : BitVec 64) :
    (us_since freq (prev + e) prev).toNat = e.toNat * 1000000 / freq.toNat ↔
      e.toNat * 1000000 < 2 ^ 64 := by
  have hpos : 0 < freq.toNat := Nat.pos_of_ne_zero fun h => hf (BitVec.eq_of_toNat_eq (by simpa))
  have he : prev + e - prev = e := by rw [BitVec.add_comm, BitVec.add_sub_cancel]
  rw [toNat_us_since, he]
  exact div_mod_eq_iff hpos freq.isLt

end Arithmetic

namespace Clock

variable (c : Clock) (us : BitVec 64)

theorem freq_pos : 0 < c.freq.toNat :=
  Nat.pos_of_ne_zero fun h => c.freq_ne (BitVec.eq_of_toNat_eq (by simpa))

theorem us_since_read (i : ℕ) :
    (us_since c.freq (c.read (i + 1)) (c.read 0)).toNat =
      c.ticks i * 1000000 % 2 ^ 64 / c.freq.toNat := by
  have hle : (c.read 0).toNat ≤ (c.read (i + 1)).toNat := c.read_mono (Nat.zero_le _)
  have hsub : (c.read (i + 1) - c.read 0).toNat = c.ticks i :=
    BitVec.toNat_sub_of_le (BitVec.le_def.mpr hle)
  rw [toNat_us_since, hsub]

/-- What the check tests: the wrapped product against the request, in ticks per second. -/
theorem check_iff (i : ℕ) :
    us ≤ us_since c.freq (c.read (i + 1)) (c.read 0) ↔
      us.toNat * c.freq.toNat ≤ c.ticks i * 1000000 % 2 ^ 64 := by
  rw [BitVec.le_def, us_since_read, Nat.le_div_iff_mul_le c.freq_pos]

theorem due_iff (i : ℕ) : c.Due us i ↔ us.toNat * c.freq.toNat ≤ c.ticks i * 1000000 :=
  Nat.le_div_iff_mul_le c.freq_pos

/-- The wrapped time is never ahead of the exact time, so no check passes early. -/
theorem due_of_check {i : ℕ} (h : us ≤ us_since c.freq (c.read (i + 1)) (c.read 0)) :
    c.Due us i := by
  rw [due_iff]
  exact ((c.check_iff us i).mp h).trans (Nat.mod_le _ _)

theorem usleepLoop_eq_some_iff (fuel i n : ℕ) :
    c.usleepLoop us fuel i = some n ↔
      (i ≤ n ∧ n < i + fuel) ∧ us ≤ us_since c.freq (c.read (n + 1)) (c.read 0) ∧
        ∀ j, i ≤ j → j < n → ¬ us ≤ us_since c.freq (c.read (j + 1)) (c.read 0) := by
  induction fuel generalizing i with
  | zero =>
    simp only [usleepLoop]
    constructor
    · intro h
      cases h
    · intro h
      omega
  | succ fuel ih =>
    simp only [usleepLoop]
    split_ifs with hi
    · constructor
      · intro h
        cases h
        exact ⟨by omega, hi, fun j hij hji => by omega⟩
      · intro ⟨hn, _, hfirst⟩
        have : ¬ i < n := fun hlt => hfirst i le_rfl hlt hi
        rw [show i = n by omega]
    · rw [ih]
      constructor
      · intro ⟨hn, hcheck, hfirst⟩
        refine ⟨by omega, hcheck, fun j hij hjn => ?_⟩
        by_cases hj : j = i
        · exact hj ▸ hi
        · exact hfirst j (by omega) hjn
      · intro ⟨hn, hcheck, hfirst⟩
        have hne : i ≠ n := fun h => hi (h ▸ hcheck)
        exact ⟨by omega, hcheck, fun j hij hjn => hfirst j (by omega) hjn⟩

/-- The call returns at the first check that passes. -/
theorem returns_iff (n : ℕ) :
    c.Returns us n ↔ us ≤ us_since c.freq (c.read (n + 1)) (c.read 0) ∧
      ∀ i < n, ¬ us ≤ us_since c.freq (c.read (i + 1)) (c.read 0) := by
  simp only [Returns, sys_usleep, usleepLoop_eq_some_iff]
  constructor
  · intro ⟨fuel, _, hcheck, hfirst⟩
    exact ⟨hcheck, fun i hi => hfirst i (Nat.zero_le i) hi⟩
  · intro ⟨hcheck, hfirst⟩
    exact ⟨n + 1, by omega, hcheck, fun i _ hi => hfirst i hi⟩

theorem Returns.unique {c : Clock} {us : BitVec 64} {m n : ℕ} (hm : c.Returns us m)
    (hn : c.Returns us n) : m = n := by
  rw [returns_iff] at hm hn
  have hle : ¬ m < n := fun h => hn.2 m h hm.1
  have hge : ¬ n < m := fun h => hm.2 n h hn.1
  omega

/-- The call never returns too early. -/
theorem Returns.due {c : Clock} {us : BitVec 64} {n : ℕ} (h : c.Returns us n) : c.Due us n :=
  c.due_of_check us ((c.returns_iff us n).mp h).1

/-- `Timer.us_since` is exact for the elapsed counts whose product with a million fits in a
word, and `sys_usleep` returns at the first check that is due when there the product, cut to a
word, still reaches the request. -/
theorem sys_usleep_exact_iff :
    (∀ prev e : BitVec 64, (us_since c.freq (prev + e) prev).toNat =
        e.toNat * 1000000 / c.freq.toNat ↔ e.toNat * 1000000 < 2 ^ 64) ∧
      ((∀ n, c.Returns us n ↔ c.FirstDue us n) ↔
        ∀ n, c.FirstDue us n → us.toNat * c.freq.toNat ≤ c.ticks n * 1000000 % 2 ^ 64) := by
  constructor
  · exact us_since_exact_iff c.freq_ne
  constructor
  · intro h n hn
    exact (c.check_iff us n).mp ((c.returns_iff us n).mp ((h n).mpr hn)).1
  · intro h n
    have hreturns : ∀ m, c.FirstDue us m → c.Returns us m := fun m hm =>
      (c.returns_iff us m).mpr ⟨(c.check_iff us m).mpr (h m hm),
        fun i hi hcheck => hm.2 i hi (c.due_of_check us hcheck)⟩
    constructor
    · intro hr
      -- The first due check exists, and the call returns there.
      classical
      have hex : ∃ i, c.Due us i := ⟨n, hr.due⟩
      have hfirst : c.FirstDue us (Nat.find hex) :=
        ⟨Nat.find_spec hex, fun i hi => Nat.find_min hex hi⟩
      rw [hr.unique (hreturns _ hfirst)]
      exact hfirst
    · exact hreturns n

theorem toNat_min_ticks (i : ℕ) :
    (BitVec.ofNat 64 (100000 * min i 1000000000000)).toNat = 100000 * min i 1000000000000 := by
  rw [BitVec.toNat_ofNat]
  exact Nat.mod_eq_of_lt (by omega)

/-- A 10 MHz counter, read every 10 ms. -/
def tenMegahertz : Clock where
  freq := 10000000
  freq_ne := by decide
  read i := BitVec.ofNat 64 (100000 * min i 1000000000000)
  read_mono i j hij := by
    simp only [toNat_min_ticks]
    omega
  read_lt i := by
    rw [toNat_min_ticks]
    omega

theorem ticks_tenMegahertz {i : ℕ} (hi : i < 1000000000000) :
    tenMegahertz.ticks i = 100000 * (i + 1) := by
  simp only [ticks, tenMegahertz, toNat_min_ticks]
  omega

/-- At 10 MHz no elapsed time reads as more than 1844674407370 microseconds: a request for two
million seconds is due at the two hundred millionth check, and the call sleeps on. -/
theorem sys_usleep_oversleeps :
    ¬ ∀ n, tenMegahertz.Returns 2000000000000 n ↔ tenMegahertz.FirstDue 2000000000000 n := by
  intro h
  have hgoal : (2000000000000 : BitVec 64).toNat * tenMegahertz.freq.toNat =
      20000000000000000000 := by simp [tenMegahertz]
  have hdue : tenMegahertz.FirstDue 2000000000000 199999999 := by
    constructor
    · rw [due_iff, ticks_tenMegahertz (by omega), hgoal]
    · intro i hi
      rw [due_iff, ticks_tenMegahertz (by omega), hgoal]
      omega
  have hret := (tenMegahertz.returns_iff 2000000000000 199999999).mp ((h 199999999).mpr hdue)
  have hcheck := (tenMegahertz.check_iff _ _).mp hret.1
  rw [ticks_tenMegahertz (by omega), hgoal] at hcheck
  omega

end Clock
end Multiplix.Timer
