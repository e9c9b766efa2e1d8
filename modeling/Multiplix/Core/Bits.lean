import Mathlib.Data.Nat.Log
import Mathlib.Tactic.Ring

/-! Bits of machine words, as `core.bits` reads and writes them, and the accessors that its
`field` mixin generates. -/
namespace Multiplix.Core

/-- One more than the position of the highest set bit. -/
def msb (x : ℕ) : ℕ := if x = 0 then 0 else Nat.log2 x + 1

variable {w : ℕ}

def mask (w nbits : ℕ) : BitVec w := if nbits = w then ~~~0#w else (1#w <<< nbits) - 1#w

/-- `bits.get(x, ub, lb)`. -/
def getBits (x : BitVec w) (ub lb : ℕ) : BitVec w := (x >>> lb) &&& mask w (ub - lb + 1)

/-- `bits.clear(x, hi, lo)`. -/
def clearBits (x : BitVec w) (hi lo : ℕ) : BitVec w := x &&& ~~~(mask w (hi - lo + 1) <<< lo)

/-- `bits.write(x, hi, lo, val)`. -/
def writeBits (x : BitVec w) (hi lo : ℕ) (val : BitVec w) : BitVec w :=
  clearBits x hi lo ||| (val <<< lo)

def bitmask (w size : ℕ) : BitVec w := (1#w <<< size) - 1#w

/-- The getter of a field of `size` bits at `offset`. -/
def field (data : BitVec w) (offset size : ℕ) : BitVec w := (data >>> offset) &&& bitmask w size

/-- The setter of a field. -/
def setField (data : BitVec w) (offset size : ℕ) (val : BitVec w) : BitVec w :=
  (data &&& ~~~(bitmask w size <<< offset)) ||| ((val &&& bitmask w size) <<< offset)

def flag (data : BitVec w) (offset : ℕ) : Bool := field data offset 1 != 0#w

def setFlag (data : BitVec w) (offset : ℕ) (val : Bool) : BitVec w :=
  setField data offset 1 (if val then 1#w else 0#w)

section GetLsbD

variable {n off i : ℕ}

theorem getLsbD_bitmask (hn : n < w) (i : ℕ) : (bitmask w n).getLsbD i = decide (i < n) := by
  have hpow : 2 ^ n < 2 ^ w := Nat.pow_lt_pow_right (by omega) hn
  have hp := Nat.two_pow_pos n
  have hshl : (1#w <<< n).toNat = 2 ^ n := by
    rw [BitVec.toNat_shiftLeft, BitVec.toNat_ofNat, Nat.mod_eq_of_lt (a := 1) (by omega),
      Nat.shiftLeft_eq, one_mul, Nat.mod_eq_of_lt hpow]
  have hone : (1#w).toNat = 1 := by rw [BitVec.toNat_ofNat, Nat.mod_eq_of_lt (by omega)]
  have h : (bitmask w n).toNat = 2 ^ n - 1 := by
    rw [bitmask, BitVec.toNat_sub_of_le (by rw [BitVec.le_def]; omega), hshl, hone]
  rw [← BitVec.testBit_toNat, h, Nat.testBit_two_pow_sub_one]

theorem getLsbD_mask (hn : n ≤ w) (i : ℕ) : (mask w n).getLsbD i = decide (i < n) := by
  unfold mask
  split_ifs with h
  · subst h
    simp
  · exact getLsbD_bitmask (by omega) i

theorem getLsbD_getBits (x : BitVec w) {ub lb : ℕ} (hn : ub - lb + 1 ≤ w) (i : ℕ) :
    (getBits x ub lb).getLsbD i = (x.getLsbD (lb + i) && decide (i < ub - lb + 1)) := by
  simp [getBits, getLsbD_mask hn]

theorem getLsbD_writeBits (x v : BitVec w) {hi lo : ℕ} (hhi : hi < w) (hlo : lo ≤ hi)
    (hv : ∀ j, hi - lo < j → v.getLsbD j = false) (i : ℕ) :
    (writeBits x hi lo v).getLsbD i =
      if lo ≤ i ∧ i ≤ hi then v.getLsbD (i - lo) else x.getLsbD i := by
  have hm : hi - lo + 1 ≤ w := by omega
  simp only [writeBits, clearBits, BitVec.getLsbD_or, BitVec.getLsbD_and, BitVec.getLsbD_not,
    BitVec.getLsbD_shiftLeft, getLsbD_mask hm]
  by_cases hw : i < w
  · by_cases hlt : i < lo
    · simp [hw, hlt, show ¬ (lo ≤ i ∧ i ≤ hi) by omega]
    · by_cases hle : i ≤ hi
      · simp [hw, hlt, show lo ≤ i ∧ i ≤ hi by omega, show i - lo < hi - lo + 1 by omega]
      · simp [hw, hlt, hle, show ¬ i - lo < hi - lo + 1 by omega, hv (i - lo) (by omega)]
  · simp [hw, show ¬ (lo ≤ i ∧ i ≤ hi) by omega, BitVec.getLsbD_of_ge x i (by omega)]

theorem getLsbD_field (x : BitVec w) (hn : n < w) (i : ℕ) :
    (field x off n).getLsbD i = (x.getLsbD (off + i) && decide (i < n)) := by
  simp [field, getLsbD_bitmask hn]

theorem getLsbD_setField (x v : BitVec w) (hn : n < w) (ho : off + n ≤ w) (i : ℕ) :
    (setField x off n v).getLsbD i =
      if off ≤ i ∧ i < off + n then v.getLsbD (i - off) else x.getLsbD i := by
  simp only [setField, BitVec.getLsbD_or, BitVec.getLsbD_and, BitVec.getLsbD_not,
    BitVec.getLsbD_shiftLeft, getLsbD_bitmask hn]
  by_cases hw : i < w
  · by_cases hlt : i < off
    · simp [hw, hlt, show ¬ (off ≤ i ∧ i < off + n) by omega]
    · by_cases hin : i < off + n
      · simp [hw, hlt, show off ≤ i ∧ i < off + n by omega, show i - off < n by omega]
      · simp [hw, hlt, hin, show ¬ i - off < n by omega]
  · simp [hw, show ¬ (off ≤ i ∧ i < off + n) by omega, BitVec.getLsbD_of_ge x i (by omega)]

theorem flag_eq (x : BitVec w) (hw : 1 < w) : flag x off = x.getLsbD off := by
  have h : field x off 1 = if x.getLsbD off then 1#w else 0#w := by
    refine BitVec.eq_of_getLsbD_eq fun i _ => ?_
    rw [getLsbD_field x hw]
    rcases Nat.eq_zero_or_pos i with rfl | hi
    · cases x.getLsbD off <;> simp
      omega
    · cases x.getLsbD off <;> simp [show i ≠ 0 by omega, show ¬ i < 1 by omega]
  have h1 : 1#w ≠ 0#w := by simpa using (by omega : w ≠ 0)
  rw [flag, h]
  cases x.getLsbD off <;> simp [h1]

theorem getLsbD_setFlag (x : BitVec w) (b : Bool) (hw : 1 < w) (ho : off < w) (i : ℕ) :
    (setFlag x off b).getLsbD i = if i = off then b else x.getLsbD i := by
  rw [setFlag, getLsbD_setField _ _ hw (by omega)]
  by_cases h : i = off
  · subst h
    cases b
    · simp
    · simp
      omega
  · rw [if_neg (by omega), if_neg h]

end GetLsbD

end Multiplix.Core
