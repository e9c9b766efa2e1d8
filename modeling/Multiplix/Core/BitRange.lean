import Multiplix.Core.Bits

/-! The functions of `core.bits` on the unsigned integer types. D computes at the width of `int` at
least, and the result of each function is cast to the type. -/
namespace Multiplix.Core

/-- How an `int` or `uint` is shifted. By 32 or more, what comes out is up to the machine, but a
zero stays one. -/
structure Shift where
  shl : BitVec 32 → ℕ → BitVec 32
  shl_of_lt : ∀ v n, n < 32 → shl v n = v <<< n
  zero_shl : ∀ n, shl 0 n = 0

/-- The count is taken modulo 32, as `sllw` and `lslv` do. -/
def Shift.modulo : Shift where
  shl v n := v <<< (n % 32)
  shl_of_lt v n h := by rw [Nat.mod_eq_of_lt h]
  zero_shl n := BitVec.zero_shiftLeft _

inductive Unsigned
  | ubyte
  | ushort
  | uint
  | ulong

namespace Unsigned

def width : Unsigned → ℕ
  | ubyte => 8
  | ushort => 16
  | uint => 32
  | ulong => 64

/-- The width after the integer promotions. -/
def wide (T : Unsigned) : ℕ := max T.width 32

variable (T : Unsigned)

def mask (nbits : ℕ) : BitVec T.width :=
  if nbits = T.width then (~~~0#T.wide).setWidth T.width
  else ((1#T.wide <<< nbits) - 1#T.wide).setWidth T.width

variable {T}

/-- `bits.get(x, ub, lb)` -/
def get (x : BitVec T.width) (ub lb : ℕ) : BitVec T.width :=
  ((x.setWidth T.wide >>> lb) &&& (T.mask (ub - lb + 1)).setWidth T.wide).setWidth T.width

/-- `bits.clear(x, hi, lo)` -/
def clear (x : BitVec T.width) (hi lo : ℕ) : BitVec T.width :=
  let m := T.mask (hi - lo + 1)
  (x.setWidth T.wide &&& ~~~(m.setWidth T.wide <<< lo)).setWidth T.width

/-- `bits.write(x, hi, lo, val)` -/
def write (x : BitVec T.width) (hi lo : ℕ) (val : BitVec T.width) : BitVec T.width :=
  ((clear x hi lo).setWidth T.wide ||| (val.setWidth T.wide <<< lo)).setWidth T.width

/-- `bits.clear(x, bit)` -/
def clearBit (x : BitVec T.width) (bit : ℕ) : BitVec T.width :=
  (x.setWidth T.wide &&& ~~~((1#T.width).setWidth T.wide <<< bit)).setWidth T.width

/-- `bits.write(x, bit, val)`. The value is a `uint`, and is shifted as one. -/
def writeBit (sh : Shift) (x : BitVec T.width) (bit : ℕ) (val : BitVec 32) : BitVec T.width :=
  let x := clearBit x bit
  (x.setWidth T.wide ||| (sh.shl val bit).setWidth T.wide).setWidth T.width

/-- The laws of reading and writing ranges of bits of a word. -/
structure RangeLaws (x : BitVec T.width) : Prop where
  get_write : ∀ hi lo v, lo ≤ hi → hi < T.width → v.toNat < 2 ^ (hi - lo + 1) →
    get (write x hi lo v) hi lo = v
  outside : ∀ hi lo v i, lo ≤ hi → hi < T.width → v.toNat < 2 ^ (hi - lo + 1) → i < lo ∨ hi < i →
    (write x hi lo v).getLsbD i = x.getLsbD i
  clear_eq : ∀ hi lo, lo ≤ hi → hi < T.width → clear x hi lo = write x hi lo 0
  comm : ∀ hi lo v hi' lo' v', lo ≤ hi → hi < T.width → v.toNat < 2 ^ (hi - lo + 1) →
    lo' ≤ hi' → hi' < T.width → v'.toNat < 2 ^ (hi' - lo' + 1) → hi < lo' ∨ hi' < lo →
    write (write x hi lo v) hi' lo' v' = write (write x hi' lo' v') hi lo v

/-- The bit becomes the value, and no other bit changes. -/
def WritesBit (sh : Shift) (x : BitVec T.width) (bit : ℕ) (val : BitVec 32) : Prop :=
  ∀ i < T.width, (writeBit sh x bit val).getLsbD i = if i = bit then decide (val = 1)
    else x.getLsbD i

section Promoted

variable {x v : BitVec T.width} {n hi lo ub lb bit i : ℕ} {sh : Shift} {val : BitVec 32}

theorem width_le_wide (T : Unsigned) : T.width ≤ T.wide := le_max_left _ _

theorem mask_eq (hn : n ≤ T.width) : T.mask n = Core.mask T.width n := by
  have hle := T.width_le_wide
  refine BitVec.eq_of_getLsbD_eq fun i hi => ?_
  rw [getLsbD_mask hn]
  unfold mask
  split_ifs with h
  · simp [h, hi, show i < T.wide by omega]
  · have hbits := getLsbD_bitmask (w := T.wide) (n := n) (by omega) i
    rw [bitmask] at hbits
    rw [BitVec.getLsbD_setWidth, hbits, decide_eq_true hi, Bool.true_and]

/-- What D computes in the wider type is what the word alone gives. -/
theorem get_eq (hub : ub < T.width) (h : lb ≤ ub) : get x ub lb = getBits x ub lb := by
  have hle := T.width_le_wide
  refine BitVec.eq_of_getLsbD_eq fun i hi => ?_
  unfold get getBits
  rw [mask_eq (by omega)]
  simp only [BitVec.getLsbD_setWidth, BitVec.getLsbD_and, BitVec.getLsbD_ushiftRight, hi,
    show i < T.wide by omega, decide_true, Bool.true_and]
  by_cases hw : lb + i < T.wide
  · rw [decide_eq_true hw, Bool.true_and]
  · rw [BitVec.getLsbD_of_ge x (lb + i) (by omega), Bool.and_false]

theorem clear_eq (hhi : hi < T.width) (h : lo ≤ hi) : clear x hi lo = clearBits x hi lo := by
  have hle := T.width_le_wide
  refine BitVec.eq_of_getLsbD_eq fun i hi => ?_
  unfold clear clearBits
  rw [mask_eq (by omega)]
  simp only [BitVec.getLsbD_setWidth, BitVec.getLsbD_and, BitVec.getLsbD_not,
    BitVec.getLsbD_shiftLeft, hi, show i < T.wide by omega, show i - lo < T.wide by omega,
    decide_true, Bool.true_and]

theorem write_eq (hhi : hi < T.width) (h : lo ≤ hi) : write x hi lo v = writeBits x hi lo v := by
  have hle := T.width_le_wide
  refine BitVec.eq_of_getLsbD_eq fun i hi => ?_
  unfold write writeBits
  rw [clear_eq hhi h]
  simp only [BitVec.getLsbD_setWidth, BitVec.getLsbD_or, BitVec.getLsbD_shiftLeft, hi,
    show i < T.wide by omega, show i - lo < T.wide by omega, decide_true, Bool.true_and]

theorem getLsbD_clearBit (hi : i < T.width) :
    (clearBit x bit).getLsbD i = (x.getLsbD i && !decide (i = bit)) := by
  have hle := T.width_le_wide
  have hone : (1#T.width).getLsbD (i - bit) = decide (i - bit = 0) := by
    rw [BitVec.getLsbD_one, decide_eq_true (by omega : 0 < T.width), Bool.true_and]
  unfold clearBit
  simp only [BitVec.getLsbD_setWidth, BitVec.getLsbD_and, BitVec.getLsbD_not,
    BitVec.getLsbD_shiftLeft, hi, show i < T.wide by omega, show i - bit < T.wide by omega,
    decide_true, Bool.true_and, hone]
  congr 2
  by_cases hlt : i < bit
  · simp [hlt, hlt.ne]
  · simp [hlt, show i - bit = 0 ↔ i = bit by omega]

theorem getLsbD_writeBit (hi : i < T.width) : (writeBit sh x bit val).getLsbD i =
    ((x.getLsbD i && !decide (i = bit)) || (sh.shl val bit).getLsbD i) := by
  have hle := T.width_le_wide
  unfold writeBit
  simp only [BitVec.getLsbD_setWidth, BitVec.getLsbD_or, hi, show i < T.wide by omega,
    decide_true, Bool.true_and, getLsbD_clearBit hi]

end Promoted

section Laws

variable {x v : BitVec T.width} {n hi lo i bit : ℕ} {sh : Shift} {val : BitVec 32}

/-- A value that fits has no bits above the range. -/
theorem getLsbD_of_fits (hv : v.toNat < 2 ^ (hi - lo + 1)) (j : ℕ) (hj : hi - lo < j) :
    v.getLsbD j = false := by
  rw [← BitVec.testBit_toNat]
  exact Nat.testBit_lt_two_pow (hv.trans_le (Nat.pow_le_pow_right (by omega) hj))

theorem getLsbD_write (hhi : hi < T.width) (h : lo ≤ hi) (hv : v.toNat < 2 ^ (hi - lo + 1)) :
    (write x hi lo v).getLsbD i =
      if lo ≤ i ∧ i ≤ hi then v.getLsbD (i - lo) else x.getLsbD i := by
  rw [write_eq hhi h]
  exact getLsbD_writeBits x v hhi h (getLsbD_of_fits hv) i

theorem rangeLaws (x : BitVec T.width) : RangeLaws x where
  get_write hi lo v h hhi hv := by
    refine BitVec.eq_of_getLsbD_eq fun i _ => ?_
    rw [get_eq hhi h, getLsbD_getBits _ (by omega), getLsbD_write hhi h hv]
    by_cases hi' : i < hi - lo + 1
    · rw [if_pos (by omega), Nat.add_sub_cancel_left, decide_eq_true hi', Bool.and_true]
    · rw [decide_eq_false hi', Bool.and_false, getLsbD_of_fits hv i (by omega)]
  outside hi lo v i h hhi hv hi' := by rw [getLsbD_write hhi h hv, if_neg (by omega)]
  clear_eq hi lo h hhi := by
    have hzero : (0 : BitVec T.width) <<< lo = 0#T.width := BitVec.zero_shiftLeft lo
    rw [clear_eq hhi h, write_eq hhi h, writeBits, hzero, BitVec.or_zero]
  comm hi lo v hi' lo' v' h hhi hv h' hhi' hv' hapart := by
    refine BitVec.eq_of_getLsbD_eq fun i _ => ?_
    simp only [getLsbD_write hhi h hv, getLsbD_write hhi' h' hv']
    by_cases hin : lo ≤ i ∧ i ≤ hi
    · rw [if_pos hin, if_pos hin, if_neg (by omega)]
    · rw [if_neg hin, if_neg hin]

theorem writesBit_of_lt (h : bit < 32) (hval : val = 0 ∨ val = 1) :
    WritesBit sh x bit val := by
  intro i hi
  rw [getLsbD_writeBit hi, sh.shl_of_lt _ _ h, BitVec.getLsbD_shiftLeft]
  rcases hval with rfl | rfl
  · by_cases he : i = bit
    · simp [he]
    · simp [he]
  · have hone : (1 : BitVec 32).getLsbD (i - bit) = decide (i - bit = 0) :=
      BitVec.getLsbD_one.trans (Bool.true_and _)
    rw [hone]
    by_cases he : i = bit
    · simp [he, h]
    · by_cases hlt : i < bit
      · simp [he, hlt]
      · simp [he, show i - bit ≠ 0 by omega]

/-- The laws of ranges hold of every word of every type. The value of a single bit is shifted as a
`uint`, and arrives in the bits from 32 on only if it is zero. -/
theorem bit_laws_iff (sh : Shift) (x : BitVec T.width) (hbit : bit < T.width)
    (hval : val = 0 ∨ val = 1) : RangeLaws x ∧ WritesBit sh x bit val ↔ bit < 32 ∨ val = 0 := by
  constructor
  · rintro ⟨-, h⟩
    by_contra hc
    rw [not_or, not_lt] at hc
    have hset := h bit hbit
    rw [getLsbD_writeBit hbit, if_pos rfl, BitVec.getLsbD_of_ge _ _ hc.1, hval.resolve_left hc.2]
      at hset
    simp at hset
  · intro h
    refine ⟨rangeLaws x, ?_⟩
    by_cases hlt : bit < 32
    · exact writesBit_of_lt hlt hval
    · obtain rfl := h.resolve_left hlt
      intro i hi
      have hzero : (0 : BitVec 32).getLsbD i = false := BitVec.getLsbD_zero
      rw [getLsbD_writeBit hi, sh.zero_shl, hzero, Bool.or_false]
      by_cases he : i = bit
      · simp [he]
      · simp [he]

theorem bit_laws_iff_ulong : RangeLaws (T := ulong) 0 ∧ WritesBit (T := ulong) .modulo 0 5 1 ↔
    5 < 32 ∨ (1 : BitVec 32) = 0 :=
  bit_laws_iff .modulo (0 : BitVec ulong.width) (by decide) (Or.inr rfl)

/-- Writing bit 40 sets bit 8. -/
theorem not_writesBit_forty : ¬WritesBit (T := ulong) .modulo 0 40 1 := fun h =>
  absurd (h 40 (by decide)) (by decide)

end Laws

end Unsigned

/-! ### Fields -/

/-- `targetType!size` -/
def targetType (size : ℕ) : Unsigned :=
  if size ≤ 8 then .ubyte else if size ≤ 16 then .ushort else if size ≤ 32 then .uint else .ulong

/-- The getter that `field` generates is cast to the type of the field. -/
def getter (data : BitVec 64) (offset size : ℕ) : BitVec (targetType size).width :=
  (field data offset size).setWidth (targetType size).width

section Fields

variable {e e' : BitVec 64} {off size : ℕ}

theorem le_targetType (h : size ≤ 64) : size ≤ (targetType size).width := by
  unfold targetType
  split_ifs
  · assumption
  · assumption
  · assumption
  · exact h

/-- The cast loses nothing. -/
theorem getter_setWidth (h : size < 64) : (getter e off size).setWidth 64 = field e off size := by
  have hle := le_targetType h.le
  refine BitVec.eq_of_getLsbD_eq fun i hi => ?_
  rw [getter, BitVec.getLsbD_setWidth, BitVec.getLsbD_setWidth, getLsbD_field e h,
    decide_eq_true hi, Bool.true_and]
  by_cases his : i < size
  · rw [decide_eq_true (by omega : i < (targetType size).width), Bool.true_and]
  · rw [decide_eq_false his, Bool.and_false, Bool.and_false]

/-- A field is read from its own bits. -/
theorem getter_congr (hsize : size < 64)
    (h : ∀ i < size, e'.getLsbD (off + i) = e.getLsbD (off + i)) :
    getter e' off size = getter e off size := by
  have hfield : field e' off size = field e off size := BitVec.eq_of_getLsbD_eq fun i _ => by
    rw [getLsbD_field _ hsize, getLsbD_field _ hsize]
    by_cases hi : i < size
    · rw [h i hi]
    · rw [decide_eq_false hi, Bool.and_false, Bool.and_false]
  rw [getter, getter, hfield]

end Fields

end Multiplix.Core
