import Multiplix.Alloc.BuddyInv

/-! The sizes that `BuddyAlloc` computes for its orders. The shift in `order_size` is one of an
`int`, so that they are exact for heaps of less than 2 GiB. -/
namespace Multiplix.Alloc
open Lib Core

/-- What is computed for a heap of `len` bytes: the size of every order, those that
`split_free_block` halves it to, and the offset of a buddy, are what they are in the heap. -/
structure SizesExact (N ptr len : ℕ) : Prop where
  order : ∀ order < N, (BuddyAlloc.zero.initAlloc N ptr len).orderSize order =
    (len >>> (N - 1)) * 2 ^ order
  split : ∀ order < N, ∀ halvings, 0 < halvings → halvings ≤ order →
    (BuddyAlloc.zero.initAlloc N ptr len).orderSize order >>> halvings < len
  buddy : ∀ order < N, ∀ block b, block < ptr + len → b ≠ 0 →
    (BuddyAlloc.zero.initAlloc N ptr len).buddy order block = some b → ptr ≤ b ∧ b - ptr < len

variable {N ptr k order : ℕ}

/-- Beyond the bits of a positive `int`, a shift gives no power of two. -/
theorem shlInt_ne {k : ℕ} (hk : 31 ≤ k) : shlInt k ≠ 2 ^ k := by
  unfold shlInt
  rcases hk.lt_or_eq with hlt | rfl
  · have hzero : (1#32 <<< k) = 0#32 := BitVec.shiftLeft_eq_zero hlt
    rw [hzero]
    exact (pow_pos two_pos k).ne
  · decide

theorem BuddyAlloc.buddy_eq_some {a : BuddyAlloc} {block b : ℕ}
    (h : a.buddy order block = some b) (hb : b ≠ 0) : a.heapPtr ≤ block ∧
      a.orderSize order < a.heapLen ∧
      b = a.heapPtr + ((block - a.heapPtr) ^^^ a.orderSize order) := by
  unfold buddy at h
  dsimp only at h
  split_ifs at h with hin hwhole
  · exact absurd (Option.some.inj h).symm hb
  · exact ⟨hin, Nat.lt_of_not_le hwhole, (Option.some.inj h).symm⟩

section Bounds

variable (hN : 2 ≤ N) (hk : k ≤ 39) (hmin : 16 ≤ 2 ^ k >>> (N - 1))

include hmin

theorem orders_le : N - 1 ≤ k := by
  by_contra hc
  have hlt : 2 ^ k < 2 ^ (N - 1) := Nat.pow_lt_pow_right (by omega) (by omega)
  rw [Nat.shiftRight_eq_div_pow, Nat.div_eq_of_lt hlt] at hmin
  omega

theorem minBlock_eq : 2 ^ k >>> (N - 1) = 2 ^ (k - (N - 1)) := by
  rw [Nat.shiftRight_eq_div_pow, Nat.pow_div (orders_le hmin) two_pos]

include hk

theorem orderSize_init : (BuddyAlloc.zero.initAlloc N ptr (2 ^ k)).orderSize order =
    shlInt (k - (N - 1) + order) := by
  unfold BuddyAlloc.orderSize BuddyAlloc.initAlloc
  dsimp only
  rw [minBlock_eq hmin, log2ceil_two_pow (by omega)]

include hN

/-- The sizes are exact for heaps of up to 1 GiB, and for no others. -/
theorem sizesExact_iff : SizesExact N ptr (2 ^ k) ↔ k ≤ 30 := by
  have hle := orders_le hmin
  constructor
  · intro h
    by_contra hc
    have htop := h.order (N - 1) (by omega)
    rw [orderSize_init hk hmin, minBlock_eq hmin, ← pow_add,
      show k - (N - 1) + (N - 1) = k by omega] at htop
    exact shlInt_ne (by omega) htop
  · intro hsmall
    have hsize (order : ℕ) (horder : order < N) :
        (BuddyAlloc.zero.initAlloc N ptr (2 ^ k)).orderSize order =
          2 ^ (k - (N - 1) + order) := by
      rw [orderSize_init hk hmin, shlInt_eq (by omega)]
    constructor
    · intro order horder
      rw [hsize order horder, minBlock_eq hmin, pow_add]
    · intro order horder halvings hpos _
      rw [hsize order horder]
      calc
        2 ^ (k - (N - 1) + order) >>> halvings < 2 ^ (k - (N - 1) + order) := by
          rw [Nat.shiftRight_eq_div_pow]
          exact Nat.div_lt_self (pow_pos two_pos _) (Nat.one_lt_two_pow hpos.ne')
        _ ≤ 2 ^ k := Nat.pow_le_pow_right two_pos (by omega)
    · intro order horder block b hblock hb hbuddy
      obtain ⟨hin, hwhole, rfl⟩ := BuddyAlloc.buddy_eq_some hbuddy hb
      rw [hsize order horder] at hwhole ⊢
      change ptr ≤ block at hin
      change 2 ^ (k - (N - 1) + order) < 2 ^ k at hwhole
      change ptr ≤ ptr + ((block - ptr) ^^^ 2 ^ (k - (N - 1) + order)) ∧
        ptr + ((block - ptr) ^^^ 2 ^ (k - (N - 1) + order)) - ptr < 2 ^ k
      have hxor := Nat.xor_lt_two_pow (x := block - ptr) (n := k) (by omega) hwhole
      omega

end Bounds

/-- The kernel's 17 orders on a heap of 512 MiB. -/
theorem sizesExact_kernel : (2 ≤ 17 ∧ 29 ≤ 39 ∧ 16 ≤ 2 ^ 29 >>> (17 - 1)) ∧
    (SizesExact 17 0x80600000 (2 ^ 29) ↔ 29 ≤ 30) :=
  ⟨by decide, sizesExact_iff (by decide) (by decide) (by decide)⟩

/-- On a heap of 2 GiB, the whole heap has a size of almost `2 ^ 64`. -/
theorem not_sizesExact_large : (2 ≤ 17 ∧ 31 ≤ 39 ∧ 16 ≤ 2 ^ 31 >>> (17 - 1)) ∧
    (BuddyAlloc.zero.initAlloc 17 0x80600000 (2 ^ 31)).orderSize 16 = 2 ^ 64 - 2 ^ 31 ∧
    ¬SizesExact 17 0x80600000 (2 ^ 31) := by
  have hsize : (BuddyAlloc.zero.initAlloc 17 0x80600000 (2 ^ 31)).orderSize 16 =
      2 ^ 64 - 2 ^ 31 := by
    rw [orderSize_init (by decide) (by decide)]
    decide
  refine ⟨by decide, hsize, fun h => ?_⟩
  have hexact := h.order 16 (by decide)
  rw [hsize] at hexact
  revert hexact
  decide

end Multiplix.Alloc
