import Multiplix.Alloc.Kalloc

/-! A run that hands out the last block of the kernel's heap: every request takes the lower half of
what is left. -/
namespace Multiplix.Alloc
open Lib Core

/-- `BuddyAlloc!(17)`. -/
def buddyOrders : ℕ := 17

/-- `mb!(512)`, the size that `kmain` passes to `kallocinit`. -/
def heapSize : ℕ := 512 * 1024 * 1024

/-- Only the last block of order `k` is free. -/
structure Rest (ptr k : ℕ) (a : BuddyAlloc) (m : Mem) : Prop where
  heapLen : a.heapLen = heapSize
  minBlockSize : a.minBlockSize = 2 ^ 13
  minBlockSizeLog2 : a.minBlockSizeLog2 = 13
  freeLists : a.freeLists = Function.update (fun _ => 0) k (ptr + (heapSize - 2 ^ (13 + k)))
  link : k < 16 → freeBlockNext m (ptr + (heapSize - 2 ^ (13 + k))) = 0

namespace Rest

variable {ptr k : ℕ} {a : BuddyAlloc} {m : Mem}

theorem init (ptr : ℕ) (m : Mem) :
    Rest ptr 16 (BuddyAlloc.zero.initAlloc buddyOrders ptr heapSize) m where
  heapLen := rfl
  minBlockSize := rfl
  minBlockSizeLog2 := log2ceil_two_pow (by decide : 13 < 64)
  freeLists := rfl
  link h := absurd h (by decide)

theorem allocationOrder (h : Rest ptr k a m) (size : ℕ) {j : ℕ} (hj : j ≤ 16)
    (hsize : max size a.minBlockSize = 2 ^ (13 + j)) (h4096 : 4096 ≤ size) :
    a.allocationOrder size (alignment size) = some (some j) := by
  have hle : 2 ^ (13 + j) ≤ heapSize := by
    rw [show heapSize = 2 ^ (13 + 16) from rfl]
    exact Nat.pow_le_pow_right (by omega) (by omega)
  have halign : alignment size = 4096 := if_pos h4096
  simp [BuddyAlloc.allocationOrder, BuddyAlloc.allocationSize, halign, minHeapAlign, hsize,
    pow2ceil_two_pow (by omega : 13 + j ≤ 63), log2ceil_two_pow (by omega : 13 + j < 64),
    h.heapLen, h.minBlockSizeLog2, show ¬ size < 4096 by omega,
    show ¬ heapSize < 2 ^ (13 + j) by omega]

/-- Taking the only free block empties its list. -/
theorem pop (h : Rest ptr k a m) (hptr : 0 < ptr) (hk : k ≤ 16) :
    a.freeListPop buddyOrders m k =
      (ptr + (heapSize - 2 ^ (13 + k)), { a with freeLists := fun _ => 0 }) := by
  have hhead : a.freeLists k = ptr + (heapSize - 2 ^ (13 + k)) := by
    rw [h.freeLists, Function.update_self]
  have hempty : Function.update a.freeLists k 0 = fun _ => 0 := by
    rw [h.freeLists, Function.update_idem]
    exact Function.update_eq_self k fun _ => 0
  have hne : ptr + (heapSize - 2 ^ (13 + k)) ≠ 0 := by omega
  rw [BuddyAlloc.freeListPop, hhead, if_pos hne]
  split_ifs with hlast
  · rw [h.link (by unfold buddyOrders at hlast; omega), BuddyAlloc.setFreeList, hempty]
  · rw [BuddyAlloc.setFreeList, hempty]

/-- A request for half of what is left takes the lower half. -/
theorem alloc_half (h : Rest ptr (k + 1) a m) (hptr : 0 < ptr) (hk : k < 16) :
    ∃ a' m', a.alloc buddyOrders m (2 ^ (13 + k)) =
        some (ptr + (heapSize - 2 ^ (13 + (k + 1))), a', m') ∧ Rest ptr k a' m' := by
  have hlow : 2 ^ 12 ≤ 2 ^ (13 + k) := Nat.pow_le_pow_right (by omega) (by omega)
  have hhigh : 2 ^ (13 + (k + 1)) ≤ heapSize := by
    rw [show heapSize = 2 ^ (13 + 16) from rfl]
    exact Nat.pow_le_pow_right (by omega) (by omega)
  have hdouble : 2 ^ (13 + (k + 1)) = 2 * 2 ^ (13 + k) := by rw [← add_assoc, pow_succ']
  have horder := h.allocationOrder (2 ^ (13 + k)) (by omega : k ≤ 16)
    (by rw [h.minBlockSize]; exact max_eq_left (Nat.pow_le_pow_right (by omega) (by omega)))
    (by omega)
  have hempty : a.freeListPop buddyOrders m k = (0, a) := by
    simp [BuddyAlloc.freeListPop, h.freeLists]
  have hsize : shlInt (13 + (k + 1)) >>> 1 = 2 ^ (13 + k) := by
    rw [shlInt_eq (by omega), Nat.shiftRight_eq_div_pow, hdouble]
    omega
  have hupper : ptr + (heapSize - 2 ^ (13 + (k + 1))) + 2 ^ (13 + k) =
      ptr + (heapSize - 2 ^ (13 + k)) := by omega
  obtain ⟨fuel, hfuel⟩ : ∃ fuel, buddyOrders - k = fuel + 1 + 1 :=
    ⟨15 - k, by unfold buddyOrders; omega⟩
  refine ⟨{ a with freeLists := Function.update (fun _ => 0) k (ptr + (heapSize - 2 ^ (13 + k))) },
    m.store 8 (ptr + (heapSize - 2 ^ (13 + k))) 0, ?_, ?_⟩
  · simp [BuddyAlloc.alloc, BuddyAlloc.allocate, horder, hfuel, BuddyAlloc.allocateLoop, hempty,
      h.pop hptr (by omega : k + 1 ≤ 16), BuddyAlloc.splitFreeBlock, BuddyAlloc.splitFreeBlockLoop,
      BuddyAlloc.orderSize, h.minBlockSizeLog2, hsize, hupper, BuddyAlloc.freeListInsert,
      BuddyAlloc.setFreeList, hptr.ne']
  · exact ⟨h.heapLen, h.minBlockSize, h.minBlockSizeLog2, rfl, fun _ => by simp [freeBlockNext]⟩

/-- Once a single block is left, a request for a page takes it. -/
theorem alloc_page (h : Rest ptr 0 a m) (hptr : 0 < ptr) :
    ∃ a' m', a.alloc buddyOrders m pagesize = some (ptr + (heapSize - 2 ^ 13), a', m') := by
  have horder := h.allocationOrder pagesize (by omega : 0 ≤ 16)
    (by rw [h.minBlockSize]; decide) (by decide)
  have hpop := h.pop hptr (by omega)
  obtain ⟨fuel, hfuel⟩ : ∃ fuel, buddyOrders - 0 = fuel + 1 := ⟨16, rfl⟩
  simp [BuddyAlloc.alloc, BuddyAlloc.allocate, horder, hfuel, BuddyAlloc.allocateLoop, hpop,
    hptr.ne']

end Rest

namespace Kalloc

variable {ptr : ℕ}

/-- A request for a power of two from a page on goes to the buddy allocator as it is. -/
theorem alloc_two_pow {N j : ℕ} (b : BlockAlloc) (m : Mem) (hj : 12 ≤ j) (hj' : j ≤ 63) :
    b.alloc N m (2 ^ j) = (b.allocator.alloc N m (2 ^ j)).map fun r =>
      ((r.1, 2 ^ j), { b with allocator := r.2.1 }, r.2.2) := by
  have hle : 2 ^ 12 ≤ 2 ^ j := Nat.pow_le_pow_right (by omega) hj
  have h8 : ¬ 2 ^ j < 8 := by omega
  have hblock : blocksize ≤ 2 ^ j := hle
  simp [BlockAlloc.alloc, h8, pow2ceil_two_pow hj', hblock, Option.map_eq_bind]

/-- The requests that leave the last block of order `k`. -/
theorem run_rest (hptr : 0 < ptr) (n : ℕ) (hn : n ≤ 16) :
    ∃ s, Run buddyOrders ptr heapSize s ∧ Rest ptr (16 - n) s.alloc.allocator s.mem := by
  induction n with
  | zero => exact ⟨_, ⟨fun _ => 0, .refl⟩, Rest.init ptr _⟩
  | succ n ih =>
    obtain ⟨s, ⟨m, hr⟩, hrest⟩ := ih (by omega)
    rw [show 16 - n = 16 - (n + 1) + 1 by omega] at hrest
    obtain ⟨a', m', hcall, hrest'⟩ := hrest.alloc_half hptr (by omega)
    have halloc := alloc_two_pow (N := buddyOrders) s.alloc s.mem
      (by omega : 12 ≤ 13 + (16 - (n + 1))) (by omega)
    rw [hcall] at halloc
    exact ⟨_, ⟨m, hr.tail (.kalloc halloc)⟩, hrest'⟩

/-- Some run hands out the page at the start of the last block. -/
theorem run_last (hptr : 0 < ptr) : ∃ s, Run buddyOrders ptr heapSize s ∧
    ⟨ptr + (heapSize - 2 ^ 13), pagesize, pagesize⟩ ∈ s.live := by
  obtain ⟨s, ⟨m, hr⟩, hrest⟩ := run_rest hptr 16 le_rfl
  obtain ⟨a', m', hcall⟩ := hrest.alloc_page hptr
  have halloc := alloc_two_pow (N := buddyOrders) s.alloc s.mem le_rfl (by omega : 12 ≤ 63)
  rw [show (2 ^ 12 : ℕ) = pagesize from rfl, hcall] at halloc
  refine ⟨_, ⟨m, hr.tail (.kalloc halloc)⟩, ?_⟩
  rw [if_neg (by omega)]
  exact List.mem_cons_self

end Kalloc
end Multiplix.Alloc
