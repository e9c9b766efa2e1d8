import Multiplix.Alloc.Buddy
import Multiplix.Lib.Chain
import Multiplix.Lib.Dyadic
import Mathlib.Tactic.IntervalCases

/-! The invariant of the buddy allocator: the blocks on the free lists and the blocks handed out
tile the heap. One lemma for each operation on the free lists. -/
namespace Multiplix.Alloc
open Lib Core

/-- A heap the allocator is meant for: `2 ^ log` bytes at `ptr`, managed in `N` orders. -/
structure HeapGeometry (N : ℕ) where
  ptr : ℕ
  log : ℕ
  orders : 0 < N
  minBlock : N ≤ log + 1
  small : log < 31
  pos : 0 < ptr
  aligned : 4096 ∣ ptr
  fits : ptr + 2 ^ log ≤ 2 ^ 64

namespace HeapGeometry

variable {N : ℕ} (g : HeapGeometry N)

def minLog : ℕ := g.log + 1 - N

/-- The block of order `k` at offset `off`. -/
def blk (k off : ℕ) : Blk := ⟨off, g.minLog + k⟩

/-- The blocks on the first `n` free lists. -/
def freeBlks (free : ℕ → List ℕ) : ℕ → Multiset Blk
  | 0 => 0
  | k + 1 => freeBlks free k + ((free k).map (g.blk k) : List Blk)

theorem minLog_top : g.minLog + (N - 1) = g.log := by
  have h1 := g.orders
  have h2 := g.minBlock
  unfold minLog
  omega

/-- The geometry of a heap that meets the allocator's preconditions. -/
theorem exists_of {ptr len : ℕ} (hN : 0 < N) (hptr : 4096 ∣ ptr) (hpos : 0 < ptr)
    (hfit : ptr + len ≤ 2 ^ 64) (hlen : ∃ k < 31, len = 2 ^ k) (hmin : 8 ≤ len >>> (N - 1)) :
    ∃ g : HeapGeometry N, g.ptr = ptr ∧ 2 ^ g.log = len ∧ 3 ≤ g.minLog := by
  obtain ⟨k, hk, rfl⟩ := hlen
  rw [Nat.shiftRight_eq_div_pow] at hmin
  have hNk : N ≤ k + 1 := by
    by_contra hc
    have hlt : 2 ^ k < 2 ^ (N - 1) := Nat.pow_lt_pow_right (by omega) (by omega)
    rw [Nat.div_eq_of_lt hlt] at hmin
    omega
  refine ⟨⟨ptr, k, hN, hNk, hk, hpos, hptr, hfit⟩, rfl, rfl, ?_⟩
  rw [Nat.pow_div (by omega) (by omega)] at hmin
  have h3 : 3 ≤ k - (N - 1) := (Nat.pow_le_pow_iff_right (a := 2) (by omega)).mp hmin
  unfold minLog
  dsimp only
  omega

theorem freeBlks_congr {free free' : ℕ → List ℕ} {n : ℕ} (h : ∀ k < n, free' k = free k) :
    g.freeBlks free' n = g.freeBlks free n := by
  induction n with
  | zero => rfl
  | succ n ih =>
    simp only [freeBlks, h n (by omega), ih fun k hk => h k (by omega)]

theorem freeBlks_split (free : ℕ → List ℕ) {n k : ℕ} (hk : k < n) :
    g.freeBlks free n =
      ((free k).map (g.blk k) : List Blk) + g.freeBlks (Function.update free k []) n := by
  induction n with
  | zero => omega
  | succ n ih =>
    simp only [freeBlks]
    rcases Nat.lt_succ_iff_lt_or_eq.mp hk with hlt | rfl
    · rw [ih hlt, Function.update_of_ne (by omega), Multiset.add_assoc]
    · have hc : g.freeBlks (Function.update free k []) k = g.freeBlks free k :=
        g.freeBlks_congr fun i hi => Function.update_of_ne (by omega) _ _
      rw [hc, Function.update_self, Multiset.add_comm]
      simp

/-- Taking one block off a list. -/
theorem freeBlks_of_perm {free : ℕ → List ℕ} {n k off : ℕ} {l : List ℕ} (hk : k < n)
    (hp : (free k).Perm (off :: l)) :
    g.freeBlks free n = g.blk k off ::ₘ g.freeBlks (Function.update free k l) n := by
  have hm : ((free k).map (g.blk k) : Multiset Blk) = g.blk k off ::ₘ (l.map (g.blk k)) := by
    rw [Multiset.cons_coe, Multiset.coe_eq_coe]
    simpa using hp.map (g.blk k)
  rw [g.freeBlks_split free hk, g.freeBlks_split (Function.update free k l) hk,
    Function.update_idem, Function.update_self, hm, Multiset.cons_add]

theorem mem_freeBlks {free : ℕ → List ℕ} {n k off : ℕ} (hk : k < n) (h : off ∈ free k) :
    g.blk k off ∈ g.freeBlks free n := by
  rw [g.freeBlks_of_perm hk (List.perm_cons_erase h)]
  exact Multiset.mem_cons_self _ _

/-- The free blocks as a set. -/
def IsFree (free : ℕ → List ℕ) (b : Blk) : Prop := ∃ k < N, ∃ off ∈ free k, g.blk k off = b

theorem isFree_of_mem {free : ℕ → List ℕ} {b : Blk} (h : b ∈ g.freeBlks free N) :
    g.IsFree free b := by
  have hn : ∀ n, b ∈ g.freeBlks free n → ∃ k < n, ∃ off ∈ free k, g.blk k off = b := by
    intro n
    induction n with
    | zero => intro hb; exact absurd hb (Multiset.notMem_zero b)
    | succ n ih =>
      intro hb
      rcases Multiset.mem_add.mp hb with hb | hb
      · obtain ⟨k, hk, hb⟩ := ih hb
        exact ⟨k, by omega, hb⟩
      · exact ⟨n, by omega, List.mem_map.mp hb⟩
  exact hn N h

/-- No two free blocks below the top order are buddies. -/
def Coalesced (free : ℕ → List ℕ) : Prop :=
  ∀ k < N - 1, ∀ off ∈ free k, (g.blk k off).buddy.off ∉ free k

theorem blk_buddy (k off : ℕ) : (g.blk k off).buddy = g.blk k (g.blk k off).buddy.off := rfl

variable {g}

theorem Coalesced.mono {free free' : ℕ → List ℕ} (h : g.Coalesced free)
    (hs : ∀ k, free' k ⊆ free k) : g.Coalesced free' :=
  fun k hk off ho hb => h k hk off (hs k ho) (hs k hb)

theorem Coalesced.update {free : ℕ → List ℕ} (h : g.Coalesced free) {k : ℕ} {l : List ℕ}
    (hs : l ⊆ free k) : g.Coalesced (Function.update free k l) :=
  h.mono fun i => by
    rcases eq_or_ne i k with rfl | hik
    · simpa using hs
    · simp [hik]

/-- A block whose buddy is not free may become free. -/
theorem Coalesced.insert {free : ℕ → List ℕ} (h : g.Coalesced free) {k off : ℕ}
    (hb : k < N - 1 → (g.blk k off).buddy.off ∉ free k) :
    g.Coalesced (Function.update free k (off :: free k)) := by
  intro i hi y hy
  rcases eq_or_ne i k with rfl | hik
  · have hbb : (g.blk i (g.blk i off).buddy.off).buddy.off = off := by
      rw [← g.blk_buddy, Blk.buddy_buddy]
      rfl
    have hself : ∀ z, (g.blk i z).buddy.off ≠ z := fun z => (g.blk i z).buddy_off_ne
    rw [Function.update_self] at hy ⊢
    rcases List.mem_cons.mp hy with rfl | hy
    · simpa [hself] using hb hi
    · intro hm
      rcases List.mem_cons.mp hm with he | hm
      · apply hb hi
        rw [← he, ← g.blk_buddy, Blk.buddy_buddy]
        exact hy
      · exact h i hi y hy hm
  · rw [Function.update_of_ne hik] at hy ⊢
    exact h i hi y hy

end HeapGeometry

theorem shlInt_eq {k : ℕ} (hk : k < 31) : shlInt k = 2 ^ k := by
  interval_cases k <;> decide

/-- `free k` lists the offsets of the blocks on list `k`; `live` are the blocks handed out. -/
structure BuddyInv {N : ℕ} (g : HeapGeometry N) (a : BuddyAlloc) (m : Mem)
    (free : ℕ → List ℕ) (live : Multiset Blk) : Prop where
  heapPtr : a.heapPtr = g.ptr
  heapLen : a.heapLen = 2 ^ g.log
  minBlockSize : a.minBlockSize = 2 ^ g.minLog
  minBlockSizeLog2 : a.minBlockSizeLog2 = g.minLog
  chain : ∀ k < N - 1, Chain (freeBlockNext m) (a.freeLists k) ((free k).map (g.ptr + ·)) 0
  top : (free (N - 1) = [] ∧ a.freeLists (N - 1) = 0) ∨
    (free (N - 1) = [0] ∧ a.freeLists (N - 1) = g.ptr)
  wide : ∀ k < N - 1, free k ≠ [] → 3 ≤ g.minLog + k
  tiles : Tiles g.log (g.freeBlks free N + live)

namespace BuddyInv

variable {N : ℕ} {g : HeapGeometry N} {a : BuddyAlloc} {m : Mem} {free : ℕ → List ℕ}
  {live : Multiset Blk} {k off : ℕ}

theorem initAlloc (g : HeapGeometry N) (m : Mem) :
    BuddyInv g (BuddyAlloc.zero.initAlloc N g.ptr (2 ^ g.log)) m
      (Function.update (fun _ => []) (N - 1) [0]) 0 where
  heapPtr := rfl
  heapLen := rfl
  minBlockSize := by
    have h1 := g.orders
    have h2 := g.minBlock
    simp only [BuddyAlloc.initAlloc, Nat.shiftRight_eq_div_pow, HeapGeometry.minLog]
    rw [Nat.pow_div (by omega) (by omega)]
    congr 1
    omega
  minBlockSizeLog2 := by
    have h1 := g.orders
    have h2 := g.minBlock
    have h3 := g.small
    simp only [BuddyAlloc.initAlloc, Nat.shiftRight_eq_div_pow, HeapGeometry.minLog]
    rw [Nat.pow_div (by omega) (by omega), log2ceil_two_pow (by omega)]
    omega
  chain k hk := by
    simp only [BuddyAlloc.initAlloc, BuddyAlloc.zero]
    rw [Function.update_of_ne (by omega), Function.update_of_ne (by omega)]
    simp
  top := by simp [BuddyAlloc.initAlloc]
  wide k hk h := by
    rw [Function.update_of_ne (by omega)] at h
    exact absurd rfl h
  tiles := by
    have hN := g.orders
    have he : g.freeBlks (Function.update (Function.update (fun _ => []) (N - 1) [0])
        (N - 1) []) N = 0 := by
      rw [Function.update_idem]
      have hz : ∀ n, g.freeBlks (fun _ => []) n = 0 := fun n => by
        induction n with
        | zero => rfl
        | succ n ih => simp [HeapGeometry.freeBlks, ih]
      rw [← hz N]
      exact g.freeBlks_congr fun k _ => by
        rcases eq_or_ne k (N - 1) with rfl | h
        · simp
        · rw [Function.update_of_ne h]
    have hperm : (Function.update (fun _ => []) (N - 1) [0] (N - 1)).Perm [0] := by simp
    rw [g.freeBlks_of_perm (by omega) hperm, he]
    have hw := Tiles.whole g.log
    rw [← g.minLog_top] at hw ⊢
    simpa [HeapGeometry.blk] using hw

theorem orderSize_eq (h : BuddyInv g a m free live) (hk : k < N) :
    a.orderSize k = 2 ^ (g.minLog + k) := by
  have h1 := g.minLog_top
  have h2 := g.small
  unfold BuddyAlloc.orderSize
  rw [h.minBlockSizeLog2, shlInt_eq (by omega)]

theorem inside (h : BuddyInv g a m free live) (hk : k < N) (ho : off ∈ free k) :
    off + 2 ^ (g.minLog + k) ≤ 2 ^ g.log :=
  h.tiles.inside _ (Multiset.mem_add.mpr (Or.inl (g.mem_freeBlks hk ho)))

theorem head_lt (h : BuddyInv g a m free live) (hk : k < N) : a.freeLists k < 2 ^ 64 := by
  have hf := g.fits
  rcases Nat.lt_or_ge k (N - 1) with hlt | hge
  · have hc := h.chain k hlt
    cases hl : free k with
    | nil =>
      rw [hl] at hc
      rw [Chain.nil_iff.mp hc]
      omega
    | cons off l =>
      rw [hl] at hc
      have ho : off ∈ free k := by simp [hl]
      have hi := h.inside hk ho
      have hp := Nat.two_pow_pos (g.minLog + k)
      have he : a.freeLists k = g.ptr + off := hc.1
      omega
  · rw [show k = N - 1 by omega]
    have hp := Nat.two_pow_pos g.log
    rcases h.top with ⟨-, he⟩ | ⟨-, he⟩ <;> rw [he] <;> omega

/-- A free block does not overlap any block handed out. -/
theorem disjoint_live (h : BuddyInv g a m free live) (hk : k < N) (ho : off ∈ free k) {b : Blk}
    (hb : b ∈ live) : (g.blk k off).Disjoint b := by
  have ht := h.tiles
  rw [g.freeBlks_of_perm hk (List.perm_cons_erase ho), Multiset.cons_add] at ht
  exact ht.disjoint_of_mem (Multiset.mem_add.mpr (Or.inr hb))

/-- The lists survive writes that spare the links of the free blocks. -/
theorem frame (h : BuddyInv g a m free live) {m' : Mem}
    (hm : ∀ k < N - 1, ∀ off ∈ free k, m.SameOn m' (g.ptr + off) 8) :
    BuddyInv g a m' free live :=
  { h with
    chain := fun k hk => (h.chain k hk).frame fun y hy => by
      obtain ⟨off, ho, rfl⟩ := List.mem_map.mp hy
      exact Mem.load_congr (hm k hk off ho) }

/-- Clients may write what they were given. -/
theorem frame_live (h : BuddyInv g a m free live) {m' : Mem} {b : Blk} (hb : b ∈ live)
    (hm : ∀ x, x < g.ptr + b.off ∨ g.ptr + b.off + b.size ≤ x → m' x = m x) :
    BuddyInv g a m' free live := by
  refine h.frame fun k hk off ho x hx hx' => hm x ?_
  have hd := h.disjoint_live (by omega) ho hb
  have hw := h.wide k hk (List.ne_nil_of_mem ho)
  have h8 := Nat.pow_le_pow_right (n := 2) (by omega) hw
  simp only [Blk.Disjoint, HeapGeometry.blk, Blk.size] at hd ⊢
  omega

/-- Two blocks handed out, or a block handed out and a free one, share no byte. -/
theorem disjoint_cons (h : BuddyInv g a m free (g.blk k off ::ₘ live)) {i y : ℕ} (hi : i < N)
    (hy : y ∈ free i) : (g.blk i y).Disjoint (g.blk k off) :=
  h.disjoint_live hi hy (Multiset.mem_cons_self _ _)

theorem freeListPop (h : BuddyInv g a m free live) (hk : k < N) (hne : a.freeLists k ≠ 0) :
    ∃ off l, free k = off :: l ∧ (a.freeListPop N m k).1 = g.ptr + off ∧
      BuddyInv g (a.freeListPop N m k).2 m (Function.update free k l) (g.blk k off ::ₘ live) := by
  have hkeep : ∀ l off v, free k = off :: l →
      (k < N - 1 → Chain (freeBlockNext m) v (l.map (g.ptr + ·)) 0) →
      (k = N - 1 → l = [] ∧ v = 0) →
      BuddyInv g (a.setFreeList k v) m (Function.update free k l) (g.blk k off ::ₘ live) := by
    intro l off v hl hc ht
    refine { h with chain := fun i hi => ?_, top := ?_, wide := fun i hi hne => ?_, tiles := ?_ }
    · rcases eq_or_ne i k with rfl | hik
      · simpa [BuddyAlloc.setFreeList] using hc hi
      · simpa [BuddyAlloc.setFreeList, hik] using h.chain i hi
    · rcases eq_or_ne k (N - 1) with rfl | hik
      · exact Or.inl (by simpa [BuddyAlloc.setFreeList] using ht rfl)
      · simpa [BuddyAlloc.setFreeList, hik.symm] using h.top
    · rcases eq_or_ne i k with rfl | hik
      · exact h.wide i hi (by simp [hl])
      · exact h.wide i hi (by simpa [hik] using hne)
    · have ht := h.tiles
      rwa [g.freeBlks_of_perm hk (by rw [hl]), Multiset.cons_add, ← Multiset.add_cons] at ht
  unfold BuddyAlloc.freeListPop
  rw [if_pos hne]
  rcases eq_or_ne k (N - 1) with rfl | hkn
  · rcases h.top with ⟨-, he⟩ | ⟨hl, he⟩
    · exact absurd he hne
    · rw [if_neg (by simp)]
      exact ⟨0, [], hl, he, hkeep [] 0 0 hl (by omega) fun _ => ⟨rfl, rfl⟩⟩
  · rw [if_pos hkn]
    have hc := h.chain k (by omega)
    cases hl : free k with
    | nil =>
      rw [hl] at hc
      exact absurd hc hne
    | cons off l =>
      rw [hl] at hc
      obtain ⟨he, -, hc⟩ := hc
      exact ⟨off, l, rfl, he, hkeep l off _ hl (fun _ => by rwa [he]) fun hk => absurd hk hkn⟩

theorem freeListInsert (h : BuddyInv g a m free (g.blk k off ::ₘ live)) (hk : k < N)
    (hw : 3 ≤ g.minLog + k) :
    BuddyInv g (a.freeListInsert m k (g.ptr + off)).1 (a.freeListInsert m k (g.ptr + off)).2
      (Function.update free k (off :: free k)) live := by
  have h8 := Nat.pow_le_pow_right (n := 2) (by omega) hw
  have hp := g.pos
  have hin : off + 2 ^ (g.minLog + k) ≤ 2 ^ g.log := h.tiles.inside (g.blk k off) (by simp)
  have hsep : ∀ i < N - 1, ∀ y ∈ free i,
      m.SameOn (m.store 8 (g.ptr + off) (a.freeLists k)) (g.ptr + y) 8 := by
    intro i hi y hy
    have hd := h.disjoint_cons (by omega) hy
    have h8' := Nat.pow_le_pow_right (n := 2) (by omega) (h.wide i hi (List.ne_nil_of_mem hy))
    simp only [Blk.Disjoint, HeapGeometry.blk, Blk.size] at hd
    exact Mem.sameOn_store m _ (by omega)
  have hm := h.frame hsep
  unfold BuddyAlloc.freeListInsert
  refine { hm with chain := fun i hi => ?_, top := ?_, wide := fun i hi hne => ?_, tiles := ?_ }
  · rcases eq_or_ne i k with rfl | hik
    · have hlink : freeBlockNext (m.store 8 (g.ptr + off) (a.freeLists i)) (g.ptr + off) =
          a.freeLists i := Mem.load_store_word m _ (h.head_lt hk)
      have hc := hm.chain i hi
      simp only [BuddyAlloc.setFreeList, Function.update_self, List.map_cons, Chain.cons_iff,
        true_and]
      exact ⟨by omega, by rwa [hlink]⟩
    · simpa [BuddyAlloc.setFreeList, hik] using hm.chain i hi
  · rcases eq_or_ne k (N - 1) with rfl | hik
    · have hl := g.minLog_top
      rw [hl] at hin
      have hoff : off = 0 := by omega
      have he : free (N - 1) = [] := by
        rcases h.top with ⟨he, -⟩ | ⟨he, -⟩
        · exact he
        · have hd := h.disjoint_cons hk (y := 0) (by simp [he])
          have := Nat.two_pow_pos g.log
          simp only [Blk.Disjoint, HeapGeometry.blk, Blk.size, hl] at hd
          omega
      exact Or.inr (by simp [BuddyAlloc.setFreeList, he, hoff])
    · simpa [BuddyAlloc.setFreeList, hik.symm] using h.top
  · rcases eq_or_ne i k with rfl | hik
    · exact hw
    · exact h.wide i hi (by simpa [hik] using hne)
  · have ht := h.tiles
    have hperm : (Function.update free k (off :: free k) k).Perm (off :: free k) := by simp
    rw [g.freeBlks_of_perm hk hperm, Function.update_idem, Function.update_eq_self]
    rwa [Multiset.cons_add, ← Multiset.add_cons]

end BuddyInv
end Multiplix.Alloc
