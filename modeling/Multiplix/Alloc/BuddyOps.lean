import Multiplix.Alloc.BuddyInv

/-! Allocation and deallocation keep the tiling and write only free blocks. -/
namespace Multiplix.Alloc
open Lib Core

/-- No byte of the given blocks changes. -/
def Spares {N : ℕ} (g : HeapGeometry N) (live : Multiset Blk) (m m' : Mem) : Prop :=
  ∀ b ∈ live, m.SameOn m' (g.ptr + b.off) b.size

namespace Spares

variable {N : ℕ} {g : HeapGeometry N} {live : Multiset Blk} {m₁ m₂ m₃ : Mem}

theorem refl (g : HeapGeometry N) (live : Multiset Blk) (m : Mem) : Spares g live m m :=
  fun _ _ => .refl _ _ _

theorem trans (h : Spares g live m₁ m₂) (h' : Spares g live m₂ m₃) : Spares g live m₁ m₃ :=
  fun b hb => (h b hb).trans (h' b hb)

theorem mono {live' : Multiset Blk} (h : Spares g live m₁ m₂) (hl : live' ⊆ live) :
    Spares g live' m₁ m₂ := fun b hb => h b (hl hb)

end Spares

section Remove

variable {order block : ℕ}

private def Spaced (l : List ℕ) : Prop := l.Pairwise fun p q => p + 8 ≤ q ∨ q + 8 ≤ p

private theorem removeLoop_of_notMem (ys : List ℕ) (hb : block ∉ ys) (fuel : ℕ) (a : BuddyAlloc)
    (m : Mem) (checking : Option ℕ) (hf : ys.length < fuel)
    (hc : Chain (freeBlockNext m) (a.checked m order checking) ys 0) :
    BuddyAlloc.freeListRemoveLoop order block fuel a m checking = some (false, a, m) := by
  induction ys generalizing fuel checking with
  | nil =>
    obtain ⟨fuel, rfl⟩ := Nat.exists_eq_add_one.mpr hf
    simp [BuddyAlloc.freeListRemoveLoop, Chain.nil_iff.mp hc]
  | cons y ys ih =>
    obtain ⟨fuel, rfl⟩ := Nat.exists_eq_add_one.mpr (Nat.zero_lt_of_lt hf)
    obtain ⟨he, h0, ht⟩ := hc
    have hne : y ≠ block := fun h => hb (by simp [h])
    simp only [BuddyAlloc.freeListRemoveLoop, he, h0, hne, if_false]
    exact ih (fun h => hb (by simp [h])) fuel (some y) (by simpa using hf) ht

/-- The loop unlinks `block` and writes no more than the cell that pointed to it. -/
private theorem removeLoop_of_mem (order : ℕ) (ys : List ℕ) (hb : block ∈ ys) (fuel : ℕ)
    (a : BuddyAlloc) (m : Mem) (checking : Option ℕ) (hf : ys.length < fuel)
    (hc : Chain (freeBlockNext m) (a.checked m order checking) ys 0)
    (ha : Spaced (checking.toList ++ ys)) :
    ∃ a' m', BuddyAlloc.freeListRemoveLoop order block fuel a m checking = some (true, a', m') ∧
      Chain (freeBlockNext m') (a'.checked m' order checking) (ys.erase block) 0 ∧
      (∀ x, (∀ p ∈ checking.toList ++ ys, x < p ∨ p + 8 ≤ x) → m' x = m x) ∧
      (checking ≠ none → a' = a) ∧ ∃ v, a' = a.setFreeList order v := by
  induction ys generalizing fuel checking with
  | nil => cases hb
  | cons y ys ih =>
    obtain ⟨fuel, rfl⟩ := Nat.exists_eq_add_one.mpr (Nat.zero_lt_of_lt hf)
    obtain ⟨he, h0, ht⟩ := hc
    simp only [BuddyAlloc.freeListRemoveLoop, he, h0, if_false]
    rcases eq_or_ne y block with rfl | hne
    · rw [if_pos rfl, List.erase_cons_head]
      cases checking with
      | none =>
        refine ⟨_, _, rfl, ?_, fun _ _ => rfl, by simp, _, rfl⟩
        simpa [BuddyAlloc.setChecked, BuddyAlloc.checked, BuddyAlloc.setFreeList] using ht
      | some p =>
        have hp : ∀ q ∈ y :: ys, p + 8 ≤ q ∨ q + 8 ≤ p := (List.pairwise_cons.mp ha).1
        refine ⟨_, _, rfl, ?_, fun x hx => ?_, fun _ => rfl, a.freeLists order, ?_⟩
        · have hl : a.checked (m.store 8 p (freeBlockNext m y)) order (some p) =
              freeBlockNext m y := Mem.load_store_word m p (Mem.load_lt 8 m y)
          simp only [hl]
          refine ht.frame fun q hq => Mem.load_store_disjoint m _ ?_
          have := hp q (by simp [hq])
          omega
        · exact Mem.store_outside m _ (hx p (by simp))
        · simp [BuddyAlloc.setFreeList]
    · rw [if_neg hne]
      have hys : block ∈ ys := by simpa [hne.symm] using hb
      have ha' : Spaced (y :: ys) := ha.sublist (List.sublist_append_right _ _)
      obtain ⟨a', m', hr, hc', hm, hsame, hset⟩ :=
        ih hys fuel (some y) (by simpa using hf) ht ha'
      obtain rfl := hsame (by simp)
      refine ⟨a', m', hr, ?_, fun x hx => hm x fun p hp => hx p ?_, fun _ => rfl, hset⟩
      · rw [List.erase_cons_tail (by simpa using hne)]
        refine ⟨?_, h0, hc'⟩
        rw [← he]
        cases checking with
        | none => rfl
        | some p =>
          have hp : ∀ q ∈ y :: ys, p + 8 ≤ q ∨ q + 8 ≤ p := (List.pairwise_cons.mp ha).1
          refine Mem.load_congr fun x hx hx' => hm x fun q hq => ?_
          have := hp q hq
          omega
      · exact List.mem_append_right _ hp

end Remove

namespace BuddyInv

variable {N : ℕ} {g : HeapGeometry N} {a : BuddyAlloc} {m : Mem} {free : ℕ → List ℕ}
  {live : Multiset Blk} {k off : ℕ}

theorem pairwise (h : BuddyInv g a m free live) (hk : k < N) :
    (free k).Pairwise fun x y => (g.blk k x).Disjoint (g.blk k y) := by
  have ht := h.tiles
  rw [g.freeBlks_split free hk, Multiset.add_assoc] at ht
  exact List.pairwise_map.mp ht.pairwise

theorem length_le (h : BuddyInv g a m free live) (hk : k < N) : (free k).length ≤ 2 ^ g.log := by
  have hnd : (free k).Nodup := (h.pairwise hk).imp fun {x y} hd he => by
    have hp := (g.blk k x).size_pos
    subst he
    unfold Blk.Disjoint at hd
    omega
  have hsub : free k ⊆ List.range (2 ^ g.log) := fun x hx => by
    have hi := h.inside hk hx
    have hp := Nat.two_pow_pos (g.minLog + k)
    exact List.mem_range.mpr (by omega)
  simpa using (hnd.subperm hsub).length_le

theorem freeListRemove_of_notMem (h : BuddyInv g a m free live) (hk : k < N - 1)
    (ho : off ∉ free k) : a.freeListRemove m k (g.ptr + off) = some (false, a, m) := by
  refine removeLoop_of_notMem ((free k).map (g.ptr + ·)) (by simpa using ho) _ a m none ?_
    (h.chain k hk)
  have := h.length_le (k := k) (by omega)
  rw [h.heapLen, List.length_map]
  omega

theorem freeListRemove_of_mem (h : BuddyInv g a m free live) (hk : k < N - 1)
    (ho : off ∈ free k) :
    ∃ a' m', a.freeListRemove m k (g.ptr + off) = some (true, a', m') ∧
      BuddyInv g a' m' (Function.update free k ((free k).erase off)) (g.blk k off ::ₘ live) ∧
      Spares g live m m' := by
  have h8 : 8 ≤ 2 ^ (g.minLog + k) :=
    Nat.pow_le_pow_right (n := 2) (by omega) (h.wide k hk (List.ne_nil_of_mem ho))
  have ha : Spaced ((free k).map (g.ptr + ·)) :=
    List.pairwise_map.mpr ((h.pairwise (by omega)).imp fun hd => by
      simp only [Blk.Disjoint, HeapGeometry.blk, Blk.size] at hd
      omega)
  obtain ⟨a', m', hr, hc, hm, -, v, hv⟩ :=
    removeLoop_of_mem k ((free k).map (g.ptr + ·)) (List.mem_map_of_mem ho)
      (a.heapLen + 1) a m none
      (by rw [h.heapLen, List.length_map]; have := h.length_le (k := k) (by omega); omega)
      (h.chain k hk) ha
  have hme : ((free k).map (g.ptr + ·)).erase (g.ptr + off) =
      ((free k).erase off).map (g.ptr + ·) :=
    (List.map_erase (fun _ _ he => Nat.add_left_cancel he) (free k)).symm
  have hout : ∀ {i y}, i < N - 1 → i ≠ k → y ∈ free i → m.SameOn m' (g.ptr + y) 8 := by
    intro i y hi hik hy x hx hx'
    refine hm x fun p hp => ?_
    obtain ⟨z, hz, rfl⟩ := List.mem_map.mp (by simpa using hp)
    have ht := h.tiles
    rw [g.freeBlks_of_perm (k := k) (by omega) (List.perm_cons_erase hz), Multiset.cons_add] at ht
    have hy' : y ∈ Function.update free k ((free k).erase z) i := by simpa [hik] using hy
    have hd := ht.disjoint_of_mem
      (Multiset.mem_add.mpr (Or.inl (g.mem_freeBlks (k := i) (by omega) hy')))
    have h8' := Nat.pow_le_pow_right (n := 2) (by omega) (h.wide i hi (List.ne_nil_of_mem hy))
    simp only [Blk.Disjoint, HeapGeometry.blk, Blk.size] at hd
    omega
  refine ⟨a', m', hr, ?_, fun b hb x hx hx' => hm x fun p hp => ?_⟩
  · subst hv
    refine { h with chain := fun i hi => ?_, top := ?_, wide := fun i hi hne => ?_, tiles := ?_ }
    · rcases eq_or_ne i k with rfl | hik
      · rw [hme] at hc
        simpa [BuddyAlloc.setFreeList, BuddyAlloc.checked] using hc
      · have hc : Chain (freeBlockNext m') (a.freeLists i) ((free i).map (g.ptr + ·)) 0 :=
          (h.chain i hi).frame fun y hy => by
            obtain ⟨z, hz, rfl⟩ := List.mem_map.mp hy
            exact Mem.load_congr (hout hi hik hz)
        simpa [BuddyAlloc.setFreeList, hik] using hc
    · have hkn : N - 1 ≠ k := by omega
      simpa [BuddyAlloc.setFreeList, hkn] using h.top
    · rcases eq_or_ne i k with rfl | hik
      · exact h.wide i hi (List.ne_nil_of_mem ho)
      · exact h.wide i hi (by simpa [hik] using hne)
    · have ht := h.tiles
      rwa [g.freeBlks_of_perm (k := k) (by omega) (List.perm_cons_erase ho), Multiset.cons_add,
        ← Multiset.add_cons] at ht
  · obtain ⟨y, hy, rfl⟩ := List.mem_map.mp (by simpa using hp)
    have hd := h.disjoint_live (by omega) hy hb
    simp only [Blk.Disjoint, HeapGeometry.blk, Blk.size] at hd hx'
    omega

theorem insert_spares (h : BuddyInv g a m free (g.blk k off ::ₘ live)) (hw : 3 ≤ g.minLog + k) :
    Spares g live m (a.freeListInsert m k (g.ptr + off)).2 := by
  intro b hb
  have ht := h.tiles
  rw [Multiset.add_cons] at ht
  have hd := ht.disjoint_of_mem (Multiset.mem_add.mpr (Or.inr hb))
  have h8 := Nat.pow_le_pow_right (n := 2) (by omega) hw
  simp only [Blk.Disjoint, HeapGeometry.blk, Blk.size] at hd
  exact Mem.sameOn_store m _ (by simp only [Blk.size]; omega)

/-- Giving a block back whose buddy is not free. -/
theorem putBack (h : BuddyInv g a m free (g.blk k off ::ₘ live)) (hk : k < N)
    (hw : 3 ≤ g.minLog + k) (hb : k < N - 1 → (g.blk k off).buddy.off ∉ free k) :
    ∃ free' a' m', some (a.freeListInsert m k (g.ptr + off)) = some (a', m') ∧
      BuddyInv g a' m' free' live ∧ Spares g live m m' ∧
      (g.Coalesced free → g.Coalesced free') :=
  ⟨_, _, _, rfl, h.freeListInsert hk hw, h.insert_spares hw, fun hc => hc.insert hb⟩

/-- A block that is in use is on no free list. -/
theorem notMem_of_live (h : BuddyInv g a m free live) (hk : k < N) (hl : g.blk k off ∈ live) :
    off ∉ free k := by
  intro ho
  have hd := h.disjoint_live hk ho hl
  have hp := (g.blk k off).size_pos
  unfold Blk.Disjoint at hd
  omega

/-- The loop gives back the upper halves and keeps the lowest block. -/
theorem splitFreeBlockLoop (j : ℕ) (h : BuddyInv g a m free (g.blk k off ::ₘ live)) (hk : k < N)
    (hj : j ≤ k) (hw : 3 ≤ g.minLog + (k - j)) :
    ∃ free' a' m',
      BuddyAlloc.splitFreeBlockLoop (g.ptr + off) j (2 ^ (g.minLog + k)) k a m = (a', m') ∧
      BuddyInv g a' m' free' (g.blk (k - j) off ::ₘ live) ∧ Spares g live m m' ∧
      (g.Coalesced free → g.Coalesced free') := by
  induction j generalizing k a m free with
  | zero => exact ⟨free, a, m, rfl, h, .refl _ _ _, id⟩
  | succ j ih =>
    obtain ⟨k, rfl⟩ := Nat.exists_eq_add_one.mpr (by omega : 0 < k)
    have hhalf : 2 ^ (g.minLog + (k + 1)) >>> 1 = 2 ^ (g.minLog + k) := by
      rw [Nat.shiftRight_eq_div_pow, ← Nat.add_assoc, pow_succ]
      omega
    have hlow : (g.blk (k + 1) off).lower = g.blk k off := rfl
    have hup : (g.blk (k + 1) off).upper = g.blk k (off + 2 ^ (g.minLog + k)) := rfl
    have ht := h.tiles
    rw [Multiset.add_cons] at ht
    have hlog : 0 < (g.blk (k + 1) off).log := by simp only [HeapGeometry.blk]; omega
    have hbud := Blk.buddy_upper (ht.aligned _ (Multiset.mem_cons_self _ _)) hlog
    have ht' := ht.split hlog
    rw [hlow, hup, Multiset.cons_swap, ← Multiset.add_cons, ← Multiset.add_cons] at ht'
    have hs : BuddyInv g a m free
        (g.blk k (off + 2 ^ (g.minLog + k)) ::ₘ g.blk k off ::ₘ live) := { h with tiles := ht' }
    have hi := hs.freeListInsert (by omega) (by omega)
    have hsp := hs.insert_spares (by omega)
    -- the buddy of the upper half is the lower half, which is being handed out
    have hnot : (g.blk k (off + 2 ^ (g.minLog + k))).buddy.off ∉ free k := by
      rw [← hup, hbud, hlow]
      have hlive : g.blk k off ∈ g.blk k (off + 2 ^ (g.minLog + k)) ::ₘ g.blk k off ::ₘ live :=
        Multiset.mem_cons_of_mem (Multiset.mem_cons_self _ _)
      exact hs.notMem_of_live (by omega) hlive
    obtain ⟨free', a', m', hr, hinv, hsp', hco⟩ := ih hi (by omega) (by omega) (by
      rwa [show k + 1 - (j + 1) = k - j by omega] at hw)
    refine ⟨free', a', m', ?_, ?_, (hsp.mono fun b hb => by simp [hb]).trans hsp',
      fun hc => hco (hc.insert fun _ => hnot)⟩
    · simpa only [BuddyAlloc.splitFreeBlockLoop, hhalf, Nat.add_sub_cancel, Nat.add_assoc g.ptr off]
        using hr
    · rwa [show k + 1 - (j + 1) = k - j by omega]

theorem splitFreeBlock {j : ℕ} (h : BuddyInv g a m free (g.blk k off ::ₘ live)) (hk : k < N)
    (hj : j ≤ k) (hw : 3 ≤ g.minLog + j) :
    ∃ free' a' m', a.splitFreeBlock m (g.ptr + off) k j = (a', m') ∧
      BuddyInv g a' m' free' (g.blk j off ::ₘ live) ∧ Spares g live m m' ∧
      (g.Coalesced free → g.Coalesced free') := by
  have he : k - (k - j) = j := by omega
  obtain ⟨free', a', m', hr, hinv, hsp⟩ := h.splitFreeBlockLoop (k - j) hk (by omega) (by rwa [he])
  refine ⟨free', a', m', ?_, by rwa [he] at hinv, hsp⟩
  rw [BuddyAlloc.splitFreeBlock, h.orderSize_eq hk, hr]

theorem free_eq_nil (h : BuddyInv g a m free live) (hk : k < N) (h0 : a.freeLists k = 0) :
    free k = [] := by
  have hpos := g.pos
  rcases Nat.lt_or_ge k (N - 1) with hlt | hge
  · have hc := h.chain k hlt
    cases hl : free k with
    | nil => rfl
    | cons off l =>
      rw [hl] at hc
      have he : a.freeLists k = g.ptr + off := hc.1
      omega
  · obtain rfl : k = N - 1 := by omega
    rcases h.top with ⟨he, -⟩ | ⟨-, he⟩
    · exact he
    · omega

/-- Allocation either fails without effect, when no large enough block is free, or hands out a
block of the order asked for. -/
theorem allocateLoop {j : ℕ} (fuel : ℕ) (h : BuddyInv g a m free live) (hk : k + fuel = N)
    (hj : j ≤ k) (hw : 3 ≤ g.minLog + j) :
    (a.allocateLoop N j fuel k m = (0, a, m) ∧ ∀ i, k ≤ i → i < N → free i = []) ∨
    ∃ off free' a' m', a.allocateLoop N j fuel k m = (g.ptr + off, a', m') ∧
      BuddyInv g a' m' free' (g.blk j off ::ₘ live) ∧ Spares g live m m' ∧
      (g.Coalesced free → g.Coalesced free') := by
  induction fuel generalizing k with
  | zero => exact Or.inl ⟨rfl, fun i hi hi' => by omega⟩
  | succ fuel ih =>
    simp only [BuddyAlloc.allocateLoop]
    by_cases hh : a.freeLists k = 0
    · have hp : a.freeListPop N m k = (0, a) := by simp [BuddyAlloc.freeListPop, hh]
      simp only [hp, ne_eq, not_true_eq_false, if_false]
      rcases ih (k := k + 1) (by omega) (by omega) with ⟨hr, hnil⟩ | hr
      · refine Or.inl ⟨hr, fun i hi hi' => ?_⟩
        rcases eq_or_ne i k with rfl | hik
        · exact h.free_eq_nil (by omega) hh
        · exact hnil i (by omega) hi'
      · exact Or.inr hr
    · right
      obtain ⟨off, l, hl, hp, hinv⟩ := h.freeListPop (by omega : k < N) hh
      have hpos := g.pos
      have hsub : l ⊆ free k := by rw [hl]; exact List.subset_cons_self _ _
      rw [if_pos (by omega : (a.freeListPop N m k).1 ≠ 0), hp]
      rcases Nat.lt_or_ge j k with hlt | hge
      · rw [if_pos hlt]
        obtain ⟨free', a', m', hr, hinv', hsp, hco⟩ := hinv.splitFreeBlock (by omega) hj hw
        exact ⟨off, free', a', m', by rw [hr], hinv', hsp, fun hc => hco (hc.update hsub)⟩
      · rw [if_neg (by omega)]
        obtain rfl : j = k := by omega
        exact ⟨off, _, _, m, rfl, hinv, .refl _ _ _, fun hc => hc.update hsub⟩

theorem buddy_eq (h : BuddyInv g a m free live) (hk : k < N - 1) :
    a.buddy k (g.ptr + off) = some (g.ptr + (g.blk k off).buddy.off) := by
  have htop := g.minLog_top
  have hlt : 2 ^ (g.minLog + k) < 2 ^ g.log := Nat.pow_lt_pow_right (by omega) (by omega)
  simp [BuddyAlloc.buddy, h.heapPtr, h.heapLen, h.orderSize_eq (by omega : k < N), hlt.not_ge,
    HeapGeometry.blk, Blk.buddy, Blk.size]

/-- Deallocation returns the block to the lists, merged with the buddies that are free. -/
theorem deallocLoop (fuel : ℕ) (h : BuddyInv g a m free (g.blk k off ::ₘ live))
    (hk : k + fuel + 1 = N) (hw : 3 ≤ g.minLog + k) :
    ∃ free' a' m', BuddyAlloc.deallocLoop (fuel + 1) k (g.ptr + off) a m = some (a', m') ∧
      BuddyInv g a' m' free' live ∧ Spares g live m m' ∧
      (g.Coalesced free → g.Coalesced free') := by
  have hpos := g.pos
  have htop := g.minLog_top
  induction fuel generalizing k off a m free with
  | zero =>
    have hk' : k = N - 1 := by omega
    have hsz : 2 ^ (g.minLog + k) = 2 ^ g.log := by rw [hk', htop]
    simpa [BuddyAlloc.deallocLoop, BuddyAlloc.buddy, h.heapPtr, h.heapLen,
      h.orderSize_eq (by omega : k < N), hsz] using h.putBack (by omega) hw (by omega)
  | succ fuel ih =>
    have hb : a.buddy k (g.ptr + off) = some (g.ptr + (g.blk k off).buddy.off) :=
      h.buddy_eq (by omega)
    have hne : g.ptr + (g.blk k off).buddy.off ≠ 0 := by omega
    rw [BuddyAlloc.deallocLoop, hb]
    simp only [Option.bind_eq_bind, Option.bind_some, hne, ne_eq, not_false_eq_true, if_true]
    by_cases hf : (g.blk k off).buddy.off ∈ free k
    · obtain ⟨a', m', hr, hinv, hsp⟩ := h.freeListRemove_of_mem (by omega) hf
      have ht := hinv.tiles
      rw [Multiset.cons_swap, Multiset.add_cons, Multiset.add_cons] at ht
      have ht' := ht.merge
      have hm : (g.blk k off).merged = g.blk (k + 1) (min off (g.blk k off).buddy.off) := rfl
      rw [hm, ← Multiset.add_cons] at ht'
      have hinv' : BuddyInv g a' m' (Function.update free k ((free k).erase _))
          (g.blk (k + 1) (min off (g.blk k off).buddy.off) ::ₘ live) := { hinv with tiles := ht' }
      obtain ⟨free'', a'', m'', hr', hinv'', hsp', hco⟩ := ih hinv' (by omega) (by omega)
      have hmin : min (g.ptr + off) (g.ptr + (g.blk k off).buddy.off) =
          g.ptr + min off (g.blk k off).buddy.off := by omega
      refine ⟨free'', a'', m'', ?_, hinv'', (hsp.mono fun b hb => by simp [hb]).trans hsp',
        fun hc => hco (hc.update List.erase_subset)⟩
      simp only [hr, Option.bind_some, if_true, hmin]
      exact hr'
    · rw [h.freeListRemove_of_notMem (by omega) hf]
      simpa using h.putBack (by omega) hw fun _ => hf

end BuddyInv
end Multiplix.Alloc
