import Multiplix.Alloc.BlockCalls
import Mathlib.Logic.Relation

/-! Runs of the block allocator: what is handed out stays apart from everything else. -/
namespace Multiplix.Alloc
open Lib Core

/-- An allocator in use: `live` lists what was handed out and not yet given back. -/
structure BlockSystem where
  alloc : BlockAlloc
  mem : Mem
  live : List Grant

namespace BlockSystem

/-- The calls of a client and its writes to the memory it was given. -/
inductive Step (N : ℕ) : BlockSystem → BlockSystem → Prop
  | alloc {s : BlockSystem} {size p len : ℕ} {b' : BlockAlloc} {m' : Mem} :
      size ≤ s.alloc.allocator.heapLen →
      s.alloc.alloc N s.mem size = some ((p, len), b', m') → p ≠ 0 →
      Step N s ⟨b', m', ⟨p, len, size⟩ :: s.live⟩
  | allocNull {s : BlockSystem} {size len : ℕ} {b' : BlockAlloc} {m' : Mem} :
      size ≤ s.alloc.allocator.heapLen →
      s.alloc.alloc N s.mem size = some ((0, len), b', m') → Step N s ⟨b', m', s.live⟩
  | free {s : BlockSystem} {u : Grant} {b' : BlockAlloc} {m' : Mem} :
      u ∈ s.live → s.alloc.free N s.mem u.ptr u.size = some (b', m') →
      Step N s ⟨b', m', s.live.erase u⟩
  | write {s : BlockSystem} {u : Grant} {x : ℕ} (v : Byte) :
      u ∈ s.live → u.ptr ≤ x → x < u.ptr + u.len →
      Step N s ⟨s.alloc, Function.update s.mem x v, s.live⟩

def init (N ptr len : ℕ) (m : Mem) : BlockSystem := ⟨BlockAlloc.initAlloc N ptr len, m, []⟩

/-- `P` and `F` are the lists of blocks and `free` the free lists, as read from memory. -/
structure Lists (N : ℕ) (s : BlockSystem) (P F free : ℕ → List ℕ) : Prop where
  partialBlocks : ∀ c, Chain (Header.next s.mem) (s.alloc.partialBlocks c) (P c) 0
  fullBlocks : ∀ c, Chain (Header.next s.mem) (s.alloc.fullBlocks c) (F c) 0
  freeLists : ∀ k < N, s.alloc.allocator.OnFreeList N s.mem k (free k)

/-- The two regions share no byte. -/
def Apart (p n q k : ℕ) : Prop := p + n ≤ q ∨ q + k ≤ p

/-- What was handed out is large enough, apart from everything else, and goes back to where it
came from; no call writes to it. -/
structure Safe (N ptr len : ℕ) (s : BlockSystem) (P F free : ℕ → List ℕ) : Prop where
  lists : s.Lists N P F free
  inside : ∀ u ∈ s.live, u.size ≤ u.len ∧ ptr ≤ u.ptr ∧ u.ptr + u.len ≤ ptr + len
  disjoint : s.live.Pairwise fun u v => Apart u.ptr u.len v.ptr v.len
  headers : ∀ u ∈ s.live, ∀ c, ∀ h ∈ P c ++ F c, Apart u.ptr u.len h Header.sizeof
  freeBlocks : ∀ u ∈ s.live, ∀ k < N, ∀ p ∈ free k,
    Apart u.ptr u.len p (s.alloc.allocator.orderSize k)
  routed : ∀ u ∈ s.live, u.ptr % pagesize = 0 ↔ blocksize ≤ u.len
  sameOrder : ∀ u ∈ s.live, blocksize ≤ u.len → ∃ o,
    s.alloc.allocator.allocationOrder u.len (alignment u.len) = some (some o) ∧
      s.alloc.allocator.allocationOrder u.size (alignment u.size) = some (some o)
  allocSpares : ∀ size ≤ len, ∃ r b' m', s.alloc.alloc N s.mem size = some (r, b', m') ∧
    ∀ u ∈ s.live, s.mem.SameOn m' u.ptr u.len
  freeSpares : ∀ u ∈ s.live, ∃ b' m', s.alloc.free N s.mem u.ptr u.size = some (b', m') ∧
    ∀ v ∈ s.live.erase u, s.mem.SameOn m' v.ptr v.len

end BlockSystem

namespace PagesInv

variable {N : ℕ} {g : HeapGeometry N} {a : BuddyAlloc} {m : Mem} {free : ℕ → List ℕ}

open BlockSystem in
theorem grants_pairwise {ps : List Page} {ls : List Grant} (h : PagesInv g a m free ps ls) :
    (ps.flatMap Page.used ++ ls).Pairwise fun u v => Apart u.ptr u.len v.ptr v.len := by
  have ht := h.buddy.tiles
  have hl : g.liveBlks ps ls = (ps.map g.pageBlk ++ ls.map g.largeBlk : List Blk) := by
    rw [HeapGeometry.liveBlks, Multiset.map_coe, Multiset.map_coe, Multiset.coe_add]
  rw [hl, Multiset.add_comm] at ht
  obtain ⟨hp, hq, hpq⟩ := List.pairwise_append.mp ht.pairwise
  have hpage : ∀ p ∈ ps, ∀ u ∈ p.used, p.addr ≤ u.ptr ∧ u.ptr + u.len ≤ p.addr + 4096 ∧
      p.addr = g.ptr + (g.pageBlk p).off ∧ 4096 ≤ (g.pageBlk p).size := fun p hp u hu => by
    have hin := (h.page p hp).used_inside hu
    exact ⟨by omega, hin.2, h.pageBlk_covers hp⟩
  refine List.pairwise_append.mpr ⟨List.pairwise_flatMap.mpr ⟨fun p hp => ?_, ?_⟩, ?_, ?_⟩
  · have hok := h.page p hp
    refine (List.pairwise_map.mp (List.pairwise_append.mp hok.pairwise).2.1).imp_of_mem
      fun hu hv hd => ?_
    rw [Apart, (hok.grants _ hu).1, (hok.grants _ hv).1]
    exact hd
  · refine (List.pairwise_map.mp hp).imp_of_mem fun hp hq hd u hu v hv => ?_
    have h1 := hpage _ hp u hu
    have h2 := hpage _ hq v hv
    unfold Blk.Disjoint at hd
    unfold Apart
    omega
  · refine (List.pairwise_map.mp hq).imp_of_mem fun hu hv hd => ?_
    have h1 := h.largeBlk_covers (Multiset.mem_coe.mpr hu)
    have h2 := h.largeBlk_covers (Multiset.mem_coe.mpr hv)
    unfold Blk.Disjoint at hd
    unfold Apart
    omega
  · intro u hu v hv
    obtain ⟨p, hp, hu⟩ := List.mem_flatMap.mp hu
    have h1 := hpage p hp u hu
    have h2 := h.largeBlk_covers (Multiset.mem_coe.mpr hv)
    have hd := hpq _ (List.mem_map_of_mem hp) _ (List.mem_map_of_mem hv)
    unfold Blk.Disjoint at hd
    unfold Apart
    omega

/-- Only the slots are smaller than a page, and they do not start at one. -/
theorem grant_cases {pages : Multiset Page} {large : Multiset Grant}
    (h : PagesInv g a m free pages large) {u : Grant} (hu : u ∈ grants pages large) :
    u.size ≤ u.len ∧
      ((u.ptr % pagesize ≠ 0 ∧ u.len < blocksize) ∨ LargeOk g u) := by
  rcases Multiset.mem_add.mp hu with hp | hl
  · obtain ⟨p, hp, hu⟩ := Multiset.mem_bind.mp hp
    have hok := h.page p hp
    have hin := hok.used_inside (Multiset.mem_coe.mp hu)
    have hal := hok.aligned
    obtain ⟨hlen, hsize⟩ := hok.grants u (Multiset.mem_coe.mp hu)
    have h8 := hok.bounds.eight
    exact ⟨hsize, Or.inl (by unfold pagesize blocksize pagesize; omega)⟩
  · exact ⟨(h.largeOk u hl).size_le, Or.inr (h.largeOk u hl)⟩

end PagesInv

namespace BlockSystem

variable {N : ℕ} {g : HeapGeometry N} {s s' : BlockSystem}

def Inv (g : HeapGeometry N) (s : BlockSystem) : Prop := s.alloc.Valid g s.mem s.live

theorem Inv.heapLen (h : s.Inv g) : s.alloc.allocator.heapLen = 2 ^ g.log := by
  obtain ⟨free, pages, large, P, F, h, -⟩ := h
  exact h.memory.buddy.heapLen

theorem heap_le (g : HeapGeometry N) {size : ℕ} (h : size ≤ 2 ^ g.log) : size ≤ 2 ^ 63 :=
  h.trans (Nat.pow_le_pow_right (by omega) (by have := g.small; omega))

/-- One call or one client write keeps the invariant. -/
theorem Inv.step (h : s.Inv g) (hs : Step N s s') : s'.Inv g := by
  cases hs with
  | alloc hle hr hp =>
    rw [h.heapLen] at hle
    obtain ⟨p, len, b', m', hr', hv, -⟩ := BlockAlloc.Valid.alloc h (heap_le g hle)
    cases hr.symm.trans hr'
    rwa [if_neg hp] at hv
  | allocNull hle hr =>
    rw [h.heapLen] at hle
    obtain ⟨p, len, b', m', hr', hv, -⟩ := BlockAlloc.Valid.alloc h (heap_le g hle)
    cases hr.symm.trans hr'
    rwa [if_pos rfl] at hv
  | free hu hr =>
    obtain ⟨b', m', hr', hv, -⟩ := BlockAlloc.Valid.free h (Multiset.mem_coe.mpr hu)
    cases hr.symm.trans hr'
    rwa [Multiset.coe_erase] at hv
  | write v hu hx hx' =>
    exact BlockAlloc.Valid.write h (Multiset.mem_coe.mpr hu) fun y hy =>
      Function.update_of_ne (by omega) _ _

theorem Inv.run (h : s.Inv g) (hr : Relation.ReflTransGen (Step N) s s') : s'.Inv g := by
  induction hr with
  | refl => exact h
  | tail _ hs ih => exact ih.step hs

theorem Inv.safe (h : s.Inv g) : ∃ P F free, s.Safe N g.ptr (2 ^ g.log) P F free := by
  obtain ⟨free, pages, large, P, F, hinv, hlive⟩ := id h
  have hmem : ∀ {u}, u ∈ s.live → u ∈ grants pages large := fun hu => by
    rw [hlive]
    exact Multiset.mem_coe.mpr hu
  refine ⟨P, F, fun k => (free k).map (g.ptr + ·),
    { lists := ⟨hinv.lists.partialChain, hinv.lists.fullChain, fun k hk =>
        hinv.memory.buddy.onFreeList hk⟩
      inside := fun u hu => ?_, disjoint := ?_, headers := fun u hu c y hy => ?_
      freeBlocks := fun u hu k hk p hp => ?_, routed := fun u hu => ?_
      sameOrder := fun u hu hlen => ?_, allocSpares := fun size hsize => ?_
      freeSpares := fun u hu => ?_ }⟩
  · obtain ⟨c, hc, h1, h2⟩ := hinv.memory.grant_blk (hmem hu)
    have hin := hinv.memory.inside hc
    exact ⟨(hinv.memory.grant_cases (hmem hu)).1, by omega, by omega⟩
  · obtain ⟨ps, rfl⟩ := Quot.exists_rep pages
    obtain ⟨ls, rfl⟩ := Quot.exists_rep large
    have hperm : (ps.flatMap Page.used ++ ls).Perm s.live := by
      rw [← Multiset.coe_eq_coe, ← hlive, ← Multiset.coe_add, ← Multiset.coe_bind]
      rfl
    exact (PagesInv.grants_pairwise hinv.memory).perm hperm fun h => Or.symm h
  · obtain ⟨q, hq, -, rfl⟩ := hinv.lists.mem_pages hy
    exact hinv.memory.grant_header hq (hmem hu)
  · obtain ⟨off, ho, rfl⟩ := List.mem_map.mp hp
    obtain ⟨c, hc, h1, h2⟩ := hinv.memory.grant_blk (hmem hu)
    have hd := hinv.memory.buddy.disjoint_live hk ho hc
    rw [hinv.memory.buddy.orderSize_eq hk]
    simp only [Blk.Disjoint, HeapGeometry.blk, Blk.size, Apart] at hd h2 ⊢
    omega
  · rcases (hinv.memory.grant_cases (hmem hu)).2 with ⟨h1, h2⟩ | hl
    · exact ⟨fun h => absurd h h1, fun h => by omega⟩
    · exact ⟨fun _ => hl.large, fun _ => Nat.mod_eq_zero_of_dvd hl.aligned⟩
  · rcases (hinv.memory.grant_cases (hmem hu)).2 with ⟨-, h2⟩ | hl
    · omega
    · exact ⟨g.orderOf u.len, hinv.memory.buddy.allocationOrder_some_iff.mpr ⟨hl.serves_len, rfl⟩,
        hinv.memory.buddy.allocationOrder_some_iff.mpr ⟨hl.serves, hl.order.symm⟩⟩
  · obtain ⟨p, n, b', m', hr, -, hsame⟩ := BlockAlloc.Valid.alloc h (heap_le g hsize)
    exact ⟨_, b', m', hr, fun u hu => hsame u (Multiset.mem_coe.mpr hu)⟩
  · obtain ⟨b', m', hr, -, hsame⟩ := BlockAlloc.Valid.free h (Multiset.mem_coe.mpr hu)
    rw [Multiset.coe_erase] at hsame
    exact ⟨b', m', hr, fun v hv => hsame v (Multiset.mem_coe.mpr hv)⟩

theorem Inv.init (g : HeapGeometry N) (m : Mem) : (init N g.ptr (2 ^ g.log) m).Inv g := by
  have hmem : PagesInv g (BuddyAlloc.zero.initAlloc N g.ptr (2 ^ g.log)) m _ 0 0 :=
    ⟨⟨by simp, by simp, by simp⟩, BuddyInv.initAlloc g m⟩
  have hlists : ListsInv (fun _ => 0) (fun _ => 0) m 0 (fun _ => []) (fun _ => []) :=
    ⟨fun _ => rfl, fun _ => rfl, fun _ => rfl, by simp⟩
  exact ⟨_, 0, 0, _, _, ⟨hmem, hlists⟩, rfl⟩

/-- At every moment of every run on a heap of at least one byte for each of the smallest blocks,
what was handed out is isolated. -/
theorem block_safe {N ptr len : ℕ} (hN : 0 < N) (hptr : 4096 ∣ ptr) (hpos : 0 < ptr)
    (hfit : ptr + len ≤ 2 ^ 64) (hlen : ∃ k < 31, len = 2 ^ k) (hmin : 2 ^ (N - 1) ≤ len)
    (m : Mem) {s : BlockSystem} (hr : Relation.ReflTransGen (Step N) (init N ptr len m) s) :
    ∃ P F free, s.Safe N ptr len P F free := by
  obtain ⟨k, hk, rfl⟩ := hlen
  have hNk : N - 1 ≤ k := (Nat.pow_le_pow_iff_right (by omega : 1 < 2)).mp hmin
  let g : HeapGeometry N := ⟨ptr, k, hN, by omega, hk, hpos, hptr, hfit⟩
  exact ((Inv.init g m).run hr).safe

/-- A page for a request of 3000 bytes. -/
theorem block_safe_page : ∃ s P F free,
    Relation.ReflTransGen (Step 2) (init 2 8192 8192 fun _ => 0) s ∧
      s.live = [⟨8192, 4096, 3000⟩] ∧ s.Safe 2 8192 8192 P F free := by
  have hr : Relation.ReflTransGen (Step 2) (init 2 8192 8192 fun _ => 0)
      ⟨_, _, [⟨8192, 4096, 3000⟩]⟩ := .single (.alloc (by decide) rfl (by decide))
  obtain ⟨P, F, free, hs⟩ := block_safe (by decide) (by decide) (by decide) (by decide)
    ⟨13, by decide, rfl⟩ (by decide) _ hr
  exact ⟨_, P, F, free, hr, rfl, hs⟩

/-- With more orders than the heap has bytes for, the allocator hands out memory past the heap. -/
theorem not_safe_of_many_orders : ∃ s,
    Relation.ReflTransGen (Step 14) (init 14 4096 4096 fun _ => 0) s ∧
      ∀ P F free, ¬ s.Safe 14 4096 4096 P F free := by
  have hr : Relation.ReflTransGen (Step 14) (init 14 4096 4096 fun _ => 0)
      ⟨_, _, [⟨8192, 4096, 4096⟩, ⟨4096, 4096, 4096⟩]⟩ :=
    .tail (.single (.alloc (by decide) rfl (by decide))) (.alloc (by decide) rfl (by decide))
  exact ⟨_, hr, fun P F free hs => absurd (hs.inside _ (List.mem_cons_self ..)).2.2 (by decide)⟩

end BlockSystem
end Multiplix.Alloc
