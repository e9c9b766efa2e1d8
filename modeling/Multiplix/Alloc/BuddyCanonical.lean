import Multiplix.Alloc.BuddySafety

/-! Runs of the buddy allocator with requests of any alignment: the free blocks are coalesced, so
a request fails only when there is no room for it, and a drained heap is one block again. -/
namespace Multiplix.Alloc
open Lib Core

/-- A pointer handed out, with the request. -/
structure BuddyGrant where
  ptr : ℕ
  size : ℕ
  align : ℕ
  deriving DecidableEq

/-- An allocator in use: `live` lists what was handed out. -/
structure BuddyClient where
  alloc : BuddyAlloc
  mem : Mem
  live : List BuddyGrant

namespace BuddyClient

/-- The calls of a client and its writes to the blocks it was given. `alloc` and `free` are these
calls at `alignment size`. -/
inductive Step (N : ℕ) : BuddyClient → BuddyClient → Prop
  | allocate {s : BuddyClient} {size align p : ℕ} {a' : BuddyAlloc} {m' : Mem} :
      s.alloc.allocate N s.mem size align = some (p, a', m') → p ≠ 0 →
      Step N s ⟨a', m', ⟨p, size, align⟩ :: s.live⟩
  | allocateNull {s : BuddyClient} {size align : ℕ} {a' : BuddyAlloc} {m' : Mem} :
      s.alloc.allocate N s.mem size align = some (0, a', m') → Step N s ⟨a', m', s.live⟩
  | dealloc {s : BuddyClient} {e : BuddyGrant} {a' : BuddyAlloc} {m' : Mem} :
      e ∈ s.live → s.alloc.dealloc N s.mem e.ptr e.size e.align = some (a', m') →
      Step N s ⟨a', m', s.live.erase e⟩
  | write {s : BuddyClient} {e : BuddyGrant} {order x : ℕ} (v : Byte) :
      e ∈ s.live → s.alloc.allocationOrder e.size e.align = some (some order) →
      e.ptr ≤ x → x < e.ptr + s.alloc.orderSize order →
      Step N s ⟨s.alloc, Function.update s.mem x v, s.live⟩

def init (N ptr len : ℕ) (m : Mem) : BuddyClient := ⟨BuddyAlloc.zero.initAlloc N ptr len, m, []⟩

/-- Every byte of the block of the given order at `p` is in a free block. -/
def WhollyFree (N : ℕ) (s : BuddyClient) (free : ℕ → List ℕ) (p order : ℕ) : Prop :=
  ∀ x, p ≤ x → x < p + s.alloc.orderSize order →
    ∃ k < N, ∃ q ∈ free k, q ≤ x ∧ x < q + s.alloc.orderSize k

structure Canonical (N ptr len : ℕ) (s : BuddyClient) (free : ℕ → List ℕ) : Prop where
  lists : ∀ k < N, s.alloc.OnFreeList N s.mem k (free k)
  coalesced : ∀ k < N - 1, ∀ p ∈ free k, ∀ q ∈ free k, s.alloc.buddy k p ≠ some q
  complete : ∀ size align order a' m',
    s.alloc.allocationOrder size align = some (some order) →
    s.alloc.allocate N s.mem size align = some (0, a', m') →
    ∀ p, ptr ≤ p → p + s.alloc.orderSize order ≤ ptr + len →
      s.alloc.orderSize order ∣ p - ptr → ¬s.WhollyFree N free p order
  frees : ∀ e ∈ s.live, (s.alloc.dealloc N s.mem e.ptr e.size e.align).isSome
  drained : s.live = [] →
    ∀ k < N, s.alloc.freeLists k = (BuddyAlloc.zero.initAlloc N ptr len).freeLists k

variable {N : ℕ}

/-- What is handed out, as blocks of the heap. -/
def liveBlks (g : HeapGeometry N) (s : BuddyClient) : Multiset Blk :=
  (s.live.map fun e => g.blk (g.requestLog e.size e.align - g.minLog) (e.ptr - g.ptr) : List Blk)

structure Inv (g : HeapGeometry N) (s : BuddyClient) (free : ℕ → List ℕ) : Prop where
  buddy : BuddyInv g s.alloc s.mem free (s.liveBlks g)
  served : ∀ e ∈ s.live, g.ptr ≤ e.ptr ∧ g.Fits e.size e.align
  coalesced : g.Coalesced free

variable {g : HeapGeometry N} {s s' : BuddyClient} {free : ℕ → List ℕ}

theorem liveBlks_erase {e : BuddyGrant} (hm : e ∈ s.live) (a : BuddyAlloc) (m : Mem) :
    s.liveBlks g = g.blk (g.requestLog e.size e.align - g.minLog) (e.ptr - g.ptr) ::ₘ
      liveBlks g ⟨a, m, s.live.erase e⟩ := by
  unfold liveBlks
  rw [Multiset.cons_coe, Multiset.coe_eq_coe]
  exact (List.perm_cons_erase hm).map _

theorem Inv.dealloc_spec (h : s.Inv g free) (hw : 3 ≤ g.minLog) {e : BuddyGrant} (hm : e ∈ s.live) :
    ∃ free' a' m', s.alloc.dealloc N s.mem e.ptr e.size e.align = some (a', m') ∧
      Inv g ⟨a', m', s.live.erase e⟩ free' := by
  obtain ⟨hge, hf⟩ := h.served e hm
  have hle := g.minLog_le_requestLog e.size e.align
  have hb := h.buddy
  rw [liveBlks_erase hm s.alloc s.mem] at hb
  obtain ⟨free', a', m', hr, hinv, -, hco⟩ := hb.dealloc_spec hf (by omega)
  rw [Nat.add_sub_cancel' hge] at hr
  exact ⟨free', a', m', hr, hinv, fun e he => h.served e (List.mem_of_mem_erase he),
    hco h.coalesced⟩

/-- One call or one client write keeps the invariant. -/
theorem Inv.step (h : s.Inv g free) (hw : 3 ≤ g.minLog) (hs : Step N s s') :
    ∃ free', s'.Inv g free' := by
  cases hs with
  | @allocate size align p a' m' hr hp =>
    have hle := g.minLog_le_requestLog size align
    rcases h.buddy.allocate_spec (by omega) hr with ⟨h0, -⟩ | ⟨off, free', rfl, hf, hinv, -, hco⟩
    · exact absurd h0 hp
    · refine ⟨free', ?_, ?_, hco h.coalesced⟩
      · have he : liveBlks g ⟨a', m', ⟨g.ptr + off, size, align⟩ :: s.live⟩ =
            g.blk (g.requestLog size align - g.minLog) off ::ₘ s.liveBlks g := by
          simp [liveBlks]
        rwa [he]
      · rintro e (_ | ⟨_, he⟩)
        exacts [⟨by simp, hf⟩, h.served e he]
  | @allocateNull size align a' m' hr =>
    have hle := g.minLog_le_requestLog size align
    rcases h.buddy.allocate_spec (by omega) hr with ⟨-, rfl, rfl, -⟩ | ⟨off, _, h0, -⟩
    · exact ⟨free, h.buddy, h.served, h.coalesced⟩
    · have := g.pos
      omega
  | dealloc hm hr =>
    obtain ⟨free', a₁, m₁, hr', hinv⟩ := h.dealloc_spec hw hm
    cases hr.symm.trans hr'
    exact ⟨free', hinv⟩
  | @write e order x v hm ho hx hx' =>
    obtain ⟨hge, hf⟩ := h.served _ hm
    obtain ⟨-, rfl⟩ := h.buddy.allocationOrder_eq_some_iff.mp ho
    have hle := g.minLog_le_requestLog e.size e.align
    have htop := g.minLog_top
    have hmax := hf.2.2
    have hN := g.orders
    refine ⟨free, h.buddy.frame_live (List.mem_map.mpr ⟨e, hm, rfl⟩) ?_, h.served, h.coalesced⟩
    intro y hy
    rw [h.buddy.orderSize_eq (by omega)] at hx'
    refine Function.update_of_ne ?_ _ _
    simp only [HeapGeometry.blk, Blk.size] at hy
    omega

theorem Inv.run (h : s.Inv g free) (hw : 3 ≤ g.minLog)
    (hr : Relation.ReflTransGen (Step N) s s') : ∃ free', s'.Inv g free' := by
  induction hr with
  | refl => exact ⟨free, h⟩
  | tail _ hs ih =>
    obtain ⟨free', hi⟩ := ih
    exact hi.step hw hs

end BuddyClient

namespace BuddyInv

variable {N : ℕ} {g : HeapGeometry N} {a : BuddyAlloc} {m : Mem} {free : ℕ → List ℕ}
  {live : Multiset Blk} {k off : ℕ}

/-- Where every byte of an aligned block is free, a free block contains it. -/
theorem exists_free_of_wholly_free (h : BuddyInv g a m free live) (hc : g.Coalesced free)
    {b : Blk} (hb : b.Aligned) (hl : b.log ≤ g.log)
    (hcov : ∀ x, b.Covers x → ∃ c, g.IsFree free c ∧ c.Covers x) :
    ∃ k < N, free k ≠ [] ∧ b.log ≤ g.minLog + k := by
  have htop := g.minLog_top
  have hal : ∀ c, g.IsFree free c → c.Aligned := by
    rintro c ⟨k, hk, off, ho, rfl⟩
    exact h.tiles.aligned _ (Multiset.mem_add.mpr (Or.inl (g.mem_freeBlks hk ho)))
  have hco : ∀ c, g.IsFree free c → c.log < g.log → ¬g.IsFree free c.buddy := by
    rintro c ⟨k, hk, off, ho, rfl⟩ hlt ⟨k', hk', off', ho', he⟩
    have hlog : g.minLog + k' = g.minLog + k := congrArg Blk.log he
    have hoff : off' = (g.blk k off).buddy.off := congrArg Blk.off he
    obtain rfl : k' = k := by omega
    have hlt' : g.minLog + k' < g.log := hlt
    exact hc k' (by omega) off ho (hoff ▸ ho')
  obtain ⟨c, ⟨k, hk, off, ho, rfl⟩, hle, -⟩ := Blk.exists_covers_of_coalesced hal hco hb hl hcov
  exact ⟨k, hk, List.ne_nil_of_mem ho, hle⟩

/-- When nothing is handed out the whole heap is one free block. -/
theorem drained (h : BuddyInv g a m free 0) (hc : g.Coalesced free) :
    a.freeLists (N - 1) = g.ptr ∧ ∀ k < N - 1, a.freeLists k = 0 := by
  have hN := g.orders
  have htop := g.minLog_top
  have hcov : ∀ x, (⟨0, g.log⟩ : Blk).Covers x → ∃ c, g.IsFree free c ∧ c.Covers x := by
    intro x hx
    obtain ⟨c, hcm, hcx⟩ := h.tiles.exists_covers (x := x) (by simpa [Blk.size] using hx.2)
    rw [Multiset.add_zero] at hcm
    exact ⟨c, g.isFree_of_mem hcm, hcx⟩
  obtain ⟨k, hk, hne, hle⟩ :=
    h.exists_free_of_wholly_free hc (b := ⟨0, g.log⟩) (by simp [Blk.Aligned]) le_rfl hcov
  obtain rfl : k = N - 1 := by
    have hle' : g.log ≤ g.minLog + k := hle
    omega
  rcases h.top with ⟨he, -⟩ | ⟨he, hp⟩
  · exact absurd he hne
  refine ⟨hp, fun i hi => ?_⟩
  have hnil : free i = [] := by
    refine List.eq_nil_iff_forall_not_mem.mpr fun y hy => ?_
    have ht := h.tiles
    have hperm : (free (N - 1)).Perm [0] := by rw [he]
    have hne' : i ≠ N - 1 := by omega
    rw [g.freeBlks_of_perm hk hperm, Multiset.cons_add] at ht
    have hy' : y ∈ Function.update free (N - 1) [] i := by simpa [hne'] using hy
    have hd := ht.disjoint_of_mem
      (Multiset.mem_add.mpr (Or.inl (g.mem_freeBlks (k := i) (by omega) hy')))
    have hin := h.inside (by omega) hy
    have hpow := Nat.two_pow_pos (g.minLog + i)
    simp only [Blk.Disjoint, HeapGeometry.blk, Blk.size, htop] at hd
    omega
  have hchain := h.chain i hi
  rw [hnil] at hchain
  exact Chain.nil_iff.mp hchain

/-- A request that fails finds no aligned block of its order wholly free. -/
theorem complete (h : BuddyInv g a m free live) (hc : g.Coalesced free) {size align : ℕ}
    {a' : BuddyAlloc} {m' : Mem} (hf : g.Fits size align) (hw : 3 ≤ g.requestLog size align)
    (hr : a.allocate N m size align = some (0, a', m')) {b : Blk} (hb : b.Aligned)
    (hl : b.log = g.requestLog size align) :
    ∃ x, b.Covers x ∧ ∀ c, g.IsFree free c → ¬c.Covers x := by
  by_contra hcon
  push Not at hcon
  obtain ⟨k, hk, hne, hle⟩ := h.exists_free_of_wholly_free hc hb (by rw [hl]; exact hf.2.2) hcon
  rcases h.allocate_spec hw hr with ⟨-, -, -, hnil⟩ | ⟨off, _, h0, -⟩
  · exact hne (hnil hf k (by omega) hk)
  · have := g.pos
    omega

end BuddyInv

namespace BuddyClient

variable {N : ℕ} {g : HeapGeometry N} {s : BuddyClient} {free : ℕ → List ℕ}

open BuddySystem (addresses)

theorem Inv.canonical (h : s.Inv g free) (hw : 3 ≤ g.minLog) :
    s.Canonical N g.ptr (2 ^ g.log) (addresses g free) := by
  have hN := g.orders
  have htop := g.minLog_top
  constructor
  case lists => exact fun k hk => h.buddy.onFreeList hk
  case coalesced =>
    intro k hk p hp q hq hb
    obtain ⟨x, hx, rfl⟩ := List.mem_map.mp hp
    obtain ⟨y, hy, rfl⟩ := List.mem_map.mp hq
    rw [h.buddy.buddy_eq hk] at hb
    have hy' : (g.blk k x).buddy.off = y := by simpa using hb
    exact h.coalesced k hk x hx (hy' ▸ hy)
  case complete =>
    intro size align order a' m' ho hr p hge hin hal hfree
    obtain ⟨hf, rfl⟩ := h.buddy.allocationOrder_eq_some_iff.mp ho
    have hle := g.minLog_le_requestLog size align
    have hmax := hf.2.2
    have hlog : g.minLog + (g.requestLog size align - g.minLog) = g.requestLog size align := by
      omega
    rw [h.buddy.orderSize_eq (by omega), hlog] at hal hin
    obtain ⟨x, hx, hno⟩ := h.buddy.complete h.coalesced hf (by omega) hr
      (b := ⟨p - g.ptr, g.requestLog size align⟩) hal rfl
    simp only [Blk.Covers, Blk.size] at hx
    obtain ⟨k, hk, q, hq, hqx, hxq⟩ := hfree (g.ptr + x) (by omega) (by
      rw [h.buddy.orderSize_eq (by omega), hlog]
      omega)
    obtain ⟨off, ho, rfl⟩ := List.mem_map.mp hq
    rw [h.buddy.orderSize_eq hk] at hxq
    refine hno _ ⟨k, hk, off, ho, rfl⟩ ?_
    simp only [Blk.Covers, HeapGeometry.blk, Blk.size]
    omega
  case frees =>
    intro e he
    obtain ⟨_, _, _, hr, -⟩ := h.dealloc_spec hw he
    simp [hr]
  case drained =>
    intro hl k hk
    have hb := h.buddy
    have h0 : s.liveBlks g = 0 := by simp [liveBlks, hl]
    rw [h0] at hb
    obtain ⟨hp, hnil⟩ := hb.drained h.coalesced
    rcases eq_or_ne k (N - 1) with rfl | hne
    · simpa [BuddyAlloc.initAlloc] using hp
    · simpa [BuddyAlloc.initAlloc, BuddyAlloc.zero, hne] using hnil k (by omega)

theorem inv_init (g : HeapGeometry N) (m : Mem) :
    (init N g.ptr (2 ^ g.log) m).Inv g (Function.update (fun _ => []) (N - 1) [0]) := by
  refine ⟨BuddyInv.initAlloc g m, by simp [init], fun k hk off ho => ?_⟩
  rw [Function.update_of_ne (by omega)] at ho
  cases ho

/-- At every moment of every run the free blocks are coalesced, a request fails only when there is
no room for it, and a heap that is handed back is one block again. -/
theorem buddy_canonical {N ptr len : ℕ} (hN : 0 < N) (hptr : 4096 ∣ ptr) (hpos : 0 < ptr)
    (hfit : ptr + len ≤ 2 ^ 64) (hlen : ∃ k < 31, len = 2 ^ k) (hmin : 8 ≤ len >>> (N - 1))
    (m : Mem) {s : BuddyClient} (hr : Relation.ReflTransGen (Step N) (init N ptr len m) s) :
    ∃ free, s.Canonical N ptr len free := by
  obtain ⟨g, rfl, rfl, hw⟩ := HeapGeometry.exists_of hN hptr hpos hfit hlen hmin
  obtain ⟨free, hi⟩ := (inv_init g m).run hw hr
  exact ⟨_, hi.canonical hw⟩

/-- A page split in two for a request of 100 bytes, which is then given back. -/
theorem buddy_canonical_merged : ∃ s free,
    Relation.ReflTransGen (Step 2) (init 2 4096 4096 fun _ => 0) s ∧
      s.live = [] ∧ s.Canonical 2 4096 4096 free := by
  have hr : Relation.ReflTransGen (Step 2) (init 2 4096 4096 fun _ => 0)
      ⟨_, _, [⟨4096, 100, 16⟩]⟩ := .single (.allocate rfl (by decide))
  have hr := hr.tail (.dealloc (e := ⟨4096, 100, 16⟩) (List.mem_singleton.mpr rfl) rfl)
  obtain ⟨free, hs⟩ := buddy_canonical (by decide) (by decide) (by decide) (by decide)
    ⟨12, by decide, rfl⟩ (by decide) _ hr
  exact ⟨_, free, hr, rfl, hs⟩

end BuddyClient
end Multiplix.Alloc
