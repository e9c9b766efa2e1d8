import Multiplix.Alloc.BuddyOps
import Mathlib.Logic.Relation

/-! Runs of the buddy allocator: whatever is allocated and freed, the blocks handed out and the
free blocks partition the heap. -/
namespace Multiplix.Alloc
open Lib Core

theorem alignment_cases (size : ℕ) : alignment size = 4096 ∨ alignment size = 16 := by
  unfold alignment
  split_ifs <;> simp

theorem alignment_dvd (size : ℕ) : alignment size ∣ 4096 := by
  rcases alignment_cases size with h | h <;> simp [h]

namespace HeapGeometry

variable {N : ℕ} (g : HeapGeometry N)

/-- The logarithm of the block size that serves a request. -/
def requestLog (size align : ℕ) : ℕ := Nat.clog 2 (max (max size align) (2 ^ g.minLog))

theorem minLog_le_requestLog (size align : ℕ) : g.minLog ≤ g.requestLog size align := by
  have h := Nat.le_pow_clog (b := 2) (by omega) (max (max size align) (2 ^ g.minLog))
  exact (Nat.pow_le_pow_iff_right (by omega : 1 < 2)).mp ((le_max_right _ _).trans h)

theorem le_two_pow_requestLog (size align : ℕ) :
    size ≤ 2 ^ g.requestLog size align ∧ align ≤ 2 ^ g.requestLog size align := by
  have h := Nat.le_pow_clog (b := 2) (by omega) (max (max size align) (2 ^ g.minLog))
  unfold requestLog
  omega

theorem four_le_requestLog (size : ℕ) : 4 ≤ g.requestLog size (alignment size) := by
  have h := (g.le_two_pow_requestLog size (alignment size)).2
  have h16 : 2 ^ 4 ≤ alignment size := by
    rcases alignment_cases size with h | h <;> rw [h] <;> decide
  exact (Nat.pow_le_pow_iff_right (by omega : 1 < 2)).mp (h16.trans h)

end HeapGeometry

/-- The heap has a block for the request. -/
def HeapGeometry.Serves {N : ℕ} (g : HeapGeometry N) (size : ℕ) : Prop :=
  size ≤ 2 ^ 63 ∧ g.requestLog size (alignment size) ≤ g.log

def HeapGeometry.Fits {N : ℕ} (g : HeapGeometry N) (size align : ℕ) : Prop :=
  align ≤ 4096 ∧ size ≤ 2 ^ 63 ∧ g.requestLog size align ≤ g.log

def HeapGeometry.orderOf {N : ℕ} (g : HeapGeometry N) (size : ℕ) : ℕ :=
  g.requestLog size (alignment size) - g.minLog

namespace HeapGeometry

variable {N : ℕ} {g : HeapGeometry N} {size : ℕ}

theorem Serves.orderOf_lt (h : g.Serves size) : g.orderOf size < N := by
  have h1 := g.minLog_top
  have h2 := g.minLog_le_requestLog size (alignment size)
  have h3 := g.orders
  have h4 := h.2
  unfold orderOf
  omega

theorem minLog_add_orderOf (g : HeapGeometry N) (size : ℕ) :
    g.minLog + g.orderOf size = g.requestLog size (alignment size) := by
  have h2 := g.minLog_le_requestLog size (alignment size)
  unfold orderOf
  omega

end HeapGeometry

/-- The order a request is served from, zero if it cannot be served. -/
def BuddyAlloc.orderOf (a : BuddyAlloc) (size : ℕ) : ℕ :=
  ((a.allocationOrder size (alignment size)).getD none).getD 0

/-- The blocks on list `k`, as read from memory. -/
def BuddyAlloc.OnFreeList (N : ℕ) (a : BuddyAlloc) (m : Mem) (k : ℕ) (ps : List ℕ) : Prop :=
  if k = N - 1 then ps = if a.freeLists k = 0 then [] else [a.freeLists k]
  else Chain (freeBlockNext m) (a.freeLists k) ps 0

namespace BuddyInv

variable {N : ℕ} {g : HeapGeometry N} {a : BuddyAlloc} {m : Mem} {free : ℕ → List ℕ}
  {live : Multiset Blk}

theorem onFreeList (h : BuddyInv g a m free live) {k : ℕ} (hk : k < N) :
    a.OnFreeList N m k ((free k).map (g.ptr + ·)) := by
  unfold BuddyAlloc.OnFreeList
  split_ifs with hkn h0
  · rcases h.top with ⟨he, -⟩ | ⟨-, he⟩
    · simp [hkn, he]
    · have := g.pos
      rw [hkn] at h0
      omega
  · rcases h.top with ⟨-, he⟩ | ⟨he, he'⟩
    · rw [hkn] at h0
      exact absurd he h0
    · simp [hkn, he, he']
  · exact h.chain k (by omega)

theorem allocationOrder_eq (h : BuddyInv g a m free live) {size align : ℕ} (ha : align ≤ 4096)
    (hs : size ≤ 2 ^ 63) :
    a.allocationOrder size align =
      some (if g.log < g.requestLog size align then none
        else some (g.requestLog size align - g.minLog)) := by
  have h1 := g.small
  have h2 : g.minLog ≤ g.log := by have := g.minLog_top; omega
  have hmin := Nat.pow_le_pow_right (n := 2) (by omega) (by omega : g.minLog ≤ 63)
  have hmax : (if align > size then align else size) = max size align := by split_ifs <;> omega
  have hp : pow2ceil (max (max size align) (2 ^ g.minLog)) =
      some (2 ^ g.requestLog size align) := pow2ceil_eq (by omega)
  have hlt : 2 ^ g.requestLog size align > 2 ^ g.log ↔ g.log < g.requestLog size align :=
    Nat.pow_lt_pow_iff_right (by omega)
  unfold BuddyAlloc.allocationOrder BuddyAlloc.allocationSize
  dsimp only
  rw [if_pos (show align ≤ minHeapAlign from ha), hmax, h.minBlockSize, h.heapLen,
    h.minBlockSizeLog2, hp, Option.map_some, Option.map_some]
  by_cases hc : g.log < g.requestLog size align
  · rw [if_pos (hlt.mpr hc), if_pos hc]
    rfl
  · rw [if_neg (mt hlt.mp hc), if_neg hc, Option.map_some, log2ceil_two_pow (by omega)]

theorem allocationOrder_none (h : BuddyInv g a m free live) {size align : ℕ} (ha : align ≤ 4096)
    (hs : 2 ^ 63 < size) : a.allocationOrder size align = none := by
  unfold BuddyAlloc.allocationOrder BuddyAlloc.allocationSize
  dsimp only
  rw [if_pos (show align ≤ minHeapAlign from ha), pow2ceil_none]
  · rfl
  · rw [h.minBlockSize]
    split_ifs <;> omega

/-- A request that is served at all is served by the blocks of `requestLog`. -/
theorem allocationOrder_eq_some_iff (h : BuddyInv g a m free live) {size align o : ℕ} :
    a.allocationOrder size align = some (some o) ↔
      g.Fits size align ∧ o = g.requestLog size align - g.minLog := by
  rcases Nat.lt_or_ge 4096 align with ha | ha
  · have hn : a.allocationOrder size align = none := by
      unfold BuddyAlloc.allocationOrder BuddyAlloc.allocationSize
      rw [if_neg (show ¬ align ≤ minHeapAlign by unfold minHeapAlign; omega)]
      rfl
    rw [hn]
    exact ⟨fun h => (Option.some_ne_none _ h.symm).elim, fun h => absurd h.1.1 (by omega)⟩
  by_cases hs : size ≤ 2 ^ 63
  · rw [h.allocationOrder_eq ha hs]
    by_cases hc : g.log < g.requestLog size align
    · rw [if_pos hc]
      exact ⟨fun h => by simp at h, fun h => absurd h.1.2.2 hc.not_ge⟩
    · rw [if_neg hc, Option.some.injEq, Option.some.injEq]
      exact ⟨fun h => ⟨⟨ha, hs, not_lt.mp hc⟩, h.symm⟩, fun h => h.2.symm⟩
  · rw [h.allocationOrder_none ha (by omega)]
    exact ⟨fun h => (Option.some_ne_none _ h.symm).elim, fun h => absurd h.1.2.1 hs⟩

theorem allocationOrder_some_iff (h : BuddyInv g a m free live) {size o : ℕ} :
    a.allocationOrder size (alignment size) = some (some o) ↔
      g.Serves size ∧ o = g.orderOf size := by
  have ha : alignment size ≤ 4096 := Nat.le_of_dvd (by omega) (alignment_dvd size)
  rw [h.allocationOrder_eq_some_iff]
  exact and_congr_left' ⟨And.right, fun hs => ⟨ha, hs⟩⟩

theorem orderOf_eq (h : BuddyInv g a m free live) {size : ℕ} (hs : g.Serves size) :
    a.orderOf size = g.orderOf size := by
  simp [BuddyAlloc.orderOf, h.allocationOrder_some_iff.mpr ⟨hs, rfl⟩]

/-- What `allocate` does for a request whose blocks have room for a link. -/
theorem allocate_spec (h : BuddyInv g a m free live) {size align p : ℕ} {a' : BuddyAlloc}
    {m' : Mem} (hw : 3 ≤ g.requestLog size align)
    (hr : a.allocate N m size align = some (p, a', m')) :
    (p = 0 ∧ a' = a ∧ m' = m ∧
      (g.Fits size align → ∀ i, g.requestLog size align ≤ g.minLog + i → i < N → free i = [])) ∨
    ∃ off free', p = g.ptr + off ∧ g.Fits size align ∧
      BuddyInv g a' m' free' (g.blk (g.requestLog size align - g.minLog) off ::ₘ live) ∧
      Spares g live m m' ∧ (g.Coalesced free → g.Coalesced free') := by
  unfold BuddyAlloc.allocate at hr
  obtain ⟨order?, ho, hr⟩ := Option.map_eq_some_iff.mp hr
  cases order? with
  | none =>
    simp only [Prod.mk.injEq] at hr
    refine Or.inl ⟨hr.1.symm, hr.2.1.symm, hr.2.2.symm, fun hf => ?_⟩
    have hs := h.allocationOrder_eq_some_iff.mpr ⟨hf, rfl⟩
    simp [ho] at hs
  | some o =>
    obtain ⟨hf, rfl⟩ := h.allocationOrder_eq_some_iff.mp ho
    have hle := g.minLog_le_requestLog size align
    have htop := g.minLog_top
    have hmax := hf.2.2
    have hN := g.orders
    rcases h.allocateLoop (N - (g.requestLog size align - g.minLog)) (by omega)
      (le_refl (g.requestLog size align - g.minLog)) (by omega) with
      ⟨he, hnil⟩ | ⟨off, free', a₁, m₁, he, hinv, hsp, hco⟩
    · cases he.symm.trans hr
      exact Or.inl ⟨rfl, rfl, rfl, fun _ i hi => hnil i (by omega)⟩
    · cases he.symm.trans hr
      exact Or.inr ⟨off, free', rfl, hf, hinv, hsp, hco⟩

theorem alloc_spec (h : BuddyInv g a m free live) {size p : ℕ} {a' : BuddyAlloc} {m' : Mem}
    (hr : a.alloc N m size = some (p, a', m')) :
    (p = 0 ∧ a' = a ∧ m' = m) ∨ ∃ off free', p = g.ptr + off ∧ g.Serves size ∧
      BuddyInv g a' m' free' (g.blk (g.orderOf size) off ::ₘ live) ∧ Spares g live m m' := by
  have h4 := g.four_le_requestLog size
  rcases h.allocate_spec (by omega) hr with ⟨h0, ha, hm, -⟩ | ⟨off, free', hp, hf, hinv, hsp, -⟩
  · exact Or.inl ⟨h0, ha, hm⟩
  · exact Or.inr ⟨off, free', hp, hf.2, hinv, hsp⟩

/-- Up to the largest power of two no request makes the allocator loop. -/
theorem alloc_returns (h : BuddyInv g a m free live) {size : ℕ} (hs : size ≤ 2 ^ 63) :
    (a.alloc N m size).isSome := by
  have ha : alignment size ≤ 4096 := Nat.le_of_dvd (by omega) (alignment_dvd size)
  simp [BuddyAlloc.alloc, BuddyAlloc.allocate, h.allocationOrder_eq ha hs]

theorem dealloc_spec {off size align : ℕ}
    (h : BuddyInv g a m free (g.blk (g.requestLog size align - g.minLog) off ::ₘ live))
    (hf : g.Fits size align) (hw : 3 ≤ g.requestLog size align) :
    ∃ free' a' m', a.dealloc N m (g.ptr + off) size align = some (a', m') ∧
      BuddyInv g a' m' free' live ∧ Spares g live m m' ∧
      (g.Coalesced free → g.Coalesced free') := by
  have hle := g.minLog_le_requestLog size align
  have htop := g.minLog_top
  have hmax := hf.2.2
  have hN := g.orders
  obtain ⟨free', a', m', hr, hinv, hsp, hco⟩ :=
    h.deallocLoop (N - (g.requestLog size align - g.minLog) - 1) (by omega) (by omega)
  refine ⟨free', a', m', ?_, hinv, hsp, hco⟩
  rw [show N - (g.requestLog size align - g.minLog) - 1 + 1 =
    N - (g.requestLog size align - g.minLog) by omega] at hr
  simpa [BuddyAlloc.dealloc, h.allocationOrder_eq_some_iff.mpr ⟨hf, rfl⟩] using hr

theorem free_spec {off size : ℕ} (h : BuddyInv g a m free (g.blk (g.orderOf size) off ::ₘ live))
    (hs : g.Serves size) :
    ∃ free' a' m', a.free N m (g.ptr + off) size = some (a', m') ∧
      BuddyInv g a' m' free' live ∧ Spares g live m m' := by
  have h4 := g.four_le_requestLog size
  have ha : alignment size ≤ 4096 := Nat.le_of_dvd (by omega) (alignment_dvd size)
  obtain ⟨free', a', m', hr, hinv, hsp, -⟩ := h.dealloc_spec ⟨ha, hs⟩ (by omega)
  exact ⟨free', a', m', hr, hinv, hsp⟩

end BuddyInv

/-- An allocator in use: `live` lists what was handed out, each pointer with its request. -/
structure BuddySystem where
  alloc : BuddyAlloc
  mem : Mem
  live : List (ℕ × ℕ)

namespace BuddySystem

/-- The calls of a client and its writes to the blocks it was given. -/
inductive Step (N : ℕ) : BuddySystem → BuddySystem → Prop
  | alloc {s : BuddySystem} {size p : ℕ} {a' : BuddyAlloc} {m' : Mem} :
      s.alloc.alloc N s.mem size = some (p, a', m') → p ≠ 0 →
      Step N s ⟨a', m', (p, size) :: s.live⟩
  | allocNull {s : BuddySystem} {size : ℕ} {a' : BuddyAlloc} {m' : Mem} :
      s.alloc.alloc N s.mem size = some (0, a', m') → Step N s ⟨a', m', s.live⟩
  | free {s : BuddySystem} {p size : ℕ} {a' : BuddyAlloc} {m' : Mem} :
      (p, size) ∈ s.live → s.alloc.free N s.mem p size = some (a', m') →
      Step N s ⟨a', m', s.live.erase (p, size)⟩
  | write {s : BuddySystem} {p size x : ℕ} (v : Byte) :
      (p, size) ∈ s.live → p ≤ x → x < p + s.alloc.orderSize (s.alloc.orderOf size) →
      Step N s ⟨s.alloc, Function.update s.mem x v, s.live⟩

def init (N ptr len : ℕ) (m : Mem) : BuddySystem := ⟨BuddyAlloc.zero.initAlloc N ptr len, m, []⟩

/-- All blocks with their orders: those handed out, then those on the free lists. -/
def blocks (N : ℕ) (s : BuddySystem) (free : ℕ → List ℕ) : List (ℕ × ℕ) :=
  s.live.map (fun e => (e.1, s.alloc.orderOf e.2)) ++
    (List.range N).flatMap fun k => (free k).map fun p => (p, k)

def Overlaps (s : BuddySystem) (b c : ℕ × ℕ) : Prop :=
  b.1 < c.1 + s.alloc.orderSize c.2 ∧ c.1 < b.1 + s.alloc.orderSize b.2

structure Safe (N ptr len : ℕ) (s : BuddySystem) (free : ℕ → List ℕ) : Prop where
  lists : ∀ k < N, s.alloc.OnFreeList N s.mem k (free k)
  inside : ∀ b ∈ s.blocks N free, b.2 < N ∧ ptr ≤ b.1 ∧ b.1 + s.alloc.orderSize b.2 ≤ ptr + len
  placed : ∀ b ∈ s.blocks N free, s.alloc.orderSize b.2 ∣ b.1 - ptr
  served : ∀ e ∈ s.live, e.2 ≤ s.alloc.orderSize (s.alloc.orderOf e.2) ∧ alignment e.2 ∣ e.1
  disjoint : (s.blocks N free).Pairwise fun b c => ¬ s.Overlaps b c
  covered : ∀ x, ptr ≤ x → x < ptr + len →
    ∃ b ∈ s.blocks N free, b.1 ≤ x ∧ x < b.1 + s.alloc.orderSize b.2

/-- What is handed out, as blocks of the heap. -/
def liveBlks {N : ℕ} (g : HeapGeometry N) (s : BuddySystem) : Multiset Blk :=
  (s.live.map fun e => g.blk (g.orderOf e.2) (e.1 - g.ptr) : List Blk)

structure Inv {N : ℕ} (g : HeapGeometry N) (s : BuddySystem) (free : ℕ → List ℕ) : Prop where
  buddy : BuddyInv g s.alloc s.mem free (s.liveBlks g)
  served : ∀ e ∈ s.live, g.ptr ≤ e.1 ∧ g.Serves e.2

variable {N : ℕ} {g : HeapGeometry N} {s s' : BuddySystem} {free : ℕ → List ℕ}

theorem liveBlks_erase {p size : ℕ} (hm : (p, size) ∈ s.live) (a : BuddyAlloc) (m : Mem) :
    s.liveBlks g = g.blk (g.orderOf size) (p - g.ptr) ::ₘ
      liveBlks g ⟨a, m, s.live.erase (p, size)⟩ := by
  unfold liveBlks
  rw [Multiset.cons_coe, Multiset.coe_eq_coe]
  exact (List.perm_cons_erase hm).map _

/-- One call or one client write keeps the invariant. -/
theorem Inv.step (h : s.Inv g free) (hs : Step N s s') : ∃ free', s'.Inv g free' := by
  cases hs with
  | @alloc size p a' m' hr hp =>
    rcases h.buddy.alloc_spec hr with ⟨h0, -⟩ | ⟨off, free', rfl, hserve, hinv, -⟩
    · exact absurd h0 hp
    · refine ⟨free', ?_, ?_⟩
      · have he : liveBlks g ⟨a', m', (g.ptr + off, size) :: s.live⟩ =
            g.blk (g.orderOf size) off ::ₘ s.liveBlks g := by
          simp [liveBlks]
        rwa [he]
      · rintro e (_ | ⟨_, he⟩)
        exacts [⟨by simp, hserve⟩, h.served e he]
  | allocNull hr =>
    rcases h.buddy.alloc_spec hr with ⟨-, rfl, rfl⟩ | ⟨off, _, h0, -⟩
    · exact ⟨free, h.buddy, h.served⟩
    · have := g.pos
      omega
  | @free p size a' m' hm hr =>
    have hserve := h.served _ hm
    have hb := h.buddy
    rw [liveBlks_erase hm a' m'] at hb
    obtain ⟨free', a₁, m₁, hr', hinv, -⟩ := hb.free_spec hserve.2
    rw [Nat.add_sub_cancel' hserve.1, hr] at hr'
    obtain ⟨rfl, rfl⟩ := Prod.mk.inj (Option.some.inj hr')
    exact ⟨free', hinv, fun e he => h.served e (List.mem_of_mem_erase he)⟩
  | @write p size x v hm hx hx' =>
    obtain ⟨hge, hserve⟩ : g.ptr ≤ p ∧ g.Serves size := h.served _ hm
    refine ⟨free, h.buddy.frame_live (b := g.blk (g.orderOf size) (p - g.ptr)) ?_ ?_, h.served⟩
    · exact Multiset.mem_coe.mpr (List.mem_map.mpr ⟨_, hm, rfl⟩)
    · intro y hy
      rw [h.buddy.orderOf_eq hserve, h.buddy.orderSize_eq hserve.orderOf_lt] at hx'
      refine Function.update_of_ne ?_ _ _
      simp only [HeapGeometry.blk, Blk.size] at hy
      omega

theorem Inv.run (h : s.Inv g free) (hr : Relation.ReflTransGen (Step N) s s') :
    ∃ free', s'.Inv g free' := by
  induction hr with
  | refl => exact ⟨free, h⟩
  | tail _ hs ih =>
    obtain ⟨free', hi⟩ := ih
    exact hi.step hs

/-- A block handed out can always be given back. -/
theorem Inv.free_returns (h : s.Inv g free) {p size : ℕ} (hm : (p, size) ∈ s.live) :
    (s.alloc.free N s.mem p size).isSome := by
  obtain ⟨hge, hserve⟩ := h.served _ hm
  have hb := h.buddy
  rw [liveBlks_erase hm s.alloc s.mem] at hb
  obtain ⟨_, _, _, hr, -⟩ := hb.free_spec hserve
  rw [Nat.add_sub_cancel' hge] at hr
  simp [hr]

/-- The free lists with the addresses of their blocks. -/
def addresses (g : HeapGeometry N) (free : ℕ → List ℕ) (k : ℕ) : List ℕ :=
  (free k).map (g.ptr + ·)

theorem Inv.mem_blocks (h : s.Inv g free) {b : ℕ × ℕ} (hb : b ∈ s.blocks N (addresses g free)) :
    b.2 < N ∧ g.ptr ≤ b.1 := by
  rcases List.mem_append.mp hb with hl | hf
  · obtain ⟨e, he, rfl⟩ := List.mem_map.mp hl
    obtain ⟨hge, hserve⟩ := h.served e he
    rw [h.buddy.orderOf_eq hserve]
    exact ⟨hserve.orderOf_lt, hge⟩
  · obtain ⟨k, hk, hf⟩ := List.mem_flatMap.mp hf
    obtain ⟨p, hp, rfl⟩ := List.mem_map.mp hf
    obtain ⟨off, -, rfl⟩ := List.mem_map.mp hp
    exact ⟨List.mem_range.mp hk, Nat.le_add_right _ _⟩

/-- The blocks of the memory are the blocks of the tiling. -/
theorem Inv.blocks_eq (h : s.Inv g free) :
    ((s.blocks N (addresses g free)).map fun b => g.blk b.2 (b.1 - g.ptr) : Multiset Blk) =
      s.liveBlks g + g.freeBlks free N := by
  have hlive : (s.live.map fun e => g.blk (s.alloc.orderOf e.2) (e.1 - g.ptr)) =
      s.live.map fun e => g.blk (g.orderOf e.2) (e.1 - g.ptr) :=
    List.map_congr_left fun e he => by rw [h.buddy.orderOf_eq (h.served e he).2]
  have hfree : ∀ n, (((List.range n).flatMap fun k =>
      (addresses g free k).map fun p => g.blk k (p - g.ptr) : List Blk) : Multiset Blk) =
      g.freeBlks free n := fun n => by
    induction n with
    | zero => rfl
    | succ n ih =>
      rw [List.range_succ, List.flatMap_append, ← Multiset.coe_add, ih]
      simp [HeapGeometry.freeBlks, addresses, Function.comp_def]
  rw [blocks, List.map_append, ← Multiset.coe_add, List.map_map, List.map_flatMap, ← hfree N]
  simp only [Function.comp_def, List.map_map, liveBlks, hlive]

theorem Inv.safe (h : s.Inv g free) : s.Safe N g.ptr (2 ^ g.log) (addresses g free) := by
  have htiles : Tiles g.log ((s.blocks N (addresses g free)).map fun b =>
      g.blk b.2 (b.1 - g.ptr) : List Blk) := by
    have ht := h.buddy.tiles
    rwa [h.blocks_eq, Multiset.add_comm]
  have hsize : ∀ {b}, b ∈ s.blocks N (addresses g free) →
      s.alloc.orderSize b.2 = (g.blk b.2 (b.1 - g.ptr)).size := fun hb =>
    h.buddy.orderSize_eq (h.mem_blocks hb).1
  have hmem : ∀ {b}, b ∈ s.blocks N (addresses g free) → g.blk b.2 (b.1 - g.ptr) ∈
      ((s.blocks N (addresses g free)).map fun b => g.blk b.2 (b.1 - g.ptr) : List Blk) :=
    fun hb => List.mem_map.mpr ⟨_, hb, rfl⟩
  refine ⟨fun k hk => ?_, fun b hb => ?_, fun b hb => ?_, fun e he => ?_, ?_, fun x hx hx' => ?_⟩
  · exact h.buddy.onFreeList hk
  · obtain ⟨hk, hge⟩ := h.mem_blocks hb
    have hin := htiles.inside _ (hmem hb)
    rw [hsize hb]
    simp only [HeapGeometry.blk] at hin ⊢
    omega
  · rw [hsize hb]
    exact htiles.aligned _ (hmem hb)
  · obtain ⟨hge, hserve⟩ := h.served e he
    have hle := g.le_two_pow_requestLog e.2 (alignment e.2)
    rw [h.buddy.orderOf_eq hserve, h.buddy.orderSize_eq hserve.orderOf_lt, g.minLog_add_orderOf]
    refine ⟨hle.1, ?_⟩
    have hb : (e.1, s.alloc.orderOf e.2) ∈ s.blocks N (addresses g free) :=
      List.mem_append.mpr (Or.inl (List.mem_map.mpr ⟨e, he, rfl⟩))
    have hal : alignment e.2 ∣ (g.blk (s.alloc.orderOf e.2) (e.1 - g.ptr)).size := by
      rw [h.buddy.orderOf_eq hserve, HeapGeometry.blk, Blk.size, g.minLog_add_orderOf]
      have h2 : ∃ i, alignment e.2 = 2 ^ i := by
        rcases alignment_cases e.2 with h | h
        exacts [⟨12, h⟩, ⟨4, h⟩]
      obtain ⟨i, hi⟩ := h2
      rw [hi]
      exact pow_dvd_pow 2 ((Nat.pow_le_pow_iff_right (by omega : 1 < 2)).mp (hi ▸ hle.2))
    have hoff := hal.trans (htiles.aligned _ (hmem hb))
    have hadd := Nat.dvd_add ((alignment_dvd e.2).trans g.aligned) hoff
    simpa only [HeapGeometry.blk, Nat.add_sub_cancel' hge] using hadd
  · have hp := Tiles.pairwise (B := 0) (by rwa [Multiset.add_zero])
    refine (List.pairwise_map.mp hp).imp_of_mem fun {b c} hb hc hd => ?_
    have hb' := (h.mem_blocks hb).2
    have hc' := (h.mem_blocks hc).2
    unfold Overlaps
    rw [hsize hb, hsize hc]
    simp only [Blk.Disjoint, HeapGeometry.blk] at hd ⊢
    omega
  · obtain ⟨c, hc, hcov⟩ := htiles.exists_covers (by omega : x - g.ptr < 2 ^ g.log)
    obtain ⟨b, hb, rfl⟩ := List.mem_map.mp (Multiset.mem_coe.mp hc)
    have hb' := (h.mem_blocks hb).2
    refine ⟨b, hb, ?_⟩
    rw [hsize hb]
    simp only [Blk.Covers, HeapGeometry.blk] at hcov ⊢
    omega

/-- At every moment of every run on a valid heap, the blocks handed out are aligned, large enough
and, together with the free blocks, partition the heap. -/
theorem buddy_safe {N ptr len : ℕ} (hN : 0 < N) (hptr : 4096 ∣ ptr) (hpos : 0 < ptr)
    (hfit : ptr + len ≤ 2 ^ 64) (hlen : ∃ k < 31, len = 2 ^ k) (hmin : 8 ≤ len >>> (N - 1))
    (m : Mem) {s : BuddySystem} (hr : Relation.ReflTransGen (Step N) (init N ptr len m) s) :
    ∃ free, s.Safe N ptr len free := by
  obtain ⟨g, rfl, rfl, -⟩ := HeapGeometry.exists_of hN hptr hpos hfit hlen hmin
  have h0 : (init N g.ptr (2 ^ g.log) m).Inv g (Function.update (fun _ => []) (N - 1) [0]) :=
    ⟨BuddyInv.initAlloc g m, by simp [init]⟩
  obtain ⟨free, hi⟩ := h0.run hr
  exact ⟨_, hi.safe⟩

/-- A page split in two for a request of 100 bytes. -/
theorem buddy_safe_split : ∃ s free,
    Relation.ReflTransGen (Step 2) (init 2 4096 4096 fun _ => 0) s ∧
      s.live = [(4096, 100)] ∧ s.Safe 2 4096 4096 free := by
  have hr : Relation.ReflTransGen (Step 2) (init 2 4096 4096 fun _ => 0)
      ⟨_, _, [(4096, 100)]⟩ := .single (.alloc rfl (by decide))
  obtain ⟨free, hs⟩ := buddy_safe (by decide) (by decide) (by decide) (by decide)
    ⟨12, by decide, rfl⟩ (by decide) _ hr
  exact ⟨_, free, hr, rfl, hs⟩

end BuddySystem
end Multiplix.Alloc
