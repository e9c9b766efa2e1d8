import Multiplix.Alloc.KrInv

/-! Runs of the two arena allocators: what they return is in the arena, and apart. -/
namespace Multiplix.Alloc
open Lib
open KrHeader (sizeof ptr size setPtr setSize Spread WritesOnly)

/-- An arena for the K&R allocator, which is itself elsewhere, with its header of the list at
`base`. -/
structure KrHeap extends Arena where
  base : ℕ
  alignment : ℕ
  base_pos : 0 < base
  base_lt : base + 16 ≤ 2 ^ 64
  outside : base + 16 ≤ start ∨ start + len ≤ base

namespace KrHeap

variable (g : KrHeap)

/-- The size of a unit. -/
abbrev unit : ℕ := sizeof g.alignment

/-- The header of a block. -/
def hdr (u : Chunk) : ℕ := u.ptr - g.unit

/-- The block with its header ends here. -/
def fin (m : Mem) (u : Chunk) : ℕ := g.hdr u + size m (g.hdr u) * g.unit

theorem le_unit : 16 ≤ g.unit := KrAlloc.le_sizeof _

end KrHeap

/-- A block that was handed out. -/
structure ChunkOk (g : KrHeap) (m : Mem) (S : Set ℕ) (hi : ℕ) (u : Chunk) : Prop where
  start : u.ptr = g.hdr u + g.unit
  lo : g.start ≤ g.hdr u
  pos : 0 < g.hdr u
  fits : u.size + g.unit ≤ size m (g.hdr u) * g.unit
  hi : g.fin m u ≤ hi
  base : g.fin m u ≠ g.base
  clear : ∀ x ∈ S, x + size m x * g.unit ≤ g.hdr u ∨ g.fin m u ≤ x

/-- `S` are the blocks on the free list. -/
structure KrInv (g : KrHeap) (a : KrAlloc) (m : Mem) (S : Set ℕ) (live : List Chunk) : Prop where
  base : a.base = g.base
  heapEnd : a.heapEnd = (g.start + g.len) % 2 ^ 64
  start_le : g.start ≤ a.heap
  heap_le : a.heap = g.start ∨ a.heap ≤ a.heapEnd
  list : FreeList g.unit g.base g.start a.heap S (ptr m) (size m)
  freep : a.freep ∈ S
  chunk : ∀ u ∈ live, ChunkOk g m S a.heap u
  apart : live.Pairwise fun u v => g.fin m u ≤ g.hdr v ∨ g.fin m v ≤ g.hdr u

namespace ChunkOk

variable {g : KrHeap} {m : Mem} {S : Set ℕ} {hi : ℕ} {u : Chunk}

theorem hdr_lt_fin (h : ChunkOk g m S hi u) : g.hdr u + g.unit ≤ g.fin m u := by
  have hfits := h.fits
  unfold KrHeap.fin
  omega

theorem hdr_not_mem (h : ChunkOk g m S hi u) : g.hdr u ∉ S := fun hm => by
  have hunit := g.le_unit
  have hfin := h.hdr_lt_fin
  have hc := h.clear _ hm
  unfold KrHeap.fin at hc hfin
  omega

end ChunkOk

namespace KrInv

variable {g : KrHeap} {a a' : KrAlloc} {m m' : Mem} {S S' : Set ℕ} {live : List Chunk} {u : Chunk}
  {p nunits nbytes fuel : ℕ}

theorem heap_lt (h : KrInv g a m S live) : a.heap < 2 ^ 64 ∧ a.heap ≤ g.start + g.len := by
  have hend := h.heapEnd
  have hstart := g.start_lt
  have hle := h.heap_le
  omega

theorem base_out (h : KrInv g a m S live) : g.base + 16 ≤ g.start ∨ a.heap ≤ g.base := by
  have hout := g.outside
  have hle := h.heap_lt
  omega

theorem freep_ne (h : KrInv g a m S live) : a.freep ≠ 0 := by
  by_cases hb : a.freep = g.base
  · have := g.base_pos
    omega
  · obtain ⟨-, hpos, -⟩ := h.list.block _ h.freep hb
    omega

/-- A region of the arena that is apart from the free blocks is apart from their headers. -/
theorem header_apart (h : KrInv g a m S live) {c d x : ℕ} (hx : x ∈ S)
    (hc : g.start ≤ c) (hd : d ≤ a.heap) (hclear : x + size m x * g.unit ≤ c ∨ d ≤ x) :
    x + 16 ≤ c ∨ d ≤ x := by
  have hunit := g.le_unit
  by_cases hb : x = g.base
  · have hout := h.base_out
    omega
  · have hle := h.list.le_mul hx hb
    omega

/-- The headers of the free blocks do not overlap. -/
theorem spread_list (h : KrInv g a m S live) : Spread S := by
  intro x hx y hy hne
  have hunit := g.le_unit
  have hsep := h.list.sep hx hy hne
  by_cases hb : y = g.base
  · by_cases hb' : x = g.base
    · exact absurd (hb'.trans hb.symm) hne
    · obtain ⟨hlo, -, -, hhi, -⟩ := h.list.block x hx hb'
      have hle := h.list.le_mul hx hb'
      have hout := h.base_out
      omega
  · obtain ⟨hlo, -, -, hhi, -⟩ := h.list.block y hy hb
    have hle := h.list.le_mul hy hb
    have happ := h.header_apart hx (c := y) (d := y + size m y * g.unit) hlo hhi (by omega)
    omega

/-- One more header, in front of a region that is apart from the free blocks. -/
theorem spread_insert (h : KrInv g a m S live) {c d : ℕ} (hcd : c + 16 ≤ d) (hc : g.start ≤ c)
    (hd : d ≤ a.heap) (hclear : ∀ x ∈ S, x + size m x * g.unit ≤ c ∨ d ≤ x) :
    Spread (insert c S) := by
  have hone : ∀ x ∈ S, x + 16 ≤ c ∨ c + 16 ≤ x := fun x hx => by
    have := h.header_apart hx hc hd (hclear x hx)
    omega
  rintro x (rfl | hx) y (rfl | hy) hne
  · exact absurd rfl hne
  · exact (hone y hy).symm
  · exact hone x hx
  · exact h.spread_list x hx y hy hne

/-- The header of a block that was handed out is apart from those of the free blocks. -/
theorem chunk_apart (h : KrInv g a m S live) (hu : u ∈ live) {x : ℕ} (hx : x ∈ S) :
    x + 16 ≤ g.hdr u ∨ g.fin m u ≤ x := by
  have hok := h.chunk u hu
  have := hok.hdr_lt_fin
  exact h.header_apart hx hok.lo hok.hi (hok.clear x hx)

/-- Memory has changed in headers only that are apart from the block. -/
theorem size_hdr {D : Set ℕ} (hw : WritesOnly D m m')
    (hD : ∀ x ∈ D, x + 16 ≤ g.hdr u ∨ g.hdr u + 16 ≤ x) :
    size m' (g.hdr u) = size m (g.hdr u) :=
  KrHeader.size_congr fun x hx hx' => hw x fun y hy => by
    have := hD y hy
    omega

/-- The blocks that were handed out are as they were. -/
theorem replace (h : KrInv g a m S live) (hb : a'.base = a.base) (he : a'.heapEnd = a.heapEnd)
    (hge : a.heap ≤ a'.heap) (hle : a'.heap = g.start ∨ a'.heap ≤ a'.heapEnd)
    (hl : FreeList g.unit g.base g.start a'.heap S' (ptr m') (size m')) (hf : a'.freep ∈ S')
    (hsize : ∀ u ∈ live, size m' (g.hdr u) = size m (g.hdr u))
    (hclear : ∀ u ∈ live, ∀ x ∈ S', x + size m' x * g.unit ≤ g.hdr u ∨ g.fin m u ≤ x) :
    KrInv g a' m' S' live := by
  have hfin : ∀ u ∈ live, g.fin m' u = g.fin m u := fun u hu => by
    unfold KrHeap.fin
    rw [hsize u hu]
  refine ⟨hb.trans h.base, he.trans h.heapEnd, h.start_le.trans hge, hle, hl, hf, fun u hu => ?_,
    ?_⟩
  · obtain ⟨hstart, hlo, hpos, hfits, hhi, hbase, -⟩ := h.chunk u hu
    have hfin' := hfin u hu
    exact ⟨hstart, hlo, hpos, by rw [hsize u hu]; exact hfits, by omega, by rw [hfin']; exact hbase,
      fun x hx => by rw [hfin']; exact hclear u hu x hx⟩
  · refine h.apart.imp_of_mem fun hu hv hd => ?_
    rw [hfin _ hu, hfin _ hv]
    exact hd

/-- A loose block is handed out. -/
theorem handOut (h : KrInv g a m S live) {t : ℕ} (hlo : g.start ≤ t) (h0 : 0 < t)
    (hfit : nbytes + g.unit ≤ size m t * g.unit) (hhi : t + size m t * g.unit ≤ a.heap)
    (hend : t + size m t * g.unit ≠ g.base)
    (hclear : ∀ x ∈ S, x + size m x * g.unit ≤ t ∨ t + size m t * g.unit ≤ x)
    (hlive : ∀ v ∈ live, t + size m t * g.unit ≤ g.hdr v ∨ g.fin m v ≤ t) :
    KrInv g a m S (⟨t + g.unit, nbytes⟩ :: live) := by
  have hhdr : g.hdr ⟨t + g.unit, nbytes⟩ = t := Nat.add_sub_cancel _ _
  have hfin : g.fin m ⟨t + g.unit, nbytes⟩ = t + size m t * g.unit := by
    rw [KrHeap.fin, hhdr]
  refine { h with chunk := ?_, apart := List.pairwise_cons.mpr ⟨?_, h.apart⟩ }
  · intro v hv
    rcases List.mem_cons.mp hv with rfl | hv
    · constructor
      · rw [hhdr]
      · rw [hhdr]
        exact hlo
      · rw [hhdr]
        exact h0
      · rw [hhdr]
        exact hfit
      · rw [hfin]
        exact hhi
      · rw [hfin]
        exact hend
      · rw [hhdr, hfin]
        exact hclear
    · exact h.chunk v hv
  · intro v hv
    rw [hhdr, hfin]
    exact hlive v hv

/-- The block is not on the list of those handed out any more. -/
theorem erase (h : KrInv g a m S live) (hu : u ∈ live) : KrInv g a m S (live.erase u) ∧
    ∀ v ∈ live.erase u, g.fin m u ≤ g.hdr v ∨ g.fin m v ≤ g.hdr u := by
  have hperm := List.perm_cons_erase hu
  have hapart := (hperm.pairwise_iff fun hd => Or.symm hd).mp h.apart
  obtain ⟨hhead, htail⟩ := List.pairwise_cons.mp hapart
  have hchunk : ∀ v ∈ live.erase u, ChunkOk g m S a.heap v := fun v hv =>
    h.chunk v (List.mem_of_mem_erase hv)
  exact ⟨{ h with chunk := hchunk, apart := htail }, hhead⟩

/-- A loose block is given back. -/
theorem freeInternal (h : KrInv g a m S live) {bp : ℕ} (hbp : bp ∉ S) (hlo : g.start ≤ bp)
    (h0 : 0 < bp) (hn : 0 < size m bp) (hhi : bp + size m bp * g.unit ≤ a.heap)
    (hb : bp + size m bp * g.unit ≠ g.base)
    (hsep : ∀ x ∈ S, x + size m x * g.unit ≤ bp ∨ bp + size m bp * g.unit ≤ x)
    (hlive : ∀ v ∈ live, bp + size m bp * g.unit ≤ g.hdr v ∨ g.fin m v ≤ bp)
    (hr : KrAlloc.freeInternal g.alignment fuel a m (bp + g.unit) = some (a', m')) :
    (∃ S', KrInv g a' m' S' live ∧ ∃ y ∈ S', size m bp ≤ size m' y) ∧
      a' = { a with freep := a'.freep } := by
  have hunit := g.le_unit
  have hbase := g.base_lt
  have hone : g.unit ≤ size m bp * g.unit := Nat.le_mul_of_pos_left _ hn
  have hD := h.spread_insert (show bp + 16 ≤ bp + size m bp * g.unit by omega) hlo hhi hsep
  obtain ⟨S', -, hl, hf, ha, hw, hy, hclear⟩ := KrAlloc.freeInternal_spec rfl h.heap_lt.1 (by omega)
    h.list hD h.freep hbp hlo h0 hn hhi hb hsep hr
  refine ⟨⟨S', h.replace ?_ ?_ ?_ ?_ ?_ hf (fun v hv => ?_) (fun v hv => ?_), hy⟩, ha⟩
  · rw [ha]
  · rw [ha]
  · rw [ha]
  · rw [ha]
    exact h.heap_le
  · rw [ha]
    exact hl
  · have hfin := (h.chunk v hv).hdr_lt_fin
    refine size_hdr hw fun x hx => ?_
    rcases hx with rfl | hx
    · have := hlive v hv
      omega
    · have := h.chunk_apart hv hx
      omega
  · have hfin := (h.chunk v hv).hdr_lt_fin
    exact hclear _ _ (by omega) (h.chunk v hv).clear (hlive v hv)

theorem free (h : KrInv g a m S live) (hu : u ∈ live)
    (hr : KrAlloc.free g.alignment fuel a m u.ptr = some (a', m')) :
    ∃ S', KrInv g a' m' S' (live.erase u) := by
  obtain ⟨hrest, hapart⟩ := h.erase hu
  have hok := h.chunk u hu
  have hpos := hok.pos
  have hunit := g.le_unit
  have hn : 0 < size m (g.hdr u) := by
    have hfits := hok.fits
    by_contra hz
    rw [Nat.eq_zero_of_not_pos hz, Nat.zero_mul] at hfits
    omega
  unfold KrAlloc.free at hr
  rw [hok.start, if_neg (by omega)] at hr
  obtain ⟨⟨S', hinv, -⟩, -⟩ := hrest.freeInternal hok.hdr_not_mem hok.lo hok.pos hn hok.hi hok.base
    hok.clear hapart hr
  exact ⟨S', hinv⟩

/-- What a client writes to its block changes no header. -/
theorem write (h : KrInv g a m S live) (hu : u ∈ live)
    (hm : ∀ x, x < u.ptr ∨ u.ptr + u.size ≤ x → m' x = m x) : KrInv g a m' S live := by
  have hok := h.chunk u hu
  have hunit := g.le_unit
  have hstart := hok.start
  have hend : u.ptr + u.size ≤ g.fin m u := by
    have hfits := hok.fits
    unfold KrHeap.fin
    omega
  have hfree : ∀ x ∈ S, m.SameOn m' x 16 := fun x hx y hy hy' => hm y (by
    have := h.chunk_apart hu hx
    omega)
  have hlive : ∀ v ∈ live, m.SameOn m' (g.hdr v) 16 := fun v hv y hy hy' => hm y (by
    by_cases he : v = u
    · rw [he] at hy'
      omega
    · have hv' : v ∈ live.erase u := (List.mem_erase_of_ne he).mpr hv
      have hapart := (h.erase hu).2 v hv'
      have hfin := (h.chunk v hv).hdr_lt_fin
      omega)
  have hsize : ∀ x ∈ S, size m' x = size m x := fun x hx => KrHeader.size_congr (hfree x hx)
  refine h.replace rfl rfl le_rfl h.heap_le
    (h.list.congr (fun x hx => KrHeader.ptr_congr (hfree x hx)) hsize) h.freep
    (fun v hv => KrHeader.size_congr (hlive v hv)) fun v hv x hx => ?_
  rw [hsize x hx]
  exact (h.chunk v hv).clear x hx

/-- The free block is handed out, and the one before it is linked to the one behind it. -/
theorem takeExact (h : KrInv g a m S live) {prevp : ℕ} (hprev : prevp ∈ S)
    (hb : ptr m prevp ≠ g.base) (hfit : nbytes + g.unit ≤ size m (ptr m prevp) * g.unit) :
    ∃ S', KrInv g { a with freep := prevp } (setPtr m prevp (ptr m (ptr m prevp))) S'
      (⟨ptr m prevp + g.unit, nbytes⟩ :: live) := by
  have hunit := g.le_unit
  have hp : ptr m prevp ∈ S := (h.list.cyclic prevp hprev).1
  have hne := h.list.next_ne hprev hb
  obtain ⟨hlo, h0, hpos, hhi, hend⟩ := h.list.block _ hp hb
  set p := ptr m prevp with hpdef
  set m' := setPtr m prevp (ptr m p) with hm'
  have hptr : ∀ x ∈ S, ptr m' x = Function.update (ptr m) prevp (ptr m p) x := fun x hx =>
    KrHeader.ptr_setPtr h.spread_list hx hprev (KrHeader.ptr_lt _ _)
  have hsize : ∀ x ∈ S, size m' x = size m x := fun x hx =>
    KrHeader.size_setPtr h.spread_list hx hprev
  have hlist : FreeList g.unit g.base g.start a.heap (S \ {p}) (ptr m') (size m') :=
    (h.list.take hprev hb).congr (fun x hx => hptr x hx.1) fun x hx => hsize x hx.1
  have hlive : ∀ u ∈ live, size m' (g.hdr u) = size m (g.hdr u) := fun u hu => by
    have hfin := (h.chunk u hu).hdr_lt_fin
    refine size_hdr (KrHeader.writesOnly_setPtr (D := S) hprev) fun x hx => ?_
    have := h.chunk_apart hu hx
    omega
  have hinv : KrInv g { a with freep := prevp } m' (S \ {p}) live :=
    h.replace rfl rfl le_rfl h.heap_le hlist ⟨hprev, Ne.symm hne⟩ hlive fun u hu x hx => by
      rw [hsize x hx.1]
      exact (h.chunk u hu).clear x hx.1
  refine ⟨S \ {p}, hinv.handOut hlo h0 ?_ ?_ ?_ (fun x hx => ?_) fun v hv => ?_⟩
  · rw [hsize p hp]
    exact hfit
  · rw [hsize p hp]
    exact hhi
  · rw [hsize p hp]
    exact hend
  · rw [hsize p hp, hsize x hx.1]
    exact h.list.sep hx.1 hp hx.2
  · have hclear := (h.chunk v hv).clear p hp
    rw [hsize p hp, KrHeap.fin, hlive v hv]
    exact hclear

/-- The header of a loose block is written. -/
theorem setLoose (h : KrInv g a m S live) {t n : ℕ} (hlo : g.start ≤ t) (hn : 0 < n)
    (hhi : t + n * g.unit ≤ a.heap)
    (hclear : ∀ x ∈ S, x + size m x * g.unit ≤ t ∨ t + n * g.unit ≤ x)
    (hlive : ∀ v ∈ live, t + n * g.unit ≤ g.hdr v ∨ g.fin m v ≤ t) :
    KrInv g a (setSize m t n) S live ∧ size (setSize m t n) t = n ∧
      (∀ x ∈ S, size (setSize m t n) x = size m x) ∧
      ∀ v ∈ live, g.fin (setSize m t n) v = g.fin m v := by
  have hunit := g.le_unit
  have hone : g.unit ≤ n * g.unit := Nat.le_mul_of_pos_left _ hn
  have hnlt : n < 2 ^ 64 := by
    have := Nat.le_mul_of_pos_right n (show 0 < g.unit by omega)
    have := h.heap_lt
    omega
  have hD := h.spread_insert (show t + 16 ≤ t + n * g.unit by omega) hlo hhi hclear
  have hmem : t ∈ insert t S := Set.mem_insert _ _
  have hself : size (setSize m t n) t = n := by
    rw [KrHeader.size_setSize hD hmem hmem hnlt, Function.update_self]
  have hsize : ∀ x ∈ S, size (setSize m t n) x = size m x := fun x hx => by
    have hne : x ≠ t := fun he => by
      have hc := hclear x hx
      by_cases hb : x = g.base
      · have hout := h.base_out
        omega
      · have hle := h.list.le_mul hx hb
        omega
    rw [KrHeader.size_setSize hD (Set.mem_insert_of_mem _ hx) hmem hnlt, Function.update_of_ne hne]
  have hhdr : ∀ v ∈ live, size (setSize m t n) (g.hdr v) = size m (g.hdr v) := fun v hv => by
    have hfin := (h.chunk v hv).hdr_lt_fin
    refine size_hdr (KrHeader.writesOnly_setSize (D := {t}) rfl) fun x hx => ?_
    obtain rfl : x = t := hx
    have := hlive v hv
    omega
  refine ⟨h.replace rfl rfl le_rfl h.heap_le (h.list.congr (fun x hx => ?_) hsize) h.freep hhdr
    fun v hv x hx => ?_, hself, hsize, fun v hv => ?_⟩
  · exact KrHeader.ptr_setSize hD (Set.mem_insert_of_mem _ hx) hmem
  · rw [hsize x hx]
    exact (h.chunk v hv).clear x hx
  · rw [KrHeap.fin, hhdr v hv]
    rfl

/-- The end of the free block is handed out. -/
theorem takeSplit (h : KrInv g a m S live) {prevp : ℕ} (hprev : prevp ∈ S) (hp : p ∈ S)
    (hn : 0 < nunits) (hlt : nunits < size m p) (hfit : nbytes + g.unit ≤ nunits * g.unit) :
    KrInv g { a with freep := prevp }
      (setSize (setSize m p (size m p - nunits)) (p + (size m p - nunits) * g.unit) nunits) S
      (⟨p + (size m p - nunits) * g.unit + g.unit, nbytes⟩ :: live) := by
  have hunit := g.le_unit
  have hb : p ≠ g.base := fun he => by
    rw [he, h.list.base_size] at hlt
    omega
  obtain ⟨hlo, h0, hpos, hhi, hend⟩ := h.list.block p hp hb
  set k := size m p - nunits with hk
  set t := p + k * g.unit with ht
  have hsplit : t + nunits * g.unit = p + size m p * g.unit := by
    rw [ht, Nat.add_assoc, ← Nat.add_mul, hk, Nat.sub_add_cancel hlt.le]
  have hklt : k < 2 ^ 64 := by
    have := KrHeader.size_lt m p
    omega
  have hout : g.base < g.start ∨ a.heap ≤ g.base := by
    have := h.base_out
    omega
  -- the block is cut
  have hsize : ∀ x ∈ S, size (setSize m p k) x = Function.update (size m) p k x := fun x hx =>
    KrHeader.size_setSize h.spread_list hx hp hklt
  have hlive : ∀ u ∈ live, size (setSize m p k) (g.hdr u) = size m (g.hdr u) := fun u hu => by
    have hfin := (h.chunk u hu).hdr_lt_fin
    refine size_hdr (KrHeader.writesOnly_setSize (D := S) hp) fun x hx => ?_
    have := h.chunk_apart hu hx
    omega
  have hcut : KrInv g { a with freep := prevp } (setSize m p k) S live := by
    have hlist : FreeList g.unit g.base g.start a.heap S (ptr (setSize m p k))
        (size (setSize m p k)) :=
      (h.list.shrink hout hp (by omega) (show k < size m p by omega) (by omega)).congr
        (fun x hx => KrHeader.ptr_setSize h.spread_list hx hp) hsize
    refine h.replace rfl rfl le_rfl h.heap_le hlist hprev hlive fun u hu x hx => ?_
    have hclear := (h.chunk u hu).clear x hx
    rw [hsize x hx]
    by_cases hxp : x = p
    · rw [hxp, Function.update_self]
      rw [hxp] at hclear
      omega
    · rw [Function.update_of_ne hxp]
      exact hclear
  have hfin₁ : ∀ u ∈ live, g.fin (setSize m p k) u = g.fin m u := fun u hu => by
    rw [KrHeap.fin, hlive u hu]
    rfl
  have hclear : ∀ x ∈ S, x + size (setSize m p k) x * g.unit ≤ t ∨ t + nunits * g.unit ≤ x :=
    fun x hx => by
      rw [hsize x hx]
      by_cases hxp : x = p
      · rw [hxp, Function.update_self]
        exact Or.inl le_rfl
      · rw [Function.update_of_ne hxp]
        have hsep := h.list.sep hx hp hxp
        omega
  have hapart : ∀ u ∈ live, t + nunits * g.unit ≤ g.hdr u ∨ g.fin (setSize m p k) u ≤ t :=
    fun u hu => by
      rw [hfin₁ u hu]
      have hc := (h.chunk u hu).clear p hp
      omega
  obtain ⟨hinv, hself, hsize₂, hfin₂⟩ := hcut.setLoose (show g.start ≤ t by omega) hn
    (show t + nunits * g.unit ≤ a.heap by omega) hclear hapart
  refine hinv.handOut (by omega) (by omega) ?_ ?_ ?_ (fun x hx => ?_) fun v hv => ?_
  · rw [hself]
    exact hfit
  · rw [hself]
    exact hsplit.le.trans hhi
  · rw [hself, hsplit]
    exact hend
  · rw [hself, hsize₂ x hx]
    exact hclear x hx
  · rw [hself, hfin₂ v hv]
    exact hapart v hv

/-- More of the arena is in use. -/
theorem grow (h : KrInv g a m S live) {n : ℕ} (hle : a.heap + n ≤ a.heapEnd) :
    KrInv g { a with heap := a.heap + n } m S live := by
  refine h.replace rfl rfl (Nat.le_add_right _ _) (Or.inr hle) ?_ h.freep (fun _ _ => rfl)
    fun u hu => (h.chunk u hu).clear
  refine { h.list with block := fun x hx hb => ?_ }
  obtain ⟨hlo, h0, hpos, hhi, hend⟩ := h.list.block x hx hb
  exact ⟨hlo, h0, hpos, hhi.trans (Nat.le_add_right _ _), hend⟩

/-- New memory, where the arena has it: a block of at least as many units is on the list. -/
theorem morecore (h : KrInv g a m S live) (hn : 0 < nunits)
    (hc : a.heap < a.heapEnd →
      a.heap + nunits * g.unit ≤ a.heapEnd ∧ a.heap + nunits * g.unit ≠ g.base)
    {r : ℕ} (hr : KrAlloc.morecore g.alignment fuel a m nunits = some (r, a', m')) :
    (r = 0 ∧ KrInv g a' m' S live) ∨ (r = a'.freep ∧ r ≠ 0 ∧
      ∃ S', KrInv g a' m' S' live ∧ ∃ y ∈ S', nunits ≤ size m' y) := by
  have hunit := g.le_unit
  have hone : g.unit ≤ nunits * g.unit := Nat.le_mul_of_pos_left _ hn
  unfold KrAlloc.morecore KrAlloc.sbrk at hr
  rw [if_neg (show ¬ nunits < KrAlloc.nalloc by unfold KrAlloc.nalloc; omega)] at hr
  dsimp only at hr
  by_cases hfull : a.heap ≥ a.heapEnd
  · rw [if_pos hfull] at hr
    cases hr
    exact Or.inl ⟨rfl, h⟩
  obtain ⟨hfit, hbase⟩ := hc (by omega)
  have hend := h.heapEnd
  have hmod : nunits * g.unit % 2 ^ 64 = nunits * g.unit := Nat.mod_eq_of_lt (by omega)
  have hmod' : (a.heap + nunits * g.unit) % 2 ^ 64 = a.heap + nunits * g.unit :=
    Nat.mod_eq_of_lt (by omega)
  rw [if_neg hfull, hmod, hmod'] at hr
  dsimp only at hr
  have hgrow := h.grow hfit
  by_cases h0 : a.heap = 0
  · rw [if_pos h0] at hr
    cases hr
    exact Or.inl ⟨rfl, hgrow⟩
  rw [if_neg h0] at hr
  have hup : ∀ x ∈ S, x + size m x * g.unit ≤ a.heap ∨ a.heap + nunits * g.unit ≤ x :=
    fun x hx => by
      by_cases hb : x = g.base
      · have hout := hgrow.base_out
        have hstart := h.start_le
        rw [hb, h.list.base_size]
        dsimp only at hout
        omega
      · exact Or.inl (h.list.block x hx hb).2.2.2.1
  have hlive : ∀ v ∈ live, a.heap + nunits * g.unit ≤ g.hdr v ∨ g.fin m v ≤ a.heap :=
    fun v hv => Or.inr (h.chunk v hv).hi
  obtain ⟨hinv, hself, hsize, hfin⟩ := hgrow.setLoose h.start_le hn le_rfl hup hlive
  have hadv : KrAlloc.advance g.alignment a.heap 1 = a.heap + g.unit :=
    KrAlloc.advance_one rfl (by omega)
  rw [hadv] at hr
  obtain ⟨⟨a₂, m₂⟩, hfree, hres⟩ := Option.map_eq_some_iff.mp hr
  cases hres
  have hnot : a.heap ∉ S := fun hm => by
    by_cases hb : a.heap = g.base
    · have hout := hgrow.base_out
      dsimp only at hout
      have := h.start_le
      omega
    · obtain ⟨-, -, -, hhi, -⟩ := h.list.block _ hm hb
      have hle := h.list.le_mul hm hb
      omega
  obtain ⟨⟨S', hinv', hy⟩, -⟩ := hinv.freeInternal hnot h.start_le (by omega) (by omega)
    (by rw [hself]) (by rw [hself]; exact hbase)
    (fun x hx => by rw [hself, hsize x hx]; exact hup x hx)
    (fun v hv => by rw [hself, hfin v hv]; exact hlive v hv) hfree
  rw [hself] at hy
  exact Or.inr ⟨rfl, hinv'.freep_ne, S', hinv', hy⟩

/-- The loop has seen the blocks between `freep` and `p`, which are too small. Only when it has seen
them all does it ask for more memory, and then it finds that. -/
theorem allocLoop (h : KrInv g a m S live) (hn : 0 < nunits)
    (hfit : nbytes + g.unit ≤ nunits * g.unit) {prevp : ℕ} (hprev : prevp ∈ S)
    (hp : p = ptr m prevp) (hseen : ∀ x ∈ S, Between a.freep x p → size m x < nunits)
    (hc : (∀ x ∈ S, size m x < nunits) → a.heap < a.heapEnd →
      a.heap + nunits * g.unit ≤ a.heapEnd ∧ a.heap + nunits * g.unit ≠ g.base) {r : ℕ}
    (hr : KrAlloc.allocLoop g.alignment nunits fuel a m prevp p = some (r, a', m')) :
    ∃ S', KrInv g a' m' S' (if r = 0 then live else ⟨r, nbytes⟩ :: live) := by
  induction fuel generalizing a m S prevp p with
  | zero => cases hr
  | succ fuel ih =>
    have hunit := g.le_unit
    have hpS : p ∈ S := hp ▸ (h.list.cyclic prevp hprev).1
    unfold KrAlloc.allocLoop at hr
    by_cases hbig : size m p ≥ nunits
    · rw [if_pos hbig] at hr
      have hb : p ≠ g.base := fun he => by
        rw [he, h.list.base_size] at hbig
        omega
      obtain ⟨hlo, h0, hpos, hhi, -⟩ := h.list.block p hpS hb
      have hlt := h.heap_lt.1
      have hone := h.list.le_mul hpS hb
      by_cases heq : size m p = nunits
      · rw [if_pos heq] at hr
        have hadv : KrAlloc.advance g.alignment p 1 = p + g.unit :=
          KrAlloc.advance_one rfl (by omega)
        rw [hadv] at hr
        cases hr
        rw [if_neg (by omega), hp]
        rw [hp] at hb heq
        exact h.takeExact hprev hb (by rw [heq]; exact hfit)
      · rw [if_neg heq] at hr
        have hklt : size m p - nunits < 2 ^ 64 := by
          have := KrHeader.size_lt m p
          omega
        have hself : size (setSize m p (size m p - nunits)) p = size m p - nunits := by
          rw [KrHeader.size_setSize h.spread_list hpS hpS hklt, Function.update_self]
        have hmul : (size m p - nunits) * g.unit + nunits * g.unit = size m p * g.unit := by
          rw [← Nat.add_mul, Nat.sub_add_cancel hbig]
        have hone' : g.unit ≤ nunits * g.unit := Nat.le_mul_of_pos_left _ hn
        have hadv : KrAlloc.advance g.alignment p (size m p - nunits) =
            p + (size m p - nunits) * g.unit := KrAlloc.advance_eq rfl (by omega)
        have hadv' : KrAlloc.advance g.alignment (p + (size m p - nunits) * g.unit) 1 =
            p + (size m p - nunits) * g.unit + g.unit := KrAlloc.advance_one rfl (by omega)
        dsimp only at hr
        rw [hself, hadv, hadv'] at hr
        cases hr
        rw [if_neg (by omega)]
        exact ⟨S, h.takeSplit hprev hpS hn (by omega) hfit⟩
    · rw [if_neg hbig] at hr
      by_cases hwrap : p = a.freep
      · rw [if_pos hwrap] at hr
        have hall : ∀ x ∈ S, size m x < nunits := fun x hx => by
          by_cases hxp : x = p
          · rw [hxp]
            omega
          · refine hseen x hx ?_
            unfold Between
            omega
        cases hm : KrAlloc.morecore g.alignment fuel a m nunits with
        | none =>
          rw [hm] at hr
          cases hr
        | some res =>
          obtain ⟨q, a₁, m₁⟩ := res
          rw [hm] at hr
          dsimp only at hr
          rcases h.morecore hn (hc hall) hm with ⟨rfl, hinv⟩ | ⟨rfl, hq, S', hinv, y, hy, hyn⟩
          · rw [if_pos rfl] at hr
            cases hr
            exact ⟨S, hinv⟩
          · rw [if_neg hq] at hr
            refine ih hinv hinv.freep rfl (fun x hx hb => ?_) (fun hall' => ?_) hr
            · exact absurd hb ((hinv.list.cyclic _ hinv.freep).2 x hx)
            · have := hall' y hy
              omega
      · rw [if_neg hwrap] at hr
        refine ih h hpS rfl (fun x hx hb => ?_) hc hr
        rcases h.list.cyclic.between_next h.freep hpS hx hb with rfl | hb
        · omega
        · exact hseen x hx hb

end KrInv

/-! ### Runs -/

/-- The K&R allocator with what it handed out. -/
structure KrSystem where
  alloc : KrAlloc
  mem : Mem
  live : List Chunk

namespace KrSystem

/-- A block on the free list. -/
def Listed (s : KrSystem) (x : ℕ) : Prop :=
  s.alloc.freep ≠ 0 ∧ ∃ k, (ptr s.mem)^[k] s.alloc.freep = x

/-- The number of units does not wrap. Where no block on the list is large enough and the arena is
not used up, it has that many units left, and they do not end where the allocator is. -/
def Fits (g : KrHeap) (s : KrSystem) (nbytes : ℕ) : Prop :=
  nbytes + g.unit - 1 < 2 ^ 64 ∧
    ((∀ x, s.Listed x → size s.mem x < KrAlloc.units g.alignment nbytes) →
      s.alloc.heap < s.alloc.heapEnd →
      s.alloc.heap + KrAlloc.units g.alignment nbytes * g.unit ≤ s.alloc.heapEnd ∧
        s.alloc.heap + KrAlloc.units g.alignment nbytes * g.unit ≠ g.base)

/-- The states of the runs of calls that return, all of whose allocations meet a condition, and of
writes of clients to what they were given. -/
inductive Reached (g : KrHeap) (cond : KrSystem → ℕ → Prop) : KrSystem → Prop
  | init (m : Mem) : Reached g cond ⟨KrAlloc.new g.base g.start g.len, m, []⟩
  | alloc {s : KrSystem} {nbytes fuel p : ℕ} {a' : KrAlloc} {m' : Mem} : Reached g cond s →
      s.alloc.alloc g.alignment fuel s.mem nbytes = some (p, a', m') → cond s nbytes →
      Reached g cond ⟨a', m', if p = 0 then s.live else ⟨p, nbytes⟩ :: s.live⟩
  | free {s : KrSystem} {u : Chunk} {fuel : ℕ} {a' : KrAlloc} {m' : Mem} : Reached g cond s →
      u ∈ s.live → s.alloc.free g.alignment fuel s.mem u.ptr = some (a', m') →
      Reached g cond ⟨a', m', s.live.erase u⟩
  | write {s : KrSystem} {u : Chunk} {x : ℕ} (v : Byte) : Reached g cond s → u ∈ s.live →
      u.ptr ≤ x → x < u.ptr + u.size →
      Reached g cond ⟨s.alloc, Function.update s.mem x v, s.live⟩

/-- Nothing was called yet, or there is a free list. -/
def Inv (g : KrHeap) (s : KrSystem) : Prop :=
  (s.alloc = KrAlloc.new g.base g.start g.len ∧ s.live = []) ∨
    ∃ S, KrInv g s.alloc s.mem S s.live

variable {g : KrHeap} {s : KrSystem} {m : Mem} {nbytes fuel p : ℕ} {a' : KrAlloc} {m' : Mem}

/-- The list with nothing but the header in the allocator. -/
theorem inv_start (g : KrHeap) (m : Mem) :
    KrInv g { KrAlloc.new g.base g.start g.len with freep := g.base }
      (setSize (setPtr m g.base g.base) g.base 0) {g.base} [] := by
  have hD : Spread {g.base} := fun x hx y hy hne => absurd (hx.trans hy.symm) hne
  have hmem : g.base ∈ ({g.base} : Set ℕ) := rfl
  have hb := g.base_lt
  refine ⟨rfl, rfl, le_rfl, Or.inl rfl, ⟨Cyclic.singleton _ ?_, hmem, ?_, ?_, ?_⟩, hmem, ?_, .nil⟩
  · rw [KrHeader.ptr_setSize hD hmem hmem, KrHeader.ptr_setPtr hD hmem hmem (by omega),
      Function.update_self]
  · rw [KrHeader.size_setSize hD hmem hmem (by decide), Function.update_self]
  · exact fun x hx hne => absurd hx hne
  · rintro x rfl y rfl hlt
    exact absurd hlt (lt_irrefl _)
  · exact fun u hu => absurd hu List.not_mem_nil

/-- The header and the bytes asked for fit in the units. -/
theorem units_fit (g : KrHeap) (h : nbytes + g.unit - 1 < 2 ^ 64) :
    nbytes + g.unit ≤ KrAlloc.units g.alignment nbytes * g.unit := by
  have hunit := g.le_unit
  have hmod := Nat.mod_lt (nbytes + g.unit - 1) (show 0 < g.unit by omega)
  have hdiv := Nat.div_add_mod (nbytes + g.unit - 1) g.unit
  rw [Nat.mul_comm] at hdiv
  change nbytes + g.unit ≤ ((nbytes + g.unit - 1) % 2 ^ 64 / g.unit + 1) * g.unit
  rw [Nat.mod_eq_of_lt h, Nat.add_mul, Nat.one_mul]
  omega

theorem units_pos (alignment nbytes : ℕ) : 0 < KrAlloc.units alignment nbytes := Nat.succ_pos _

theorem Inv.alloc (h : s.Inv g)
    (hr : s.alloc.alloc g.alignment fuel s.mem nbytes = some (p, a', m'))
    (hc : Fits g s nbytes) :
    Inv g ⟨a', m', if p = 0 then s.live else ⟨p, nbytes⟩ :: s.live⟩ := by
  obtain ⟨hlt, hfit⟩ := hc
  have hunits := units_fit g hlt
  have hpos := units_pos g.alignment nbytes
  unfold KrAlloc.alloc at hr
  rcases h with ⟨ha, hlive⟩ | ⟨S, hinv⟩
  · rw [ha] at hr hfit
    rw [hlive]
    have hnone : ∀ x, ¬ s.Listed x := fun x hx => hx.1 (by rw [ha]; rfl)
    have hstart := inv_start g s.mem
    refine Or.inr (hstart.allocLoop hpos hunits hstart.freep rfl (fun x hx hb => ?_)
      (fun _ => ?_) hr)
    · exact absurd hb ((hstart.list.cyclic _ hstart.freep).2 x hx)
    · exact hfit fun x hx => absurd hx (hnone x)
  · rw [if_neg hinv.freep_ne] at hr
    refine Or.inr (hinv.allocLoop hpos hunits hinv.freep rfl (fun x hx hb => ?_)
      (fun hall => ?_) hr)
    · exact absurd hb ((hinv.list.cyclic _ hinv.freep).2 x hx)
    · refine hfit fun x hx => ?_
      obtain ⟨-, k, rfl⟩ := hx
      refine hall _ ?_
      induction k with
      | zero => exact hinv.freep
      | succ k ih =>
        rw [Function.iterate_succ_apply']
        exact (hinv.list.cyclic _ ih).1

theorem Reached.inv (hr : Reached g (Fits g) s) : s.Inv g := by
  induction hr with
  | init m => exact Or.inl ⟨rfl, rfl⟩
  | alloc _ hx hc ih => exact ih.alloc hx hc
  | @free s u fuel a' m' _ hu hx ih =>
    rcases ih with ⟨-, hlive⟩ | ⟨S, hinv⟩
    · rw [hlive] at hu
      exact absurd hu List.not_mem_nil
    · exact Or.inr (hinv.free hu hx)
  | @write s u x v _ hu hx hx' ih =>
    rcases ih with ⟨-, hlive⟩ | ⟨S, hinv⟩
    · rw [hlive] at hu
      exact absurd hu List.not_mem_nil
    · exact Or.inr ⟨S, hinv.write hu fun y hy => Function.update_of_ne (by omega) _ _⟩

theorem Inv.holds (h : s.Inv g) : g.Holds s.live := by
  rcases h with ⟨-, hlive⟩ | ⟨S, hinv⟩
  · rw [hlive]
    exact ⟨fun u hu => absurd hu List.not_mem_nil, .nil⟩
  have hblock : ∀ u ∈ s.live, g.hdr u ≤ u.ptr ∧ u.ptr + u.size ≤ g.fin s.mem u := fun u hu => by
    have hok := hinv.chunk u hu
    have hstart := hok.start
    have hfits := hok.fits
    unfold KrHeap.fin
    omega
  constructor
  · intro u hu x hx hx'
    have hok := hinv.chunk u hu
    have hlo := hok.lo
    have hhi := hok.hi
    have hin := hblock u hu
    have hheap := hinv.heap_lt.2
    omega
  · refine hinv.apart.imp_of_mem fun hu hv hd => ?_
    have hin := hblock _ hu
    have hin' := hblock _ hv
    unfold BlockSystem.Apart
    omega

end KrSystem

/-- In every run that keeps to the arena, what either allocator handed out is in the arena and
apart, and that of the bump allocator aligned. -/
theorem arenas_hold (g : Arena) (alignment : ℕ) (k : KrHeap) :
    (∀ a live, BumpAlloc.Reached g alignment (BumpAlloc.Keeps g alignment) a live →
      g.Holds live ∧ ∀ u ∈ live, alignment ∣ u.ptr) ∧
    ∀ s, KrSystem.Reached k (KrSystem.Fits k) s → k.Holds s.live := by
  constructor
  · intro a live hr
    exact ⟨hr.inv.holds, hr.inv.aligned⟩
  · intro s hr
    exact hr.inv.holds

/-- 64 bytes, and the allocator behind them. -/
def smallHeap : KrHeap :=
  ⟨⟨4096, 64, by decide, by decide⟩, 8192, 16, by decide, by decide, by decide⟩

theorem arenas_hold_small :
    (∃ a, BumpAlloc.Reached smallHeap.toArena 16 (BumpAlloc.Keeps smallHeap.toArena 16) a
        [⟨4096, 10⟩] ∧ smallHeap.Holds [⟨4096, 10⟩] ∧ ∀ u ∈ [(⟨4096, 10⟩ : Chunk)], 16 ∣ u.ptr) ∧
    ∃ s, KrSystem.Reached smallHeap (KrSystem.Fits smallHeap) s ∧ s.live = [⟨4112, 10⟩] ∧
      smallHeap.Holds s.live := by
  constructor
  · have h0 : BumpAlloc.Reached smallHeap.toArena 16 (BumpAlloc.Keeps smallHeap.toArena 16)
        ⟨4096, 4160⟩ [] := .init rfl
    have hx : BumpAlloc.alloc 16 ⟨4096, 4160⟩ 10 = some (4096, ⟨4112, 4160⟩) := rfl
    have hk : BumpAlloc.Keeps smallHeap.toArena 16 ⟨4096, 4160⟩ 10 :=
      fun _ => ⟨by decide, fun _ => by decide⟩
    have h1 := h0.alloc hx hk
    exact ⟨_, h1, (arenas_hold _ 16 smallHeap).1 _ _ h1⟩
  · have h0 : KrSystem.Reached smallHeap (KrSystem.Fits smallHeap)
        ⟨KrAlloc.new 8192 4096 64, fun _ => 0, []⟩ := .init _
    have hp : (KrAlloc.alloc 16 5 (KrAlloc.new 8192 4096 64) (fun _ => 0) 10).map Prod.fst =
        some 4112 := by decide +kernel
    obtain ⟨⟨_, a', m'⟩, hx, rfl⟩ := Option.map_eq_some_iff.mp hp
    have hk : KrSystem.Fits smallHeap ⟨KrAlloc.new 8192 4096 64, fun _ => 0, []⟩ 10 :=
      ⟨by decide, fun _ _ => by decide⟩
    have h1 := h0.alloc hx hk
    exact ⟨_, h1, rfl, (arenas_hold smallHeap.toArena 16 smallHeap).2 _ h1⟩

/-- The start is not aligned, and the block ends behind the arena; there is memory left, and less
than a block takes. -/
theorem not_holds_small :
    (∃ a live, BumpAlloc.Reached ⟨4104, 32, by decide, by decide⟩ 16 (fun _ _ => True) a live ∧
      ¬ Arena.Holds ⟨4104, 32, by decide, by decide⟩ live) ∧
    ∃ s, KrSystem.Reached smallHeap (fun _ _ => True) s ∧ ¬ smallHeap.Holds s.live := by
  constructor
  · have h0 : BumpAlloc.Reached ⟨4104, 32, by decide, by decide⟩ 16 (fun _ _ => True)
        ⟨4112, 4144⟩ [] := .init rfl
    have hx : BumpAlloc.alloc 16 ⟨4112, 4144⟩ 32 = some (4112, ⟨4144, 4144⟩) := rfl
    refine ⟨_, _, h0.alloc hx trivial, fun hh => ?_⟩
    have hin := hh.inside ⟨4112, 32⟩ (List.mem_singleton.mpr rfl) 4140 (by decide) (by decide)
    exact absurd hin.2 (by decide)
  · have h0 : KrSystem.Reached smallHeap (fun _ _ => True)
        ⟨KrAlloc.new 8192 4096 64, fun _ => 0, []⟩ := .init _
    have hp : (KrAlloc.alloc 16 5 (KrAlloc.new 8192 4096 64) (fun _ => 0) 100).map Prod.fst =
        some 4112 := by decide +kernel
    obtain ⟨⟨_, a', m'⟩, hx, rfl⟩ := Option.map_eq_some_iff.mp hp
    refine ⟨_, h0.alloc hx trivial, fun hh => ?_⟩
    have hin := hh.inside ⟨4112, 100⟩ (List.mem_singleton.mpr rfl) 4200 (by decide) (by decide)
    exact absurd hin.2 (by decide)

end Multiplix.Alloc
