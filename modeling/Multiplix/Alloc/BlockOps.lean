import Multiplix.Alloc.BlockInv

/-! What one call of the block allocator does to the blocks and to the bytes handed out. -/
namespace Multiplix.Alloc
open Lib Core

theorem clog_max (a b : ℕ) : Nat.clog 2 (max a b) = max (Nat.clog 2 a) (Nat.clog 2 b) :=
  eq_of_forall_ge_iff fun z => by
    simp only [Nat.clog_le_iff_le_pow (by omega : 1 < 2), max_le_iff]

/-- Rounding a request of more than half a page up does not change the block that serves it. -/
theorem HeapGeometry.requestLog_roundUp {N : ℕ} (g : HeapGeometry N) {size : ℕ}
    (h : 2048 < size) : g.requestLog (2 ^ Nat.clog 2 size) (alignment (2 ^ Nat.clog 2 size)) =
      g.requestLog size (alignment size) := by
  have h12 : 12 ≤ Nat.clog 2 size := (Nat.lt_clog_iff_pow_lt (by omega)).mpr h
  have hpow := Nat.pow_le_pow_right (n := 2) (by omega) h12
  have hpage : Nat.clog 2 4096 = 12 := Nat.clog_pow 2 12 (by omega)
  have hslot : Nat.clog 2 16 = 4 := Nat.clog_pow 2 4 (by omega)
  have hround : alignment (2 ^ Nat.clog 2 size) = 4096 := if_pos hpow
  rw [hround]
  simp only [requestLog, clog_max, Nat.clog_pow 2 _ (by omega : 1 < 2), hpage]
  rcases alignment_cases size with ha | ha <;> rw [ha]
  · rw [hpage]
  · rw [hslot]
    omega

structure BlockInv {N : ℕ} (g : HeapGeometry N) (b : BlockAlloc) (m : Mem) (free : ℕ → List ℕ)
    (pages : Multiset Page) (large : Multiset Grant) (P F : ℕ → List ℕ) : Prop where
  memory : PagesInv g b.allocator m free pages large
  lists : ListsInv b.partialBlocks b.fullBlocks m pages P F

/-- The full lists hold full blocks only. -/
def FullOn (pages : Multiset Page) (F : ℕ → List ℕ) : Prop :=
  ∀ p ∈ pages, p.addr ∈ F p.cls → p.free = []

/-- The block of a page with its class. -/
def Page.place (p : Page) : ℕ × ℕ := (p.addr, p.cls)

namespace PagesInv

variable {N : ℕ} {g : HeapGeometry N} {a : BuddyAlloc} {m : Mem} {free : ℕ → List ℕ}
  {pages : Multiset Page} {large : Multiset Grant} {p : Page} {u : Grant}

theorem inside (h : PagesInv g a m free pages large) {c : Blk} (hc : c ∈ g.liveBlks pages large) :
    c.off + c.size ≤ 2 ^ g.log :=
  h.buddy.tiles.inside c (Multiset.mem_add.mpr (Or.inr hc))

theorem addr_lt (h : PagesInv g a m free pages large) (hp : p ∈ pages) :
    p.addr + 4096 ≤ 2 ^ 64 := by
  have hin := h.inside (Multiset.mem_add.mpr (Or.inl (Multiset.mem_map_of_mem g.pageBlk hp)))
  have hf := g.fits
  obtain ⟨he, hle⟩ := h.pageBlk_covers hp
  omega

theorem large_outside (h : PagesInv g a m free pages large) (hp : p ∈ pages) (hl : u ∈ large) :
    u.ptr + u.len ≤ p.addr ∨ p.addr + 4096 ≤ u.ptr := by
  obtain ⟨rest, rfl⟩ := Multiset.exists_cons_of_mem hp
  have ht := h.buddy.tiles
  rw [g.liveBlks_cons, Multiset.add_cons] at ht
  have hd := ht.disjoint_of_mem (c := g.largeBlk u) (Multiset.mem_add.mpr (Or.inr
    (Multiset.mem_add.mpr (Or.inr (Multiset.mem_map_of_mem _ hl)))))
  obtain ⟨he, hle⟩ := h.pageBlk_covers hp
  obtain ⟨he', hle'⟩ := h.largeBlk_covers hl
  unfold Blk.Disjoint at hd
  omega

/-- The grants of the other blocks lie outside. -/
theorem grant_outside (h : PagesInv g a m free (p ::ₘ pages) large)
    (hu : u ∈ grants pages large) : u.ptr + u.len ≤ p.addr ∨ p.addr + 4096 ≤ u.ptr := by
  rcases Multiset.mem_add.mp hu with hq | hl
  · obtain ⟨q, hq, hu⟩ := Multiset.mem_bind.mp hq
    have hin := (h.page q (Multiset.mem_cons_of_mem hq)).used_inside (Multiset.mem_coe.mp hu)
    have hd := h.disjoint hq
    omega
  · exact h.large_outside (Multiset.mem_cons_self p pages) hl

/-- No grant reaches into a header. -/
theorem grant_header (h : PagesInv g a m free pages large) (hp : p ∈ pages)
    (hu : u ∈ grants pages large) : u.ptr + u.len ≤ p.addr ∨ p.addr + 24 ≤ u.ptr := by
  obtain ⟨rest, rfl⟩ := Multiset.exists_cons_of_mem hp
  rw [grants_cons] at hu
  rcases Multiset.mem_add.mp hu with hu | hu
  · have hin := (h.page p hp).used_inside (Multiset.mem_coe.mp hu)
    omega
  · have hout := h.grant_outside hu
    omega

end PagesInv

namespace BlockInv

variable {N : ℕ} {g : HeapGeometry N} {b : BlockAlloc} {m : Mem} {free : ℕ → List ℕ}
  {pages : Multiset Page} {large : Multiset Grant} {P F : ℕ → List ℕ} {p : Page}

private theorem head_lt (h : BlockInv g b m free pages large P F) {c y : ℕ} {l : List ℕ}
    (hc : Chain (Header.next m) y l 0) (hl : l ⊆ P c ++ F c) : y < 256 ^ 8 := by
  cases l with
  | nil =>
    rw [Chain.nil_iff.mp hc]
    decide
  | cons z l =>
    obtain ⟨q, hq, -, rfl⟩ := h.lists.mem_pages (hl (List.mem_cons_self ..))
    have hlt := h.memory.addr_lt hq
    rw [hc.1]
    omega

theorem partialBlocks_lt (h : BlockInv g b m free pages large P F) (c : ℕ) :
    b.partialBlocks c < 256 ^ 8 :=
  h.head_lt (h.lists.partialChain c) (List.subset_append_left _ _)

theorem fullBlocks_lt (h : BlockInv g b m free pages large P F) (c : ℕ) :
    b.fullBlocks c < 256 ^ 8 :=
  h.head_lt (h.lists.fullChain c) (List.subset_append_right _ _)

/-- A slot is taken from the first block with room, which moves to the other list when it is
the last one. Only the header is written. -/
theorem allocInto (h : BlockInv g b m free (p ::ₘ pages) large P F) {l : List ℕ} {size : ℕ}
    (hP : P p.cls = p.addr :: l) (hsize : size ≤ 2 ^ p.cls) :
    ∃ s b' m' p' P' F', b.allocInto m p.cls p.addr = (s, b', m') ∧ s ≠ 0 ∧
      p'.used = ⟨s, 2 ^ p.cls, size⟩ :: p.used ∧
      BlockInv g b' m' free (p' ::ₘ pages) large P' F' ∧
      p'.place = p.place ∧ b'.allocator = b.allocator ∧
      (FullOn (p ::ₘ pages) F → FullOn (p' ::ₘ pages) F') ∧
      ∀ x, x < p.addr ∨ p.addr + 24 ≤ x → m' x = m x := by
  have hok := h.memory.page p (by simp)
  have hroom := h.lists.room p (by simp) (by simp [hP])
  obtain ⟨s, fs, hfree⟩ := List.exists_cons_of_ne_nil hroom
  obtain ⟨hres, hok'⟩ := hok.allocate hfree hsize
  let p' : Page := { p with free := fs, used := ⟨s, 2 ^ p.cls, size⟩ :: p.used }
  have hs0 : s ≠ 0 := by
    have hin := hok.free_inside (s := s) (by simp [hfree])
    omega
  have hne : ∀ q ∈ pages, q.addr ≠ p.addr := fun q hq => by
    have := h.memory.disjoint hq
    omega
  have hlen := hok'.length_eq
  simp only [List.length_cons] at hlen
  have hfull : Header.allocSlots (Header.allocate m p.addr).2 p.addr ≥
      Header.totalSlots (Header.allocate m p.addr).2 p.addr ↔ fs = [] := by
    rw [hok'.allocSlots, hok'.totalSlots, ← List.length_eq_zero_iff]
    simp only [List.length_cons]
    omega
  have hout : ∀ x, x < p.addr ∨ p.addr + 24 ≤ x → (Header.allocate m p.addr).2 x = m x :=
    fun x hx => PageOk.allocate_outside m p.addr (by omega)
  have hnext : ∀ q ∈ p ::ₘ pages,
      Header.next (Header.allocate m p.addr).2 q.addr = Header.next m q.addr := fun q hq => by
    refine Mem.load_congr fun x hx hx' => PageOk.allocate_outside m p.addr ?_
    rcases Multiset.mem_cons.mp hq with rfl | hq
    · omega
    · have := h.memory.disjoint hq
      omega
  unfold BlockAlloc.allocInto
  dsimp only
  rw [hres]
  by_cases hfs : fs = []
  · rw [if_pos ⟨hs0, hfull.mpr hfs⟩]
    have hout' : ∀ x, x < p.addr + 16 ∨ p.addr + 24 ≤ x → Header.setNext
        (Header.allocate m p.addr).2 p.addr (b.fullBlocks p.cls) x =
        (Header.allocate m p.addr).2 x := fun x hx => Mem.store_outside _ _ (by omega)
    refine ⟨s, _, _, p', _, _, rfl, hs0, rfl, ⟨h.memory.update rfl (fun x hx => ?_)
      (hok'.frame (fun x hx hx' => hout' x (Or.inl hx')) fun t ht x hx hx' => hout' x ?_),
      (h.lists.frame hnext).moveFull hP rfl rfl hne (fun q hq => ?_) ?_⟩, rfl, rfl, ?_,
      fun x hx => ?_⟩
    · rw [hout' x (by omega), hout x (by omega)]
    · have hin := hok'.free_inside ht
      exact Or.inr (hin.1.trans hx)
    · refine Mem.load_congr fun x hx hx' => hout' x ?_
      have := h.memory.disjoint hq
      omega
    · exact Mem.load_store_word _ _ (h.fullBlocks_lt p.cls)
    · intro hF q hq hqF
      rcases Multiset.mem_cons.mp hq with rfl | hq
      · exact hfs
      · refine hF q (Multiset.mem_cons_of_mem hq) ?_
        rcases eq_or_ne q.cls p.cls with hc | hc
        · rw [hc, Function.update_self] at hqF
          rw [hc]
          exact (List.mem_cons.mp hqF).resolve_left (hne q hq)
        · rwa [Function.update_of_ne hc] at hqF
    · rw [hout' x (by omega), hout x hx]
  · rw [if_neg fun hc => hfs (hfull.mp hc.2)]
    refine ⟨s, _, _, p', _, _, rfl, hs0, rfl, ⟨h.memory.update rfl (fun x hx => hout x (by omega))
      hok', (h.lists.frame hnext).replace rfl rfl hfs⟩, rfl, rfl, fun hF q hq hqF => ?_, hout⟩
    rcases Multiset.mem_cons.mp hq with rfl | hq
    · exact absurd (hF p (Multiset.mem_cons_self _ _) hqF) hroom
    · exact hF q (Multiset.mem_cons_of_mem hq) hqF

/-- A slot of a block at the head of its list. -/
theorem alloc_slot (h : BlockInv g b m free pages large P F) {c size : ℕ}
    (hb : b.partialBlocks c ≠ 0) (hsize : size ≤ 2 ^ c) :
    ∃ s b' m' pages' P' F', b.allocInto m c (b.partialBlocks c) = (s, b', m') ∧ s ≠ 0 ∧
      BlockInv g b' m' free pages' large P' F' ∧
      grants pages' large = ⟨s, 2 ^ c, size⟩ ::ₘ grants pages large ∧
      pages'.map Page.place = pages.map Page.place ∧ b'.allocator = b.allocator ∧
      (FullOn pages F → FullOn pages' F') ∧
      ∀ u ∈ grants pages large, m.SameOn m' u.ptr u.len := by
  obtain ⟨l, hl, -⟩ := (h.lists.partialChain c).exists_cons_of_ne hb
  obtain ⟨p, hp, rfl, ha⟩ := h.lists.mem_pages (c := c) (y := b.partialBlocks c) (by simp [hl])
  obtain ⟨rest, rfl⟩ := Multiset.exists_cons_of_mem hp
  rw [← ha] at hl
  obtain ⟨s, b', m', p', P', F', hr, hs, hu, hinv, hpl, hal, hF, hm⟩ := h.allocInto hl hsize
  rw [ha] at hr
  refine ⟨s, b', m', _, P', F', hr, hs, hinv, ?_, ?_, hal, hF, fun u hu x hx hx' => hm x ?_⟩
  · rw [grants_cons, grants_cons, hu, ← Multiset.cons_coe, Multiset.cons_add]
  · rw [Multiset.map_cons, Multiset.map_cons, hpl]
  · rw [grants_cons] at hu
    rcases Multiset.mem_add.mp hu with hu | hu
    · have hin := (h.memory.page p (by simp)).used_inside (Multiset.mem_coe.mp hu)
      omega
    · have hout := h.memory.grant_outside hu
      omega

/-- A new block of slots becomes the first one with room. -/
theorem addBlock (h : BlockInv g b m free pages large P F) {a' : BuddyAlloc} {m' : Mem}
    {free' : ℕ → List ℕ} {off c : ℕ} (h3 : 3 ≤ c) (h12 : c < 12)
    (hb : BuddyInv g a' m' free' (g.blk (g.orderOf blocksize) off ::ₘ g.liveBlks pages large))
    (hs : Spares g (g.liveBlks pages large) m m') :
    ∃ m'' pages' P', m'' = Header.setNext (BlockAlloc.formatBlock m' (g.ptr + off) (2 ^ c))
        (g.ptr + off) (b.partialBlocks c) ∧
      BlockInv g ⟨a', Function.update b.partialBlocks c (g.ptr + off), b.fullBlocks⟩ m'' free'
        pages' large P' F ∧
      grants pages' large = grants pages large ∧
      pages'.map Page.place = (g.ptr + off, c) ::ₘ pages.map Page.place ∧
      (FullOn pages F → FullOn pages' F) ∧
      ∀ u ∈ grants pages large, m.SameOn m'' u.ptr u.len := by
  have hbd := classBounds h3 h12
  have h8 := hbd.eight
  have hle : 2 ^ c ≤ 2048 := by
    have := Nat.pow_le_pow_right (n := 2) (by omega) (by omega : c ≤ 11)
    omega
  obtain ⟨hsz, hdvd⟩ := g.le_size_blk blocksize off
  have hal : pagesize ∣ off := Nat.dvd_trans hdvd (hb.tiles.aligned _ (by simp))
  have hin := hb.tiles.inside (g.blk (g.orderOf blocksize) off) (by simp)
  have hsz' : 4096 ≤ (g.blk (g.orderOf blocksize) off).size := hsz
  have hoff : (g.blk (g.orderOf blocksize) off).off = off := rfl
  have hpos := g.pos
  have hfits := g.fits
  let p : Page := ⟨g.ptr + off, c, slotAddrs (g.ptr + off) c, []⟩
  let m₁ := BlockAlloc.formatBlock m' (g.ptr + off) (2 ^ c)
  let m₂ := Header.setNext m₁ (g.ptr + off) (b.partialBlocks c)
  have hm₂ : ∀ x, x < p.addr + 16 ∨ p.addr + 24 ≤ x → m₂ x = m₁ x := fun x hx =>
    Mem.store_outside _ _ (by omega)
  have hout : ∀ x, x < p.addr ∨ p.addr + 4096 ≤ x → m₂ x = m' x := fun x hx => by
    rw [hm₂ x (by omega)]
    exact formatBlock_outside m' h8 hle hx
  have hok₁ : PageOk m₁ p :=
    formatBlock_ok m' h3 h12 (Nat.dvd_add g.aligned hal) (by omega)
  have hok : PageOk m₂ p := hok₁.frame (fun x _ hx => hm₂ x (Or.inl hx)) fun s hs x hx _ =>
    hm₂ x (Or.inr ((hok₁.free_inside hs).1.trans hx))
  have hblk : g.pageBlk p = g.blk (g.orderOf blocksize) off := by
    simp only [HeapGeometry.pageBlk, p, Nat.add_sub_cancel_left]
  have hpg : PagesInv g a' m₂ free' (p ::ₘ pages) large := by
    rw [← hblk] at hb
    exact PagesInv.addPage h.memory.toPagesOk hb (Nat.le_add_right _ _)
      (fun q hq => h.memory.spares_page hs hq) hout hok
  have hsame : ∀ q ∈ pages, m.SameOn m₂ q.addr 4096 := fun q hq => by
    have hd := hpg.disjoint hq
    exact (h.memory.spares_page hs hq).trans fun x hx hx' =>
      hout x (by omega)
  have hlists := h.lists.push (p := p) m₂ (by simp only [p]; omega) ?_
    (fun q hq => ?_) (fun q hq => Mem.load_congr ((hsame q hq).mono (by omega) (by omega)))
    (Mem.load_store_word _ _ (h.partialBlocks_lt c))
  · refine ⟨m₂, _, _, rfl, ⟨hpg, hlists⟩, by simp [grants_cons, p], by simp [Page.place, p],
      fun hF q hq hqF => ?_, fun u hu => ?_⟩
    · rcases Multiset.mem_cons.mp hq with rfl | hq
      · obtain ⟨r, hr, -, hra⟩ := h.lists.mem_pages (List.mem_append_right (P c) hqF)
        have hd := hpg.disjoint hr
        omega
      · exact hF q hq hqF
    have hd := hpg.grant_outside hu
    exact (h.memory.spares_grants hs u hu).trans fun x hx hx' => hout x (by omega)
  · have hcount := hbd.count_pos
    simp only [p, slotAddrs, ne_eq, List.map_eq_nil_iff, List.range_eq_nil]
    omega
  · have := hpg.disjoint hq
    omega

end BlockInv
end Multiplix.Alloc
