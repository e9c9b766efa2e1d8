import Multiplix.Alloc.BlockOps

/-! The calls of the block allocator and the writes of its clients keep it well formed. -/
namespace Multiplix.Alloc
open Lib Core

/-- The allocator state is well formed and `live` is what it handed out. -/
def BlockAlloc.Valid {N : ℕ} (g : HeapGeometry N) (b : BlockAlloc) (m : Mem)
    (live : Multiset Grant) : Prop :=
  ∃ free pages large P F, BlockInv g b m free pages large P F ∧ grants pages large = live

/-- The class whose slots serve a request, if slots do. -/
def BlockAlloc.slotClass (sz : ℕ) : Option ℕ := do
  let sz ← pow2ceil (if sz < 8 then 8 else sz)
  if sz ≥ blocksize then none else some (log2ceil sz)

/-- The block that `alloc` makes for a request, if it makes one, with its class. -/
def BlockAlloc.newBlock (N : ℕ) (b : BlockAlloc) (m : Mem) (sz : ℕ) : Option (ℕ × ℕ) := do
  let nblk ← slotClass sz
  if b.partialBlocks nblk ≠ 0 then none
  else
    let r ← b.makeBlock N m (2 ^ nblk)
    if r.1 = 0 then none else some (r.1, nblk)

/-- A well-formed allocator with the blocks it has made. Where `exact` holds the full lists hold
full blocks only. -/
def BlockAlloc.Tracked {N : ℕ} (g : HeapGeometry N) (b : BlockAlloc) (m : Mem)
    (live : Multiset Grant) (blocks : Multiset (ℕ × ℕ)) (exact : Prop) : Prop :=
  ∃ free pages large P F, BlockInv g b m free pages large P F ∧ grants pages large = live ∧
    pages.map Page.place = blocks ∧ (exact → FullOn pages F)

/-- The block that a slot belongs to has no free slot. -/
def InFullBlock (m : Mem) (val : ℕ) : Prop :=
  val % pagesize ≠ 0 ∧ Header.allocSlots m (val &&& BlockAlloc.pageMask) =
    Header.totalSlots m (val &&& BlockAlloc.pageMask)

instance (m : Mem) (val : ℕ) : Decidable (InFullBlock m val) :=
  inferInstanceAs (Decidable (_ ∧ _))

namespace PagesInv

variable {N : ℕ} {g : HeapGeometry N} {a : BuddyAlloc} {m : Mem} {free : ℕ → List ℕ}
  {pages : Multiset Page} {large : Multiset Grant} {p : Page} {u : Grant}

theorem and_pageMask_slot (h : PagesInv g a m free pages large) (hp : p ∈ pages)
    (hu : u ∈ p.used) : u.ptr &&& BlockAlloc.pageMask = p.addr := by
  have hlt := h.addr_lt hp
  have hin := (h.page p hp).used_inside hu
  have hlen := ((h.page p hp).grants u hu).1
  have h8 := (h.page p hp).bounds.eight
  have hal := (h.page p hp).aligned
  rw [and_pageMask (by omega)]
  omega

theorem room_iff (h : PagesInv g a m free pages large) (hp : p ∈ pages) :
    Header.allocSlots m p.addr < Header.totalSlots m p.addr ↔ p.free ≠ [] := by
  have hok := h.page p hp
  have hlen := hok.length_eq
  rw [hok.allocSlots, hok.totalSlots, ← List.length_pos_iff]
  omega

theorem full_iff (h : PagesInv g a m free pages large) (hp : p ∈ pages) :
    Header.allocSlots m p.addr = Header.totalSlots m p.addr ↔ p.free = [] := by
  have hok := h.page p hp
  have hlen := hok.length_eq
  rw [hok.allocSlots, hok.totalSlots, ← List.length_eq_zero_iff]
  omega

theorem inFullBlock_iff (h : PagesInv g a m free pages large) (hp : p ∈ pages)
    (hu : u ∈ p.used) : InFullBlock m u.ptr ↔ p.free = [] := by
  have hin := (h.page p hp).used_inside hu
  have hal := (h.page p hp).aligned
  have hlen := ((h.page p hp).grants u hu).1
  have h8 := (h.page p hp).bounds.eight
  unfold InFullBlock
  rw [h.and_pageMask_slot hp hu, h.full_iff hp]
  exact and_iff_right (by unfold pagesize; omega)

end PagesInv

namespace BlockInv

variable {N : ℕ} {g : HeapGeometry N} {b : BlockAlloc} {m m' : Mem} {free : ℕ → List ℕ}
  {pages : Multiset Page} {large : Multiset Grant} {P F : ℕ → List ℕ} {a' : BuddyAlloc}
  {free' : ℕ → List ℕ}

/-- A change of the buddy allocator that concerns large grants only. -/
theorem replaceLarge (h : BlockInv g b m free pages large P F) {large' : Multiset Grant}
    (hb : BuddyInv g a' m' free' (g.liveBlks pages large'))
    (hs : ∀ q ∈ pages, m.SameOn m' q.addr 4096) (hl : ∀ u ∈ large', LargeOk g u) :
    BlockInv g { b with allocator := a' } m' free' pages large' P F where
  memory := ⟨⟨fun q hq => (h.memory.page q hq).frame_all (hs q hq), h.memory.ptr_le, hl⟩, hb⟩
  lists := h.lists.frame fun q hq => Mem.load_congr ((hs q hq).mono (by omega) (by omega))

/-- A request of more than half a page. -/
theorem largeOk {off size : ℕ} (hsize : 2048 < size) (hs : g.Serves (2 ^ Nat.clog 2 size))
    (hb : BuddyInv g a' m' free' (g.blk (g.orderOf (2 ^ Nat.clog 2 size)) off ::ₘ
      g.liveBlks pages large)) :
    LargeOk g ⟨g.ptr + off, 2 ^ Nat.clog 2 size, size⟩ := by
  have hle : size ≤ 2 ^ Nat.clog 2 size := Nat.le_pow_clog (by omega) size
  have h12 : 12 ≤ Nat.clog 2 size := (Nat.lt_clog_iff_pow_lt (by omega)).mpr hsize
  have hpow : 4096 ≤ 2 ^ Nat.clog 2 size := Nat.pow_le_pow_right (n := 2) (by omega) h12
  have hlog := g.requestLog_roundUp hsize
  have hdvd := (g.le_size_blk (2 ^ Nat.clog 2 size) off).2
  rw [show alignment (2 ^ Nat.clog 2 size) = pagesize from if_pos hpow] at hdvd
  refine ⟨Nat.le_add_right _ _, ?_, hpow, hle, ⟨hle.trans hs.1, by rw [← hlog]; exact hs.2⟩, hs, ?_⟩
  · exact Nat.dvd_add g.aligned (hdvd.trans (hb.tiles.aligned _ (by simp)))
  · unfold HeapGeometry.orderOf
    rw [hlog]

/-- A slot goes back to its block, which keeps its place on the lists. -/
theorem free_slot {p : Page} {u : Grant} (h : BlockInv g b m free (p ::ₘ pages) large P F)
    (hu : u ∈ p.used) : ∃ m', b.free N m u.ptr u.size = some (b, m') ∧
      BlockInv g b m' free
        ({ p with free := u.ptr :: p.free, used := p.used.erase u } ::ₘ pages) large P F ∧
      ∀ v ∈ (grants (p ::ₘ pages) large).erase u, m.SameOn m' v.ptr v.len := by
  have hok := h.memory.page p (by simp)
  have hlt := h.memory.addr_lt (Multiset.mem_cons_self p pages)
  have hin := hok.used_inside hu
  have hlen := (hok.grants u hu).1
  have h8 := hok.bounds.eight
  have hal := hok.aligned
  have hout : ∀ x, x < p.addr ∨ p.addr + 12 ≤ x → x < u.ptr ∨ u.ptr + 8 ≤ x →
      PageOk.freed m p.addr u.ptr x = m x := fun x => PageOk.freed_outside m
  have hfree := hok.free_eq hu (by omega) N b u.size
  have her : (grants (p ::ₘ pages) large).erase u =
      ((p.used.erase u : List Grant) : Multiset Grant) + grants pages large := by
    rw [grants_cons, Multiset.erase_add_left_pos _ (Multiset.mem_coe.mpr hu), Multiset.coe_erase]
  let p' : Page := { p with free := u.ptr :: p.free, used := p.used.erase u }
  have hmem : PagesInv g b.allocator (PageOk.freed m p.addr u.ptr) free (p' ::ₘ pages) large :=
    h.memory.update rfl (fun x hx => hout x (by omega) (by omega)) (hok.free hu (by omega))
  refine ⟨_, hfree, ⟨hmem, (h.lists.frame fun q hq => ?_).replace rfl rfl (by simp)⟩,
    fun v hv x hx hx' => ?_⟩
  · refine Mem.load_congr fun x hx hx' => ?_
    rcases Multiset.mem_cons.mp hq with rfl | hq
    · exact hout x (by omega) (by omega)
    · have := h.memory.disjoint hq
      exact hout x (by omega) (by omega)
  · rw [her] at hv
    rcases Multiset.mem_add.mp hv with hv | hv
    · have hv := Multiset.mem_coe.mp hv
      have hap := hok.used_apart hu hv
      have hin' := hok.used_inside (List.mem_of_mem_erase hv)
      have hlen' := (hok.grants v (List.mem_of_mem_erase hv)).1
      exact hout x (by omega) (by omega)
    · have := h.memory.grant_outside hv
      exact hout x (by omega) (by omega)

end BlockInv

namespace BlockAlloc.Tracked

variable {N : ℕ} {g : HeapGeometry N} {b : BlockAlloc} {m : Mem} {live : Multiset Grant}
  {blocks : Multiset (ℕ × ℕ)} {exact : Prop}

theorem valid (h : b.Tracked g m live blocks exact) : b.Valid g m live := by
  obtain ⟨free, pages, large, P, F, hinv, hgr, -⟩ := h
  exact ⟨free, pages, large, P, F, hinv, hgr⟩

/-- Requests of a page or more, after rounding up. -/
private theorem alloc_large (h : b.Tracked g m live blocks exact) {size : ℕ} (hsize : 2048 < size)
    (hs : size ≤ 2 ^ 63) : ∃ p a' m',
      b.allocator.alloc N m (2 ^ Nat.clog 2 size) = some (p, a', m') ∧
      Tracked g { b with allocator := a' } m'
        (if p = 0 then live else ⟨p, 2 ^ Nat.clog 2 size, size⟩ ::ₘ live) blocks exact ∧
      ∀ u ∈ live, m.SameOn m' u.ptr u.len := by
  obtain ⟨free, pages, large, P, F, h, rfl, hbl, hF⟩ := h
  have hk : Nat.clog 2 size ≤ 63 := (Nat.clog_le_iff_le_pow (by omega)).mpr hs
  obtain ⟨⟨p, a', m'⟩, hr⟩ := Option.isSome_iff_exists.mp (h.memory.buddy.alloc_returns
    (Nat.pow_le_pow_right (n := 2) (by omega) hk))
  refine ⟨p, a', m', hr, ?_⟩
  rcases h.memory.buddy.alloc_spec hr with ⟨rfl, rfl, rfl⟩ | ⟨off, free', rfl, hserve, hb, hsp⟩
  · exact ⟨⟨free, pages, large, P, F, h, rfl, hbl, hF⟩, fun u _ => .refl _ _ _⟩
  · have hpos := g.pos
    have hok := BlockInv.largeOk hsize hserve hb
    have hblk : g.largeBlk ⟨g.ptr + off, 2 ^ Nat.clog 2 size, size⟩ =
        g.blk (g.orderOf (2 ^ Nat.clog 2 size)) off := by
      simp only [HeapGeometry.largeBlk, Nat.add_sub_cancel_left]
    rw [← hblk, ← g.liveBlks_cons_large] at hb
    rw [if_neg (by omega)]
    refine ⟨⟨free', pages, _, P, F, h.replaceLarge hb (fun q hq => ?_) fun u hu => ?_, ?_, hbl,
      hF⟩, h.memory.spares_grants hsp⟩
    · exact h.memory.spares_page hsp hq
    · rcases Multiset.mem_cons.mp hu with rfl | hu
      exacts [hok, h.memory.largeOk u hu]
    · rw [grants, Multiset.add_cons]
      rfl

/-- A slot of a new block. -/
private theorem alloc_newBlock (h : b.Tracked g m live blocks exact) {k size : ℕ} (h3 : 3 ≤ k)
    (h12 : k < 12) (hsize : size ≤ 2 ^ k) : ∃ p b' m', b.makeBlock N m (2 ^ k) = some (p, b', m') ∧
      if p = 0 then b'.Tracked g m' live blocks exact ∧ m' = m
      else ∃ s b'' m'', BlockAlloc.allocInto
          { b' with partialBlocks := Function.update b'.partialBlocks k p }
          (Header.setNext m' p (b'.partialBlocks k)) k p = (s, b'', m'') ∧ s ≠ 0 ∧
        b''.Tracked g m'' (⟨s, 2 ^ k, size⟩ ::ₘ live) ((p, k) ::ₘ blocks) exact ∧
        ∀ u ∈ live, m.SameOn m'' u.ptr u.len := by
  obtain ⟨free, pages, large, P, F, h, rfl, rfl, hF⟩ := h
  obtain ⟨⟨p, a', m'⟩, hr⟩ := Option.isSome_iff_exists.mp (h.memory.buddy.alloc_returns
    (show blocksize ≤ 2 ^ 63 by decide))
  have hmk : b.makeBlock N m (2 ^ k) = some (if p = 0 then (0, { b with allocator := a' }, m')
      else (p, { b with allocator := a' }, formatBlock m' p (2 ^ k))) := by
    simp only [makeBlock, hr, Option.bind_eq_bind, Option.bind_some]
    split_ifs <;> rfl
  rcases h.memory.buddy.alloc_spec hr with ⟨rfl, rfl, rfl⟩ | ⟨off, free', rfl, hserve, hb, hsp⟩
  · exact ⟨0, b, m', hmk, ⟨free, pages, large, P, F, h, rfl, rfl, hF⟩, rfl⟩
  · have hpos := g.pos
    have h0 : g.ptr + off ≠ 0 := by omega
    rw [if_neg h0] at hmk
    refine ⟨_, _, _, hmk, ?_⟩
    rw [if_neg h0]
    obtain ⟨m₂, pages', P', rfl, hinv, hgr, hbl, hF', hsame⟩ := h.addBlock h3 h12 hb hsp
    obtain ⟨s, b'', m'', pages'', P'', F'', hres, hs, hinv', hgr', hbl', -, hF'', hsame'⟩ :=
      hinv.alloc_slot (c := k) (by simpa only [Function.update_self] using h0) hsize
    rw [hgr] at hgr' hsame'
    simp only [Function.update_self] at hres
    exact ⟨s, b'', m'', hres, hs, ⟨free', pages'', large, P'', F'', hinv', hgr', hbl'.trans hbl,
      fun he => hF'' (hF' (hF he))⟩,
      fun u hu => (hsame u hu).trans (hsame' u hu)⟩

/-- An allocation either fails or hands out one grant. Where the class of the request has a block
with room, it takes a slot there and leaves the underlying allocator alone. -/
theorem alloc (h : b.Tracked g m live blocks exact) {size : ℕ} (hs : size ≤ 2 ^ 63) :
    ∃ p len b' m', b.alloc N m size = some ((p, len), b', m') ∧
      b'.Tracked g m' (if p = 0 then live else ⟨p, len, size⟩ ::ₘ live)
        ((b.newBlock N m size).toList + blocks) exact ∧
      (∀ c, slotClass size = some c → (p ≠ 0 → len = 2 ^ c) ∧
        (b.partialBlocks c ≠ 0 → p ≠ 0 ∧ b'.allocator = b.allocator)) ∧
      ∀ u ∈ live, m.SameOn m' u.ptr u.len := by
  have hle := Nat.le_pow_clog (b := 2) (by omega) (if size < 8 then 8 else size)
  have hk : Nat.clog 2 (if size < 8 then 8 else size) ≤ 63 :=
    (Nat.clog_le_iff_le_pow (by omega)).mpr (by split_ifs <;> omega)
  have h3 : 3 ≤ Nat.clog 2 (if size < 8 then 8 else size) :=
    (Nat.lt_clog_iff_pow_lt (by omega)).mpr (by split_ifs <;> omega)
  have hpow : pow2ceil (if size < 8 then 8 else size) = some _ :=
    pow2ceil_eq (by split_ifs <;> omega)
  unfold BlockAlloc.alloc newBlock slotClass
  rw [hpow]
  simp only [Option.bind_eq_bind, Option.bind_some]
  set k := Nat.clog 2 (if size < 8 then 8 else size) with hkdef
  have hsize : size ≤ 2 ^ k := by split_ifs at hle <;> omega
  by_cases hlarge : 2 ^ k ≥ blocksize
  · rw [if_pos hlarge]
    have h2048 : 2048 < size := by
      have h11 : 11 < k := (Nat.pow_lt_pow_iff_right (by omega : 1 < 2)).mp
        (lt_of_lt_of_le (by decide) hlarge)
      have := (Nat.lt_clog_iff_pow_lt (by omega : 1 < 2)).mp h11
      split_ifs at this <;> omega
    have hksize : k = Nat.clog 2 size := by rw [hkdef, if_neg (by omega)]
    obtain ⟨p, a', m', hr, hv, hsame⟩ := h.alloc_large h2048 hs
    rw [if_pos hlarge, hksize, hr]
    exact ⟨p, _, _, m', rfl, by simpa using hv, fun c hc => by simp at hc, hsame⟩
  · rw [if_neg hlarge, if_neg hlarge, log2ceil_two_pow (by omega)]
    have h12 : k < 12 := (Nat.pow_lt_pow_iff_right (by omega : 1 < 2)).mp (by
      unfold blocksize pagesize at hlarge
      omega)
    simp only [Option.bind_some, Option.some.injEq, forall_eq']
    by_cases hb : b.partialBlocks k = 0
    · rw [if_neg (by simpa using hb), if_neg (by simpa using hb)]
      obtain ⟨p, b', m', hr, hv⟩ := h.alloc_newBlock h3 h12 hsize
      rw [hr, Option.bind_some, Option.bind_some]
      split_ifs at hv with hp
      · obtain ⟨hv, rfl⟩ := hv
        rw [if_pos hp, if_pos hp]
        exact ⟨0, 0, b', m', rfl, by simpa using hv,
          ⟨fun h0 => absurd rfl h0, fun hc => absurd hb hc⟩, fun u _ => .refl _ _ _⟩
      · obtain ⟨s, b'', m'', hres, hs0, hv, hsame⟩ := hv
        rw [if_neg hp, if_neg hp, hres]
        exact ⟨s, _, b'', m'', rfl, by simpa [hs0] using hv,
          ⟨fun _ => rfl, fun hc => absurd hb hc⟩, hsame⟩
    · rw [if_pos hb, if_pos hb]
      obtain ⟨free, pages, large, P, F, h, rfl, rfl, hF⟩ := h
      obtain ⟨s, b', m', pages', P', F', hres, hs0, hinv, hgr, hbl, hal, hF', hsame⟩ :=
        h.alloc_slot hb hsize
      rw [hres]
      refine ⟨s, _, b', m', rfl, ?_, ⟨fun _ => rfl, fun _ => ⟨hs0, hal⟩⟩, hsame⟩
      rw [if_neg hs0]
      exact ⟨free, pages', large, P', F', hinv, hgr, by simpa using hbl, fun he => hF' (hF he)⟩

private theorem free_large {free : ℕ → List ℕ} {pages : Multiset Page} {large : Multiset Grant}
    {P F : ℕ → List ℕ} {u : Grant} (h : BlockInv g b m free pages (u ::ₘ large) P F)
    (hF : exact → FullOn pages F) : ∃ b' m', b.free N m u.ptr u.size = some (b', m') ∧
      b'.Tracked g m' ((grants pages (u ::ₘ large)).erase u) (pages.map Page.place) exact ∧
      ∀ v ∈ (grants pages (u ::ₘ large)).erase u, m.SameOn m' v.ptr v.len := by
  have hu := h.memory.largeOk u (by simp)
  have hpos := g.pos
  have hge := hu.ptr_le
  have hb := h.memory.buddy
  rw [g.liveBlks_cons_large, HeapGeometry.largeBlk, ← hu.order] at hb
  obtain ⟨free', a', m', hr, hb', hsp⟩ := hb.free_spec hu.serves
  rw [Nat.add_sub_cancel' hge] at hr
  have hfree : b.free N m u.ptr u.size = some ({ b with allocator := a' }, m') := by
    rw [BlockAlloc.free, if_neg (by omega), if_pos (Nat.mod_eq_zero_of_dvd hu.aligned), hr]
    rfl
  have her : (grants pages (u ::ₘ large)).erase u = grants pages large := by
    rw [grants, Multiset.add_cons, Multiset.erase_cons_head]
    rfl
  have hrest : PagesOk g m pages large := ⟨h.memory.page, h.memory.ptr_le,
    fun v hv => h.memory.largeOk v (by simp [hv])⟩
  rw [her]
  exact ⟨_, m', hfree, ⟨free', pages, large, P, F, h.replaceLarge hb'
    (fun q hq => hrest.spares_page hsp hq) hrest.largeOk, rfl, rfl, hF⟩,
    hrest.spares_grants hsp⟩

/-- The alignment of the pointer tells who handed it out. -/
theorem free (h : b.Tracked g m live blocks exact) {u : Grant} (hu : u ∈ live)
    (hroom : exact → ¬InFullBlock m u.ptr) :
    ∃ b' m', b.free N m u.ptr u.size = some (b', m') ∧
      b'.Tracked g m' (live.erase u) blocks exact ∧
      ∀ v ∈ live.erase u, m.SameOn m' v.ptr v.len := by
  obtain ⟨free, pages, large, P, F, h, rfl, rfl, hF⟩ := h
  rcases Multiset.mem_add.mp hu with hp | hl
  · obtain ⟨p, hp, hu'⟩ := Multiset.mem_bind.mp hp
    have hu' := Multiset.mem_coe.mp hu'
    obtain ⟨rest, rfl⟩ := Multiset.exists_cons_of_mem hp
    obtain ⟨m', hr, hinv, hsame⟩ := h.free_slot hu'
    refine ⟨b, m', hr, ⟨free, _, large, P, F, hinv, ?_, ?_, fun he q hq hqF => ?_⟩, hsame⟩
    · rw [grants_cons, grants_cons, Multiset.erase_add_left_pos _ (Multiset.mem_coe.mpr hu'),
        Multiset.coe_erase]
    · rw [Multiset.map_cons, Multiset.map_cons]
      rfl
    · rcases Multiset.mem_cons.mp hq with rfl | hq
      · -- the block had room, so it is not on the full list
        refine absurd ((h.memory.inFullBlock_iff (Multiset.mem_cons_self p rest) hu').mpr ?_)
          (hroom he)
        exact hF he p (Multiset.mem_cons_self _ _) hqF
      · exact hF he q (Multiset.mem_cons_of_mem hq) hqF
  · obtain ⟨rest, rfl⟩ := Multiset.exists_cons_of_mem hl
    exact free_large h hF

/-- Clients may write what they were given. -/
theorem write (h : b.Tracked g m live blocks exact) {u : Grant} (hu : u ∈ live) {m' : Mem}
    (hm : ∀ x, x < u.ptr ∨ u.ptr + u.len ≤ x → m' x = m x) :
    b.Tracked g m' live blocks exact := by
  obtain ⟨free, pages, large, P, F, h, rfl, rfl, hF⟩ := h
  refine ⟨free, pages, large, P, F, ?_, rfl, rfl, hF⟩
  rcases Multiset.mem_add.mp hu with hp | hl
  · obtain ⟨p, hp, hu'⟩ := Multiset.mem_bind.mp hp
    have hu' := Multiset.mem_coe.mp hu'
    obtain ⟨rest, rfl⟩ := Multiset.exists_cons_of_mem hp
    have hok := h.memory.page p (by simp)
    have hin := hok.used_inside hu'
    have hlen := (hok.grants u hu').1
    have h8 := hok.bounds.eight
    have hok' : PageOk m' p := by
      refine hok.frame (fun x hx hx' => hm x (by omega)) fun s hs x hx hx' => hm x ?_
      have := hok.free_used hs hu'
      omega
    refine ⟨h.memory.update rfl (fun x hx => hm x (by omega)) hok', h.lists.frame fun q hq => ?_⟩
    refine Mem.load_congr fun x hx hx' => hm x ?_
    rcases Multiset.mem_cons.mp hq with rfl | hq
    · omega
    · have := h.memory.disjoint hq
      omega
  · obtain ⟨rest, rfl⟩ := Multiset.exists_cons_of_mem hl
    obtain ⟨he, hle⟩ := h.memory.largeBlk_covers hl
    have hsame : ∀ q ∈ pages, m.SameOn m' q.addr 4096 := fun q hq x hx hx' => by
      have := h.memory.large_outside hq hl
      exact hm x (by omega)
    exact h.replaceLarge (h.memory.buddy.frame_live (b := g.largeBlk u) (by simp) fun x hx =>
      hm x (by omega)) hsame h.memory.largeOk

end BlockAlloc.Tracked

namespace BlockAlloc.Valid

variable {N : ℕ} {g : HeapGeometry N} {b : BlockAlloc} {m : Mem} {live : Multiset Grant}

theorem tracked (h : b.Valid g m live) : ∃ blocks, b.Tracked g m live blocks False := by
  obtain ⟨free, pages, large, P, F, hinv, hgr⟩ := h
  exact ⟨_, free, pages, large, P, F, hinv, hgr, rfl, False.elim⟩

theorem alloc (h : b.Valid g m live) {size : ℕ} (hs : size ≤ 2 ^ 63) :
    ∃ p len b' m', b.alloc N m size = some ((p, len), b', m') ∧
      b'.Valid g m' (if p = 0 then live else ⟨p, len, size⟩ ::ₘ live) ∧
      ∀ u ∈ live, m.SameOn m' u.ptr u.len := by
  obtain ⟨blocks, h⟩ := h.tracked
  obtain ⟨p, len, b', m', hr, hv, -, hsame⟩ := h.alloc hs
  exact ⟨p, len, b', m', hr, hv.valid, hsame⟩

theorem free (h : b.Valid g m live) {u : Grant} (hu : u ∈ live) :
    ∃ b' m', b.free N m u.ptr u.size = some (b', m') ∧ b'.Valid g m' (live.erase u) ∧
      ∀ v ∈ live.erase u, m.SameOn m' v.ptr v.len := by
  obtain ⟨blocks, h⟩ := h.tracked
  obtain ⟨b', m', hr, hv, hsame⟩ := h.free hu False.elim
  exact ⟨b', m', hr, hv.valid, hsame⟩

theorem write (h : b.Valid g m live) {u : Grant} (hu : u ∈ live) {m' : Mem}
    (hm : ∀ x, x < u.ptr ∨ u.ptr + u.len ≤ x → m' x = m x) : b.Valid g m' live := by
  obtain ⟨blocks, h⟩ := h.tracked
  exact (h.write hu hm).valid

end BlockAlloc.Valid

end Multiplix.Alloc
