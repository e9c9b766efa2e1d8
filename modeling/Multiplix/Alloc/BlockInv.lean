import Multiplix.Alloc.BuddySafety
import Multiplix.Alloc.Page
import Mathlib.Data.Multiset.Bind
import Mathlib.Data.Multiset.Filter

/-! The invariant of the block allocator: blocks of slots and large grants are live blocks of the
buddy allocator, and each class of slots has its blocks on two lists. -/
namespace Multiplix.Alloc
open Lib Core

namespace HeapGeometry

variable {N : ℕ} (g : HeapGeometry N)

def pageBlk (p : Page) : Blk := g.blk (g.orderOf blocksize) (p.addr - g.ptr)

def largeBlk (u : Grant) : Blk := g.blk (g.orderOf u.len) (u.ptr - g.ptr)

def liveBlks (pages : Multiset Page) (large : Multiset Grant) : Multiset Blk :=
  pages.map g.pageBlk + large.map g.largeBlk

@[simp] theorem liveBlks_cons (p : Page) (pages : Multiset Page) (large : Multiset Grant) :
    g.liveBlks (p ::ₘ pages) large = g.pageBlk p ::ₘ g.liveBlks pages large := by
  simp [liveBlks]

@[simp] theorem liveBlks_cons_large (u : Grant) (pages : Multiset Page) (large : Multiset Grant) :
    g.liveBlks pages (u ::ₘ large) = g.largeBlk u ::ₘ g.liveBlks pages large := by
  simp [liveBlks]

theorem le_size_blk (g : HeapGeometry N) (size off : ℕ) :
    size ≤ (g.blk (g.orderOf size) off).size ∧
      alignment size ∣ (g.blk (g.orderOf size) off).size := by
  have hle := g.le_two_pow_requestLog size (alignment size)
  rw [blk, Blk.size, g.minLog_add_orderOf]
  refine ⟨hle.1, ?_⟩
  obtain ⟨i, hi⟩ : ∃ i, alignment size = 2 ^ i := by
    rcases alignment_cases size with h | h
    exacts [⟨12, h⟩, ⟨4, h⟩]
  rw [hi] at hle ⊢
  exact pow_dvd_pow 2 ((Nat.pow_le_pow_iff_right (by omega : 1 < 2)).mp hle.2)

end HeapGeometry

/-- All that was handed out. -/
def grants (pages : Multiset Page) (large : Multiset Grant) : Multiset Grant :=
  pages.bind (fun p => (p.used : Multiset Grant)) + large

theorem grants_cons (p : Page) (pages : Multiset Page) (large : Multiset Grant) :
    grants (p ::ₘ pages) large = (p.used : Multiset Grant) + grants pages large := by
  simp [grants, Multiset.add_assoc]

/-- A grant that came straight from the buddy allocator. -/
structure LargeOk {N : ℕ} (g : HeapGeometry N) (u : Grant) : Prop where
  ptr_le : g.ptr ≤ u.ptr
  aligned : pagesize ∣ u.ptr
  large : blocksize ≤ u.len
  size_le : u.size ≤ u.len
  serves : g.Serves u.size
  serves_len : g.Serves u.len
  order : g.orderOf u.size = g.orderOf u.len

/-- The blocks of slots and the large grants by themselves. -/
structure PagesOk {N : ℕ} (g : HeapGeometry N) (m : Mem) (pages : Multiset Page)
    (large : Multiset Grant) : Prop where
  page : ∀ p ∈ pages, PageOk m p
  ptr_le : ∀ p ∈ pages, g.ptr ≤ p.addr
  largeOk : ∀ u ∈ large, LargeOk g u

/-- The part of the invariant about the memory of the heap. -/
structure PagesInv {N : ℕ} (g : HeapGeometry N) (a : BuddyAlloc) (m : Mem) (free : ℕ → List ℕ)
    (pages : Multiset Page) (large : Multiset Grant) : Prop extends PagesOk g m pages large where
  buddy : BuddyInv g a m free (g.liveBlks pages large)

/-- The blocks of a class. -/
def classAddrs (pages : Multiset Page) (c : ℕ) : Multiset ℕ :=
  (pages.filter (·.cls = c)).map Page.addr

theorem classAddrs_cons_of_eq {p : Page} {c : ℕ} (pages : Multiset Page) (h : p.cls = c) :
    classAddrs (p ::ₘ pages) c = p.addr ::ₘ classAddrs pages c := by
  simp [classAddrs, h]

theorem classAddrs_cons_of_ne {p : Page} {c : ℕ} (pages : Multiset Page) (h : p.cls ≠ c) :
    classAddrs (p ::ₘ pages) c = classAddrs pages c := by
  simp [classAddrs, h]

/-- The part about the lists of blocks, `P` of those with room and `F` of the full ones. -/
structure ListsInv (pb fb : ℕ → ℕ) (m : Mem) (pages : Multiset Page) (P F : ℕ → List ℕ) :
    Prop where
  partialChain : ∀ c, Chain (Header.next m) (pb c) (P c) 0
  fullChain : ∀ c, Chain (Header.next m) (fb c) (F c) 0
  lists : ∀ c, ((P c ++ F c : List ℕ) : Multiset ℕ) = classAddrs pages c
  room : ∀ p ∈ pages, p.addr ∈ P p.cls → p.free ≠ []

namespace PagesOk

variable {N : ℕ} {g : HeapGeometry N} {m m' : Mem} {pages : Multiset Page}
  {large : Multiset Grant} {p : Page} {u : Grant}

theorem pageBlk_covers (h : PagesOk g m pages large) (hp : p ∈ pages) :
    p.addr = g.ptr + (g.pageBlk p).off ∧ 4096 ≤ (g.pageBlk p).size :=
  ⟨(Nat.add_sub_cancel' (h.ptr_le p hp)).symm, (g.le_size_blk blocksize _).1⟩

theorem largeBlk_covers (h : PagesOk g m pages large) (hu : u ∈ large) :
    u.ptr = g.ptr + (g.largeBlk u).off ∧ u.len ≤ (g.largeBlk u).size :=
  ⟨(Nat.add_sub_cancel' (h.largeOk u hu).ptr_le).symm, (g.le_size_blk u.len _).1⟩

/-- Writes that spare the live blocks keep the blocks of slots. -/
theorem spares_page (h : PagesOk g m pages large) (hs : Spares g (g.liveBlks pages large) m m')
    (hp : p ∈ pages) : m.SameOn m' p.addr 4096 := by
  have hb : g.pageBlk p ∈ g.liveBlks pages large :=
    Multiset.mem_add.mpr (Or.inl (Multiset.mem_map_of_mem _ hp))
  obtain ⟨he, hle⟩ := h.pageBlk_covers hp
  rw [he]
  exact (hs _ hb).mono le_rfl (by omega)

/-- Every grant lies in one live block. -/
theorem grant_blk (h : PagesOk g m pages large) (hu : u ∈ grants pages large) :
    ∃ c ∈ g.liveBlks pages large,
      g.ptr + c.off ≤ u.ptr ∧ u.ptr + u.len ≤ g.ptr + c.off + c.size := by
  rcases Multiset.mem_add.mp hu with hp | hl
  · obtain ⟨q, hq, hu⟩ := Multiset.mem_bind.mp hp
    have hin := (h.page q hq).used_inside (Multiset.mem_coe.mp hu)
    obtain ⟨he, hle⟩ := h.pageBlk_covers hq
    exact ⟨g.pageBlk q, Multiset.mem_add.mpr (Or.inl (Multiset.mem_map_of_mem _ hq)),
      by omega, by omega⟩
  · obtain ⟨he, hle⟩ := h.largeBlk_covers hl
    exact ⟨g.largeBlk u, Multiset.mem_add.mpr (Or.inr (Multiset.mem_map_of_mem _ hl)),
      by omega, by omega⟩

theorem spares_grants (h : PagesOk g m pages large)
    (hs : Spares g (g.liveBlks pages large) m m') :
    ∀ u ∈ grants pages large, m.SameOn m' u.ptr u.len := fun u hu => by
  obtain ⟨c, hc, h1, h2⟩ := h.grant_blk hu
  exact (hs c hc).mono h1 h2

end PagesOk

namespace PagesInv

variable {N : ℕ} {g : HeapGeometry N} {a a' : BuddyAlloc} {m m' : Mem} {free : ℕ → List ℕ}
  {pages : Multiset Page} {large : Multiset Grant} {p : Page} {u : Grant}

/-- Two blocks of slots share no byte. -/
private theorem apart {q : Page} (hb : BuddyInv g a m free (g.pageBlk p ::ₘ g.liveBlks pages large))
    (hp : g.ptr ≤ p.addr) (hq : q ∈ pages) (hq' : g.ptr ≤ q.addr) :
    p.addr + 4096 ≤ q.addr ∨ q.addr + 4096 ≤ p.addr := by
  have ht := hb.tiles
  rw [Multiset.add_cons] at ht
  have hd := ht.disjoint_of_mem (c := g.pageBlk q) (Multiset.mem_add.mpr (Or.inr
    (Multiset.mem_add.mpr (Or.inl (Multiset.mem_map_of_mem _ hq)))))
  have h1 : 4096 ≤ (g.pageBlk p).size := (g.le_size_blk blocksize _).1
  have h2 : 4096 ≤ (g.pageBlk q).size := (g.le_size_blk blocksize _).1
  simp only [Blk.Disjoint, HeapGeometry.pageBlk, HeapGeometry.blk] at hd h1 h2
  omega

theorem disjoint (h : PagesInv g a m free (p ::ₘ pages) large) {q : Page} (hq : q ∈ pages) :
    p.addr + 4096 ≤ q.addr ∨ q.addr + 4096 ≤ p.addr := by
  have hb := h.buddy
  rw [g.liveBlks_cons] at hb
  exact apart hb (h.ptr_le p (by simp)) hq (h.ptr_le q (by simp [hq]))

/-- Pages that are not written, and one more live block formatted as a block of slots. -/
theorem addPage (h : PagesOk g m pages large)
    (hb : BuddyInv g a m' free (g.pageBlk p ::ₘ g.liveBlks pages large)) (hp : g.ptr ≤ p.addr)
    (hs : ∀ q ∈ pages, m.SameOn m' q.addr 4096) {m'' : Mem}
    (hm : ∀ x, x < p.addr ∨ p.addr + 4096 ≤ x → m'' x = m' x) (hok : PageOk m'' p) :
    PagesInv g a m'' free (p ::ₘ pages) large := by
  have hle : 4096 ≤ (g.pageBlk p).size := (g.le_size_blk blocksize _).1
  have he : p.addr = g.ptr + (g.pageBlk p).off := (Nat.add_sub_cancel' hp).symm
  refine ⟨⟨?_, ?_, h.largeOk⟩, ?_⟩
  · intro q hq
    rcases Multiset.mem_cons.mp hq with rfl | hq
    · exact hok
    · have hd := apart hb hp hq (h.ptr_le q hq)
      exact (h.page q hq).frame_all ((hs q hq).trans fun x hx hx' => hm x (by omega))
  · intro q hq
    rcases Multiset.mem_cons.mp hq with rfl | hq
    exacts [hp, h.ptr_le q hq]
  · rw [g.liveBlks_cons]
    exact hb.frame_live (b := g.pageBlk p) (by simp) fun x hx => hm x (by omega)

/-- Writing inside one block of slots. -/
theorem update (h : PagesInv g a m free (p ::ₘ pages) large) {p' : Page} (ha : p'.addr = p.addr)
    (hm : ∀ x, x < p.addr ∨ p.addr + 4096 ≤ x → m' x = m x) (hok : PageOk m' p') :
    PagesInv g a m' free (p' ::ₘ pages) large := by
  have hblk : g.pageBlk p' = g.pageBlk p := by simp only [HeapGeometry.pageBlk, ha]
  have hb := h.buddy
  rw [g.liveBlks_cons, ← hblk] at hb
  have hrest : PagesOk g m pages large := ⟨fun q hq => h.page q (by simp [hq]),
    fun q hq => h.ptr_le q (by simp [hq]), h.largeOk⟩
  refine addPage hrest hb ?_ (fun q _ => .refl _ _ _) (by rwa [ha]) hok
  rw [ha]
  exact h.ptr_le p (by simp)

end PagesInv

namespace ListsInv

variable {pb fb : ℕ → ℕ} {m m' : Mem} {pages : Multiset Page} {P F : ℕ → List ℕ} {p : Page}

theorem mem_pages (h : ListsInv pb fb m pages P F) {c y : ℕ} (hy : y ∈ P c ++ F c) :
    ∃ q ∈ pages, q.cls = c ∧ q.addr = y := by
  have hm : y ∈ classAddrs pages c := by rw [← h.lists c]; exact hy
  obtain ⟨q, hq, rfl⟩ := Multiset.mem_map.mp hm
  exact ⟨q, (Multiset.mem_filter.mp hq).1, (Multiset.mem_filter.mp hq).2, rfl⟩

theorem mem_lists (h : ListsInv pb fb m pages P F) (hp : p ∈ pages) :
    p.addr ∈ P p.cls ++ F p.cls := by
  have hm : p.addr ∈ classAddrs pages p.cls :=
    Multiset.mem_map_of_mem _ (Multiset.mem_filter.mpr ⟨hp, rfl⟩)
  rw [← h.lists] at hm
  exact hm

/-- Only the links of the blocks matter. -/
theorem frame (h : ListsInv pb fb m pages P F)
    (hn : ∀ q ∈ pages, Header.next m' q.addr = Header.next m q.addr) :
    ListsInv pb fb m' pages P F :=
  { h with
    partialChain := fun c => (h.partialChain c).frame fun y hy => by
      obtain ⟨q, hq, -, rfl⟩ := h.mem_pages (List.mem_append_left (F c) hy)
      exact hn q hq
    fullChain := fun c => (h.fullChain c).frame fun y hy => by
      obtain ⟨q, hq, -, rfl⟩ := h.mem_pages (List.mem_append_right (P c) hy)
      exact hn q hq }

/-- A block keeps its place on the lists as long as it has room. -/
theorem replace (h : ListsInv pb fb m (p ::ₘ pages) P F) {p' : Page} (ha : p'.addr = p.addr)
    (hc : p'.cls = p.cls) (hf : p'.free ≠ []) : ListsInv pb fb m (p' ::ₘ pages) P F where
  partialChain := h.partialChain
  fullChain := h.fullChain
  lists c := by
    rw [h.lists c]
    by_cases he : p.cls = c
    · rw [classAddrs_cons_of_eq _ he, classAddrs_cons_of_eq _ (hc.trans he), ha]
    · rw [classAddrs_cons_of_ne _ he, classAddrs_cons_of_ne _ (by rwa [hc])]
  room q hq hP := by
    rcases Multiset.mem_cons.mp hq with rfl | hq
    exacts [hf, h.room q (Multiset.mem_cons_of_mem hq) hP]

/-- A new block joins the list of the blocks with room. -/
theorem push (h : ListsInv pb fb m pages P F) (m' : Mem) (h0 : p.addr ≠ 0) (hf : p.free ≠ [])
    (hne : ∀ q ∈ pages, q.addr ≠ p.addr)
    (hn : ∀ q ∈ pages, Header.next m' q.addr = Header.next m q.addr)
    (hnext : Header.next m' p.addr = pb p.cls) :
    ListsInv (Function.update pb p.cls p.addr) fb m' (p ::ₘ pages)
      (Function.update P p.cls (p.addr :: P p.cls)) F := by
  have hm := h.frame hn
  refine ⟨fun c => ?_, hm.fullChain, fun c => ?_, fun q hq hP => ?_⟩
  · rcases eq_or_ne c p.cls with rfl | hc
    · simpa [h0, hnext] using hm.partialChain p.cls
    · simpa [hc] using hm.partialChain c
  · have hl := hm.lists c
    rcases eq_or_ne c p.cls with rfl | hc
    · rw [Function.update_self, List.cons_append, ← Multiset.cons_coe, hl,
        classAddrs_cons_of_eq _ rfl]
    · rw [Function.update_of_ne hc, classAddrs_cons_of_ne _ hc.symm, hl]
  · rcases Multiset.mem_cons.mp hq with rfl | hq
    · exact hf
    · refine hm.room q hq ?_
      rcases eq_or_ne q.cls p.cls with hc | hc
      · rw [hc, Function.update_self] at hP
        rw [hc]
        exact (List.mem_cons.mp hP).resolve_left (hne q hq)
      · rwa [Function.update_of_ne hc] at hP

/-- The first block with room became full. -/
theorem moveFull (h : ListsInv pb fb m (p ::ₘ pages) P F) {p' : Page} {l : List ℕ}
    (hP : P p.cls = p.addr :: l) (ha : p'.addr = p.addr) (hc : p'.cls = p.cls)
    (hne : ∀ q ∈ pages, q.addr ≠ p.addr)
    (hn : ∀ q ∈ pages, Header.next m' q.addr = Header.next m q.addr)
    (hnext : Header.next m' p.addr = fb p.cls) :
    ListsInv (Function.update pb p.cls (Header.next m p.addr)) (Function.update fb p.cls p.addr) m'
      (p' ::ₘ pages) (Function.update P p.cls l) (Function.update F p.cls (p.addr :: F p.cls)) := by
  have hrest : ((l ++ F p.cls : List ℕ) : Multiset ℕ) = classAddrs pages p.cls := by
    have hl := h.lists p.cls
    rw [hP, List.cons_append, ← Multiset.cons_coe, classAddrs_cons_of_eq _ rfl] at hl
    exact (Multiset.cons_inj_right _).mp hl
  have hother : ∀ c ≠ p.cls, ((P c ++ F c : List ℕ) : Multiset ℕ) = classAddrs pages c :=
    fun c hne' => by rw [h.lists c, classAddrs_cons_of_ne _ hne'.symm]
  have hnext' : ∀ c, ∀ y ∈ Function.update P p.cls l c ++ F c,
      Header.next m' y = Header.next m y ∧ y ≠ p.addr := by
    intro c y hy
    have hy' : y ∈ classAddrs pages c := by
      rcases eq_or_ne c p.cls with rfl | hc'
      · rw [← hrest]
        simpa using hy
      · rw [← hother c hc']
        simpa [hc'] using hy
    obtain ⟨q, hq, rfl⟩ := Multiset.mem_map.mp hy'
    have hq := Multiset.mem_of_mem_filter hq
    exact ⟨hn q hq, hne q hq⟩
  have hhead := h.partialChain p.cls
  rw [hP] at hhead
  obtain ⟨-, h0, htail⟩ := hhead
  refine ⟨fun c => ?_, fun c => ?_, fun c => ?_, fun q hq hq' => ?_⟩
  · have hframe : ∀ y ∈ Function.update P p.cls l c, Header.next m' y = Header.next m y :=
      fun y hy => (hnext' c y (List.mem_append_left _ hy)).1
    rcases eq_or_ne c p.cls with rfl | hc'
    · simp only [Function.update_self] at hframe ⊢
      exact htail.frame hframe
    · simp only [Function.update_of_ne hc'] at hframe ⊢
      exact (h.partialChain c).frame hframe
  · have hF := (h.fullChain c).frame fun y hy => (hnext' c y (List.mem_append_right _ hy)).1
    rcases eq_or_ne c p.cls with rfl | hc'
    · simpa [h0, hnext] using hF
    · simpa [hc'] using hF
  · rcases eq_or_ne c p.cls with rfl | hc'
    · rw [Function.update_self, Function.update_self, classAddrs_cons_of_eq _ hc, ha, ← hrest,
        Multiset.cons_coe, Multiset.coe_eq_coe]
      exact List.perm_middle
    · rw [Function.update_of_ne hc', Function.update_of_ne hc', hother c hc',
        classAddrs_cons_of_ne _ (by rw [hc]; exact hc'.symm)]
  · rcases Multiset.mem_cons.mp hq with rfl | hq
    · rw [hc] at hq'
      exact absurd ha (hnext' p.cls _ (List.mem_append_left _ hq')).2
    · refine h.room q (Multiset.mem_cons_of_mem hq) ?_
      rcases eq_or_ne q.cls p.cls with he | he
      · rw [he, Function.update_self] at hq'
        rw [he, hP]
        exact List.mem_cons_of_mem _ hq'
      · rwa [Function.update_of_ne he] at hq'

end ListsInv
end Multiplix.Alloc
