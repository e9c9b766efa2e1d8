import Multiplix.Alloc.Page

/-! The free list of one block of slots, from `make_block` on. -/
namespace Multiplix.Alloc
open Lib

/-- The memory and what was handed out of the block, after it was made with slots of `2 ^ cls` bytes
and any calls for it. Clients write to their slots, and the lists of blocks to its `next`. -/
inductive SlotRun (block cls : ℕ) : Mem → List Grant → Prop
  | make (m : Mem) : SlotRun block cls (BlockAlloc.formatBlock m block (2 ^ cls)) []
  | alloc {m m' : Mem} {used : List Grant} {p size : ℕ} : SlotRun block cls m used →
      size ≤ 2 ^ cls → Header.allocate m block = (p, m') → p ≠ 0 →
      SlotRun block cls m' (⟨p, 2 ^ cls, size⟩ :: used)
  | free {m m' : Mem} {used : List Grant} {u : Grant} {N : ℕ} {b b' : BlockAlloc} :
      SlotRun block cls m used → u ∈ used → b.free N m u.ptr u.size = some (b', m') →
      SlotRun block cls m' (used.erase u)
  | write {m : Mem} {used : List Grant} {u : Grant} {x : ℕ} (v : Byte) :
      SlotRun block cls m used → u ∈ used → u.ptr ≤ x → x < u.ptr + u.len →
      SlotRun block cls (Function.update m x v) used
  | setNext {m : Mem} {used : List Grant} (v : ℕ) : SlotRun block cls m used →
      SlotRun block cls (Header.setNext m block v) used
  /-- Other memory changes. -/
  | other {m m' : Mem} {used : List Grant} : SlotRun block cls m used →
      m.SameOn m' block blocksize → SlotRun block cls m' used

/-- Following `next` from `free_head` visits the slots that are not handed out, and ends. -/
structure ExactList (m : Mem) (block sz : ℕ) (used : List Grant) (free : List ℕ) : Prop where
  chain : Chain (m.load 8) (Header.freeHead m block) free 0
  length : free.length = Header.totalSlots m block - Header.allocSlots m block
  nodup : free.Nodup
  slot : ∀ s ∈ free, ∃ i, s = block + Header.sizeof + i * sz
  inside : ∀ s ∈ free, s + sz ≤ block + blocksize
  apart : ∀ s ∈ free, ∀ u ∈ used, s + sz ≤ u.ptr ∨ u.ptr + u.len ≤ s

variable {m : Mem} {block cls : ℕ} {used : List Grant} {free : List ℕ}

/-- In a block of words the null that ends the list is written to the last slot. -/
theorem formatBlock_last (m : Mem) :
    (BlockAlloc.formatBlock m block (2 ^ 3)).load 8 (slotAddr block 3 (slotCount 3 - 1)) = 0 := by
  have haddr : slotAddr block 3 (slotCount 3 - 1) = block + 24 + (4072 - 2 ^ 3) := by
    have hcount : slotCount 3 = 509 := by decide
    rw [slotAddr, hcount, Header.sizeof]
    omega
  rw [formatBlock_eq, haddr]
  exact Mem.load_store_word _ _ (by decide)

/-- In a block of larger slots it is written elsewhere: the last slot has a link past all slots. -/
theorem formatBlock_past (m : Mem) (h4 : 4 ≤ cls) (h12 : cls < 12) (hfit : block + 4096 ≤ 2 ^ 64) :
    (BlockAlloc.formatBlock m block (2 ^ cls)).load 8 (slotAddr block cls (slotCount cls - 1)) =
      slotAddr block cls (slotCount cls) := by
  have hpos := (classBounds (by omega : 3 ≤ cls) h12).count_pos
  have hrest : slotCount cls * 2 ^ cls + 8 ≤ 4072 := by
    interval_cases cls <;> decide
  have hlink := formatBlock_link m (by omega) h12 hfit (j := slotCount cls - 1)
    (by rwa [Nat.sub_add_cancel hpos])
  rwa [Nat.sub_add_cancel hpos] at hlink

/-- The free slots of the page end in null. -/
def Ends (m : Mem) (p : Page) : Prop := Chain (m.load 8) (Header.freeHead m p.addr) p.free 0

theorem ExactList.of_page {p : Page} (h : PageOk m p) (hc : Ends m p) :
    ExactList m p.addr (2 ^ p.cls) p.used p.free := by
  have hpair := (List.pairwise_append.mp h.pairwise).1
  have h8 := h.bounds.eight
  refine ⟨hc, ?_, hpair.imp fun hst => by omega, fun s hs => ?_, fun s hs => (h.free_inside hs).2,
    fun s hs u hu => ?_⟩
  · rw [h.totalSlots, h.allocSlots, ← h.length_eq, Nat.add_sub_cancel]
  · obtain ⟨i, -, rfl⟩ := List.mem_map.mp (h.slots.subset (List.mem_append_left _ hs))
    exact ⟨i, rfl⟩
  · rw [(h.grants u hu).1]
    exact h.free_used hs hu

/-- Where the new block's list ends in null, it does after every call. -/
theorem SlotRun.page (hal : 4096 ∣ block) (hfit : block + 4096 ≤ 2 ^ 64) (h3 : 3 ≤ cls)
    (h12 : cls < 12) (hend : ∀ m, (BlockAlloc.formatBlock m block (2 ^ cls)).load 8
      (slotAddr block cls (slotCount cls - 1)) = 0)
    (h : SlotRun block cls m used) :
    ∃ free, PageOk m ⟨block, cls, free, used⟩ ∧ Ends m ⟨block, cls, free, used⟩ := by
  induction h with
  | make m =>
    refine ⟨_, formatBlock_ok m h3 h12 hal hfit, ?_⟩
    have hc := formatBlock_chain m h3 h12 hfit
    rwa [hend] at hc
  | @alloc m m' used p size _ hsize hr hp ih =>
    obtain ⟨free, hok, hc⟩ := ih
    have hhead : Header.freeHead m block ≠ 0 := fun h0 => by
      unfold Header.allocate at hr
      dsimp only at hr
      rw [if_pos h0] at hr
      exact hp (congrArg Prod.fst hr).symm
    obtain ⟨fs, hfree, -⟩ := hc.exists_cons_of_ne hhead
    obtain ⟨hres, hok'⟩ := hok.allocate hfree hsize
    have hc' := hok.allocate_chain hfree hc
    dsimp only at hres hok' hc'
    rw [hr] at hres hok' hc'
    rw [← hres] at hok'
    exact ⟨fs, hok', hc'⟩
  | @free m m' used u N b b' _ hu hr ih =>
    obtain ⟨free, hok, hc⟩ := ih
    have hin := hok.used_inside hu
    have hpos := hok.bounds.eight
    rw [← (hok.grants u hu).1] at hpos
    dsimp only at hin
    have hlt : u.ptr < 2 ^ 64 := by omega
    rw [hok.free_eq hu hfit] at hr
    cases hr
    exact ⟨_, hok.free hu hlt, hok.free_chain hu hlt hc⟩
  | @write m used u x v _ hu h1 h2 ih =>
    obtain ⟨free, hok, hc⟩ := ih
    have hin := hok.used_inside hu
    have hsame {a n : ℕ} (ha : x < a ∨ a + n ≤ x) : m.SameOn (Function.update m x v) a n :=
      fun y hy hy' => Function.update_of_ne (by omega) _ _
    have hslots : ∀ s ∈ free, m.SameOn (Function.update m x v) s 8 := fun s hs => by
      have hfu := hok.free_used hs hu
      have h8 := hok.bounds.eight
      rw [(hok.grants u hu).1] at h2
      dsimp only at hfu h2 h8
      exact hsame (by omega)
    dsimp only at hin
    exact ⟨free, hok.frame (hsame (Or.inr (by dsimp only; omega))) hslots,
      PageOk.frame_chain (hsame (Or.inr (by dsimp only; omega))) hslots hc⟩
  | @setNext m used v _ ih =>
    obtain ⟨free, hok, hc⟩ := ih
    have hsame {a n : ℕ} (ha : a + n ≤ block + 16 ∨ block + 24 ≤ a) :
        m.SameOn (Header.setNext m block v) a n := fun y hy hy' =>
      Mem.store_outside _ _ (by omega)
    have hslots : ∀ s ∈ free, m.SameOn (Header.setNext m block v) s 8 := fun s hs =>
      hsame (Or.inr (hok.free_inside hs).1)
    exact ⟨free, hok.frame (hsame (Or.inl le_rfl)) hslots,
      PageOk.frame_chain (hsame (Or.inl (by dsimp only; omega))) hslots hc⟩
  | @other m m' used _ hm ih =>
    obtain ⟨free, hok, hc⟩ := ih
    have hslots : ∀ s ∈ free, m.SameOn m' s 8 := fun s hs => by
      have hin := hok.free_inside hs
      have h8 := hok.bounds.eight
      dsimp only at hin h8
      exact hm.mono (by omega) (by unfold blocksize pagesize; omega)
    have hhead : m.SameOn m' block 8 := hm.mono le_rfl (by unfold blocksize pagesize; omega)
    exact ⟨free, hok.frame_all hm, PageOk.frame_chain hhead hslots hc⟩

/-- The list of a new block does not stop behind its slots. -/
theorem not_exactList_formatBlock (m : Mem) (h4 : 4 ≤ cls) (h12 : cls < 12) (hal : 4096 ∣ block)
    (hfit : block + 4096 ≤ 2 ^ 64) :
    ¬ ExactList (BlockAlloc.formatBlock m block (2 ^ cls)) block (2 ^ cls) [] free := by
  intro h
  have hok := formatBlock_ok m (by omega) h12 hal hfit
  have hlen := h.length
  rw [hok.totalSlots, hok.allocSlots, List.length_nil, Nat.sub_zero] at hlen
  have hc := formatBlock_chain m (by omega) h12 hfit
  rw [formatBlock_past m h4 h12 hfit] at hc
  obtain ⟨-, hend⟩ := hc.unique_of_length h.chain (by simp [slotAddrs, hlen])
  unfold slotAddr Header.sizeof at hend
  omega

/-- The free list of a block is exact after all calls for it if and only if its slots are words. -/
theorem exactList_iff (hal : 4096 ∣ block) (hfit : block + 4096 ≤ 2 ^ 64) (h3 : 3 ≤ cls)
    (h12 : cls < 12) :
    (∀ m used, SlotRun block cls m used → ∃ free, ExactList m block (2 ^ cls) used free) ↔
      2 ^ cls = 8 := by
  constructor
  · intro h
    obtain ⟨free, hfree⟩ := h _ _ (.make fun _ => 0)
    by_contra hne
    have h4 : 4 ≤ cls := by
      rcases (by omega : cls = 3 ∨ 4 ≤ cls) with rfl | h4
      · exact absurd rfl hne
      · exact h4
    exact not_exactList_formatBlock _ h4 h12 hal hfit hfree
  · intro h m used hr
    obtain rfl : cls = 3 := Nat.pow_right_injective le_rfl h
    obtain ⟨free, hok, hc⟩ := hr.page hal hfit h3 h12 formatBlock_last
    exact ⟨free, .of_page hok hc⟩

/-- A block of words at the second page. -/
theorem exactList_iff_words :
    (∀ m used, SlotRun 4096 3 m used → ∃ free, ExactList m 4096 (2 ^ 3) used free) ↔ 2 ^ 3 = 8 :=
  exactList_iff (by decide) (by decide) (by decide) (by decide)

/-- A new block of pairs of words there. -/
theorem not_exactList_pairs : SlotRun 4096 4 (BlockAlloc.formatBlock (fun _ => 0) 4096 16) [] ∧
    ¬ ∃ free, ExactList (BlockAlloc.formatBlock (fun _ => 0) 4096 16) 4096 16 [] free :=
  ⟨.make _, fun ⟨_, h⟩ => not_exactList_formatBlock (fun _ => 0) (show 4 ≤ 4 by decide) (by decide)
    (by decide) (by decide) h⟩

end Multiplix.Alloc
