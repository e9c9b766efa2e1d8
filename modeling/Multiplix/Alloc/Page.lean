import Multiplix.Alloc.Block
import Multiplix.Lib.Chain
import Mathlib.Tactic.IntervalCases

/-! One block of slots: what its header and its free list say about the slots handed out. -/
namespace Multiplix.Alloc
open Lib Core

/-- A slice returned by the allocator, with the size that was asked for. -/
structure Grant where
  ptr : ℕ
  len : ℕ
  size : ℕ
  deriving DecidableEq

/-- A block of slots of `2 ^ cls` bytes. -/
structure Page where
  addr : ℕ
  cls : ℕ
  free : List ℕ
  used : List Grant

def slotCount (cls : ℕ) : ℕ := (blocksize - Header.sizeof) / 2 ^ cls

def slotAddr (addr cls i : ℕ) : ℕ := addr + Header.sizeof + i * 2 ^ cls

def slotAddrs (addr cls : ℕ) : List ℕ := (List.range (slotCount cls)).map (slotAddr addr cls)

/-- The size classes below a page: a slot holds a link, and a block at least one slot. -/
structure ClassBounds (cls : ℕ) : Prop where
  eight : 8 ≤ 2 ^ cls
  count_pos : 0 < slotCount cls
  count_lt : slotCount cls < 2 ^ 32
  count_mul : slotCount cls * 2 ^ cls ≤ 4072
  dvd : 2 ^ cls ∣ 4096

theorem classBounds {cls : ℕ} (h : 3 ≤ cls) (h' : cls < 12) : ClassBounds cls := by
  constructor <;> interval_cases cls <;> decide

section Slots

variable {addr cls : ℕ}

theorem slotAddr_mono (addr cls : ℕ) {i j : ℕ} (h : i < j) :
    slotAddr addr cls i + 2 ^ cls ≤ slotAddr addr cls j := by
  have hm := Nat.mul_le_mul_right (2 ^ cls) (Nat.succ_le_of_lt h)
  rw [Nat.succ_mul] at hm
  unfold slotAddr
  omega

theorem slotAddr_inside (hc : ClassBounds cls) {i : ℕ} (hi : i < slotCount cls) :
    addr + 24 ≤ slotAddr addr cls i ∧ slotAddr addr cls i + 2 ^ cls ≤ addr + 4096 := by
  have hm := Nat.mul_le_mul_right (2 ^ cls) (Nat.succ_le_of_lt hi)
  have h2 := hc.count_mul
  rw [Nat.succ_mul] at hm
  unfold slotAddr Header.sizeof
  omega

theorem mem_slotAddrs_inside (hc : ClassBounds cls) {s : ℕ} (hs : s ∈ slotAddrs addr cls) :
    addr + 24 ≤ s ∧ s + 2 ^ cls ≤ addr + 4096 := by
  obtain ⟨i, hi, rfl⟩ := List.mem_map.mp hs
  exact slotAddr_inside hc (List.mem_range.mp hi)

theorem slotAddrs_pairwise (addr cls : ℕ) :
    (slotAddrs addr cls).Pairwise fun s t => s + 2 ^ cls ≤ t ∨ t + 2 ^ cls ≤ s :=
  List.pairwise_map.mpr (List.pairwise_lt_range.imp fun h => Or.inl (slotAddr_mono addr cls h))

end Slots

/-- Rounding an address down to its page. -/
theorem and_pageMask {val : ℕ} (h : val < 2 ^ 64) :
    val &&& BlockAlloc.pageMask = val / 4096 * 4096 := by
  have hmask : BlockAlloc.pageMask = 2 ^ 12 * (2 ^ 52 - 1) := by decide
  refine Nat.eq_of_testBit_eq fun i => ?_
  rw [hmask, Nat.testBit_and, Nat.testBit_two_pow_mul, Nat.testBit_two_pow_sub_one,
    show val / 4096 * 4096 = 2 ^ 12 * (val / 2 ^ 12) by omega, Nat.testBit_two_pow_mul,
    Nat.testBit_div_two_pow]
  by_cases hi : 12 ≤ i
  · by_cases hc : i < 64
    · simp [hi, show i - 12 < 52 by omega]
    · have hz := Nat.testBit_lt_two_pow
        (h.trans_le (Nat.pow_le_pow_right (n := 2) (by omega) (by omega : 64 ≤ i)))
      simp [hi, hz]
  · simp [hi]

/-- What the memory of a block says. The list of free slots may end anywhere: the link of the
last slot points past it. -/
structure PageOk (m : Mem) (p : Page) : Prop where
  cls_ge : 3 ≤ p.cls
  cls_lt : p.cls < 12
  aligned : 4096 ∣ p.addr
  slots : (p.free ++ p.used.map Grant.ptr).Perm (slotAddrs p.addr p.cls)
  chain : ∃ e, Chain (m.load 8) (Header.freeHead m p.addr) p.free e
  allocSlots : Header.allocSlots m p.addr = p.used.length
  totalSlots : Header.totalSlots m p.addr = slotCount p.cls
  grants : ∀ u ∈ p.used, u.len = 2 ^ p.cls ∧ u.size ≤ u.len

namespace PageOk

variable {m m' : Mem} {p : Page}

theorem bounds (h : PageOk m p) : ClassBounds p.cls := classBounds h.cls_ge h.cls_lt

theorem free_inside (h : PageOk m p) {s : ℕ} (hs : s ∈ p.free) :
    p.addr + 24 ≤ s ∧ s + 2 ^ p.cls ≤ p.addr + 4096 :=
  mem_slotAddrs_inside h.bounds (h.slots.subset (List.mem_append_left _ hs))

theorem used_inside (h : PageOk m p) {u : Grant} (hu : u ∈ p.used) :
    p.addr + 24 ≤ u.ptr ∧ u.ptr + u.len ≤ p.addr + 4096 := by
  rw [(h.grants u hu).1]
  exact mem_slotAddrs_inside h.bounds
    (h.slots.subset (List.mem_append_right _ (List.mem_map_of_mem hu)))

/-- The slots, free or not, do not overlap. -/
theorem pairwise (h : PageOk m p) : (p.free ++ p.used.map Grant.ptr).Pairwise
    fun s t => s + 2 ^ p.cls ≤ t ∨ t + 2 ^ p.cls ≤ s :=
  (slotAddrs_pairwise p.addr p.cls).perm h.slots.symm fun h => Or.symm h

theorem free_used (h : PageOk m p) {s : ℕ} {u : Grant} (hs : s ∈ p.free) (hu : u ∈ p.used) :
    s + 2 ^ p.cls ≤ u.ptr ∨ u.ptr + 2 ^ p.cls ≤ s :=
  (List.pairwise_append.mp h.pairwise).2.2 s hs _ (List.mem_map_of_mem hu)

theorem used_apart (h : PageOk m p) {u v : Grant} (hu : u ∈ p.used) (hv : v ∈ p.used.erase u) :
    u.ptr + 2 ^ p.cls ≤ v.ptr ∨ v.ptr + 2 ^ p.cls ≤ u.ptr := by
  have hp := (List.pairwise_append.mp h.pairwise).2.1
  have hperm := (List.perm_cons_erase hu).map Grant.ptr
  have hp' := hp.perm hperm fun h => Or.symm h
  exact (List.pairwise_cons.mp hp').1 _ (List.mem_map_of_mem hv)

theorem length_eq (h : PageOk m p) : p.free.length + p.used.length = slotCount p.cls := by
  simpa [slotAddrs] using h.slots.length_eq

theorem frame_chain {l : List ℕ} {a e : ℕ} (hh : m.SameOn m' a 8) (hs : ∀ s ∈ l, m.SameOn m' s 8)
    (hc : Chain (m.load 8) (Header.freeHead m a) l e) :
    Chain (m'.load 8) (Header.freeHead m' a) l e := by
  rw [Header.freeHead, Mem.load_congr hh]
  exact hc.frame fun s hs' => Mem.load_congr (hs s hs')

/-- Only the header, less its link, and the links of the free slots matter. -/
theorem frame (h : PageOk m p) (hh : m.SameOn m' p.addr 16)
    (hs : ∀ s ∈ p.free, m.SameOn m' s 8) : PageOk m' p := by
  have h4 : Header.allocSlots m' p.addr = Header.allocSlots m p.addr :=
    Mem.load_congr (hh.mono (by omega) (by omega))
  have h4' : Header.totalSlots m' p.addr = Header.totalSlots m p.addr :=
    Mem.load_congr (hh.mono (by omega) (by omega))
  obtain ⟨e, hc⟩ := h.chain
  exact { h with chain := ⟨e, frame_chain (hh.mono le_rfl (by omega)) hs hc⟩
                 allocSlots := h4.trans h.allocSlots
                 totalSlots := h4'.trans h.totalSlots }

theorem frame_all (h : PageOk m p) (hm : m.SameOn m' p.addr 4096) : PageOk m' p := by
  refine h.frame (hm.mono le_rfl (by omega)) fun s hs => ?_
  have hin := h.free_inside hs
  have h8 := h.bounds.eight
  exact hm.mono (by omega) (by omega)

theorem allocate_outside (m : Mem) (h : ℕ) {x : ℕ} (hx : x < h ∨ h + 12 ≤ x) :
    (Header.allocate m h).2 x = m x := by
  unfold Header.allocate
  dsimp only
  split_ifs
  · rfl
  · simp only [Header.setAllocSlots, Header.setFreeHead]
    rw [Mem.store_outside _ _ (by omega), Mem.store_outside _ _ (by omega)]

theorem allocate_eq (h : PageOk m p) {s e : ℕ} {fs : List ℕ} (hf : p.free = s :: fs)
    (hc : Chain (m.load 8) (Header.freeHead m p.addr) p.free e) :
    Header.allocate m p.addr = (s, Header.setAllocSlots
      (Header.setFreeHead m p.addr (m.load 8 s)) p.addr (p.used.length + 1)) := by
  rw [hf] at hc
  obtain ⟨hs, h0, -⟩ := hc
  have hslots : Header.allocSlots (Header.setFreeHead m p.addr (m.load 8 s)) p.addr =
      p.used.length := by
    rw [← h.allocSlots]
    exact Mem.load_store_disjoint _ _ (by omega)
  unfold Header.allocate
  dsimp only
  rw [hs, if_neg h0, hslots]

/-- The list goes on behind the first free slot, and ends where it did. -/
theorem allocate_chain (h : PageOk m p) {s e : ℕ} {fs : List ℕ} (hf : p.free = s :: fs)
    (hc : Chain (m.load 8) (Header.freeHead m p.addr) p.free e) :
    Chain ((Header.allocate m p.addr).2.load 8)
      (Header.freeHead (Header.allocate m p.addr).2 p.addr) fs e := by
  rw [h.allocate_eq hf hc]
  rw [hf] at hc
  obtain ⟨-, -, hc⟩ := hc
  have hhead : Header.freeHead (Header.setAllocSlots
      (Header.setFreeHead m p.addr (m.load 8 s)) p.addr (p.used.length + 1)) p.addr =
      m.load 8 s := by
    unfold Header.freeHead Header.setAllocSlots Header.setFreeHead
    rw [Mem.load_store_disjoint _ _ (by omega), Mem.load_store_word _ _ (Mem.load_lt 8 m s)]
  rw [hhead]
  refine hc.frame fun t ht => ?_
  have hin := h.free_inside (s := t) (by simp [hf, ht])
  unfold Header.setAllocSlots Header.setFreeHead
  rw [Mem.load_store_disjoint _ _ (by omega), Mem.load_store_disjoint _ _ (by omega)]

/-- Handing out the first free slot. -/
theorem allocate (h : PageOk m p) {s : ℕ} {fs : List ℕ} (hf : p.free = s :: fs) {size : ℕ}
    (hsize : size ≤ 2 ^ p.cls) :
    (Header.allocate m p.addr).1 = s ∧
      PageOk (Header.allocate m p.addr).2
        { p with free := fs, used := ⟨s, 2 ^ p.cls, size⟩ :: p.used } := by
  have h12 := h.bounds.count_lt
  obtain ⟨e, hc⟩ := h.chain
  have hchain := h.allocate_chain hf hc
  have hlen := h.length_eq
  rw [hf, List.length_cons] at hlen
  rw [h.allocate_eq hf hc] at hchain ⊢
  refine ⟨rfl, { cls_ge := h.cls_ge, cls_lt := h.cls_lt, aligned := h.aligned, slots := ?_,
                 chain := ⟨e, hchain⟩, allocSlots := ?_, totalSlots := ?_, grants := ?_ }⟩
  · have hp := h.slots
    rw [hf] at hp
    exact List.perm_middle.trans hp
  · exact Mem.load_store_word _ _ (by omega)
  · change Header.totalSlots _ p.addr = slotCount p.cls
    unfold Header.totalSlots Header.setAllocSlots Header.setFreeHead
    rw [Mem.load_store_disjoint _ _ (by omega), Mem.load_store_disjoint _ _ (by omega)]
    exact h.totalSlots
  · rintro u (_ | ⟨_, hu⟩)
    exacts [⟨rfl, hsize⟩, h.grants u hu]

/-- The memory after `free` of a slot of the block at `addr`. -/
def freed (m : Mem) (addr ptr : ℕ) : Mem :=
  let m := Header.setAllocSlots m addr (Header.allocSlots m addr + (2 ^ 32 - 1))
  Header.setFreeHead (m.store 8 ptr (Header.freeHead m addr)) addr ptr

theorem freed_outside (m : Mem) {addr ptr x : ℕ} (hx : x < addr ∨ addr + 12 ≤ x)
    (hx' : x < ptr ∨ ptr + 8 ≤ x) : freed m addr ptr x = m x := by
  unfold freed
  rw [Header.setFreeHead, Mem.store_outside _ _ (by omega), Mem.store_outside _ _ hx',
    Header.setAllocSlots, Mem.store_outside _ _ (by omega)]

/-- The list begins with the slot, and goes on as it was. -/
theorem free_chain (h : PageOk m p) {u : Grant} (hu : u ∈ p.used) (hlt : u.ptr < 2 ^ 64) {e : ℕ}
    (hc : Chain (m.load 8) (Header.freeHead m p.addr) p.free e) :
    Chain ((freed m p.addr u.ptr).load 8) (Header.freeHead (freed m p.addr u.ptr) p.addr)
      (u.ptr :: p.free) e := by
  have h8 := h.bounds.eight
  have hin := h.used_inside hu
  rw [(h.grants u hu).1] at hin
  have hlink : (freed m p.addr u.ptr).load 8 u.ptr = Header.freeHead m p.addr := by
    unfold freed Header.setFreeHead Header.setAllocSlots Header.freeHead
    rw [Mem.load_store_disjoint _ _ (by omega), Mem.load_store_word _ _ (Mem.load_lt 8 _ _),
      Mem.load_store_disjoint _ _ (by omega)]
  refine ⟨Mem.load_store_word _ _ hlt, by omega, ?_⟩
  rw [hlink]
  refine hc.frame fun t ht => Mem.load_congr fun x hx hx' => freed_outside m ?_ ?_
  · have := h.free_inside ht
    omega
  · have := h.free_used ht hu
    omega

/-- Taking a slot back. -/
theorem free (h : PageOk m p) {u : Grant} (hu : u ∈ p.used) (hlt : u.ptr < 2 ^ 64) :
    PageOk (freed m p.addr u.ptr)
      { p with free := u.ptr :: p.free, used := p.used.erase u } := by
  have h8 := h.bounds.eight
  have h32 := h.bounds.count_lt
  have hin := h.used_inside hu
  have hlen := h.length_eq
  have hpos : 0 < p.used.length := List.length_pos_of_mem hu
  obtain ⟨e, hc⟩ := h.chain
  refine { cls_ge := h.cls_ge, cls_lt := h.cls_lt, aligned := h.aligned, slots := ?_,
           chain := ⟨e, h.free_chain hu hlt hc⟩, allocSlots := ?_, totalSlots := ?_,
           grants := fun v hv => h.grants v (List.mem_of_mem_erase hv) }
  · have hperm : (p.used.map Grant.ptr).Perm (u.ptr :: (p.used.erase u).map Grant.ptr) := by
      simpa using (List.perm_cons_erase hu).map Grant.ptr
    exact (List.perm_middle.symm.trans (hperm.symm.append_left _)).trans h.slots
  · have hval : Header.allocSlots (freed m p.addr u.ptr) p.addr =
        (p.used.length + (2 ^ 32 - 1)) % 256 ^ 4 := by
      unfold freed Header.setFreeHead Header.setAllocSlots
      rw [← h.allocSlots, Header.allocSlots, Mem.load_store_disjoint _ _ (by omega),
        Mem.load_store_disjoint _ _ (by omega), Mem.load_store_same]
    rw [hval, List.length_erase_of_mem hu]
    omega
  · change Header.totalSlots _ p.addr = slotCount p.cls
    rw [(h.grants u hu).1] at hin
    unfold freed Header.setFreeHead Header.setAllocSlots Header.totalSlots
    rw [Mem.load_store_disjoint _ _ (by omega), Mem.load_store_disjoint _ _ (by omega),
      Mem.load_store_disjoint _ _ (by omega)]
    exact h.totalSlots

/-- `BlockAlloc.free` finds the block of a slot. -/
theorem free_eq (h : PageOk m p) {u : Grant} (hu : u ∈ p.used) (hfit : p.addr + 4096 ≤ 2 ^ 64)
    (N : ℕ) (b : BlockAlloc) (size : ℕ) :
    b.free N m u.ptr size = some (b, freed m p.addr u.ptr) := by
  have h8 := h.bounds.eight
  have hin := h.used_inside hu
  have hal := h.aligned
  rw [(h.grants u hu).1] at hin
  have hmask : u.ptr &&& BlockAlloc.pageMask = p.addr := by
    rw [and_pageMask (by omega)]
    omega
  rw [BlockAlloc.free, if_neg (by omega), if_neg (by unfold pagesize; omega)]
  simp only [hmask]
  rfl

end PageOk

section Format

variable {data sz limit : ℕ}

/-- `linkSlots` writes nothing before its first slot or past the limit. -/
private theorem linkSlots_outside (fuel i : ℕ) (m : Mem) {x : ℕ}
    (hx : x < data + i ∨ data + limit + 8 ≤ x) :
    BlockAlloc.linkSlots data sz limit fuel i m x = m x := by
  induction fuel generalizing i m with
  | zero => rfl
  | succ fuel ih =>
    simp only [BlockAlloc.linkSlots]
    split_ifs with hi
    · rw [ih (i + sz) _ (by omega), Mem.store_outside _ _ (by omega)]
    · rfl

private theorem linkSlots_next (data limit : ℕ) (hsz : 8 ≤ sz) (hdata : data + limit + sz ≤ 2 ^ 64)
    (fuel i : ℕ) (m : Mem) (hf : limit ≤ i * sz + fuel) {j : ℕ} (hij : i ≤ j)
    (hj : j * sz < limit) :
    (BlockAlloc.linkSlots data sz limit fuel (i * sz) m).load 8 (data + j * sz) =
      data + (j + 1) * sz := by
  induction fuel generalizing i m with
  | zero =>
    have := Nat.mul_le_mul_right sz hij
    omega
  | succ fuel ih =>
    have hle := Nat.mul_le_mul_right sz hij
    simp only [BlockAlloc.linkSlots]
    rw [if_pos (by omega), ← Nat.succ_mul]
    rcases eq_or_ne i j with rfl | hne
    · have hs := Nat.succ_mul i sz
      rw [Mem.load_congr (m := m.store 8 (data + i * sz) (data + i.succ * sz)) fun x hx hx' =>
        linkSlots_outside fuel _ _ (by omega)]
      exact Mem.load_store_word _ _ (by omega)
    · exact ih (i + 1) _ (by rw [Nat.succ_mul]; omega) (by omega)

theorem formatBlock_outside (m : Mem) {block sz x : ℕ} (hsz : 8 ≤ sz) (hsz' : sz ≤ 2048)
    (hx : x < block ∨ block + 4096 ≤ x) : BlockAlloc.formatBlock m block sz x = m x := by
  simp only [BlockAlloc.formatBlock, Header.setFreeHead, Header.setAllocSlots,
    Header.setTotalSlots, blocksize, pagesize, Header.sizeof]
  rw [Mem.store_outside _ _ (by omega), linkSlots_outside _ _ _ (by omega),
    Mem.store_outside _ _ (by omega), Mem.store_outside _ _ (by omega),
    Mem.store_outside _ _ (by omega)]

end Format

section FormatBlock

variable {block cls : ℕ}

theorem two_pow_le (h : cls < 12) : 2 ^ cls ≤ 2048 := by
  have := Nat.pow_le_pow_right (n := 2) (by omega) (by omega : cls ≤ 11)
  omega

/-- The header that `formatBlock` writes first. -/
def formatHeader (m : Mem) (block cls : ℕ) : Mem :=
  Header.setTotalSlots (Header.setAllocSlots (Header.setFreeHead m block (block + 24)) block 0)
    block (slotCount cls)

theorem formatBlock_eq (m : Mem) (block cls : ℕ) : BlockAlloc.formatBlock m block (2 ^ cls) =
    (BlockAlloc.linkSlots (block + 24) (2 ^ cls) (4072 - 2 ^ cls) 4072 0
      (formatHeader m block cls)).store 8 (block + 24 + (4072 - 2 ^ cls)) 0 := rfl

theorem formatBlock_header (m : Mem) {x : ℕ} (hx : x < block + 24) :
    BlockAlloc.formatBlock m block (2 ^ cls) x = formatHeader m block cls x := by
  rw [formatBlock_eq, Mem.store_outside _ _ (by omega)]
  exact linkSlots_outside _ _ _ (by omega)

/-- A slot that ends before the last word of the data has the link to the next. -/
theorem formatBlock_link (m : Mem) (h3 : 3 ≤ cls) (h12 : cls < 12) (hfit : block + 4096 ≤ 2 ^ 64)
    {j : ℕ} (hj : (j + 1) * 2 ^ cls + 8 ≤ 4072) :
    (BlockAlloc.formatBlock m block (2 ^ cls)).load 8 (slotAddr block cls j) =
      slotAddr block cls (j + 1) := by
  have h8 := (classBounds h3 h12).eight
  have hle := two_pow_le h12
  rw [formatBlock_eq, slotAddr, slotAddr, Header.sizeof]
  set sz := 2 ^ cls
  have hmul : (j + 1) * sz = j * sz + sz := Nat.succ_mul j sz
  have hn := linkSlots_next (block + 24) (4072 - sz) h8 (by omega) 4072 0
    (formatHeader m block cls) (by omega) (Nat.zero_le j) (by omega)
  rw [Nat.zero_mul] at hn
  rw [Mem.load_store_disjoint _ _ (by omega)]
  exact hn

/-- The free list of a new block has all its slots, and goes on with the last link. -/
theorem formatBlock_chain (m : Mem) (h3 : 3 ≤ cls) (h12 : cls < 12) (hfit : block + 4096 ≤ 2 ^ 64) :
    Chain ((BlockAlloc.formatBlock m block (2 ^ cls)).load 8)
      (Header.freeHead (BlockAlloc.formatBlock m block (2 ^ cls)) block) (slotAddrs block cls)
      ((BlockAlloc.formatBlock m block (2 ^ cls)).load 8
        (slotAddr block cls (slotCount cls - 1))) := by
  have hb := classBounds h3 h12
  have h8 := hb.eight
  have hmul := hb.count_mul
  have hhead : Header.freeHead (BlockAlloc.formatBlock m block (2 ^ cls)) block =
      slotAddr block cls 0 := by
    rw [Header.freeHead, Mem.load_congr (m := formatHeader m block cls) fun x hx hx' =>
      formatBlock_header m (by omega)]
    unfold formatHeader Header.setTotalSlots Header.setAllocSlots Header.setFreeHead
    rw [Mem.load_store_disjoint _ _ (by omega), Mem.load_store_disjoint _ _ (by omega),
      Mem.load_store_word _ _ (by omega)]
    simp [slotAddr, Header.sizeof]
  have hlink : ∀ j < slotCount cls - 1, (BlockAlloc.formatBlock m block (2 ^ cls)).load 8
      (slotAddr block cls j) = slotAddr block cls (j + 1) := fun j hj => by
    refine formatBlock_link m h3 h12 hfit ?_
    have hjm := Nat.mul_le_mul_right (2 ^ cls) (by omega : j + 1 + 1 ≤ slotCount cls)
    rw [Nat.succ_mul] at hjm
    omega
  have h0 : ∀ j ≤ slotCount cls - 1, slotAddr block cls j ≠ 0 := fun j _ => by
    unfold slotAddr Header.sizeof
    omega
  have hc := Chain.of_links (slotCount cls - 1) h0 hlink
  rwa [Nat.sub_add_cancel hb.count_pos, ← hhead] at hc

/-- A freshly formatted block has all its slots on the free list. -/
theorem formatBlock_ok (m : Mem) (h3 : 3 ≤ cls) (h12 : cls < 12) (hal : 4096 ∣ block)
    (hfit : block + 4096 ≤ 2 ^ 64) :
    PageOk (BlockAlloc.formatBlock m block (2 ^ cls)) ⟨block, cls, slotAddrs block cls, []⟩ := by
  have hhdr : ∀ x, x < block + 24 →
      BlockAlloc.formatBlock m block (2 ^ cls) x = formatHeader m block cls x :=
    fun x hx => formatBlock_header m hx
  refine { cls_ge := h3, cls_lt := h12, aligned := hal, slots := by simp,
           chain := ⟨_, formatBlock_chain m h3 h12 hfit⟩, allocSlots := ?_, totalSlots := ?_,
           grants := by simp }
  · change Header.allocSlots _ block = 0
    rw [Header.allocSlots, Mem.load_congr (m := formatHeader m block cls) fun x hx hx' =>
      hhdr x (by omega)]
    unfold formatHeader Header.setTotalSlots Header.setAllocSlots
    rw [Mem.load_store_disjoint _ _ (by omega), Mem.load_store_word _ _ (by omega)]
  · change Header.totalSlots _ block = slotCount cls
    rw [Header.totalSlots, Mem.load_congr (m := formatHeader m block cls) fun x hx hx' =>
      hhdr x (by omega)]
    exact Mem.load_store_word _ _ (classBounds h3 h12).count_lt

end FormatBlock

end Multiplix.Alloc
