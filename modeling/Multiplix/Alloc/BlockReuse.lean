import Multiplix.Alloc.BlockSafety

/-! Whether freed slots are used again. `free` gives a slot back to its block but leaves the block
on the list it is on, so the blocks with room are those on the list of the blocks with room as
long as no slot of a full block is given back. -/
namespace Multiplix.Alloc
open Lib Core

/-- An allocator in use: `live` lists what was handed out, `blocks` the blocks of slots that were
made, with their classes. -/
structure BlockUse where
  alloc : BlockAlloc
  mem : Mem
  live : List Grant
  blocks : List (ℕ × ℕ)

/-- The calls of a client and its writes. -/
inductive BlockUse.Call
  | alloc (size : ℕ)
  | free (u : Grant)
  | freeNull (size : ℕ)
  | write (u : Grant) (x : ℕ) (v : Byte)

namespace BlockUse

/-- A client passes what it was given, and writes there only. -/
def exec (N : ℕ) (s : BlockUse) : Call → Option BlockUse
  | .alloc size => (s.alloc.alloc N s.mem size).map fun r =>
      { alloc := r.2.1
        mem := r.2.2
        live := if r.1.1 = 0 then s.live else ⟨r.1.1, r.1.2, size⟩ :: s.live
        blocks := (s.alloc.newBlock N s.mem size).toList ++ s.blocks }
  | .free u =>
      if u ∈ s.live then
        (s.alloc.free N s.mem u.ptr u.size).map fun r =>
          { s with alloc := r.1, mem := r.2, live := s.live.erase u }
      else none
  | .freeNull size => (s.alloc.free N s.mem 0 size).map fun r =>
      { s with alloc := r.1, mem := r.2 }
  | .write u x v =>
      if u ∈ s.live ∧ u.ptr ≤ x ∧ x < u.ptr + u.len then
        some { s with mem := Function.update s.mem x v }
      else none

def init (N ptr len : ℕ) (m : Mem) : BlockUse := ⟨BlockAlloc.initAlloc N ptr len, m, [], []⟩

/-- No slot of a full block is given back. -/
def Spares (s : BlockUse) : Call → Prop
  | .free u => ¬InFullBlock s.mem u.ptr
  | _ => True

instance (s : BlockUse) : (c : Call) → Decidable (s.Spares c)
  | .free u => inferInstanceAs (Decidable (¬InFullBlock s.mem u.ptr))
  | .alloc _ | .freeNull _ | .write .. => .isTrue trivial

/-- The states of the runs all of whose calls meet a condition. -/
inductive Traced (N ptr len : ℕ) (m : Mem) (cond : BlockUse → Call → Prop) : BlockUse → Prop
  | init : Traced N ptr len m cond (init N ptr len m)
  | step {s s' : BlockUse} {c : Call} :
      Traced N ptr len m cond s → s.exec N c = some s' → cond s c → Traced N ptr len m cond s'

/-- A block with a free slot. -/
def HasRoom (m : Mem) (h : ℕ) : Prop := Header.allocSlots m h < Header.totalSlots m h

/-- One object is allocated and given back. -/
def Round (N size : ℕ) (s s' : BlockUse) : Prop :=
  ∃ t u, s.exec N (.alloc size) = some t ∧ t.live = u :: s.live ∧ t.Spares (.free u) ∧
    t.exec N (.free u) = some s'

/-- Freed slots are used again: `P` and `F` are the lists of blocks as read from memory. -/
structure Reused (N : ℕ) (s : BlockUse) (P F : ℕ → List ℕ) : Prop where
  partialBlocks : ∀ c, Chain (Header.next s.mem) (s.alloc.partialBlocks c) (P c) 0
  fullBlocks : ∀ c, Chain (Header.next s.mem) (s.alloc.fullBlocks c) (F c) 0
  room : ∀ h c, (h, c) ∈ s.blocks → HasRoom s.mem h → h ∈ P c
  full : ∀ c, ∀ h ∈ F c, Header.allocSlots s.mem h = Header.totalSlots s.mem h
  succeeds : ∀ h c size, (h, c) ∈ s.blocks → HasRoom s.mem h →
    BlockAlloc.slotClass size = some c → ∃ p len b' m',
      s.alloc.alloc N s.mem size = some ((p, len), b', m') ∧ p ≠ 0 ∧
        b'.allocator = s.alloc.allocator
  loop : ∀ size c s₁ s', BlockAlloc.slotClass size = some c → Round N size s s₁ →
    Relation.ReflTransGen (Round N size) s₁ s' →
      s'.alloc.allocator = s₁.alloc.allocator ∧ s'.blocks = s₁.blocks ∧
      ∃ p len b' m', s'.alloc.alloc N s'.mem size = some ((p, len), b', m') ∧ p ≠ 0

end BlockUse

namespace BlockAlloc

theorem slotClass_spec {size c : ℕ} (h : slotClass size = some c) : size ≤ 2 ^ 63 ∧ c < 12 := by
  obtain ⟨sz, hsz, hc⟩ := Option.bind_eq_some_iff.mp h
  have hle := le_of_pow2ceil hsz
  obtain ⟨k, hk, rfl, -⟩ := pow2ceil_spec hsz
  rw [log2ceil_two_pow (by omega)] at hc
  split_ifs at hc with hlarge
  cases hc
  refine ⟨by split_ifs at hle <;> omega, ?_⟩
  have hpow : 2 ^ c < 2 ^ 12 := by
    unfold blocksize pagesize at hlarge
    omega
  exact (Nat.pow_lt_pow_iff_right (by omega)).mp hpow

namespace Tracked

variable {N : ℕ} {g : HeapGeometry N} {b : BlockAlloc} {m : Mem} {live : Multiset Grant}
  {blocks : Multiset (ℕ × ℕ)} {exact : Prop}

/-- A block made is on one of the lists of its class. -/
theorem exists_page (h : b.Tracked g m live blocks exact) :
    ∃ P F : ℕ → List ℕ, (∀ c, Chain (Header.next m) (b.partialBlocks c) (P c) 0) ∧
      (∀ c, Chain (Header.next m) (b.fullBlocks c) (F c) 0) ∧
      (∀ a c, (a, c) ∈ blocks → BlockUse.HasRoom m a → exact → a ∈ P c) ∧
      ∀ c, exact → ∀ a ∈ F c, Header.allocSlots m a = Header.totalSlots m a := by
  obtain ⟨free, pages, large, P, F, h, rfl, rfl, hF⟩ := h
  refine ⟨P, F, h.lists.partialChain, h.lists.fullChain, fun a c hb hroom he => ?_,
    fun c he a ha => ?_⟩
  · obtain ⟨p, hp, hpl⟩ := Multiset.mem_map.mp hb
    cases hpl
    have hne := (h.memory.room_iff hp).mp hroom
    rcases List.mem_append.mp (h.lists.mem_lists hp) with hP | hF'
    · exact hP
    · exact absurd (hF he p hp hF') hne
  · obtain ⟨p, hp, rfl, rfl⟩ := h.lists.mem_pages (List.mem_append_right (P c) ha)
    exact (h.memory.full_iff hp).mpr (hF he p hp ha)

theorem partialBlocks_ne (h : b.Tracked g m live blocks True) {a c : ℕ} (hb : (a, c) ∈ blocks)
    (hroom : BlockUse.HasRoom m a) : b.partialBlocks c ≠ 0 := by
  obtain ⟨P, F, hP, -, hin, -⟩ := h.exists_page
  intro h0
  have hc := hP c
  rw [h0] at hc
  have ha := hin a c hb hroom trivial
  rw [hc.eq_nil_of_zero] at ha
  cases ha

/-- A slot that is given back makes room in its block. -/
theorem free_room (h : b.Tracked g m live blocks exact) {u : Grant} (hu : u ∈ live) {c : ℕ}
    (hc : c < 12) (hlen : u.len = 2 ^ c) : ∃ a m', b.free N m u.ptr u.size = some (b, m') ∧
      (a, c) ∈ blocks ∧ BlockUse.HasRoom m' a := by
  obtain ⟨free, pages, large, P, F, h, rfl, rfl, -⟩ := h
  rcases Multiset.mem_add.mp hu with hp | hl
  · obtain ⟨p, hp, hu'⟩ := Multiset.mem_bind.mp hp
    have hu' := Multiset.mem_coe.mp hu'
    obtain ⟨rest, rfl⟩ := Multiset.exists_cons_of_mem hp
    obtain ⟨m', hr, hinv, -⟩ := h.free_slot hu'
    have hcls : p.cls = c := by
      have hl := ((h.memory.page p hp).grants u hu').1
      exact Nat.pow_right_injective (le_refl 2) (hl.symm.trans hlen)
    refine ⟨p.addr, m', hr, ?_, ?_⟩
    · rw [← hcls]
      exact Multiset.mem_map.mpr ⟨p, hp, rfl⟩
    · have hroom := hinv.memory.room_iff (Multiset.mem_cons_self _ _)
      exact hroom.mpr (List.cons_ne_nil _ _)
  · have hlarge := (h.memory.largeOk u hl).large
    have hlt : 2 ^ c < 2 ^ 12 := Nat.pow_lt_pow_right (by omega) hc
    unfold blocksize pagesize at hlarge
    omega

/-- After a slot of a full block is given back, a full list holds a block with room. -/
theorem not_exact_of_free (h : b.Tracked g m live blocks exact) {u : Grant} (hu : u ∈ live)
    (hfull : InFullBlock m u.ptr) : ∃ m' c a F, b.free N m u.ptr u.size = some (b, m') ∧
      Chain (Header.next m') (b.fullBlocks c) F 0 ∧ a ∈ F ∧ BlockUse.HasRoom m' a := by
  obtain ⟨free, pages, large, P, F, h, rfl, -, -⟩ := h
  rcases Multiset.mem_add.mp hu with hp | hl
  · obtain ⟨p, hp, hu'⟩ := Multiset.mem_bind.mp hp
    have hu' := Multiset.mem_coe.mp hu'
    obtain ⟨rest, rfl⟩ := Multiset.exists_cons_of_mem hp
    obtain ⟨m', hr, hinv, -⟩ := h.free_slot hu'
    refine ⟨m', p.cls, p.addr, F p.cls, hr, hinv.lists.fullChain _, ?_, ?_⟩
    · have hnil := (h.memory.inFullBlock_iff hp hu').mp hfull
      rcases List.mem_append.mp (h.lists.mem_lists hp) with hP | hF
      · exact absurd hnil (h.lists.room p hp hP)
      · exact hF
    · have hroom := hinv.memory.room_iff (Multiset.mem_cons_self _ _)
      exact hroom.mpr (List.cons_ne_nil _ _)
  · exact absurd (Nat.mod_eq_zero_of_dvd (h.memory.largeOk u hl).aligned) hfull.1

/-- An allocation of a class that has a block with room does not ask for memory. -/
theorem alloc_room (h : b.Tracked g m live blocks True) {a c size : ℕ} (hb : (a, c) ∈ blocks)
    (hroom : BlockUse.HasRoom m a) (hsize : slotClass size = some c) :
    ∃ p b' m', b.alloc N m size = some ((p, 2 ^ c), b', m') ∧ p ≠ 0 ∧
      b'.allocator = b.allocator ∧ b.newBlock N m size = none := by
  obtain ⟨p, len, b', m', hr, -, hc, -⟩ := h.alloc (slotClass_spec hsize).1
  obtain ⟨hlen, hkeep⟩ := hc c hsize
  have hne : b.partialBlocks c ≠ 0 := h.partialBlocks_ne hb hroom
  obtain ⟨hp, hal⟩ := hkeep hne
  obtain rfl := hlen hp
  refine ⟨p, b', m', hr, hp, hal, ?_⟩
  simp [newBlock, hsize, hne]

end Tracked

theorem le_of_alloc {N : ℕ} {b : BlockAlloc} {m : Mem} {size : ℕ} {r : (ℕ × ℕ) × BlockAlloc × Mem}
    (h : b.alloc N m size = some r) : size ≤ 2 ^ 63 := by
  obtain ⟨sz, hsz, -⟩ := Option.bind_eq_some_iff.mp h
  have hle := le_of_pow2ceil hsz
  split_ifs at hle <;> omega

end BlockAlloc

namespace BlockUse

variable {N : ℕ} {g : HeapGeometry N} {s s' : BlockUse} {c : Call} {size cls : ℕ}

def Inv (g : HeapGeometry N) (s : BlockUse) : Prop :=
  s.alloc.Tracked g s.mem s.live s.blocks True

theorem Inv.init (g : HeapGeometry N) (m : Mem) : (init N g.ptr (2 ^ g.log) m).Inv g := by
  have hmem : PagesInv g (BuddyAlloc.zero.initAlloc N g.ptr (2 ^ g.log)) m _ 0 0 :=
    ⟨⟨by simp, by simp, by simp⟩, BuddyInv.initAlloc g m⟩
  have hlists : ListsInv (fun _ => 0) (fun _ => 0) m 0 (fun _ => []) (fun _ => []) :=
    ⟨fun _ => rfl, fun _ => rfl, fun _ => rfl, by simp⟩
  exact ⟨_, 0, 0, _, _, ⟨hmem, hlists⟩, rfl, rfl, fun _ p hp => absurd hp (Multiset.notMem_zero p)⟩

/-- What an allocation does to the state. -/
theorem Inv.alloc (h : s.Inv g) (hr : s.exec N (.alloc size) = some s') :
    s'.Inv g ∧ (BlockAlloc.slotClass size = some cls → s'.live ≠ s.live →
      ∃ u, s'.live = u :: s.live ∧ u.len = 2 ^ cls) := by
  obtain ⟨r, ha, rfl⟩ := Option.map_eq_some_iff.mp hr
  obtain ⟨p, len, b', m', ha', hv, hc, -⟩ := BlockAlloc.Tracked.alloc h (BlockAlloc.le_of_alloc ha)
  cases ha.symm.trans ha'
  refine ⟨?_, fun hs hne => ?_⟩
  · unfold Inv
    split_ifs at hv ⊢ <;> exact hv
  · dsimp only at hne ⊢
    split_ifs at hne ⊢ with h0
    · exact absurd rfl hne
    · exact ⟨_, rfl, (hc cls hs).1 h0⟩

/-- One call that spares the full blocks keeps the invariant. -/
theorem Inv.exec (h : s.Inv g) (hr : s.exec N c = some s') (hc : s.Spares c) : s'.Inv g := by
  cases c with
  | alloc size =>
    have halloc : s'.Inv g ∧ (BlockAlloc.slotClass size = some 0 → s'.live ≠ s.live →
        ∃ u, s'.live = u :: s.live ∧ u.len = 2 ^ 0) := h.alloc hr
    exact halloc.1
  | free u =>
    simp only [BlockUse.exec] at hr
    split_ifs at hr with hu
    obtain ⟨r, hf, rfl⟩ := Option.map_eq_some_iff.mp hr
    obtain ⟨b', m', hf', hv, -⟩ := BlockAlloc.Tracked.free h (Multiset.mem_coe.mpr hu) fun _ => hc
    cases hf.symm.trans hf'
    rwa [Multiset.coe_erase] at hv
  | freeNull size =>
    cases hr
    exact h
  | write u x v =>
    simp only [BlockUse.exec] at hr
    split_ifs at hr with hu
    cases hr
    exact BlockAlloc.Tracked.write h (Multiset.mem_coe.mpr hu.1) fun y hy =>
      Function.update_of_ne (by omega) _ _

/-- A round leaves a block with room, and one that starts with such a block asks for nothing. -/
theorem Inv.round (h : s.Inv g) (hsize : BlockAlloc.slotClass size = some cls)
    (hr : Round N size s s') : s'.Inv g ∧ (∃ a, (a, cls) ∈ s'.blocks ∧ HasRoom s'.mem a) ∧
      ((∃ a, (a, cls) ∈ s.blocks ∧ HasRoom s.mem a) →
        s'.alloc.allocator = s.alloc.allocator ∧ s'.blocks = s.blocks) := by
  obtain ⟨t, u, ha, hu, hsp, hf⟩ := hr
  have halloc : t.Inv g ∧ (BlockAlloc.slotClass size = some cls → t.live ≠ s.live →
      ∃ u, t.live = u :: s.live ∧ u.len = 2 ^ cls) := h.alloc ha
  obtain ⟨ht, hlive⟩ := halloc
  obtain ⟨u', hu', hlen⟩ := hlive hsize (by simp [hu])
  obtain rfl : u = u' := (List.cons.inj (hu.symm.trans hu')).1
  have hmem : u ∈ t.live := by simp [hu]
  refine ⟨ht.exec hf hsp, ?_⟩
  obtain ⟨a, m', hr, hb, hroom⟩ := BlockAlloc.Tracked.free_room ht (Multiset.mem_coe.mpr hmem)
    (BlockAlloc.slotClass_spec hsize).2 hlen
  simp only [BlockUse.exec, if_pos hmem, hr, Option.map_some, Option.some.injEq] at hf
  subst hf
  refine ⟨⟨a, Multiset.mem_coe.mp hb, hroom⟩, fun ⟨a, hb, hroom⟩ => ?_⟩
  obtain ⟨p, b', m'', ha', -, hal, hnew⟩ :=
    BlockAlloc.Tracked.alloc_room h (Multiset.mem_coe.mpr hb) hroom hsize
  obtain ⟨r, ha'', rfl⟩ := Option.map_eq_some_iff.mp ha
  cases ha''.symm.trans ha'
  exact ⟨hal, by simp [hnew]⟩

theorem Inv.rounds (h : s.Inv g) (hsize : BlockAlloc.slotClass size = some cls)
    (hroom : ∃ a, (a, cls) ∈ s.blocks ∧ HasRoom s.mem a)
    (hr : Relation.ReflTransGen (Round N size) s s') :
    s'.Inv g ∧ (∃ a, (a, cls) ∈ s'.blocks ∧ HasRoom s'.mem a) ∧
      s'.alloc.allocator = s.alloc.allocator ∧ s'.blocks = s.blocks := by
  induction hr with
  | refl => exact ⟨h, hroom, rfl, rfl⟩
  | tail _ hs ih =>
    obtain ⟨hi, hroom', hal, hbl⟩ := ih
    obtain ⟨hi', hroom'', hkeep⟩ := hi.round hsize hs
    obtain ⟨hal', hbl'⟩ := hkeep hroom'
    exact ⟨hi', hroom'', hal'.trans hal, hbl'.trans hbl⟩

theorem Inv.reused (h : s.Inv g) : ∃ P F, s.Reused N P F := by
  obtain ⟨P, F, hP, hF, hroom, hfull⟩ := BlockAlloc.Tracked.exists_page h
  refine ⟨P, F, hP, hF, fun a c hb hr => hroom a c (Multiset.mem_coe.mpr hb) hr trivial,
    fun c a ha => hfull c trivial a ha, fun a c size hb hr hs => ?_,
    fun size c s₁ s' hs hr hrs => ?_⟩
  · obtain ⟨p, b', m', hr, hp, hal, -⟩ :=
      BlockAlloc.Tracked.alloc_room h (Multiset.mem_coe.mpr hb) hr hs
    exact ⟨p, _, b', m', hr, hp, hal⟩
  · obtain ⟨hi, hroom₁, -⟩ := h.round hs hr
    obtain ⟨hi', ⟨a, hb, ha⟩, hal, hbl⟩ := hi.rounds hs hroom₁ hrs
    obtain ⟨p, b', m', hr, hp, -⟩ :=
      BlockAlloc.Tracked.alloc_room hi' (Multiset.mem_coe.mpr hb) ha hs
    exact ⟨hal, hbl, p, _, b', m', hr, hp⟩

theorem Traced.inv {m : Mem} (h : Traced N g.ptr (2 ^ g.log) m Spares s) : s.Inv g := by
  induction h with
  | init => exact .init g m
  | step _ hr hc ih => exact ih.exec hr hc

/-- Giving back a slot of a full block leaves the block where no allocation finds it. -/
theorem Inv.not_reused (h : s.Inv g) (hr : s.exec N c = some s') (hc : ¬s.Spares c)
    (P F : ℕ → List ℕ) : ¬s'.Reused N P F := by
  intro hre
  cases c with
  | free u =>
    simp only [BlockUse.exec] at hr
    split_ifs at hr with hu
    obtain ⟨m', c, a, F', hr', hchain, ha, hroom⟩ :=
      BlockAlloc.Tracked.not_exact_of_free h (Multiset.mem_coe.mpr hu) (not_not.mp hc)
    simp only [hr', Option.map_some, Option.some.injEq] at hr
    subst hr
    have heq : F c = F' := (hre.fullBlocks c).unique hchain
    exact absurd (hre.full c a (heq ▸ ha)) hroom.ne
  | alloc size => exact hc trivial
  | freeNull size => exact hc trivial
  | write u x v => exact hc trivial

/-- In every run that gives back no slot of a full block, freed slots are used again. One such
slot given back, and they are not. -/
theorem reused_of_spares {N ptr len : ℕ} (hN : 0 < N) (hptr : 4096 ∣ ptr) (hpos : 0 < ptr)
    (hfit : ptr + len ≤ 2 ^ 64) (hlen : ∃ k < 31, len = 2 ^ k) (hmin : 2 ^ (N - 1) ≤ len)
    (m : Mem) {s : BlockUse} (hr : Traced N ptr len m Spares s) :
    (∃ P F, s.Reused N P F) ∧
      ∀ c s', s.exec N c = some s' → ((∃ P F, s'.Reused N P F) ↔ s.Spares c) := by
  obtain ⟨k, hk, rfl⟩ := hlen
  have hNk : N - 1 ≤ k := (Nat.pow_le_pow_iff_right (by omega : 1 < 2)).mp hmin
  let g : HeapGeometry N := ⟨ptr, k, hN, by omega, hk, hpos, hptr, hfit⟩
  have hi : s.Inv g := hr.inv
  refine ⟨hi.reused, fun c s' he => ⟨fun ⟨P, F, hre⟩ => ?_, fun hc => (hi.exec he hc).reused⟩⟩
  by_contra hc
  exact hi.not_reused he hc P F hre

/-- A call that returns is a step. -/
theorem Traced.call {ptr len : ℕ} {m : Mem} {cond : BlockUse → Call → Prop}
    (h : Traced N ptr len m cond s) (c : Call) (hr : (s.exec N c).isSome) (hc : cond s c) :
    Traced N ptr len m cond ((s.exec N c).get hr) :=
  h.step (Option.some_get hr).symm hc

/-- A slot of 100 bytes given back while its block has room. -/
theorem reused_of_spares_slot : ∃ s P F, Traced 2 8192 8192 (fun _ => 0) Spares s ∧
    s.blocks = [(8192, 7)] ∧ s.live = [] ∧ s.Reused 2 P F := by
  have hr : Traced 2 8192 8192 (fun _ => 0) Spares _ :=
    (Traced.init.call (.alloc 100) (by decide +kernel) (by decide +kernel)).call
      (.free ⟨8216, 128, 100⟩) (by decide +kernel) (by decide +kernel)
  obtain ⟨⟨P, F, hre⟩, -⟩ := reused_of_spares (by decide) (by decide) (by decide) (by decide)
    ⟨13, by decide, rfl⟩ (by decide) _ hr
  exact ⟨_, P, F, hr, by decide +kernel, by decide +kernel, hre⟩

/-- The only slot of a block of 2048-byte slots is given back, and no memory is left for another
object of that size. -/
theorem not_reused_slot : ∃ s, Traced 1 4096 4096 (fun _ => 0) (fun _ _ => True) s ∧
    s.live = [] ∧ ((s.alloc.alloc 1 s.mem 2048).map fun r => r.1.1) = some 0 ∧
    ∀ P F, ¬s.Reused 1 P F := by
  have hr : Traced 1 4096 4096 (fun _ => 0) (fun _ _ => True) _ :=
    (Traced.init.call (.alloc 2048) (by decide +kernel) trivial).call
      (.free ⟨4120, 2048, 2048⟩) (by decide +kernel) trivial
  refine ⟨_, hr, by decide +kernel, by decide +kernel, fun P F h => ?_⟩
  obtain ⟨l, hl, -⟩ := (h.fullBlocks 11).exists_cons_of_ne (by decide +kernel)
  exact absurd (h.full 11 _ (by rw [hl]; exact List.mem_cons_self ..)) (by decide +kernel)

end BlockUse
end Multiplix.Alloc
