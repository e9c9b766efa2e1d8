import Multiplix.Alloc.BlockReuse

/-! The kernel's allocator, `plix.alloc`: `kalloc` and `kfree` on the global block allocator, for
requests of any size. -/
namespace Multiplix.Alloc
open Lib Core

/-- `kalloc(sz)`: null, or a pointer with the size asked for. `none` is a call that never returns,
and so never gives the lock back. -/
def kalloc (N : ℕ) (b : BlockAlloc) (m : Mem) (sz : ℕ) :
    Option (Option (ℕ × ℕ) × BlockAlloc × Mem) :=
  (b.alloc N m sz).map fun r => (if r.1.1 = 0 then none else some (r.1.1, sz), r.2)

namespace Kalloc

variable {N : ℕ}

/-- Calls that return and writes of clients to what they asked for. -/
inductive Step (N : ℕ) : BlockSystem → BlockSystem → Prop
  | kalloc {s : BlockSystem} {size p len : ℕ} {b' : BlockAlloc} {m' : Mem} :
      s.alloc.alloc N s.mem size = some ((p, len), b', m') →
      Step N s ⟨b', m', if p = 0 then s.live else ⟨p, len, size⟩ :: s.live⟩
  | kfree {s : BlockSystem} {u : Grant} {b' : BlockAlloc} {m' : Mem} :
      u ∈ s.live → s.alloc.free N s.mem u.ptr u.size = some (b', m') →
      Step N s ⟨b', m', s.live.erase u⟩
  | write {s : BlockSystem} {u : Grant} {x : ℕ} (v : Byte) :
      u ∈ s.live → u.ptr ≤ x → x < u.ptr + u.size →
      Step N s ⟨s.alloc, Function.update s.mem x v, s.live⟩

/-- Runs from `kallocinit(ptr, len)`, with any contents of memory. -/
def Run (N ptr len : ℕ) (s : BlockSystem) : Prop :=
  ∃ m, Relation.ReflTransGen (Step N) (BlockSystem.init N ptr len m) s

/-- A block of `sz` bytes at `p` can be provided: it is in the heap and apart from what is live. -/
structure Provides (ptr len : ℕ) (s : BlockSystem) (p sz : ℕ) : Prop where
  ptr_le : ptr ≤ p
  le_end : p + sz ≤ ptr + len
  apart : ∀ u ∈ s.live, BlockSystem.Apart p sz u.ptr u.size

/-- The call returns, and anything but null is a block that can be provided. -/
def Answers (N ptr len : ℕ) (s : BlockSystem) (sz : ℕ) : Prop :=
  ∃ r, kalloc N s.alloc s.mem sz = some r ∧
    ∀ p n, r.1 = some (p, n) → n = sz ∧ Provides ptr len s p sz

section Runs

variable {g : HeapGeometry N} {s s' : BlockSystem} {sz : ℕ}

theorem Inv.size_le (h : s.Inv g) {u : Grant} (hu : u ∈ s.live) : u.size ≤ u.len := by
  obtain ⟨P, F, free, hsafe⟩ := h.safe
  exact (hsafe.inside u hu).1

/-- An allocation as a step: the result of `alloc` is what the new state was built from. -/
theorem Inv.alloc (h : s.Inv g) {p len : ℕ} {b' : BlockAlloc} {m' : Mem}
    (hr : s.alloc.alloc N s.mem sz = some ((p, len), b', m')) :
    BlockSystem.Inv g ⟨b', m', if p = 0 then s.live else ⟨p, len, sz⟩ :: s.live⟩ := by
  obtain ⟨p', len', b'', m'', hr', hv, -⟩ :=
    BlockAlloc.Valid.alloc h (BlockAlloc.le_of_alloc hr)
  cases hr.symm.trans hr'
  unfold BlockSystem.Inv
  split_ifs at hv ⊢ <;> exact hv

theorem Inv.step (h : s.Inv g) (hs : Step N s s') : s'.Inv g := by
  cases hs with
  | kalloc hr => exact Inv.alloc h hr
  | kfree hu hr => exact h.step (.free hu hr)
  | write v hu hx hx' =>
    have hle := Inv.size_le h hu
    exact h.step (.write v hu hx (by omega))

theorem Run.inv (hr : Run N g.ptr (2 ^ g.log) s) : s.Inv g := by
  obtain ⟨m, hr⟩ := hr
  induction hr with
  | refl => exact BlockSystem.Inv.init g m
  | tail _ hs ih => exact Inv.step ih hs

/-- What an allocation returns is a block that could be provided. -/
theorem Inv.provides (h : s.Inv g) {p len : ℕ} {b' : BlockAlloc} {m' : Mem}
    (hr : s.alloc.alloc N s.mem sz = some ((p, len), b', m')) (hp : p ≠ 0) :
    Provides g.ptr (2 ^ g.log) s p sz := by
  have hinv := Inv.alloc h hr
  rw [if_neg hp] at hinv
  obtain ⟨P, F, free, hsafe⟩ := hinv.safe
  obtain ⟨hsz, hlo, hhi⟩ := hsafe.inside _ List.mem_cons_self
  obtain ⟨hhead, -⟩ := List.pairwise_cons.mp hsafe.disjoint
  simp only at hsz hlo hhi hhead
  constructor
  · exact hlo
  · omega
  · intro u hu
    have hu' := (hsafe.inside u (List.mem_cons_of_mem _ hu)).1
    have hapart := hhead u hu
    unfold BlockSystem.Apart at hapart ⊢
    omega

/-- A page that is live is the start of a block of the buddy allocator. -/
theorem Inv.page_block (h : s.Inv g) {u : Grant} (hu : u ∈ s.live) (hlen : u.len = pagesize) :
    g.ptr ≤ u.ptr ∧ u.ptr + 2 ^ g.minLog ≤ g.ptr + 2 ^ g.log := by
  obtain ⟨free, pages, large, P, F, hinv, hlive⟩ := h
  have hgrant : u ∈ grants pages large := by
    rw [hlive]
    exact Multiset.mem_coe.mpr hu
  rcases Multiset.mem_add.mp hgrant with hslot | hlarge
  · obtain ⟨q, hq, hu⟩ := Multiset.mem_bind.mp hslot
    have hok := hinv.memory.page q hq
    have hin := hok.used_inside (Multiset.mem_coe.mp hu)
    have hbounds := hok.bounds.eight
    have hpage : pagesize = 4096 := rfl
    omega
  · have hle := (hinv.memory.largeOk u hlarge).ptr_le
    have hin := hinv.memory.inside
      (Multiset.mem_add.mpr (Or.inr (Multiset.mem_map_of_mem g.largeBlk hlarge)))
    have hmono : 2 ^ g.minLog ≤ 2 ^ (g.minLog + g.orderOf u.len) :=
      Nat.pow_le_pow_right (by omega) (by omega)
    simp only [HeapGeometry.largeBlk, HeapGeometry.blk, Blk.size] at hin
    omega

/-- In every state of every run a request ends exactly when it is at most `2 ^ 63` bytes, and
then it is answered with null or with a block that can be provided; the same bound is the one up
to which `pow2ceil` rounds. -/
theorem kalloc_answers_iff (hr : Run N g.ptr (2 ^ g.log) s) :
    (∀ sz, Answers N g.ptr (2 ^ g.log) s sz ↔ sz ≤ 2 ^ 63) ∧ ∀ x, RoundsUp x ↔ x ≤ 2 ^ 63 := by
  constructor
  · intro sz
    constructor
    · intro ⟨r, hcall, _⟩
      obtain ⟨r', hr', -⟩ := Option.map_eq_some_iff.mp hcall
      exact BlockAlloc.le_of_alloc hr'
    · intro hsz
      obtain ⟨p, len, b', m', hcall, -⟩ := BlockAlloc.Valid.alloc hr.inv hsz
      refine ⟨_, by rw [kalloc, hcall]; rfl, ?_⟩
      intro q n hq
      simp only at hq
      split_ifs at hq with hp
      cases hq
      exact ⟨rfl, Inv.provides hr.inv hcall hp⟩
  · intro x
    exact roundsUp_iff

/-- With a page live, for a request of 3000 bytes. -/
theorem kalloc_answers_page : ∃ s, Run 2 8192 8192 s ∧ s.live = [⟨8192, 4096, 3000⟩] ∧
    (∀ sz, Answers 2 8192 8192 s sz ↔ sz ≤ 2 ^ 63) ∧ ∀ x, RoundsUp x ↔ x ≤ 2 ^ 63 := by
  have hr : Run 2 8192 8192 ⟨_, _, [⟨8192, 4096, 3000⟩]⟩ :=
    ⟨fun _ => 0, .single (@Step.kalloc 2 _ 3000 8192 4096 _ _ rfl)⟩
  let g : HeapGeometry 2 :=
    ⟨8192, 13, by decide, by decide, by decide, by decide, by decide, by decide⟩
  exact ⟨_, hr, rfl, kalloc_answers_iff (g := g) hr⟩

/-- On the heap of the kernel, just after `kallocinit`, a request of more than half the address
space never comes back. -/
theorem not_answers_huge : ¬ Answers 17 0xffffffc084000000 (2 ^ 29)
    (BlockSystem.init 17 0xffffffc084000000 (2 ^ 29) fun _ => 0) (2 ^ 63 + 1) := by
  intro ⟨r, hcall, _⟩
  obtain ⟨r', hr', -⟩ := Option.map_eq_some_iff.mp hcall
  exact absurd (BlockAlloc.le_of_alloc hr') (by decide)

end Runs

end Kalloc
end Multiplix.Alloc
