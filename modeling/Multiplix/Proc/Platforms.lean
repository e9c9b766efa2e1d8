import Multiplix.Proc.Machine
import Multiplix.Vm.Aarch64
import Multiplix.Vm.Refinement

/-! What `plix.arch.*.boot` and the boards provide to processes. -/
namespace Multiplix.Proc
open Core Lib Vm

def highmemBase : ℕ := 0xFFFFFFC000000000

def pa2hka (pa : ℕ) : ℕ := (pa + highmemBase) % 2 ^ 64

structure MemRange where
  start : ℕ
  sz : ℕ

/-- A board, whose memory fits the kernel's half of the address space. -/
structure Board where
  mainMemory : MemRange
  memRanges : List MemRange
  aligned : ∀ r ∈ memRanges, 4096 ∣ r.start
  bounded : ∀ r ∈ memRanges, r.start + r.sz ≤ 2 ^ 38
  main_aligned : 4096 ∣ mainMemory.start
  main_bounded : mainMemory.start + mainMemory.sz ≤ 2 ^ 38

namespace Board

variable (b : Board)

def basepg : ℕ := b.mainMemory.start / pagesize
def npgs : ℕ := b.mainMemory.sz / pagesize

theorem npgs_lt : b.npgs + 1 < 2 ^ 32 := by
  have := b.main_bounded
  rw [npgs, show pagesize = 4096 from rfl]
  omega

theorem mem_le : (b.basepg + b.npgs) * 4096 ≤ 2 ^ 38 := by
  have := b.main_bounded
  have := b.main_aligned
  rw [npgs, basepg, show pagesize = 4096 from rfl]
  omega

end Board

namespace Riscv64
open Vm.Riscv64

def gb : ℕ := 2 ^ 30

/-- The gigapages of one range. -/
def mapRange (root : ℕ) (T : PtMem) (range : MemRange) : PtMem :=
  (List.range ((range.sz + (gb - 1)) / gb)).foldl
    (fun T i => mapGiga T root (pa2hka (range.start + i * gb)) (range.start + i * gb) .rwx) T

def kernelProcmap (b : Board) (T : PtMem) (root : ℕ) : PtMem := b.memRanges.foldl (mapRange root) T

/-- The kernel's mappings stay in the upper half of the root table. -/
structure Above (root : ℕ) (T T' : PtMem) : Prop where
  other : ∀ t ≠ root, T' t = T t
  low : ∀ i < 256, T' root i = T root i
  tree : pteOps.radix.Tree T root {root} → pteOps.radix.Tree T' root {root}

theorem Above.refl (root : ℕ) (T : PtMem) : Above root T T := ⟨fun _ _ => rfl, fun _ _ => rfl, id⟩

theorem Above.trans {root : ℕ} {T T' T'' : PtMem} (h : Above root T T') (h' : Above root T' T'') :
    Above root T T'' :=
  ⟨fun t ht => (h'.other t ht).trans (h.other t ht), fun i hi => (h'.low i hi).trans (h.low i hi),
    h'.tree ∘ h.tree⟩

theorem above_mapGiga (root : ℕ) (T : PtMem) {addr : ℕ} (ha : addr < 2 ^ 38) (hal : 4096 ∣ addr) :
    Above root T (mapGiga T root (pa2hka addr) addr .rwx) := by
  have hvpn : 256 ≤ vpn 2 (pa2hka addr) := by
    rw [vpn_eq, pa2hka, highmemBase]
    omega
  refine ⟨fun t ht => Function.update_of_ne ht .., fun i hi => ?_, fun h => ?_⟩
  · rw [mapGiga, Radix.write, Function.update_self, Function.update_of_ne (by omega)]
  · have hmap := mapGiga_eq T root (pa2hka addr) addr .rwx []
    obtain ⟨hleaf, -, -⟩ := mapped_spec (e := T root (vpn 2 (pa2hka addr))) (p := .rwx)
      (ha.trans (by decide)) hal (by decide)
    have hw : mapGiga T root (pa2hka addr) addr .rwx =
        Radix.write T root (pteOps.radix.index 0 (pa2hka addr))
          (Pte.mapped (T root (vpn 2 (pa2hka addr))) addr .rwx) :=
      (Prod.mk.inj (Prod.mk.inj hmap).2).1.symm
    rw [hw]
    exact h.write_leaf (Or.inr (PteOps.slot_leaf hleaf)) (Nat.zero_le _) rfl

private theorem above_foldl {α : Type*} {root : ℕ} {f : PtMem → α → PtMem} {l : List α}
    (h : ∀ T, ∀ a ∈ l, Above root T (f T a)) (T : PtMem) : Above root T (l.foldl f T) := by
  induction l generalizing T with
  | nil => exact .refl root T
  | cons a l ih =>
    exact (h T a List.mem_cons_self).trans (ih (fun T a ha => h T a (List.mem_cons_of_mem _ ha)) _)

theorem above_kernelProcmap (b : Board) (T : PtMem) (root : ℕ) :
    Above root T (kernelProcmap b T root) := by
  refine above_foldl (fun T r hr => above_foldl (fun T i hi => ?_) T) T
  have hb := b.bounded r hr
  have hal := b.aligned r hr
  rw [List.mem_range, gb] at hi
  rw [gb]
  exact above_mapGiga root T (by omega) (by omega)

/-- `plix.board.virt_riscv64`. -/
def virt : Board where
  mainMemory := ⟨0x80000000, 2 * gb⟩
  memRanges := [⟨0, 2 * gb⟩, ⟨0x80000000, 2 * gb⟩]
  aligned := by decide
  bounded := by decide
  main_aligned := by decide
  main_bounded := by decide

def platform (b : Board) : Platform where
  ops := pteOps
  kernelProcmap := kernelProcmap b
  basepg := b.basepg
  npgs := b.npgs
  npgs_lt := b.npgs_lt
  mem_le := b.mem_le.trans (by decide)
  procmap_other ht := (above_kernelProcmap b _ _).other _ ht
  procmap_low hi := (above_kernelProcmap b _ _).low _ hi
  procmap_tree h := (above_kernelProcmap b _ _).tree (.init h)

end Riscv64

namespace Aarch64
open Vm.Aarch64

/-- The kernel has a page table of its own. -/
def kernelProcmap (T : PtMem) (_ : ℕ) : PtMem := T

def platform (b : Board) (memType : ℕ → BitVec 64) : Platform where
  ops := pteOps memType
  kernelProcmap := kernelProcmap
  basepg := b.basepg
  npgs := b.npgs
  npgs_lt := b.npgs_lt
  mem_le := b.mem_le.trans (Nat.pow_le_pow_right (by decide) (by decide : 38 ≤ 48))
  procmap_other _ := rfl
  procmap_low _ := rfl
  procmap_tree h := .init h

end Aarch64
end Multiplix.Proc
