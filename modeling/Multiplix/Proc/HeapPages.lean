import Multiplix.Alloc.LastBlock
import Multiplix.Proc.Platforms

/-! The pages that the kernel's allocator hands out and the descriptors of `plix.page`, board by
board. -/
namespace Multiplix.Proc
open Lib Alloc

/-- The boards of `plix.board`. -/
inductive BoardName
  | raspi3
  | raspi4
  | orpiz2
  | virt_riscv64
  | visionfive
  | visionfive2

namespace BoardName

/-- `Machine.main_memory`. -/
def mainMemory : BoardName → MemRange
  | raspi3 => ⟨0, 512 * 1024 * 1024⟩
  | raspi4 => ⟨0, 1024 * 1024 * 1024⟩
  | orpiz2 => ⟨0x40000000, 1024 * 1024 * 1024⟩
  | virt_riscv64 => ⟨0x80000000, 2 * 1024 * 1024 * 1024⟩
  | visionfive => ⟨0x80000000, 2 * 1024 * 1024 * 1024⟩
  | visionfive2 => ⟨0x40000000, 3 * 1024 * 1024 * 1024⟩

/-- Where the board's `kernel.ld` places the kernel. -/
def loadAddress : BoardName → ℕ
  | raspi3 => 0xffffffc000100000
  | raspi4 => 0xffffffc000100000
  | orpiz2 => 0xffffffc044000000
  | virt_riscv64 => 0xffffffc084000000
  | visionfive => 0xffffffc084000000
  | visionfive2 => 0xffffffc044000000

variable (b : BoardName)

/-- `Pages.basepg` -/
def basepg : ℕ := b.mainMemory.start / Proc.pagesize

/-- `Pages.npgs` -/
def npgs : ℕ := b.mainMemory.sz / Proc.pagesize

end BoardName

def ka2pa (ka : ℕ) : ℕ := ka - highmemBase

/-- A kernel of the board, with the end of its sections where `kernel.ld` puts `_heap_start`. -/
structure Image (b : BoardName) where
  heapStart : ℕ
  load_le : b.loadAddress ≤ heapStart
  aligned : 4096 ∣ heapStart

/-- The page of a kernel address has a descriptor: `pages[pn]` is inside the array. -/
def HasDescriptor (b : BoardName) (ka : ℕ) : Prop :=
  b.basepg ≤ ka2pa ka / Proc.pagesize ∧ ka2pa ka / Proc.pagesize < b.basepg + b.npgs

namespace Image

variable {b : BoardName} (i : Image b)

/-- After `kallocinit(&_heap_start, mb!(512))`. -/
def Run (s : BlockSystem) : Prop := Kalloc.Run buddyOrders i.heapStart heapSize s

theorem highmemBase_le : highmemBase + b.mainMemory.start ≤ i.heapStart := by
  refine le_trans ?_ i.load_le
  cases b <;> decide

theorem heapStart_pos : 0 < i.heapStart := by
  have := i.highmemBase_le
  unfold highmemBase at this
  omega

/-- The end of main memory in pages. -/
theorem lt_end_iff (pa : ℕ) : pa / Proc.pagesize < b.basepg + b.npgs ↔
    pa < b.mainMemory.start + b.mainMemory.sz := by
  cases b <;>
    simp only [BoardName.basepg, BoardName.npgs, BoardName.mainMemory, Proc.pagesize] <;> omega

theorem base_le (pa : ℕ) : b.basepg ≤ pa / Proc.pagesize ↔ b.mainMemory.start ≤ pa := by
  cases b <;> simp only [BoardName.basepg, BoardName.mainMemory, Proc.pagesize] <;> omega

/-- Every page that a run of the kernel's allocator hands out has a descriptor. -/
def Described : Prop := ∀ s, i.Run s → ∀ u ∈ s.live, u.len = Alloc.pagesize → HasDescriptor b u.ptr

/-- The heap ends at most a page past the end of main memory. The blocks of the lowest order are
two pages, so the second page of the last one is never the start of a block. -/
def Fits : Prop :=
  ka2pa i.heapStart + heapSize ≤ b.mainMemory.start + b.mainMemory.sz + Proc.pagesize

theorem described_of_fits (h : i.Fits) : i.Described := by
  intro s hr u hu hlen
  have hbase := i.highmemBase_le
  have hmem : b.mainMemory.start + b.mainMemory.sz ≤ 2 ^ 32 := by
    cases b <;> decide
  unfold Fits ka2pa heapSize Proc.pagesize highmemBase at h
  unfold highmemBase at hbase
  let g : HeapGeometry buddyOrders :=
    ⟨i.heapStart, 29, by decide, by decide, by decide, i.heapStart_pos, i.aligned, by omega⟩
  have hblock := Kalloc.Inv.page_block (Kalloc.Run.inv (g := g) hr) hu hlen
  rw [show g.minLog = 13 from rfl, show g.ptr = i.heapStart from rfl,
    show g.log = 29 from rfl] at hblock
  rw [HasDescriptor, lt_end_iff, base_le, ka2pa, highmemBase]
  omega

theorem fits_of_described (h : i.Described) : i.Fits := by
  obtain ⟨s, hr, hu⟩ := Kalloc.run_last i.heapStart_pos
  have hlast := (h s hr _ hu rfl).2
  have hbase := i.highmemBase_le
  have hend : 4096 ∣ b.mainMemory.start + b.mainMemory.sz := by
    cases b <;> decide
  have hal := i.aligned
  rw [lt_end_iff] at hlast
  simp only at hlast
  unfold ka2pa highmemBase heapSize at hlast
  unfold Fits ka2pa highmemBase heapSize Proc.pagesize
  unfold highmemBase at hbase
  omega

/-- On every board, for every kernel: the pages handed out have descriptors exactly when the heap
ends in main memory, but for a page. -/
theorem described_iff : i.Described ↔ i.Fits :=
  ⟨i.fits_of_described, i.described_of_fits⟩

/-- The smallest kernel of a Raspberry Pi 3. -/
def raspi3 : Image .raspi3 := ⟨0xffffffc000100000, le_rfl, by decide⟩

/-- The heap is as large as the main memory of this board, and starts a megabyte into it. -/
theorem not_described_raspi3 : ¬ raspi3.Described := by
  intro h
  have hfits := raspi3.fits_of_described h
  unfold Fits ka2pa highmemBase heapSize Proc.pagesize at hfits
  revert hfits
  decide

end Image
end Multiplix.Proc
