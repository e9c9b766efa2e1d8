import Multiplix.Alloc.Buddy
import Multiplix.Core.Bits

/-! The block allocator of `plix.alloc.block`: requests below a page are served from blocks of
equal slots, larger ones by the underlying buddy allocator. -/
namespace Multiplix.Alloc
open Lib Core

def pagesize : ℕ := 4096

def blocksize : ℕ := pagesize

namespace Header

/-- `Header.sizeof`: `free_head`, `alloc_slots`, `total_slots`, `next`. -/
def sizeof : ℕ := 24

def freeHead (m : Mem) (h : ℕ) : ℕ := m.load 8 h

def allocSlots (m : Mem) (h : ℕ) : ℕ := m.load 4 (h + 8)

def totalSlots (m : Mem) (h : ℕ) : ℕ := m.load 4 (h + 12)

def next (m : Mem) (h : ℕ) : ℕ := m.load 8 (h + 16)

def setFreeHead (m : Mem) (h v : ℕ) : Mem := m.store 8 h v

def setAllocSlots (m : Mem) (h v : ℕ) : Mem := m.store 4 (h + 8) v

def setTotalSlots (m : Mem) (h v : ℕ) : Mem := m.store 4 (h + 12) v

def setNext (m : Mem) (h v : ℕ) : Mem := m.store 8 (h + 16) v

def allocate (m : Mem) (h : ℕ) : ℕ × Mem :=
  let alloc := freeHead m h
  if alloc = 0 then (0, m)
  else
    let m := setFreeHead m h (m.load 8 alloc)
    (alloc, setAllocSlots m h (allocSlots m h + 1))

end Header

structure BlockAlloc where
  allocator : BuddyAlloc
  partialBlocks : ℕ → ℕ
  fullBlocks : ℕ → ℕ

namespace BlockAlloc

variable (N : ℕ)

def initAlloc (ptr len : ℕ) : BlockAlloc :=
  ⟨BuddyAlloc.zero.initAlloc N ptr len, fun _ => 0, fun _ => 0⟩

/-- The loop that threads the free list, from slot offset `i` on. -/
def linkSlots (data sz limit : ℕ) : ℕ → ℕ → Mem → Mem
  | 0, _, m => m
  | fuel + 1, i, m =>
    if i < limit then linkSlots data sz limit fuel (i + sz) (m.store 8 (data + i) (data + (i + sz)))
    else m

/-- The header and the free list of a new block at `block`. -/
def formatBlock (m : Mem) (block sz : ℕ) : Mem :=
  let nelem := (blocksize - Header.sizeof) / sz
  let datasize := blocksize - Header.sizeof
  let data := block + Header.sizeof
  let m := Header.setFreeHead m block data
  let m := Header.setAllocSlots m block 0
  let m := Header.setTotalSlots m block nelem
  let m := linkSlots data sz (datasize - sz) datasize 0 m
  m.store 8 (data + (datasize - sz)) 0

def makeBlock (b : BlockAlloc) (m : Mem) (sz : ℕ) : Option (ℕ × BlockAlloc × Mem) := do
  let r ← b.allocator.alloc N m blocksize
  let b := { b with allocator := r.2.1 }
  if r.1 = 0 then some (0, b, r.2.2) else some (r.1, b, formatBlock r.2.2 r.1 sz)

/-- A block that became full moves from the one list to the other. -/
def allocInto (b : BlockAlloc) (m : Mem) (nblk block : ℕ) : ℕ × BlockAlloc × Mem :=
  let r := Header.allocate m block
  let m := r.2
  if r.1 ≠ 0 ∧ Header.allocSlots m block ≥ Header.totalSlots m block then
    (r.1,
      { b with
        partialBlocks := Function.update b.partialBlocks nblk (Header.next m block)
        fullBlocks := Function.update b.fullBlocks nblk block },
      Header.setNext m block (b.fullBlocks nblk))
  else (r.1, b, m)

/-- The returned slice is a pointer with its length. -/
def alloc (b : BlockAlloc) (m : Mem) (sz : ℕ) : Option ((ℕ × ℕ) × BlockAlloc × Mem) := do
  let sz ← pow2ceil (if sz < 8 then 8 else sz)
  if sz ≥ blocksize then
    let r ← b.allocator.alloc N m sz
    some ((r.1, sz), { b with allocator := r.2.1 }, r.2.2)
  else
    let nblk := log2ceil sz
    let block := b.partialBlocks nblk
    if block ≠ 0 then
      let r := b.allocInto m nblk block
      some ((r.1, sz), r.2)
    else
      let r ← b.makeBlock N m sz
      if r.1 = 0 then some ((0, 0), r.2)
      else
        let m := Header.setNext r.2.2 r.1 (r.2.1.partialBlocks nblk)
        let b := { r.2.1 with partialBlocks := Function.update r.2.1.partialBlocks nblk r.1 }
        let r := b.allocInto m nblk r.1
        some ((r.1, sz), r.2)

/-- `~0 << (bits.msb(sys.pagesize) - 1)`, an `int` shift widened with its sign. -/
def pageMask : ℕ := ((~~~0#32 <<< (msb pagesize - 1)).signExtend 64).toNat

def free (b : BlockAlloc) (m : Mem) (val size : ℕ) : Option (BlockAlloc × Mem) :=
  if val = 0 then some (b, m)
  else if val % pagesize = 0 then
    (b.allocator.free N m val size).map fun r => ({ b with allocator := r.1 }, r.2)
  else
    let hdr := val &&& pageMask
    let m := Header.setAllocSlots m hdr (Header.allocSlots m hdr + (2 ^ 32 - 1))
    let m := m.store 8 val (Header.freeHead m hdr)
    some (b, Header.setFreeHead m hdr val)

end BlockAlloc
end Multiplix.Alloc
