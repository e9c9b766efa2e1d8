import Multiplix.Core.Math
import Multiplix.Lib.ByteMem

/-! The buddy allocator of `plix.alloc.buddy`. Pointers are natural numbers, zero is null, and
the links of the free lists live in the memory they manage. A call that panics or does not end
is `none`. -/
namespace Multiplix.Alloc
open Lib Core

def minHeapAlign : ℕ := 4096

/-- `FreeBlock.next`, the only field of a free block. -/
def freeBlockNext (m : Mem) (p : ℕ) : ℕ := m.load 8 p

structure BuddyAlloc where
  heapPtr : ℕ
  heapLen : ℕ
  freeLists : ℕ → ℕ
  minBlockSize : ℕ
  minBlockSizeLog2 : ℕ

/-- The zero-initialised global. -/
def BuddyAlloc.zero : BuddyAlloc := ⟨0, 0, fun _ => 0, 0, 0⟩

/-- D shifts the `int` literal `1` as a 32-bit word and widens the result with its sign. -/
def shlInt (k : ℕ) : ℕ := ((1#32 <<< k).signExtend 64).toNat

def alignment (size : ℕ) : ℕ := if size ≥ 4096 then 4096 else 16

namespace BuddyAlloc

variable (N : ℕ)

def setFreeList (a : BuddyAlloc) (order p : ℕ) : BuddyAlloc :=
  { a with freeLists := Function.update a.freeLists order p }

/-- `initialize`: inserts the entire heap into the last free list, without writing its link. -/
def initAlloc (a : BuddyAlloc) (ptr len : ℕ) : BuddyAlloc :=
  { heapPtr := ptr
    heapLen := len
    minBlockSize := len >>> (N - 1)
    minBlockSizeLog2 := log2ceil (len >>> (N - 1))
    freeLists := Function.update a.freeLists (N - 1) ptr }

/-- The inner option is the `bool` result with its `ref` argument. -/
def allocationSize (a : BuddyAlloc) (size align : ℕ) : Option (Option ℕ) :=
  if align ≤ minHeapAlign then
    let size := if align > size then align else size
    (pow2ceil (max size a.minBlockSize)).map fun size =>
      if size > a.heapLen then none else some size
  else none

def allocationOrder (a : BuddyAlloc) (size align : ℕ) : Option (Option ℕ) :=
  (a.allocationSize size align).map fun size? =>
    size?.map fun size => log2ceil size - a.minBlockSizeLog2

def orderSize (a : BuddyAlloc) (order : ℕ) : ℕ := shlInt (a.minBlockSizeLog2 + order)

/-- The link of the only block of the last list is never set, so it is not read either. -/
def freeListPop (a : BuddyAlloc) (m : Mem) (order : ℕ) : ℕ × BuddyAlloc :=
  let fb := a.freeLists order
  if fb ≠ 0 then
    if order ≠ N - 1 then (fb, a.setFreeList order (freeBlockNext m fb))
    else (fb, a.setFreeList order 0)
  else (0, a)

def freeListInsert (a : BuddyAlloc) (m : Mem) (order block : ℕ) : BuddyAlloc × Mem :=
  (a.setFreeList order block, m.store 8 block (a.freeLists order))

/-- `*checking`: the head of the list, or the link of a block on it. -/
def checked (a : BuddyAlloc) (m : Mem) (order : ℕ) : Option ℕ → ℕ
  | none => a.freeLists order
  | some p => freeBlockNext m p

def setChecked (a : BuddyAlloc) (m : Mem) (order : ℕ) (v : ℕ) : Option ℕ → BuddyAlloc × Mem
  | none => (a.setFreeList order v, m)
  | some p => (a, m.store 8 p v)

def freeListRemoveLoop (order block : ℕ) :
    ℕ → BuddyAlloc → Mem → Option ℕ → Option (Bool × BuddyAlloc × Mem)
  | 0, _, _, _ => none
  | fuel + 1, a, m, checking =>
    let cur := a.checked m order checking
    if cur = 0 then some (false, a, m)
    else if cur = block then
      some (true, a.setChecked m order (freeBlockNext m cur) checking)
    else freeListRemoveLoop order block fuel a m (some cur)

/-- A list that does not close on itself has fewer nodes than the heap has bytes. -/
def freeListRemove (a : BuddyAlloc) (m : Mem) (order block : ℕ) :
    Option (Bool × BuddyAlloc × Mem) :=
  freeListRemoveLoop order block (a.heapLen + 1) a m none

def splitFreeBlockLoop (block : ℕ) : ℕ → ℕ → ℕ → BuddyAlloc → Mem → BuddyAlloc × Mem
  | 0, _, _, a, m => (a, m)
  | k + 1, sizeToSplit, order, a, m =>
    let r := a.freeListInsert m (order - 1) (block + sizeToSplit >>> 1)
    splitFreeBlockLoop block k (sizeToSplit >>> 1) (order - 1) r.1 r.2

def splitFreeBlock (a : BuddyAlloc) (m : Mem) (block order orderNeeded : ℕ) : BuddyAlloc × Mem :=
  splitFreeBlockLoop block (order - orderNeeded) (a.orderSize order) order a m

/-- The buddy's address, null for the whole heap. -/
def buddy (a : BuddyAlloc) (order block : ℕ) : Option ℕ :=
  if a.heapPtr ≤ block then
    let relative := block - a.heapPtr
    let size := a.orderSize order
    some (if size ≥ a.heapLen then 0 else a.heapPtr + (relative ^^^ size))
  else none

/-- The loop over the orders from `orderNeeded` on. -/
def allocateLoop (orderNeeded : ℕ) : ℕ → ℕ → BuddyAlloc → Mem → ℕ × BuddyAlloc × Mem
  | 0, _, a, m => (0, a, m)
  | fuel + 1, order, a, m =>
    let r := a.freeListPop N m order
    if r.1 ≠ 0 then
      if order > orderNeeded then (r.1, r.2.splitFreeBlock m r.1 order orderNeeded)
      else (r.1, r.2, m)
    else allocateLoop orderNeeded fuel (order + 1) r.2 m

def allocate (a : BuddyAlloc) (m : Mem) (size align : ℕ) : Option (ℕ × BuddyAlloc × Mem) :=
  (a.allocationOrder size align).map fun order? =>
    match order? with
    | none => (0, a, m)
    | some orderNeeded => allocateLoop N orderNeeded (N - orderNeeded) orderNeeded a m

def alloc (a : BuddyAlloc) (m : Mem) (size : ℕ) : Option (ℕ × BuddyAlloc × Mem) :=
  a.allocate N m size (alignment size)

/-- The loop over the orders from the block's own on. -/
def deallocLoop : ℕ → ℕ → ℕ → BuddyAlloc → Mem → Option (BuddyAlloc × Mem)
  | 0, _, _, a, m => some (a, m)
  | fuel + 1, order, block, a, m => do
    let b ← a.buddy order block
    if b ≠ 0 then
      let r ← a.freeListRemove m order b
      if r.1 then deallocLoop fuel (order + 1) (min block b) r.2.1 r.2.2
      else some (r.2.1.freeListInsert r.2.2 order block)
    else some (a.freeListInsert m order block)

def dealloc (a : BuddyAlloc) (m : Mem) (ptr size align : ℕ) : Option (BuddyAlloc × Mem) := do
  match ← a.allocationOrder size align with
  | none => none
  | some initialOrder => deallocLoop (N - initialOrder) initialOrder ptr a m

def free (a : BuddyAlloc) (m : Mem) (ptr size : ℕ) : Option (BuddyAlloc × Mem) :=
  a.dealloc N m ptr size (alignment size)

end BuddyAlloc
end Multiplix.Alloc
