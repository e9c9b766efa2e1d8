import Multiplix.Lib.ByteMem
import Multiplix.Lib.Cyclic

/-! The K&R allocator of `plix.alloc.kr`. The headers of the blocks are in the memory they manage,
and that of the empty list is in the allocator. A loop that does not end within its fuel is
`none`. -/
namespace Multiplix.Alloc
open Lib

namespace KrHeader

/-- `Header.sizeof`: `ptr`, aligned to `alignment`, and `size`. -/
def sizeof (alignment : ℕ) : ℕ :=
  let a := max alignment 8
  (16 + a - 1) / a * a

def ptr (m : Mem) (p : ℕ) : ℕ := m.load 8 p

def size (m : Mem) (p : ℕ) : ℕ := m.load 8 (p + 8)

def setPtr (m : Mem) (p v : ℕ) : Mem := m.store 8 p v

def setSize (m : Mem) (p v : ℕ) : Mem := m.store 8 (p + 8) v

end KrHeader

open KrHeader (sizeof ptr size setPtr setSize)

/-- `base` is the address of the header in the allocator. -/
structure KrAlloc where
  base : ℕ
  freep : ℕ
  heap : ℕ
  heapEnd : ℕ

namespace KrAlloc

variable (alignment : ℕ)

def new (base heapStart len : ℕ) : KrAlloc := ⟨base, 0, heapStart, (heapStart + len) % 2 ^ 64⟩

def sbrk (a : KrAlloc) (increment : ℕ) : ℕ × KrAlloc :=
  if a.heap ≥ a.heapEnd then (0, a)
  else (a.heap, { a with heap := (a.heap + increment) % 2 ^ 64 })

/-- `p + n` -/
def advance (p n : ℕ) : ℕ := (p + n * sizeof alignment) % 2 ^ 64

/-- The loop that finds the place of a block on the list. -/
def freeLoop (m : Mem) (bp : ℕ) : ℕ → ℕ → Option ℕ
  | 0, _ => none
  | fuel + 1, p =>
    if p < bp ∧ bp < ptr m p then some p
    else if p ≥ ptr m p ∧ (bp > p ∨ bp < ptr m p) then some p
    else freeLoop m bp fuel (ptr m p)

/-- join to upper nbr -/
def joinUpper (m : Mem) (p bp : ℕ) : Mem :=
  if advance alignment bp (size m bp) = ptr m p then
    let m := setSize m bp (size m bp + size m (ptr m p))
    setPtr m bp (ptr m (ptr m p))
  else setPtr m bp (ptr m p)

/-- join to lower nbr -/
def joinLower (m : Mem) (p bp : ℕ) : Mem :=
  if advance alignment p (size m p) = bp then
    let m := setSize m p (size m p + size m bp)
    setPtr m p (ptr m bp)
  else setPtr m p bp

def freeInternal (fuel : ℕ) (a : KrAlloc) (m : Mem) (ap : ℕ) : Option (KrAlloc × Mem) :=
  let bp := (ap + 2 ^ 64 - sizeof alignment) % 2 ^ 64
  (freeLoop m bp fuel a.freep).map fun p =>
    ({ a with freep := p }, joinLower alignment (joinUpper alignment m p bp) p bp)

/-- The minimum number of units to request. -/
def nalloc : ℕ := 1

def morecore (fuel : ℕ) (a : KrAlloc) (m : Mem) (nu : ℕ) : Option (ℕ × KrAlloc × Mem) :=
  let nu := if nu < nalloc then nalloc else nu
  let (up, a) := a.sbrk (nu * sizeof alignment % 2 ^ 64)
  if up = 0 then some (0, a, m)
  else
    let m := setSize m up nu
    (freeInternal alignment fuel a m (advance alignment up 1)).map fun (a, m) => (a.freep, a, m)

/-- The loop over the list, which goes on behind the new memory when it has wrapped around. -/
def allocLoop (nunits : ℕ) : ℕ → KrAlloc → Mem → ℕ → ℕ → Option (ℕ × KrAlloc × Mem)
  | 0, _, _, _, _ => none
  | fuel + 1, a, m, prevp, p =>
    if size m p ≥ nunits then
      if size m p = nunits then
        some (advance alignment p 1, { a with freep := prevp }, setPtr m prevp (ptr m p))
      else
        let m := setSize m p (size m p - nunits)
        let p := advance alignment p (size m p)
        some (advance alignment p 1, { a with freep := prevp }, setSize m p nunits)
    else if p = a.freep then
      match morecore alignment fuel a m nunits with
      | none => none
      | some (p, a, m) =>
        if p = 0 then some (0, a, m) else allocLoop nunits fuel a m p (ptr m p)
    else allocLoop nunits fuel a m p (ptr m p)

/-- `(nbytes + Header.sizeof-1)/Header.sizeof + 1` -/
def units (nbytes : ℕ) : ℕ :=
  (nbytes + sizeof alignment - 1) % 2 ^ 64 / sizeof alignment + 1

def alloc (fuel : ℕ) (a : KrAlloc) (m : Mem) (nbytes : ℕ) : Option (ℕ × KrAlloc × Mem) :=
  -- no free list yet
  let (a, m) := if a.freep = 0 then
      ({ a with freep := a.base }, setSize (setPtr m a.base a.base) a.base 0)
    else (a, m)
  allocLoop alignment (units alignment nbytes) fuel a m a.freep (ptr m a.freep)

def free (fuel : ℕ) (a : KrAlloc) (m : Mem) (ap : ℕ) : Option (KrAlloc × Mem) :=
  if ap = 0 then some (a, m) else freeInternal alignment fuel a m ap

end KrAlloc
end Multiplix.Alloc
