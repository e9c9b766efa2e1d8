import Multiplix.Lib.ByteMem
import Multiplix.Vm.Mapping

/-! The memory of the kernel as `plix.vm` and `plix.page` see it: page tables, the pages that
processes map, and the reference counts of pages. -/
namespace Multiplix.Proc
open Lib Vm

def pagesize : ℕ := 4096

/-- Virtual address of the user stack. -/
def stackVa : ℕ := 0x7fff0000
def stackSize : ℕ := pagesize
/-- Maximum virtual address that a user process can access. -/
def maxVa : ℕ := stackVa + stackSize

/-- What an architecture and a board provide: the entries of page tables, `kernel_procmap`, and
main memory in pages. -/
structure Platform where
  ops : PteOps
  kernelProcmap : PtMem → ℕ → PtMem
  basepg : ℕ
  npgs : ℕ
  npgs_lt : npgs + 1 < 2 ^ 32
  mem_le : (basepg + npgs) * 4096 ≤ 2 ^ ops.paBits
  procmap_other : ∀ {T root t}, t ≠ root → kernelProcmap T root t = T t
  procmap_low : ∀ {T root i}, i < 256 → kernelProcmap T root root i = T root i
  procmap_tree : ∀ {T root}, (∀ i, T root i = 0) →
    ops.radix.Tree (kernelProcmap T root) root {root}

/-- Tables and pages are apart, so each has a memory of its own. `heap` is what `kalloc` is going
to answer. -/
structure Machine where
  tables : PtMem
  bytes : Mem
  refcnt : ℕ → ℕ
  heap : Supply

namespace Machine

def kalloc (m : Machine) : Option ℕ × Machine :=
  match m.heap with
  | [] => (none, m)
  | a :: as => (a, { m with heap := as })

/-- `knew!Pagetable`. -/
def knewTable (m : Machine) : Option ℕ × Machine :=
  match ptalloc m.tables m.heap with
  | (root, T, as) => (root, { m with tables := T, heap := as })

def kzalloc (m : Machine) (sz : ℕ) : Option ℕ × Machine :=
  match m.kalloc with
  | (none, m) => (none, m)
  | (some mem, m) => (some mem, { m with bytes := m.bytes.fill mem sz 0 })

def setPte (m : Machine) (pte : ℕ × ℕ) (f : Pte → Pte) : Machine :=
  { m with tables := Radix.write m.tables pte.1 pte.2 (f (m.tables pte.1 pte.2)) }

/-- Counts are of type `uint`. -/
def addRef (m : Machine) (pa : ℕ) : Machine :=
  let pn := pa / pagesize
  { m with refcnt := Function.update m.refcnt pn ((m.refcnt pn + 1) % 2 ^ 32) }

def dropRef (m : Machine) (pa : ℕ) : Machine :=
  let pn := pa / pagesize
  { m with refcnt := Function.update m.refcnt pn ((m.refcnt pn + (2 ^ 32 - 1)) % 2 ^ 32) }

def mappg (P : Platform) (m : Machine) (pt va pa : ℕ) (perm : Perm) : Bool × Machine :=
  match P.ops.map m.tables pt va pa .normal perm m.heap with
  | (false, T, as) => (false, { m with tables := T, heap := as })
  | (true, T, as) => (true, { m with tables := T, heap := as }.addRef pa)

end Machine

structure PtIter where
  va : ℕ
  pte : Option (ℕ × ℕ)
  pt : ℕ

namespace PtIter

def get (pt : ℕ) : PtIter := ⟨0, none, pt⟩

variable (ops : PteOps)

def advance (T : PtMem) (it : PtIter) : Option PtIter :=
  if it.va ≥ maxVa then none
  else
    let w := ops.walk T it.pt it.va .normal []
    match w.pte with
    | some (t, i) =>
      let pte := if w.endlevel ≠ .normal ∨ ops.valid (T t i) = false then none else some (t, i)
      some { it with pte := pte, va := it.va + level2size w.endlevel }
    | none => some { it with pte := none, va := it.va + level2size .normal }

/-- Every step goes at least one page on, so this many suffice. -/
def fuel : ℕ := maxVa / pagesize + 1

def next (T : PtMem) : ℕ → PtIter → Option (VaMapping × PtIter)
  | 0, _ => none
  | n + 1, it =>
    match it.advance ops T with
    | none => none
    | some it' =>
      match it'.pte with
      | none => next T n it'
      | some pte => some (⟨pte, it.va, level2size .normal⟩, it')

/-- The body answers whether to go on. -/
def opApply (body : VaMapping → Machine → Bool × Machine) :
    ℕ → PtIter → Machine → Bool × Machine
  | 0, _, m => (true, m)
  | n + 1, it, m =>
    match it.next ops m.tables fuel with
    | none => (true, m)
    | some (map, it) =>
      match body map m with
      | (true, m) => opApply body n it m
      | (false, m) => (false, m)

end PtIter
end Multiplix.Proc
