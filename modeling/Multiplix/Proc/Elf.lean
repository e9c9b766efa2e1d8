import Multiplix.Proc.Machine

/-! `loadelf` of `plix.elf`. The image is the memory from `elfdat` on; its fields are
little-endian and its addresses are of type `ulong`. -/
namespace Multiplix.Proc
open Lib Vm

def magic : ℕ := 0x464C457F

structure FileHeader where
  magic : ℕ
  entry : ℕ
  phoff : ℕ
  phnum : ℕ

structure ProgHeader where
  type : ℕ
  offset : ℕ
  vaddr : ℕ
  filesz : ℕ
  memsz : ℕ

def FileHeader.read (bin : Mem) : FileHeader where
  magic := bin.load 4 0
  entry := bin.load 8 24
  phoff := bin.load 8 32
  phnum := bin.load 2 56

def ProgHeader.size : ℕ := 56

def ProgHeader.read (bin : Mem) (off : ℕ) : ProgHeader where
  type := bin.load 4 off
  offset := bin.load 8 (off + 8)
  vaddr := bin.load 8 (off + 16)
  filesz := bin.load 8 (off + 32)
  memsz := bin.load 8 (off + 40)

def Prog.load : ℕ := 1

namespace ProgHeader

variable (ph : ProgHeader)

def pad : ℕ := ph.vaddr % pagesize

/-- Pages are mapped from a page boundary. -/
def vaStart : ℕ := ph.vaddr - ph.pad

def sz : ℕ := max ((ph.memsz + ph.pad) % 2 ^ 64) pagesize

/-- The contents of one page, whose first `pad` bytes come before the segment. -/
def fillPage (bin : Mem) (va pad mem : ℕ) (bytes : Mem) : Mem :=
  let bytes := bytes.fill mem pad 0
  let soff := (va + 2 ^ 64 - ph.vaddr) % 2 ^ 64
  let n := if ph.filesz > soff then min (pagesize - pad) (ph.filesz - soff) else 0
  let bytes := bytes.copy (mem + pad) bin ((ph.offset + soff) % 2 ^ 64) n
  bytes.fill (mem + (pad + n)) (pagesize - (pad + n)) 0

end ProgHeader

namespace Machine

variable (P : Platform)

/-- The pages of one segment. Every turn takes an answer of `kalloc`, so that the answers bound
the loop. -/
def loadPages (bin : Mem) (ph : ProgHeader) (pt : ℕ) : ℕ → ℕ → ℕ → Machine → Bool × Machine
  | 0, _, _, m => (false, m)
  | n + 1, va, pad, m =>
    if va < (ph.vaStart + ph.sz) % 2 ^ 64 then
      match m.kalloc with
      | (none, m) => (false, m)
      | (some mem, m) =>
        let m := { m with bytes := ph.fillPage bin va pad mem m.bytes }
        match m.mappg P pt va mem .urwx with
        | (false, m) => (false, m)
        | (true, m) => loadPages bin ph pt n ((va + pagesize) % 2 ^ 64) 0 m
    else (true, m)

/-- The segments left, from the header at `off`; the result is the final `brk`. -/
def loadSegments (bin : Mem) (pt : ℕ) : ℕ → ℕ → ℕ → Machine → Option ℕ × Machine
  | 0, _, brk, m => (some brk, m)
  | n + 1, off, brk, m =>
    let ph := ProgHeader.read bin off
    let off := (off + ProgHeader.size) % 2 ^ 64
    if ph.type ≠ Prog.load ∨ ph.memsz = 0 then loadSegments bin pt n off brk m
    else if ph.memsz < ph.filesz then (none, m)
    else if (ph.vaddr + ph.memsz) % 2 ^ 64 < ph.vaddr then (none, m)
    else
      match m.loadPages P bin ph pt (m.heap.length + 1) ph.vaStart ph.pad with
      | (false, m) => (none, m)
      | (true, m) => loadSegments bin pt n off (max ((ph.vaddr + ph.memsz) % 2 ^ 64) brk) m

/-- The results are the entry point and `brk`. -/
def loadelf (bin : Mem) (pt : ℕ) (m : Machine) : Option (ℕ × ℕ) × Machine :=
  let elf := FileHeader.read bin
  if elf.magic ≠ magic then (none, m)
  else
    match m.loadSegments P bin pt elf.phnum elf.phoff 0 with
    | (none, m) => (none, m)
    | (some brk, m) => (some (elf.entry, brk), m)

end Machine
end Multiplix.Proc
