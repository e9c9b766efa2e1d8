import Multiplix.Fs.Ops

/-! The bitmap of `plix.fs.fs`: allocating and freeing blocks. -/
namespace Multiplix.Fs
open Lib

def IPB : ℕ := BSIZE / 64

def iblock (i : ℕ) (sb : Superblock) : ℕ := i / IPB + sb.inodestart

def bblock (b : ℕ) (sb : Superblock) : ℕ := b / BPB + sb.bmapstart

def bzero (dev bno : ℕ) : FsM Unit := do
  let bp ← bread dev bno
  modify bp fun d => d.fill 0 BSIZE 0
  brelease bp

/-- `1 << (bi % 8)` -/
def bitMask (bi : ℕ) : Byte := 1#8 <<< (bi % 8)

def bitClear (d : Mem) (bi : ℕ) : Bool := d (bi / 8) &&& bitMask bi == 0

def setBit (d : Mem) (bi : ℕ) : Mem :=
  Function.update d (bi / 8) (d (bi / 8) ||| bitMask bi)

def clearBit (d : Mem) (bi : ℕ) : Mem :=
  Function.update d (bi / 8) (d (bi / 8) &&& ~~~bitMask bi)

/-- The inner loop of `balloc`: the first of `n` bits from `bi` on that is clear. -/
def findClear (d : Mem) : ℕ → ℕ → Option ℕ
  | 0, _ => none
  | n + 1, bi => if bitClear d bi then some bi else findClear d n (bi + 1)

variable (sb : Superblock)

def ballocLoop (dev : ℕ) : ℕ → ℕ → FsM ℕ
  | 0, _ => pure 0
  | n + 1, b => do
    let bp ← bread dev (bblock b sb)
    let d ← data bp
    match findClear d (min BPB (sb.size - b)) 0 with
    | some bi => do
      modify bp fun d => setBit d bi
      brelease bp
      bzero dev (b + bi)
      pure (b + bi)
    | none => do
      brelease bp
      ballocLoop dev n (b + BPB)

/-- The outer loop runs once for each bitmap block, as long as its counter cannot wrap. -/
def balloc (dev : ℕ) : FsM ℕ := ballocLoop sb dev ((sb.size + BPB - 1) / BPB) 0

def bfree (dev b : ℕ) : FsM Unit := do
  let bp ← bread dev (bblock b sb)
  let d ← data bp
  if bitClear d (b % BPB) then Prog.fail .freeingFree
  else do
    modify bp fun d => clearBit d (b % BPB)
    brelease bp

end Multiplix.Fs
