import Mathlib.Data.List.FinRange
import Multiplix.Lib.ByteMem
import Multiplix.Lib.CircList

/-! The buffer cache of `plix.fs.bcache`: a fixed number of buffers on a circular list through
`head`, the most recently released one first. -/
namespace Multiplix.Fs.Bcache
open Lib

/-- The most blocks that an operation of the file system writes. -/
def MAXOPBLOCKS : ℕ := 10

def NBUF : ℕ := MAXOPBLOCKS * 3

/-- A buffer of the array `bcache.buf`. -/
abbrev BufIdx := Fin NBUF

/-- The fields of a buffer other than its links. -/
structure Buf where
  valid : Bool
  dev : BitVec 32
  blocknum : BitVec 32
  refcnt : BitVec 32
  data : Mem

/-- The buffers with the links between them and the head. -/
structure BufferCache where
  buf : BufIdx → Buf
  links : CircLinks BufIdx

inductive Stop
  /-- `bget: no buffers` -/
  | noBuffers
  /-- a loop over the list has passed every buffer and not come back to the head -/
  | endless
  deriving DecidableEq

def Buf.zero : Buf := ⟨false, 0, 0, 0, fun _ => 0⟩

/-- The loop of `binit` over the buffers. The global starts zeroed, so the links it finds there are
left open. -/
def binit (L : CircLinks BufIdx) : BufferCache where
  buf := fun _ => .zero
  links := (List.finRange NBUF).foldl CircLinks.pushFront
    ⟨Function.update L.next none none, Function.update L.prev none none⟩

namespace BufferCache

/-- `b.dev == dev && b.blocknum == blocknum` -/
def holds (c : BufferCache) (dev blocknum : BitVec 32) (b : BufIdx) : Bool :=
  (c.buf b).dev == dev && (c.buf b).blocknum == blocknum

def unreferenced (c : BufferCache) (b : BufIdx) : Bool := (c.buf b).refcnt == 0

def setBuf (c : BufferCache) (b : BufIdx) (f : Buf → Buf) : BufferCache :=
  { c with buf := Function.update c.buf b (f (c.buf b)) }

def bget (c : BufferCache) (dev blocknum : BitVec 32) : Except Stop (BufIdx × BufferCache) :=
  match scan c.links.next (c.holds dev blocknum) NBUF (c.links.next none) with
  | none => .error .endless
  | some (some b) => .ok (b, c.setBuf b fun v => { v with refcnt := v.refcnt + 1 })
  | some none =>
    match scan c.links.prev c.unreferenced NBUF (c.links.prev none) with
    | none => .error .endless
    | some (some b) => .ok (b, c.setBuf b fun v =>
        { v with dev := dev, blocknum := blocknum, valid := false, refcnt := 1 })
    | some none => .error .noBuffers

/-- `read` is what the disk puts into the data of a buffer. -/
def bread (c : BufferCache) (read : Buf → Mem) (dev blocknum : BitVec 32) :
    Except Stop (BufIdx × BufferCache) := do
  let (b, c) ← c.bget dev blocknum
  if (c.buf b).valid then .ok (b, c)
  else .ok (b, c.setBuf b fun v => { v with data := read v, valid := true })

def brelease (c : BufferCache) (b : BufIdx) : BufferCache :=
  let c := c.setBuf b fun v => { v with refcnt := v.refcnt - 1 }
  if (c.buf b).refcnt = 0 then { c with links := (c.links.unlink b).pushFront b } else c

end BufferCache
end Multiplix.Fs.Bcache
