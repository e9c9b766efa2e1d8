import Multiplix.Fs.Block

/-! The inodes of `plix.fs.file`, their contents, and the directories of `plix.fs.dir`. -/
namespace Multiplix.Fs
open Lib

/-- Where the on-disk inode lies in its block. -/
def dinodeOff (inum : ℕ) : ℕ := inum % IPB * 64

/-- The fields of the on-disk inode, put in an in-memory one. -/
def Inode.load (i : Inode) (d : Mem) (o : ℕ) : Inode :=
  { i with
    type := d.load 2 o
    major := d.load 2 (o + 2)
    minor := d.load 2 (o + 4)
    nlink := d.load 2 (o + 6)
    size := d.load 4 (o + 8)
    addrs := fun n => d.load 4 (o + 12 + 4 * n) }

def Inode.store (i : Inode) (d : Mem) (o : ℕ) : Mem :=
  let d := d.store 2 o i.type
  let d := d.store 2 (o + 2) i.major
  let d := d.store 2 (o + 4) i.minor
  let d := d.store 2 (o + 6) i.nlink
  let d := d.store 4 (o + 8) i.size
  d.storeWords 4 (o + 12) (List.ofFn i.addrs)

namespace Slot

/-- The table is searched from `itable.inodes[0]` on, and the first unused slot is kept. -/
def igetLoop (dev inum : ℕ) : List Slot → Option Slot → FsM Slot
  | [], none => Prog.fail .noInodes
  | [], some ip => do
    modifyInode ip fun i => { i with dev := dev, inum := inum, refcnt := 1, valid := false }
    pure ip
  | ip :: rest, empty => do
    let i ← inode ip
    if i.refcnt > 0 ∧ i.dev = dev ∧ i.inum = inum then do
      setInode ip { i with refcnt := i.refcnt + 1 }
      pure ip
    else igetLoop dev inum rest (if empty.isNone ∧ i.refcnt = 0 then some ip else empty)

end Slot

def iget (dev inum : ℕ) : FsM Slot := Slot.igetLoop dev inum (List.finRange NINODE) none

variable (sb : Superblock)

def iallocLoop (dev type : ℕ) : ℕ → ℕ → FsM (Option Slot)
  | 0, _ => pure none
  | n + 1, inum => do
    let bp ← bread dev (iblock inum sb)
    let d ← data bp
    if d.load 2 (dinodeOff inum) = 0 then do
      modify bp fun d => (d.fill (dinodeOff inum) 64 0).store 2 (dinodeOff inum) type
      brelease bp
      let ip ← iget dev inum
      pure (some ip)
    else do
      brelease bp
      iallocLoop dev type n (inum + 1)

def ialloc (dev type : ℕ) : FsM (Option Slot) := iallocLoop sb dev type (sb.ninodes - 1) 1

namespace Slot

def update (ip : Slot) : FsM Unit := do
  let i ← inode ip
  let bp ← bread i.dev (iblock i.inum sb)
  modify bp fun d => i.store d (dinodeOff i.inum)
  brelease bp

def dup (ip : Slot) : FsM Slot := do
  modifyInode ip fun i => { i with refcnt := i.refcnt + 1 }
  pure ip

def lock (ip : Slot) : FsM Unit := do
  let i ← inode ip
  if ¬1 ≤ i.refcnt then Prog.fail .refcnt
  else if i.valid then pure ()
  else do
    let bp ← bread i.dev (iblock i.inum sb)
    let d ← data bp
    let i := i.load d (dinodeOff i.inum)
    setInode ip i
    brelease bp
    setInode ip { i with valid := true }
    if i.type = 0 then Prog.fail .noType else pure ()

def unlock (ip : Slot) : FsM Unit := do
  let i ← inode ip
  if ¬1 ≤ i.refcnt then Prog.fail .refcnt else pure ()

/-- `addrs[n]`, with a block allocated if there is none. -/
def direct (ip : Slot) (n : Fin (NDIRECT + 1)) : FsM ℕ := do
  let i ← inode ip
  if i.addrs n = 0 then do
    let addr ← balloc sb i.dev
    if addr = 0 then pure 0
    else do
      modifyInode ip fun i => { i with addrs := Function.update i.addrs n addr }
      pure addr
  else pure (i.addrs n)

/-- The indirect part of `bmap`. -/
def indirect (ip : Slot) (bn : ℕ) : FsM ℕ := do
  let addr ← direct sb ip (Fin.last NDIRECT)
  if addr = 0 then pure 0
  else do
    let i ← inode ip
    let bp ← bread i.dev addr
    let a ← data bp
    if a.load 4 (4 * bn) = 0 then do
      let addr ← balloc sb i.dev
      if addr = 0 then do
        brelease bp
        pure 0
      else do
        modify bp fun a => a.store 4 (4 * bn) addr
        brelease bp
        pure addr
    else do
      brelease bp
      pure (a.load 4 (4 * bn))

def bmap (ip : Slot) (bn : ℕ) : FsM ℕ :=
  if h : bn < NDIRECT then direct sb ip ⟨bn, Nat.lt_succ_of_lt h⟩
  else if bn - NDIRECT < NINDIRECT then indirect sb ip (bn - NDIRECT)
  else Prog.fail .outOfRange

/-- The loop of `trunc` over the direct blocks. -/
def truncDirect (ip : Slot) : List (Fin (NDIRECT + 1)) → FsM Unit
  | [] => pure ()
  | n :: ns => do
    let i ← inode ip
    if i.addrs n = 0 then truncDirect ip ns
    else do
      bfree sb i.dev (i.addrs n)
      modifyInode ip fun i => { i with addrs := Function.update i.addrs n 0 }
      truncDirect ip ns

/-- The loop of `trunc` over the entries of the indirect block. -/
def truncEntries (dev : ℕ) (bp : Key) : ℕ → ℕ → FsM Unit
  | 0, _ => pure ()
  | n + 1, j => do
    let a ← data bp
    if a.load 4 (4 * j) = 0 then truncEntries dev bp n (j + 1)
    else do
      bfree sb dev (a.load 4 (4 * j))
      truncEntries dev bp n (j + 1)

/-- The part of `trunc` about the indirect block. -/
def truncIndirect (ip : Slot) : FsM Unit := do
  let i ← inode ip
  let addr := i.addrs (Fin.last NDIRECT)
  if addr = 0 then pure ()
  else do
    let bp ← bread i.dev addr
    truncEntries sb i.dev bp NINDIRECT 0
    brelease bp
    bfree sb i.dev addr
    modifyInode ip fun i => { i with addrs := Function.update i.addrs (Fin.last NDIRECT) 0 }

def trunc (ip : Slot) : FsM Unit := do
  truncDirect sb ip ((List.finRange NDIRECT).map Fin.castSucc)
  truncIndirect sb ip
  modifyInode ip fun i => { i with size := 0 }
  update sb ip

/-- What `put` does with an inode that has no links and no other references. -/
def free (ip : Slot) : FsM Unit := do
  trunc sb ip
  modifyInode ip fun i => { i with type := 0 }
  update sb ip
  modifyInode ip fun i => { i with valid := false }

def put (ip : Slot) : FsM Unit := do
  let i ← inode ip
  if i.refcnt = 1 ∧ i.valid = true ∧ i.nlink = 0 then do
    free sb ip
    modifyInode ip fun i => { i with refcnt := i.refcnt - 1 }
  else modifyInode ip fun i => { i with refcnt := i.refcnt - 1 }

def unlockput (ip : Slot) : FsM Unit := do
  unlock ip
  put sb ip

/-- The loop of `read`: at most one turn for each byte that is left. -/
def readLoop (ip : Slot) : ℕ → Buffer → ℕ → ℕ → ℕ → FsM (ℕ × Buffer)
  | 0, dst, _, tot, _ => pure (tot, dst)
  | k + 1, dst, off, tot, n =>
    if tot < n then do
      let addr ← bmap sb ip (off / BSIZE)
      if addr = 0 then pure (tot, dst)
      else do
        let i ← inode ip
        let bp ← bread i.dev addr
        let m := min (n - tot) (BSIZE - off % BSIZE)
        let d ← data bp
        let dst ← dst.put tot d (off % BSIZE) m
        brelease bp
        readLoop ip k dst (off + m) (tot + m) n
    else pure (tot, dst)

def read (ip : Slot) (dst : Buffer) (off n : ℕ) : FsM (ℕ × Buffer) := do
  let i ← inode ip
  if off > i.size ∨ (off + n) % 2 ^ 32 < off then pure (0, dst)
  else do
    let n := if off + n > i.size then i.size - off else n
    readLoop sb ip n dst off 0 n

/-- The loop of `write`; it returns the bytes written and the offset after them. -/
def writeLoop (ip : Slot) (src : Buffer) : ℕ → ℕ → ℕ → ℕ → FsM (ℕ × ℕ)
  | 0, off, tot, _ => pure (tot, off)
  | k + 1, off, tot, n =>
    if tot < n then do
      let addr ← bmap sb ip (off / BSIZE)
      if addr = 0 then pure (tot, off)
      else do
        let i ← inode ip
        let bp ← bread i.dev addr
        let m := min (n - tot) (BSIZE - off % BSIZE)
        let bytes ← src.get tot m
        modify bp fun d => d.copy (off % BSIZE) bytes 0 m
        brelease bp
        writeLoop ip src k (off + m) (tot + m) n
    else pure (tot, off)

def write (ip : Slot) (src : Buffer) (off n : ℕ) : FsM ℤ := do
  let i ← inode ip
  if off > i.size ∨ (off + n) % 2 ^ 32 < off then pure (-1)
  else if off + n > MAXFILE * BSIZE then pure (-1)
  else do
    let (tot, off) ← writeLoop sb ip src n off 0 n
    modifyInode ip fun i => { i with size := if off > i.size then off else i.size }
    update sb ip
    pure (tot : ℤ)

end Slot

def Dirent.size : ℕ := 16

/-- `de` before anything is read to it. -/
def Dirent.init : Mem := fun x => if x < 2 then 0 else 0xFF

def Dirent.inum (de : Mem) : ℕ := de.load 2 0

def Dirent.name (de : Mem) : Mem := fun x => de (2 + x)

/-- Compare two strings, of which at most the next `n` characters count. -/
def strncmp (a b : Mem) : ℕ → ℕ → ℤ
  | 0, _ => 0
  | n + 1, x =>
    if a x = 0 ∨ b x = 0 ∨ a x ≠ b x then
      if a x > b x then 1 else if a x < b x then -1 else 0
    else strncmp a b n (x + 1)

def namecmp (s t : Mem) : ℤ := strncmp s t DIRSIZ 0

namespace Slot

/-- Read the directory entry at `off`. -/
def readEntry (ip : Slot) (de : Mem) (off : ℕ) : FsM Mem := do
  let (n, de) ← read sb ip (.kernel de) off Dirent.size
  if n = Dirent.size then pure de.mem else Prog.fail .badEntry

def lookupLoop (ip : Slot) (name : Mem) : ℕ → ℕ → FsM (Option Slot)
  | 0, _ => pure none
  | n + 1, off => do
    let i ← inode ip
    if off < i.size then do
      let de ← readEntry sb ip Dirent.init off
      if Dirent.inum de = 0 then lookupLoop ip name n (off + Dirent.size)
      else if namecmp name (Dirent.name de) = 0 then do
        let next ← iget i.dev (Dirent.inum de)
        pure (some next)
      else lookupLoop ip name n (off + Dirent.size)
    else pure none

def lookup (ip : Slot) (name : Mem) : FsM (Option Slot) := do
  let i ← inode ip
  if i.type = T_DIR then lookupLoop sb ip name (i.size / Dirent.size + 1) 0
  else Prog.fail .notDir

/-- The loop of `link`: the offset of a free entry, and what was read last. -/
def linkLoop (ip : Slot) : ℕ → Mem → ℕ → FsM (Mem × ℕ)
  | 0, de, off => pure (de, off)
  | n + 1, de, off => do
    let i ← inode ip
    if off < i.size then do
      let de ← readEntry sb ip de off
      if Dirent.inum de = 0 then pure (de, off)
      else linkLoop ip n de (off + Dirent.size)
    else pure (de, off)

/-- The name is not copied to the entry, and a name that exists gives up the directory. -/
def link (ip : Slot) (name : Mem) (inum : ℕ) : FsM ℤ := do
  match ← lookup sb ip name with
  | some _ => do
    put sb ip
    pure (-1)
  | none => do
    let i ← inode ip
    let (de, off) ← linkLoop sb ip (i.size / Dirent.size + 1) Dirent.init 0
    let n ← write sb ip (.kernel (de.store 2 0 inum)) off Dirent.size
    if n = Dirent.size then pure 0 else pure (-1)

end Slot
end Multiplix.Fs
