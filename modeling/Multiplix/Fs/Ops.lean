import Mathlib.Data.List.FinRange
import Multiplix.Lib.ByteMem
import Multiplix.Lib.Prog

/-! What the code of `plix.fs` works on. Its functions are programs over the operations below:
the calls of the buffer cache, the in-memory inodes, the open files with the processes that name
them, and the memory of the calling process. -/
namespace Multiplix.Fs
open Lib

def BSIZE : ℕ := 1024
def NDIRECT : ℕ := 12
def NINDIRECT : ℕ := BSIZE / 4
def MAXFILE : ℕ := NDIRECT + NINDIRECT
def BPB : ℕ := BSIZE * 8
def ROOTINO : ℕ := 1
def ROOTDEV : ℕ := 1
def NINODE : ℕ := 50
def DIRSIZ : ℕ := 14
def T_DIR : ℕ := 1
def T_FILE : ℕ := 2
def T_DEVICE : ℕ := 3

/-- Max number of open files. -/
def NFILE : ℕ := 128

/-- Max number of open files per process. -/
def nofile : ℕ := 16

/-- The number of addresses: a loop over a string has faulted before it has seen all of them. -/
def addrSpace : ℕ := 2 ^ 64

/-- The fields of the superblock that are used once the file system is mounted. -/
structure Superblock where
  size : ℕ
  nblocks : ℕ
  ninodes : ℕ
  inodestart : ℕ
  bmapstart : ℕ

/-- A pointer to an in-memory inode. -/
abbrev Slot := Fin NINODE

/-- The in-memory inode. Integers of type `short` are kept as 16-bit patterns. -/
@[ext] structure Inode where
  dev : ℕ
  inum : ℕ
  refcnt : ℤ
  valid : Bool
  type : ℕ
  major : ℕ
  minor : ℕ
  nlink : ℕ
  size : ℕ
  addrs : Fin (NDIRECT + 1) → ℕ

/-- The inodes of the table before they are used. -/
def Inode.init : Inode where
  dev := 0
  inum := 0
  refcnt := 0
  valid := false
  type := 0
  major := 0
  minor := 0
  nlink := 0
  size := 0
  addrs := fun _ => 0

inductive Ft
  | none
  | pipe
  | inode
  | device
  deriving DecidableEq

/-- An open file. Pipes are never opened, so that the pointer to one is left out. -/
@[ext] structure File where
  type : Ft
  refcnt : ℤ
  readable : Bool
  writable : Bool
  ip : Option Slot
  off : ℕ
  major : ℕ

/-- The files of the table before they are used. -/
def File.init : File where
  type := .none
  refcnt := 0
  readable := false
  writable := false
  ip := none
  off := 0
  major := 0

/-- A pointer to an open file. -/
abbrev FileId := Fin NFILE

/-- What the files need of a process, and what becomes of it at its end. -/
@[ext] structure Process where
  ofile : Fin nofile → Option FileId
  cwd : Slot
  parent : Option ℕ
  exited : Bool

/-- The assertions of the code, and what an access through a bad pointer comes to. -/
inductive Panic
  | noBuffers
  | freeingFree
  | refcnt
  | noType
  | notDir
  | outOfRange
  | badEntry
  | noInodes
  | noFiles
  | fault
  deriving DecidableEq

/-- A buffer is named by its device and block number while it is held. -/
abbrev Key := ℕ × ℕ

inductive Op
  | bread (b : Key)
  | data (b : Key)
  | setData (b : Key) (d : Mem)
  | brelease (b : Key)
  | inode (ip : Slot)
  | setInode (ip : Slot) (i : Inode)
  | file (f : FileId)
  | setFile (f : FileId) (x : File)
  | proc (p : ℕ)
  | setProc (p : ℕ) (x : Process)
  | freeProc (p : ℕ)
  /-- Read bytes of the calling process. -/
  | uload (a n : ℕ)
  /-- Write the first bytes of a memory to those of the calling process. -/
  | ustore (a n : ℕ) (src : Mem)
  /-- Receive a byte from the serial port. -/
  | rx
  /-- Send bytes to the serial port. -/
  | tx (n : ℕ) (src : Mem)
  /-- Access through a null pointer. -/
  | null

abbrev Ans : Op → Type
  | .data _ => Mem
  | .inode _ => Inode
  | .file _ => File
  | .proc _ => Process
  | .uload _ _ => Mem
  | .rx => Byte
  | _ => Unit

abbrev FsM := Prog Ans Panic

def bread (dev blocknum : ℕ) : FsM Key := do
  Prog.perform (Op.bread (dev, blocknum))
  pure (dev, blocknum)

def data (b : Key) : FsM Mem := Prog.perform (Op.data b)

def setData (b : Key) (d : Mem) : FsM Unit := Prog.perform (Op.setData b d)

def brelease (b : Key) : FsM Unit := Prog.perform (Op.brelease b)

/-- Change the data of a buffer that is held. -/
def modify (b : Key) (f : Mem → Mem) : FsM Unit := do
  let d ← data b
  setData b (f d)

def inode (ip : Slot) : FsM Inode := Prog.perform (Op.inode ip)

def setInode (ip : Slot) (i : Inode) : FsM Unit := Prog.perform (Op.setInode ip i)

/-- Change fields of an in-memory inode. -/
def modifyInode (ip : Slot) (f : Inode → Inode) : FsM Unit := do
  let i ← inode ip
  setInode ip (f i)

def file (f : FileId) : FsM File := Prog.perform (Op.file f)

def setFile (f : FileId) (x : File) : FsM Unit := Prog.perform (Op.setFile f x)

/-- Change fields of an open file. -/
def modifyFile (f : FileId) (g : File → File) : FsM Unit := do
  let x ← file f
  setFile f (g x)

def proc (p : ℕ) : FsM Process := Prog.perform (Op.proc p)

def setProc (p : ℕ) (x : Process) : FsM Unit := Prog.perform (Op.setProc p x)

def modifyProc (p : ℕ) (g : Process → Process) : FsM Unit := do
  let x ← proc p
  setProc p (g x)

def freeProc (p : ℕ) : FsM Unit := Prog.perform (Op.freeProc p)

def uload (a n : ℕ) : FsM Mem := Prog.perform (Op.uload a n)

/-- Read a character through a pointer. -/
def uchar (a : ℕ) : FsM Byte := do
  let m ← uload (a % addrSpace) 1
  pure (m 0)

/-- The other side of a copy: the memory of the calling process, or a variable of the kernel. -/
inductive Buffer
  | user (addr : ℕ)
  | kernel (m : Mem)

/-- `memmove` of `n` bytes to the buffer, from `src + off` to the offset `o` of the buffer. -/
def Buffer.put : Buffer → ℕ → Mem → ℕ → ℕ → FsM Buffer
  | user addr, o, src, off, n => do
    Prog.perform (Op.ustore ((addr + o) % addrSpace) n fun x => src (off + x))
    pure (user addr)
  | kernel m, o, src, off, n => pure (kernel (m.copy o src off n))

/-- The `n` bytes of the buffer from an offset on. -/
def Buffer.get : Buffer → ℕ → ℕ → FsM Mem
  | user addr, off, n => uload ((addr + off) % addrSpace) n
  | kernel m, off, _ => pure fun x => m (off + x)

def Buffer.mem : Buffer → Mem
  | user _ => fun _ => 0
  | kernel m => m

end Multiplix.Fs
