import Multiplix.Fs.Path

/-! `mkfs`, which makes the image of a file system out of files. `none` stands for an assertion that
fails, and for `die`. The constants of its `fs.h` and `stat.h` that are not here are as in the
kernel. -/
namespace Multiplix.Tools.Mkfs
open Lib
open Fs (BSIZE NDIRECT NINDIRECT MAXFILE IPB DIRSIZ ROOTINO T_DIR T_FILE slash)

def FSMAGIC : ℕ := 0x10203040
def MAXOPBLOCKS : ℕ := 10
def LOGSIZE : ℕ := MAXOPBLOCKS * 3
def FSSIZE : ℕ := 100
def NINODES : ℕ := 200

def nbitmap : ℕ := FSSIZE / (BSIZE * 8) + 1
def ninodeblocks : ℕ := NINODES / IPB + 1
def nlog : ℕ := LOGSIZE
def nmeta : ℕ := 2 + nlog + ninodeblocks + nbitmap
def nblocks : ℕ := FSSIZE - nmeta
def inodestart : ℕ := 2 + nlog
def bmapstart : ℕ := 2 + nlog + ninodeblocks

/-- `sb`, as it lies in memory. -/
def superblock : Mem := Mem.storeWords 4 (fun _ => 0) 0
  [FSMAGIC, FSSIZE, nblocks, NINODES, nlog, 2, inodestart, bmapstart]

/-- `struct dinode` -/
structure Dinode where
  type : ℕ
  major : ℕ
  minor : ℕ
  nlink : ℕ
  size : ℕ
  addrs : Fin (NDIRECT + 1) → ℕ

namespace Dinode

def zero : Dinode := ⟨0, 0, 0, 0, 0, fun _ => 0⟩

def load (d : Mem) (o : ℕ) : Dinode where
  type := d.load 2 o
  major := d.load 2 (o + 2)
  minor := d.load 2 (o + 4)
  nlink := d.load 2 (o + 6)
  size := d.load 4 (o + 8)
  addrs := fun n => d.load 4 (o + 12 + 4 * n)

def store (i : Dinode) (d : Mem) (o : ℕ) : Mem :=
  let d := d.store 2 o i.type
  let d := d.store 2 (o + 2) i.major
  let d := d.store 2 (o + 4) i.minor
  let d := d.store 2 (o + 6) i.nlink
  let d := d.store 4 (o + 8) i.size
  d.storeWords 4 (o + 12) (List.ofFn i.addrs)

end Dinode

/-- The image and the other variables. All sectors of the image exist, and are filled with zeros,
before anything else is done. -/
structure St where
  img : ℕ → Mem
  freeinode : ℕ
  freeblock : ℕ

def IBLOCK (inum : ℕ) : ℕ := inum / IPB + inodestart

/-- Where the inode lies in its sector. -/
def dinodeOff (inum : ℕ) : ℕ := inum % IPB * 64

/-- The bitmap whose first bits are set. -/
def bitmap (used : ℕ) : Mem :=
  (List.range used).foldl
    (fun buf i => Function.update buf (i / 8) (buf (i / 8) ||| 1#8 <<< (i % 8))) fun _ => 0

namespace St

variable (st : St)

/-- Beyond the end of the image nothing can be read. -/
def rsect (sec : ℕ) : Option Mem := if sec < FSSIZE then some (st.img sec) else none

def wsect (sec : ℕ) (buf : Mem) : St :=
  { st with img := Function.update st.img sec ((st.img sec).copy 0 buf 0 BSIZE) }

def winode (inum : ℕ) (ip : Dinode) : Option St := do
  let buf ← st.rsect (IBLOCK inum)
  pure (st.wsect (IBLOCK inum) (ip.store buf (dinodeOff inum)))

def rinode (inum : ℕ) : Option Dinode := do
  let buf ← st.rsect (IBLOCK inum)
  pure (.load buf (dinodeOff inum))

def ialloc (type : ℕ) : Option (St × ℕ) := do
  let inum := st.freeinode
  let st := { st with freeinode := inum + 1 }
  let st ← st.winode inum { Dinode.zero with type := type, nlink := 1, size := 0 }
  pure (st, inum)

def balloc (used : ℕ) : Option St :=
  if used < BSIZE * 8 then some (st.wsect bmapstart (bitmap used)) else none

/-- `din.addrs[n]`, with the next block if there is none. -/
def direct (din : Dinode) (n : Fin (NDIRECT + 1)) : St × Dinode × ℕ :=
  if din.addrs n = 0 then
    ({ st with freeblock := st.freeblock + 1 },
      { din with addrs := Function.update din.addrs n st.freeblock }, st.freeblock)
  else (st, din, din.addrs n)

/-- The block that the part `fbn` of a file is in. -/
def block (din : Dinode) (fbn : ℕ) : Option (St × Dinode × ℕ) :=
  if h : fbn < NDIRECT then some (st.direct din ⟨fbn, Nat.lt_succ_of_lt h⟩)
  else do
    let (st, din, addr) := st.direct din (Fin.last NDIRECT)
    let indirect ← st.rsect addr
    if indirect.load 4 (4 * (fbn - NDIRECT)) = 0 then
      let x := st.freeblock
      let st := { st with freeblock := x + 1 }
      pure (st.wsect addr (indirect.store 4 (4 * (fbn - NDIRECT)) x), din, x)
    else pure (st, din, indirect.load 4 (4 * (fbn - NDIRECT)))

/-- The loop of `iappend`: at most one turn for each of the `n` bytes from `p` on that are left. -/
def iappendLoop (xp : Mem) : ℕ → St → Dinode → ℕ → ℕ → ℕ → Option (St × Dinode × ℕ)
  | 0, st, din, _, off, _ => some (st, din, off)
  | k + 1, st, din, p, off, n =>
    if n > 0 then
      if off / BSIZE < MAXFILE then do
        let (st, din, x) ← st.block din (off / BSIZE)
        let n1 := min n ((off / BSIZE + 1) * BSIZE - off)
        let buf ← st.rsect x
        let st := st.wsect x (buf.copy (off - off / BSIZE * BSIZE) xp p n1)
        iappendLoop xp k st din (p + n1) (off + n1) (n - n1)
      else none
    else some (st, din, off)

def iappend (inum : ℕ) (xp : Mem) (n : ℕ) : Option St := do
  let din ← st.rinode inum
  let (st, din, off) ← iappendLoop xp n st din 0 din.size n
  st.winode inum { din with size := off }

end St

/-- The bytes of a variable. -/
def bytes (l : List Byte) : Mem := fun x => l.getD x 0

/-- A directory entry. The name has been filled with zeros. -/
def dirent (inum : ℕ) (name : List Byte) : Mem :=
  (Mem.store 2 (fun _ => 0) 0 inum).copy 2 (bytes (name.take DIRSIZ)) 0 (name.take DIRSIZ).length

/-- A file on the command line. -/
structure File where
  argv : List Byte
  data : List Byte

/-- Without the leading `user/`. -/
def File.shortname (f : File) : List Byte :=
  if f.argv.take 5 = [117, 115, 101, 114, 47] then f.argv.drop 5 else f.argv

/-- Without a leading `_` either. -/
def File.name (f : File) : List Byte :=
  if f.shortname.head? = some 95 then f.shortname.tail else f.shortname

/-- The loop over the data of a file, which is read a buffer at a time. -/
def appendData (inum : ℕ) : ℕ → St → List Byte → Option St
  | 0, st, _ => some st
  | k + 1, st, data =>
    if data = [] then some st
    else do
      let st ← st.iappend inum (bytes (data.take BSIZE)) (data.take BSIZE).length
      appendData inum k st (data.drop BSIZE)

def direntSize : ℕ := 16

def addFile (rootino : ℕ) (st : St) (f : File) : Option St :=
  if slash ∈ f.shortname then none
  else do
    let (st, inum) ← st.ialloc T_FILE
    let st ← st.iappend rootino (dirent inum f.name) direntSize
    appendData inum f.data.length st f.data

/-- The image that is made of some files. -/
def main (files : List File) : Option (ℕ → Mem) := do
  let st : St := ⟨fun _ _ => 0, 1, nmeta⟩
  let st := st.wsect 1 superblock
  let (st, rootino) ← st.ialloc T_DIR
  if rootino ≠ ROOTINO then none
  else do
    let st ← st.iappend rootino (dirent rootino [46]) direntSize
    let st ← st.iappend rootino (dirent rootino [46, 46]) direntSize
    let st ← files.foldlM (addFile rootino) st
    let din ← st.rinode rootino
    let st ← st.winode rootino { din with size := (din.size / BSIZE + 1) * BSIZE }
    let st ← st.balloc st.freeblock
    pure st.img

end Multiplix.Tools.Mkfs
