import Multiplix.Fs.Inode

/-! Path names. A path is an address in the memory of the calling process. -/
namespace Multiplix.Fs
open Lib

def slash : Byte := 47

/-- The address of the first character that is not a slash. -/
def skipSlashes : ℕ → ℕ → FsM ℕ
  | 0, _ => Prog.fail .fault
  | n + 1, path => do
    let c ← uchar path
    if c = slash then skipSlashes n (path + 1) else pure path

/-- The address of the end of the path element. -/
def skipName : ℕ → ℕ → FsM ℕ
  | 0, _ => Prog.fail .fault
  | n + 1, path => do
    let c ← uchar path
    if c = slash ∨ c = 0 then pure path else skipName n (path + 1)

/-- What is left of the path, and the name buffer with the next element. -/
def skipelem (path : ℕ) (name : Mem) : FsM (Option ℕ × Mem) := do
  let path ← skipSlashes addrSpace path
  let c ← uchar path
  if c = 0 then pure (none, name)
  else do
    let s := path
    let path ← skipName addrSpace path
    let len := path - s
    if len ≥ DIRSIZ then do
      let src ← uload (s % addrSpace) DIRSIZ
      let path ← skipSlashes addrSpace path
      pure (some path, name.copy 0 src 0 DIRSIZ)
    else do
      let src ← uload (s % addrSpace) len
      let path ← skipSlashes addrSpace path
      pure (some path, (name.copy 0 src 0 len).store 1 len 0)

variable (sb : Superblock)

/-- The loop of `namex`. It takes over the reference to `ip`. -/
def namexLoop (nameiparent : Bool) : ℕ → Slot → ℕ → Mem → FsM (Option Slot × Mem)
  | 0, _, _, _ => Prog.fail .fault
  | n + 1, ip, path, name => do
    match ← skipelem path name with
    | (none, name) =>
      if nameiparent then do
        ip.put sb
        pure (none, name)
      else pure (some ip, name)
    | (some path, name) => do
      ip.lock sb
      let i ← inode ip
      if i.type ≠ T_DIR then do
        ip.unlockput sb
        pure (none, name)
      else do
        -- the character is looked at only if the parent is asked for
        let c ← if nameiparent then uchar path else pure 1
        if nameiparent ∧ c = 0 then do
          ip.unlock
          pure (some ip, name)
        else
          match ← ip.lookup sb name with
          | none => do
            ip.unlockput sb
            pure (none, name)
          | some next => do
            ip.unlockput sb
            namexLoop nameiparent n next path name

/-- A relative path starts at `cwd`, whose reference count is left as it is. -/
def namex (cwd : Slot) (path : ℕ) (nameiparent : Bool) (name : Mem) :
    FsM (Option Slot × Mem) := do
  let c ← uchar path
  let ip ← if c = slash then iget ROOTDEV ROOTINO else pure cwd
  namexLoop sb nameiparent addrSpace ip path name

/-- A name buffer before it is written. -/
def nameInit : Mem := fun _ => 0xFF

def namei (cwd : Slot) (path : ℕ) : FsM (Option Slot) := do
  let (ip, _) ← namex sb cwd path false nameInit
  pure ip

def nameiparent (cwd : Slot) (path : ℕ) (name : Mem) : FsM (Option Slot × Mem) :=
  namex sb cwd path true name

end Multiplix.Fs
