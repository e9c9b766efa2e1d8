import Multiplix.Fs.Path

/-! `create` of `plix.sysfile`. -/
namespace Multiplix.Fs
open Lib

/-- `"."` -/
def dot : Mem := fun x => if x = 0 then 46 else 0

/-- `".."` -/
def dotdot : Mem := fun x => if x < 2 then 46 else 0

/-- `link` as far as the name is not there yet. -/
def Slot.linkNew (sb : Superblock) (ip : Slot) (name : Mem) (inum : ℕ) : FsM ℤ := do
  match ← lookup sb ip name with
  | some _ => Prog.fail .badEntry
  | none => do
    let i ← inode ip
    let (de, off) ← linkLoop sb ip (i.size / Dirent.size + 1) Dirent.init 0
    let n ← write sb ip (.kernel (de.store 2 0 inum)) off Dirent.size
    if n = Dirent.size then pure 0 else pure (-1)

variable (sb : Superblock) (link : Slot → Mem → ℕ → FsM ℤ)

/-- The entries of a new directory. -/
def linkDots (dp ip : Slot) (type : ℕ) : FsM Bool :=
  if type = T_DIR then do
    let i ← inode ip
    let r ← link ip dot i.inum
    if r < 0 then pure false
    else do
      let d ← inode dp
      let r ← link ip dotdot d.inum
      pure (decide (¬r < 0))
  else pure true

/-- The entries of a new inode: its own, if it is a directory, and that of its directory. -/
def enterInode (dp ip : Slot) (name : Mem) (type : ℕ) : FsM Bool := do
  if ← linkDots link dp ip type then do
    let i ← inode ip
    let r ← link dp name i.inum
    if r < 0 then pure false
    else if type = T_DIR then do
      modifyInode dp fun d => { d with nlink := (d.nlink + 1) % 2 ^ 16 }
      dp.update sb
      pure true
    else pure true
  else pure false

/-- The part of `create` after the directory is found. It takes over the reference to `dp`. -/
def createIn (dp : Slot) (name : Mem) (type major minor : ℕ) : FsM (Option Slot) := do
  dp.lock sb
  match ← dp.lookup sb name with
  | some ip => do
    dp.unlockput sb
    ip.lock sb
    let i ← inode ip
    if type = T_FILE ∧ (i.type = T_FILE ∨ i.type = T_DEVICE) then pure (some ip)
    else do
      ip.unlockput sb
      pure none
  | none => do
    let d ← inode dp
    match ← ialloc sb d.dev type with
    | none => do
      dp.unlockput sb
      pure none
    | some ip => do
      ip.lock sb
      modifyInode ip fun i => { i with major := major, minor := minor, nlink := 1 }
      ip.update sb
      if ← enterInode sb link dp ip name type then do
        dp.unlockput sb
        pure (some ip)
      else do
        -- `fail`
        modifyInode ip fun i => { i with nlink := 0 }
        ip.update sb
        ip.unlockput sb
        dp.unlockput sb
        pure none

/-- `create`, with what it does for `link`. -/
def createWith (cwd : Slot) (path type major minor : ℕ) : FsM (Option Slot) := do
  match ← nameiparent sb cwd path nameInit with
  | (none, _) => pure none
  | (some dp, name) => createIn sb link dp name type major minor

def create (cwd : Slot) (path type major minor : ℕ) : FsM (Option Slot) :=
  createWith sb (Slot.link sb) cwd path type major minor

end Multiplix.Fs
