import Multiplix.Fs.Create

/-! Open files, and the system calls of `plix.sysfile` that open, close and pass them on. -/
namespace Multiplix.Fs
open Lib

/-- Access through a pointer to an inode. -/
def deref : Option Slot → FsM Slot
  | none => do
    Prog.perform Op.null
    Prog.fail .fault
  | some ip => pure ip

/-- Write an integer of `n` bytes to the memory of the calling process. -/
def ustoreWord (a n v : ℕ) : FsM Unit :=
  Prog.perform (Op.ustore (a % addrSpace) n (Mem.store n (fun _ => 0) 0 v))

variable (sb : Superblock)

/-- `Inode.stat` -/
def Slot.stat (ip : Slot) (st : ℕ) : FsM Unit := do
  let i ← inode ip
  ustoreWord st 4 i.dev
  ustoreWord (st + 4) 4 i.inum
  ustoreWord (st + 8) 2 i.type
  ustoreWord (st + 10) 2 i.nlink
  ustoreWord (st + 16) 8 i.size

def fallocLoop : List FileId → FsM (Option FileId)
  | [] => pure none
  | f :: rest => do
    let x ← file f
    if x.refcnt = 0 then do
      setFile f { x with refcnt := 1 }
      pure (some f)
    else fallocLoop rest

def falloc : FsM (Option FileId) := fallocLoop (List.finRange NFILE)

namespace FileId

def dup (f : FileId) : FsM FileId := do
  let x ← file f
  if ¬1 ≤ x.refcnt then Prog.fail .refcnt
  else do
    setFile f { x with refcnt := x.refcnt + 1 }
    pure f

def close (f : FileId) : FsM Unit := do
  let ff ← file f
  if ¬1 ≤ ff.refcnt then Prog.fail .refcnt
  else do
    setFile f { ff with refcnt := ff.refcnt - 1 }
    if ff.refcnt - 1 > 0 then pure ()
    else do
      setFile f { ff with refcnt := 0, type := .none }
      if ff.type = .inode ∨ ff.type = .device then do
        let ip ← deref ff.ip
        ip.put sb
      else pure ()

def stat (f : FileId) (addr : ℕ) : FsM ℤ := do
  let x ← file f
  if x.type = .inode ∨ x.type = .device then do
    let ip ← deref x.ip
    ip.lock sb
    ip.stat addr
    ip.unlock
    pure 0
  else pure (-1)

end FileId

def Mode.RDONLY : ℕ := 0x000
def Mode.WRONLY : ℕ := 0x001
def Mode.RDWR : ℕ := 0x002
def Mode.CREATE : ℕ := 0x200
def Mode.TRUNC : ℕ := 0x400

def fdallocLoop (p : ℕ) (f : FileId) : List (Fin nofile) → FsM (Option (Fin nofile))
  | [] => pure none
  | fd :: rest => do
    let x ← proc p
    if x.ofile fd = none then do
      setProc p { x with ofile := Function.update x.ofile fd (some f) }
      pure (some fd)
    else fdallocLoop p f rest

def fdalloc (p : ℕ) (f : FileId) : FsM (Option (Fin nofile)) :=
  fdallocLoop p f (List.finRange nofile)

/-- A valid descriptor, and its file. -/
def checkfd (x : Process) (fd : ℤ) : Option (Fin nofile × FileId) :=
  if h : 0 ≤ fd ∧ fd.toNat < nofile then (x.ofile ⟨fd.toNat, h.2⟩).map fun f => (⟨fd.toNat, h.2⟩, f)
  else none

/-- The part of `sys_open` that finds the inode, and locks it. -/
def openInode (cwd : Slot) (path mode : ℕ) : FsM (Option Slot) :=
  if mode &&& Mode.CREATE ≠ 0 then create sb cwd path T_FILE 0 0
  else do
    match ← namei sb cwd path with
    | none => pure none
    | some ip => do
      ip.lock sb
      let i ← inode ip
      if i.type = T_DIR ∧ mode ≠ Mode.RDONLY then do
        ip.unlockput sb
        pure none
      else pure (some ip)

/-- The fields of a file that `sys_open` sets. -/
def File.opened (x : File) (ip : Slot) (i : Inode) (mode : ℕ) : File :=
  let x := if i.type = T_DEVICE then { x with type := .device, major := i.major }
    else { x with type := .inode, off := 0 }
  { x with
    ip := some ip
    readable := mode &&& Mode.WRONLY = 0
    writable := mode &&& Mode.WRONLY ≠ 0 ∨ mode &&& Mode.RDWR ≠ 0 }

/-- The part of `sys_open` after the inode is found. It takes over the reference to `ip`. -/
def openFile (p : ℕ) (ip : Slot) (mode : ℕ) : FsM ℤ := do
  match ← falloc with
  | none => do
    ip.unlockput sb
    pure (-1)
  | some f => do
    match ← fdalloc p f with
    | none => do
      f.close sb
      ip.unlockput sb
      pure (-1)
    | some fd => do
      let i ← inode ip
      modifyFile f fun x => x.opened ip i mode
      if mode &&& Mode.TRUNC ≠ 0 ∧ i.type = T_FILE then ip.trunc sb else pure ()
      ip.unlock
      pure fd.val

def sysOpen (p path mode : ℕ) : FsM ℤ := do
  let x ← proc p
  match ← openInode sb x.cwd path mode with
  | none => pure (-1)
  | some ip => openFile sb p ip mode

def sysClose (p : ℕ) (fd : ℤ) : FsM ℤ := do
  let x ← proc p
  match checkfd x fd with
  | none => pure (-1)
  | some (fd, f) => do
    setProc p { x with ofile := Function.update x.ofile fd none }
    f.close sb
    pure 0

def sysFstat (p : ℕ) (fd : ℤ) (st : ℕ) : FsM ℤ := do
  let x ← proc p
  match checkfd x fd with
  | none => pure (-1)
  | some (_, f) => f.stat sb st

/-- The file gets another descriptor, and keeps its count. -/
def sysDup (p : ℕ) (fd : ℤ) : FsM ℤ := do
  let x ← proc p
  match checkfd x fd with
  | none => pure (-1)
  | some (_, f) => do
    match ← fdalloc p f with
    | none => pure (-1)
    | some nfd => pure nfd.val

def sysChdir (p path : ℕ) : FsM ℤ := do
  let x ← proc p
  match ← namei sb x.cwd path with
  | none => pure (-1)
  | some ip => do
    ip.lock sb
    let i ← inode ip
    if i.type ≠ T_DIR then do
      ip.unlockput sb
      pure (-1)
    else do
      ip.unlock
      x.cwd.put sb
      setProc p { x with cwd := ip }
      pure 0

/-- The files of `Proc.make_empty`: descriptors 0 and 1 are devices without an inode. -/
def makeEmpty : FsM (Fin nofile → Option FileId) := do
  match ← falloc with
  | none => Prog.fail .noFiles
  | some f₀ => do
    match ← falloc with
    | none => Prog.fail .noFiles
    | some f₁ => do
      modifyFile f₀ fun x => { x with type := .device, readable := true }
      modifyFile f₁ fun x => { x with type := .device, writable := true }
      pure fun fd => if fd.val = 0 then some f₀ else if fd.val = 1 then some f₁ else none

/-- The descriptors of a child: those of the parent, where it has any. -/
def dupFiles (ofile : Fin nofile → Option FileId) :
    List (Fin nofile) → (Fin nofile → Option FileId) → FsM (Fin nofile → Option FileId)
  | [], files => pure files
  | fd :: rest, files =>
    match ofile fd with
    | none => dupFiles ofile rest files
    | some f => do
      let f ← f.dup
      dupFiles ofile rest (Function.update files fd (some f))

/-- `Proc.make_from_parent`, for a child whose pages can be mapped or not. A child that cannot be
completed is freed, but not its files. -/
def makeFromParent (p child : ℕ) (mapped : Bool) : FsM Bool := do
  let files ← makeEmpty
  if mapped = false then pure false
  else do
    let x ← proc p
    let files ← dupFiles x.ofile (List.finRange nofile) files
    let cwd ← x.cwd.dup
    setProc child { ofile := files, cwd := cwd, parent := some p, exited := false }
    pure true

/-- `Proc.make_from_elf` for a program that can be loaded. It starts in the directory `/`, a path
without elements. -/
def makeFromElf (p : ℕ) : FsM Unit := do
  let files ← makeEmpty
  let cwd ← iget ROOTDEV ROOTINO
  setProc p { ofile := files, cwd := cwd, parent := none, exited := false }

/-- What processes do. Of the memory that a fork needs, only some may be there: `none` stands for
not even a page for the child, and `mapped` for enough to map the parent's pages. -/
inductive Event
  | open_ (p path mode : ℕ)
  | close (p : ℕ) (fd : ℤ)
  | fstat (p : ℕ) (fd : ℤ) (st : ℕ)
  | dup (p : ℕ) (fd : ℤ)
  | chdir (p path : ℕ)
  | fork (p : ℕ) (child : Option ℕ) (mapped : Bool)
  | exit (p : ℕ)
  | wait (p child : ℕ)

def Event.prog : Event → FsM Unit
  | .open_ p path mode => do
    let _ ← sysOpen sb p path mode
    pure ()
  | .close p fd => do
    let _ ← sysClose sb p fd
    pure ()
  | .fstat p fd st => do
    let _ ← sysFstat sb p fd st
    pure ()
  | .dup p fd => do
    let _ ← sysDup p fd
    pure ()
  | .chdir p path => do
    let _ ← sysChdir sb p path
    pure ()
  | .fork _ none _ => pure ()
  | .fork p (some child) mapped => do
    let _ ← makeFromParent p child mapped
    pure ()
  | .exit p => modifyProc p fun x => { x with exited := true }
  | .wait _ child => freeProc child

end Multiplix.Fs
