import Multiplix.Fs.Effect
import Multiplix.Fs.Transfer

/-! The system calls that read and write files, beside those that open and close them. -/
namespace Multiplix.Fs
open Lib

def Err.fault : ℤ := -14

/-- A read or a write, where `valid` is what `checkaddr` says of the buffer. -/
def sysTransfer (p : ℕ) (fd : ℤ) (sz : ℕ) (valid : Bool) (go : FileId → FsM ℤ) : FsM ℤ :=
  if sz = 0 then pure 0
  else do
    let x ← proc p
    match checkfd x fd with
    | none => pure (-1)
    | some (_, f) => if valid then go f else pure Err.fault

section Calls

variable (sb : Superblock)

def sysRead (p : ℕ) (fd : ℤ) (addr sz : ℕ) (valid : Bool) : FsM ℤ :=
  sysTransfer p fd sz valid fun f => f.read sb addr (BitVec.ofNat 32 sz).toInt

def sysWrite (p : ℕ) (fd : ℤ) (addr sz : ℕ) (valid : Bool) : FsM ℤ :=
  sysTransfer p fd sz valid fun f => f.write sb addr (BitVec.ofNat 32 sz).toInt

/-- What processes do, besides all else that they do with files. -/
inductive Syscall
  | event (e : Event)
  | read (p : ℕ) (fd : ℤ) (addr sz : ℕ) (valid : Bool)
  | write (p : ℕ) (fd : ℤ) (addr sz : ℕ) (valid : Bool)

namespace Syscall

def prog : Syscall → FsM Unit
  | .event e => e.prog sb
  | .read p fd addr sz valid => do
    let _ ← sysRead sb p fd addr sz valid
    pure ()
  | .write p fd addr sz valid => do
    let _ ← sysWrite sb p fd addr sz valid
    pure ()

def Enabled (c : Core) : Syscall → Prop
  | .event e => e.Enabled c
  | .read p _ _ _ _ | .write p _ _ _ _ => c.Runs p

instance (c : Core) (k : Syscall) : Decidable (k.Enabled c) :=
  match k with
  | .event e => inferInstanceAs (Decidable (e.Enabled c))
  | .read p _ _ _ _ | .write p _ _ _ _ => inferInstanceAs (Decidable (c.Runs p))

def opens : Syscall → Bool
  | .event (.open_ _ _ _) => true
  | _ => false

/-- The files that are open since `sys_open` gave them an inode: those before, and what a call of
`sys_open` takes. -/
def opened (k : Syscall) (c c' : Core) (O : Finset FileId) : Finset FileId :=
  Finset.univ.filter fun f =>
    0 < (c'.files f).refcnt ∧ (f ∈ O ∨ k.opens = true ∧ (c.files f).refcnt = 0)

end Syscall

end Calls

/-- Only inodes have changed, and where the files are, but no reference count. -/
structure Core.Alike (c c' : Core) : Prop where
  refs : c'.refs = c.refs
  live : c'.live = c.live
  procs : c'.procs = c.procs
  files : ∀ f, (c'.files f).refcnt = (c.files f).refcnt ∧ (c'.files f).type = (c.files f).type ∧
    (c'.files f).ip = (c.files f).ip

/-- The program only reads and writes files. -/
def Calm {α : Type} (p : FsM α) : Prop := ∀ c, Ends p c fun _ c' => c.Alike c'

section Calm

variable {α β : Type} {p : FsM α} {f : α → FsM β} {sb : Superblock}

theorem Core.Alike.refl (c : Core) : c.Alike c := ⟨rfl, rfl, rfl, fun _ => ⟨rfl, rfl, rfl⟩⟩

theorem Core.Alike.trans {c c' c'' : Core} (h : c.Alike c') (h' : c'.Alike c'') : c.Alike c'' where
  refs := h'.refs.trans h.refs
  live := h'.live.trans h.live
  procs := h'.procs.trans h.procs
  files f := by
    obtain ⟨hr, ht, hi⟩ := h.files f
    obtain ⟨hr', ht', hi'⟩ := h'.files f
    exact ⟨hr'.trans hr, ht'.trans ht, hi'.trans hi⟩

theorem Quiet.calm (h : Quiet ⊥ p) : Calm p := fun c => (h c).mono fun _ c' hm => by
  refine ⟨?_, hm.live, hm.procs, fun f => ?_⟩
  · rw [hm.refs_eq, add_zero]
  · rw [hm.files]
    exact ⟨rfl, rfl, rfl⟩

theorem Calm.pure (a : α) : Calm (pure a : FsM α) := fun c => .refl c

theorem Calm.fail (x : Panic) : Calm (Prog.fail x : FsM α) := fun _ => trivial

theorem Calm.bind (h : Calm p) (hf : ∀ a, Calm (f a)) : Calm (p >>= f) := fun c =>
  Ends.bind (h c) fun a c₁ h₁ => (hf a c₁).mono fun _ _ h₂ => h₁.trans h₂

theorem calm_file (f : FileId) : Calm (file f) := fun c => .refl c

theorem calm_deref (ip : Option Slot) : Calm (deref ip) := by
  cases ip with
  | none => exact fun _ => trivial
  | some ip => exact .pure ip

namespace FileId

variable (f : FileId)

theorem calm_advance (r : ℤ) : Calm (f.advance r) := by
  unfold advance
  split_ifs
  · intro c
    rw [ends_modifyFile]
    refine ⟨rfl, rfl, rfl, fun f' => ?_⟩
    by_cases he : f' = f
    · rw [he, Core.setFile_files, Function.update_self]
      exact ⟨rfl, rfl, rfl⟩
    · rw [Core.setFile_files, Function.update_of_ne he]
      exact ⟨rfl, rfl, rfl⟩
  · exact .pure _

theorem calm_readDevice (addr k i : ℕ) : Calm (readDevice addr k i) := by
  induction k generalizing i with
  | zero => exact .pure _
  | succ k ih =>
    have hrx : Calm rx := fun c _ => .refl c
    have hstore (a : ℕ) (b : Byte) : Calm (Prog.perform (Op.ustore a 1 fun _ => b)) :=
      fun c _ => .refl c
    unfold readDevice
    exact hrx.bind fun b => (hstore _ b).bind fun _ => ih _

theorem calm_readInode (ip : Slot) (addr : ℕ) (n : ℤ) : Calm (f.readInode sb ip addr n) := by
  unfold readInode
  apply (ip.quiet_lock sb).calm.bind
  intro _
  apply (calm_file f).bind
  intro x
  apply (ip.quiet_read sb _ _ _).calm.bind
  intro r
  apply (f.calm_advance _).bind
  intro _
  apply ip.quiet_unlock.calm.bind
  intro _
  exact .pure _

theorem calm_read (addr : ℕ) (n : ℤ) : Calm (f.read sb addr n) := by
  unfold read
  apply (calm_file f).bind
  intro x
  split_ifs
  · exact .pure _
  · cases x.type with
    | pipe => exact .pure _
    | device =>
      apply (calm_readDevice addr _ 0).bind
      intro _
      exact .pure _
    | inode =>
      apply (calm_deref x.ip).bind
      intro ip
      exact f.calm_readInode ip addr n
    | none => exact .fail _

theorem calm_writeInode (ip : Slot) (addr n k i : ℕ) : Calm (f.writeInode sb ip addr n k i) := by
  induction k generalizing i with
  | zero => exact .pure _
  | succ k ih =>
    unfold writeInode
    split_ifs
    · apply (ip.quiet_lock sb).calm.bind
      intro _
      apply (calm_file f).bind
      intro x
      apply (ip.quiet_write sb _ _ _).calm.bind
      intro r
      apply (f.calm_advance _).bind
      intro _
      apply ip.quiet_unlock.calm.bind
      intro _
      split_ifs
      · exact .pure _
      · exact ih _
    · exact .pure _

theorem calm_write (addr : ℕ) (n : ℤ) : Calm (f.write sb addr n) := by
  have htx (n : ℕ) (src : Mem) : Calm (tx n src) := fun c _ => .refl c
  unfold write
  apply (calm_file f).bind
  intro x
  split_ifs
  · exact .pure _
  · cases x.type with
    | pipe => exact .pure _
    | device =>
      apply (quiet_uload _ _).calm.bind
      intro buf
      apply (htx _ buf).bind
      intro _
      exact .pure _
    | inode =>
      apply (calm_deref x.ip).bind
      intro ip
      apply (f.calm_writeInode ip addr _ _ 0).bind
      intro i
      exact .pure _
    | none => exact .fail _

end FileId

theorem calm_sysTransfer {go : FileId → FsM ℤ} (hgo : ∀ f, Calm (go f)) (p : ℕ) (fd : ℤ) (sz : ℕ)
    (valid : Bool) : Calm (sysTransfer p fd sz valid go) := by
  have hproc : Calm (proc p) := fun c => by
    rw [ends_proc]
    exact fun _ => .refl c
  unfold sysTransfer
  by_cases hsz : sz = 0
  · rw [if_pos hsz]
    exact .pure _
  · rw [if_neg hsz]
    apply hproc.bind
    intro x
    cases checkfd x fd with
    | none => exact .pure _
    | some y =>
      cases valid with
      | false => exact .pure _
      | true => exact hgo _

theorem calm_sysRead (sb : Superblock) (p : ℕ) (fd : ℤ) (addr sz : ℕ) (valid : Bool) :
    Calm (sysRead sb p fd addr sz valid) :=
  calm_sysTransfer (fun f => f.calm_read addr _) p fd sz valid

theorem calm_sysWrite (sb : Superblock) (p : ℕ) (fd : ℤ) (addr sz : ℕ) (valid : Bool) :
    Calm (sysWrite sb p fd addr sz valid) :=
  calm_sysTransfer (fun f => f.calm_write addr _) p fd sz valid

end Calm

end Multiplix.Fs
