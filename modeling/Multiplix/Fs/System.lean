import Mathlib.Data.Fintype.Card
import Mathlib.Tactic.Ring
import Multiplix.Fs.File

/-! The state of the file system in memory, and the runs of processes. The buffer cache, the disk
and the memory of processes are left open: they may answer anything. -/
namespace Multiplix.Fs
open Lib

/-- The table of inodes, the table of open files, and the processes that exist. -/
structure Core where
  inodes : Slot → Inode
  files : FileId → File
  live : Finset ℕ
  procs : ℕ → Process

/-- Before there are processes. -/
def Core.init : Core where
  inodes _ := Inode.init
  files _ := File.init
  live := ∅
  procs _ := ⟨fun _ => none, ⟨0, by decide⟩, none, false⟩

namespace Core

def setFile (c : Core) (f : FileId) (x : File) : Core :=
  { c with files := Function.update c.files f x }

def setProc (c : Core) (p : ℕ) (x : Process) : Core :=
  { c with live := insert p c.live, procs := Function.update c.procs p x }

/-- More references to files. -/
def addRefs (c : Core) (n : FileId → ℕ) : Core :=
  { c with files := fun f => { c.files f with refcnt := (c.files f).refcnt + n f } }

/-- A change of one descriptor. -/
def setFd (c : Core) (p : ℕ) (fd : Fin nofile) (o : Option FileId) : Core :=
  c.setProc p { c.procs p with ofile := Function.update (c.procs p).ofile fd o }

def freeProc (c : Core) (p : ℕ) : Core := { c with live := c.live.erase p }

variable (c : Core) (f : FileId) (x : File) (p : ℕ) (y : Process)

@[simp] theorem setFile_inodes : (c.setFile f x).inodes = c.inodes := rfl

@[simp] theorem setFile_files : (c.setFile f x).files = Function.update c.files f x := rfl

@[simp] theorem setFile_live : (c.setFile f x).live = c.live := rfl

@[simp] theorem setFile_procs : (c.setFile f x).procs = c.procs := rfl

@[simp] theorem setFile_setFile (x' : File) : (c.setFile f x).setFile f x' = c.setFile f x' := by
  unfold setFile
  rw [Function.update_idem]

theorem setFile_self : c.setFile f (c.files f) = c := by
  unfold setFile
  rw [Function.update_eq_self]

theorem addRefs_setFile (n : FileId → ℕ) :
    (c.setFile f { c.files f with refcnt := (c.files f).refcnt + 1 }).addRefs n =
      c.addRefs fun f' => n f' + if f = f' then 1 else 0 := by
  have hfiles (f' : FileId) : ((c.setFile f { c.files f with
      refcnt := (c.files f).refcnt + 1 }).addRefs n).files f' = (c.addRefs fun f' =>
        n f' + if f = f' then 1 else 0).files f' := by
    unfold addRefs setFile
    dsimp only
    by_cases he : f' = f
    · subst he
      simp only [Function.update_self, if_true, Nat.cast_add, Nat.cast_one]
      congr 1
      ring
    · simp only [Function.update_of_ne he, if_neg (Ne.symm he), add_zero]
  exact congrArg (fun x : FileId → File => ({ c with files := x } : Core)) (funext hfiles)

theorem setFile_comm {f f' : FileId} (h : f ≠ f') (x x' : File) :
    (c.setFile f x).setFile f' x' = (c.setFile f' x').setFile f x := by
  unfold setFile
  rw [Function.update_comm h]

theorem setFd_setFile (fd : Fin nofile) (o : Option FileId) :
    (c.setFd p fd o).setFile f x = (c.setFile f x).setFd p fd o := rfl

@[simp] theorem setProc_inodes : (c.setProc p y).inodes = c.inodes := rfl

@[simp] theorem setProc_files : (c.setProc p y).files = c.files := rfl

@[simp] theorem setProc_live : (c.setProc p y).live = insert p c.live := rfl

@[simp] theorem setProc_procs : (c.setProc p y).procs = Function.update c.procs p y := rfl

end Core

def known : Prog.Part Ans Panic Core
  | .inode ip, c => some (.ok (c, c.inodes ip))
  | .setInode ip i, c => some (.ok ({ c with inodes := Function.update c.inodes ip i }, ()))
  | .file f, c => some (.ok (c, c.files f))
  | .setFile f x, c => some (.ok (c.setFile f x, ()))
  | .proc p, c => if p ∈ c.live then some (.ok (c, c.procs p)) else some (.error .fault)
  | .setProc p x, c => some (.ok (c.setProc p x, ()))
  | .freeProc p, c => some (.ok (c.freeProc p, ()))
  | .null, _ => some (.error .fault)
  | _, _ => none

/-- What else the programs work on: the buffer cache and the memory of processes. -/
abbrev Outside (τ : Type) := Prog.Impl Ans Panic τ

abbrev State (τ : Type) := Core × τ

variable {τ : Type} (sb : Superblock) (J : Outside τ)

def exec {α : Type} (p : FsM α) (s : State τ) : Except Panic (State τ × α) :=
  p.exec (known.extend J) s

/-- A process that runs. -/
def Core.Runs (c : Core) (p : ℕ) : Prop := p ∈ c.live ∧ (c.procs p).exited = false

instance (c : Core) (p : ℕ) : Decidable (c.Runs p) :=
  inferInstanceAs (Decidable (p ∈ c.live ∧ (c.procs p).exited = false))

namespace Event

/-- The process that acts. -/
def actor : Event → ℕ
  | .open_ p _ _ | .close p _ | .fstat p _ _ | .dup p _ | .chdir p _ | .fork p _ _ | .exit p
  | .wait p _ => p

/-- A process acts that runs; the memory for a child is not in use; and a child that is waited for
has exited. -/
def Enabled (c : Core) (e : Event) : Prop :=
  c.Runs e.actor ∧
    match e with
    | .fork _ (some child) _ => child ∉ c.live
    | .wait p z => z ∈ c.live ∧ (c.procs z).exited = true ∧ (c.procs z).parent = some p
    | _ => True

instance (c : Core) (e : Event) : Decidable (e.Enabled c) :=
  match e with
  | .fork p (some child) _ => inferInstanceAs (Decidable (c.Runs p ∧ child ∉ c.live))
  | .wait p z => inferInstanceAs (Decidable (c.Runs p ∧
      z ∈ c.live ∧ (c.procs z).exited = true ∧ (c.procs z).parent = some p))
  | .fork p none _ | .open_ p _ _ | .close p _ | .fstat p _ _ | .dup p _ | .chdir p _ | .exit p =>
    inferInstanceAs (Decidable (c.Runs p ∧ True))

end Event

/-- An outside that answers with zeros. -/
def silent : Outside Unit
  | .data _, t => .ok (t, fun _ => 0)
  | .uload _ _, t => .ok (t, fun _ => 0)
  | .rx, t => .ok (t, 0)
  | .bread _, t | .setData _ _, t | .brelease _, t | .ustore _ _ _, t | .tx _ _, t => .ok (t, ())
  | _, _ => .error .fault

/-- Runs all of whose steps are as `ok` says, from the creation of the first process on. A run ends
where the kernel stops at an assertion or a bad access. -/
inductive Reachable (ok : State τ → Event → Prop) : State τ → Prop
  | boot {t : τ} {p : ℕ} {s : State τ} : exec J (makeFromElf p) (Core.init, t) = .ok (s, ()) →
      Reachable ok s
  | step {s s' : State τ} {e : Event} : Reachable ok s → e.Enabled s.1 → ok s e →
      exec J (e.prog sb) s = .ok (s', ()) → Reachable ok s'

/-- The state after some events, if all of them can happen. -/
def runFrom : List Event → State τ → Option (State τ)
  | [], s => some s
  | e :: es, s =>
    if e.Enabled s.1 then
      match exec J (e.prog sb) s with
      | .ok (s, _) => runFrom es s
      | .error _ => none
    else none

/-- The state after the first process is made, and some events. -/
def run (p : ℕ) (es : List Event) (t : τ) : Option (State τ) :=
  match exec J (makeFromElf p) (Core.init, t) with
  | .ok (s, _) => runFrom sb J es s
  | .error _ => none

theorem reachable_runFrom {es : List Event} {s s' : State τ}
    (hr : Reachable sb J (fun _ _ => True) s) (h : runFrom sb J es s = some s') :
    Reachable sb J (fun _ _ => True) s' := by
  induction es generalizing s with
  | nil =>
    cases h
    exact hr
  | cons e es ih =>
    unfold runFrom at h
    split_ifs at h with hen
    rcases he : exec J (e.prog sb) s with x | ⟨s₁, u⟩ <;> rw [he] at h
    · cases h
    · exact ih (.step hr hen trivial he) h

theorem reachable_run {p : ℕ} {es : List Event} {t : τ} {s : State τ}
    (h : run sb J p es t = some s) : Reachable sb J (fun _ _ => True) s := by
  unfold run at h
  rcases he : exec J (makeFromElf p) (Core.init, t) with x | ⟨s₁, u⟩ <;> rw [he] at h
  · cases h
  · exact reachable_runFrom sb J (.boot he) h

/-- What a call stops the kernel with. -/
def stop {α : Type} : Except Panic α → Option Panic
  | .error x => some x
  | .ok _ => none

theorem eq_error_of_stop {α : Type} {x : Except Panic α} {e : Panic} (h : stop x = some e) :
    x = .error e := by
  cases x with
  | error e' =>
    cases h
    rfl
  | ok a => cases h

/-- Whatever the outside answers, the program ends as `Q` says. -/
abbrev Ends {α : Type} (p : FsM α) (c : Core) (Q : α → Core → Prop) : Prop :=
  Prog.Surely known p c Q

section Ends

variable {c : Core} {α β : Type}

theorem ends_bind (p : FsM α) (f : α → FsM β) (Q : β → Core → Prop) :
    Ends (p >>= f) c Q ↔ Ends p c fun a c => Ends (f a) c Q := Prog.surely_bind

theorem Ends.bind {p : FsM α} {f : α → FsM β} {Q : α → Core → Prop} {R : β → Core → Prop}
    (h : Ends p c Q) (hf : ∀ a c', Q a c' → Ends (f a) c' R) : Ends (p >>= f) c R :=
  Prog.Surely.bind h hf

theorem Ends.mono {p : FsM α} {Q R : α → Core → Prop} (h : Ends p c Q)
    (hQ : ∀ a c', Q a c' → R a c') : Ends p c R := Prog.Surely.mono h hQ

theorem Ends.wp {τ : Type} {J : Outside τ} {p : FsM α} {Q : α → Core → Prop} {s : State τ}
    (h : Ends p s.1 Q) : Prog.Wp (known.extend J) (fun _ => True) p s fun a s' => Q a s'.1 :=
  Prog.Surely.wp h

theorem ends_pure (a : α) (Q : α → Core → Prop) : Ends (pure a) c Q ↔ Q a c := Iff.rfl

@[simp] theorem ends_inode (ip : Slot) (Q : Inode → Core → Prop) :
    Ends (inode ip) c Q ↔ Q (c.inodes ip) c := Iff.rfl

@[simp] theorem ends_setInode (ip : Slot) (i : Inode) (Q : Unit → Core → Prop) :
    Ends (setInode ip i) c Q ↔ Q () { c with inodes := Function.update c.inodes ip i } := Iff.rfl

@[simp] theorem ends_modifyInode (ip : Slot) (f : Inode → Inode) (Q : Unit → Core → Prop) :
    Ends (modifyInode ip f) c Q ↔
      Q () { c with inodes := Function.update c.inodes ip (f (c.inodes ip)) } := Iff.rfl

@[simp] theorem ends_file (f : FileId) (Q : File → Core → Prop) :
    Ends (file f) c Q ↔ Q (c.files f) c := Iff.rfl

@[simp] theorem ends_setFile (f : FileId) (x : File) (Q : Unit → Core → Prop) :
    Ends (setFile f x) c Q ↔ Q () (c.setFile f x) := Iff.rfl

@[simp] theorem ends_modifyFile (f : FileId) (g : File → File) (Q : Unit → Core → Prop) :
    Ends (modifyFile f g) c Q ↔ Q () (c.setFile f (g (c.files f))) := Iff.rfl

@[simp] theorem ends_proc (p : ℕ) (Q : Process → Core → Prop) :
    Ends (proc p) c Q ↔ (p ∈ c.live → Q (c.procs p) c) := by
  have hknown : known (.proc p) c =
    if p ∈ c.live then some (.ok (c, c.procs p)) else some (.error .fault) := rfl
  unfold Ends proc Prog.perform Prog.Surely
  rw [hknown]
  split_ifs with hp
  · exact ⟨fun h _ => h, fun h => h hp⟩
  · exact ⟨fun _ h => absurd h hp, fun _ => trivial⟩

@[simp] theorem ends_setProc (p : ℕ) (x : Process) (Q : Unit → Core → Prop) :
    Ends (setProc p x) c Q ↔ Q () (c.setProc p x) := Iff.rfl

@[simp] theorem ends_freeProc (p : ℕ) (Q : Unit → Core → Prop) :
    Ends (freeProc p) c Q ↔ Q () (c.freeProc p) := Iff.rfl

@[simp] theorem ends_bread (dev b : ℕ) (Q : Key → Core → Prop) :
    Ends (bread dev b) c Q ↔ Q (dev, b) c := ⟨fun h => h (), fun h _ => h⟩

@[simp] theorem ends_brelease (b : Key) (Q : Unit → Core → Prop) :
    Ends (brelease b) c Q ↔ Q () c := ⟨fun h => h (), fun h _ => h⟩

@[simp] theorem ends_data (b : Key) (Q : Mem → Core → Prop) :
    Ends (data b) c Q ↔ ∀ d, Q d c := Iff.rfl

end Ends

end Multiplix.Fs
