import Multiplix.Lib.ByteMem

/-! What the inodes of a device are for: files under numbers, reached through handles that count
their users. -/
namespace Multiplix.Fs
open Lib

/-- A file: the fields of its inode, and its bytes. -/
@[ext] structure Node where
  type : ℕ
  major : ℕ
  minor : ℕ
  nlink : ℕ
  size : ℕ
  bytes : Mem

namespace Node

/-- No file. -/
def none : Node := ⟨0, 0, 0, 0, 0, fun _ => 0⟩

variable (x : Node)

def write (off : ℕ) (src : Mem) (r : ℕ) : Node :=
  { x with size := max x.size (off + r), bytes := x.bytes.copy off src 0 r }

def trunc : Node := { x with size := 0, bytes := fun _ => 0 }

end Node

@[ext] structure Handle where
  inum : ℕ
  users : ℤ
  /-- whether the fields of the file are at hand -/
  valid : Bool

/-- The files of a device, and the handles. -/
@[ext] structure Nodes (H : Type) where
  node : ℕ → Node
  handle : H → Handle

/-- A step, with what is seen of it: `full` says that no block is free afterwards. -/
inductive Label (H : Type)
  | iget (n : ℕ) (h : H)
  | dup (h : H)
  | lock (h : H)
  | unlock (h : H)
  | bmap (h : H) (bn addr : ℕ) (full : Prop)
  | read (n : ℕ) (h : H) (off len : ℕ) (dst : Mem) (r : ℕ) (full : Prop)
  | write (n : ℕ) (h : H) (off len : ℕ) (src : Mem) (r : ℤ) (full : Prop)
  | trunc (n : ℕ) (h : H)
  | update (h : H)
  | set (n : ℕ) (h : H) (major minor nlink : ℕ)
  | put (h : H)
  | ialloc (type : ℕ) (o : Option H)
  | other

/-- The step may change this file. -/
def Label.Changes {H : Type} (n : ℕ) : Label H → Prop
  | .write m _ _ _ _ _ _ | .trunc m _ | .set m _ _ _ _ => m = n
  | _ => False

namespace Nodes

section Parts

variable {H : Type} [DecidableEq H] (a : Nodes H)

/-- A handle that is in use for this file. -/
def Holds (n : ℕ) (h : H) : Prop := 0 < (a.handle h).users ∧ (a.handle h).inum = n

def setNode (n : ℕ) (x : Node) : Nodes H := { a with node := Function.update a.node n x }

def setHandle (h : H) (x : Handle) : Nodes H := { a with handle := Function.update a.handle h x }

/-- More users, or fewer. -/
def count (h : H) (k : ℤ) : Nodes H :=
  a.setHandle h { a.handle h with users := (a.handle h).users + k }

/-- The last user of a file without links. -/
def Last (n : ℕ) (h : H) : Prop :=
  (a.handle h).inum = n ∧ (a.handle h).users = 1 ∧ (a.handle h).valid = true ∧
    (a.node n).nlink = 0

variable {a} {n : ℕ}

@[simp] theorem count_node (h : H) (k : ℤ) : (a.count h k).node = a.node := rfl

@[simp] theorem setHandle_node (h : H) (x : Handle) : (a.setHandle h x).node = a.node := rfl

omit [DecidableEq H] in
theorem setNode_ne {m : ℕ} (hm : n ≠ m) (x : Node) : (a.setNode m x).node n = a.node n :=
  Function.update_of_ne hm _ _

end Parts

/-- A request that no file with this size grants. -/
def Refused (size max off len : ℕ) : Prop := size < off ∨ 2 ^ 32 ≤ off + len ∨ max < off + len

variable {H : Type} [DecidableEq H]

/-- A handle for a file: one that the file has, or else a new one. -/
inductive Gets (n : ℕ) (h : H) (a : Nodes H) : Nodes H → Prop
  | again : a.Holds n h → Gets n h a (a.count h 1)
  | new : (∀ h', ¬a.Holds n h') → (a.handle h).users = 0 →
      Gets n h a (a.setHandle h ⟨n, 1, false⟩)

variable (ninodes max : ℕ)

/-- What a step does, among this many inodes, to files of at most `max` bytes. -/
inductive Next : Nodes H → Label H → Nodes H → Prop
  | iget {a b : Nodes H} {n : ℕ} {h : H} : Gets n h a b → Next a (.iget n h) b
  | dup {a : Nodes H} {h : H} : Next a (.dup h) (a.count h 1)
  | lock {a : Nodes H} {h : H} : (a.node (a.handle h).inum).type ≠ 0 →
      Next a (.lock h) (a.setHandle h { a.handle h with valid := true })
  | unlock {a : Nodes H} {h : H} : Next a (.unlock h) a
  | bmap {a : Nodes H} {h : H} {bn addr : ℕ} {full : Prop} : (addr = 0 → full) →
      Next a (.bmap h bn addr full) a
  | skip {a : Nodes H} {n : ℕ} {h : H} {off len : ℕ} {dst : Mem} {full : Prop} :
      a.Holds n h → (a.node n).size < off ∨ 2 ^ 32 ≤ off + len →
      Next a (.read n h off len dst 0 full) a
  | read {a : Nodes H} {n : ℕ} {h : H} {off len : ℕ} {dst : Mem} {r : ℕ} {full : Prop} :
      a.Holds n h → off ≤ (a.node n).size → off + len < 2 ^ 32 →
      r ≤ min len ((a.node n).size - off) → (r < min len ((a.node n).size - off) → full) →
      (∀ x < r, dst x = (a.node n).bytes (off + x)) →
      Next a (.read n h off len dst r full) a
  | refuse {a : Nodes H} {n : ℕ} {h : H} {off len : ℕ} {src : Mem} {full : Prop} :
      a.Holds n h → Refused (a.node n).size max off len →
      Next a (.write n h off len src (-1) full) a
  | write {a : Nodes H} {n : ℕ} {h : H} {off len : ℕ} {src : Mem} {r : ℕ} {full : Prop} :
      a.Holds n h → ¬Refused (a.node n).size max off len → r ≤ len → (r < len → full) →
      Next a (.write n h off len src r full)
        (a.setNode n ((a.node n).write off src r))
  | trunc {a : Nodes H} {n : ℕ} {h : H} : a.Holds n h →
      Next a (.trunc n h) (a.setNode n (a.node n).trunc)
  | update {a : Nodes H} {h : H} : Next a (.update h) a
  | set {a : Nodes H} {n : ℕ} {h : H} {major minor nlink : ℕ} : a.Holds n h →
      Next a (.set n h major minor nlink)
        (a.setNode n { a.node n with major := major, minor := minor, nlink := nlink })
  | put {a : Nodes H} {h : H} : (∀ n, ¬a.Last n h) → Next a (.put h) (a.count h (-1))
  | free {a : Nodes H} {n : ℕ} {h : H} : a.Last n h →
      Next a (.put h) ((a.setNode n .none).setHandle h ⟨n, 0, false⟩)
  | none {a : Nodes H} {type : ℕ} : (∀ n, 1 ≤ n → n < ninodes → (a.node n).type ≠ 0) →
      Next a (.ialloc type none) a
  | ialloc {a b : Nodes H} {type n : ℕ} {h : H} : 1 ≤ n → n < ninodes →
      (∀ m, 1 ≤ m → m < n → (a.node m).type ≠ 0) → (a.node n).type = 0 →
      Gets n h (a.setNode n { Node.none with type := type }) b →
      Next a (.ialloc type (some h)) b
  | other {a : Nodes H} : Next a .other a

inductive Run : Nodes H → List (Label H) → Nodes H → Prop
  | nil {a : Nodes H} : Run a [] a
  | cons {a b c : Nodes H} {l : Label H} {ls : List (Label H)} :
      Next ninodes max a l b → Run b ls c →
      Run a (l :: ls) c

variable {ninodes max} {a b : Nodes H} {n : ℕ} {l : Label H} {ls : List (Label H)}

theorem Gets.node {h : H} (hs : Gets n h a b) : b.node = a.node := by
  cases hs with
  | again => rfl
  | new => rfl

/-- A file with links is changed by the steps that are meant to change it only. -/
theorem Next.keeps (hs : Next ninodes max a l b) (htype : (a.node n).type ≠ 0)
    (hlink : (a.node n).nlink ≠ 0) (hl : ¬l.Changes n) : b.node n = a.node n := by
  cases hs with
  | write => exact setNode_ne (Ne.symm hl) _
  | trunc => exact setNode_ne (Ne.symm hl) _
  | set => exact setNode_ne (Ne.symm hl) _
  | free hlast =>
    refine setNode_ne ?_ _
    rintro rfl
    exact hlink hlast.2.2.2
  | iget hget => rw [hget.node]
  | ialloc _ _ _ hfree hget =>
    rw [hget.node]
    refine setNode_ne ?_ _
    rintro rfl
    exact htype hfree
  | _ => rfl

theorem Run.keeps (hr : Run ninodes max a ls b) (htype : (a.node n).type ≠ 0)
    (hlink : (a.node n).nlink ≠ 0) (hls : ∀ l ∈ ls, ¬l.Changes n) : b.node n = a.node n := by
  induction hr with
  | nil => rfl
  | cons hs _ ih =>
    have hkeep := hs.keeps htype hlink (hls _ List.mem_cons_self)
    rw [← hkeep] at htype hlink ⊢
    exact ih htype hlink fun l hl => hls l (List.mem_cons_of_mem _ hl)

end Nodes
end Multiplix.Fs
