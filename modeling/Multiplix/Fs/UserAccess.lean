import Multiplix.Fs.Calls
import Multiplix.Lib.Footprint

/-! What the file system does with the memory of the calling process. Only copies to and from the
buffers of a call, and the steps along a path, use that memory. -/
namespace Multiplix.Fs
open Lib

namespace Op

/-- The operation does not use the memory of the process. -/
def Silent : Op → Prop
  | .uload _ _ | .ustore _ _ _ => False
  | _ => True

/-- Bytes of the process are read where `W` says, and none are written. -/
def Loads (W : ℕ → Prop) : Op → Prop
  | .uload a n => ∀ i < n, W ((a + i) % addrSpace)
  | .ustore _ _ _ => False
  | _ => True

/-- Bytes of the process are written where `W` says, and none are read. -/
def Stores (W : ℕ → Prop) : Op → Prop
  | .uload _ _ => False
  | .ustore a n _ => ∀ i < n, W ((a + i) % addrSpace)
  | _ => True

theorem Silent.loads {o : Op} (h : o.Silent) (W : ℕ → Prop) : o.Loads W := by
  cases o with
  | uload | ustore => exact h.elim
  | _ => trivial

theorem Silent.stores {o : Op} (h : o.Silent) (W : ℕ → Prop) : o.Stores W := by
  cases o with
  | uload | ustore => exact h.elim
  | _ => trivial

variable {W W' : ℕ → Prop} {o : Op}

theorem Stores.mono (h : o.Stores W) (hW : ∀ a, W a → W' a) : o.Stores W' := by
  cases o with
  | ustore a n m => exact fun i hi => hW _ (h i hi)
  | uload => exact h.elim
  | _ => trivial

theorem Loads.mono (h : o.Loads W) (hW : ∀ a, W a → W' a) : o.Loads W' := by
  cases o with
  | uload a n => exact fun i hi => hW _ (h i hi)
  | ustore => exact h.elim
  | _ => trivial

end Op

/-- The program leaves the memory of the process alone, whatever the other operations answer. -/
def Aside {α : Type} (p : FsM α) : Prop :=
  ∀ c, Prog.Touches known Op.Silent (fun _ _ => True) p c fun _ _ => True

section Rules

variable {α β : Type} {p : FsM α} {f : α → FsM β} {c : Core} {ok : Op → Prop}
  {ans : (o : Op) → Ans o → Prop} {Q : β → Core → Prop}

theorem Aside.pure (a : α) : Aside (pure a : FsM α) := fun _ => trivial

theorem Aside.fail (x : Panic) : Aside (Prog.fail x : FsM α) := fun _ => trivial

theorem Aside.bind (h : Aside p) (hf : ∀ a, Aside (f a)) : Aside (p >>= f) := fun c =>
  Prog.Touches.bind (h c) fun a c' _ => hf a c'

theorem Aside.touches (h : Aside p) (hok : ∀ o : Op, o.Silent → ok o) :
    Prog.Touches known ok ans p c fun _ _ => True := (h c).weaken hok fun _ _ _ _ => trivial

/-- Before a program that uses the memory of the process. -/
theorem Aside.then (h : Aside p) (hok : ∀ o : Op, o.Silent → ok o)
    (hf : ∀ a c', Prog.Touches known ok ans (f a) c' Q) :
    Prog.Touches known ok ans (p >>= f) c Q := (h.touches hok).bind fun a c' _ => hf a c'

theorem aside_perform {o : Op} (h : o.Silent) : Aside (Prog.perform o : FsM (Ans o)) := fun c => by
  unfold Prog.perform Prog.Touches
  refine ⟨h, ?_⟩
  rcases known o c with _ | _ | ⟨c', r⟩
  · exact fun _ _ => trivial
  · trivial
  · trivial

end Rules

/-! ### Operations on other things -/

section Operations

theorem aside_bread (dev b : ℕ) : Aside (bread dev b) :=
  (aside_perform (o := Op.bread (dev, b)) trivial).bind fun _ => .pure _

theorem aside_data (b : Key) : Aside (data b) := aside_perform trivial

theorem aside_modify (b : Key) (f : Mem → Mem) : Aside (modify b f) :=
  (aside_data b).bind fun _ => aside_perform trivial

theorem aside_brelease (b : Key) : Aside (brelease b) := aside_perform trivial

theorem aside_inode (ip : Slot) : Aside (inode ip) := aside_perform trivial

theorem aside_setInode (ip : Slot) (i : Inode) : Aside (setInode ip i) :=
  aside_perform trivial

theorem aside_modifyInode (ip : Slot) (f : Inode → Inode) : Aside (modifyInode ip f) :=
  (aside_inode ip).bind fun _ => aside_setInode _ _

theorem aside_file (f : FileId) : Aside (file f) := aside_perform trivial

theorem aside_setFile (f : FileId) (x : File) : Aside (setFile f x) :=
  aside_perform trivial

theorem aside_modifyFile (f : FileId) (h : File → File) : Aside (modifyFile f h) :=
  (aside_file f).bind fun _ => aside_setFile _ _

theorem aside_proc (p : ℕ) : Aside (proc p) := aside_perform trivial

theorem aside_setProc (p : ℕ) (x : Process) : Aside (setProc p x) :=
  aside_perform trivial

theorem aside_deref (o : Option Slot) : Aside (deref o) := by
  cases o with
  | none => exact (aside_perform (o := Op.null) trivial).bind fun _ => .fail _
  | some ip => exact .pure _

end Operations

variable (sb : Superblock)

/-! ### Blocks -/

theorem aside_bzero (dev b : ℕ) : Aside (bzero dev b) := by
  apply (aside_bread _ _).bind
  intro bp
  apply (aside_modify bp _).bind
  intro _
  exact aside_brelease bp

theorem aside_ballocLoop (dev n b : ℕ) : Aside (ballocLoop sb dev n b) := by
  induction n generalizing b with
  | zero => exact .pure _
  | succ n ih =>
    apply (aside_bread _ _).bind
    intro bp
    apply (aside_data bp).bind
    intro d
    cases findClear d (min BPB (sb.size - b)) 0 with
    | none =>
      apply (aside_brelease bp).bind
      intro _
      exact ih _
    | some bi =>
      apply (aside_modify bp _).bind
      intro _
      apply (aside_brelease bp).bind
      intro _
      exact (aside_bzero _ _).bind fun _ => .pure _

theorem aside_balloc (dev : ℕ) : Aside (balloc sb dev) := aside_ballocLoop sb dev _ 0

theorem aside_bfree (dev b : ℕ) : Aside (bfree sb dev b) := by
  apply (aside_bread _ _).bind
  intro bp
  apply (aside_data bp).bind
  intro d
  split_ifs
  · exact .fail _
  · apply (aside_modify bp _).bind
    intro _
    exact aside_brelease bp

/-! ### Inodes -/

theorem aside_igetLoop (dev inum : ℕ) (ips : List Slot) (empty : Option Slot) :
    Aside (Slot.igetLoop dev inum ips empty) := by
  induction ips generalizing empty with
  | nil =>
    cases empty with
    | none => exact .fail _
    | some ip => exact (aside_modifyInode ip _).bind fun _ => .pure _
  | cons ip ips ih =>
    apply (aside_inode ip).bind
    intro i
    split_ifs
    · exact (aside_setInode ip _).bind fun _ => .pure _
    · exact ih _
    · exact ih _

theorem aside_iget (dev inum : ℕ) : Aside (iget dev inum) :=
  aside_igetLoop dev inum _ none

theorem aside_ialloc (dev type : ℕ) : Aside (ialloc sb dev type) := by
  have hloop (n inum : ℕ) : Aside (iallocLoop sb dev type n inum) := by
    induction n generalizing inum with
    | zero => exact .pure _
    | succ n ih =>
      apply (aside_bread _ _).bind
      intro bp
      apply (aside_data bp).bind
      intro d
      split_ifs
      · apply (aside_modify bp _).bind
        intro _
        apply (aside_brelease bp).bind
        intro _
        exact (aside_iget _ _).bind fun _ => .pure _
      · apply (aside_brelease bp).bind
        intro _
        exact ih _
  exact hloop _ _

namespace Slot

variable (ip : Slot)

theorem aside_update : Aside (ip.update sb) := by
  apply (aside_inode ip).bind
  intro i
  apply (aside_bread _ _).bind
  intro bp
  apply (aside_modify bp _).bind
  intro _
  exact aside_brelease bp

theorem aside_lock : Aside (ip.lock sb) := by
  apply (aside_inode ip).bind
  intro i
  split_ifs
  · exact .pure _
  · apply (aside_bread _ _).bind
    intro bp
    apply (aside_data bp).bind
    intro d
    apply (aside_setInode ip _).bind
    intro _
    apply (aside_brelease bp).bind
    intro _
    apply (aside_setInode ip _).bind
    intro _
    split_ifs
    · exact .fail _
    · exact .pure _
  · exact .fail _

theorem aside_unlock : Aside ip.unlock := by
  apply (aside_inode ip).bind
  intro i
  split_ifs
  · exact .pure _
  · exact .fail _

theorem aside_direct (n : Fin (NDIRECT + 1)) : Aside (ip.direct sb n) := by
  apply (aside_inode ip).bind
  intro i
  split_ifs
  · apply (aside_balloc sb _).bind
    intro addr
    split_ifs
    · exact .pure _
    · exact (aside_modifyInode ip _).bind fun _ => .pure _
  · exact .pure _

theorem aside_indirect (bn : ℕ) : Aside (ip.indirect sb bn) := by
  apply (aside_direct sb ip _).bind
  intro addr
  split_ifs
  · exact .pure _
  · apply (aside_inode ip).bind
    intro i
    apply (aside_bread _ _).bind
    intro bp
    apply (aside_data bp).bind
    intro a
    split_ifs
    · apply (aside_balloc sb _).bind
      intro addr
      split_ifs
      · exact (aside_brelease bp).bind fun _ => .pure _
      · apply (aside_modify bp _).bind
        intro _
        exact (aside_brelease bp).bind fun _ => .pure _
    · exact (aside_brelease bp).bind fun _ => .pure _

theorem aside_bmap (bn : ℕ) : Aside (ip.bmap sb bn) := by
  unfold bmap
  split_ifs
  · exact aside_direct sb ip _
  · exact aside_indirect sb ip _
  · exact .fail _

theorem aside_truncDirect (ns : List (Fin (NDIRECT + 1))) : Aside (ip.truncDirect sb ns) := by
  induction ns with
  | nil => exact .pure _
  | cons n ns ih =>
    apply (aside_inode ip).bind
    intro i
    split_ifs
    · exact ih
    · apply (aside_bfree sb _ _).bind
      intro _
      exact (aside_modifyInode ip _).bind fun _ => ih

theorem aside_truncEntries (dev : ℕ) (bp : Key) (n j : ℕ) :
    Aside (truncEntries sb dev bp n j) := by
  induction n generalizing j with
  | zero => exact .pure _
  | succ n ih =>
    apply (aside_data bp).bind
    intro a
    split_ifs
    · exact ih _
    · exact (aside_bfree sb _ _).bind fun _ => ih _

theorem aside_trunc : Aside (ip.trunc sb) := by
  apply (aside_truncDirect sb ip _).bind
  intro _
  apply Aside.bind
  · apply (aside_inode ip).bind
    intro i
    dsimp only
    split_ifs
    · exact .pure _
    · apply (aside_bread _ _).bind
      intro bp
      apply (aside_truncEntries sb _ bp _ _).bind
      intro _
      apply (aside_brelease bp).bind
      intro _
      exact (aside_bfree sb _ _).bind fun _ => aside_modifyInode ip _
  · intro _
    exact (aside_modifyInode ip _).bind fun _ => aside_update sb ip

theorem aside_put : Aside (ip.put sb) := by
  apply (aside_inode ip).bind
  intro i
  split_ifs
  · apply Aside.bind
    · apply (aside_trunc sb ip).bind
      intro _
      apply (aside_modifyInode ip _).bind
      intro _
      exact (aside_update sb ip).bind fun _ => aside_modifyInode ip _
    · exact fun _ => aside_modifyInode ip _
  · exact aside_modifyInode ip _

theorem aside_unlockput : Aside (ip.unlockput sb) :=
  (aside_unlock ip).bind fun _ => aside_put sb ip

end Slot

/-! ### Copies -/

variable {sb} {W : ℕ → Prop} {c : Core}

/-- The first `n` bytes of the buffer are as `W` says, if they are the user's. -/
def Buffer.Fits (W : ℕ → Prop) (n : ℕ) : Buffer → Prop
  | .user addr => ∀ i < n, W ((addr + i) % addrSpace)
  | .kernel _ => True

namespace Buffer

variable {n : ℕ}

theorem Fits.put {dst : Buffer} (h : dst.Fits W n) {o m : ℕ} (hm : o + m ≤ n) (src : Mem)
    (off : ℕ) : Prog.Touches known (Op.Stores W) (fun _ _ => True) (dst.put o src off m) c
      fun dst' _ => dst'.Fits W n := by
  cases dst with
  | user addr =>
    have hin : ∀ i < m, W (((addr + o) % addrSpace + i) % addrSpace) := fun i hi => by
      rw [Nat.mod_add_mod, Nat.add_assoc]
      exact h (o + i) (by omega)
    exact ⟨hin, fun _ _ => h⟩
  | kernel k => exact trivial

theorem Fits.get {src : Buffer} (h : src.Fits W n) {o m : ℕ} (hm : o + m ≤ n) :
    Prog.Touches known (Op.Loads W) (fun _ _ => True) (src.get o m) c fun _ _ => True := by
  cases src with
  | user addr =>
    have hin : ∀ i < m, W (((addr + o) % addrSpace + i) % addrSpace) := fun i hi => by
      rw [Nat.mod_add_mod, Nat.add_assoc]
      exact h (o + i) (by omega)
    exact ⟨hin, fun _ _ => trivial⟩
  | kernel k => exact trivial

end Buffer

/-- How many bytes a read of `n` can find. -/
def Inode.left (i : Inode) (off n : ℕ) : ℕ :=
  if off > i.size ∨ (off + n) % 2 ^ 32 < off then 0
  else if off + n > i.size then i.size - off else n

namespace Slot

variable {ip : Slot}

section Read

variable {ok : Op → Prop} (hok : ∀ o : Op, o.Silent → ok o) {B : Buffer → Prop} {n : ℕ}
  (hput : ∀ dst o m src off c, B dst → o + m ≤ min n (MAXFILE * BSIZE) →
    Prog.Touches known ok (fun _ _ => True) (dst.put o src off m) c fun dst' _ => B dst')

/-- `bmap` ends within a file only. -/
theorem bmap_touches {bn : ℕ} (hok : ∀ o : Op, o.Silent → ok o) :
    Prog.Touches known ok (fun _ _ => True) (ip.bmap sb bn) c fun _ _ => bn < MAXFILE := by
  have hmax : MAXFILE = NDIRECT + NINDIRECT := rfl
  unfold bmap
  split_ifs with hdirect hindirect
  · exact ((aside_direct sb ip _).touches hok).mono fun _ _ _ => by omega
  · exact ((aside_indirect sb ip _).touches hok).mono fun _ _ _ => by omega
  · exact trivial

include hok hput

/-- Up to the byte `n`, the buffer is filled as it may be. -/
theorem readLoop_touches {dst : Buffer} {k off tot : ℕ} (h : B dst) (hoff : tot ≤ off) :
    Prog.Touches known ok (fun _ _ => True) (ip.readLoop sb k dst off tot n) c
      fun _ _ => True := by
  induction k generalizing dst off tot c with
  | zero => exact trivial
  | succ k ih =>
    unfold readLoop
    split_ifs with hlt
    · refine (bmap_touches hok).bind fun addr c' hbn => ?_
      split_ifs
      · exact trivial
      · refine (aside_inode ip).then hok fun i c' => ?_
        refine (aside_bread _ _).then hok fun bp c' => ?_
        refine (aside_data bp).then hok fun d c' => ?_
        have hblock : (off / BSIZE + 1) * BSIZE ≤ MAXFILE * BSIZE := Nat.mul_le_mul_right _ hbn
        have hsplit := Nat.div_add_mod off BSIZE
        have hmod : off % BSIZE < BSIZE := Nat.mod_lt _ (by decide)
        rw [Nat.succ_mul, Nat.mul_comm] at hblock
        have hle : tot + min (n - tot) (BSIZE - off % BSIZE) ≤ min n (MAXFILE * BSIZE) := by omega
        refine (hput dst _ _ d _ c' h hle).bind fun dst' c' hfits => ?_
        exact (aside_brelease bp).then hok fun _ _ => ih hfits (by omega)
    · exact trivial

end Read

/-- A buffer of the process is filled up to what is left of the file. -/
theorem read_touches {dst : Buffer} {off n : ℕ}
    (h : dst.Fits W (min ((c.inodes ip).left off n) (MAXFILE * BSIZE))) :
    Prog.Touches known (Op.Stores W) (fun _ _ => True) (ip.read sb dst off n) c
      fun _ _ => True := by
  have hok : ∀ o : Op, o.Silent → o.Stores W := fun o ho => ho.stores W
  unfold read
  refine Prog.touches_bind.mpr ⟨trivial, ?_⟩
  change Prog.Touches known (Op.Stores W) _
    (if off > (c.inodes ip).size ∨ (off + n) % 2 ^ 32 < off then _ else _) c _
  unfold Inode.left at h
  split_ifs at h ⊢
  · exact trivial
  · exact readLoop_touches hok (fun _ _ _ src off _ hb hm => hb.put hm src off) h (Nat.zero_le _)
  · exact readLoop_touches hok (fun _ _ _ src off _ hb hm => hb.put hm src off) h (Nat.zero_le _)

section Write

variable {ok : Op → Prop} (hok : ∀ o : Op, o.Silent → ok o) {src : Buffer} {n : ℕ}
  (hget : ∀ o m c, o + m ≤ n →
    Prog.Touches known ok (fun _ _ => True) (src.get o m) c fun _ _ => True)

include hok hget

theorem writeLoop_touches {k off tot : ℕ} : Prog.Touches known ok (fun _ _ => True)
    (ip.writeLoop sb src k off tot n) c fun _ _ => True := by
  induction k generalizing off tot c with
  | zero => exact trivial
  | succ k ih =>
    unfold writeLoop
    split_ifs with hlt
    · refine (aside_bmap sb ip _).then hok fun addr c' => ?_
      split_ifs
      · exact trivial
      · refine (aside_inode ip).then hok fun i c' => ?_
        refine (aside_bread _ _).then hok fun bp c' => ?_
        have hle : tot + min (n - tot) (BSIZE - off % BSIZE) ≤ n := by omega
        refine (hget _ _ c' hle).bind fun bytes c' _ => ?_
        refine (aside_modify bp _).then hok fun _ c' => ?_
        exact (aside_brelease bp).then hok fun _ _ => ih
    · exact trivial

theorem write_touches {off : ℕ} : Prog.Touches known ok (fun _ _ => True)
    (ip.write sb src off n) c fun _ _ => True := by
  unfold write
  refine (aside_inode ip).then hok fun i c' => ?_
  split_ifs
  · exact trivial
  · exact trivial
  · refine (writeLoop_touches hok hget).bind fun r c' _ => ?_
    obtain ⟨tot, off⟩ := r
    refine (aside_modifyInode ip _).then hok fun _ c' => ?_
    exact (aside_update sb ip).then hok fun _ _ => trivial

end Write

/-! ### Directories -/

variable (sb ip)

/-- A variable of the kernel is filled. -/
theorem aside_readEntry (de : Mem) (off : ℕ) : Aside (ip.readEntry sb de off) := by
  have hloop (k off n : ℕ) : Aside (ip.readLoop sb k (.kernel de) off 0 n) := fun c => by
    refine readLoop_touches (fun _ ho => ho) (B := fun b => ∃ m, b = .kernel m) ?_ ⟨de, rfl⟩
      (Nat.zero_le _)
    rintro _ o m src off c ⟨k, rfl⟩ _
    exact ⟨_, rfl⟩
  unfold readEntry
  apply Aside.bind
  · unfold read
    apply (aside_inode ip).bind
    intro i
    split_ifs
    · exact .pure _
    · exact hloop _ _ _
    · exact hloop _ _ _
  · rintro ⟨n, de⟩
    dsimp only
    split_ifs
    · exact .pure _
    · exact .fail _

theorem aside_lookup (name : Mem) : Aside (ip.lookup sb name) := by
  have hloop (n off : ℕ) : Aside (ip.lookupLoop sb name n off) := by
    induction n generalizing off with
    | zero => exact .pure _
    | succ n ih =>
      unfold lookupLoop
      apply (aside_inode ip).bind
      intro i
      split_ifs
      · apply (aside_readEntry sb ip _ _).bind
        intro de
        split_ifs
        · exact ih _
        · exact (aside_iget _ _).bind fun _ => .pure _
        · exact ih _
      · exact .pure _
  unfold lookup
  apply (aside_inode ip).bind
  intro i
  split_ifs
  · exact hloop _ _
  · exact .fail _

theorem aside_linkLoop (n : ℕ) (de : Mem) (off : ℕ) : Aside (ip.linkLoop sb n de off) := by
  induction n generalizing de off with
  | zero => exact .pure _
  | succ n ih =>
    unfold linkLoop
    apply (aside_inode ip).bind
    intro i
    split_ifs
    · apply (aside_readEntry sb ip _ _).bind
      intro de
      split_ifs
      · exact .pure _
      · exact ih _ _
    · exact .pure _

theorem aside_link (name : Mem) (inum : ℕ) : Aside (ip.link sb name inum) := by
  have hget (de : Mem) (o m : ℕ) : Aside ((Buffer.kernel de).get o m) := .pure _
  have hwrite (de : Mem) (off n : ℕ) : Aside (ip.write sb (.kernel de) off n) := fun c =>
    write_touches (fun _ ho => ho) fun o m c _ => hget de o m c
  unfold link
  apply (aside_lookup sb ip name).bind
  intro r
  cases r with
  | some next =>
    apply (aside_put sb ip).bind
    intro _
    exact .pure _
  | none =>
    apply (aside_inode ip).bind
    intro i
    apply (aside_linkLoop sb ip _ _ _).bind
    intro x
    apply (hwrite _ _ _).bind
    intro n
    split_ifs
    · exact .pure _
    · exact .pure _

end Slot

/-! ### Files -/

variable (sb)

theorem aside_fallocLoop (l : List FileId) : Aside (fallocLoop l) := by
  induction l with
  | nil => exact .pure _
  | cons f l ih =>
    unfold fallocLoop
    apply (aside_file f).bind
    intro x
    split_ifs
    · exact (aside_setFile f _).bind fun _ => .pure _
    · exact ih

theorem aside_fdallocLoop (p : ℕ) (f : FileId) (l : List (Fin nofile)) :
    Aside (fdallocLoop p f l) := by
  induction l with
  | nil => exact .pure _
  | cons fd l ih =>
    unfold fdallocLoop
    apply (aside_proc p).bind
    intro x
    split_ifs
    · exact (aside_setProc p _).bind fun _ => .pure _
    · exact ih

namespace FileId

variable (f : FileId)

theorem aside_close : Aside (f.close sb) := by
  unfold close
  apply (aside_file f).bind
  intro ff
  split_ifs
  · exact (aside_setFile f _).bind fun _ => .pure _
  · apply (aside_setFile f _).bind
    intro _
    apply (aside_setFile f _).bind
    intro _
    exact (aside_deref ff.ip).bind fun ip => ip.aside_put sb
  · apply (aside_setFile f _).bind
    intro _
    exact (aside_setFile f _).bind fun _ => .pure _
  · exact .fail _

theorem aside_advance (r : ℤ) : Aside (f.advance r) := by
  unfold advance
  split_ifs
  · exact aside_modifyFile f _
  · exact .pure _

end FileId

theorem aside_openFile (p : ℕ) (ip : Slot) (mode : ℕ) : Aside (openFile sb p ip mode) := by
  unfold openFile
  apply Aside.bind (aside_fallocLoop _)
  intro r
  cases r with
  | none => exact (ip.aside_unlockput sb).bind fun _ => .pure _
  | some f =>
    apply Aside.bind (aside_fdallocLoop p f _)
    intro r
    cases r with
    | none =>
      apply (f.aside_close sb).bind
      intro _
      exact (ip.aside_unlockput sb).bind fun _ => .pure _
    | some fd =>
      apply (aside_inode ip).bind
      intro i
      apply (aside_modifyFile f _).bind
      intro _
      dsimp only
      split_ifs
      · apply (ip.aside_trunc sb).bind
        intro _
        exact ip.aside_unlock.bind fun _ => .pure _
      · exact ip.aside_unlock.bind fun _ => .pure _

theorem aside_sysClose (p : ℕ) (fd : ℤ) : Aside (sysClose sb p fd) := by
  unfold sysClose
  apply (aside_proc p).bind
  intro x
  cases checkfd x fd with
  | none => exact .pure _
  | some y =>
    apply (aside_setProc p _).bind
    intro _
    exact (y.2.aside_close sb).bind fun _ => .pure _

theorem aside_sysDup (p : ℕ) (fd : ℤ) : Aside (sysDup p fd) := by
  unfold sysDup
  apply (aside_proc p).bind
  intro x
  cases checkfd x fd with
  | none => exact .pure _
  | some y =>
    apply Aside.bind (aside_fdallocLoop p y.2 _)
    intro r
    cases r with
    | none => exact .pure _
    | some nfd => exact .pure _

theorem aside_makeEmpty : Aside makeEmpty := by
  unfold makeEmpty
  apply Aside.bind (aside_fallocLoop _)
  intro r
  cases r with
  | none => exact .fail _
  | some f₀ =>
    apply Aside.bind (aside_fallocLoop _)
    intro r
    cases r with
    | none => exact .fail _
    | some f₁ =>
      apply (aside_modifyFile f₀ _).bind
      intro _
      exact (aside_modifyFile f₁ _).bind fun _ => .pure _

theorem aside_dupFiles (ofile : Fin nofile → Option FileId) (l : List (Fin nofile))
    (files : Fin nofile → Option FileId) : Aside (dupFiles ofile l files) := by
  induction l generalizing files with
  | nil => exact .pure _
  | cons fd l ih =>
    unfold dupFiles
    cases ofile fd with
    | none => exact ih _
    | some f =>
      unfold FileId.dup
      apply Aside.bind
      · apply (aside_file f).bind
        intro x
        split_ifs
        · exact (aside_setFile f _).bind fun _ => .pure _
        · exact .fail _
      · exact fun _ => ih _

theorem aside_makeFromParent (p child : ℕ) (mapped : Bool) :
    Aside (makeFromParent p child mapped) := by
  unfold makeFromParent Slot.dup
  apply aside_makeEmpty.bind
  intro files
  split_ifs
  · exact .pure _
  · apply (aside_proc p).bind
    intro x
    apply (aside_dupFiles x.ofile _ files).bind
    intro files
    apply Aside.bind
    · exact (aside_modifyInode x.cwd _).bind fun _ => .pure _
    · exact fun cwd => (aside_setProc child _).bind fun _ => .pure _

theorem aside_linkDots (dp ip : Slot) (type : ℕ) : Aside (linkDots (Slot.link sb) dp ip type) := by
  unfold linkDots
  split_ifs
  · apply (aside_inode ip).bind
    intro i
    apply (ip.aside_link sb dot _).bind
    intro r
    split_ifs
    · exact .pure _
    · apply (aside_inode dp).bind
      intro d
      exact (ip.aside_link sb dotdot _).bind fun _ => .pure _
  · exact .pure _

theorem aside_enterInode (dp ip : Slot) (name : Mem) (type : ℕ) :
    Aside (enterInode sb (Slot.link sb) dp ip name type) := by
  unfold enterInode
  apply (aside_linkDots sb dp ip type).bind
  intro ok
  split_ifs
  · apply (aside_inode ip).bind
    intro i
    apply (dp.aside_link sb name _).bind
    intro r
    split_ifs
    · exact .pure _
    · apply (aside_modifyInode dp _).bind
      intro _
      exact (dp.aside_update sb).bind fun _ => .pure _
  · apply (aside_inode ip).bind
    intro i
    apply (dp.aside_link sb name _).bind
    intro r
    split_ifs
    · exact .pure _
    · exact .pure _
  · exact .pure _

/-- The part of `create` after the path. -/
theorem aside_createIn (dp : Slot) (name : Mem) (type major minor : ℕ) :
    Aside (createIn sb (Slot.link sb) dp name type major minor) := by
  unfold createIn
  apply (dp.aside_lock sb).bind
  intro _
  apply (dp.aside_lookup sb name).bind
  intro r
  cases r with
  | some ip =>
    apply (dp.aside_unlockput sb).bind
    intro _
    apply (ip.aside_lock sb).bind
    intro _
    apply (aside_inode ip).bind
    intro i
    split_ifs
    · exact .pure _
    · exact (ip.aside_unlockput sb).bind fun _ => .pure _
  | none =>
    apply (aside_inode dp).bind
    intro d
    apply (aside_ialloc sb _ type).bind
    intro r
    cases r with
    | none => exact (dp.aside_unlockput sb).bind fun _ => .pure _
    | some ip =>
      apply (ip.aside_lock sb).bind
      intro _
      apply (aside_modifyInode ip _).bind
      intro _
      apply (ip.aside_update sb).bind
      intro _
      apply (aside_enterInode sb dp ip name type).bind
      intro ok
      split_ifs
      · exact (dp.aside_unlockput sb).bind fun _ => .pure _
      · apply (aside_modifyInode ip _).bind
        intro _
        apply (ip.aside_update sb).bind
        intro _
        apply (ip.aside_unlockput sb).bind
        intro _
        exact (dp.aside_unlockput sb).bind fun _ => .pure _

end Multiplix.Fs
