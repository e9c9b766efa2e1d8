import Mathlib.Algebra.Group.Pi.Lemmas
import Mathlib.Algebra.Group.Subgroup.Lattice
import Mathlib.Tactic.Abel
import Multiplix.Fs.System

/-! What the programs on inodes do to reference counts, whatever the disk holds. -/
namespace Multiplix.Fs
open Lib

def Core.refs (c : Core) : Slot → ℤ := fun ip => (c.inodes ip).refcnt

/-- Only inodes have changed, and their reference counts by `d`, up to a difference in `M`. -/
structure Moves (M : AddSubgroup (Slot → ℤ)) (d : Slot → ℤ) (c c' : Core) : Prop where
  files : c'.files = c.files
  live : c'.live = c.live
  procs : c'.procs = c.procs
  refs : c'.refs - c.refs - d ∈ M

variable {M : AddSubgroup (Slot → ℤ)}

/-- The program moves reference counts by what its result says. -/
def Shifts (M : AddSubgroup (Slot → ℤ)) {α : Type} (p : FsM α) (d : α → Slot → ℤ) : Prop :=
  ∀ c, Ends p c fun a c' => Moves M (d a) c c'

/-- The program leaves reference counts as they are. -/
abbrev Quiet (M : AddSubgroup (Slot → ℤ)) {α : Type} (p : FsM α) : Prop := Shifts M p fun _ => 0

theorem Moves.refl (c : Core) : Moves M 0 c c :=
  ⟨rfl, rfl, rfl, by simp only [sub_self, M.zero_mem]⟩

theorem Moves.refs_eq {d : Slot → ℤ} {c c' : Core} (h : Moves ⊥ d c c') : c'.refs = c.refs + d := by
  have hzero := AddSubgroup.mem_bot.mp h.refs
  rw [sub_sub] at hzero
  exact sub_eq_zero.mp hzero

theorem Moves.trans {d d' : Slot → ℤ} {c c' c'' : Core} (h : Moves M d c c')
    (h' : Moves M d' c' c'') : Moves M (d + d') c c'' where
  files := h'.files.trans h.files
  live := h'.live.trans h.live
  procs := h'.procs.trans h.procs
  refs := by
    have hsum := M.add_mem h.refs h'.refs
    rwa [show c'.refs - c.refs - d + (c''.refs - c'.refs - d') = c''.refs - c.refs - (d + d') by
      abel] at hsum

theorem Moves.upTo {d d' : Slot → ℤ} {c c' : Core} (h : Moves M d c c') (hd : d - d' ∈ M) :
    Moves M d' c c' where
  files := h.files
  live := h.live
  procs := h.procs
  refs := by
    have hsum := M.add_mem h.refs hd
    rwa [sub_add_sub_cancel] at hsum

/-- Without some references. -/
def Core.lost (c : Core) (e : Slot → ℤ) : Core :=
  { c with inodes := fun ip => { c.inodes ip with refcnt := (c.inodes ip).refcnt - e ip } }

theorem Core.lost_zero (c : Core) : c.lost 0 = c := by
  unfold lost
  simp only [Pi.zero_apply, sub_zero]

/-- References that are given up besides could have been missing before. -/
theorem Moves.lost {d e : Slot → ℤ} {c c' : Core} (h : Moves M (d - e) c c') :
    Moves M d (c.lost e) c' where
  files := h.files
  live := h.live
  procs := h.procs
  refs := by
    have hrefs : (c.lost e).refs = c.refs - e := rfl
    have hmem := h.refs
    rw [hrefs]
    rwa [show c'.refs - c.refs - (d - e) = c'.refs - (c.refs - e) - d by abel] at hmem

theorem Core.refs_update (c : Core) (ip : Slot) (i : Inode) :
    ({ c with inodes := Function.update c.inodes ip i } : Core).refs =
      Function.update c.refs ip i.refcnt := by
  funext ip'
  unfold refs
  dsimp only
  by_cases he : ip' = ip
  · rw [he, Function.update_self, Function.update_self]
  · rw [Function.update_of_ne he, Function.update_of_ne he]

/-- A change of one inode. -/
theorem Moves.update {c : Core} {ip : Slot} {i : Inode} {n : ℤ}
    (h : i.refcnt = (c.inodes ip).refcnt + n) :
    Moves M (Pi.single ip n) c { c with inodes := Function.update c.inodes ip i } := by
  refine ⟨rfl, rfl, rfl, ?_⟩
  have hzero : Function.update c.refs ip i.refcnt - c.refs - Pi.single ip n = 0 := by
    funext ip'
    by_cases he : ip' = ip
    · simp [he, h, Core.refs]
    · simp [he]
  rw [Core.refs_update, hzero]
  exact M.zero_mem

section Rules

variable {α β : Type} {p : FsM α} {f : α → FsM β} {d : α → Slot → ℤ} {d' : β → Slot → ℤ} {a : α}

theorem Shifts.pure (h : d a = 0) : Shifts M (pure a : FsM α) d := fun c => by
  rw [Ends, Prog.surely_pure, h]
  exact .refl c

theorem Shifts.fail (x : Panic) : Shifts M (Prog.fail x : FsM α) d := fun _ => trivial

theorem Shifts.bind {e : α → β → Slot → ℤ} (h : Shifts M p d) (hf : ∀ a, Shifts M (f a) (e a))
    (hd : ∀ a b, d a + e a b = d' b) : Shifts M (p >>= f) d' := fun c => by
  refine (h c).bind fun a c₁ h₁ => (hf a c₁).mono fun b c₂ h₂ => ?_
  rw [← hd a b]
  exact h₁.trans h₂

theorem Shifts.upTo {e : α → Slot → ℤ} (h : Shifts M p d) (hd : ∀ a, d a - e a ∈ M) :
    Shifts M p e := fun c => (h c).mono fun a _ h => h.upTo (hd a)

/-- Before the rest of a program that moves counts. -/
theorem Quiet.bind (h : Quiet M p) (hf : ∀ a, Shifts M (f a) d') : Shifts M (p >>= f) d' :=
  Shifts.bind h hf fun _ _ => zero_add _

theorem Shifts.then (h : Shifts M p d) (hf : ∀ a, Shifts M (f a) fun b => d' b - d a) :
    Shifts M (p >>= f) d' := Shifts.bind h hf fun a b => add_sub_cancel (d a) (d' b)

end Rules

section Ops

theorem quiet_bread (dev b : ℕ) : Quiet M (bread dev b) := fun c _ => .refl c

theorem quiet_data (b : Key) : Quiet M (data b) := fun c _ => .refl c

theorem quiet_modify (b : Key) (f : Mem → Mem) : Quiet M (modify b f) := fun c _ _ => .refl c

theorem quiet_brelease (b : Key) : Quiet M (brelease b) := fun c _ => .refl c

theorem quiet_inode (ip : Slot) : Quiet M (inode ip) := fun c => .refl c

theorem quiet_uload (a n : ℕ) : Quiet M (uload a n) := fun c _ => .refl c

theorem quiet_uchar (a : ℕ) : Quiet M (uchar a) := fun c _ => .refl c

theorem quiet_ustoreWord (a n v : ℕ) : Quiet M (ustoreWord a n v) := fun c _ => .refl c

theorem shifts_modifyInode {ip : Slot} {f : Inode → Inode} {n : ℤ}
    (h : ∀ i, (f i).refcnt = i.refcnt + n) :
    Shifts M (modifyInode ip f) fun _ => Pi.single ip n := fun _ => Moves.update (h _)

theorem quiet_modifyInode {ip : Slot} {f : Inode → Inode} (h : ∀ i, (f i).refcnt = i.refcnt) :
    Quiet M (modifyInode ip f) := by
  have hs : Shifts M (modifyInode ip f) fun _ => Pi.single ip 0 :=
    shifts_modifyInode fun i => (h i).trans (add_zero _).symm
  rwa [Pi.single_zero] at hs

end Ops

variable (sb : Superblock)

section Blocks

theorem quiet_bzero (dev b : ℕ) : Quiet M (bzero dev b) := by
  unfold bzero
  apply (quiet_bread dev b).bind
  intro bp
  apply (quiet_modify bp _).bind
  intro _
  exact quiet_brelease bp

theorem quiet_ballocLoop (dev n b : ℕ) : Quiet M (ballocLoop sb dev n b) := by
  induction n generalizing b with
  | zero => exact .pure rfl
  | succ n ih =>
    unfold ballocLoop
    apply (quiet_bread dev _).bind
    intro bp
    apply (quiet_data bp).bind
    intro d
    cases findClear d (min BPB (sb.size - b)) 0 with
    | none =>
      apply (quiet_brelease bp).bind
      intro _
      exact ih _
    | some bi =>
      apply (quiet_modify bp _).bind
      intro _
      apply (quiet_brelease bp).bind
      intro _
      apply (quiet_bzero dev _).bind
      intro _
      exact .pure rfl

theorem quiet_balloc (dev : ℕ) : Quiet M (balloc sb dev) := quiet_ballocLoop sb dev _ 0

theorem quiet_bfree (dev b : ℕ) : Quiet M (bfree sb dev b) := by
  unfold bfree
  apply (quiet_bread dev _).bind
  intro bp
  apply (quiet_data bp).bind
  intro d
  split_ifs
  · exact .fail _
  · apply (quiet_modify bp _).bind
    intro _
    exact quiet_brelease bp

end Blocks

/-- A reference that a result stands for. -/
def held : Option Slot → Slot → ℤ
  | none => 0
  | some ip => Pi.single ip 1

@[simp] theorem held_none : held none = 0 := rfl

@[simp] theorem held_some (ip : Slot) : held (some ip) = Pi.single ip 1 := rfl

theorem igetLoop_ends (dev inum : ℕ) (c : Core) (l : List Slot) (empty : Option Slot)
    (hempty : ∀ ip ∈ empty, (c.inodes ip).refcnt = 0) :
    Ends (Slot.igetLoop dev inum l empty) c fun ip c' => Moves M (Pi.single ip 1) c c' := by
  induction l generalizing empty with
  | nil =>
    cases empty with
    | none => trivial
    | some ip => exact Moves.update (by rw [hempty ip rfl, zero_add])
  | cons ip l ih =>
    unfold Slot.igetLoop
    rw [ends_bind, ends_inode]
    split_ifs with hfound hunused
    · exact Moves.update rfl
    · apply ih
      intro ip' hip
      cases hip
      exact hunused.2
    · exact ih empty hempty

/-- A new reference. -/
theorem shifts_iget (dev inum : ℕ) : Shifts M (iget dev inum) fun ip => Pi.single ip 1 := fun c =>
  igetLoop_ends dev inum c _ none fun _ h => absurd h (Option.not_mem_none _)

theorem shifts_iallocLoop (dev type n inum : ℕ) :
    Shifts M (iallocLoop sb dev type n inum) held := by
  induction n generalizing inum with
  | zero => exact .pure rfl
  | succ n ih =>
    unfold iallocLoop
    apply (quiet_bread dev _).bind
    intro bp
    apply (quiet_data bp).bind
    intro d
    split_ifs
    · apply (quiet_modify bp _).bind
      intro _
      apply (quiet_brelease bp).bind
      intro _
      apply (shifts_iget dev inum).then
      intro ip
      exact .pure (sub_self _)
    · apply (quiet_brelease bp).bind
      intro _
      exact ih _

theorem shifts_ialloc (dev type : ℕ) : Shifts M (ialloc sb dev type) held :=
  shifts_iallocLoop sb dev type _ 1

namespace Slot

variable (ip : Slot)

theorem quiet_update : Quiet M (ip.update sb) := by
  unfold update
  apply (quiet_inode ip).bind
  intro i
  apply (quiet_bread _ _).bind
  intro bp
  apply (quiet_modify bp _).bind
  intro _
  exact quiet_brelease bp

theorem dup_ends (c : Core) : Ends ip.dup c fun r c' => r = ip ∧ Moves M (Pi.single ip 1) c c' := by
  unfold dup
  rw [ends_bind, ends_modifyInode, ends_pure]
  exact ⟨rfl, Moves.update rfl⟩

/-- The inode is written as it was read before, but for what is on the disk. -/
theorem quiet_lock : Quiet M (ip.lock sb) := by
  intro c
  unfold lock
  rw [ends_bind, ends_inode]
  split_ifs
  · exact .refl c
  · rw [ends_bind, ends_bread, ends_bind, ends_data]
    intro d
    rw [ends_bind, ends_setInode, ends_bind, ends_brelease, ends_bind, ends_setInode]
    have hmoves : Moves M 0 c { c with
        inodes := Function.update (Function.update c.inodes ip
          ((c.inodes ip).load d (dinodeOff (c.inodes ip).inum))) ip
          { (c.inodes ip).load d (dinodeOff (c.inodes ip).inum) with valid := true } } := by
      rw [Function.update_idem, ← Pi.single_zero ip]
      exact Moves.update (add_zero _).symm
    split_ifs
    · trivial
    · exact hmoves
  · trivial

theorem quiet_unlock : Quiet M ip.unlock := by
  unfold unlock
  apply (quiet_inode ip).bind
  intro i
  split_ifs
  · exact .pure rfl
  · exact .fail _

theorem quiet_direct (n : Fin (NDIRECT + 1)) : Quiet M (ip.direct sb n) := by
  unfold direct
  apply (quiet_inode ip).bind
  intro i
  split_ifs
  · apply (quiet_balloc sb _).bind
    intro addr
    split_ifs
    · exact .pure rfl
    · refine Quiet.bind (quiet_modifyInode fun _ => rfl) fun _ => ?_
      exact .pure rfl
  · exact .pure rfl

theorem quiet_indirect (bn : ℕ) : Quiet M (ip.indirect sb bn) := by
  unfold indirect
  apply (quiet_direct sb ip _).bind
  intro addr
  split_ifs
  · exact .pure rfl
  · apply (quiet_inode ip).bind
    intro i
    apply (quiet_bread _ _).bind
    intro bp
    apply (quiet_data bp).bind
    intro a
    split_ifs
    · apply (quiet_balloc sb _).bind
      intro addr
      split_ifs
      · apply (quiet_brelease bp).bind
        intro _
        exact .pure rfl
      · apply (quiet_modify bp _).bind
        intro _
        apply (quiet_brelease bp).bind
        intro _
        exact .pure rfl
    · apply (quiet_brelease bp).bind
      intro _
      exact .pure rfl

theorem quiet_bmap (bn : ℕ) : Quiet M (ip.bmap sb bn) := by
  unfold bmap
  split_ifs
  · exact quiet_direct sb ip _
  · exact quiet_indirect sb ip _
  · exact .fail _

theorem quiet_truncDirect (l : List (Fin (NDIRECT + 1))) : Quiet M (ip.truncDirect sb l) := by
  induction l with
  | nil => exact .pure rfl
  | cons n l ih =>
    unfold truncDirect
    apply (quiet_inode ip).bind
    intro i
    split_ifs
    · exact ih
    · apply (quiet_bfree sb _ _).bind
      intro _
      refine Quiet.bind (quiet_modifyInode fun _ => rfl) fun _ => ?_
      exact ih

theorem quiet_truncEntries (dev : ℕ) (bp : Key) (n j : ℕ) :
    Quiet M (truncEntries sb dev bp n j) := by
  induction n generalizing j with
  | zero => exact .pure rfl
  | succ n ih =>
    unfold truncEntries
    apply (quiet_data bp).bind
    intro a
    split_ifs
    · exact ih _
    · apply (quiet_bfree sb _ _).bind
      intro _
      exact ih _

theorem quiet_truncIndirect : Quiet M (ip.truncIndirect sb) := by
  unfold truncIndirect
  apply (quiet_inode ip).bind
  intro i
  dsimp only
  split_ifs
  · exact .pure rfl
  · apply (quiet_bread _ _).bind
    intro bp
    apply (quiet_truncEntries sb _ bp _ 0).bind
    intro _
    apply (quiet_brelease bp).bind
    intro _
    apply (quiet_bfree sb _ _).bind
    intro _
    exact quiet_modifyInode fun _ => rfl

theorem quiet_trunc : Quiet M (ip.trunc sb) := by
  unfold trunc
  apply (quiet_truncDirect sb ip _).bind
  intro _
  apply (quiet_truncIndirect sb ip).bind
  intro _
  refine Quiet.bind (quiet_modifyInode fun _ => rfl) fun _ => ?_
  exact quiet_update sb ip

theorem quiet_free : Quiet M (ip.free sb) := by
  unfold free
  apply (quiet_trunc sb ip).bind
  intro _
  refine Quiet.bind (quiet_modifyInode fun _ => rfl) fun _ => ?_
  apply (quiet_update sb ip).bind
  intro _
  exact quiet_modifyInode fun _ => rfl

/-- One reference fewer, whether or not the inode is freed. -/
theorem shifts_put : Shifts M (ip.put sb) fun _ => -Pi.single ip 1 := by
  have hdrop : Shifts M (modifyInode ip fun i => { i with refcnt := i.refcnt - 1 })
      fun _ => -Pi.single ip 1 := by
    rw [← Pi.single_neg]
    exact shifts_modifyInode fun _ => rfl
  unfold put
  apply (quiet_inode ip).bind
  intro i
  split_ifs
  · apply (quiet_free sb ip).bind
    intro _
    exact hdrop
  · exact hdrop

theorem shifts_unlockput : Shifts M (ip.unlockput sb) fun _ => -Pi.single ip 1 := by
  unfold unlockput
  apply (quiet_unlock ip).bind
  intro _
  exact shifts_put sb ip

end Slot

theorem Buffer.quiet_put (b : Buffer) (o : ℕ) (src : Mem) (off n : ℕ) :
    Quiet M (b.put o src off n) := by
  cases b with
  | user addr => exact fun c _ => .refl c
  | kernel m => exact .pure rfl

theorem Buffer.quiet_get (b : Buffer) (off n : ℕ) : Quiet M (b.get off n) := by
  cases b with
  | user addr => exact quiet_uload _ _
  | kernel m => exact .pure rfl

namespace Slot

variable (ip : Slot)

theorem quiet_readLoop (k : ℕ) (dst : Buffer) (off tot n : ℕ) :
    Quiet M (ip.readLoop sb k dst off tot n) := by
  induction k generalizing dst off tot with
  | zero => exact .pure rfl
  | succ k ih =>
    unfold readLoop
    split_ifs
    · apply (quiet_bmap sb ip _).bind
      intro addr
      split_ifs
      · exact .pure rfl
      · apply (quiet_inode ip).bind
        intro i
        apply (quiet_bread _ _).bind
        intro bp
        apply (quiet_data bp).bind
        intro d
        apply (Buffer.quiet_put _ _ _ _ _).bind
        intro dst
        apply (quiet_brelease bp).bind
        intro _
        exact ih _ _ _
    · exact .pure rfl

theorem quiet_read (dst : Buffer) (off n : ℕ) : Quiet M (ip.read sb dst off n) := by
  unfold read
  apply (quiet_inode ip).bind
  intro i
  dsimp only
  split_ifs
  · exact .pure rfl
  · exact quiet_readLoop sb ip _ _ _ _ _
  · exact quiet_readLoop sb ip _ _ _ _ _

theorem quiet_writeLoop (src : Buffer) (k off tot n : ℕ) :
    Quiet M (ip.writeLoop sb src k off tot n) := by
  induction k generalizing off tot with
  | zero => exact .pure rfl
  | succ k ih =>
    unfold writeLoop
    split_ifs
    · apply (quiet_bmap sb ip _).bind
      intro addr
      split_ifs
      · exact .pure rfl
      · apply (quiet_inode ip).bind
        intro i
        apply (quiet_bread _ _).bind
        intro bp
        apply (Buffer.quiet_get _ _ _).bind
        intro bytes
        apply (quiet_modify bp _).bind
        intro _
        apply (quiet_brelease bp).bind
        intro _
        exact ih _ _
    · exact .pure rfl

theorem quiet_write (src : Buffer) (off n : ℕ) : Quiet M (ip.write sb src off n) := by
  unfold write
  apply (quiet_inode ip).bind
  intro i
  split_ifs
  · exact .pure rfl
  · exact .pure rfl
  · apply (quiet_writeLoop sb ip _ _ _ _ _).bind
    intro r
    obtain ⟨tot, off⟩ := r
    refine Quiet.bind (quiet_modifyInode fun _ => rfl) fun _ => ?_
    apply (quiet_update sb ip).bind
    intro _
    exact .pure rfl

theorem quiet_readEntry (de : Mem) (off : ℕ) : Quiet M (ip.readEntry sb de off) := by
  unfold readEntry
  apply (quiet_read sb ip _ _ _).bind
  intro r
  dsimp only
  split_ifs
  · exact .pure rfl
  · exact .fail _

theorem shifts_lookupLoop (name : Mem) (n off : ℕ) :
    Shifts M (ip.lookupLoop sb name n off) held := by
  induction n generalizing off with
  | zero => exact .pure rfl
  | succ n ih =>
    unfold lookupLoop
    apply (quiet_inode ip).bind
    intro i
    split_ifs
    · apply (quiet_readEntry sb ip _ _).bind
      intro de
      split_ifs
      · exact ih _
      · apply (shifts_iget _ _).then
        intro next
        exact .pure (sub_self _)
      · exact ih _
    · exact .pure rfl

theorem shifts_lookup (name : Mem) : Shifts M (ip.lookup sb name) held := by
  unfold lookup
  apply (quiet_inode ip).bind
  intro i
  split_ifs
  · exact shifts_lookupLoop sb ip _ _ _
  · exact .fail _

theorem quiet_linkLoop (n : ℕ) (de : Mem) (off : ℕ) : Quiet M (ip.linkLoop sb n de off) := by
  induction n generalizing de off with
  | zero => exact .pure rfl
  | succ n ih =>
    unfold linkLoop
    apply (quiet_inode ip).bind
    intro i
    split_ifs
    · apply (quiet_readEntry sb ip _ _).bind
      intro de
      split_ifs
      · exact .pure rfl
      · exact ih _ _
    · exact .pure rfl

theorem quiet_linkNew (name : Mem) (inum : ℕ) : Quiet M (ip.linkNew sb name inum) := by
  unfold linkNew
  apply (shifts_lookup sb ip name).then
  intro r
  cases r with
  | some next => exact .fail _
  | none =>
    apply (quiet_inode ip).bind
    intro i
    apply (quiet_linkLoop sb ip _ _ _).bind
    intro x
    apply (quiet_write sb ip _ _ _).bind
    intro n
    split_ifs
    · exact .pure rfl
    · exact .pure rfl

/-- The directory is given up where the name is found. -/
theorem quiet_link (name : Mem) (inum : ℕ) : Quiet ⊤ (ip.link sb name inum) := by
  unfold link
  apply (shifts_lookup sb ip name).then
  intro r
  cases r with
  | some next =>
    have hput : Shifts ⊤ (do put sb ip; pure (-1) : FsM ℤ) fun _ => -Pi.single ip 1 := by
      apply (shifts_put sb ip).then
      intro _
      exact .pure (sub_self _)
    exact hput.upTo fun _ => AddSubgroup.mem_top _
  | none =>
    apply (quiet_inode ip).bind
    intro i
    apply (quiet_linkLoop sb ip _ _ _).bind
    intro x
    apply (quiet_write sb ip _ _ _).bind
    intro n
    split_ifs
    · exact .pure rfl
    · exact .pure rfl

end Slot

section Paths

theorem quiet_skipSlashes (n path : ℕ) : Quiet M (skipSlashes n path) := by
  induction n generalizing path with
  | zero => exact .fail _
  | succ n ih =>
    unfold skipSlashes
    apply (quiet_uchar path).bind
    intro c
    split_ifs
    · exact ih _
    · exact .pure rfl

theorem quiet_skipName (n path : ℕ) : Quiet M (skipName n path) := by
  induction n generalizing path with
  | zero => exact .fail _
  | succ n ih =>
    unfold skipName
    apply (quiet_uchar path).bind
    intro c
    split_ifs
    · exact .pure rfl
    · exact ih _

theorem quiet_skipelem (path : ℕ) (name : Mem) : Quiet M (skipelem path name) := by
  unfold skipelem
  apply (quiet_skipSlashes _ path).bind
  intro path
  apply (quiet_uchar path).bind
  intro c
  split_ifs
  · exact .pure rfl
  · apply (quiet_skipName _ path).bind
    intro end_
    dsimp only
    split_ifs
    · apply (quiet_uload _ _).bind
      intro src
      apply (quiet_skipSlashes _ _).bind
      intro path
      exact .pure rfl
    · apply (quiet_uload _ _).bind
      intro src
      apply (quiet_skipSlashes _ _).bind
      intro path
      exact .pure rfl

/-- The reference that the loop starts with is given up for the one that it ends with. -/
theorem shifts_namexLoop (parent : Bool) (n : ℕ) (ip : Slot) (path : ℕ) (name : Mem) :
    Shifts M (namexLoop sb parent n ip path name) fun r => held r.1 - Pi.single ip 1 := by
  induction n generalizing ip path name with
  | zero => exact .fail _
  | succ n ih =>
    unfold namexLoop
    apply (quiet_skipelem path name).bind
    intro r
    obtain ⟨_ | path, name⟩ := r
    · cases parent with
      | true =>
        apply (Slot.shifts_put sb ip).then
        intro _
        exact .pure (by simp)
      | false => exact .pure (sub_self _)
    · apply (Slot.quiet_lock sb ip).bind
      intro _
      apply (quiet_inode ip).bind
      intro i
      have hgone : Shifts M (do ip.unlockput sb; pure (none, name) : FsM (Option Slot × Mem))
          fun r => held r.1 - Pi.single ip 1 := by
        apply (Slot.shifts_unlockput sb ip).then
        intro _
        exact .pure (by simp)
      have hnext : Shifts M (do
          match ← ip.lookup sb name with
          | none => do
            ip.unlockput sb
            pure (none, name)
          | some next => do
            ip.unlockput sb
            namexLoop sb parent n next path name) fun r => held r.1 - Pi.single ip 1 := by
        apply (Slot.shifts_lookup sb ip name).then
        intro next
        cases next with
        | none =>
          simp only [held_none, sub_zero]
          exact hgone
        | some next =>
          refine (Slot.shifts_unlockput sb ip).bind (fun _ => ih next path name) fun _ r => ?_
          rw [held_some]
          abel
      split_ifs with htype hparent
      · exact hgone
      · apply (quiet_uchar path).bind
        intro c
        dsimp only
        split_ifs
        · apply (Slot.quiet_unlock ip).bind
          intro _
          exact .pure (sub_self _)
        · exact hnext
      · dsimp only
        rw [Prog.pure_eq, Prog.ret_bind, if_neg fun h => hparent h.1]
        exact hnext

end Paths

section Create

variable {link : Slot → Mem → ℕ → FsM ℤ} (hlink : ∀ ip name inum, Quiet M (link ip name inum))

include hlink

theorem quiet_linkDots (dp ip : Slot) (type : ℕ) : Quiet M (linkDots link dp ip type) := by
  unfold linkDots
  split_ifs
  · apply (quiet_inode ip).bind
    intro i
    apply (hlink ip dot _).bind
    intro r
    split_ifs
    · exact .pure rfl
    · apply (quiet_inode dp).bind
      intro d
      apply (hlink ip dotdot _).bind
      intro r
      exact .pure rfl
  · exact .pure rfl

theorem quiet_enterInode (dp ip : Slot) (name : Mem) (type : ℕ) :
    Quiet M (enterInode sb link dp ip name type) := by
  unfold enterInode
  apply (quiet_linkDots hlink dp ip type).bind
  intro ok
  split_ifs
  · apply (quiet_inode ip).bind
    intro i
    apply (hlink dp name _).bind
    intro r
    split_ifs
    · exact .pure rfl
    · refine Quiet.bind (quiet_modifyInode fun _ => rfl) fun _ => ?_
      apply (Slot.quiet_update sb dp).bind
      intro _
      exact .pure rfl
  · apply (quiet_inode ip).bind
    intro i
    apply (hlink dp name _).bind
    intro r
    split_ifs
    · exact .pure rfl
    · exact .pure rfl
  · exact .pure rfl

theorem shifts_createIn (dp : Slot) (name : Mem) (type major minor : ℕ) :
    Shifts M (createIn sb link dp name type major minor) fun r => held r - Pi.single dp 1 := by
  unfold createIn
  apply (Slot.quiet_lock sb dp).bind
  intro _
  apply (Slot.shifts_lookup sb dp name).then
  intro r
  cases r with
  | some ip =>
    apply (Slot.shifts_unlockput sb dp).then
    intro _
    apply (Slot.quiet_lock sb ip).bind
    intro _
    apply (quiet_inode ip).bind
    intro i
    split_ifs
    · exact .pure (by simp)
    · apply (Slot.shifts_unlockput sb ip).then
      intro _
      exact .pure (by simp only [held_none, held_some]; abel)
  | none =>
    apply (quiet_inode dp).bind
    intro d
    apply (shifts_ialloc sb _ type).then
    intro r
    cases r with
    | none =>
      apply (Slot.shifts_unlockput sb dp).then
      intro _
      exact .pure (by simp)
    | some ip =>
      apply (Slot.quiet_lock sb ip).bind
      intro _
      refine Quiet.bind (quiet_modifyInode fun _ => rfl) fun _ => ?_
      apply (Slot.quiet_update sb ip).bind
      intro _
      apply (quiet_enterInode sb hlink dp ip name type).bind
      intro ok
      split_ifs
      · apply (Slot.shifts_unlockput sb dp).then
        intro _
        exact .pure (by simp)
      · refine Quiet.bind (quiet_modifyInode fun _ => rfl) fun _ => ?_
        apply (Slot.quiet_update sb ip).bind
        intro _
        apply (Slot.shifts_unlockput sb ip).then
        intro _
        apply (Slot.shifts_unlockput sb dp).then
        intro _
        exact .pure (by simp)

end Create

section Drives

variable {τ : Type} {J : Outside τ} {s : State τ}

/-- From this state on, the program moves reference counts by what its result says. -/
def Drives (J : Outside τ) (M : AddSubgroup (Slot → ℤ)) (s : State τ) {α : Type} (p : FsM α)
    (d : α → Slot → ℤ) : Prop :=
  Prog.Wp (known.extend J) (fun _ => True) p s fun a s' => Moves M (d a) s.1 s'.1

theorem Shifts.drives {α : Type} {p : FsM α} {d : α → Slot → ℤ} (h : Shifts M p d) :
    Drives J M s p d := (h s.1).wp

theorem Drives.then {α β : Type} {p : FsM α} {f : α → FsM β} {d : α → Slot → ℤ}
    {d' : β → Slot → ℤ} (h : Drives J M s p d) (hf : ∀ a, Shifts M (f a) fun b => d' b - d a) :
    Drives J M s (p >>= f) d' := by
  refine Prog.Wp.bind h fun a s₁ h₁ => (hf a s₁.1).wp.mono fun b s₂ h₂ => ?_
  have hsum := h₁.trans h₂
  rwa [add_sub_cancel] at hsum

/-- The path starts with a slash, where it can be read. -/
def Rooted (J : Outside τ) (s : State τ) (path : ℕ) : Prop :=
  ∀ s' c, exec J (uchar path) s = .ok (s', c) → c = slash

/-- What a look-up of the path takes from the directory of the process, up to a difference in `M`:
nothing if the path starts with a slash, and else one reference. -/
def Takes (J : Outside τ) (M : AddSubgroup (Slot → ℤ)) (s : State τ) (cwd : Slot) (path : ℕ)
    (e : Slot → ℤ) : Prop :=
  ∀ s' c, exec J (uchar path) s = .ok (s', c) → (if c = slash then 0 else Pi.single cwd 1) - e ∈ M

variable {cwd : Slot} {path : ℕ} {e : Slot → ℤ}

theorem takes_none (h : Rooted J s path ∨ Pi.single cwd 1 ∈ M) : Takes J M s cwd path 0 := by
  intro s' c hc
  rw [sub_zero]
  split_ifs with hslash
  · exact M.zero_mem
  · exact h.resolve_left fun hroot => hslash (hroot s' c hc)

/-- A path that does not start at the root takes exactly one reference. -/
theorem takes_one (h : ¬Rooted J s path) : Takes J M s cwd path (Pi.single cwd 1) := by
  intro s' c hc
  have hslash : c ≠ slash := by
    intro he
    apply h
    intro s'' c' hc'
    rw [hc] at hc'
    cases hc'
    exact he
  rw [if_neg hslash, sub_self]
  exact M.zero_mem

namespace Takes

variable (ht : Takes J M s cwd path e)

include ht

theorem namex (parent : Bool) (name : Mem) :
    Drives J M s (namex sb cwd path parent name) fun r => held r.1 - e := by
  have hread : Prog.Wp (known.extend J) (fun _ => True) (uchar path) s fun c _ =>
      (if c = slash then 0 else Pi.single cwd 1) - e ∈ M :=
    Prog.Wp.intro (fun _ => trivial) fun s' c hc => ht s' c hc
  have hloop (ip : Slot) : Shifts M (namexLoop sb parent addrSpace ip path name)
      fun r => held r.1 - Pi.single ip 1 := shifts_namexLoop sb parent addrSpace ip path name
  have hquiet : Drives J M s (uchar path) fun _ => 0 := (quiet_uchar path).drives
  unfold Fs.namex
  refine (hquiet.and hread).bind fun c s₁ ⟨hmoves, hc⟩ => ?_
  have hrest : Ends (if c = slash then do
      let ip ← iget ROOTDEV ROOTINO
      namexLoop sb parent addrSpace ip path name
    else namexLoop sb parent addrSpace cwd path name) s₁.1 fun r c' =>
      Moves M (held r.1 - e) s₁.1 c' := by
    split_ifs at hc ⊢ with hslash
    · have hroot := (shifts_iget ROOTDEV ROOTINO).then (M := M) hloop
      refine hroot.upTo (fun r => ?_) s₁.1
      rw [sub_sub_cancel]
      rw [zero_sub] at hc
      exact M.neg_mem_iff.mp hc
    · refine (hloop cwd).upTo (fun r => ?_) s₁.1
      rw [sub_sub_sub_cancel_left, ← neg_sub]
      exact M.neg_mem hc
  refine hrest.wp.mono fun r s₂ h => ?_
  have hsum := hmoves.trans h
  rwa [zero_add] at hsum

theorem namei : Drives J M s (namei sb cwd path) fun r => held r - e := by
  unfold Fs.namei
  refine (ht.namex sb false nameInit).then fun r => ?_
  exact .pure (sub_self _)

theorem createWith {link : Slot → Mem → ℕ → FsM ℤ}
    (hlink : ∀ ip name inum, Quiet M (link ip name inum)) (type major minor : ℕ) :
    Drives J M s (createWith sb link cwd path type major minor) fun r => held r - e := by
  unfold Fs.createWith
  refine (ht.namex sb true nameInit).then fun r => ?_
  simp only [sub_sub_sub_cancel_right]
  obtain ⟨_ | dp, name⟩ := r
  · exact .pure (sub_self _)
  · exact shifts_createIn sb hlink dp name type major minor

/-- What holds for `create` is asked for where the file may be created. -/
theorem openInode {mode : ℕ} (hcreate : mode &&& Mode.CREATE ≠ 0 →
    Drives J M s (create sb cwd path T_FILE 0 0) fun r => held r - e) :
    Drives J M s (openInode sb cwd path mode) fun r => held r - e := by
  unfold Fs.openInode
  split_ifs with hmode
  · exact hcreate hmode
  · refine (ht.namei sb).then fun r => ?_
    simp only [sub_sub_sub_cancel_right]
    cases r with
    | none => exact .pure (sub_self _)
    | some ip =>
      apply (Slot.quiet_lock sb ip).bind
      intro _
      apply (quiet_inode ip).bind
      intro i
      split_ifs
      · apply (Slot.shifts_unlockput sb ip).then
        intro _
        exact .pure (by simp)
      · exact .pure (sub_self _)

end Takes

end Drives

end Multiplix.Fs
