import Multiplix.Fs.File

/-! What the programs do with buffers: each one that is read is released, and few are held at
once. -/
namespace Multiplix.Fs
open Lib

/-- The buffers that a program holds, and what it may do then: only the data of these are touched,
there are no more than two, and the serial port is left alone. -/
def hold : List Key → Op → Option (List Key)
  | g, .bread b => if g.length < 2 then some (b :: g) else none
  | g, .brelease b => if b ∈ g then some (g.erase b) else none
  | g, .data b | g, .setData b _ => if b ∈ g then some g else none
  | _, .rx | _, .tx _ _ => none
  | g, _ => some g

/-- The program does what it may, whatever the operations answer. -/
abbrev Holds {α : Type} (p : FsM α) (g : List Key) (Q : α → List Key → Prop) : Prop :=
  Prog.Obeys hold (fun _ _ => True) p g Q

/-- Where `n` more buffers may be held, the program releases all that it reads. -/
def Balanced {α : Type} (n : ℕ) (p : FsM α) : Prop :=
  ∀ g, g.length + n ≤ 2 → Holds p g fun _ g' => g' = g

/-- It releases one buffer of its caller besides. -/
def Releases {α : Type} (n : ℕ) (bp : Key) (p : FsM α) : Prop :=
  ∀ g, g.length + n ≤ 2 → Holds p (bp :: g) fun _ g' => g' = g

section Rules

variable {α β : Type} {n m : ℕ} {bp : Key} {p : FsM α} {f : α → FsM β}

theorem balanced_pure (a : α) : Balanced n (pure a : FsM α) := fun _ _ => rfl

theorem balanced_fail (x : Panic) : Balanced n (Prog.fail x : FsM α) := fun _ _ => trivial

theorem Balanced.mono (h : Balanced n p) (hn : n ≤ m) : Balanced m p := fun g hg => h g (by omega)

theorem Balanced.bind (h : Balanced n p) (hf : ∀ a, Balanced n (f a)) : Balanced n (p >>= f) := by
  intro g hg
  rw [Holds, Prog.obeys_bind]
  apply (h g hg).mono
  rintro a _ rfl
  exact hf a _ hg

theorem balanced_perform {o : Op} (h : ∀ g, hold g o = some g) :
    Balanced n (Prog.perform o : FsM (Ans o)) := by
  intro g _
  rw [Holds, Prog.obeys_perform]
  exact ⟨g, h g, fun _ _ => rfl⟩

/-- A buffer is read, and what comes then releases it. -/
theorem balanced_bread {dev b : ℕ} {f : Key → FsM β} (hn : 1 ≤ n)
    (hf : Releases n (dev, b) (f (dev, b))) : Balanced n (bread dev b >>= f) := by
  intro g hg
  have hroom : hold g (.bread (dev, b)) = some ((dev, b) :: g) := if_pos (by omega)
  unfold bread
  rw [Holds, Prog.obeys_bind, Prog.obeys_bind, Prog.obeys_perform]
  exact ⟨_, hroom, fun _ _ => hf g hg⟩

theorem Releases.bind (h : Balanced m p) (hm : m < n) (hf : ∀ a, Releases n bp (f a)) :
    Releases n bp (p >>= f) := by
  intro g hg
  have hlen : (bp :: g).length = g.length + 1 := rfl
  rw [Holds, Prog.obeys_bind]
  apply (h (bp :: g) (by omega)).mono
  rintro a _ rfl
  exact hf a g hg

theorem holds_data {g : List Key} (hbp : bp ∈ g) {Q : Mem → List Key → Prop} (h : ∀ d, Q d g) :
    Holds (data bp) g Q := by
  have hheld : hold g (.data bp) = some g := if_pos hbp
  unfold data
  rw [Holds, Prog.obeys_perform]
  exact ⟨g, hheld, fun d _ => h d⟩

theorem holds_modify {g : List Key} (hbp : bp ∈ g) {u : Mem → Mem} :
    Holds (modify bp u) g fun _ g' => g' = g := by
  unfold modify
  rw [Holds, Prog.obeys_bind]
  apply holds_data hbp
  intro d
  have hheld : hold g (.setData bp (u d)) = some g := if_pos hbp
  unfold setData
  rw [Prog.obeys_perform]
  exact ⟨g, hheld, fun _ _ => rfl⟩

theorem Releases.data {f : Mem → FsM β} (hf : ∀ d, Releases n bp (f d)) :
    Releases n bp (data bp >>= f) := by
  intro g hg
  rw [Holds, Prog.obeys_bind]
  exact holds_data List.mem_cons_self fun d => hf d g hg

theorem Releases.modify {u : Mem → Mem} {f : Unit → FsM β} (hf : Releases n bp (f ())) :
    Releases n bp (modify bp u >>= f) := by
  intro g hg
  rw [Holds, Prog.obeys_bind]
  apply (holds_modify List.mem_cons_self).mono
  rintro _ _ rfl
  exact hf g hg

theorem releases_brelease : Releases n bp (brelease bp) := by
  intro g _
  have hheld : hold (bp :: g) (.brelease bp) = some g :=
    (if_pos List.mem_cons_self).trans (congrArg some (List.erase_cons_head ..))
  unfold brelease
  rw [Holds, Prog.obeys_perform]
  exact ⟨g, hheld, fun _ _ => rfl⟩

theorem Releases.brelease {q : Unit → FsM β} (hq : Balanced n (q ())) :
    Releases n bp (brelease bp >>= q) := by
  intro g hg
  rw [Holds, Prog.obeys_bind]
  apply (releases_brelease g hg).mono
  rintro _ _ rfl
  exact hq _ hg

theorem releases_fail (x : Panic) : Releases n bp (Prog.fail x : FsM α) := fun _ _ => trivial

end Rules

/-! ### Operations on other things -/

section Operations

variable {n : ℕ}

theorem balanced_inode (ip : Slot) : Balanced n (inode ip) := balanced_perform fun _ => rfl

theorem balanced_setInode (ip : Slot) (i : Inode) : Balanced n (setInode ip i) :=
  balanced_perform fun _ => rfl

theorem balanced_modifyInode (ip : Slot) (f : Inode → Inode) : Balanced n (modifyInode ip f) :=
  (balanced_inode ip).bind fun _ => balanced_setInode _ _

theorem balanced_uload (a k : ℕ) : Balanced n (uload a k) := balanced_perform fun _ => rfl

theorem balanced_uchar (a : ℕ) : Balanced n (uchar a) :=
  (balanced_uload _ _).bind fun _ => balanced_pure _

theorem Buffer.balanced_put (dst : Buffer) (o : ℕ) (src : Mem) (b k : ℕ) :
    Balanced n (dst.put o src b k) := by
  cases dst with
  | user addr =>
    apply Balanced.bind
    · exact balanced_perform fun _ => rfl
    · exact fun _ => balanced_pure _
  | kernel m => exact balanced_pure _

theorem Buffer.balanced_get (src : Buffer) (o k : ℕ) : Balanced n (src.get o k) := by
  cases src with
  | user addr => exact balanced_uload _ _
  | kernel m => exact balanced_pure _

theorem balanced_igetLoop (dev inum : ℕ) (ips : List Slot) (empty : Option Slot) :
    Balanced n (Slot.igetLoop dev inum ips empty) := by
  induction ips generalizing empty with
  | nil =>
    cases empty with
    | none => exact balanced_fail _
    | some ip => exact (balanced_modifyInode _ _).bind fun _ => balanced_pure _
  | cons ip ips ih =>
    apply (balanced_inode ip).bind
    intro i
    split_ifs
    · exact (balanced_setInode _ _).bind fun _ => balanced_pure _
    · exact ih _
    · exact ih _

theorem balanced_iget (dev inum : ℕ) : Balanced n (iget dev inum) := balanced_igetLoop _ _ _ _

theorem balanced_unlock (ip : Slot) : Balanced n ip.unlock := by
  apply (balanced_inode ip).bind
  intro i
  split_ifs
  · exact balanced_pure _
  · exact balanced_fail _

end Operations

variable (sb : Superblock)

/-! ### Blocks -/

theorem balanced_bzero (dev bno : ℕ) : Balanced 1 (bzero dev bno) :=
  balanced_bread le_rfl (.modify releases_brelease)

theorem balanced_ballocLoop (dev k b : ℕ) : Balanced 1 (ballocLoop sb dev k b) := by
  induction k generalizing b with
  | zero => exact balanced_pure _
  | succ k ih =>
    apply balanced_bread le_rfl
    apply Releases.data
    intro d
    cases findClear d (min BPB (sb.size - b)) 0 with
    | some bi =>
      apply Releases.modify
      apply Releases.brelease
      exact (balanced_bzero _ _).bind fun _ => balanced_pure _
    | none =>
      apply Releases.brelease
      exact ih _

theorem balanced_balloc (dev : ℕ) : Balanced 1 (balloc sb dev) := balanced_ballocLoop _ _ _ _

theorem balanced_bfree (dev b : ℕ) : Balanced 1 (bfree sb dev b) := by
  apply balanced_bread le_rfl
  apply Releases.data
  intro d
  split_ifs
  · exact releases_fail _
  · apply Releases.modify
    exact releases_brelease

/-! ### Inodes -/

theorem balanced_ialloc (dev type : ℕ) : Balanced 1 (ialloc sb dev type) := by
  have hloop (k inum : ℕ) : Balanced 1 (iallocLoop sb dev type k inum) := by
    induction k generalizing inum with
    | zero => exact balanced_pure _
    | succ k ih =>
      apply balanced_bread le_rfl
      apply Releases.data
      intro d
      split_ifs
      · apply Releases.modify
        apply Releases.brelease
        exact (balanced_iget _ _).bind fun _ => balanced_pure _
      · apply Releases.brelease
        exact ih _
  exact hloop _ _

theorem balanced_update (ip : Slot) : Balanced 1 (ip.update sb) := by
  apply (balanced_inode ip).bind
  intro i
  apply balanced_bread le_rfl
  apply Releases.modify
  exact releases_brelease

theorem balanced_lock (ip : Slot) : Balanced 1 (ip.lock sb) := by
  apply (balanced_inode ip).bind
  intro i
  split_ifs
  · exact balanced_pure _
  · apply balanced_bread le_rfl
    apply Releases.data
    intro d
    apply Releases.bind (balanced_setInode (n := 0) _ _) one_pos
    intro _
    apply Releases.brelease
    apply (balanced_setInode _ _).bind
    intro _
    split_ifs
    · exact balanced_fail _
    · exact balanced_pure _
  · exact balanced_fail _

theorem balanced_direct (ip : Slot) (k : Fin (NDIRECT + 1)) : Balanced 1 (ip.direct sb k) := by
  apply (balanced_inode ip).bind
  intro i
  split_ifs
  · apply (balanced_balloc sb i.dev).bind
    intro addr
    split_ifs
    · exact balanced_pure _
    · exact (balanced_modifyInode _ _).bind fun _ => balanced_pure _
  · exact balanced_pure _

/-- A block is allocated while the indirect block is held. -/
theorem balanced_indirect (ip : Slot) (bn : ℕ) : Balanced 2 (ip.indirect sb bn) := by
  apply ((balanced_direct sb ip _).mono one_le_two).bind
  intro addr
  split_ifs
  · exact balanced_pure _
  · apply (balanced_inode ip).bind
    intro i
    apply balanced_bread one_le_two
    apply Releases.data
    intro a
    split_ifs
    · apply Releases.bind (balanced_balloc sb i.dev) one_lt_two
      intro addr
      split_ifs
      · exact .brelease (balanced_pure _)
      · exact .modify (.brelease (balanced_pure _))
    · exact .brelease (balanced_pure _)

theorem balanced_bmap (ip : Slot) (bn : ℕ) : Balanced 2 (ip.bmap sb bn) := by
  unfold Slot.bmap
  split_ifs
  · exact (balanced_direct sb ip _).mono one_le_two
  · exact balanced_indirect sb ip _
  · exact balanced_fail _

theorem balanced_truncDirect (ip : Slot) (ns : List (Fin (NDIRECT + 1))) :
    Balanced 1 (ip.truncDirect sb ns) := by
  induction ns with
  | nil => exact balanced_pure _
  | cons k ns ih =>
    apply (balanced_inode ip).bind
    intro i
    split_ifs
    · exact ih
    · apply (balanced_bfree sb i.dev _).bind
      intro _
      apply (balanced_modifyInode _ _).bind
      exact fun _ => ih

/-- Blocks are freed while the indirect block is held. -/
theorem holds_truncEntries (dev : ℕ) {bp : Key} {g : List Key} (hbp : bp ∈ g)
    (hg : g.length + 1 ≤ 2) (k j : ℕ) :
    Holds (Slot.truncEntries sb dev bp k j) g fun _ g' => g' = g := by
  induction k generalizing j with
  | zero => exact rfl
  | succ k ih =>
    unfold Slot.truncEntries
    rw [Holds, Prog.obeys_bind]
    apply holds_data hbp
    intro a
    split_ifs
    · exact ih _
    · rw [Prog.obeys_bind]
      apply (balanced_bfree sb dev _ g hg).mono
      rintro _ _ rfl
      exact ih _

theorem balanced_trunc (ip : Slot) : Balanced 2 (ip.trunc sb) := by
  apply ((balanced_truncDirect sb ip _).mono one_le_two).bind
  intro _
  have hindirect : Balanced 2 (ip.truncIndirect sb) := by
    apply (balanced_inode ip).bind
    intro i
    dsimp only
    split_ifs
    · exact balanced_pure _
    · apply balanced_bread one_le_two
      intro g hg
      rw [Holds, Prog.obeys_bind]
      apply (holds_truncEntries sb i.dev List.mem_cons_self (by simpa using hg) _ _).mono
      rintro _ _ rfl
      refine Releases.brelease (n := 2) ?_ g hg
      apply ((balanced_bfree sb i.dev _).mono one_le_two).bind
      exact fun _ => balanced_modifyInode _ _
  apply hindirect.bind
  intro _
  apply (balanced_modifyInode _ _).bind
  exact fun _ => (balanced_update sb ip).mono one_le_two

theorem balanced_put (ip : Slot) : Balanced 2 (ip.put sb) := by
  have hfree : Balanced 2 (ip.free sb) := by
    apply (balanced_trunc sb ip).bind
    intro _
    apply (balanced_modifyInode _ _).bind
    intro _
    apply ((balanced_update sb ip).mono one_le_two).bind
    exact fun _ => balanced_modifyInode _ _
  apply (balanced_inode ip).bind
  intro i
  split_ifs
  · exact hfree.bind fun _ => balanced_modifyInode _ _
  · exact balanced_modifyInode _ _

theorem balanced_unlockput (ip : Slot) : Balanced 2 (ip.unlockput sb) :=
  (balanced_unlock ip).bind fun _ => balanced_put sb ip

theorem balanced_read (ip : Slot) (dst : Buffer) (off n : ℕ) :
    Balanced 2 (ip.read sb dst off n) := by
  have hloop (k : ℕ) (dst : Buffer) (off tot n : ℕ) :
      Balanced 2 (ip.readLoop sb k dst off tot n) := by
    induction k generalizing dst off tot with
    | zero => exact balanced_pure _
    | succ k ih =>
      unfold Slot.readLoop
      split_ifs
      · apply (balanced_bmap sb ip _).bind
        intro addr
        split_ifs
        · exact balanced_pure _
        · apply (balanced_inode ip).bind
          intro i
          apply balanced_bread one_le_two
          apply Releases.data
          intro d
          apply Releases.bind (dst.balanced_put (n := 1) _ _ _ _) one_lt_two
          intro dst
          exact .brelease (ih _ _ _)
      · exact balanced_pure _
  apply (balanced_inode ip).bind
  intro i
  split_ifs
  · exact balanced_pure _
  · exact hloop _ _ _ _ _
  · exact hloop _ _ _ _ _

theorem balanced_write (ip : Slot) (src : Buffer) (off n : ℕ) :
    Balanced 2 (ip.write sb src off n) := by
  have hloop (k off tot : ℕ) : Balanced 2 (ip.writeLoop sb src k off tot n) := by
    induction k generalizing off tot with
    | zero => exact balanced_pure _
    | succ k ih =>
      unfold Slot.writeLoop
      split_ifs
      · apply (balanced_bmap sb ip _).bind
        intro addr
        split_ifs
        · exact balanced_pure _
        · apply (balanced_inode ip).bind
          intro i
          apply balanced_bread one_le_two
          apply Releases.bind (src.balanced_get (n := 1) _ _) one_lt_two
          intro bytes
          exact .modify (.brelease (ih _ _))
      · exact balanced_pure _
  apply (balanced_inode ip).bind
  intro i
  split_ifs
  · exact balanced_pure _
  · exact balanced_pure _
  · apply (hloop _ _ _).bind
    intro r
    apply (balanced_modifyInode _ _).bind
    intro _
    exact ((balanced_update sb ip).mono one_le_two).bind fun _ => balanced_pure _

/-! ### Directories -/

theorem balanced_readEntry (ip : Slot) (de : Mem) (off : ℕ) :
    Balanced 2 (ip.readEntry sb de off) := by
  apply (balanced_read sb ip _ _ _).bind
  rintro ⟨n, de⟩
  dsimp only
  split_ifs
  · exact balanced_pure _
  · exact balanced_fail _

theorem balanced_lookup (ip : Slot) (name : Mem) : Balanced 2 (ip.lookup sb name) := by
  have hloop (k off : ℕ) : Balanced 2 (ip.lookupLoop sb name k off) := by
    induction k generalizing off with
    | zero => exact balanced_pure _
    | succ k ih =>
      apply (balanced_inode ip).bind
      intro i
      split_ifs
      · apply (balanced_readEntry sb ip _ _).bind
        intro de
        split_ifs
        · exact ih _
        · exact (balanced_iget _ _).bind fun _ => balanced_pure _
        · exact ih _
      · exact balanced_pure _
  apply (balanced_inode ip).bind
  intro i
  split_ifs
  · exact hloop _ _
  · exact balanced_fail _

theorem balanced_link (ip : Slot) (name : Mem) (inum : ℕ) : Balanced 2 (ip.link sb name inum) := by
  have hloop (k : ℕ) (de : Mem) (off : ℕ) : Balanced 2 (ip.linkLoop sb k de off) := by
    induction k generalizing de off with
    | zero => exact balanced_pure _
    | succ k ih =>
      apply (balanced_inode ip).bind
      intro i
      split_ifs
      · apply (balanced_readEntry sb ip _ _).bind
        intro de
        split_ifs
        · exact balanced_pure _
        · exact ih _ _
      · exact balanced_pure _
  apply (balanced_lookup sb ip name).bind
  rintro (_ | jp)
  · apply (balanced_inode ip).bind
    intro i
    apply (hloop _ _ _).bind
    rintro ⟨de, off⟩
    apply (balanced_write sb ip _ _ _).bind
    intro n
    split_ifs
    · exact balanced_pure _
    · exact balanced_pure _
  · exact (balanced_put sb ip).bind fun _ => balanced_pure _

/-! ### Paths -/

theorem balanced_skipSlashes (k path : ℕ) : Balanced 2 (skipSlashes k path) := by
  induction k generalizing path with
  | zero => exact balanced_fail _
  | succ k ih =>
    apply (balanced_uchar path).bind
    intro c
    split_ifs
    · exact ih _
    · exact balanced_pure _

theorem balanced_skipName (k path : ℕ) : Balanced 2 (skipName k path) := by
  induction k generalizing path with
  | zero => exact balanced_fail _
  | succ k ih =>
    apply (balanced_uchar path).bind
    intro c
    split_ifs
    · exact balanced_pure _
    · exact ih _

theorem balanced_skipelem (path : ℕ) (name : Mem) : Balanced 2 (skipelem path name) := by
  apply (balanced_skipSlashes _ _).bind
  intro path
  apply (balanced_uchar path).bind
  intro c
  split_ifs
  · exact balanced_pure _
  · apply (balanced_skipName _ _).bind
    intro stop
    dsimp only
    split_ifs
    · apply (balanced_uload _ _).bind
      intro src
      exact (balanced_skipSlashes _ _).bind fun _ => balanced_pure _
    · apply (balanced_uload _ _).bind
      intro src
      exact (balanced_skipSlashes _ _).bind fun _ => balanced_pure _

/-- The next element of a path, or the end of one. -/
theorem balanced_lookupNext {next : Slot → FsM (Option Slot × Mem)} (parent : Bool) (ip : Slot)
    (name : Mem) (h : ∀ ip, Balanced 2 (next ip)) (c : Byte) :
    Balanced 2 (if parent = true ∧ c = 0 then do
        ip.unlock
        pure (some ip, name)
      else do
        match ← ip.lookup sb name with
        | none => do
          ip.unlockput sb
          pure (none, name)
        | some ip' => do
          ip.unlockput sb
          next ip') := by
  split_ifs
  · exact (balanced_unlock ip).bind fun _ => balanced_pure _
  · apply (balanced_lookup sb ip name).bind
    rintro (_ | ip')
    · exact (balanced_unlockput sb ip).bind fun _ => balanced_pure _
    · exact (balanced_unlockput sb ip).bind fun _ => h ip'

theorem balanced_namexLoop (parent : Bool) (k : ℕ) (ip : Slot) (path : ℕ) (name : Mem) :
    Balanced 2 (namexLoop sb parent k ip path name) := by
  induction k generalizing ip path name with
  | zero => exact balanced_fail _
  | succ k ih =>
    apply (balanced_skipelem path name).bind
    rintro ⟨_ | path, name⟩
    · dsimp only
      split_ifs
      · exact (balanced_put sb ip).bind fun _ => balanced_pure _
      · exact balanced_pure _
    · have hrest := balanced_lookupNext sb parent ip name fun ip' => ih ip' path name
      apply ((balanced_lock sb ip).mono one_le_two).bind
      intro _
      apply (balanced_inode ip).bind
      intro i
      split_ifs
      · exact (balanced_unlockput sb ip).bind fun _ => balanced_pure _
      · exact (balanced_uchar path).bind hrest
      · exact (balanced_pure 1).bind hrest

theorem balanced_namex (cwd : Slot) (path : ℕ) (parent : Bool) (name : Mem) :
    Balanced 2 (namex sb cwd path parent name) := by
  apply (balanced_uchar path).bind
  intro c
  dsimp only
  split_ifs
  · exact (balanced_iget _ _).bind fun _ => balanced_namexLoop sb _ _ _ _ _
  · exact (balanced_pure cwd).bind fun _ => balanced_namexLoop sb _ _ _ _ _

theorem balanced_namei (cwd : Slot) (path : ℕ) : Balanced 2 (namei sb cwd path) :=
  (balanced_namex sb cwd path _ _).bind fun _ => balanced_pure _

/-! ### Creating a file -/

theorem balanced_linkDots (dp ip : Slot) (type : ℕ) :
    Balanced 2 (linkDots (Slot.link sb) dp ip type) := by
  unfold linkDots
  split_ifs
  · apply (balanced_inode ip).bind
    intro i
    apply (balanced_link sb ip _ _).bind
    intro r
    split_ifs
    · exact balanced_pure _
    · apply (balanced_inode dp).bind
      intro d
      exact (balanced_link sb ip _ _).bind fun _ => balanced_pure _
  · exact balanced_pure _

theorem balanced_enterInode (dp ip : Slot) (name : Mem) (type : ℕ) :
    Balanced 2 (enterInode sb (Slot.link sb) dp ip name type) := by
  apply (balanced_linkDots sb dp ip type).bind
  intro ok
  by_cases hok : ok = true
  · rw [if_pos hok]
    apply (balanced_inode ip).bind
    intro i
    apply (balanced_link sb dp _ _).bind
    intro r
    split_ifs
    · exact balanced_pure _
    · apply (balanced_modifyInode _ _).bind
      intro _
      exact ((balanced_update sb dp).mono one_le_two).bind fun _ => balanced_pure _
    · exact balanced_pure _
  · rw [if_neg hok]
    exact balanced_pure _

theorem balanced_createIn (dp : Slot) (name : Mem) (type major minor : ℕ) :
    Balanced 2 (createIn sb (Slot.link sb) dp name type major minor) := by
  apply ((balanced_lock sb dp).mono one_le_two).bind
  intro _
  apply (balanced_lookup sb dp name).bind
  rintro (_ | ip)
  · apply (balanced_inode dp).bind
    intro d
    apply ((balanced_ialloc sb d.dev type).mono one_le_two).bind
    rintro (_ | ip)
    · exact (balanced_unlockput sb dp).bind fun _ => balanced_pure _
    · apply ((balanced_lock sb ip).mono one_le_two).bind
      intro _
      apply (balanced_modifyInode _ _).bind
      intro _
      apply ((balanced_update sb ip).mono one_le_two).bind
      intro _
      apply (balanced_enterInode sb dp ip name type).bind
      intro ok
      split_ifs
      · exact (balanced_unlockput sb dp).bind fun _ => balanced_pure _
      · apply (balanced_modifyInode _ _).bind
        intro _
        apply ((balanced_update sb ip).mono one_le_two).bind
        intro _
        apply (balanced_unlockput sb ip).bind
        intro _
        exact (balanced_unlockput sb dp).bind fun _ => balanced_pure _
  · apply (balanced_unlockput sb dp).bind
    intro _
    apply ((balanced_lock sb ip).mono one_le_two).bind
    intro _
    apply (balanced_inode ip).bind
    intro i
    split_ifs
    · exact balanced_pure _
    · exact (balanced_unlockput sb ip).bind fun _ => balanced_pure _

theorem balanced_create (cwd : Slot) (path type major minor : ℕ) :
    Balanced 2 (create sb cwd path type major minor) := by
  apply (balanced_namex sb cwd path _ _).bind
  rintro ⟨_ | dp, name⟩
  · exact balanced_pure _
  · exact balanced_createIn sb dp name _ _ _

end Multiplix.Fs
