import Multiplix.Fs.Directory
import Multiplix.Fs.UserReach

/-! Every character of a path is read by some look-up: one in which all its elements exist. -/
namespace Multiplix.Fs
open Lib

/-- The root directory, with one entry for itself, whose name is not fixed. -/
def rootDir : Inode :=
  { Inode.init with
    dev := ROOTDEV, inum := ROOTINO, refcnt := 1, valid := true, type := T_DIR, nlink := 1
    size := Dirent.size, addrs := fun _ => 1 }

/-- The entry of the root directory under a name. -/
def rootEntry (name : Mem) : Mem := fun x => if x = 0 then 1 else if x = 1 then 0 else name (x - 2)

/-- The first inode is the root directory, and has some references. -/
def AtRoot (n : ℤ) (c : Core) : Prop := c.inodes slot₀ = { rootDir with refcnt := n }

section PathReach

variable {sb : Superblock} {u : Mem} {a path m i : ℕ} {n : ℤ} {c : Core} {name : Mem}

/-! ### The root directory -/

theorem iget_reaches (h : AtRoot n c) (hn : 1 ≤ n) {Q : Slot → Core → Prop}
    (hQ : ∀ c', AtRoot (n + 1) c' → Q slot₀ c') : MayUse u a (iget ROOTDEV ROOTINO) c Q := by
  obtain ⟨rest, hrest⟩ : ∃ rest, List.finRange NINODE = slot₀ :: rest := ⟨_, rfl⟩
  have hfound : (c.inodes slot₀).refcnt > 0 ∧ (c.inodes slot₀).dev = ROOTDEV ∧
      (c.inodes slot₀).inum = ROOTINO := by
    rw [h]
    exact ⟨Int.lt_of_lt_of_le Int.one_pos hn, rfl, rfl⟩
  have hnew : ({ c.inodes slot₀ with refcnt := (c.inodes slot₀).refcnt + 1 } : Inode) =
      { rootDir with refcnt := n + 1 } := by rw [h]
  unfold iget
  rw [hrest]
  refine Prog.meets_bind.mpr (reaches_inode ?_)
  rw [if_pos hfound]
  refine Prog.meets_bind.mpr (reaches_known (o := .setInode _ _) rfl ?_)
  refine hQ _ ?_
  exact (Function.update_self slot₀ _ c.inodes).trans hnew

/-- With another reference left the directory is only let go. -/
theorem unlockput_reaches (h : AtRoot n c) (hn : 1 ≤ n) {Q : Unit → Core → Prop}
    (hQ : ∀ c', AtRoot (n - 1) c' → Q () c') : MayUse u a (slot₀.unlockput sb) c Q := by
  have hlinked : ¬((c.inodes slot₀).refcnt = 1 ∧ (c.inodes slot₀).valid = true ∧
      (c.inodes slot₀).nlink = 0) := fun hc => by
    rw [h] at hc
    exact absurd hc.2.2 one_ne_zero
  have hnew : ({ c.inodes slot₀ with refcnt := (c.inodes slot₀).refcnt - 1 } : Inode) =
      { rootDir with refcnt := n - 1 } := by rw [h]
  unfold Slot.unlockput Slot.put
  refine Prog.meets_bind.mpr (reaches_unlock (by rw [h]; exact hn) ?_)
  refine Prog.meets_bind.mpr (reaches_inode ?_)
  rw [if_neg hlinked]
  refine Prog.meets_bind.mpr (reaches_inode ?_)
  refine reaches_known (o := .setInode _ _) rfl (hQ _ ?_)
  exact (Function.update_self slot₀ _ c.inodes).trans hnew

theorem entryOf_rootEntry (name : Mem) : entryOf (rootEntry name) = (ROOTINO, nameOf name) := by
  have hname : Dirent.name (rootEntry name) = name := by
    funext x
    unfold Dirent.name rootEntry
    rw [if_neg (by omega), if_neg (by omega), Nat.add_sub_cancel_left]
  unfold entryOf
  rw [hname]
  rfl

/-- The entry of the directory is read, and has the name that is asked for. -/
theorem readEntry_reaches (h : AtRoot n c) (name : Mem) {Q : Mem → Core → Prop}
    (hQ : ∀ de, entryOf de = (ROOTINO, nameOf name) → Q de c) :
    MayUse u a (slot₀.readEntry sb Dirent.init 0) c Q := by
  have hmapped : ∀ m, (c.inodes slot₀).addrs m ≠ 0 := fun m => by
    rw [h]
    exact one_ne_zero
  unfold Slot.readEntry Slot.read
  refine Prog.meets_bind.mpr (Prog.meets_bind.mpr (reaches_inode ?_))
  have hsize : (c.inodes slot₀).size = Dirent.size := by rw [h]; rfl
  rw [hsize, if_neg (by decide), if_neg (by decide)]
  dsimp only
  change Prog.Meets _ _ _ (slot₀.readLoop sb (15 + 1) (.kernel Dirent.init) 0 0 Dirent.size) c _
  rw [Slot.readLoop, if_pos (by decide)]
  refine Prog.meets_bind.mpr (bmap_reaches hmapped (by decide) fun b hb => ?_)
  rw [if_neg hb]
  refine Prog.meets_bind.mpr (reaches_inode ?_)
  refine Prog.meets_bind.mpr (reaches_bread ?_)
  refine Prog.meets_bind.mpr (reaches_data (rootEntry name) ?_)
  refine Prog.meets_bind.mpr (reaches_brelease ?_)
  refine hQ _ ?_
  have hcopy := entryOf_copy Dirent.init (rootEntry name) 0
  unfold entryAt at hcopy
  simp only [Nat.zero_add, entryOf_rootEntry] at hcopy
  exact hcopy

/-- A name is found, whatever it is. -/
theorem lookup_reaches (h : AtRoot n c) (hn : 1 ≤ n) {Q : Option Slot → Core → Prop}
    (hQ : ∀ c', AtRoot (n + 1) c' → Q (some slot₀) c') :
    MayUse u a (slot₀.lookup sb name) c Q := by
  unfold Slot.lookup
  refine Prog.meets_bind.mpr (reaches_inode ?_)
  have hsize : (c.inodes slot₀).size = Dirent.size := by rw [h]; rfl
  have hdir : (c.inodes slot₀).type = T_DIR := by rw [h]; rfl
  rw [hdir, if_pos rfl, hsize]
  refine Prog.meets_bind.mpr (reaches_inode ?_)
  rw [hsize, if_pos (by decide)]
  refine Prog.meets_bind.mpr (readEntry_reaches h name fun de hde => ?_)
  obtain ⟨hinum, hname⟩ := Prod.mk.inj hde
  have hdev : (c.inodes slot₀).dev = ROOTDEV := by rw [h]; rfl
  rw [hinum, if_neg (by decide), if_pos (namecmp_eq_zero.mpr hname.symm), hdev]
  exact Prog.meets_bind.mpr (iget_reaches h hn hQ)

/-- The next element of a path is looked up, and the directory is let go. -/
theorem lookupNext_reaches {next : Slot → FsM (Option Slot × Mem)} (h : AtRoot n c) (hn : 1 ≤ n)
    (name : Mem) {Q : Option Slot × Mem → Core → Prop}
    (hnext : ∀ c', AtRoot n c' → 1 ≤ n → MayUse u a (next slot₀) c' Q) : MayUse u a (do
      match ← slot₀.lookup sb name with
      | none => do
        slot₀.unlockput sb
        pure (none, name)
      | some ip => do
        slot₀.unlockput sb
        next ip) c Q := by
  refine Prog.meets_bind.mpr (lookup_reaches h hn fun c₁ h₁ => ?_)
  refine Prog.meets_bind.mpr (unlockput_reaches h₁ (by omega) fun c₂ h₂ => ?_)
  rw [Int.add_sub_cancel] at h₂
  exact hnext c₂ h₂ hn

/-! ### The string -/

section String

variable (hm : Live u path m) (ha : (path + m) % addrSpace = a)

include ha

theorem uchar_reaches {Q : Byte → Core → Prop}
    (hQ : i ≠ m → Q (u ((path + i) % addrSpace)) c) : MayUse u a (uchar (path + i)) c Q := by
  by_cases hi : i = m
  · refine Prog.meets_bind.mpr (reaches_uses ⟨0, Nat.one_pos, ?_⟩)
    rw [Nat.add_zero, Nat.mod_mod, hi, ha]
  · refine Prog.meets_bind.mpr (reaches_ask (o := .uload _ 1)
      (fun x => u (((path + i) % addrSpace + x) % addrSpace)) rfl (fun _ _ => rfl) ?_)
    have hQi := hQ hi
    rwa [← Nat.mod_mod, ← Nat.add_zero ((path + i) % addrSpace)] at hQi

theorem skipSlashes_reaches {k : ℕ} (hi : i ≤ m) (hk : m < i + k) {Q : ℕ → Core → Prop}
    (hQ : ∀ j, i ≤ j → j < m → u ((path + j) % addrSpace) ≠ slash → Q (path + j) c) :
    MayUse u a (skipSlashes k (path + i)) c Q := by
  induction k generalizing i with
  | zero => omega
  | succ k ih =>
    unfold skipSlashes
    refine Prog.meets_bind.mpr (uchar_reaches ha fun hne => ?_)
    split_ifs with hslash
    · exact ih (i := i + 1) (by omega) (by omega) fun j hj => hQ j (by omega)
    · exact hQ i le_rfl (by omega) hslash

include hm

theorem skipName_reaches {k : ℕ} (hi : i ≤ m) (hk : m < i + k) {Q : ℕ → Core → Prop}
    (hQ : ∀ j, i ≤ j → j < m → u ((path + j) % addrSpace) = slash → Q (path + j) c) :
    MayUse u a (skipName k (path + i)) c Q := by
  induction k generalizing i with
  | zero => omega
  | succ k ih =>
    unfold skipName
    refine Prog.meets_bind.mpr (uchar_reaches ha fun hne => ?_)
    split_ifs with hend
    · exact hQ i le_rfl (by omega) (hend.resolve_right (hm i (by omega)))
    · exact ih (i := i + 1) (by omega) (by omega) fun j hj => hQ j (by omega)

/-- An element is passed before the character, or else the character has been read. -/
theorem skipelem_reaches (hspace : m < addrSpace) (hi : i ≤ m) {Q : Option ℕ × Mem → Core → Prop}
    (hQ : ∀ k name', i < k → k < m → Q (some (path + k), name') c) :
    MayUse u a (skipelem (path + i) name) c Q := by
  unfold skipelem
  refine Prog.meets_bind.mpr (skipSlashes_reaches ha hi (by omega) fun j hij hjm hj => ?_)
  refine Prog.meets_bind.mpr (uchar_reaches ha fun _ => ?_)
  rw [if_neg (hm j hjm)]
  refine Prog.meets_bind.mpr (skipName_reaches hm ha hjm.le (by omega) fun l hjl hlm hl => ?_)
  have hlt : j < l := lt_of_le_of_ne hjl fun he => hj (he ▸ hl)
  have hload {b x : ℕ} {Q : Mem → Core → Prop} (hQ : ∀ src, Q src c) :
      MayUse u a (uload b x) c Q :=
    reaches_ask (o := .uload b x) (fun y => u ((b + y) % addrSpace)) rfl (fun _ _ => rfl) (hQ _)
  dsimp only
  split_ifs
  · refine Prog.meets_bind.mpr (hload fun src => ?_)
    refine Prog.meets_bind.mpr (skipSlashes_reaches ha hlm.le (by omega) fun k hlk hkm _ => ?_)
    exact hQ k _ (by omega) hkm
  · refine Prog.meets_bind.mpr (hload fun src => ?_)
    refine Prog.meets_bind.mpr (skipSlashes_reaches ha hlm.le (by omega) fun k hlk hkm _ => ?_)
    exact hQ k _ (by omega) hkm

theorem namexLoop_reaches (hspace : m < addrSpace) {k : ℕ} (hi : i ≤ m) (hk : m < i + k)
    (h : AtRoot n c) (hn : 1 ≤ n) (parent : Bool) {Q : Option Slot × Mem → Core → Prop} :
    MayUse u a (namexLoop sb parent k slot₀ (path + i) name) c Q := by
  induction k generalizing i n c name with
  | zero => omega
  | succ k ih =>
    have hdir : (c.inodes slot₀).type = T_DIR := by rw [h]; rfl
    unfold namexLoop
    refine Prog.meets_bind.mpr (skipelem_reaches hm ha hspace hi fun j name' hij hjm => ?_)
    have hnext := @lookupNext_reaches sb u a n c
      (fun ip => namexLoop sb parent k ip (path + j) name') h hn name' Q fun c' h' hn' =>
        ih hjm.le (by omega) h' hn'
    refine Prog.meets_bind.mpr (reaches_lock (by rw [h]; exact hn) (by rw [h]; rfl) ?_)
    refine Prog.meets_bind.mpr (reaches_inode ?_)
    rw [if_neg (not_not.mpr hdir)]
    cases parent with
    | true =>
      refine Prog.meets_bind.mpr (uchar_reaches ha fun _ => ?_)
      dsimp only
      rw [if_neg fun hc => hm j hjm hc.2]
      exact hnext
    | false =>
      refine Prog.meets_bind.mpr (Prog.meets_pure.mpr ?_)
      dsimp only
      rw [if_neg fun hc => Bool.false_ne_true hc.1]
      exact hnext

theorem namex_reaches (hspace : m < addrSpace) (h : AtRoot n c) (hn : 1 ≤ n) (parent : Bool)
    {Q : Option Slot × Mem → Core → Prop} :
    MayUse u a (namex sb slot₀ path parent name) c Q := by
  unfold namex
  refine Prog.meets_bind.mpr (uchar_reaches (i := 0) ha fun _ => ?_)
  split_ifs
  · refine Prog.meets_bind.mpr (iget_reaches h hn fun c' h' => ?_)
    exact namexLoop_reaches (i := 0) hm ha hspace (Nat.zero_le m) (by omega) h' (by omega) parent
  · refine Prog.meets_bind.mpr ?_
    exact namexLoop_reaches (i := 0) hm ha hspace (Nat.zero_le m) (by omega) h hn parent

end String

/-- An address of the string is that of a character less than a whole address space away. -/
theorem InString.exists_lt (h : InString u path a) :
    ∃ m < addrSpace, Live u path m ∧ (path + m) % addrSpace = a := by
  obtain ⟨k, hk, rfl⟩ := h
  refine ⟨k % addrSpace, Nat.mod_lt _ (by decide), hk.mono (Nat.mod_le _ _), ?_⟩
  rw [Nat.add_mod_mod]

/-- The first process is in the root directory. -/
theorem holding_atRoot {fd : ℤ} {x : File} : AtRoot 1 (holding fd x rootDir) := holding_inode

/-- Every character of its path is read by a call of `open`. -/
theorem sysOpen_reaches (ha : InString u path a) (mode : ℕ) {Q : ℤ → Core → Prop} :
    ∃ c, MayUse u a (sysOpen sb 0 path mode) c Q := by
  obtain ⟨m, hspace, hm, ha⟩ := ha.exists_lt
  have hnamex (parent : Bool) {Q : Option Slot × Mem → Core → Prop} :
      MayUse u a (namex sb slot₀ path parent nameInit) (holding 0 File.init rootDir) Q :=
    namex_reaches hm ha hspace holding_atRoot le_rfl parent
  refine ⟨holding 0 File.init rootDir, ?_⟩
  unfold sysOpen openInode create createWith nameiparent namei
  refine Prog.meets_bind.mpr (reaches_holding (Prog.meets_bind.mpr ?_))
  split_ifs
  · exact Prog.meets_bind.mpr (hnamex true)
  · exact Prog.meets_bind.mpr (Prog.meets_bind.mpr (hnamex false))

theorem sysChdir_reaches (ha : InString u path a) {Q : ℤ → Core → Prop} :
    ∃ c, MayUse u a (sysChdir sb 0 path) c Q := by
  obtain ⟨m, hspace, hm, ha⟩ := ha.exists_lt
  refine ⟨holding 0 File.init rootDir, ?_⟩
  unfold sysChdir namei
  refine Prog.meets_bind.mpr (reaches_holding (Prog.meets_bind.mpr (Prog.meets_bind.mpr ?_)))
  exact namex_reaches hm ha hspace holding_atRoot le_rfl false

end PathReach

end Multiplix.Fs
