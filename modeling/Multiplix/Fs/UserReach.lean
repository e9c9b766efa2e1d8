import Multiplix.Fs.UserCalls

/-! Every byte that `read`, `write` and `fstat` may use of the calling process is used by some call:
one on a device, or on a file of the largest size. -/
namespace Multiplix.Fs
open Lib

/-- The operation uses the byte of the process at an address. -/
def Op.Uses (a : ℕ) : Op → Prop
  | .uload b n | .ustore b n _ => ∃ i < n, (b + i) % addrSpace = a
  | _ => False

/-- Bytes of the process are used only where `W` says. -/
def Op.Within (W : ℕ → Prop) : Op → Prop
  | .uload a n | .ustore a n _ => ∀ i < n, W ((a + i) % addrSpace)
  | _ => True

theorem Op.Silent.within {o : Op} (h : o.Silent) (W : ℕ → Prop) : o.Within W := by
  cases o with
  | uload | ustore => exact h.elim
  | _ => trivial

theorem Op.Loads.within {W : ℕ → Prop} {o : Op} (h : o.Loads W) : o.Within W := by
  cases o with
  | uload b n => exact h
  | ustore => exact h.elim
  | _ => trivial

theorem Op.Stores.within {W : ℕ → Prop} {o : Op} (h : o.Stores W) : o.Within W := by
  cases o with
  | ustore b n m => exact h
  | uload => exact h.elim
  | _ => trivial

theorem Op.exists_reads (u : Mem) (o : Op) : ∃ r, o.Reads u r := by
  cases o with
  | uload a n => exact ⟨fun i => u ((a + i) % addrSpace), fun _ _ => rfl⟩
  | data b => exact ⟨fun _ => 0, trivial⟩
  | inode ip => exact ⟨Inode.init, trivial⟩
  | file f => exact ⟨File.init, trivial⟩
  | proc p => exact ⟨Core.init.procs 0, trivial⟩
  | rx => exact ⟨0, trivial⟩
  | _ => exact ⟨(), trivial⟩

theorem Op.Uses.within {a : ℕ} {W : ℕ → Prop} {o : Op} (h : o.Uses a) (hW : o.Within W) : W a := by
  cases o with
  | uload | ustore =>
    obtain ⟨i, hi, rfl⟩ := h
    exact hW i hi
  | _ => exact h.elim

/-- Some run, in which the memory of the process is `u`, uses the byte at `a`, or ends as `Q`
says. -/
abbrev MayUse (u : Mem) (a : ℕ) {α : Type} (p : FsM α) (c : Core) (Q : α → Core → Prop) : Prop :=
  Prog.Meets known (Op.Uses a) (Op.Reads u) p c Q

/-- A run with a byte that is used. -/
theorem MayUse.exists_trace {u : Mem} {a : ℕ} {α : Type} {p : FsM α} {c : Core}
    (h : MayUse u a p c fun _ _ => False) : ∃ (τ : Type) (J : Outside τ) (t : τ),
      (∀ o t t' r, J o t = .ok (t', r) → o.Reads u r) ∧
        ∃ o ∈ p.trace (known.extend J) (c, t), o.Uses a := by
  obtain ⟨t, o, ho, huses⟩ := h.trace (Op.exists_reads u)
  exact ⟨_, Prog.oracle (Op.Reads u), t, fun _ _ _ _ => Prog.oracle_answers, o, ho, huses⟩

section MayUse

variable {sb : Superblock} {u : Mem} {a : ℕ} {c c' : Core} {o : Op} {ip : Slot} {f : FileId}

/-- What is known of an operation. -/
theorem reaches_known {r : Ans o} {Q : Ans o → Core → Prop} (h : known o c = some (.ok (c', r)))
    (hQ : Q r c') : MayUse u a (Prog.perform o) c Q := by
  unfold Prog.perform Prog.Meets
  rw [h]
  exact Or.inr hQ

/-- An operation has the answer that is asked for. -/
theorem reaches_ask (r : Ans o) {Q : Ans o → Core → Prop} (h : known o c = none)
    (hr : o.Reads u r) (hQ : Q r c) : MayUse u a (Prog.perform o) c Q := by
  unfold Prog.perform Prog.Meets
  rw [h]
  exact Or.inr ⟨r, hr, hQ⟩

theorem reaches_uses {Q : Ans o → Core → Prop} (h : o.Uses a) :
    MayUse u a (Prog.perform o) c Q := by
  unfold Prog.perform Prog.Meets
  exact Or.inl h

theorem reaches_inode {Q : Inode → Core → Prop} (hQ : Q (c.inodes ip) c) :
    MayUse u a (inode ip) c Q := reaches_known (o := .inode ip) rfl hQ

theorem reaches_file {Q : File → Core → Prop} (hQ : Q (c.files f) c) : MayUse u a (file f) c Q :=
  reaches_known (o := .file f) rfl hQ

theorem reaches_bread {dev b : ℕ} {Q : Key → Core → Prop} (hQ : Q (dev, b) c) :
    MayUse u a (bread dev b) c Q :=
  Prog.meets_bind.mpr (reaches_ask (o := .bread (dev, b)) () rfl trivial hQ)

theorem reaches_data {b : Key} (d : Mem) {Q : Mem → Core → Prop} (hQ : Q d c) :
    MayUse u a (data b) c Q := reaches_ask (o := .data b) d rfl trivial hQ

theorem reaches_brelease {b : Key} {Q : Unit → Core → Prop} (hQ : Q () c) :
    MayUse u a (brelease b) c Q := reaches_ask (o := .brelease b) () rfl trivial hQ

/-- A write of bytes uses one of them, or goes on. -/
theorem reaches_ustore {b n : ℕ} {m : Mem} {Q : Unit → Core → Prop}
    (h : (∀ i < n, (b + i) % addrSpace ≠ a) → Q () c) :
    MayUse u a (Prog.perform (Op.ustore b n m)) c Q := by
  by_cases hin : ∃ i < n, (b + i) % addrSpace = a
  · exact reaches_uses hin
  · refine reaches_ask (o := .ustore b n m) () rfl trivial (h fun i hi he => hin ⟨i, hi, he⟩)

theorem reaches_proc {p : ℕ} (h : p ∈ c.live) {Q : Process → Core → Prop} (hQ : Q (c.procs p) c) :
    MayUse u a (proc p) c Q := reaches_known (o := .proc p) (if_pos h) hQ

/-- An inode that has been read from the disk is locked at once. -/
theorem reaches_lock (href : 1 ≤ (c.inodes ip).refcnt) (hvalid : (c.inodes ip).valid = true)
    {Q : Unit → Core → Prop} (hQ : Q () c) : MayUse u a (ip.lock sb) c Q := by
  refine Prog.meets_bind.mpr (reaches_inode ?_)
  rw [if_neg (not_not.mpr href), if_pos hvalid]
  exact hQ

theorem reaches_unlock (href : 1 ≤ (c.inodes ip).refcnt) {Q : Unit → Core → Prop} (hQ : Q () c) :
    MayUse u a ip.unlock c Q := by
  refine Prog.meets_bind.mpr (reaches_inode ?_)
  rw [if_neg (not_not.mpr href)]
  exact hQ

/-! ### Reads -/

theorem readDevice_reaches {addr k i x : ℕ} (hx : x < k) (ha : (addr + (i + x)) % addrSpace = a)
    {Q : Unit → Core → Prop} : MayUse u a (FileId.readDevice addr k i) c Q := by
  induction k generalizing i x with
  | zero => exact absurd hx (Nat.not_lt_zero x)
  | succ k ih =>
    unfold FileId.readDevice
    refine Prog.meets_bind.mpr (reaches_ask (o := .rx) 0 rfl trivial ?_)
    refine Prog.meets_bind.mpr (reaches_ustore fun hno => ?_)
    cases x with
    | zero =>
      refine absurd ?_ (hno 0 Nat.one_pos)
      rwa [Nat.add_zero, Nat.mod_mod, ← Nat.add_zero i]
    | succ x =>
      refine ih (Nat.lt_of_succ_lt_succ hx) ?_
      rwa [Nat.add_assoc i, Nat.add_comm 1 x]

section Mapped

variable (hmapped : ∀ m, (c.inodes ip).addrs m ≠ 0)

include hmapped

theorem direct_reaches {m : Fin (NDIRECT + 1)} {Q : ℕ → Core → Prop}
    (hQ : Q ((c.inodes ip).addrs m) c) : MayUse u a (ip.direct sb m) c Q := by
  refine Prog.meets_bind.mpr (reaches_inode ?_)
  rw [if_neg (hmapped m)]
  exact hQ

theorem bmap_reaches {bn : ℕ} (hbn : bn < MAXFILE) {Q : ℕ → Core → Prop} (hQ : ∀ b ≠ 0, Q b c) :
    MayUse u a (ip.bmap sb bn) c Q := by
  have hmax : MAXFILE = NDIRECT + NINDIRECT := rfl
  have hones (x : ℕ) : Mem.load 4 (fun _ => 1) x ≠ 0 := by
    have hload : Mem.load 4 (fun _ => 1) x = 0x01010101 := by
      simp [Mem.load]
    rw [hload]
    decide
  unfold Slot.bmap
  split_ifs with hdirect hindirect
  · exact direct_reaches hmapped (hQ _ (hmapped _))
  · refine Prog.meets_bind.mpr (direct_reaches hmapped ?_)
    rw [if_neg (hmapped _)]
    refine Prog.meets_bind.mpr (reaches_inode ?_)
    refine Prog.meets_bind.mpr (reaches_bread ?_)
    refine Prog.meets_bind.mpr (reaches_data (fun _ => 1) ?_)
    rw [if_neg (hones _)]
    exact Prog.meets_bind.mpr (reaches_brelease (hQ _ (hones _)))
  · omega

/-- A file without holes is read to its end. -/
theorem readLoop_reaches {addr n k tot x : ℕ} (hn : n ≤ MAXFILE * BSIZE) (hk : n - tot ≤ k)
    (hx : tot ≤ x) (hx' : x < n) (ha : (addr + x) % addrSpace = a)
    {Q : ℕ × Buffer → Core → Prop} : MayUse u a (ip.readLoop sb k (.user addr) tot tot n) c Q := by
  induction k generalizing tot with
  | zero => omega
  | succ k ih =>
    have hlt : tot < n := by omega
    have hbn : tot / BSIZE < MAXFILE := Nat.div_lt_of_lt_mul (by rw [Nat.mul_comm]; omega)
    have hmod : tot % BSIZE < BSIZE := Nat.mod_lt _ (by decide)
    obtain ⟨m, hm⟩ : ∃ m, m = min (n - tot) (BSIZE - tot % BSIZE) := ⟨_, rfl⟩
    rw [Slot.readLoop, if_pos hlt]
    refine Prog.meets_bind.mpr (bmap_reaches hmapped hbn fun b hb => ?_)
    rw [if_neg hb, ← hm]
    refine Prog.meets_bind.mpr (reaches_inode ?_)
    refine Prog.meets_bind.mpr (reaches_bread ?_)
    refine Prog.meets_bind.mpr (reaches_data (fun _ => 1) ?_)
    refine Prog.meets_bind.mpr (Prog.meets_bind.mpr (reaches_ustore fun hno => ?_))
    refine Prog.meets_bind.mpr (reaches_brelease ?_)
    have hout : ¬x < tot + m := fun hin => by
      refine hno (x - tot) (by omega) ?_
      rw [Nat.mod_add_mod, Nat.add_assoc, Nat.add_sub_cancel' hx]
      exact ha
    exact ih (by omega) (not_lt.mp hout)

end Mapped

end MayUse

/-- The first process has one file, which may be that of the first inode. -/
def holding (fd : ℤ) (x : File) (i : Inode) : Core :=
  ({ Core.init with inodes := Function.update Core.init.inodes slot₀ i }.setFile file₀ x).setProc 0
    ⟨fun fd' => if fd'.val = fd.toNat then some file₀ else none, slot₀, none, false⟩

/-- A file of the largest size, whose blocks are all mapped. -/
def wholeInode : Inode :=
  { Inode.init with
    refcnt := 1, valid := true, type := T_FILE, nlink := 1, size := MAXFILE * BSIZE
    addrs := fun _ => 1 }

/-- It can be read and written, and so can a device. -/
def wholeFile : File :=
  { File.init with
    type := .inode, refcnt := 1, readable := true, writable := true, ip := some slot₀ }

def deviceFile : File :=
  { File.init with type := .device, refcnt := 1, readable := true, writable := true }

section Holding

variable {sb : Superblock} {u : Mem} {a addr sz k st : ℕ} {fd n : ℤ} {x : File} {i : Inode}

@[simp] theorem holding_file : (holding fd x i).files file₀ = x := by
  unfold holding
  rw [Core.setProc_files, Core.setFile_files, Function.update_self]

@[simp] theorem holding_inode : (holding fd x i).inodes slot₀ = i := by
  unfold holding
  rw [Core.setProc_inodes, Core.setFile_inodes]
  exact Function.update_self slot₀ i Core.init.inodes

theorem holding_checkfd (hfd : InRange fd) :
    checkfd ((holding fd x i).procs 0) fd = some (⟨fd.toNat, hfd.2⟩, file₀) := by
  have hproc : ((holding fd x i).procs 0).ofile ⟨fd.toNat, hfd.2⟩ = some file₀ := if_pos rfl
  have hin : 0 ≤ fd ∧ fd.toNat < nofile := hfd
  unfold checkfd
  rw [dif_pos hin]
  exact congrArg (Option.map fun f => ((⟨fd.toNat, hfd.2⟩, f) : Fin nofile × FileId)) hproc

theorem reaches_holding {Q : Process → Core → Prop}
    (hQ : Q ((holding fd x i).procs 0) (holding fd x i)) : MayUse u a (proc 0) (holding fd x i) Q :=
  reaches_proc (Finset.mem_insert_self 0 _) hQ

theorem sysTransfer_reaches (hfd : InRange fd) (hsz : sz ≠ 0) {go : FileId → FsM ℤ}
    {Q : ℤ → Core → Prop} (h : MayUse u a (go file₀) (holding fd x i) Q) :
    MayUse u a (sysTransfer 0 fd sz true go) (holding fd x i) Q := by
  unfold sysTransfer
  rw [if_neg hsz]
  refine Prog.meets_bind.mpr (reaches_holding ?_)
  rw [holding_checkfd hfd]
  exact h

theorem read_device_reaches (hk : k < n.toNat) (ha : (addr + k) % addrSpace = a)
    {Q : ℤ → Core → Prop} :
    MayUse u a (file₀.read sb addr n) (holding fd deviceFile i) Q := by
  refine Prog.meets_bind.mpr (reaches_file ?_)
  rw [holding_file]
  exact Prog.meets_bind.mpr (readDevice_reaches hk (by rwa [Nat.zero_add]))

/-- A negative number is a large one for the inode. -/
theorem read_whole_reaches (hn : n < 0) (hn' : -2 ^ 31 ≤ n) (hk : k < MAXFILE * BSIZE)
    (ha : (addr + k) % addrSpace = a) {Q : ℤ → Core → Prop} :
    MayUse u a (file₀.read sb addr n) (holding fd wholeFile wholeInode) Q := by
  have hmax : MAXFILE * BSIZE < 2 ^ 31 := by decide
  have hinode : (holding fd wholeFile wholeInode).inodes slot₀ = wholeInode := holding_inode
  have hmapped : ∀ m, ((holding fd wholeFile wholeInode).inodes slot₀).addrs m ≠ 0 := fun m => by
    rw [hinode]
    exact one_ne_zero
  refine Prog.meets_bind.mpr (reaches_file ?_)
  rw [holding_file]
  change MayUse u a (FileId.readInode sb file₀ slot₀ addr n) _ Q
  refine Prog.meets_bind.mpr (reaches_lock (by rw [hinode]; exact le_rfl) (by rw [hinode]; rfl) ?_)
  refine Prog.meets_bind.mpr (reaches_file ?_)
  rw [holding_file]
  refine Prog.meets_bind.mpr (Prog.meets_bind.mpr (reaches_inode ?_))
  have hlong : 2 ^ 31 ≤ (n % 2 ^ 32).toNat ∧ (n % 2 ^ 32).toNat < 2 ^ 32 := by omega
  obtain ⟨m, hm⟩ : ∃ m, m = (n % 2 ^ 32).toNat := ⟨_, rfl⟩
  have hoff : wholeFile.off = 0 := rfl
  have hsize : wholeInode.size = MAXFILE * BSIZE := rfl
  rw [← hm] at hlong ⊢
  rw [hinode, hoff, hsize, if_neg (by omega)]
  dsimp only
  rw [if_pos (by omega), Nat.sub_zero]
  exact readLoop_reaches hmapped le_rfl (Nat.sub_le _ _) (Nat.zero_le k) hk ha

/-- Every byte that a call of `read` may store is stored by some call. -/
theorem sysRead_reaches (hfd : InRange fd) (hk : k < readReach (BitVec.ofNat 32 sz).toInt)
    (ha : (addr + k) % addrSpace = a) {Q : ℤ → Core → Prop} :
    ∃ c, MayUse u a (sysRead sb 0 fd addr sz true) c Q := by
  have hsz : sz ≠ 0 := by
    rintro rfl
    exact absurd hk (Nat.not_lt_zero k)
  unfold readReach at hk
  split_ifs at hk with hpos
  · exact ⟨_, sysTransfer_reaches (i := wholeInode) hfd hsz (read_device_reaches hk ha)⟩
  · exact ⟨_, sysTransfer_reaches hfd hsz
      (read_whole_reaches (not_le.mp hpos) (toInt_bounds sz).1 hk ha)⟩

/-- A device takes a negative number for a large one, too. -/
theorem sysWrite_reaches (hfd : InRange fd)
    (hk : k < ((BitVec.ofNat 32 sz).toInt % addrSpace).toNat) (ha : (addr + k) % addrSpace = a)
    {Q : ℤ → Core → Prop} : ∃ c, MayUse u a (sysWrite sb 0 fd addr sz true) c Q := by
  have hsz : sz ≠ 0 := by
    rintro rfl
    exact absurd hk (Nat.not_lt_zero k)
  refine ⟨holding fd deviceFile Inode.init, sysTransfer_reaches hfd hsz ?_⟩
  refine Prog.meets_bind.mpr (reaches_file ?_)
  rw [holding_file]
  refine Prog.meets_bind.mpr (reaches_uses ⟨k, hk, ?_⟩)
  rw [Nat.mod_add_mod]
  exact ha

theorem ustoreWord_reaches {c : Core} {o m v : ℕ} {Q : Unit → Core → Prop}
    (h : (∀ j, o ≤ j → j < o + m → (st + j) % addrSpace ≠ a) → Q () c) :
    MayUse u a (ustoreWord (st + o) m v) c Q := by
  refine reaches_ustore fun hno => h fun j hj hj' he => ?_
  refine hno (j - o) (by omega) ?_
  rw [Nat.mod_add_mod, Nat.add_assoc, Nat.add_sub_cancel' hj]
  exact he

/-- Every field of a `Stat` is written by a call of `fstat`. -/
theorem sysFstat_reaches (hfd : InRange fd) (ha : InStat st a) {Q : ℤ → Core → Prop} :
    ∃ c, MayUse u a (sysFstat sb 0 fd st) c Q := by
  obtain ⟨k, hk, hfield, rfl⟩ := ha
  have hinode : (holding fd wholeFile wholeInode).inodes slot₀ = wholeInode := holding_inode
  refine ⟨holding fd wholeFile wholeInode, ?_⟩
  unfold sysFstat
  refine Prog.meets_bind.mpr (reaches_holding ?_)
  rw [holding_checkfd hfd]
  refine Prog.meets_bind.mpr (reaches_file ?_)
  rw [holding_file]
  change MayUse u _ (do
    slot₀.lock sb
    slot₀.stat st
    slot₀.unlock
    pure 0) _ Q
  refine Prog.meets_bind.mpr (reaches_lock (by rw [hinode]; exact le_rfl) (by rw [hinode]; rfl) ?_)
  refine Prog.meets_bind.mpr (Prog.meets_bind.mpr (reaches_inode ?_))
  refine Prog.meets_bind.mpr (ustoreWord_reaches (o := 0) fun h0 => ?_)
  refine Prog.meets_bind.mpr (ustoreWord_reaches fun h4 => ?_)
  refine Prog.meets_bind.mpr (ustoreWord_reaches fun h8 => ?_)
  refine Prog.meets_bind.mpr (ustoreWord_reaches fun h10 => ?_)
  refine ustoreWord_reaches fun h16 => ?_
  have hmissed : ¬k < 4 ∧ ¬(4 ≤ k ∧ k < 8) ∧ ¬(8 ≤ k ∧ k < 10) ∧ ¬(10 ≤ k ∧ k < 12) ∧ ¬16 ≤ k :=
    ⟨fun h => h0 k (Nat.zero_le k) (by omega) rfl, fun h => h4 k h.1 (by omega) rfl,
      fun h => h8 k h.1 (by omega) rfl, fun h => h10 k h.1 (by omega) rfl,
      fun h => h16 k h (by omega) rfl⟩
  omega

end Holding

end Multiplix.Fs
