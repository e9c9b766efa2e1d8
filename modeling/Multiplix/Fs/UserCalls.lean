import Multiplix.Fs.UserPaths

/-! The memory of the calling process that `File.read`, `File.write` and `File.stat` use. -/
namespace Multiplix.Fs
open Lib

/-- The address is that of one of `n` bytes from `addr` on. -/
def InBuffer (addr n a : ℕ) : Prop := ∃ k < n, a = (addr + k) % addrSpace

theorem InBuffer.mono {addr m n a : ℕ} (h : InBuffer addr m a) (hmn : m ≤ n) :
    InBuffer addr n a := by
  obtain ⟨k, hk, ha⟩ := h
  exact ⟨k, hk.trans_le hmn, ha⟩

/-- The most bytes that `File.read` stores. An inode takes the number for an unsigned one. -/
def readReach (n : ℤ) : ℕ := if 0 ≤ n then n.toNat else MAXFILE * BSIZE

/-- The fields of a `Stat` at `st`. -/
def InStat (st a : ℕ) : Prop := ∃ k < 24, (k < 12 ∨ 16 ≤ k) ∧ a = (st + k) % addrSpace

variable {sb : Superblock} {W : ℕ → Prop} {c : Core}

namespace FileId

variable (f : FileId) (addr : ℕ)

theorem readDevice_touches {n k i : ℕ} (h : i + k ≤ n) :
    Prog.Touches known (Op.Stores (InBuffer addr n)) (fun _ _ => True) (readDevice addr k i) c
      fun _ _ => True := by
  induction k generalizing i c with
  | zero => exact trivial
  | succ k ih =>
    unfold readDevice
    refine Prog.touches_bind.mpr ⟨trivial, fun b _ => ?_⟩
    refine Prog.touches_bind.mpr ⟨fun x hx => ?_, fun _ _ => ih (by omega)⟩
    refine ⟨i + x, by omega, ?_⟩
    rw [Nat.mod_add_mod, Nat.add_assoc]

theorem readInode_touches (ip : Slot) {n : ℤ} (hn : n < 2 ^ 31) (hn' : -2 ^ 31 ≤ n) :
    Prog.Touches known (Op.Stores (InBuffer addr (readReach n))) (fun _ _ => True)
      (f.readInode sb ip addr n) c fun _ _ => True := by
  have hok : ∀ o : Op, o.Silent → o.Stores (InBuffer addr (readReach n)) := fun o ho => ho.stores _
  unfold readInode
  refine (ip.aside_lock sb).then hok fun _ c₁ => ?_
  refine (aside_file f).then hok fun x c₂ => ?_
  refine Prog.Touches.bind (Q := fun _ _ => True) (Slot.read_touches ?_) fun r c₃ _ => ?_
  · intro i hi
    refine ⟨i, lt_of_lt_of_le hi ?_, rfl⟩
    have hleft : (c₂.inodes ip).left x.off (n % 2 ^ 32).toNat ≤ (n % 2 ^ 32).toNat := by
      unfold Inode.left
      split_ifs
      · exact Nat.zero_le _
      · omega
      · exact le_rfl
    unfold readReach
    split_ifs with hpos
    · rw [Int.emod_eq_of_lt hpos (by omega)] at hleft ⊢
      exact (min_le_left _ _).trans hleft
    · exact min_le_right _ _
  · obtain ⟨tot, b⟩ := r
    refine (f.aside_advance _).then hok fun _ c₄ => ?_
    exact ip.aside_unlock.then hok fun _ _ => trivial

/-- A read stores nothing outside of its buffer, and reads nothing of the process. -/
theorem read_touches {n : ℤ} (hn : n < 2 ^ 31) (hn' : -2 ^ 31 ≤ n) :
    Prog.Touches known (Op.Stores (InBuffer addr (readReach n))) (fun _ _ => True)
      (f.read sb addr n) c fun _ _ => True := by
  have hok : ∀ o : Op, o.Silent → o.Stores (InBuffer addr (readReach n)) := fun o ho => ho.stores _
  unfold read
  refine (aside_file f).then hok fun x c₁ => ?_
  split_ifs
  · exact trivial
  · cases x.type with
    | pipe => exact trivial
    | device =>
      refine (readDevice_touches addr ?_).bind fun _ _ _ => trivial
      unfold readReach
      split_ifs
      · omega
      · omega
    | inode =>
      refine (aside_deref x.ip).then hok fun ip c₂ => ?_
      exact f.readInode_touches addr ip hn hn'
    | none => exact trivial

theorem writeInode_touches (ip : Slot) {n k i : ℕ} :
    Prog.Touches known (Op.Loads (InBuffer addr n)) (fun _ _ => True)
      (f.writeInode sb ip addr n k i) c fun _ _ => True := by
  have hok : ∀ o : Op, o.Silent → o.Loads (InBuffer addr n) := fun o ho => ho.loads _
  induction k generalizing i c with
  | zero => exact trivial
  | succ k ih =>
    unfold writeInode
    split_ifs with hlt
    · refine (ip.aside_lock sb).then hok fun _ c₁ => ?_
      refine (aside_file f).then hok fun x c₂ => ?_
      have hfits : (Buffer.user ((addr + i) % addrSpace)).Fits (InBuffer addr n)
          (min (n - i) maxWrite) := by
        intro j hj
        refine ⟨i + j, by omega, ?_⟩
        rw [Nat.mod_add_mod, Nat.add_assoc]
      refine (Slot.write_touches hok fun o m c hm => hfits.get hm).bind fun r c₃ _ => ?_
      refine (f.aside_advance _).then hok fun _ c₄ => ?_
      refine ip.aside_unlock.then hok fun _ c₅ => ?_
      split_ifs
      · exact trivial
      · exact ih
    · exact trivial

/-- A write reads nothing outside of its buffer, and stores nothing in the process. A device takes
the number for an unsigned one. -/
theorem write_touches {n : ℤ} (hn : n < 2 ^ 64) :
    Prog.Touches known (Op.Loads (InBuffer addr (n % addrSpace).toNat)) (fun _ _ => True)
      (f.write sb addr n) c fun _ _ => True := by
  have hok : ∀ o : Op, o.Silent → o.Loads (InBuffer addr (n % addrSpace).toNat) :=
    fun o ho => ho.loads _
  unfold write
  refine (aside_file f).then hok fun x c₁ => ?_
  split_ifs
  · exact trivial
  · cases x.type with
    | pipe => exact trivial
    | device =>
      refine Prog.touches_bind.mpr ⟨fun x hx => ⟨x, hx, ?_⟩, fun m _ => ?_⟩
      · rw [Nat.mod_add_mod]
      · exact Prog.touches_bind.mpr ⟨trivial, fun _ _ => trivial⟩
    | inode =>
      refine (aside_deref x.ip).then hok fun ip c₂ => ?_
      have hspace : (addrSpace : ℤ) = 2 ^ 64 := rfl
      have hle : n.toNat ≤ (n % addrSpace).toNat := by
        rw [hspace]
        omega
      have hloop := @writeInode_touches sb c₂ f addr ip n.toNat n.toNat 0
      refine Prog.Touches.bind (Q := fun _ _ => True) ?_ fun i c₃ _ => trivial
      exact hloop.weaken (fun o ho => ho.mono fun a ha => ha.mono hle) fun _ _ _ _ => trivial
    | none => exact trivial

theorem ustoreWord_touches {st o n : ℕ} (v : ℕ) (h : ∀ i < n, o + i < 12 ∨ 16 ≤ o + i)
    (h' : o + n ≤ 24) : Prog.Touches known (Op.Stores (InStat st)) (fun _ _ => True)
      (ustoreWord (st + o) n v) c fun _ _ => True := by
  refine ⟨fun i hi => ⟨o + i, by omega, h i hi, ?_⟩, fun _ _ => trivial⟩
  rw [Nat.mod_add_mod, Nat.add_assoc]

theorem stat_touches (st : ℕ) : Prog.Touches known (Op.Stores (InStat st)) (fun _ _ => True)
    (f.stat sb st) c fun _ _ => True := by
  have hok : ∀ o : Op, o.Silent → o.Stores (InStat st) := fun o ho => ho.stores _
  unfold stat
  refine (aside_file f).then hok fun x c₁ => ?_
  split_ifs
  · refine (aside_deref x.ip).then hok fun ip c₂ => ?_
    refine (ip.aside_lock sb).then hok fun _ c₃ => ?_
    refine Prog.Touches.bind (Q := fun _ _ => True) ?_ fun _ c₄ _ => ?_
    · unfold Slot.stat
      refine (aside_inode ip).then hok fun i c₄ => ?_
      refine (ustoreWord_touches (o := 0) _ (by omega) (by omega)).bind fun _ c₅ _ => ?_
      refine (ustoreWord_touches (o := 4) _ (by omega) (by omega)).bind fun _ c₆ _ => ?_
      refine (ustoreWord_touches (o := 8) _ (by omega) (by omega)).bind fun _ c₇ _ => ?_
      refine (ustoreWord_touches (o := 10) _ (by omega) (by omega)).bind fun _ c₈ _ => ?_
      exact ustoreWord_touches (o := 16) _ (by omega) (by omega)
    · exact ip.aside_unlock.then hok fun _ _ => trivial
  · exact trivial

end FileId

/-- Descriptors that a process can have. -/
def InRange (fd : ℤ) : Prop := 0 ≤ fd ∧ fd.toNat < nofile

theorem InRange.of_checkfd {x : Process} {fd : ℤ} {y : Fin nofile × FileId}
    (h : checkfd x fd = some y) : InRange fd := by
  unfold checkfd at h
  split_ifs at h with hfd
  exact hfd

/-- What a call does with its file, where it has one and its buffer is accepted. -/
theorem sysTransfer_touches {ok : Op → Prop} (hok : ∀ o : Op, o.Silent → ok o) {p : ℕ} {fd : ℤ}
    {sz : ℕ} {valid : Bool} {go : FileId → FsM ℤ}
    (hgo : valid = true → InRange fd → ∀ f c,
      Prog.Touches known ok (fun _ _ => True) (go f) c fun _ _ => True) :
    Prog.Touches known ok (fun _ _ => True) (sysTransfer p fd sz valid go) c fun _ _ => True := by
  unfold sysTransfer
  by_cases hsz : sz = 0
  · rw [if_pos hsz]
    exact trivial
  · rw [if_neg hsz]
    refine (aside_proc p).then hok fun x c' => ?_
    rcases hfd : checkfd x fd with _ | ⟨i, f⟩
    · exact trivial
    · cases hvalid : valid with
      | false => exact trivial
      | true => exact hgo hvalid (.of_checkfd hfd) f c'

theorem toInt_bounds (sz : ℕ) : -2 ^ 31 ≤ (BitVec.ofNat 32 sz).toInt ∧
    (BitVec.ofNat 32 sz).toInt < 2 ^ 31 := by
  rw [BitVec.toInt_eq_toNat_cond]
  have hlt := (BitVec.ofNat 32 sz).isLt
  split_ifs
  · omega
  · omega

/-- No call uses more than it is given: a number that becomes negative was large. -/
theorem readReach_le (sz : ℕ) : readReach (BitVec.ofNat 32 sz).toInt ≤ sz := by
  have hmax : MAXFILE * BSIZE < 2 ^ 31 := by decide
  have hmod : (BitVec.ofNat 32 sz).toNat = sz % 2 ^ 32 := BitVec.toNat_ofNat sz 32
  rw [readReach, BitVec.toInt_eq_toNat_cond]
  split_ifs
  · omega
  · omega
  · omega
  · omega

section Calls

variable {p : ℕ} {fd : ℤ} {addr sz st : ℕ} {valid : Bool}

/-- A call of `read` stores only the bytes that its file can have in its buffer. -/
theorem sysRead_touches (hW : valid = true → InRange fd → ∀ a,
      InBuffer addr (readReach (BitVec.ofNat 32 sz).toInt) a → W a) :
    Prog.Touches known (Op.Stores W) (fun _ _ => True) (sysRead sb p fd addr sz valid) c
      fun _ _ => True := by
  obtain ⟨hlow, hhigh⟩ := toInt_bounds sz
  refine sysTransfer_touches (fun o ho => ho.stores W) fun hvalid hfd f c => ?_
  exact (f.read_touches addr hhigh hlow).weaken (fun o ho => ho.mono (hW hvalid hfd))
    fun _ _ _ _ => trivial

theorem sysWrite_touches (hW : valid = true → InRange fd → ∀ a,
      InBuffer addr ((BitVec.ofNat 32 sz).toInt % addrSpace).toNat a → W a) :
    Prog.Touches known (Op.Loads W) (fun _ _ => True) (sysWrite sb p fd addr sz valid) c
      fun _ _ => True := by
  obtain ⟨-, hhigh⟩ := toInt_bounds sz
  refine sysTransfer_touches (fun o ho => ho.loads W) fun hvalid hfd f c => ?_
  exact (f.write_touches addr (by omega)).weaken (fun o ho => ho.mono (hW hvalid hfd))
    fun _ _ _ _ => trivial

theorem sysFstat_touches (hW : InRange fd → ∀ a, InStat st a → W a) :
    Prog.Touches known (Op.Stores W) (fun _ _ => True) (sysFstat sb p fd st) c
      fun _ _ => True := by
  unfold sysFstat
  refine (aside_proc p).then (fun o ho => ho.stores W) fun x c' => ?_
  rcases hfd : checkfd x fd with _ | ⟨i, f⟩
  · exact trivial
  · exact (f.stat_touches st).weaken (fun o ho => ho.mono (hW (.of_checkfd hfd)))
      fun _ _ _ _ => trivial

end Calls

end Multiplix.Fs
