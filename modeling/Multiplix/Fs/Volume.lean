import Multiplix.Fs.Store
import Multiplix.Lib.Blocks

/-! Which blocks of a disk are in use, by which inode, and the bytes of a file. -/
namespace Multiplix.Fs
open Lib

/-- The inodes, the bitmap and the data follow each other on the disk, and the number of a block
fits in the words that keep it. -/
structure Superblock.Laid (sb : Superblock) : Prop where
  inodes : sb.inodestart + sb.ninodes / IPB < sb.bmapstart
  bitmap : sb.bmapstart + sb.size / BPB < sb.size - sb.nblocks
  size : sb.size + BPB ≤ 256 ^ 4

namespace Superblock.Laid

variable {sb : Superblock} (h : sb.Laid)

include h

theorem iblock_lt {n : ℕ} (hn : n < sb.ninodes) : iblock n sb < sb.bmapstart := by
  have hdiv : n / IPB ≤ sb.ninodes / IPB := Nat.div_le_div_right hn.le
  have hin := h.inodes
  unfold iblock
  omega

theorem bblock_lt {b : ℕ} (hb : b < sb.size) : bblock b sb < sb.size - sb.nblocks := by
  have hdiv : b / BPB ≤ sb.size / BPB := Nat.div_le_div_right hb.le
  have hbm := h.bitmap
  unfold bblock
  omega

theorem iblock_ne_bblock {n b : ℕ} (hn : n < sb.ninodes) : iblock n sb ≠ bblock b sb := by
  have hlt := h.iblock_lt hn
  have hle : sb.bmapstart ≤ bblock b sb := Nat.le_add_left _ _
  omega

theorem iblock_lt_meta {n : ℕ} (hn : n < sb.ninodes) : iblock n sb < sb.size - sb.nblocks := by
  have hlt := h.iblock_lt hn
  have hle := (Nat.le_add_right sb.bmapstart (sb.size / BPB)).trans_lt h.bitmap
  omega

end Superblock.Laid

/-- A place where an inode refers to a block: one of its addresses, or an entry of its indirect
block. -/
inductive Place
  | addr (n : Fin (NDIRECT + 1))
  | entry (j : ℕ)
  deriving DecidableEq

/-- Where `bmap` looks for a block of a file. -/
def place (bn : ℕ) : Place :=
  if h : bn < NDIRECT then .addr ⟨bn, Nat.lt_succ_of_lt h⟩ else .entry (bn - NDIRECT)

theorem place_ne_last (bn : ℕ) : place bn ≠ .addr (Fin.last NDIRECT) := by
  unfold place
  split_ifs with h
  · intro he
    rw [Place.addr.injEq, Fin.ext_iff] at he
    exact absurd he h.ne
  · exact Place.noConfusion

theorem place_inj {bn bn' : ℕ} (h : place bn = place bn') : bn = bn' := by
  unfold place at h
  split_ifs at h with h₁ h₂ h₂
  · rw [Place.addr.injEq, Fin.ext_iff] at h
    exact h
  · rw [Place.entry.injEq] at h
    omega

namespace Inode

variable (disk : ℕ → Mem) (i : Inode)

/-- What an inode has at a place, on a device with these blocks. -/
def pointer : Place → ℕ
  | .addr n => i.addrs n
  | .entry j =>
    if i.addrs (Fin.last NDIRECT) = 0 ∨ NINDIRECT ≤ j then 0
    else (disk (i.addrs (Fin.last NDIRECT))).load 4 (4 * j)

variable {disk i}

theorem pointer_hole {j : ℕ} (h : i.addrs (Fin.last NDIRECT) = 0 ∨ NINDIRECT ≤ j) :
    i.pointer disk (.entry j) = 0 := if_pos h

theorem pointer_entry {a j : ℕ} (h : i.addrs (Fin.last NDIRECT) = a) (ha : a ≠ 0)
    (hj : j < NINDIRECT) : i.pointer disk (.entry j) = (disk a).load 4 (4 * j) := by
  subst h
  exact if_neg (not_or.mpr ⟨ha, Nat.not_le.mpr hj⟩)

variable (disk i)

/-- A block of a file. Where there is none yet, it reads as zeros. -/
def block (bn : ℕ) : Mem :=
  if i.pointer disk (place bn) = 0 then fun _ => 0 else disk (i.pointer disk (place bn))

/-- The bytes of a file. -/
def contents : Mem := Mem.ofBlocks BSIZE (i.block disk)

end Inode

/-- In memory, the two stand for the same inode. -/
structure Inode.Like (i j : Inode) : Prop where
  refcnt : i.refcnt = j.refcnt
  dev : i.dev = j.dev
  inum : i.inum = j.inum
  valid : i.valid = j.valid

/-- The slot is that of an inode in use. -/
def Core.Holds (c : Core) (d n : ℕ) (ip : Slot) : Prop :=
  0 < (c.inodes ip).refcnt ∧ (c.inodes ip).dev = d ∧ (c.inodes ip).inum = n

/-- The inode is in memory. -/
def Core.Caches (c : Core) (d n : ℕ) (ip : Slot) : Prop :=
  c.Holds d n ip ∧ (c.inodes ip).valid = true

instance (c : Core) (d n : ℕ) (ip : Slot) : Decidable (c.Caches d n ip) :=
  inferInstanceAs (Decidable ((_ ∧ _ ∧ _) ∧ _))

def Core.cached (c : Core) (d n : ℕ) : Option Slot :=
  (List.finRange NINODE).find? fun ip => c.Caches d n ip

/-- The blocks of a device. -/
def Store.dev (t : Store) (d b : ℕ) : Mem := t.disk (d, b)

variable (sb : Superblock) (d : ℕ)

/-- The inode on the disk. -/
def dinode (disk : ℕ → Mem) (n : ℕ) : Inode :=
  Inode.init.load (disk (iblock n sb)) (dinodeOff n)

variable (s : State Store)

/-- The inode as it is at present: as in memory, if it is there, and else as on the disk. -/
def present (n : ℕ) : Inode :=
  match s.1.cached d n with
  | some ip => s.1.inodes ip
  | none =>
    if n < sb.ninodes ∧ (dinode sb (s.2.dev d) n).type ≠ 0 then dinode sb (s.2.dev d) n
    else Inode.init

/-- The block that an inode has at a place, 0 for none. -/
def pointer (q : ℕ × Place) : ℕ := (present sb d s q.1).pointer (s.2.dev d) q.2

/-- The bytes of the file with this inode. -/
def contents (n : ℕ) : Mem := (present sb d s n).contents (s.2.dev d)

/-- The block is marked in the bitmap. -/
def Marked (b : ℕ) : Prop := bitClear (s.2.dev d (bblock b sb)) (b % BPB) = false

/-- The bitmap has no clear bit. -/
def Full : Prop := ∀ b < sb.size, Marked sb d s b

/-- A data block that is marked. -/
def Used (b : ℕ) : Prop := sb.size - sb.nblocks ≤ b ∧ b < sb.size ∧ Marked sb d s b

/-- Every block that is referred to is a marked data block, referred to once. The other blocks are
marked as well, and an inode is in memory at most once. -/
structure Consistent : Prop where
  owned : Owned (pointer sb d s) (Used sb d s)
  reserved : ∀ b < sb.size - sb.nblocks, Marked sb d s b
  unique : ∀ n ip ip', s.1.Holds d n ip → s.1.Holds d n ip' → ip = ip'
  range : ∀ n ip, s.1.Holds d n ip → n < sb.ninodes

section Present

variable {sb d s} {s' : State Store} {n : ℕ} {ip : Slot} {i : Inode}

theorem Core.cached_eq {c : Core} (h : c.Caches d n ip)
    (hu : ∀ ip', c.Holds d n ip' → ip' = ip) : c.cached d n = some ip := by
  unfold cached
  cases hf : (List.finRange NINODE).find? fun ip => decide (c.Caches d n ip) with
  | none =>
    have hnot := List.find?_eq_none.mp hf ip (List.mem_finRange ip)
    exact absurd (decide_eq_true h) hnot
  | some ip' =>
    have hsome : decide (c.Caches d n ip') = true := List.find?_some (p := fun ip =>
      decide (c.Caches d n ip)) hf
    rw [hu ip' (of_decide_eq_true hsome).1]

theorem Core.cached_some {c : Core} (h : c.cached d n = some ip) : c.Caches d n ip := by
  have hsome : decide (c.Caches d n ip) = true := List.find?_some (p := fun ip =>
    decide (c.Caches d n ip)) h
  exact of_decide_eq_true hsome

theorem Core.cached_congr {c c' : Core} (h : ∀ ip, c'.Caches d n ip ↔ c.Caches d n ip) :
    c'.cached d n = c.cached d n := by
  unfold cached
  congr 1
  funext ip
  rw [decide_eq_decide]
  exact h ip

namespace Consistent

variable (hc : Consistent sb d s)

include hc

theorem cached_eq (hip : s.1.Caches d n ip) : s.1.cached d n = some ip :=
  Core.cached_eq hip fun _ h => hc.unique n _ _ h hip.1

theorem present_eq (hip : s.1.Caches d n ip) : present sb d s n = s.1.inodes ip := by
  unfold present
  rw [hc.cached_eq hip]

theorem pointer_eq (hip : s.1.Caches d n ip) (p : Place) :
    pointer sb d s (n, p) = (s.1.inodes ip).pointer (s.2.dev d) p := by
  unfold pointer
  rw [hc.present_eq hip]

/-- A block that is not marked is a data block that nothing refers to. -/
theorem free_le {b : ℕ} (hb : ¬Marked sb d s b) : sb.size - sb.nblocks ≤ b := by
  by_contra hlt
  exact hb (hc.reserved b (by omega))

theorem pointer_ne {q : ℕ × Place} (hq : pointer sb d s q ≠ 0) {b : ℕ} (hb : ¬Marked sb d s b) :
    pointer sb d s q ≠ b := by
  intro he
  rw [← he] at hb
  exact hb (hc.owned.used q hq).2.2

theorem pointer_le {q : ℕ × Place} (hq : pointer sb d s q ≠ 0) :
    sb.size - sb.nblocks ≤ pointer sb d s q := (hc.owned.used q hq).1

end Consistent

/-- Inodes that are the same in memory, and the same on the disk. -/
theorem present_congr (hcache : ∀ ip, s'.1.Caches d n ip ↔ s.1.Caches d n ip)
    (hmem : ∀ ip, s.1.Caches d n ip → s'.1.inodes ip = s.1.inodes ip)
    (hdisk : n < sb.ninodes → dinode sb (s'.2.dev d) n = dinode sb (s.2.dev d) n) :
    present sb d s' n = present sb d s n := by
  unfold present
  rw [Core.cached_congr hcache]
  cases hf : s.1.cached d n with
  | some ip => exact hmem ip (Core.cached_some hf)
  | none =>
    dsimp only
    by_cases hn : n < sb.ninodes
    · rw [hdisk hn]
    · rw [if_neg (fun h => hn h.1), if_neg (fun h => hn h.1)]

theorem dinode_congr {disk disk' : ℕ → Mem}
    (h : (disk (iblock n sb)).SameOn (disk' (iblock n sb)) (dinodeOff n) 64) :
    dinode sb disk' n = dinode sb disk n := by
  have hload (k o : ℕ) (hk : o + k ≤ 64) :
      (disk' (iblock n sb)).load k (dinodeOff n + o) =
        (disk (iblock n sb)).load k (dinodeOff n + o) :=
    Mem.load_congr (h.mono (Nat.le_add_right _ _) (by omega))
  have haddrs (k : Fin (NDIRECT + 1)) :
      (disk' (iblock n sb)).load 4 (dinodeOff n + 12 + 4 * k) =
        (disk (iblock n sb)).load 4 (dinodeOff n + 12 + 4 * k) := by
    have hk : k.val < 13 := k.isLt
    rw [Nat.add_assoc]
    exact hload _ _ (by omega)
  unfold dinode Inode.load
  have htype := hload 2 0 (by omega)
  rw [Nat.add_zero] at htype
  rw [htype, hload 2 2 (by omega), hload 2 4 (by omega), hload 2 6 (by omega),
    hload 4 8 (by omega)]
  simp only [haddrs]

theorem Inode.pointer_congr {disk disk' : ℕ → Mem} {i i' : Inode} {p : Place}
    (hp : ∀ n, p = .addr n → i'.addrs n = i.addrs n)
    (hi : i'.addrs (Fin.last NDIRECT) = i.addrs (Fin.last NDIRECT))
    (h : i.addrs (Fin.last NDIRECT) ≠ 0 →
      disk' (i.addrs (Fin.last NDIRECT)) = disk (i.addrs (Fin.last NDIRECT))) :
    i'.pointer disk' p = i.pointer disk p := by
  cases p with
  | addr n => exact hp n rfl
  | entry j =>
    by_cases hz : i.addrs (Fin.last NDIRECT) = 0 ∨ NINDIRECT ≤ j
    · rw [pointer_hole hz, pointer_hole (by rwa [hi])]
    · obtain ⟨hne, hj⟩ := not_or.mp hz
      rw [pointer_entry rfl hne (Nat.not_le.mp hj), pointer_entry hi hne (Nat.not_le.mp hj), h hne]

theorem Inode.contents_congr {disk disk' : ℕ → Mem} {i i' : Inode}
    (h : ∀ bn, ∀ x < BSIZE, i'.block disk' bn x = i.block disk bn x) :
    i'.contents disk' = i.contents disk := by
  funext x
  exact h _ _ (Nat.mod_lt _ (by decide))

theorem Inode.block_congr {disk disk' : ℕ → Mem} {i i' : Inode} {bn : ℕ}
    (hp : i'.pointer disk' (place bn) = i.pointer disk (place bn))
    (hd : i.pointer disk (place bn) ≠ 0 →
      disk' (i.pointer disk (place bn)) = disk (i.pointer disk (place bn))) :
    i'.block disk' bn = i.block disk bn := by
  unfold block
  rw [hp]
  split_ifs with hz
  · rfl
  · exact hd hz

theorem Core.holds_withInode_self (d n : ℕ) :
    (State.withInode s ip i).1.Holds d n ip ↔ 0 < i.refcnt ∧ i.dev = d ∧ i.inum = n := by
  unfold Holds
  rw [State.withInode_inodes, Function.update_self]

theorem Core.holds_withInode_ne {jp : Slot} (hj : jp ≠ ip) (d n : ℕ) :
    (State.withInode s ip i).1.Holds d n jp ↔ s.1.Holds d n jp := by
  unfold Holds
  rw [State.withInode_inodes, Function.update_of_ne hj]

theorem Core.caches_withInode_self (d n : ℕ) : (State.withInode s ip i).1.Caches d n ip ↔
    (0 < i.refcnt ∧ i.dev = d ∧ i.inum = n) ∧ i.valid = true := by
  unfold Caches
  rw [holds_withInode_self, State.withInode_inodes, Function.update_self]

theorem Core.caches_withInode_ne {jp : Slot} (hj : jp ≠ ip) (d n : ℕ) :
    (State.withInode s ip i).1.Caches d n jp ↔ s.1.Caches d n jp := by
  unfold Caches
  rw [holds_withInode_ne hj, State.withInode_inodes, Function.update_of_ne hj]

theorem Core.holds_withInode (hi : i.Like (s.1.inodes ip)) (d n : ℕ) (jp : Slot) :
    (State.withInode s ip i).1.Holds d n jp ↔ s.1.Holds d n jp := by
  by_cases hj : jp = ip
  · subst hj
    rw [holds_withInode_self, hi.refcnt, hi.dev, hi.inum]
    rfl
  · exact holds_withInode_ne hj d n

theorem Core.caches_withInode (hi : i.Like (s.1.inodes ip)) (d n : ℕ) (jp : Slot) :
    (State.withInode s ip i).1.Caches d n jp ↔ s.1.Caches d n jp := by
  by_cases hj : jp = ip
  · subst hj
    rw [caches_withInode_self, hi.refcnt, hi.dev, hi.inum, hi.valid]
    rfl
  · exact caches_withInode_ne hj d n

end Present

/-! ### Bits -/

theorem bitMask_and {x y : ℕ} (h : x % 8 ≠ y % 8) : bitMask x &&& bitMask y = 0 := by
  have hall : ∀ x y : Fin 8, x ≠ y → (1#8 <<< x.val) &&& (1#8 <<< y.val) = 0 := by decide
  exact hall ⟨x % 8, Nat.mod_lt _ (by decide)⟩ ⟨y % 8, Nat.mod_lt _ (by decide)⟩
    fun he => h (Fin.ext_iff.mp he)

theorem bitMask_ne_zero (x : ℕ) : bitMask x ≠ 0 := by
  have hall : ∀ x : Fin 8, (1#8 <<< x.val) ≠ 0 := by decide
  exact hall ⟨x % 8, Nat.mod_lt _ (by decide)⟩

theorem bitClear_eq_false {m : Mem} {x : ℕ} :
    bitClear m x = false ↔ m (x / 8) &&& bitMask x ≠ 0 := by
  unfold bitClear
  rw [beq_eq_false_iff_ne]

theorem bitClear_setBit_self (m : Mem) (x : ℕ) : bitClear (setBit m x) x = false := by
  rw [bitClear_eq_false]
  unfold setBit
  rw [Function.update_self]
  intro h
  apply bitMask_ne_zero x
  have hand : (m (x / 8) ||| bitMask x) &&& bitMask x = bitMask x := by
    ext k hk
    simp only [BitVec.getElem_and, BitVec.getElem_or]
    cases (m (x / 8))[k] <;> simp
  rw [← hand, h]

theorem bitClear_setBit_of_ne (m : Mem) {x y : ℕ} (h : y ≠ x) :
    bitClear (setBit m x) y = bitClear m y := by
  unfold bitClear setBit
  by_cases hb : y / 8 = x / 8
  · have hand : (m (x / 8) ||| bitMask x) &&& bitMask y = m (x / 8) &&& bitMask y := by
      have hzero := bitMask_and (x := x) (y := y) (by omega)
      ext k hk
      have hk' : (bitMask x &&& bitMask y)[k] = false := by
        rw [hzero]
        simp
      simp only [BitVec.getElem_and, BitVec.getElem_or] at hk' ⊢
      rw [Bool.and_or_distrib_right, hk', Bool.or_false]
    rw [hb, Function.update_self, hand]
  · rw [Function.update_of_ne hb]

end Multiplix.Fs
