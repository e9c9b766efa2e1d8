import Multiplix.Fs.FileLaw
import Multiplix.Tools.Mkfs

/-! What `mkfs` appends to a file is what the kernel would write there. -/
namespace Multiplix.Tools.Mkfs
open Lib Fs

/-! ### The image as a disk of the kernel -/

/-- The layout of the image, with room for the inodes that follow the root. -/
def room : Superblock := ⟨FSSIZE, nblocks, NINODES + 1, inodestart, bmapstart⟩

theorem room_laid : room.Laid := ⟨by decide, by decide, by decide⟩

theorem bblock_room {b : ℕ} (hb : b < FSSIZE) : bblock b room = bmapstart ∧ b % BPB = b := by
  have hlt : b < BPB := hb.trans (by decide)
  refine ⟨?_, Nat.mod_eq_of_lt hlt⟩
  unfold bblock
  rw [Nat.div_eq_of_lt hlt, Nat.zero_add]
  rfl

theorem bitmap_succ (n : ℕ) : bitmap (n + 1) = setBit (bitmap n) n := by
  unfold bitmap
  rw [List.range_succ, List.foldl_append]
  rfl

theorem bitClear_bitmap {n x : ℕ} : bitClear (bitmap n) x = false ↔ x < n := by
  induction n with
  | zero =>
    have hclear : bitClear (bitmap 0) x = true := by
      unfold bitClear bitmap
      simp
    rw [hclear]
    exact iff_of_false (by decide) (Nat.not_lt_zero x)
  | succ n ih =>
    rw [bitmap_succ]
    by_cases hx : x = n
    · subst hx
      exact iff_of_true (bitClear_setBit_self _ x) (Nat.lt_succ_self x)
    · rw [bitClear_setBit_of_ne _ hx, ih]
      omega

/-- The inode in memory. -/
def Dinode.cached (n : ℕ) (din : Dinode) : Inode :=
  { Inode.init with
    dev := ROOTDEV, inum := n, refcnt := 1, valid := true, type := din.type, major := din.major,
    minor := din.minor, nlink := din.nlink, size := din.size, addrs := din.addrs }

namespace St

variable (st : St)

@[simp] theorem wsect_img (sec : ℕ) (buf : Mem) : (st.wsect sec buf).img =
    Function.update st.img sec ((st.img sec).copy 0 buf 0 BSIZE) := rfl

@[simp] theorem wsect_freeblock (sec : ℕ) (buf : Mem) :
    (st.wsect sec buf).freeblock = st.freeblock := rfl

@[simp] theorem wsect_freeinode (sec : ℕ) (buf : Mem) :
    (st.wsect sec buf).freeinode = st.freeinode := rfl

/-- The blocks of the image, with those marked that are taken. -/
def disk : ℕ → Mem := Function.update st.img bmapstart (bitmap st.freeblock)

def store : Store :=
  ⟨fun k => if k.1 = ROOTDEV then st.disk k.2 else fun _ => 0, fun _ => 0⟩

/-- A kernel with the image, and with no inode in memory. -/
def booted : State Store := (Core.init, st.store)

/-- A kernel with the image, and with one inode in memory. -/
def opened (n : ℕ) (din : Dinode) : State Store :=
  State.withInode st.booted slot₀ (din.cached n)

/-- Blocks that are not taken are empty. -/
structure Fresh : Prop where
  le : st.freeblock ≤ FSSIZE
  empty : ∀ b, st.freeblock ≤ b → st.img b = fun _ => 0

theorem store_dev : st.store.dev ROOTDEV = st.disk := by
  unfold store Store.dev
  dsimp only
  simp only [if_true]

theorem store_ne {k : Key} (hk : k.1 ≠ ROOTDEV) : st.store.disk k = fun _ => 0 := if_neg hk

theorem store_eq {t : Store} (hdev : ∀ b, t.dev ROOTDEV b = st.disk b)
    (hother : ∀ k : Key, k.1 ≠ ROOTDEV → t.disk k = fun _ => 0) (huser : t.user = fun _ => 0) :
    t = st.store := by
  obtain ⟨disk, user⟩ := t
  have hdisk : disk = st.store.disk := by
    funext k
    by_cases hk : k.1 = ROOTDEV
    · obtain ⟨d, b⟩ := k
      obtain rfl : d = ROOTDEV := hk
      exact (hdev b).trans (congrFun st.store_dev b).symm
    · exact (hother k hk).trans (st.store_ne hk).symm
  have huser' : user = st.store.user := huser
  rw [hdisk, huser']

theorem disk_ne {b : ℕ} (h : b ≠ bmapstart) : st.disk b = st.img b := Function.update_of_ne h _ _

theorem disk_bmapstart : st.disk bmapstart = bitmap st.freeblock := Function.update_self _ _ _

variable (n : ℕ) (din : Dinode)

theorem opened_inode : (st.opened n din).1.inodes slot₀ = din.cached n := by
  unfold opened
  rw [State.withInode_inodes, Function.update_self]

theorem opened_caches : (st.opened n din).1.Caches ROOTDEV n slot₀ :=
  (Core.caches_withInode_self ROOTDEV n).mpr ⟨⟨one_pos, rfl, rfl⟩, rfl⟩

theorem withInode_opened (st' : St) (din' : Dinode) :
    State.withInode ((st.opened n din).1, st'.store) slot₀ (din'.cached n) =
      st'.opened n din' := by
  unfold opened State.withInode booted
  rw [Function.update_idem]

variable {st n din}

theorem marked_iff {s : State Store} (hs : s.2 = st.store) {b : ℕ} (hb : b < FSSIZE) :
    Marked room ROOTDEV s b ↔ b < st.freeblock := by
  obtain ⟨hblk, hmod⟩ := bblock_room hb
  unfold Marked
  rw [hs, hblk, hmod, store_dev, disk_bmapstart]
  exact bitClear_bitmap

/-- Where the bytes beyond a block are as before, all is as in the buffer. -/
theorem copy_whole {m buf : Mem} (h : ∀ x, BSIZE ≤ x → buf x = m x) :
    m.copy 0 buf 0 BSIZE = buf := by
  funext x
  by_cases hx : x < BSIZE
  · rw [Mem.copy_inside _ _ _ (Nat.zero_le x) (by omega), Nat.sub_zero, Nat.zero_add]
  · rw [Mem.copy_outside _ _ _ (by omega), h x (by omega)]

theorem withBlock_wsect (st : St) {sec : ℕ} {buf : Mem} {s : State Store} (hs : s.2 = st.store)
    (hsec : sec ≠ bmapstart) (hbuf : ∀ x, BSIZE ≤ x → buf x = st.img sec x) :
    State.withBlock s (ROOTDEV, sec) buf = (s.1, (st.wsect sec buf).store) := by
  refine Prod.ext rfl (store_eq _ (fun b => ?_) (fun k hk => ?_) ?_)
  · have hold : s.2.disk (ROOTDEV, b) = st.disk b := hs ▸ congrFun st.store_dev b
    unfold Store.dev
    rw [State.withBlock_disk]
    by_cases hb : b = sec
    · subst hb
      rw [Function.update_self, disk_ne _ hsec]
      rw [wsect_img, Function.update_self, copy_whole hbuf]
    · rw [Function.update_of_ne fun he => hb (Prod.ext_iff.mp he).2, hold]
      unfold disk wsect
      by_cases hbm : b = bmapstart
      · rw [hbm, Function.update_self, Function.update_self]
      · rw [Function.update_of_ne hbm, Function.update_of_ne hbm]
        exact (Function.update_of_ne hb _ _).symm
  · rw [State.withBlock_disk, Function.update_of_ne fun he => hk (Prod.ext_iff.mp he).1, hs]
    exact st.store_ne hk
  · rw [State.withBlock_user, hs]
    rfl

theorem taken_eq {s : State Store} (hs : s.2 = st.store) (hlt : st.freeblock < FSSIZE)
    (hmeta : nmeta ≤ st.freeblock) (hfresh : st.Fresh) :
    Fs.taken room ROOTDEV s st.freeblock =
      (s.1, { st with freeblock := st.freeblock + 1 }.store) := by
  obtain ⟨hblk, hmod⟩ := bblock_room hlt
  have hne : st.freeblock ≠ bmapstart := (Nat.lt_of_lt_of_le (by decide) hmeta).ne'
  refine Prod.ext rfl (store_eq _ (fun b => ?_) (fun k hk => ?_) ?_)
  · have hold (b : ℕ) : s.2.disk (ROOTDEV, b) = st.disk b := hs ▸ congrFun st.store_dev b
    unfold Fs.taken Store.dev
    rw [hblk, hmod, State.withBlock_disk]
    by_cases hb : b = st.freeblock
    · subst hb
      rw [Function.update_self, State.withBlock_disk,
        Function.update_of_ne fun he => hne (Prod.ext_iff.mp he).2, hold, disk_ne _ hne,
        disk_ne _ hne, hfresh.empty _ le_rfl]
      funext x
      unfold Mem.fill
      rw [ite_self]
    · rw [Function.update_of_ne fun he => hb (Prod.ext_iff.mp he).2, State.withBlock_disk]
      by_cases hbm : b = bmapstart
      · subst hbm
        rw [Function.update_self, hold, disk_bmapstart, disk_bmapstart, bitmap_succ]
      · rw [Function.update_of_ne fun he => hbm (Prod.ext_iff.mp he).2, hold, disk_ne _ hbm,
          disk_ne _ hbm]
  · have hsame : (Fs.taken room ROOTDEV s st.freeblock).2.disk k = s.2.disk k :=
      taken_disk (fun he => hk (Prod.ext_iff.mp he).1) fun he => hk (Prod.ext_iff.mp he).1
    rw [hsame, hs]
    exact st.store_ne hk
  · rw [Fs.taken, State.withBlock_user, State.withBlock_user, hs]
    rfl

/-- Neither a file nor an inode is in the block. -/
def Aside (b : ℕ) : Prop := b < inodestart ∨ b = bmapstart

theorem Aside.ne {b x : ℕ} (h : Aside b) (hx : nmeta ≤ x) : b ≠ x := by
  have hmeta : inodestart < nmeta ∧ bmapstart < nmeta := by decide
  unfold Aside at h
  omega

/-- What is left as it is. -/
structure Spares (st st' : St) : Prop where
  freeinode : st'.freeinode = st.freeinode
  img : ∀ b, Aside b → st'.img b = st.img b

theorem Spares.refl (st : St) : Spares st st := ⟨rfl, fun _ _ => rfl⟩

theorem Spares.trans {st₁ st₂ st₃ : St} (h : Spares st₁ st₂) (h' : Spares st₂ st₃) :
    Spares st₁ st₃ :=
  ⟨h'.freeinode.trans h.freeinode, fun b hb => (h'.img b hb).trans (h.img b hb)⟩

variable (st n din) in
/-- What holds while a file grows. -/
structure Sound : Prop where
  consistent : Consistent room ROOTDEV (st.opened n din)
  fresh : st.Fresh

variable (st n din) in
/-- A block is found, or is made. -/
structure Finds (p : Place) (st' : St) (din' : Dinode) (x : ℕ) : Prop where
  mapped : Mapped room ROOTDEV n slot₀ p (st.opened n din) x (st'.opened n din')
  ne : x ≠ 0
  fresh : st'.Fresh
  inode : ∃ a, din' = { din with addrs := a }
  spares : Spares st st'

variable (st n din) in
/-- The blocks that are taken, and those that these places are still to get, fit on the disk. -/
def Fits (I : Finset (ℕ × Place)) : Prop := blocksFor room ROOTDEV (st.opened n din) I ≤ FSSIZE

namespace Finds

variable {p : Place} {st' : St} {din' : Dinode} {x : ℕ} (h : Finds st n din p st' din' x)

include h

theorem sound : Sound st' n din' := ⟨h.mapped.grows.consistent, h.fresh⟩

theorem pointer : Fs.pointer room ROOTDEV (st'.opened n din') (n, p) = x :=
  h.mapped.block.elim (fun hz => absurd hz.1 h.ne) And.right

theorem fits {I : Finset (ℕ × Place)} (hI : ∀ q ∈ p.needs, (n, q) ∈ I)
    (hfit : Fits st n din I) : Fits st' n din' I := (h.mapped.blocks I hI).trans_le hfit

end Finds

/-- First the indirect block, and then its entry. -/
theorem Finds.entry {j a x : ℕ} {st₁ st' : St} {din₁ din' : Dinode}
    (h : Finds st n din (.addr (Fin.last NDIRECT)) st₁ din₁ a)
    (h' : Finds st₁ n din₁ (.entry j) st' din' x) : Finds st n din (.entry j) st' din' x where
  mapped := h.mapped.entry h'.mapped
  ne := h'.ne
  fresh := h'.fresh
  inode := by
    obtain ⟨a, rfl⟩ := h.inode
    exact h'.inode
  spares := h.spares.trans h'.spares

namespace Sound

variable {p : Place} {I : Finset (ℕ × Place)} (h : Sound st n din)

include h

theorem nmeta_le : nmeta ≤ st.freeblock :=
  (marked_iff rfl (by decide)).mp (h.consistent.reserved bmapstart (by decide))

omit h in
/-- A place that is to get a block can get one. -/
theorem freeblock_lt (hfit : Fits st n din I) (hI : (n, p) ∈ I)
    (hz : pointer room ROOTDEV (st.opened n din) (n, p) = 0) : st.freeblock < FSSIZE := by
  by_contra hge
  have hmore : FSSIZE < blocksFor room ROOTDEV (st.opened n din) I :=
    lt_demand hI hz fun b hb => (marked_iff rfl hb).mpr (by omega)
  unfold Fits at hfit
  omega

omit h in
theorem not_marked (hlt : st.freeblock < FSSIZE) :
    ¬Marked room ROOTDEV (st.opened n din) st.freeblock := fun hm =>
  absurd ((marked_iff rfl hlt).mp hm) (lt_irrefl _)

theorem pointer_lt (hq : pointer room ROOTDEV (st.opened n din) (n, p) ≠ 0) :
    nmeta ≤ pointer room ROOTDEV (st.opened n din) (n, p) ∧
      pointer room ROOTDEV (st.opened n din) (n, p) < FSSIZE ∧
      pointer room ROOTDEV (st.opened n din) (n, p) < st.freeblock := by
  obtain ⟨hlow, hlt, hmark⟩ := h.consistent.owned.used _ hq
  exact ⟨hlow, hlt, (marked_iff rfl hlt).mp hmark⟩

theorem pointer_addr (k : Fin (NDIRECT + 1)) :
    pointer room ROOTDEV (st.opened n din) (n, .addr k) = din.addrs k := by
  rw [h.consistent.pointer_eq (opened_caches st n din), opened_inode]
  rfl

theorem direct_finds (k : Fin (NDIRECT + 1)) (hfit : Fits st n din I) (hI : (n, .addr k) ∈ I) :
    ∃ st' din' x, st.direct din k = (st', din', x) ∧ Finds st n din (.addr k) st' din' x := by
  have hc := h.consistent
  have hip := opened_caches st n din
  have hptr := h.pointer_addr k
  unfold direct
  split_ifs with hz
  · have hlt := freeblock_lt hfit hI (hptr.trans hz)
    have hinode := opened_inode st n din
    have hlink := (links_addr room_laid hc hip (k := k) hlt (not_marked hlt) (by
      rw [hinode]
      exact hz)).mapped room_laid hc
    rw [taken_eq rfl hlt h.nmeta_le h.fresh, hinode] at hlink
    have hpos : st.freeblock ≠ 0 := (Nat.lt_of_lt_of_le (by decide) h.nmeta_le).ne'
    refine ⟨_, _, _, rfl, ?_, hpos, ⟨hlt, fun b hb => h.fresh.empty b ?_⟩, ⟨_, rfl⟩, rfl,
      fun _ _ => rfl⟩
    · have hstate := withInode_opened st n din { st with freeblock := st.freeblock + 1 }
        { din with addrs := Function.update din.addrs k st.freeblock }
      rw [← hstate]
      exact hlink
    · exact (Nat.le_succ _).trans hb
  · exact ⟨st, din, _, rfl, .found hc hptr hz, hz, h.fresh, ⟨_, rfl⟩, .refl st⟩

/-- An entry of the indirect block. -/
theorem entry_finds {a j : ℕ} (ha : din.addrs (Fin.last NDIRECT) = a) (hne : a ≠ 0)
    (hj : j < NINDIRECT) (hfit : Fits st n din I) (hI : (n, .entry j) ∈ I) :
    ∃ st' x, (do
      let indirect ← st.rsect a
      if indirect.load 4 (4 * j) = 0 then
        let x := st.freeblock
        let st := { st with freeblock := x + 1 }
        pure (st.wsect a (indirect.store 4 (4 * j) x), din, x)
      else pure (st, din, indirect.load 4 (4 * j)) : Option (St × Dinode × ℕ)) =
        some (st', din, x) ∧ Finds st n din (.entry j) st' din x := by
  have hc := h.consistent
  have hip := opened_caches st n din
  have hinode := opened_inode st n din
  have hptr : pointer room ROOTDEV (st.opened n din) (n, .addr (Fin.last NDIRECT)) = a :=
    (h.pointer_addr _).trans ha
  obtain ⟨hmeta, hlt, htake⟩ := h.pointer_lt (hptr.symm ▸ hne)
  rw [hptr] at hmeta hlt htake
  have hbm : a ≠ bmapstart := (Nat.lt_of_lt_of_le (by decide) hmeta).ne'
  have hdev : (st.opened n din).2.dev ROOTDEV a = st.img a := by
    rw [← disk_ne st hbm, ← store_dev]
    rfl
  have hentry : pointer room ROOTDEV (st.opened n din) (n, .entry j) =
      (st.img a).load 4 (4 * j) := by
    rw [hc.pointer_eq hip, hinode, ← hdev]
    exact Inode.pointer_entry ha hne hj
  unfold rsect
  rw [if_pos hlt, Option.bind_eq_bind, Option.bind_some]
  split_ifs with hz
  · have hfree := freeblock_lt hfit hI (hentry.trans hz)
    have hlink := (links_entry room_laid hc hip hfree (not_marked hfree) hj (by
      rw [hinode]
      exact ha) hne (by rw [hdev, hz]) rfl).mapped room_laid hc
    have hpos : st.freeblock ≠ 0 := (Nat.lt_of_lt_of_le (by decide) h.nmeta_le).ne'
    have hword : 4 * j + 4 ≤ BSIZE := by
      have hmax : BSIZE = 4 * NINDIRECT := rfl
      omega
    have htaken : { st with freeblock := st.freeblock + 1 }.store.dev ROOTDEV a = st.img a := by
      rw [store_dev, disk_ne _ hbm]
    rw [taken_eq rfl hfree h.nmeta_le h.fresh, htaken,
      withBlock_wsect { st with freeblock := st.freeblock + 1 } rfl hbm fun x hx =>
        Mem.store_outside _ _ (Or.inr (by omega))] at hlink
    refine ⟨_, _, rfl, hlink, hpos, ⟨hfree, fun b hb => ?_⟩, ⟨din.addrs, rfl⟩, rfl, fun b hb => ?_⟩
    · have hab : b ≠ a := (htake.trans hb).ne'
      rw [wsect_img, Function.update_of_ne hab]
      exact h.fresh.empty b ((Nat.le_succ _).trans hb)
    · rw [wsect_img, Function.update_of_ne (hb.ne hmeta)]
  · exact ⟨st, _, rfl, .found hc hentry hz, hz, h.fresh, ⟨din.addrs, rfl⟩, .refl st⟩

theorem block_finds {bn : ℕ} (hbn : bn < MAXFILE) (hfit : Fits st n din I)
    (hI : ∀ q ∈ (place bn).needs, (n, q) ∈ I) : ∃ st' din' x,
      st.block din bn = some (st', din', x) ∧ Finds st n din (place bn) st' din' x := by
  have hplace := hI _ (Place.mem_needs _)
  unfold block place at *
  split_ifs at hplace ⊢ with hdir
  · obtain ⟨st', din', x, he, hfind⟩ := h.direct_finds _ hfit hplace
    exact ⟨st', din', x, congrArg some he, hfind⟩
  · rw [dif_neg hdir] at hI
    have hlast := hI _ (Finset.mem_insert_self _ _)
    have hmax : MAXFILE = NDIRECT + NINDIRECT := rfl
    obtain ⟨st₁, din₁, a, he₁, h₁⟩ := h.direct_finds _ hfit hlast
    obtain ⟨st', x, he, h'⟩ := h₁.sound.entry_finds (j := bn - NDIRECT)
      ((h₁.sound.pointer_addr _).symm.trans h₁.pointer) h₁.ne (by omega)
      (h₁.fits (fun q hq => Finset.mem_singleton.mp hq ▸ hlast) hfit) hplace
    refine ⟨st', din₁, x, ?_, h₁.entry h'⟩
    rw [he₁]
    exact he

end Sound

/-- A piece ends with its block, or with the source. -/
theorem piece_ends (off : ℕ) {len : ℕ} (hpos : len > 0) :
    0 < min len ((off / BSIZE + 1) * BSIZE - off) ∧
    min len ((off / BSIZE + 1) * BSIZE - off) ≤ len ∧
    off % BSIZE + min len ((off / BSIZE + 1) * BSIZE - off) ≤ BSIZE ∧
    (min len ((off / BSIZE + 1) * BSIZE - off) = len ∨
      (off + min len ((off / BSIZE + 1) * BSIZE - off)) % BSIZE = 0) := by
  have hback := Nat.div_add_mod' off BSIZE
  have hlt : off % BSIZE < BSIZE := Nat.mod_lt _ (by decide)
  have hnext : (off / BSIZE + 1) * BSIZE - off = BSIZE - off % BSIZE := by
    rw [Nat.succ_mul]
    omega
  rw [hnext]
  refine ⟨by omega, min_le_left _ _, by omega, ?_⟩
  rcases min_choice len (BSIZE - off % BSIZE) with hmin | hmin
  · exact Or.inl hmin
  · right
    have hall : off + (BSIZE - off % BSIZE) = (off / BSIZE + 1) * BSIZE := by
      rw [Nat.succ_mul]
      omega
    rw [hmin, hall, Nat.mul_mod_left]

namespace Finds

variable {st₁ : St} {din₁ : Dinode} {off x m : ℕ}
  (h : Finds st n din (place (off / BSIZE)) st₁ din₁ x)

include h

theorem bounds : nmeta ≤ x ∧ x < FSSIZE ∧ x < st₁.freeblock := by
  have hlt := h.sound.pointer_lt (h.pointer.symm ▸ h.ne)
  rwa [h.pointer] at hlt

/-- A piece of the block is written. -/
theorem piece (xp : Mem) (p : ℕ) (hm : off % BSIZE + m ≤ BSIZE) : ∃ st₂,
    st₁.wsect x ((st₁.img x).copy (off - off / BSIZE * BSIZE) xp p m) = st₂ ∧
    State.withBlock (st₁.opened n din₁) (ROOTDEV, x)
      (((st₁.opened n din₁).2.disk (ROOTDEV, x)).copy (off % BSIZE) (fun y => xp (p + y)) 0 m) =
      st₂.opened n din₁ ∧
    Sound st₂ n din₁ ∧ (∀ I, Fits st₁ n din₁ I → Fits st₂ n din₁ I) ∧
    Spares st₁ st₂ := by
  have hs := h.sound
  obtain ⟨hmeta, hsize, htake⟩ := h.bounds
  have hbm : x ≠ bmapstart := (Nat.lt_of_lt_of_le (by decide) hmeta).ne'
  have hmod : off - off / BSIZE * BSIZE = off % BSIZE := by
    have hback := Nat.div_add_mod' off BSIZE
    omega
  have hold : (st₁.opened n din₁).2.disk (ROOTDEV, x) = st₁.img x := by
    rw [← disk_ne st₁ hbm, ← store_dev]
    rfl
  rw [hmod, ← Mem.copy_shift, hold]
  have hstate : State.withBlock (st₁.opened n din₁) (ROOTDEV, x)
      ((st₁.img x).copy (off % BSIZE) (fun y => xp (p + y)) 0 m) =
      (st₁.wsect x ((st₁.img x).copy (off % BSIZE) (fun y => xp (p + y)) 0 m)).opened n din₁ :=
    withBlock_wsect _ rfl hbm fun y hy => Mem.copy_outside _ _ _ (by omega)
  have hgrow := grows_withBlock room_laid hs.consistent h.pointer h.ne slot₀
    ((st₁.img x).copy (off % BSIZE) (fun y => xp (p + y)) 0 m)
  refine ⟨_, rfl, hstate, ⟨?_, h.fresh.le, fun b hb => ?_⟩, fun I hI => ?_, rfl, fun b hb => ?_⟩
  · rw [← hstate]
    exact hgrow.consistent
  · have hbx : b ≠ x := (htake.trans_le hb).ne'
    rw [wsect_img, Function.update_of_ne hbx]
    exact h.fresh.empty b hb
  · have hblocks := blocksFor_withBlock room_laid hs.consistent h.pointer h.ne
      ((st₁.img x).copy (off % BSIZE) (fun y => xp (p + y)) 0 m) I
    rw [hstate] at hblocks
    exact hblocks.trans_le hI
  · rw [wsect_img, Function.update_of_ne (hb.ne hmeta)]

end Finds

/-- The bytes of a source are appended. -/
theorem iappendLoop_fills {I : Finset (ℕ × Place)} (xp : Mem) (k p off len : ℕ)
    (h : Sound st n din) (hfit : Fits st n din I) (hI : Covers I n off len) (hk : len ≤ k)
    (hmax : off + len ≤ MAXFILE * BSIZE) : ∃ st' din',
      iappendLoop xp k st din p off len = some (st', din', off + len) ∧
      Filled room ROOTDEV n slot₀ xp off p (p + len) (st.opened n din) (p + len, off + len)
        (st'.opened n din') ∧
      st'.Fresh ∧ (∃ a, din' = { din with addrs := a }) ∧ Spares st st' := by
  induction k generalizing st din p off len with
  | zero =>
    obtain rfl : len = 0 := by omega
    exact ⟨st, din, rfl, .done h.consistent, h.fresh, ⟨_, rfl⟩, .refl st⟩
  | succ k ih =>
    unfold iappendLoop
    split_ifs with hpos hbn
    · have hneeds := hI off le_rfl (by omega)
      obtain ⟨st₁, din₁, x, he, h₁⟩ := h.block_finds hbn hfit hneeds
      obtain ⟨hstep, hle, hm, hend⟩ := piece_ends off hpos
      rw [he]
      generalize min len ((off / BSIZE + 1) * BSIZE - off) = m at hstep hle hm hend ⊢
      obtain ⟨st₂, hst₂, hstate, hs₂, hfit₂, hspares₂⟩ := h₁.piece xp p hm
      obtain ⟨st', din', hrun, hfill, hfresh, ⟨a, ha⟩, hspares⟩ := ih (p + m) (off + m)
        (len - m) hs₂ (hfit₂ I (h₁.fits hneeds hfit)) (hI.mono (by omega) (by omega)) (by omega)
        (by omega)
      rw [← hstate] at hfill
      change Filled _ _ _ _ (Buffer.view (st.opened n din).2 (.kernel xp)) _ _ _ _ _ _ at hfill
      have hoff : off + m + (len - m) = off + len := by omega
      have hp : p + m + (len - m) = p + len := by omega
      rw [hoff] at hrun hfill
      rw [hp] at hfill
      refine ⟨st', din', ?_, ?_, hfresh, ?_, (h₁.spares.trans hspares₂).trans hspares⟩
      · rw [← hrun, Option.bind_eq_bind, Option.bind_some]
        dsimp only
        unfold rsect
        rw [if_pos h₁.bounds.2.1, Option.bind_eq_bind, Option.bind_some, hst₂]
      · exact Filled.piece room_laid h₁.mapped h₁.ne h₁.pointer hm (by omega)
          (hend.imp_left (by omega)) hfill
      · obtain ⟨a₁, ha₁⟩ := h₁.inode
        exact ⟨a, by rw [ha, ha₁]⟩
    · exact absurd (div_lt_maxfile (by omega)) hbn
    · obtain rfl : len = 0 := by omega
      exact ⟨st, din, rfl, .done h.consistent, h.fresh, ⟨_, rfl⟩, .refl st⟩

end St

/-! ### Inodes on the disk -/

/-- The values fit in their words. -/
structure Dinode.Words (i : Dinode) : Prop where
  type : i.type < 256 ^ 2
  major : i.major < 256 ^ 2
  minor : i.minor < 256 ^ 2
  nlink : i.nlink < 256 ^ 2
  size : i.size < 256 ^ 4
  addrs : ∀ k, i.addrs k < 256 ^ 4

theorem Dinode.words_load (d : Mem) (o : ℕ) : (Dinode.load d o).Words :=
  ⟨Mem.load_lt _ _ _, Mem.load_lt _ _ _, Mem.load_lt _ _ _, Mem.load_lt _ _ _, Mem.load_lt _ _ _,
    fun _ => Mem.load_lt _ _ _⟩

theorem Dinode.load_store {i : Dinode} (h : i.Words) (d : Mem) (o : ℕ) :
    Dinode.load (i.store d o) o = i := by
  obtain ⟨type, major, minor, nlink, size, addrs⟩ := i
  obtain ⟨htype, hmajor, hminor, hnlink, hsize, haddrs⟩ := h
  have hlen : (List.ofFn addrs).length = NDIRECT + 1 := List.length_ofFn
  unfold load store
  dsimp only
  rw [Dinode.mk.injEq]
  refine ⟨?_, ?_, ?_, ?_, ?_, ?_⟩
  · rw [Mem.load_storeWords_disjoint _ _ (by omega), Mem.load_store_disjoint _ _ (by omega),
      Mem.load_store_disjoint _ _ (by omega), Mem.load_store_disjoint _ _ (by omega),
      Mem.load_store_disjoint _ _ (by omega), Mem.load_store_word _ _ htype]
  · rw [Mem.load_storeWords_disjoint _ _ (by omega), Mem.load_store_disjoint _ _ (by omega),
      Mem.load_store_disjoint _ _ (by omega), Mem.load_store_disjoint _ _ (by omega),
      Mem.load_store_word _ _ hmajor]
  · rw [Mem.load_storeWords_disjoint _ _ (by omega), Mem.load_store_disjoint _ _ (by omega),
      Mem.load_store_disjoint _ _ (by omega), Mem.load_store_word _ _ hminor]
  · rw [Mem.load_storeWords_disjoint _ _ (by omega), Mem.load_store_disjoint _ _ (by omega),
      Mem.load_store_word _ _ hnlink]
  · rw [Mem.load_storeWords_disjoint _ _ (by omega), Mem.load_store_word _ _ hsize]
  · funext k
    have hk : k.val < (List.ofFn addrs).length := hlen.symm ▸ k.isLt
    have hget : (List.ofFn addrs)[k.val] = addrs k := List.getElem_ofFn _
    rw [Mem.load_storeWords _ _ hk (hget ▸ haddrs k), hget]

namespace St

/-- The inode on the image. -/
def dinode (st : St) (n : ℕ) : Dinode := .load (st.img (IBLOCK n)) (Mkfs.dinodeOff n)

variable {st : St} {n : ℕ}

theorem iblock_lt (hn : n ≤ NINODES) : IBLOCK n < bmapstart := by
  have hdiv : n / IPB ≤ NINODES / IPB := Nat.div_le_div_right hn
  exact (Nat.add_le_add_right hdiv inodestart).trans_lt (by decide)

theorem dinodeOff_le : Mkfs.dinodeOff n + 64 ≤ BSIZE := by
  have hlt : n % IPB < IPB := Nat.mod_lt _ (by decide)
  have hmul : BSIZE = IPB * 64 := rfl
  unfold Mkfs.dinodeOff
  omega

theorem rinode_eq (hn : n ≤ NINODES) : st.rinode n = some (st.dinode n) := by
  have hlt : IBLOCK n < FSSIZE := (iblock_lt hn).trans (by decide)
  unfold rinode rsect
  rw [if_pos hlt]
  rfl

/-- An inode is saved. -/
structure Saves (st : St) (n : ℕ) (din : Dinode) (st' : St) : Prop where
  run : st.winode n din = some st'
  state : ∀ i, saved room ROOTDEV (st.opened n i) n slot₀ (din.cached n) = st'.opened n din
  dinode : din.Words → st'.dinode n = din
  ne : ∀ b, b ≠ IBLOCK n → st'.img b = st.img b
  freeinode : st'.freeinode = st.freeinode
  freeblock : st'.freeblock = st.freeblock

theorem winode_saves (st : St) (din : Dinode) (hn : n ≤ NINODES) :
    ∃ st', Saves st n din st' := by
  have hlt : IBLOCK n < FSSIZE := (iblock_lt hn).trans (by decide)
  have hout (x : ℕ) (hx : BSIZE ≤ x) :
      din.store (st.img (IBLOCK n)) (Mkfs.dinodeOff n) x = st.img (IBLOCK n) x :=
    Inode.store_outside (din.cached n) _ (Or.inr (dinodeOff_le.trans hx))
  obtain ⟨st', hst'⟩ : ∃ st', st' = st.wsect (IBLOCK n)
    (din.store (st.img (IBLOCK n)) (Mkfs.dinodeOff n)) := ⟨_, rfl⟩
  refine ⟨st', ?_, fun i => ?_, fun hw => ?_, fun b hb => ?_, ?_, ?_⟩
  · unfold winode rsect
    rw [if_pos hlt, hst']
    rfl
  · have hold : (st.opened n i).2.disk (ROOTDEV, IBLOCK n) = st.img (IBLOCK n) := by
      rw [← disk_ne st (iblock_lt hn).ne, ← store_dev]
      rfl
    have hstate := withBlock_wsect st
      (s := State.withInode (st.opened n i) slot₀ (din.cached n)) rfl (iblock_lt hn).ne hout
    rw [← hst'] at hstate
    refine Eq.trans ?_ (hstate.trans (withInode_opened st n i st' din))
    unfold saved
    rw [show iblock n room = IBLOCK n from rfl, hold]
    rfl
  · have hself : st'.img (IBLOCK n) = din.store (st.img (IBLOCK n)) (Mkfs.dinodeOff n) := by
      rw [hst', wsect_img, Function.update_self, copy_whole hout]
    unfold St.dinode
    rw [hself, Dinode.load_store hw]
  · rw [hst', wsect_img, Function.update_of_ne hb]
  · rw [hst', wsect_freeinode]
  · rw [hst', wsect_freeblock]

namespace Saves

variable {din : Dinode} {st' : St} (h : Saves st n din st') (hn : n ≤ NINODES)

include h

include hn

theorem fresh {m : ℕ} {i : Dinode} (hs : Sound st m i) : st'.Fresh := by
  refine ⟨h.freeblock.trans_le hs.fresh.le, fun b hb => ?_⟩
  have hlt := iblock_lt hn
  have hmeta := hs.nmeta_le
  have hnm : nmeta = bmapstart + 1 := rfl
  rw [h.freeblock] at hb
  rw [h.ne b (by omega)]
  exact hs.fresh.empty b hb

theorem spares : Spares st st' := by
  refine ⟨h.freeinode, fun b hb => h.ne b ?_⟩
  have hlt := iblock_lt hn
  have hle : inodestart ≤ IBLOCK n := Nat.le_add_left _ _
  unfold Aside at hb
  omega

end Saves

/-- To append to a file is to write at its end. -/
theorem iappend_wrote {I : Finset (ℕ × Place)} (xp : Mem) (len : ℕ) (hn : n ≤ NINODES)
    (h : Sound st n (st.dinode n)) (hfit : Fits st n (st.dinode n) I)
    (hI : Covers I n (st.dinode n).size len)
    (hmax : (st.dinode n).size + len ≤ MAXFILE * BSIZE) : ∃ st',
      st.iappend n xp len = some st' ∧
      Wrote room ROOTDEV n slot₀ xp (st.dinode n).size len (st.opened n (st.dinode n)) len
        (st'.opened n (st'.dinode n)) ∧
      st'.Fresh ∧
      (∃ a, st'.dinode n = { st.dinode n with addrs := a, size := (st.dinode n).size + len }) ∧
      Spares st st' := by
  obtain ⟨st₁, din₁, hrun, hfill, hfresh, ⟨a, rfl⟩, hspares⟩ :=
    iappendLoop_fills xp len 0 _ len h hfit hI le_rfl hmax
  rw [Nat.zero_add] at hfill
  have hs₁ : Sound st₁ n { st.dinode n with addrs := a } := ⟨hfill.grows.consistent, hfresh⟩
  have hold := Dinode.words_load (st.img (IBLOCK n)) (Mkfs.dinodeOff n)
  have hwords : Dinode.Words
      { st.dinode n with addrs := a, size := (st.dinode n).size + len } := by
    refine ⟨hold.type, hold.major, hold.minor, hold.nlink, hmax.trans_lt (by decide), fun k => ?_⟩
    by_cases hz : a k = 0
    · exact (hz.trans_le (Nat.zero_le 1)).trans_lt (by decide)
    · have hptr : pointer room ROOTDEV (st₁.opened n { st.dinode n with addrs := a })
          (n, .addr k) = a k := hs₁.pointer_addr k
      have hlt := (hs₁.pointer_lt (by rwa [hptr])).2.1
      rw [hptr] at hlt
      exact hlt.trans (by decide)
  obtain ⟨st', hsave⟩ := winode_saves st₁
    { st.dinode n with addrs := a, size := (st.dinode n).size + len } hn
  have hdinode := hsave.dinode hwords
  refine ⟨st', ?_, ?_, hsave.fresh hn hs₁, ⟨a, hdinode⟩, hspares.trans (hsave.spares hn)⟩
  · unfold iappend
    rw [rinode_eq hn, Option.bind_eq_bind, Option.bind_some, hrun, Option.bind_eq_bind,
      Option.bind_some]
    exact hsave.run
  · refine ⟨_, _, hfill, rfl, ?_⟩
    rw [hdinode, ← hsave.state { st.dinode n with addrs := a }, opened_inode, opened_inode]
    have hsize : max ((st.dinode n).cached n).size ((st.dinode n).size + len) =
        (st.dinode n).size + len := max_eq_right (Nat.le_add_right _ _)
    rw [hsize]
    rfl

end St
end Multiplix.Tools.Mkfs
