import Multiplix.Fs.Bmap

/-! `Inode.read` and `Inode.write` on a consistent disk: a file is a sequence of bytes. -/
namespace Multiplix.Fs
open Lib

variable {sb : Superblock} {d : ℕ} {s s' s'' : State Store} {E : Panic → Prop}

theorem add_div_block {off y : ℕ} (hy : off % BSIZE + y < BSIZE) :
    (off + y) / BSIZE = off / BSIZE := by
  have hpos : 0 < BSIZE := by decide
  have hoff := Nat.div_add_mod off BSIZE
  rw [← hoff, Nat.add_assoc, Nat.mul_add_div hpos, Nat.div_eq_of_lt hy, hoff, Nat.add_zero]

/-- Part of one block of a file. -/
theorem Inode.contents_add {disk : ℕ → Mem} {i : Inode} {off y : ℕ}
    (hne : i.pointer disk (place (off / BSIZE)) ≠ 0) (hy : off % BSIZE + y < BSIZE) :
    i.contents disk (off + y) = disk (i.pointer disk (place (off / BSIZE))) (off % BSIZE + y) := by
  have hmod : (off + y) % BSIZE = off % BSIZE + y := by
    rw [← Nat.mod_add_mod, Nat.mod_eq_of_lt hy]
  unfold contents Mem.ofBlocks block
  rw [add_div_block hy, hmod, if_neg hne]

/-- The bytes of a piece of a file come from its block. -/
theorem copy_contents {disk : ℕ → Mem} {i : Inode} {off m : ℕ} (dst : Mem) (o : ℕ)
    (hne : i.pointer disk (place (off / BSIZE)) ≠ 0) (hm : off % BSIZE + m ≤ BSIZE) :
    dst.copy o (disk (i.pointer disk (place (off / BSIZE)))) (off % BSIZE) m =
      dst.copy o (i.contents disk) off m := by
  funext x
  by_cases hin : o ≤ x ∧ x < o + m
  · rw [Mem.copy_inside _ _ _ hin.1 hin.2, Mem.copy_inside _ _ _ hin.1 hin.2,
      Inode.contents_add hne (by omega)]
  · rw [Mem.copy_outside _ _ _ (by omega), Mem.copy_outside _ _ _ (by omega)]

/-- The blocks of these bytes are there. -/
def Inode.MappedOn (i : Inode) (disk : ℕ → Mem) (off n : ℕ) : Prop :=
  ∀ x, off ≤ x → x < off + n → i.pointer disk (place (x / BSIZE)) ≠ 0

theorem Inode.MappedOn.mono {i : Inode} {disk : ℕ → Mem} {off n off' n' : ℕ}
    (h : i.MappedOn disk off n) (hle : off ≤ off') (hle' : off' + n' ≤ off + n) :
    i.MappedOn disk off' n' := fun x hx hx' => h x (by omega) (by omega)

theorem div_lt_maxfile {off : ℕ} (h : off < MAXFILE * BSIZE) : off / BSIZE < MAXFILE :=
  (Nat.div_lt_iff_lt_mul (by decide)).mpr h

/-! ### Reading what is there -/

theorem readLoop_mapped {ip : Slot} (k : ℕ) (dst : Buffer) (off tot n : ℕ) (hk : n - tot ≤ k)
    (htot : tot ≤ n) (hn : n ≤ addrSpace) (hmax : off + (n - tot) ≤ MAXFILE * BSIZE)
    (hmap : (s.1.inodes ip).MappedOn (s.2.dev (s.1.inodes ip).dev) off (n - tot)) :
    Does E (ip.readLoop sb k dst off tot n) s fun r s' =>
      r.1 = n ∧ s'.1 = s.1 ∧ s'.2.disk = s.2.disk ∧ ∀ x < addrSpace, r.2.view s'.2 x =
        (dst.view s.2).copy tot ((s.1.inodes ip).contents (s.2.dev (s.1.inodes ip).dev)) off
          (n - tot) x := by
  induction k generalizing dst off tot s with
  | zero =>
    have hz : n - tot = 0 := by omega
    rw [hz]
    refine ⟨by omega, rfl, rfl, fun x _ => ?_⟩
    rw [Mem.copy_zero]
  | succ k ih =>
    unfold Slot.readLoop
    split_ifs with hlt
    · have hne := hmap off le_rfl (by omega)
      have hpos : off % BSIZE < BSIZE := Nat.mod_lt _ (by decide)
      rw [does_bind]
      apply (bmap_mapped (div_lt_maxfile (by omega)) hne).mono
      rintro addr s₁ ⟨haddr, hs⟩
      rw [haddr, hs, if_neg hne, does_bind, does_inode, does_bind, does_bread, does_bind, does_data,
        does_bind]
      have hm : off % BSIZE + min (n - tot) (BSIZE - off % BSIZE) ≤ BSIZE := by omega
      have hstep : 0 < min (n - tot) (BSIZE - off % BSIZE) := by omega
      have hleft : min (n - tot) (BSIZE - off % BSIZE) ≤ n - tot := min_le_left _ _
      generalize min (n - tot) (BSIZE - off % BSIZE) = m at hm hstep hleft ⊢
      apply Buffer.put_does
      · omega
      intro dst' t hdisk hview
      have hdev (d : ℕ) : t.dev d = s.2.dev d := by
        unfold Store.dev
        rw [hdisk]
      rw [does_bind, does_brelease]
      apply (ih (s := (s.1, t)) dst' (off + m) (tot + m) (by omega) (by omega) (by omega) ?_).mono
      · rintro r s' ⟨hr, hcore, hd, hbytes⟩
        refine ⟨hr, hcore, hd.trans hdisk, fun x hx => ?_⟩
        rw [hbytes x hx, hdev, Mem.copy_congr (hview x hx)]
        have hpiece := copy_contents (dst.view s.2) tot hne hm
        unfold Store.dev at hpiece ⊢
        rw [hpiece, Mem.copy_copy]
        congr 2
        omega
      · dsimp only
        rw [hdev]
        exact hmap.mono (by omega) (by omega)
    · have hz : n - tot = 0 := by omega
      rw [hz]
      refine ⟨by omega, rfl, rfl, fun x _ => ?_⟩
      rw [Mem.copy_zero]

/-- Every block below the size is there. -/
def Inode.Whole (i : Inode) (disk : ℕ → Mem) : Prop :=
  i.size ≤ MAXFILE * BSIZE ∧ i.MappedOn disk 0 i.size

theorem maxfile_le : MAXFILE * BSIZE ≤ addrSpace := by decide

theorem read_mapped {ip : Slot} (dst : Buffer) {off n : ℕ} (hoff : off ≤ (s.1.inodes ip).size)
    (hwrap : off + n < 2 ^ 32) (hsize : (s.1.inodes ip).size ≤ MAXFILE * BSIZE)
    (hmap : (s.1.inodes ip).MappedOn (s.2.dev (s.1.inodes ip).dev) off
      (min n ((s.1.inodes ip).size - off))) :
    Does E (ip.read sb dst off n) s fun r s' =>
      r.1 = min n ((s.1.inodes ip).size - off) ∧ s'.1 = s.1 ∧ s'.2.disk = s.2.disk ∧
      ∀ x < addrSpace, r.2.view s'.2 x = (dst.view s.2).copy 0
        ((s.1.inodes ip).contents (s.2.dev (s.1.inodes ip).dev)) off r.1 x := by
  have hguard : ¬(off > (s.1.inodes ip).size ∨ (off + n) % 2 ^ 32 < off) := by
    rw [Nat.mod_eq_of_lt hwrap]
    omega
  have hcount : (if off + n > (s.1.inodes ip).size then (s.1.inodes ip).size - off else n) =
      min n ((s.1.inodes ip).size - off) := by
    split_ifs with h
    · omega
    · omega
  have hle := maxfile_le
  unfold Slot.read
  rw [does_bind, does_inode, if_neg hguard, hcount]
  generalize hr : min n ((s.1.inodes ip).size - off) = r at hmap ⊢
  apply (readLoop_mapped r dst off 0 r (by omega) (by omega) (by omega) (by omega) ?_).mono
  · rintro x s' ⟨hx, hcore, hdisk, hview⟩
    refine ⟨hx, hcore, hdisk, ?_⟩
    rw [hx]
    exact hview
  · exact hmap

/-! ### Writing a piece of a block -/

section Piece

variable {n a bn : ℕ} (hl : sb.Laid) (hc : Consistent sb d s)
  (hptr : pointer sb d s (n, place bn) = a) (ha : a ≠ 0)

include hl hc hptr ha

theorem pointer_withBlock (x : Mem) (q : ℕ × Place) :
    pointer sb d (State.withBlock s (d, a) x) q = pointer sb d s q := by
  have hle : sb.size - sb.nblocks ≤ a := hptr ▸ hc.pointer_le (by rwa [hptr])
  have hdev (y : ℕ) (hy : y ≠ a) : (State.withBlock s (d, a) x).2.dev d y = s.2.dev d y :=
    Function.update_of_ne (fun he => hy (Prod.ext_iff.mp he).2) _ _
  have hpresent : present sb d (State.withBlock s (d, a) x) q.1 = present sb d s q.1 := by
    apply present_congr
    · intro ip
      exact Iff.rfl
    · intro ip _
      rfl
    · intro hm
      have hlt := hl.iblock_lt_meta hm
      unfold dinode
      rw [hdev _ (by omega)]
  unfold pointer
  rw [hpresent]
  apply Inode.pointer_congr fun _ _ => rfl
  · rfl
  · intro hne
    apply hdev
    intro he
    have hinj := hc.owned.inj (q.1, .addr (Fin.last NDIRECT)) _ hne (he.trans hptr.symm)
    exact place_ne_last bn (Prod.ext_iff.mp hinj).2.symm

theorem marked_withBlock (x : Mem) {y : ℕ} (hy : y < sb.size) :
    Marked sb d (State.withBlock s (d, a) x) y ↔ Marked sb d s y := by
  have hle : sb.size - sb.nblocks ≤ a := hptr ▸ hc.pointer_le (by rwa [hptr])
  have hlt := hl.bblock_lt hy
  have hdev : (State.withBlock s (d, a) x).2.dev d (bblock y sb) = s.2.dev d (bblock y sb) := by
    apply Function.update_of_ne
    intro he
    rw [Prod.ext_iff] at he
    dsimp only at he
    omega
  unfold Marked
  rw [hdev]

theorem blocksFor_withBlock (x : Mem) (I : Finset (ℕ × Place)) :
    blocksFor sb d (State.withBlock s (d, a) x) I = blocksFor sb d s I :=
  demand_congr (fun q _ => pointer_withBlock hl hc hptr ha x q)
    fun _ hy => marked_withBlock hl hc hptr ha x hy

theorem grows_withBlock (ip : Slot) (x : Mem) :
    Grows sb d n ip s (State.withBlock s (d, a) x) := by
  have hsame := pointer_withBlock hl hc hptr ha x
  have hle : sb.size - sb.nblocks ≤ a := hptr ▸ hc.pointer_le (by rwa [hptr])
  have hmarked (y : ℕ) (hy : y < sb.size) := marked_withBlock hl hc hptr ha x hy
  constructor
  · exact (Grows.refl (n := n) hc).core
  · rfl
  · constructor
    · rw [show pointer sb d (State.withBlock s (d, a) x) = pointer sb d s from funext hsame]
      constructor
      · exact hc.owned.inj
      · intro q hq
        obtain ⟨hlow, hlt, hmark⟩ := hc.owned.used q hq
        exact ⟨hlow, hlt, (hmarked _ hlt).mpr hmark⟩
    · intro y hy
      exact (hmarked y (by omega)).mpr (hc.reserved y hy)
    · exact hc.unique
    · exact hc.range
  · exact fun q _ => hsame q
  · exact fun q _ => hsame q
  · rintro k hk
    apply Function.update_of_ne
    rintro rfl
    rcases hk with hk | ⟨m, hm, hk⟩ | ⟨q, hq, hne, hk⟩
    · exact hk rfl
    · have hlt := hl.iblock_lt_meta hm
      dsimp only at hk
      omega
    · have hinj := hc.owned.inj q _ hne (hk.symm.trans hptr.symm)
      exact hq (Prod.ext_iff.mp hinj).1

omit hl ha in
/-- No other block of a file is the same. -/
theorem dev_withBlock (x : Mem) {m k : ℕ} (hk : (m, k) ≠ (n, bn))
    (hne : pointer sb d s (m, place k) ≠ 0) :
    (State.withBlock s (d, a) x).2.dev d (pointer sb d s (m, place k)) =
      s.2.dev d (pointer sb d s (m, place k)) := by
  apply Function.update_of_ne
  intro he
  have hinj := hc.owned.inj _ _ hne ((Prod.ext_iff.mp he).2.trans hptr.symm)
  rw [Prod.ext_iff] at hinj
  apply hk
  rw [Prod.mk.injEq]
  exact ⟨hinj.1, place_inj hinj.2⟩

theorem contents_withBlock_ne (x : Mem) {m : ℕ} (hm : m ≠ n) :
    contents sb d (State.withBlock s (d, a) x) m = contents sb d s m := by
  apply Inode.contents_congr
  intro k y _
  refine congrFun (Inode.block_congr (pointer_withBlock hl hc hptr ha x (m, place k)) ?_) y
  apply dev_withBlock hc hptr
  intro he
  exact hm (Prod.ext_iff.mp he).1

theorem contents_withBlock {off m o : ℕ} {src : Mem} (hbn : bn = off / BSIZE)
    (hm : off % BSIZE + m ≤ BSIZE) :
    contents sb d (State.withBlock s (d, a)
      ((s.2.disk (d, a)).copy (off % BSIZE) (fun y => src (o + y)) 0 m)) n =
      (contents sb d s n).copy off src o m := by
  have hsame (x : Mem) := pointer_withBlock hl hc hptr ha x
  unfold contents Inode.contents
  apply Mem.ofBlocks_copy (by decide) hm
  · intro y hy
    have hnew := hsame ((s.2.disk (d, a)).copy (off % BSIZE) (fun y => src (o + y)) 0 m)
      (n, place (off / BSIZE))
    rw [← hbn] at hnew ⊢
    rw [hptr] at hnew
    unfold pointer at hnew hptr
    unfold Inode.block
    rw [hnew, hptr, if_neg ha, if_neg ha]
    unfold Store.dev
    rw [State.withBlock_disk, Function.update_self]
    by_cases hin : off % BSIZE ≤ y ∧ y < off % BSIZE + m
    · rw [Mem.copy_inside _ _ _ hin.1 hin.2, Mem.copy_inside _ _ _ hin.1 hin.2, Nat.zero_add]
    · rw [Mem.copy_outside _ _ _ (by omega), Mem.copy_outside _ _ _ (by omega)]
  · intro k hk
    apply Inode.block_congr (hsame _ (n, place k))
    apply dev_withBlock hc hptr
    rw [hbn]
    intro he
    exact hk (Prod.ext_iff.mp he).2

end Piece

/-- All places that `bmap` looks at for these bytes are among `I`. -/
def Covers (I : Finset (ℕ × Place)) (n off len : ℕ) : Prop :=
  ∀ x, off ≤ x → x < off + len → ∀ q ∈ (place (x / BSIZE)).needs, (n, q) ∈ I

theorem Covers.mono {I : Finset (ℕ × Place)} {n off len off' len' : ℕ} (h : Covers I n off len)
    (hle : off ≤ off') (hle' : off' + len' ≤ off + len) : Covers I n off' len' :=
  fun x hx hx' => h x (by omega) (by omega)

variable (sb d) in
/-- The file in `ip` has got the bytes `[tot, r.1)` of the source at `[off, r.2)`. -/
structure Filled (n : ℕ) (ip : Slot) (src : Mem) (off tot len : ℕ) (s : State Store) (r : ℕ × ℕ)
    (s' : State Store) : Prop where
  grows : Grows sb d n ip s s'
  le : tot ≤ r.1
  le_len : r.1 ≤ len
  stop : r.2 = off + (r.1 - tot)
  full : r.1 < len → Full sb d s' ∧ pointer sb d s' (n, place (r.2 / BSIZE)) = 0
  ends : r.1 = tot ∨ r.1 = len ∨ r.2 % BSIZE = 0
  mapped : ∀ x, off ≤ x → x < r.2 → pointer sb d s' (n, place (x / BSIZE)) ≠ 0
  contents : contents sb d s' n = (contents sb d s n).copy off src tot (r.1 - tot)
  others : ∀ m, m ≠ n → Fs.contents sb d s' m = Fs.contents sb d s m
  blocks : ∀ I, Covers I n off (len - tot) → blocksFor sb d s' I = blocksFor sb d s I

/-- Nothing more is written, as all is done, or as no block is left. -/
theorem Mapped.filled {n : ℕ} {ip : Slot} {src : Mem} {off tot len addr : ℕ}
    (h : Mapped sb d n ip (place (off / BSIZE)) s addr s') (htot : tot < len)
    (hfull : Full sb d s' ∧ pointer sb d s' (n, place (off / BSIZE)) = 0) :
    Filled sb d n ip src off tot len s (tot, off) s' where
  grows := h.grows
  le := le_rfl
  le_len := htot.le
  stop := by omega
  full _ := hfull
  ends := Or.inl rfl
  mapped x hx hx' := by omega
  contents := by rw [Nat.sub_self, Mem.copy_zero, h.contents]
  others m _ := h.contents m
  blocks I hI := h.blocks I (hI off le_rfl (by omega))

theorem Filled.done {n : ℕ} {ip : Slot} {src : Mem} {off len : ℕ} (hc : Consistent sb d s) :
    Filled sb d n ip src off len len s (len, off) s where
  grows := .refl hc
  le := le_rfl
  le_len := le_rfl
  stop := by omega
  full hlt := by omega
  ends := Or.inl rfl
  mapped x hx hx' := by omega
  contents := by rw [Nat.sub_self, Mem.copy_zero]
  others _ _ := rfl
  blocks _ _ := rfl

/-- A piece of a block is written, and then the rest. -/
theorem Filled.piece {n m addr off tot len : ℕ} {ip : Slot} {src : Buffer} {r : ℕ × ℕ}
    {s₁ : State Store} (hl : sb.Laid) (h₁ : Mapped sb d n ip (place (off / BSIZE)) s addr s₁)
    (hne : addr ≠ 0) (hptr : pointer sb d s₁ (n, place (off / BSIZE)) = addr)
    (hm : off % BSIZE + m ≤ BSIZE) (htot : tot < len)
    (hend : tot + m = len ∨ (off + m) % BSIZE = 0)
    (h : Filled sb d n ip (src.view s.2) (off + m) (tot + m) len (State.withBlock s₁ (d, addr)
      ((s₁.2.disk (d, addr)).copy (off % BSIZE) (fun x => src.view s₁.2 (tot + x)) 0 m)) r s') :
    Filled sb d n ip (src.view s.2) off tot len s r s' := by
  have hc₁ := h₁.grows.consistent
  have hgrow := grows_withBlock hl hc₁ hptr hne ip ((s₁.2.disk (d, addr)).copy (off % BSIZE)
    (fun x => src.view s₁.2 (tot + x)) 0 m)
  have hle := h.le
  have hstop := h.stop
  constructor
  · exact (h₁.grows.trans hgrow).trans h.grows
  · omega
  · exact h.le_len
  · omega
  · exact h.full
  · rcases h.ends with he | he | he
    · have hr : r.2 = off + m := by omega
      rw [hr]
      exact Or.inr (hend.imp he.trans id)
    · exact Or.inr (Or.inl he)
    · exact Or.inr (Or.inr he)
  · intro x hx hx'
    by_cases hin : x < off + m
    · have hdiv : x / BSIZE = off / BSIZE := by
        have hy : (off + (x - off)) / BSIZE = off / BSIZE := add_div_block (by omega)
        rwa [Nat.add_sub_cancel' hx] at hy
      have hkeep := pointer_withBlock hl hc₁ hptr hne ((s₁.2.disk (d, addr)).copy (off % BSIZE)
        (fun x => src.view s₁.2 (tot + x)) 0 m) (n, place (off / BSIZE))
      rw [hptr] at hkeep
      rw [hdiv, h.grows.keeps _ (by rwa [hkeep]), hkeep]
      exact hne
    · exact h.mapped x (by omega) hx'
  · have hsame : src.view s₁.2 = src.view s.2 := src.view_congr h₁.grows.user
    rw [h.contents, contents_withBlock hl hc₁ hptr hne rfl hm, hsame, h₁.contents, Mem.copy_copy]
    congr 1
    omega
  · intro m' hm'
    rw [h.others m' hm', contents_withBlock_ne hl hc₁ hptr hne _ hm', h₁.contents]
  · intro I hI
    have hrest : Covers I n (off + m) (len - (tot + m)) := by
      intro x hx hx'
      exact hI x (by omega) (by omega)
    rw [h.blocks I hrest, blocksFor_withBlock hl hc₁ hptr hne,
      h₁.blocks I (hI off le_rfl (by omega))]

theorem writeLoop_does {n : ℕ} {ip : Slot} (src : Buffer) (hl : sb.Laid) (k off tot len : ℕ)
    (hc : Consistent sb d s) (hip : s.1.Caches d n ip) (hk : len - tot ≤ k) (htot : tot ≤ len)
    (hmax : off + (len - tot) ≤ MAXFILE * BSIZE) :
    Does E (ip.writeLoop sb src k off tot len) s
      (Filled sb d n ip (src.view s.2) off tot len s) := by
  induction k generalizing s off tot with
  | zero =>
    obtain rfl : tot = len := by omega
    exact .done hc
  | succ k ih =>
    unfold Slot.writeLoop
    split_ifs with hlt
    · have hpos : off % BSIZE < BSIZE := Nat.mod_lt _ (by decide)
      rw [does_bind]
      apply (bmap_does hl hc hip (div_lt_maxfile (by omega))).mono
      intro addr s₁ h₁
      rcases h₁.block with ⟨rfl, hfull⟩ | ⟨hne, hptr⟩
      · exact h₁.filled hlt hfull
      have hc₁ := h₁.grows.consistent
      have hip₁ := (h₁.grows.caches d n ip).mpr hip
      have hdev : (s₁.1.inodes ip).dev = d := hip₁.1.2.1
      rw [if_neg hne, does_bind, does_inode, does_bind, does_bread, hdev, does_bind]
      apply Buffer.get_does
      rw [does_bind, does_modify, does_bind, does_brelease]
      have hm : off % BSIZE + min (len - tot) (BSIZE - off % BSIZE) ≤ BSIZE := by omega
      have hleft : min (len - tot) (BSIZE - off % BSIZE) ≤ len - tot := min_le_left _ _
      have hstep : 0 < min (len - tot) (BSIZE - off % BSIZE) := by omega
      have hend : tot + min (len - tot) (BSIZE - off % BSIZE) = len ∨
          (off + min (len - tot) (BSIZE - off % BSIZE)) % BSIZE = 0 := by
        rcases min_choice (len - tot) (BSIZE - off % BSIZE) with he | he
        · left
          omega
        · right
          have hback := Nat.div_add_mod off BSIZE
          have hnext : off + (BSIZE - off % BSIZE) = BSIZE * (off / BSIZE) + BSIZE := by omega
          rw [he, hnext, Nat.add_mod_right, Nat.mul_mod_right]
      generalize min (len - tot) (BSIZE - off % BSIZE) = m at hm hstep hleft hend ⊢
      have hgrow := grows_withBlock hl hc₁ hptr hne ip ((s₁.2.disk (d, addr)).copy (off % BSIZE)
        (fun x => src.view s₁.2 (tot + x)) 0 m)
      have hall := h₁.grows.trans hgrow
      apply (ih (off + m) (tot + m) hgrow.consistent ((hall.caches d n ip).mpr hip) (by omega)
        (by omega) (by omega)).mono
      intro r s' hr
      rw [src.view_congr hall.user] at hr
      exact Filled.piece hl h₁ hne hptr hm hlt hend hr
    · obtain rfl : tot = len := by omega
      exact .done hc

/-! ### Saving an inode -/

theorem Inode.store_outside (i : Inode) (m : Mem) {o x : ℕ} (h : x < o ∨ o + 64 ≤ x) :
    i.store m o x = m x := by
  unfold store
  rw [Mem.storeWords_outside, Mem.store_outside, Mem.store_outside, Mem.store_outside,
    Mem.store_outside, Mem.store_outside]
  · omega
  · omega
  · omega
  · omega
  · omega
  · rw [List.length_ofFn]
    have hmax : NDIRECT + 1 = 13 := rfl
    omega

theorem dinodeOff_ne {m n : ℕ} (h : m ≠ n) (hblk : iblock m sb = iblock n sb) :
    dinodeOff m + 64 ≤ dinodeOff n ∨ dinodeOff n + 64 ≤ dinodeOff m := by
  have hdiv : m / IPB = n / IPB := by
    unfold iblock at hblk
    omega
  have hm := Nat.div_add_mod m IPB
  have hn := Nat.div_add_mod n IPB
  rw [hdiv] at hm
  unfold dinodeOff
  omega

variable (sb d) in
/-- The state once an inode is in memory, and saved on the disk. -/
def saved (s : State Store) (n : ℕ) (ip : Slot) (i : Inode) : State Store :=
  State.withBlock (State.withInode s ip i) (d, iblock n sb)
    (i.store (s.2.disk (d, iblock n sb)) (dinodeOff n))

theorem update_does {n : ℕ} {ip : Slot} {i : Inode} (hdev : i.dev = d) (hinum : i.inum = n)
    {Q : Unit → State Store → Prop} (h : Q () (saved sb d s n ip i)) :
    Does E (ip.update sb) (State.withInode s ip i) Q := by
  have hi : (State.withInode s ip i).1.inodes ip = i := Function.update_self _ _ _
  unfold Slot.update
  rw [does_bind, does_inode, hi, hdev, hinum, does_bind, does_bread, does_bind, does_modify,
    does_brelease]
  exact h

section Saved

variable {n : ℕ} {ip : Slot} {i : Inode} (hl : sb.Laid) (hc : Consistent sb d s)
  (hip : s.1.Caches d n ip) (hi : i.Like (s.1.inodes ip))
  (ha : i.addrs = (s.1.inodes ip).addrs)

theorem saved_disk {k : Key} (hk : k ≠ (d, iblock n sb)) :
    (saved sb d s n ip i).2.disk k = s.2.disk k := Function.update_of_ne hk _ _

theorem dinode_saved {m : ℕ} (hm : m ≠ n) :
    dinode sb ((saved sb d s n ip i).2.dev d) m = dinode sb (s.2.dev d) m := by
  apply dinode_congr
  intro x hx hx'
  by_cases hblk : iblock m sb = iblock n sb
  · have hoff := dinodeOff_ne hm hblk
    have hself : (saved sb d s n ip i).2.dev d (iblock n sb) =
        i.store (s.2.disk (d, iblock n sb)) (dinodeOff n) := Function.update_self _ _ _
    rw [hblk, hself, Inode.store_outside _ _ (by omega)]
    rfl
  · have hother : (saved sb d s n ip i).2.dev d (iblock m sb) = s.2.dev d (iblock m sb) :=
      saved_disk fun he => hblk (Prod.ext_iff.mp he).2
    rw [hother]

include hip hi

theorem present_saved_ne {m : ℕ} (hm : m ≠ n) :
    present sb d (saved sb d s n ip i) m = present sb d s m := by
  apply present_congr
  · exact Core.caches_withInode hi d m
  · intro jp hj
    apply Function.update_of_ne
    rintro rfl
    exact hip.of_ne hm hj
  · intro _
    exact dinode_saved hm

include hc

theorem present_saved_self :
    present sb d (saved sb d s n ip i) n =
      i := by
  have hcache : (saved sb d s n ip i).1.cached d n = some ip := by
    rw [← hc.cached_eq hip]
    exact Core.cached_congr (Core.caches_withInode hi d n)
  unfold present
  rw [hcache]
  exact Function.update_self _ _ _

include hl

omit hi in
theorem saved_dev {x : ℕ} (hx : sb.bmapstart ≤ x) :
    (saved sb d s n ip i).2.dev d x = s.2.dev d x := by
  have hlt := hl.iblock_lt (hc.range n ip hip.1)
  apply saved_disk
  intro he
  rw [Prod.ext_iff] at he
  dsimp only at he
  omega

omit hi in
theorem saved_pointer {q : ℕ × Place} (hq : pointer sb d s q ≠ 0) :
    (saved sb d s n ip i).2.dev d (pointer sb d s q) = s.2.dev d (pointer sb d s q) := by
  apply saved_dev hl hc hip
  have hle := hc.pointer_le hq
  have hlt := (Nat.le_add_right sb.bmapstart (sb.size / BPB)).trans_lt hl.bitmap
  omega

include ha

theorem pointer_saved (q : ℕ × Place) :
    pointer sb d (saved sb d s n ip i) q = pointer sb d s q := by
  have haddrs : (present sb d (saved sb d s n ip i) q.1).addrs =
      (present sb d s q.1).addrs := by
    by_cases hm : q.1 = n
    · rw [hm, present_saved_self hc hip hi, hc.present_eq hip, ha]
    · rw [present_saved_ne hip hi hm]
  apply Inode.pointer_congr
  · intro k _
    rw [haddrs]
  · rw [haddrs]
  · exact fun hne => saved_pointer hl hc hip (q := (q.1, .addr (Fin.last NDIRECT))) hne

omit hi ha in
theorem marked_saved (x : ℕ) : Marked sb d (saved sb d s n ip i) x ↔ Marked sb d s x := by
  have hle : sb.bmapstart ≤ bblock x sb := Nat.le_add_left _ _
  unfold Marked
  rw [saved_dev hl hc hip hle]

theorem blocksFor_saved (I : Finset (ℕ × Place)) :
    blocksFor sb d (saved sb d s n ip i) I = blocksFor sb d s I :=
  demand_congr (fun q _ => pointer_saved hl hc hip hi ha q)
    fun x _ => marked_saved hl hc hip x

theorem consistent_saved :
    Consistent sb d (saved sb d s n ip i) := by
  have hmarked := marked_saved hl hc hip (i := i)
  constructor
  · rw [show pointer sb d (saved sb d s n ip i) = pointer sb d s from
      funext (pointer_saved hl hc hip hi ha)]
    apply hc.owned.mono
    intro b hb
    exact ⟨hb.1, hb.2.1, (hmarked b).mpr hb.2.2⟩
  · intro b hb
    exact (hmarked b).mpr (hc.reserved b hb)
  · intro m jp jp' hj hj'
    apply hc.unique m
    · exact (Core.holds_withInode hi d m jp).mp hj
    · exact (Core.holds_withInode hi d m jp').mp hj'
  · intro m jp hj
    exact hc.range m jp ((Core.holds_withInode hi d m jp).mp hj)

theorem contents_saved (m : ℕ) :
    contents sb d (saved sb d s n ip i) m = contents sb d s m := by
  apply Inode.contents_congr
  intro bn x _
  refine congrFun (Inode.block_congr (pointer_saved hl hc hip hi ha (m, place bn)) ?_) x
  exact fun hne => saved_pointer hl hc hip (q := (m, place bn)) hne

end Saved

variable (sb d) in
/-- The first `tot` bytes of the source are written at `off`, and the inode is saved. -/
def Wrote (n : ℕ) (ip : Slot) (src : Mem) (off len : ℕ) (s : State Store) (tot : ℕ)
    (s' : State Store) : Prop :=
  ∃ s₁ i, Filled sb d n ip src off 0 len s (tot, off + tot) s₁ ∧
    i = { s₁.1.inodes ip with size := max (s.1.inodes ip).size (off + tot) } ∧
    s' = saved sb d s₁ n ip i

theorem write_does {n : ℕ} {ip : Slot} (src : Buffer) {off len : ℕ} (hl : sb.Laid)
    (hc : Consistent sb d s) (hip : s.1.Caches d n ip) (hoff : off ≤ (s.1.inodes ip).size)
    (hwrap : off + len < 2 ^ 32) (hmax : off + len ≤ MAXFILE * BSIZE) :
    Does E (ip.write sb src off len) s fun r s' =>
      ∃ tot : ℕ, r = tot ∧ Wrote sb d n ip (src.view s.2) off len s tot s' := by
  have hguard : ¬(off > (s.1.inodes ip).size ∨ (off + len) % 2 ^ 32 < off) := by
    rw [Nat.mod_eq_of_lt hwrap]
    omega
  unfold Slot.write
  rw [does_bind, does_inode, if_neg hguard, if_neg (by omega), does_bind]
  apply (writeLoop_does src hl len off 0 len hc hip (by omega) (by omega) (by omega)).mono
  rintro ⟨tot, stop⟩ s₁ h₁
  have hstop : stop = off + tot := h₁.stop
  subst hstop
  dsimp only
  obtain ⟨a, ha⟩ := h₁.grows.inodes_self
  have hsize : (s₁.1.inodes ip).size = (s.1.inodes ip).size := by
    rw [ha]
  have hid := hip.1
  have hdev : (s₁.1.inodes ip).dev = d := by
    rw [ha]
    exact hid.2.1
  have hinum : (s₁.1.inodes ip).inum = n := by
    rw [ha]
    exact hid.2.2
  have hnew : (if off + tot > (s₁.1.inodes ip).size then off + tot else (s₁.1.inodes ip).size) =
      max (s.1.inodes ip).size (off + tot) := by
    rw [hsize]
    split_ifs with h
    · omega
    · omega
  rw [does_bind, does_modifyInode, hnew, does_bind]
  refine update_does (d := d) (n := n) ?_ ?_ ?_
  · exact hdev
  · exact hinum
  · exact ⟨tot, rfl, s₁, _, h₁, rfl, rfl⟩

/-- A request is refused beyond the end, around the end of 32 bits, or beyond the largest file. -/
theorem write_refused {ip : Slot} (src : Buffer) {off len : ℕ} (hlen : len < 2 ^ 32)
    (h : (s.1.inodes ip).size < off ∨ 2 ^ 32 ≤ off + len ∨ MAXFILE * BSIZE < off + len) :
    exec coherent (ip.write sb src off len) s = .ok (s, -1) := by
  have hinode : (inode ip).exec (known.extend coherent) s = .ok (s, s.1.inodes ip) := rfl
  unfold exec Slot.write
  rw [Prog.exec_bind_of_ok hinode]
  split_ifs with hguard hbig
  · rfl
  · rfl
  · -- neither of the two tests is passed by
    rw [not_or, Nat.not_lt, Nat.not_lt] at hguard
    have hlt : (off + len) % 2 ^ 32 < 2 ^ 32 := Nat.mod_lt _ (by decide)
    have hwrap : 2 ^ 32 ≤ off + len := by omega
    have hmod : (off + len) % 2 ^ 32 = off + len - 2 ^ 32 := by
      rw [Nat.mod_eq_sub_mod hwrap, Nat.mod_eq_of_lt (by omega)]
    omega

end Multiplix.Fs
