import Multiplix.Fs.Contents

/-! What is written to a file is what is read from it, and no other file changes. -/
namespace Multiplix.Fs
open Lib

variable {sb : Superblock} {d : ℕ} {s s' : State Store} {E : Panic → Prop}

/-- This way to read finds a file with the bytes `f`, `len` of them. -/
def Gives (p : Buffer → ℕ → ℕ → FsM (ℕ × Buffer)) (s : State Store) (f : Mem) (len : ℕ) : Prop :=
  ∀ dst off n, off ≤ len → off + n < 2 ^ 32 → Does (fun _ => False) (p dst off n) s fun r s' =>
    r.1 = min n (len - off) ∧ ∀ x < r.1, r.2.view s'.2 x = f (off + x)

theorem Gives.congr {p : Buffer → ℕ → ℕ → FsM (ℕ × Buffer)} {f f' : Mem} {len : ℕ}
    (h : Gives p s f len) (hf : ∀ x < len, f x = f' x) : Gives p s f' len := by
  intro dst off n hoff hwrap
  apply (h dst off n hoff hwrap).mono
  rintro r s' ⟨hr, hview⟩
  refine ⟨hr, fun x hx => ?_⟩
  rw [hview x hx]
  exact hf _ (by omega)

theorem Slot.gives_read {ip : Slot} {f : Mem} {len : ℕ}
    (hw : (s.1.inodes ip).Whole (s.2.dev (s.1.inodes ip).dev))
    (hf : (s.1.inodes ip).contents (s.2.dev (s.1.inodes ip).dev) = f)
    (hlen : (s.1.inodes ip).size = len) : Gives (ip.read sb) s f len := by
  subst hf hlen
  intro dst off n hoff hwrap
  apply (read_mapped dst hoff hwrap hw.1 (hw.2.mono (Nat.zero_le _) (by omega))).mono
  rintro r s' ⟨hr, -, -, hview⟩
  refine ⟨hr, fun x hx => ?_⟩
  have hle := maxfile_le
  have hmax := hw.1
  rw [hview x (by omega), Mem.copy_inside _ _ _ (Nat.zero_le _) (by omega), Nat.sub_zero]

/-! ### Files that are opened first -/

variable (sb) in
/-- The inode once it is locked. -/
def locked (s : State Store) (jp : Slot) : Inode :=
  if (s.1.inodes jp).valid then s.1.inodes jp
  else { (s.1.inodes jp).load
    (s.2.dev (s.1.inodes jp).dev (iblock (s.1.inodes jp).inum sb))
    (dinodeOff (s.1.inodes jp).inum) with valid := true }

variable (sb) in
/-- The inode is in use, and is in memory or has a type on the disk. -/
def Opens (s : State Store) (jp : Slot) : Prop :=
  0 < (s.1.inodes jp).refcnt ∧ ((s.1.inodes jp).valid = true ∨ (locked sb s jp).type ≠ 0)

theorem locked_like {jp : Slot} : (locked sb s jp).refcnt = (s.1.inodes jp).refcnt ∧
    (locked sb s jp).dev = (s.1.inodes jp).dev ∧ (locked sb s jp).inum = (s.1.inodes jp).inum ∧
    (locked sb s jp).valid = true := by
  unfold locked
  split_ifs with hv
  · exact ⟨rfl, rfl, rfl, hv⟩
  · exact ⟨rfl, rfl, rfl, rfl⟩

theorem lock_does {jp : Slot} (h : Opens sb s jp) :
    Does E (jp.lock sb) s fun _ s' => s' = State.withInode s jp (locked sb s jp) := by
  have hrefcnt : ¬¬1 ≤ (s.1.inodes jp).refcnt := by
    have hpos := h.1
    omega
  unfold Slot.lock
  rw [does_bind, does_inode, if_neg hrefcnt]
  split_ifs with hv
  · have hlocked : locked sb s jp = s.1.inodes jp := if_pos hv
    rw [does_pure, hlocked]
    unfold State.withInode
    rw [Function.update_eq_self]
  · have hlocked : locked sb s jp = { (s.1.inodes jp).load
        (s.2.dev (s.1.inodes jp).dev (iblock (s.1.inodes jp).inum sb))
        (dinodeOff (s.1.inodes jp).inum) with valid := true } := if_neg hv
    have htype : ((s.1.inodes jp).load (s.2.disk ((s.1.inodes jp).dev,
        iblock (s.1.inodes jp).inum sb)) (dinodeOff (s.1.inodes jp).inum)).type ≠ 0 := by
      have hne := h.2.resolve_left hv
      rw [hlocked] at hne
      exact hne
    rw [does_bind, does_bread, does_bind, does_data, does_bind, does_setInode, does_bind,
      does_brelease, does_bind, does_setInode, if_neg htype, does_pure, hlocked]
    unfold State.withInode
    rw [Function.update_idem]
    rfl

/-- A file is locked and read. -/
def Slot.lockRead (sb : Superblock) (jp : Slot) (dst : Buffer) (off n : ℕ) :
    FsM (ℕ × Buffer) := do
  jp.lock sb
  jp.read sb dst off n

theorem Slot.gives_lockRead {jp : Slot} {f : Mem} {len : ℕ} (h : Opens sb s jp)
    (hw : (locked sb s jp).Whole (s.2.dev (s.1.inodes jp).dev))
    (hf : (locked sb s jp).contents (s.2.dev (s.1.inodes jp).dev) = f)
    (hlen : (locked sb s jp).size = len) : Gives (jp.lockRead sb) s f len := by
  intro dst off n hoff hwrap
  have hi : (State.withInode s jp (locked sb s jp)).1.inodes jp = locked sb s jp :=
    Function.update_self _ _ _
  have hdev : (locked sb s jp).dev = (s.1.inodes jp).dev := locked_like.2.1
  unfold lockRead
  rw [does_bind]
  apply (lock_does h).mono
  rintro _ s₁ rfl
  refine gives_read ?_ ?_ ?_ dst off n hoff hwrap
  · rw [hi, hdev]
    exact hw
  · rw [hi, hdev]
    exact hf
  · rw [hi]
    exact hlen

theorem Inode.pointer_of_addrs {i i' : Inode} (h : i'.addrs = i.addrs) (disk : ℕ → Mem)
    (p : Place) : i'.pointer disk p = i.pointer disk p := by
  apply Inode.pointer_congr
  · intro n _
    rw [h]
  · rw [h]
  · exact fun _ => rfl

theorem Inode.contents_of_addrs {i i' : Inode} (h : i'.addrs = i.addrs) (disk : ℕ → Mem) :
    i'.contents disk = i.contents disk := by
  apply Inode.contents_congr
  intro bn x _
  exact congrFun (Inode.block_congr (Inode.pointer_of_addrs h disk _) fun _ => rfl) x

theorem Inode.load_congr {m m' : Mem} {o : ℕ} (h : Inode.init.load m' o = Inode.init.load m o)
    (i : Inode) : i.load m' o = i.load m o := by
  unfold load at h ⊢
  rw [Inode.mk.injEq] at h
  obtain ⟨-, -, -, -, htype, hmajor, hminor, hnlink, hsize, haddrs⟩ := h
  rw [htype, hmajor, hminor, hnlink, hsize, haddrs]

section Locked

variable {jp : Slot} {m : ℕ} (hc : Consistent sb d s) (h : Opens sb s jp)
  (hdev : (s.1.inodes jp).dev = d) (hinum : (s.1.inodes jp).inum = m)

include hc h hdev hinum

theorem fields_locked : (locked sb s jp).size = (present sb d s m).size ∧
    (locked sb s jp).addrs = (present sb d s m).addrs := by
  have hholds : s.1.Holds d m jp := ⟨h.1, hdev, hinum⟩
  unfold locked
  split_ifs with hv
  · rw [hc.present_eq ⟨hholds, hv⟩]
    exact ⟨rfl, rfl⟩
  · have hnone : s.1.cached d m = none := by
      rw [Option.eq_none_iff_forall_ne_some]
      intro ip hip
      have hcache := Core.cached_some hip
      rw [hc.unique m ip jp hcache.1 hholds] at hcache
      exact hv hcache.2
    have htype : (dinode sb (s.2.dev d) m).type ≠ 0 := by
      have hne := h.2.resolve_left hv
      unfold locked at hne
      rw [if_neg hv, hdev, hinum] at hne
      exact hne
    unfold present
    rw [hnone, hdev, hinum]
    dsimp only
    rw [if_pos ⟨hc.range m jp hholds, htype⟩]
    exact ⟨rfl, rfl⟩

theorem addrs_locked : (locked sb s jp).addrs = (present sb d s m).addrs :=
  (fields_locked hc h hdev hinum).2

theorem contents_locked : (locked sb s jp).contents (s.2.dev d) = contents sb d s m :=
  Inode.contents_of_addrs (addrs_locked hc h hdev hinum) _

theorem pointer_locked (p : Place) :
    (locked sb s jp).pointer (s.2.dev d) p = pointer sb d s (m, p) :=
  Inode.pointer_of_addrs (addrs_locked hc h hdev hinum) _ _

omit hc h hdev hinum in
theorem holds_locked (d m : ℕ) (ip : Slot) :
    (State.withInode s jp (locked sb s jp)).1.Holds d m ip ↔ s.1.Holds d m ip := by
  obtain ⟨hrefcnt, hdev, hinum, -⟩ := @locked_like sb s jp
  by_cases hj : ip = jp
  · subst hj
    rw [Core.holds_withInode_self, hrefcnt, hdev, hinum]
    rfl
  · exact Core.holds_withInode_ne hj d m

omit hc in
theorem caches_locked : (State.withInode s jp (locked sb s jp)).1.Caches d m jp := by
  refine ⟨(holds_locked d m jp).mpr ⟨h.1, hdev, hinum⟩, ?_⟩
  rw [State.withInode_inodes, Function.update_self]
  exact locked_like.2.2.2

/-- Locking an inode brings it to memory, and that is all. -/
theorem addrs_withLocked (k : ℕ) :
    (present sb d (State.withInode s jp (locked sb s jp)) k).addrs = (present sb d s k).addrs := by
  have hholds : s.1.Holds d m jp := ⟨h.1, hdev, hinum⟩
  by_cases hk : k = m
  · subst hk
    have hcached : (State.withInode s jp (locked sb s jp)).1.cached d k = some jp :=
      Core.cached_eq (caches_locked h hdev hinum) fun ip hip =>
        hc.unique k _ _ ((holds_locked d k ip).mp hip) hholds
    unfold present
    rw [hcached]
    dsimp only
    rw [State.withInode_inodes, Function.update_self]
    exact addrs_locked hc h hdev hinum
  · have hsame : present sb d (State.withInode s jp (locked sb s jp)) k = present sb d s k := by
      apply present_congr
      · intro ip
        by_cases hj : ip = jp
        · subst hj
          constructor
          · exact fun hip => absurd (((holds_locked d k ip).mp hip.1).2.2.symm.trans hinum) hk
          · exact fun hip => absurd (hip.1.2.2.symm.trans hinum) hk
        · exact Core.caches_withInode_ne hj d k
      · intro ip hip
        rw [State.withInode_inodes, Function.update_of_ne]
        rintro rfl
        exact hk (hip.1.2.2.symm.trans hinum)
      · exact fun _ => rfl
    rw [hsame]

theorem contents_withLocked (k : ℕ) :
    contents sb d (State.withInode s jp (locked sb s jp)) k = contents sb d s k :=
  Inode.contents_of_addrs (addrs_withLocked hc h hdev hinum k) _

theorem consistent_locked : Consistent sb d (State.withInode s jp (locked sb s jp)) := by
  have hpointer : pointer sb d (State.withInode s jp (locked sb s jp)) = pointer sb d s := by
    funext q
    exact Inode.pointer_of_addrs (addrs_withLocked hc h hdev hinum q.1) _ _
  constructor
  · rw [hpointer]
    exact hc.owned
  · exact hc.reserved
  · intro k ip ip' hip hip'
    exact hc.unique k ip ip' ((holds_locked d k ip).mp hip) ((holds_locked d k ip').mp hip')
  · intro k ip hip
    exact hc.range k ip ((holds_locked d k ip).mp hip)

end Locked

namespace Wrote

variable {n off len tot : ℕ} {ip jp : Slot} {src : Mem} (hl : sb.Laid)
  (hip : s.1.Caches d n ip) (h : Wrote sb d n ip src off len s tot s')

include h

theorem inodes_self : ∃ a, s'.1.inodes ip =
    { s.1.inodes ip with addrs := a, size := max (s.1.inodes ip).size (off + tot) } := by
  obtain ⟨s₁, i, h₁, rfl, rfl⟩ := h
  obtain ⟨a, ha⟩ := h₁.grows.inodes_self
  refine ⟨a, ?_⟩
  refine (Function.update_self _ _ _).trans ?_
  rw [ha]

theorem inodes_ne (hj : jp ≠ ip) : s'.1.inodes jp = s.1.inodes jp := by
  obtain ⟨s₁, i, h₁, hi, rfl⟩ := h
  rw [← h₁.grows.inodes_ne hj]
  exact Function.update_of_ne hj _ _

theorem files : s'.1.files = s.1.files := by
  obtain ⟨s₁, i, h₁, hi, rfl⟩ := h
  obtain ⟨a, ha⟩ := h₁.grows.core
  have hsame : s₁.1.files = s.1.files := by
    rw [ha]
    rfl
  exact hsame

theorem disk_ne {k : Key} (hk : k.1 ≠ d) : s'.2.disk k = s.2.disk k := by
  obtain ⟨s₁, i, h₁, hi, rfl⟩ := h
  rw [← h₁.grows.apart k (Or.inl hk)]
  apply saved_disk
  rintro rfl
  exact hk rfl

theorem dinode_ne {m : ℕ} (hm : m ≠ n) (hlt : m < sb.ninodes) :
    dinode sb (s'.2.dev d) m = dinode sb (s.2.dev d) m := by
  obtain ⟨s₁, i, h₁, hi, rfl⟩ := h
  have hsame : s₁.2.dev d (iblock m sb) = s.2.dev d (iblock m sb) :=
    h₁.grows.apart _ (Or.inr (Or.inl ⟨m, hlt, rfl⟩))
  rw [dinode_saved hm]
  unfold dinode
  rw [hsame]

theorem tot_le : tot ≤ len := by
  obtain ⟨s₁, i, h₁, -⟩ := h
  exact h₁.le_len

/-- Blocks are written as a whole. -/
theorem ends : tot = 0 ∨ tot = len ∨ (off + tot) % BSIZE = 0 := by
  obtain ⟨s₁, i, h₁, -⟩ := h
  exact h₁.ends

include hip in
/-- The inode is saved as the blocks left it, but for its size. -/
theorem filled : ∃ s₁ i, Filled sb d n ip src off 0 len s (tot, off + tot) s₁ ∧
    s₁.1.Caches d n ip ∧ i.Like (s₁.1.inodes ip) ∧ i.addrs = (s₁.1.inodes ip).addrs ∧
    s' = saved sb d s₁ n ip i := by
  obtain ⟨s₁, i, h₁, hi, rfl⟩ := h
  refine ⟨s₁, i, h₁, (h₁.grows.caches d n ip).mpr hip, ?_, ?_, rfl⟩
  · rw [hi]
    exact ⟨rfl, rfl, rfl, rfl⟩
  · rw [hi]

include hl hip

theorem consistent : Consistent sb d s' := by
  obtain ⟨s₁, i, h₁, hip₁, hlike, haddrs, rfl⟩ := h.filled hip
  exact consistent_saved hl h₁.grows.consistent hip₁ hlike haddrs

theorem pointer_eq {q : ℕ × Place} (hq : pointer sb d s q ≠ 0 ∨ q.1 ≠ n) :
    pointer sb d s' q = pointer sb d s q := by
  obtain ⟨s₁, i, h₁, hip₁, hlike, haddrs, rfl⟩ := h.filled hip
  rw [pointer_saved hl h₁.grows.consistent hip₁ hlike haddrs]
  exact hq.elim (h₁.grows.keeps q) (h₁.grows.others q)

theorem mapped {x : ℕ} (hx : off ≤ x) (hx' : x < off + tot) :
    pointer sb d s' (n, place (x / BSIZE)) ≠ 0 := by
  obtain ⟨s₁, i, h₁, hip₁, hlike, haddrs, rfl⟩ := h.filled hip
  rw [pointer_saved hl h₁.grows.consistent hip₁ hlike haddrs]
  exact h₁.mapped x hx hx'

theorem contents_self : contents sb d s' n = (contents sb d s n).copy off src 0 tot := by
  obtain ⟨s₁, i, h₁, hip₁, hlike, haddrs, rfl⟩ := h.filled hip
  rw [contents_saved hl h₁.grows.consistent hip₁ hlike haddrs]
  exact h₁.contents

theorem contents_ne {m : ℕ} (hm : m ≠ n) : contents sb d s' m = contents sb d s m := by
  obtain ⟨s₁, i, h₁, hip₁, hlike, haddrs, rfl⟩ := h.filled hip
  rw [contents_saved hl h₁.grows.consistent hip₁ hlike haddrs]
  exact h₁.others m hm

theorem full (htot : tot < len) : Full sb d s' := by
  obtain ⟨s₁, i, h₁, hip₁, hlike, haddrs, rfl⟩ := h.filled hip
  intro b hb
  have hle : sb.bmapstart ≤ bblock b sb := Nat.le_add_left _ _
  have hmark := (h₁.full htot).1 b hb
  unfold Marked at hmark ⊢
  rwa [saved_dev hl h₁.grows.consistent hip₁ hle]

/-- A write that is cut short stops at a hole. -/
theorem stuck (htot : tot < len) : pointer sb d s' (n, place ((off + tot) / BSIZE)) = 0 := by
  obtain ⟨s₁, i, h₁, hip₁, hlike, haddrs, rfl⟩ := h.filled hip
  rw [pointer_saved hl h₁.grows.consistent hip₁ hlike haddrs]
  exact (h₁.full htot).2

theorem blocks {I : Finset (ℕ × Place)} (hI : Covers I n off len) :
    blocksFor sb d s' I = blocksFor sb d s I := by
  obtain ⟨s₁, i, h₁, hip₁, hlike, haddrs, rfl⟩ := h.filled hip
  rw [blocksFor_saved hl h₁.grows.consistent hip₁ hlike haddrs]
  exact h₁.blocks I hI

end Wrote

variable (sb d) in
/-- By one write or by several, the file in `ip` has got the bytes of the source from `i` on, `tot`
of `len`, at `off`. They stop short at the largest file, or at a hole when no block is left. -/
structure Puts (n : ℕ) (ip : Slot) (src : Mem) (i off len : ℕ) (s : State Store) (tot : ℕ)
    (s' : State Store) : Prop where
  le : tot ≤ len
  consistent : Consistent sb d s'
  inode : ∃ a, s'.1.inodes ip =
    { s.1.inodes ip with addrs := a, size := max (s.1.inodes ip).size (off + tot) }
  user : s'.2.user = s.2.user
  keeps : ∀ q, pointer sb d s q ≠ 0 ∨ q.1 ≠ n → pointer sb d s' q = pointer sb d s q
  mapped : ∀ x, off ≤ x → x < off + tot → pointer sb d s' (n, place (x / BSIZE)) ≠ 0
  contents : contents sb d s' n = (contents sb d s n).copy off src i tot
  others : ∀ m, m ≠ n → Fs.contents sb d s' m = Fs.contents sb d s m
  blocks : ∀ I, Covers I n off len → blocksFor sb d s' I = blocksFor sb d s I
  stuck : tot < len → MAXFILE * BSIZE < off + len ∨
    Full sb d s' ∧ pointer sb d s' (n, place ((off + tot) / BSIZE)) = 0

theorem Wrote.puts {n off len tot : ℕ} {ip : Slot} {src : Mem} (hl : sb.Laid)
    (hip : s.1.Caches d n ip) (h : Wrote sb d n ip src off len s tot s') :
    Puts sb d n ip src 0 off len s tot s' where
  le := h.tot_le
  consistent := h.consistent hl hip
  inode := h.inodes_self
  user := by
    obtain ⟨s₁, i, h₁, -, rfl⟩ := h
    exact h₁.grows.user
  keeps _ hq := h.pointer_eq hl hip hq
  mapped _ hx hx' := h.mapped hl hip hx hx'
  contents := h.contents_self hl hip
  others _ hm := h.contents_ne hl hip hm
  blocks _ hI := h.blocks hl hip hI
  stuck htot := Or.inr ⟨h.full hl hip htot, h.stuck hl hip htot⟩

namespace Puts

variable {n i off len tot k : ℕ} {ip : Slot} {src : Mem}

/-- Nothing is written. -/
theorem nil (hc : Consistent sb d s) (hoff : off ≤ (s.1.inodes ip).size)
    (hlen : 0 < len → MAXFILE * BSIZE < off + len) : Puts sb d n ip src i off len s 0 s where
  le := Nat.zero_le _
  consistent := hc
  inode := ⟨(s.1.inodes ip).addrs, by rw [Nat.add_zero, max_eq_left hoff]⟩
  user := rfl
  keeps _ _ := rfl
  mapped x hx hx' := by omega
  contents := (Mem.copy_zero _ _ _ _).symm
  others _ _ := rfl
  blocks _ _ := rfl
  stuck hlt := Or.inl (hlen hlt)

/-- What was cut short is cut short of any more. -/
theorem short (h : Puts sb d n ip src i off k s tot s') (htot : tot < k) (hk : k ≤ len) :
    Puts sb d n ip src i off len s tot s' :=
  { h with
    le := h.le.trans hk
    blocks := fun I hI => h.blocks I (hI.mono le_rfl (by omega))
    stuck := fun _ => (h.stuck htot).imp (fun hmax => by omega) id }

/-- One piece is written, and then the rest. -/
theorem append (h : Puts sb d n ip src i off k s k s') (hk : k ≤ len)
    (h' : Puts sb d n ip src (i + k) (off + k) (len - k) s' tot s'') :
    Puts sb d n ip src i off len s (k + tot) s'' where
  le := by
    have hle := h'.le
    omega
  consistent := h'.consistent
  inode := by
    obtain ⟨a, ha⟩ := h.inode
    obtain ⟨a', ha'⟩ := h'.inode
    refine ⟨a', ?_⟩
    rw [ha', ha]
    dsimp only
    rw [max_assoc, max_eq_right (by omega : off + k ≤ off + k + tot), Nat.add_assoc]
  user := h'.user.trans h.user
  keeps q hq := by
    have hkeep := h.keeps q hq
    rw [h'.keeps q (by rwa [hkeep]), hkeep]
  mapped x hx hx' := by
    by_cases hin : x < off + k
    · have hmap := h.mapped x hx hin
      rwa [h'.keeps _ (Or.inl hmap)]
    · exact h'.mapped x (by omega) (by omega)
  contents := by rw [h'.contents, h.contents, Mem.copy_copy]
  others m hm := (h'.others m hm).trans (h.others m hm)
  blocks I hI := by
    rw [h'.blocks I (hI.mono (by omega) (by omega)), h.blocks I (hI.mono le_rfl (by omega))]
  stuck htot := by
    have hle : off + k + (len - k) = off + len := by omega
    have hstop : off + k + tot = off + (k + tot) := Nat.add_assoc _ _ _
    rw [← hstop, ← hle]
    exact h'.stuck (by omega)

theorem caches (h : Puts sb d n ip src i off len s tot s') (hip : s.1.Caches d n ip) :
    s'.1.Caches d n ip := by
  obtain ⟨a, ha⟩ := h.inode
  unfold Core.Caches Core.Holds
  rw [ha]
  exact hip

/-- No block lies beyond the largest file. -/
theorem le_maxfile (h : Puts sb d n ip src i off len s tot s') (htot : 0 < tot) :
    off + tot ≤ MAXFILE * BSIZE := by
  by_contra hlt
  have hmap := h.mapped (off + tot - 1) (by omega) (by omega)
  have hbn : MAXFILE ≤ (off + tot - 1) / BSIZE :=
    (Nat.le_div_iff_mul_le (by decide)).mpr (by omega)
  have hmax : MAXFILE = NDIRECT + NINDIRECT := rfl
  apply hmap
  unfold place
  rw [dif_neg (by omega)]
  exact Inode.pointer_hole (Or.inr (by omega))

theorem whole (h : Puts sb d n ip src i off len s tot s') (hip : s.1.Caches d n ip)
    (hc : Consistent sb d s) (hw : (s.1.inodes ip).Whole (s.2.dev d))
    (hoff : off ≤ (s.1.inodes ip).size) : (s'.1.inodes ip).Whole (s'.2.dev d) := by
  obtain ⟨a, ha⟩ := h.inode
  constructor
  · have hold := hw.1
    have hnew := h.le_maxfile
    rw [ha]
    exact max_le hold (by omega)
  · intro x _ hx
    rw [← h.consistent.pointer_eq (h.caches hip)]
    by_cases hin : off ≤ x ∧ x < off + tot
    · exact h.mapped x hin.1 hin.2
    · rw [ha] at hx
      rw [Nat.zero_add, lt_max_iff] at hx
      have hold := hw.2 x (Nat.zero_le _) (by omega)
      rw [← hc.pointer_eq hip] at hold
      rwa [h.keeps _ (Or.inl hold)]

end Puts

variable (sb) in
/-- The file reads the same in both states. -/
def ReadsSame (jp : Slot) (s s' : State Store) : Prop :=
  ∃ f len, Gives (jp.lockRead sb) s f len ∧ Gives (jp.lockRead sb) s' f len

/-- Another file is left as it is. -/
theorem Wrote.readsSame {n off len tot : ℕ} {ip jp : Slot} {src : Mem} (hl : sb.Laid)
    (hc : Consistent sb d s) (hip : s.1.Caches d n ip)
    (h : Wrote sb d n ip src off len s tot s')
    (hne : ¬((s.1.inodes jp).dev = d ∧ (s.1.inodes jp).inum = n)) (hopen : Opens sb s jp)
    (hw : (locked sb s jp).Whole (s.2.dev (s.1.inodes jp).dev)) : ReadsSame sb jp s s' := by
  have hj : jp ≠ ip := by
    rintro rfl
    exact hne hip.1.2
  have hsame := h.inodes_ne hj
  have hlocked : locked sb s' jp = locked sb s jp := by
    unfold locked
    rw [hsame]
    split_ifs with hv
    · rfl
    · have hload : (s.1.inodes jp).load (s'.2.dev (s.1.inodes jp).dev
          (iblock (s.1.inodes jp).inum sb)) (dinodeOff (s.1.inodes jp).inum) =
          (s.1.inodes jp).load (s.2.dev (s.1.inodes jp).dev (iblock (s.1.inodes jp).inum sb))
            (dinodeOff (s.1.inodes jp).inum) := by
        apply Inode.load_congr
        by_cases hd : (s.1.inodes jp).dev = d
        · rw [hd]
          apply h.dinode_ne fun hn => hne ⟨hd, hn⟩
          exact hc.range _ jp ⟨hopen.1, hd, rfl⟩
        · have hblk : s'.2.dev (s.1.inodes jp).dev = s.2.dev (s.1.inodes jp).dev :=
            funext fun b => h.disk_ne hd
          rw [hblk]
      rw [hload]
  have hopen' : Opens sb s' jp := by
    unfold Opens
    rw [hsame, hlocked]
    exact hopen
  have hboth : (locked sb s jp).Whole (s'.2.dev (s.1.inodes jp).dev) ∧
      (locked sb s jp).contents (s'.2.dev (s.1.inodes jp).dev) =
        (locked sb s jp).contents (s.2.dev (s.1.inodes jp).dev) := by
    by_cases hd : (s.1.inodes jp).dev = d
    · have hn : (s.1.inodes jp).inum ≠ n := fun hn => hne ⟨hd, hn⟩
      have hc' := h.consistent hl hip
      have hd' : (s'.1.inodes jp).dev = d := by rw [hsame, hd]
      have hn' : (s'.1.inodes jp).inum = (s.1.inodes jp).inum := by rw [hsame]
      rw [hd] at hw ⊢
      constructor
      · refine ⟨hw.1, fun x hx hx' => ?_⟩
        rw [← hlocked, pointer_locked hc' hopen' hd' hn', h.pointer_eq hl hip (Or.inr hn),
          ← pointer_locked hc hopen hd rfl]
        exact hw.2 x hx hx'
      · rw [contents_locked hc hopen hd rfl, ← hlocked, contents_locked hc' hopen' hd' hn',
          h.contents_ne hl hip hn]
    · have hblk : s'.2.dev (s.1.inodes jp).dev = s.2.dev (s.1.inodes jp).dev :=
        funext fun b => h.disk_ne hd
      rw [hblk]
      exact ⟨hw, rfl⟩
  refine ⟨_, _, Slot.gives_lockRead hopen hw rfl rfl, Slot.gives_lockRead hopen' ?_ ?_ ?_⟩
  · rw [hsame, hlocked]
    exact hboth.1
  · rw [hsame, hlocked]
    exact hboth.2
  · rw [hlocked]

/-! ### A small disk -/

/-- Blocks 2 and 3 have the inodes and the bitmap, and 4 to 9 are for data. -/
def smallSb : Superblock := ⟨10, 6, 3, 2, 3⟩

/-- The only inode is in memory, and block 4 is its first block. -/
def smallInode (type size : ℕ) : Inode :=
  { Inode.init with
    dev := ROOTDEV, inum := 1, refcnt := 1, valid := true, type := type, nlink := 1, size := size,
    addrs := fun k => if k = 0 then 4 else 0 }

theorem NINODE_pos : 0 < NINODE := by decide

/-- The first slot of the table. -/
def slot₀ : Slot := ⟨0, NINODE_pos⟩

def small (type size : ℕ) (blk : Mem) : State Store :=
  ({ Core.init with inodes := Function.update Core.init.inodes slot₀ (smallInode type size) },
    ⟨fun k => if k = (ROOTDEV, 2) then fun x => if x = 64 then 1 else 0
      else if k = (ROOTDEV, 3) then fun x => if x = 0 then 0x1F else 0
      else if k = (ROOTDEV, 4) then blk else fun _ => 0, fun _ => 0⟩)

theorem smallSb_laid : smallSb.Laid := ⟨by decide, by decide, by decide⟩

section Small

variable (type size : ℕ) (blk : Mem)

theorem small_inode : (small type size blk).1.inodes slot₀ = smallInode type size := by
  unfold small
  dsimp only
  rw [Function.update_self]

theorem small_caches : (small type size blk).1.Caches ROOTDEV 1 slot₀ := by
  unfold Core.Caches Core.Holds
  rw [small_inode]
  exact ⟨⟨one_pos, rfl, rfl⟩, rfl⟩

theorem small_holds {d n : ℕ} {ip : Slot} (h : (small type size blk).1.Holds d n ip) :
    ip = slot₀ ∧ n = 1 := by
  have hip : ip = slot₀ := by
    by_contra hne
    have hrefcnt : ((small type size blk).1.inodes ip).refcnt = 0 := by
      have hother : (small type size blk).1.inodes ip = Inode.init := Function.update_of_ne hne _ _
      rw [hother]
      rfl
    have hpos := h.1
    omega
  subst hip
  have hinum := h.2.2
  rw [small_inode] at hinum
  exact ⟨rfl, hinum.symm⟩

/-- Only one place refers to a block. -/
theorem pointer_small (q : ℕ × Place) : pointer smallSb ROOTDEV (small type size blk) q =
    if q = (1, .addr 0) then 4 else 0 := by
  obtain ⟨n, p⟩ := q
  by_cases hn : n = 1
  · subst hn
    have hcached : (small type size blk).1.cached ROOTDEV 1 = some slot₀ :=
      Core.cached_eq (small_caches type size blk) fun ip h => (small_holds type size blk h).1
    have hpresent : present smallSb ROOTDEV (small type size blk) 1 = smallInode type size := by
      unfold present
      rw [hcached]
      exact small_inode type size blk
    unfold pointer
    rw [hpresent]
    cases p with
    | addr k =>
      by_cases hk : k = 0
      · rw [hk]
        rfl
      · rw [if_neg fun he => hk (Place.addr.inj (Prod.ext_iff.mp he).2)]
        exact if_neg hk
    | entry j =>
      rw [if_neg fun he => Place.noConfusion (Prod.ext_iff.mp he).2]
      exact Inode.pointer_hole (Or.inl rfl)
  · have hcached : (small type size blk).1.cached ROOTDEV n = none := by
      rw [Option.eq_none_iff_forall_ne_some]
      intro ip hip
      exact hn (small_holds type size blk (Core.cached_some hip).1).2
    have hpresent : present smallSb ROOTDEV (small type size blk) n = Inode.init := by
      unfold present
      rw [hcached]
      apply if_neg
      rintro ⟨hlt, htype⟩
      apply htype
      have hother : n = 0 ∨ n = 2 := by
        have hthree : n < 3 := hlt
        omega
      rcases hother with rfl | rfl
      · rfl
      · rfl
    rw [if_neg fun he => hn (Prod.ext_iff.mp he).1]
    unfold pointer
    rw [hpresent]
    cases p with
    | addr k => rfl
    | entry j => exact Inode.pointer_hole (Or.inl rfl)

theorem consistent_small : Consistent smallSb ROOTDEV (small type size blk) := by
  have hmarked (b : ℕ) (hb : b < 5) : Marked smallSb ROOTDEV (small type size blk) b := by
    have hall : ∀ b : Fin 5, bitClear (fun x => if x = 0 then 0x1F else 0) b = false := by decide
    have hdiv : b / BPB = 0 := Nat.div_eq_of_lt (hb.trans (by decide))
    have hmod : b % BPB = b := Nat.mod_eq_of_lt (hb.trans (by decide))
    unfold Marked bblock
    rw [hdiv, hmod]
    exact hall ⟨b, hb⟩
  constructor
  · constructor
    · intro p q hp he
      rw [pointer_small] at hp he
      rw [pointer_small] at he
      split_ifs at hp he with h h'
      · rw [h, h']
      · exact absurd rfl hp
    · intro p hp
      rw [pointer_small] at hp ⊢
      split_ifs at hp ⊢
      · exact ⟨by decide, by decide, hmarked 4 (by decide)⟩
      · exact absurd rfl hp
  · intro b hb
    have hlt : b < 4 := hb
    exact hmarked b (by omega)
  · intro n ip ip' h h'
    rw [(small_holds type size blk h).1, (small_holds type size blk h').1]
  · intro n ip h
    rw [(small_holds type size blk h).2]
    decide

theorem whole_small (hsize : size ≤ BSIZE) :
    (smallInode type size).Whole ((small type size blk).2.dev ROOTDEV) := by
  constructor
  · exact hsize.trans (by decide)
  · intro x _ hx
    have hdiv : x / BSIZE = 0 := by
      rw [smallInode] at hx
      dsimp only at hx
      exact Nat.div_eq_of_lt (by omega)
    rw [hdiv]
    exact Nat.noConfusion

end Small

/-! ### The law -/

/-- The file is read as it is, and a write either is refused and changes nothing, or replaces the
bytes that it writes, extends the file if it has to, and changes nothing else. It is cut short only
if no block is left. -/
theorem file_law {n : ℕ} {ip : Slot} (hl : sb.Laid) (hc : Consistent sb d s)
    (hip : s.1.Caches d n ip) (hw : (s.1.inodes ip).Whole (s.2.dev d)) :
    Gives (ip.read sb) s (contents sb d s n) (s.1.inodes ip).size ∧
    ∀ (src : Buffer) (off len : ℕ), off < 2 ^ 32 → len < 2 ^ 32 →
      if (s.1.inodes ip).size < off ∨ 2 ^ 32 ≤ off + len ∨ MAXFILE * BSIZE < off + len then
        exec coherent (ip.write sb src off len) s = .ok (s, -1)
      else ∃ (s' : State Store) (r : ℕ),
        exec coherent (ip.write sb src off len) s = .ok (s', (r : ℤ)) ∧ r ≤ len ∧
        (r < len → Full sb d s') ∧
        (s'.1.inodes ip).size = max (s.1.inodes ip).size (off + r) ∧
        Gives (ip.read sb) s' ((contents sb d s n).copy off (src.view s.2) 0 r)
          (max (s.1.inodes ip).size (off + r)) ∧
        (∀ jp, ¬((s.1.inodes jp).dev = d ∧ (s.1.inodes jp).inum = n) → Opens sb s jp →
          (locked sb s jp).Whole (s.2.dev (s.1.inodes jp).dev) → ReadsSame sb jp s s') ∧
        Consistent sb d s' := by
  have hdev : (s.1.inodes ip).dev = d := hip.1.2.1
  constructor
  · apply Slot.gives_read
    · rwa [hdev]
    · rw [hdev, contents, hc.present_eq hip]
    · rfl
  intro src off len hoff hlen
  split_ifs with hrefused
  · exact write_refused src hlen hrefused
  · rw [not_or, not_or, Nat.not_lt, Nat.not_le, Nat.not_lt] at hrefused
    obtain ⟨hin, hwrap, hmax⟩ := hrefused
    obtain ⟨s', r, hexec, tot, rfl, h⟩ := (write_does src hl hc hip hin hwrap hmax).ends
    have hle : tot ≤ len := by
      obtain ⟨s₁, -, h₁, -, -⟩ := h
      exact h₁.le_len
    obtain ⟨a, ha⟩ := h.inodes_self
    have hc' := h.consistent hl hip
    have hip' : s'.1.Caches d n ip := by
      unfold Core.Caches Core.Holds
      rw [ha]
      exact hip
    refine ⟨s', tot, hexec, hle, h.full hl hip, ?_, ?_, ?_, hc'⟩
    · rw [ha]
    · apply Slot.gives_read
      · rw [hip'.1.2.1]
        exact (h.puts hl hip).whole hip hc hw hin
      · rw [hip'.1.2.1, ← h.contents_self hl hip, contents, hc'.present_eq hip']
      · rw [ha]
    · intro jp hne hopen hwj
      exact h.readsSame hl hc hip hne hopen hwj

/-- Three bytes are written to a file of five, at the last of them. -/
theorem file_law_small : ∃ (s' : State Store) (r : ℕ),
    exec coherent (slot₀.write smallSb (.kernel fun _ => 66) 4 3) (small T_FILE 5 fun _ => 65) =
      .ok (s', (r : ℤ)) ∧ r ≤ 3 ∧
    Gives (slot₀.read smallSb) s' ((contents smallSb ROOTDEV (small T_FILE 5 fun _ => 65) 1).copy 4
      (fun _ => 66) 0 r) (max 5 (4 + r)) := by
  have hi := small_inode T_FILE 5 fun _ => 65
  have hw := whole_small T_FILE 5 (fun _ => 65) (by decide)
  rw [← hi] at hw
  have hlaw := (file_law smallSb_laid (consistent_small T_FILE 5 fun _ => 65)
    (small_caches T_FILE 5 fun _ => 65) hw).2 (.kernel fun _ => 66) 4 3 (by decide) (by decide)
  rw [hi, if_neg (by decide)] at hlaw
  obtain ⟨s', r, hexec, hr, -, -, hgives, -⟩ := hlaw
  exact ⟨s', r, hexec, hr, hgives⟩

end Multiplix.Fs
