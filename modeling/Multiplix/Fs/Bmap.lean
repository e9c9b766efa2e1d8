import Multiplix.Fs.Volume

/-! `balloc` and `bmap` on a consistent disk. -/
namespace Multiplix.Fs
open Lib

variable {sb : Superblock} {d : ℕ} {s s' s'' : State Store} {E : Panic → Prop}

theorem findClear_some {m : Mem} {n x bi : ℕ} (h : findClear m n x = some bi) :
    x ≤ bi ∧ bi < x + n ∧ bitClear m bi = true := by
  induction n generalizing x with
  | zero => cases h
  | succ n ih =>
    unfold findClear at h
    split_ifs at h with hclear
    · rw [Option.some.injEq] at h
      subst h
      exact ⟨le_rfl, by omega, hclear⟩
    · obtain ⟨hle, hlt, hbit⟩ := ih h
      exact ⟨by omega, by omega, hbit⟩

theorem findClear_none {m : Mem} {n x : ℕ} (h : findClear m n x = none) :
    ∀ bi, x ≤ bi → bi < x + n → bitClear m bi = false := by
  induction n generalizing x with
  | zero =>
    intro bi hle hlt
    omega
  | succ n ih =>
    unfold findClear at h
    split_ifs at h with hclear
    intro bi hle hlt
    by_cases he : bi = x
    · rw [he]
      exact Bool.eq_false_iff.mpr hclear
    · exact ih h bi (by omega) (by omega)

variable (sb d s) in
/-- A free block is taken: it is marked and cleared. -/
def taken (b : ℕ) : State Store :=
  State.withBlock (State.withBlock s (d, bblock b sb)
      (setBit (s.2.disk (d, bblock b sb)) (b % BPB))) (d, b)
    (((State.withBlock s (d, bblock b sb)
      (setBit (s.2.disk (d, bblock b sb)) (b % BPB))).2.disk (d, b)).fill 0 BSIZE 0)

theorem ballocLoop_does (n b : ℕ) (hb : b % BPB = 0) (hlow : ∀ x < b, x < sb.size → Marked sb d s x)
    (hn : sb.size ≤ b + n * BPB) :
    Does E (ballocLoop sb d n b) s fun r s' =>
      r = 0 ∧ s' = s ∧ Full sb d s ∨ r < sb.size ∧ ¬Marked sb d s r ∧ s' = taken sb d s r := by
  induction n generalizing b with
  | zero =>
    left
    refine ⟨rfl, rfl, fun x hx => hlow x (by omega) hx⟩
  | succ n ih =>
    unfold ballocLoop
    rw [does_bind, does_bread, does_bind, does_data]
    have hpos : 0 < BPB := by decide
    have hbit (bi : ℕ) (hbi : bi < BPB) :
        bblock (b + bi) sb = bblock b sb ∧ (b + bi) % BPB = bi := by
      have hdiv := Nat.div_add_mod b BPB
      rw [hb, Nat.add_zero] at hdiv
      unfold bblock
      constructor
      · rw [← hdiv, Nat.mul_add_div hpos, Nat.div_eq_of_lt hbi, Nat.mul_div_cancel_left _ hpos,
          Nat.add_zero]
      · rw [← hdiv, Nat.mul_add_mod, Nat.mod_eq_of_lt hbi]
    cases hf : findClear (s.2.disk (d, bblock b sb)) (min BPB (sb.size - b)) 0 with
    | some bi =>
      obtain ⟨-, hlt, hclear⟩ := findClear_some hf
      rw [Nat.zero_add, lt_min_iff] at hlt
      obtain ⟨hblk, hmod⟩ := hbit bi hlt.1
      right
      refine ⟨by omega, ?_, ?_⟩
      · unfold Marked Store.dev
        rw [hblk, hmod, hclear]
        exact Bool.noConfusion
      · unfold taken
        rw [hblk, hmod]
        rfl
    | none =>
      dsimp only
      rw [does_bind, does_brelease]
      apply ih
      · rw [Nat.add_mod_right, hb]
      · intro x hx hsize
        by_cases hxb : x < b
        · exact hlow x hxb hsize
        · obtain ⟨hblk, hmod⟩ := hbit (x - b) (by omega)
          rw [Nat.add_sub_cancel' (by omega)] at hblk hmod
          unfold Marked Store.dev
          rw [hblk, hmod]
          apply findClear_none hf _ (Nat.zero_le _)
          rw [Nat.zero_add, lt_min_iff]
          omega
      · rw [Nat.succ_mul] at hn
        omega

theorem balloc_does : Does E (balloc sb d) s fun r s' =>
    r = 0 ∧ s' = s ∧ Full sb d s ∨ r < sb.size ∧ ¬Marked sb d s r ∧ s' = taken sb d s r := by
  apply ballocLoop_does
  · rfl
  · intro x hx
    omega
  · have hpos : 0 < BPB := by decide
    have hdiv := Nat.lt_mul_div_succ (sb.size + BPB - 1) hpos
    rw [Nat.mul_add, Nat.mul_one, Nat.mul_comm] at hdiv
    omega

/-! ### A block is taken -/

section Taken

variable {b : ℕ}

theorem taken_disk {k : Key} (hbit : k ≠ (d, bblock b sb)) (hb : k ≠ (d, b)) :
    (taken sb d s b).2.disk k = s.2.disk k := by
  unfold taken
  rw [State.withBlock_disk, Function.update_of_ne hb, State.withBlock_disk,
    Function.update_of_ne hbit]

theorem taken_dev {x : ℕ} (hbit : x ≠ bblock b sb) (hb : x ≠ b) :
    (taken sb d s b).2.dev d x = s.2.dev d x :=
  taken_disk (fun h => hbit (Prod.ext_iff.mp h).2) fun h => hb (Prod.ext_iff.mp h).2

theorem taken_self {x : ℕ} (hx : x < BSIZE) : (taken sb d s b).2.dev d b x = 0 := by
  unfold taken Store.dev
  rw [State.withBlock_disk, Function.update_self]
  exact Mem.fill_inside _ _ (Nat.zero_le _) (by omega)

theorem taken_dev_self : ∃ m : Mem, (taken sb d s b).2.dev d b = m.fill 0 BSIZE 0 :=
  ⟨_, Function.update_self _ _ _⟩

variable (hl : sb.Laid) (hc : Consistent sb d s) (hlt : b < sb.size) (hb : ¬Marked sb d s b)

include hl hc hlt hb

omit hlt in
theorem taken_bblock (x : ℕ) (hx : x < sb.size) :
    (taken sb d s b).2.dev d (bblock x sb) =
      if bblock x sb = bblock b sb then setBit (s.2.dev d (bblock b sb)) (b % BPB)
      else s.2.dev d (bblock x sb) := by
  have hne : bblock x sb ≠ b := by
    have hltx := hl.bblock_lt hx
    have hle := hc.free_le hb
    omega
  split_ifs with he
  · rw [he] at hne ⊢
    unfold taken Store.dev
    rw [State.withBlock_disk, Function.update_of_ne fun h => hne (Prod.ext_iff.mp h).2,
      State.withBlock_disk, Function.update_self]
  · exact taken_dev he hne

omit hlt in
theorem free_pos : b ≠ 0 := by
  have hle := hc.free_le hb
  have hpos := (Nat.zero_le _).trans_lt hl.bitmap
  omega

theorem marked_taken {x : ℕ} (hx : x < sb.size) :
    Marked sb d (taken sb d s b) x ↔ Marked sb d s x ∨ x = b := by
  unfold Marked
  rw [taken_bblock hl hc hb x hx]
  by_cases he : x = b
  · subst he
    rw [if_pos rfl, bitClear_setBit_self]
    simp
  · rw [or_iff_left he]
    split_ifs with hblk
    · have hdiv : x / BPB = b / BPB := by
        unfold bblock at hblk
        omega
      rw [bitClear_setBit_of_ne _ fun hmod => he ?_, hblk]
      rw [← Nat.div_add_mod x BPB, hdiv, hmod, Nat.div_add_mod]
    · exact Iff.rfl

omit hlt in
theorem present_taken (n : ℕ) : present sb d (taken sb d s b) n = present sb d s n := by
  apply present_congr
  · intro ip
    exact Iff.rfl
  · intro ip _
    rfl
  · intro hn
    have hne : iblock n sb ≠ b := by
      have hltn := hl.iblock_lt_meta hn
      have hle := hc.free_le hb
      omega
    unfold dinode
    rw [taken_dev (hl.iblock_ne_bblock hn) hne]

/-- A block that is referred to is left as it is. -/
theorem taken_pointer {q : ℕ × Place} (hq : pointer sb d s q ≠ 0) :
    (taken sb d s b).2.dev d (pointer sb d s q) = s.2.dev d (pointer sb d s q) := by
  apply taken_dev
  · have hltb := hl.bblock_lt hlt
    have hle := hc.pointer_le hq
    omega
  · exact hc.pointer_ne hq hb

theorem pointer_taken (q : ℕ × Place) : pointer sb d (taken sb d s b) q = pointer sb d s q := by
  unfold pointer
  rw [present_taken hl hc hb]
  apply Inode.pointer_congr fun _ _ => rfl
  · rfl
  exact taken_pointer hl hc hlt hb (q := (q.1, .addr (Fin.last NDIRECT)))

end Taken

/-! ### What a file may do to the disk -/

variable (sb d s) in
/-- A block that does not belong to the file: of another device, of the inodes, or of another
file. -/
def Apart (n : ℕ) (k : Key) : Prop :=
  k.1 ≠ d ∨ (∃ m < sb.ninodes, k.2 = iblock m sb) ∨
    ∃ q, q.1 ≠ n ∧ pointer sb d s q ≠ 0 ∧ k.2 = pointer sb d s q

variable (sb d) in
/-- The inode in `ip` may get more blocks, and change those it has. -/
structure Grows (n : ℕ) (ip : Slot) (s s' : State Store) : Prop where
  core : ∃ a, s'.1 = (State.withInode s ip { s.1.inodes ip with addrs := a }).1
  user : s'.2.user = s.2.user
  consistent : Consistent sb d s'
  keeps : ∀ q, pointer sb d s q ≠ 0 → pointer sb d s' q = pointer sb d s q
  others : ∀ q, q.1 ≠ n → pointer sb d s' q = pointer sb d s q
  apart : ∀ k, Apart sb d s n k → s'.2.disk k = s.2.disk k

namespace Grows

variable {n : ℕ} {ip : Slot}

theorem refl (hc : Consistent sb d s) : Grows sb d n ip s s where
  core := ⟨(s.1.inodes ip).addrs, by
    unfold State.withInode
    rw [Function.update_eq_self]⟩
  user := rfl
  consistent := hc
  keeps _ _ := rfl
  others _ _ := rfl
  apart _ _ := rfl

theorem trans (h : Grows sb d n ip s s') (h' : Grows sb d n ip s' s'') :
    Grows sb d n ip s s'' where
  core := by
    obtain ⟨a, ha⟩ := h.core
    obtain ⟨a', ha'⟩ := h'.core
    refine ⟨a', ?_⟩
    rw [ha']
    unfold State.withInode
    rw [ha]
    simp [State.withInode]
  user := h'.user.trans h.user
  consistent := h'.consistent
  keeps q hq := by
    have he := h.keeps q hq
    rw [h'.keeps q (by rwa [he]), he]
  others q hq := (h'.others q hq).trans (h.others q hq)
  apart k hk := by
    rw [h'.apart k ?_, h.apart k hk]
    rcases hk with hk | hk | ⟨q, hq, hne, he⟩
    · exact Or.inl hk
    · exact Or.inr (Or.inl hk)
    · refine Or.inr (Or.inr ⟨q, hq, ?_, ?_⟩)
      · rwa [h.others q hq]
      · rwa [h.others q hq]

theorem inodes_ne (h : Grows sb d n ip s s') {jp : Slot} (hj : jp ≠ ip) :
    s'.1.inodes jp = s.1.inodes jp := by
  obtain ⟨a, ha⟩ := h.core
  rw [ha, State.withInode_inodes, Function.update_of_ne hj]

theorem inodes_self (h : Grows sb d n ip s s') :
    ∃ a, s'.1.inodes ip = { s.1.inodes ip with addrs := a } := by
  obtain ⟨a, ha⟩ := h.core
  exact ⟨a, by rw [ha, State.withInode_inodes, Function.update_self]⟩

theorem caches (h : Grows sb d n ip s s') (d' m : ℕ) (jp : Slot) :
    s'.1.Caches d' m jp ↔ s.1.Caches d' m jp := by
  unfold Core.Caches Core.Holds
  by_cases hj : jp = ip
  · obtain ⟨a, ha⟩ := h.inodes_self
    rw [hj, ha]
  · rw [h.inodes_ne hj]

end Grows

/-! ### Enough free blocks -/

instance : DecidablePred (Marked sb d s) := fun b =>
  inferInstanceAs (Decidable (bitClear (s.2.dev d (bblock b sb)) (b % BPB) = false))

variable (sb d s) in
/-- How many blocks are in use, or are still to be given to these places. -/
def blocksFor (I : Finset (ℕ × Place)) : ℕ := demand I sb.size (pointer sb d s) (Marked sb d s)

/-- The places that `bmap` looks at for a place. -/
def Place.needs : Place → Finset Place
  | .addr n => {.addr n}
  | .entry j => {.addr (Fin.last NDIRECT), .entry j}

theorem Place.mem_needs (p : Place) : p ∈ p.needs := by
  cases p with
  | addr n => exact Finset.mem_singleton_self _
  | entry j => exact Finset.mem_insert_of_mem (Finset.mem_singleton_self _)

variable (sb d) in
/-- A free block is put where the file had none. Besides, its indirect block may change. -/
structure Links (n : ℕ) (ip : Slot) (p : Place) (b : ℕ) (s s' : State Store) : Prop where
  lt : b < sb.size
  free : ¬Marked sb d s b
  hole : pointer sb d s (n, p) = 0
  core : ∃ a, s'.1 = (State.withInode s ip { s.1.inodes ip with addrs := a }).1
  user : s'.2.user = s.2.user
  disk : ∀ k, s'.2.disk k = (taken sb d s b).2.disk k ∨
    pointer sb d s (n, .addr (Fin.last NDIRECT)) ≠ 0 ∧
      k = (d, pointer sb d s (n, .addr (Fin.last NDIRECT)))
  pointer : ∀ q, pointer sb d s' q = Function.update (pointer sb d s) (n, p) b q

namespace Links

variable {n b : ℕ} {ip : Slot} {p : Place} (h : Links sb d n ip p b s s') (hl : sb.Laid)
  (hc : Consistent sb d s)

include h

theorem keeps {q : ℕ × Place} (hq : Fs.pointer sb d s q ≠ 0) :
    Fs.pointer sb d s' q = Fs.pointer sb d s q := by
  rw [h.pointer, Function.update_of_ne]
  rintro rfl
  exact hq h.hole

theorem others {q : ℕ × Place} (hq : q.1 ≠ n) : Fs.pointer sb d s' q = Fs.pointer sb d s q := by
  rw [h.pointer, Function.update_of_ne]
  rintro rfl
  exact hq rfl

theorem holds (m : ℕ) (jp : Slot) : s'.1.Holds d m jp ↔ s.1.Holds d m jp := by
  obtain ⟨a, ha⟩ := h.core
  rw [ha]
  apply Core.holds_withInode
  exact ⟨rfl, rfl, rfl, rfl⟩

theorem disk_of_ne {k : Key} (hbit : k ≠ (d, bblock b sb)) (hb : k ≠ (d, b))
    (hk : ∀ q, Fs.pointer sb d s q ≠ 0 → k = (d, Fs.pointer sb d s q) →
      q ≠ (n, .addr (Fin.last NDIRECT))) : s'.2.disk k = s.2.disk k := by
  rcases h.disk k with hd | ⟨hne, hd⟩
  · rw [hd, taken_disk hbit hb]
  · exact absurd rfl (hk _ hne hd)

include hc

theorem dev_meta {x : ℕ} (hx : x < sb.size - sb.nblocks) :
    s'.2.dev d x = (taken sb d s b).2.dev d x := by
  rcases h.disk (d, x) with hd | ⟨hne, hd⟩
  · exact hd
  · have hle := hc.pointer_le hne
    rw [Prod.ext_iff] at hd
    dsimp only at hd
    omega

theorem dev_block {x : ℕ} (hx : x < BSIZE) : s'.2.dev d b x = 0 := by
  rcases h.disk (d, b) with hd | ⟨hne, hd⟩
  · unfold Store.dev
    rw [hd]
    exact taken_self hx
  · exact absurd (Prod.ext_iff.mp hd).2.symm (hc.pointer_ne hne h.free)

include hl

theorem marked {x : ℕ} (hx : x < sb.size) : Marked sb d s' x ↔ Marked sb d s x ∨ x = b := by
  rw [← marked_taken hl hc h.lt h.free hx]
  unfold Marked
  rw [h.dev_meta hc (hl.bblock_lt hx)]

/-- A block in use, other than the indirect block of the file, is left as it is. -/
theorem dev_pointer {q : ℕ × Place} (hq : Fs.pointer sb d s q ≠ 0)
    (hne : q ≠ (n, .addr (Fin.last NDIRECT))) :
    s'.2.dev d (Fs.pointer sb d s q) = s.2.dev d (Fs.pointer sb d s q) := by
  have hle := hc.pointer_le hq
  have hlt := hl.bblock_lt h.lt
  apply h.disk_of_ne
  · intro he
    rw [Prod.ext_iff] at he
    dsimp only at he
    omega
  · intro he
    exact hc.pointer_ne hq h.free (Prod.ext_iff.mp he).2
  · intro q' hq' he
    rwa [← hc.owned.inj _ _ hq (Prod.ext_iff.mp he).2]

theorem consistent : Consistent sb d s' := by
  constructor
  · apply hc.owned.take (fun hb => h.free hb.2.2) (funext h.pointer)
    · intro x hx
      exact ⟨hx.1, hx.2.1, (h.marked hl hc hx.2.1).mpr (Or.inl hx.2.2)⟩
    · exact ⟨hc.free_le h.free, h.lt, (h.marked hl hc h.lt).mpr (Or.inr rfl)⟩
  · intro x hx
    exact (h.marked hl hc (by omega)).mpr (Or.inl (hc.reserved x hx))
  · intro m jp jp' hj hj'
    exact hc.unique m jp jp' ((h.holds m jp).mp hj) ((h.holds m jp').mp hj')
  · intro m jp hj
    exact hc.range m jp ((h.holds m jp).mp hj)

theorem apart {k : Key} (hk : Apart sb d s n k) : s'.2.disk k = s.2.disk k := by
  obtain ⟨d', x⟩ := k
  rcases hk with hk | ⟨m, hm, rfl⟩ | ⟨q, hq, hne, rfl⟩
  · apply h.disk_of_ne
    · exact fun he => hk (Prod.ext_iff.mp he).1
    · exact fun he => hk (Prod.ext_iff.mp he).1
    · exact fun q _ he => absurd (Prod.ext_iff.mp he).1 hk
  · have hlt := hl.iblock_lt_meta hm
    have hle := hc.free_le h.free
    apply h.disk_of_ne
    · exact fun he => hl.iblock_ne_bblock hm (Prod.ext_iff.mp he).2
    · intro he
      rw [Prod.ext_iff] at he
      dsimp only at he
      omega
    · intro q hq he
      have hle := hc.pointer_le hq
      rw [Prod.ext_iff] at he
      dsimp only at he
      omega
  · by_cases hd : d' = d
    · subst hd
      apply h.dev_pointer hl hc hne
      rintro rfl
      exact hq rfl
    · apply h.disk_of_ne
      · exact fun he => hd (Prod.ext_iff.mp he).1
      · exact fun he => hd (Prod.ext_iff.mp he).1
      · exact fun q _ he => absurd (Prod.ext_iff.mp he).1 hd

theorem blocksFor {I : Finset (ℕ × Place)} (hp : (n, p) ∈ I) :
    blocksFor sb d s' I = blocksFor sb d s I := by
  unfold Fs.blocksFor
  rw [funext h.pointer]
  exact demand_take hp h.hole h.free h.lt (free_pos hl hc h.free) fun x hx => h.marked hl hc hx

theorem grows : Grows sb d n ip s s' where
  core := h.core
  user := h.user
  consistent := h.consistent hl hc
  keeps _ := h.keeps
  others _ := h.others
  apart _ := h.apart hl hc

/-- A new block reads as zeros, as the hole did. -/
theorem contents (m : ℕ) : contents sb d s' m = contents sb d s m := by
  unfold Fs.contents
  apply Inode.contents_congr
  intro bn x hx
  by_cases he : (m, place bn) = (n, p)
  · have hnew : Fs.pointer sb d s' (m, place bn) = b := by
      rw [h.pointer, he, Function.update_self]
    have hold : Fs.pointer sb d s (m, place bn) = 0 := by
      rw [he, h.hole]
    have hpos := free_pos hl hc h.free
    unfold Fs.pointer at hnew hold
    unfold Inode.block
    rw [hnew, hold, if_neg hpos, if_pos rfl]
    exact h.dev_block hc hx
  · have hsame : Fs.pointer sb d s' (m, place bn) = Fs.pointer sb d s (m, place bn) := by
      rw [h.pointer, Function.update_of_ne he]
    refine congrFun (Inode.block_congr hsame ?_) x
    intro hne
    apply h.dev_pointer hl hc hne
    intro hlast
    exact place_ne_last bn (Prod.ext_iff.mp hlast).2

end Links

section Steps

variable {n : ℕ} {ip : Slot}

/-- Another inode is not the one in `ip`. -/
theorem present_withInode_ne {i : Inode} {d' m : ℕ} (hi : i.Like (s.1.inodes ip))
    (hm : ¬s.1.Caches d' m ip) :
    present sb d' (State.withInode s ip i) m = present sb d' s m := by
  apply present_congr
  · exact Core.caches_withInode hi d' m
  · intro jp hj
    rw [State.withInode_inodes, Function.update_of_ne]
    rintro rfl
    exact hm hj
  · intro _
    rfl

theorem Core.Caches.of_ne {c : Core} (hip : c.Caches d n ip) {d' m : ℕ} (hm : m ≠ n) :
    ¬c.Caches d' m ip := fun h => hm (h.1.2.2.symm.trans hip.1.2.2)

theorem present_withInode_self {i : Inode} (hip : s.1.cached d n = some ip)
    (hi : i.Like (s.1.inodes ip)) :
    present sb d (State.withInode s ip i) n = i := by
  have hcache : (State.withInode s ip i).1.cached d n = some ip := by
    rw [Core.cached_congr (Core.caches_withInode hi d n), hip]
  unfold present
  rw [hcache]
  exact Function.update_self _ _ _

variable (hl : sb.Laid) (hc : Consistent sb d s) (hip : s.1.Caches d n ip)

include hl hc hip

theorem links_addr {b : ℕ} {k : Fin (NDIRECT + 1)} (hlt : b < sb.size) (hb : ¬Marked sb d s b)
    (hk : (s.1.inodes ip).addrs k = 0) :
    Links sb d n ip (.addr k) b s (State.withInode (taken sb d s b) ip
      { s.1.inodes ip with addrs := Function.update (s.1.inodes ip).addrs k b }) where
  lt := hlt
  free := hb
  hole := by
    rw [hc.pointer_eq hip]
    exact hk
  core := ⟨_, rfl⟩
  user := rfl
  disk _ := Or.inl rfl
  pointer := by
    rintro ⟨m, p⟩
    have hpos := free_pos hl hc hb
    have hsame := pointer_taken hl hc hlt hb (m, p)
    by_cases hm : m = n
    · subst hm
      have hpresent : present sb d (State.withInode (taken sb d s b) ip { s.1.inodes ip with
          addrs := Function.update (s.1.inodes ip).addrs k b }) m = { s.1.inodes ip with
          addrs := Function.update (s.1.inodes ip).addrs k b } :=
        present_withInode_self (hc.cached_eq hip) ⟨rfl, rfl, rfl, rfl⟩
      have hold := hc.present_eq hip
      unfold Fs.pointer at hsame ⊢
      rw [present_taken hl hc hb, hold] at hsame
      rw [hpresent, State.withInode_store]
      cases p with
      | addr j =>
        by_cases hj : j = k
        · rw [hj, Function.update_self]
          exact Function.update_self _ _ _
        · rw [Function.update_of_ne fun he => hj (Place.addr.inj (Prod.ext_iff.mp he).2), hold]
          exact Function.update_of_ne hj _ _
      | entry j =>
        rw [Function.update_of_ne fun he => Place.noConfusion (Prod.ext_iff.mp he).2, hold,
          ← hsame]
        by_cases hlast : k = Fin.last NDIRECT
        · -- the new indirect block has no entries yet
          subst hlast
          rw [Inode.pointer_hole (Or.inl hk)]
          by_cases hj : j < NINDIRECT
          · obtain ⟨z, hz⟩ := @taken_dev_self sb d s b
            refine (Inode.pointer_entry (a := b) ?_ hpos hj).trans ?_
            · exact Function.update_self (Fin.last NDIRECT) b (s.1.inodes ip).addrs
            · rw [hz]
              apply Mem.load_fill_zero
              · exact Nat.zero_le _
              · have hmax : BSIZE = 4 * NINDIRECT := rfl
                omega
          · exact Inode.pointer_hole (Or.inr (Nat.not_lt.mp hj))
        · apply Inode.pointer_congr
          · intro x hx
            exact Place.noConfusion hx
          · exact Function.update_of_ne (Ne.symm hlast) _ _
          · intro _
            rfl
    · have hpresent : present sb d (State.withInode (taken sb d s b) ip { s.1.inodes ip with
          addrs := Function.update (s.1.inodes ip).addrs k b }) m =
          present sb d (taken sb d s b) m :=
        present_withInode_ne ⟨rfl, rfl, rfl, rfl⟩ (hip.of_ne hm)
      rw [Function.update_of_ne fun he => hm (Prod.ext_iff.mp he).1, ← hsame]
      unfold Fs.pointer
      rw [hpresent, State.withInode_store]

theorem links_entry {a b j : ℕ} (hlt : b < sb.size) (hb : ¬Marked sb d s b) (hj : j < NINDIRECT)
    (ha : (s.1.inodes ip).addrs (Fin.last NDIRECT) = a) (hne : a ≠ 0)
    (hentry : (s.2.dev d a).load 4 (4 * j) = 0)
    (hs' : s' = State.withBlock (taken sb d s b) (d, a)
      (((taken sb d s b).2.dev d a).store 4 (4 * j) b)) :
    Links sb d n ip (.entry j) b s s' := by
  have hptr : pointer sb d s (n, .addr (Fin.last NDIRECT)) = a := (hc.pointer_eq hip _).trans ha
  have hle : sb.size - sb.nblocks ≤ a := hptr ▸ hc.pointer_le (by rwa [hptr])
  have hself : s'.2.dev d a = (s.2.dev d a).store 4 (4 * j) b := by
    have htaken := taken_pointer hl hc hlt hb (q := (n, .addr (Fin.last NDIRECT))) (by rwa [hptr])
    rw [hptr] at htaken
    rw [hs', ← htaken]
    exact Function.update_self _ _ _
  have hdev (x : ℕ) (hx : x ≠ a) : s'.2.dev d x = (taken sb d s b).2.dev d x := by
    rw [hs']
    exact Function.update_of_ne (fun he => hx (Prod.ext_iff.mp he).2) _ _
  have hpresent (m : ℕ) : present sb d s' m = present sb d s m := by
    rw [← present_taken hl hc hb]
    apply present_congr
    · intro jp
      rw [hs']
      exact Iff.rfl
    · intro jp _
      rw [hs']
      rfl
    · intro hm
      have hlt := hl.iblock_lt_meta hm
      unfold dinode
      rw [hdev _ (by omega)]
  have hold := hc.present_eq hip
  constructor
  · exact hlt
  · exact hb
  · rw [hc.pointer_eq hip, Inode.pointer_entry ha hne hj, hentry]
  · refine ⟨(s.1.inodes ip).addrs, ?_⟩
    unfold State.withInode
    rw [Function.update_eq_self, hs']
    rfl
  · rw [hs']
    rfl
  · intro k
    by_cases hk : k = (d, a)
    · right
      rw [hptr]
      exact ⟨hne, hk⟩
    · left
      rw [hs']
      exact Function.update_of_ne hk _ _
  · rintro ⟨m, p⟩
    by_cases hm : m = n
    · subst hm
      cases p with
      | addr k =>
        rw [Function.update_of_ne fun he => Place.noConfusion (Prod.ext_iff.mp he).2]
        unfold pointer
        rw [hpresent]
        rfl
      | entry k =>
        by_cases hk : k = j
        · rw [hk, Function.update_self]
          unfold pointer
          rw [hpresent, hold, Inode.pointer_entry ha hne hj, hself]
          apply Mem.load_store_word
          have hsize := (Nat.le_add_right sb.size BPB).trans hl.size
          omega
        · rw [Function.update_of_ne fun he => hk (Place.entry.inj (Prod.ext_iff.mp he).2)]
          unfold pointer
          rw [hpresent, hold]
          by_cases hlow : k < NINDIRECT
          · rw [Inode.pointer_entry ha hne hlow, Inode.pointer_entry ha hne hlow, hself]
            apply Mem.load_store_disjoint
            omega
          · have hout := Nat.not_lt.mp hlow
            rw [Inode.pointer_hole (Or.inr hout), Inode.pointer_hole (Or.inr hout)]
    · rw [Function.update_of_ne fun he => hm (Prod.ext_iff.mp he).1,
        ← pointer_taken hl hc hlt hb (m, p)]
      unfold pointer
      rw [hpresent, present_taken hl hc hb]
      apply Inode.pointer_congr fun _ _ => rfl
      · rfl
      · intro hother
        apply hdev
        intro he
        apply hm
        have hinj := hc.owned.inj (m, .addr (Fin.last NDIRECT)) _ hother (he.trans hptr.symm)
        exact (Prod.ext_iff.mp hinj).1

end Steps

variable (sb d) in
/-- What `bmap` comes to: the block at the place, or 0 if there is none and no block is free. -/
structure Mapped (n : ℕ) (ip : Slot) (p : Place) (s : State Store) (r : ℕ) (s' : State Store) :
    Prop where
  grows : Grows sb d n ip s s'
  contents : ∀ m, contents sb d s' m = contents sb d s m
  block : r = 0 ∧ Full sb d s' ∧ pointer sb d s' (n, p) = 0 ∨ r ≠ 0 ∧ pointer sb d s' (n, p) = r
  blocks : ∀ I : Finset (ℕ × Place), (∀ q ∈ p.needs, (n, q) ∈ I) →
    blocksFor sb d s' I = blocksFor sb d s I

namespace Mapped

variable {n j a r : ℕ} {ip : Slot} {p : Place}

theorem found (hc : Consistent sb d s) (h : pointer sb d s (n, p) = r) (hr : r ≠ 0) :
    Mapped sb d n ip p s r s :=
  ⟨.refl hc, fun _ => rfl, Or.inr ⟨hr, h⟩, fun _ _ => rfl⟩

theorem missing (hc : Consistent sb d s) (h : pointer sb d s (n, p) = 0) (hfull : Full sb d s) :
    Mapped sb d n ip p s 0 s :=
  ⟨.refl hc, fun _ => rfl, Or.inl ⟨rfl, hfull, h⟩, fun _ _ => rfl⟩

/-- First the indirect block, and then its entry. -/
theorem entry (h : Mapped sb d n ip (.addr (Fin.last NDIRECT)) s a s')
    (h' : Mapped sb d n ip (.entry j) s' r s'') : Mapped sb d n ip (.entry j) s r s'' where
  grows := h.grows.trans h'.grows
  contents m := (h'.contents m).trans (h.contents m)
  block := h'.block
  blocks I hI := by
    rw [h'.blocks I hI]
    apply h.blocks
    intro q hq
    rw [Finset.mem_singleton.mp hq]
    exact hI _ (Finset.mem_insert_self _ _)

end Mapped

theorem Links.mapped {n b : ℕ} {ip : Slot} {p : Place} (h : Links sb d n ip p b s s')
    (hl : sb.Laid) (hc : Consistent sb d s) : Mapped sb d n ip p s b s' where
  grows := h.grows hl hc
  contents := h.contents hl hc
  block := Or.inr ⟨free_pos hl hc h.free, (h.pointer _).trans (Function.update_self _ _ _)⟩
  blocks _ hI := h.blocksFor hl hc (hI _ (Place.mem_needs _))

section Mapped

variable {n : ℕ} {ip : Slot} (hl : sb.Laid) (hc : Consistent sb d s) (hip : s.1.Caches d n ip)

include hl hc hip

theorem direct_does (k : Fin (NDIRECT + 1)) :
    Does E (ip.direct sb k) s (Mapped sb d n ip (.addr k) s) := by
  have hdev : (s.1.inodes ip).dev = d := hip.1.2.1
  have hptr := hc.pointer_eq hip (.addr k)
  unfold Slot.direct
  rw [does_bind, does_inode]
  split_ifs with hk
  · rw [does_bind, hdev]
    apply balloc_does.mono
    rintro r s' (⟨rfl, rfl, hfull⟩ | ⟨hlt, hfree, rfl⟩)
    · exact .missing hc (hptr.trans hk) hfull
    · rw [if_neg (free_pos hl hc hfree), does_bind, does_modifyInode]
      exact (links_addr hl hc hip hlt hfree hk).mapped hl hc
  · exact .found hc hptr hk

theorem indirect_does {j : ℕ} (hj : j < NINDIRECT) :
    Does E (ip.indirect sb j) s (Mapped sb d n ip (.entry j) s) := by
  unfold Slot.indirect
  rw [does_bind]
  apply (direct_does hl hc hip _).mono
  intro r s₁ h₁
  have hc₁ := h₁.grows.consistent
  have hip₁ := (h₁.grows.caches d n ip).mpr hip
  rcases h₁.block with ⟨rfl, hfull, hhole⟩ | ⟨hr, hptr⟩
  · refine h₁.entry (.missing hc₁ ?_ hfull)
    rw [hc₁.pointer_eq hip₁] at hhole ⊢
    exact Inode.pointer_hole (Or.inl hhole)
  have hlast : (s₁.1.inodes ip).addrs (Fin.last NDIRECT) = r := by
    rw [← hptr, hc₁.pointer_eq hip₁]
    rfl
  have hdev : (s₁.1.inodes ip).dev = d := hip₁.1.2.1
  have hentry : pointer sb d s₁ (n, .entry j) = (s₁.2.dev d r).load 4 (4 * j) := by
    rw [hc₁.pointer_eq hip₁]
    exact Inode.pointer_entry hlast hr hj
  rw [if_neg hr, does_bind, does_inode, does_bind, does_bread, does_bind, does_data, hdev]
  split_ifs with hz
  · rw [does_bind]
    apply balloc_does.mono
    rintro b s' (⟨rfl, rfl, hfull⟩ | ⟨hlt, hfree, rfl⟩)
    · exact h₁.entry (.missing hc₁ (hentry.trans hz) hfull)
    · rw [if_neg (free_pos hl hc₁ hfree), does_bind, does_modify]
      exact h₁.entry ((links_entry hl hc₁ hip₁ hlt hfree hj hlast hr hz rfl).mapped hl hc₁)
  · exact h₁.entry (.found hc₁ hentry hz)

/-- `bmap` returns the block of a file, which it allocates if there is none. -/
theorem bmap_does {bn : ℕ} (hbn : bn < MAXFILE) :
    Does E (ip.bmap sb bn) s (Mapped sb d n ip (place bn) s) := by
  unfold Slot.bmap place
  split_ifs with h h'
  · exact direct_does hl hc hip _
  · exact indirect_does hl hc hip h'
  · have hmax : MAXFILE = NDIRECT + NINDIRECT := rfl
    omega

end Mapped

/-- A block that is there is found, and nothing changes. -/
theorem bmap_mapped {ip : Slot} {bn : ℕ} (hbn : bn < MAXFILE)
    (h : (s.1.inodes ip).pointer (s.2.dev (s.1.inodes ip).dev) (place bn) ≠ 0) :
    Does E (ip.bmap sb bn) s fun r s' =>
      r = (s.1.inodes ip).pointer (s.2.dev (s.1.inodes ip).dev) (place bn) ∧ s' = s := by
  unfold Slot.bmap place at *
  split_ifs at h ⊢ with hdir hind
  · have haddr : (s.1.inodes ip).addrs ⟨bn, Nat.lt_succ_of_lt hdir⟩ ≠ 0 := h
    unfold Slot.direct
    rw [does_bind, does_inode, if_neg haddr]
    exact ⟨rfl, rfl⟩
  · by_cases hhole : (s.1.inodes ip).addrs (Fin.last NDIRECT) = 0
    · exact absurd (Inode.pointer_hole (Or.inl hhole)) h
    rw [Inode.pointer_entry rfl hhole hind] at h ⊢
    unfold Store.dev at h ⊢
    unfold Slot.indirect Slot.direct
    rw [does_bind, does_bind, does_inode, if_neg hhole, does_pure, if_neg hhole, does_bind,
      does_inode, does_bind, does_bread, does_bind, does_data, if_neg h]
    exact ⟨rfl, rfl⟩
  · have hmax : MAXFILE = NDIRECT + NINDIRECT := rfl
    omega

end Multiplix.Fs
