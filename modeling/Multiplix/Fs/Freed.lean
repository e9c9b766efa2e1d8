import Multiplix.Fs.Kept

/-! `bfree` and `trunc`: the blocks of a file are given back, each of them once. -/
namespace Multiplix.Fs
open Lib

variable {sb : Superblock} {d n : ℕ} {s s' s'' : State Store} {ip : Slot} {E : Panic → Prop}
  {Z : Set Place} {p : Place}

theorem bitClear_clearBit_self (m : Mem) (x : ℕ) : bitClear (clearBit m x) x = true := by
  unfold bitClear clearBit
  rw [Function.update_self, beq_iff_eq]
  ext k hk
  simp

theorem bitClear_clearBit_of_ne (m : Mem) {x y : ℕ} (h : y ≠ x) :
    bitClear (clearBit m x) y = bitClear m y := by
  unfold bitClear clearBit
  by_cases hb : y / 8 = x / 8
  · have hand : m (x / 8) &&& ~~~bitMask x &&& bitMask y = m (x / 8) &&& bitMask y := by
      have hzero := bitMask_and (x := x) (y := y) (by omega)
      ext k hk
      have hk' : (bitMask x &&& bitMask y)[k] = false := by
        rw [hzero]
        simp
      simp only [BitVec.getElem_and, BitVec.getElem_not] at hk' ⊢
      cases hx : (bitMask x)[k] with
      | false => simp
      | true =>
        rw [hx, Bool.true_and] at hk'
        rw [hk', Bool.and_false, Bool.and_false]
    rw [hb, Function.update_self, hand]
  · rw [Function.update_of_ne hb]

theorem bfree_does {b : ℕ} (hb : Marked sb d s b) : Does E (bfree sb d b) s fun _ s' =>
    s' = State.withBlock s (d, bblock b sb)
      (clearBit (s.2.disk (d, bblock b sb)) (b % BPB)) := by
  have hclear : ¬bitClear (s.2.disk (d, bblock b sb)) (b % BPB) = true := by
    unfold Marked Store.dev at hb
    rw [hb]
    exact Bool.false_ne_true
  unfold bfree
  rw [does_bind, does_bread, does_bind, does_data, if_neg hclear, does_bind, does_modify,
    does_brelease]

variable (sb d n) in
/-- The marks of the blocks at these places of an inode are taken away, and no other block
changes. -/
structure Unmarked (Z : Set Place) (s s' : State Store) : Prop where
  disk : ∀ x, (∀ y < sb.size, x ≠ bblock y sb) → s'.2.dev d x = s.2.dev d x
  marked : ∀ x < sb.size, Marked sb d s' x ↔
    Marked sb d s x ∧ ∀ p ∈ Z, pointer sb d s (n, p) = x → x = 0

namespace Unmarked

theorem refl (s : State Store) : Unmarked sb d n ∅ s s where
  disk _ _ := rfl
  marked _ _ := (and_iff_left fun p hp => absurd hp (Set.notMem_empty p)).symm

/-- There is no block at this place. -/
theorem skip (h : Unmarked sb d n Z s s') (hp : pointer sb d s (n, p) = 0) :
    Unmarked sb d n (insert p Z) s s' where
  disk := h.disk
  marked x hx := by
    rw [h.marked x hx, Set.forall_mem_insert, hp]
    exact and_congr_right fun _ => (and_iff_right fun hz => hz.symm).symm

/-- The block at another place is freed: it is still marked. -/
theorem bfree (h : Unmarked sb d n Z s s') (hc : Consistent sb d s)
    (hp : pointer sb d s (n, p) ≠ 0) (hZ : p ∉ Z) :
    Does E (bfree sb d (pointer sb d s (n, p))) s' fun _ s'' =>
      s''.1 = s'.1 ∧ Unmarked sb d n (insert p Z) s s'' := by
  obtain ⟨-, hlt, hmark⟩ := hc.owned.used _ hp
  generalize hb : pointer sb d s (n, p) = b at hp hlt hmark ⊢
  have hmark' : Marked sb d s' b := by
    refine (h.marked b hlt).mpr ⟨hmark, fun q hq he => ?_⟩
    have hinj := hc.owned.inj (n, q) (n, p) (he ▸ hp) (he.trans hb.symm)
    have hqp : q = p := (Prod.ext_iff.mp hinj).2
    exact absurd (hqp ▸ hq) hZ
  apply (bfree_does hmark').mono
  rintro _ s'' rfl
  refine ⟨rfl, fun x hx => ?_, fun x hx => ?_⟩
  · rw [← h.disk x hx]
    exact Function.update_of_ne (fun he => hx b hlt (Prod.ext_iff.mp he).2) _ _
  · rw [Set.forall_mem_insert, hb, and_left_comm, ← h.marked x hx]
    unfold Marked Store.dev
    rw [State.withBlock_disk]
    by_cases he : x = b
    · subst he
      rw [Function.update_self, bitClear_clearBit_self]
      exact iff_of_false (fun ht => Bool.noConfusion ht) fun hz => hp (hz.1 rfl)
    · rw [and_iff_right fun hz => absurd hz.symm he]
      by_cases hblk : bblock x sb = bblock b sb
      · have hdiv : x / BPB = b / BPB := by
          unfold bblock at hblk
          omega
        rw [hblk, Function.update_self, bitClear_clearBit_of_ne]
        intro hmod
        apply he
        rw [← Nat.div_add_mod x BPB, hdiv, hmod, Nat.div_add_mod]
      · rw [Function.update_of_ne fun hk => hblk (Prod.ext_iff.mp hk).2]

end Unmarked

variable (sb d n) in
/-- Besides, the addresses at these places are taken out of the inode in memory. -/
structure Emptied (ip : Slot) (Z : Set Place) (s s' : State Store) : Prop where
  unmarked : Unmarked sb d n Z s s'
  core : ∃ a, s'.1 = (State.withInode s ip { s.1.inodes ip with addrs := a }).1
  kept : ∀ k, Place.addr k ∉ Z → (s'.1.inodes ip).addrs k = (s.1.inodes ip).addrs k
  zero : ∀ k, Place.addr k ∈ Z → (s'.1.inodes ip).addrs k = 0

namespace Emptied

theorem refl (s : State Store) : Emptied sb d n ip ∅ s s where
  unmarked := .refl s
  core := ⟨(s.1.inodes ip).addrs, by
    unfold State.withInode
    rw [Function.update_eq_self]⟩
  kept _ _ := rfl
  zero k hk := absurd hk (Set.notMem_empty _)

theorem inode (h : Emptied sb d n ip Z s s') :
    ∃ a, s'.1.inodes ip = { s.1.inodes ip with addrs := a } := by
  obtain ⟨a, ha⟩ := h.core
  exact ⟨a, by rw [ha, State.withInode_inodes, Function.update_self]⟩

theorem bare (h : Emptied sb d n ip Z s s') (haddr : ∀ k, Place.addr k ∈ Z) :
    s'.1.inodes ip = { s.1.inodes ip with addrs := fun _ => 0 } := by
  obtain ⟨a, ha⟩ := h.inode
  have hzero : a = fun _ => 0 := by
    funext k
    have hk := h.zero k (haddr k)
    rwa [ha] at hk
  rw [ha, hzero]

theorem inodes_ne (h : Emptied sb d n ip Z s s') {jp : Slot} (hj : jp ≠ ip) :
    s'.1.inodes jp = s.1.inodes jp := by
  obtain ⟨a, ha⟩ := h.core
  rw [ha, State.withInode_inodes, Function.update_of_ne hj]

/-- One more address is taken out. -/
theorem addr {k : Fin (NDIRECT + 1)} {Y : Set Place} (h : Emptied sb d n ip Z s s')
    (hu : Unmarked sb d n (insert (.addr k) Y) s s'') (hcore : s''.1 = s'.1)
    (hY : ∀ j, Place.addr j ∈ Y ↔ Place.addr j ∈ Z) :
    Emptied sb d n ip (insert (.addr k) Y) s (State.withInode s'' ip
      { s''.1.inodes ip with addrs := Function.update (s''.1.inodes ip).addrs k 0 }) where
  unmarked := ⟨hu.disk, hu.marked⟩
  core := by
    obtain ⟨a, ha⟩ := h.core
    refine ⟨Function.update a k 0, ?_⟩
    unfold State.withInode
    rw [hcore, ha]
    simp [State.withInode]
  kept j hj := by
    rw [Set.mem_insert_iff, not_or, Place.addr.injEq, hY] at hj
    rw [State.withInode_inodes, Function.update_self, hcore]
    dsimp only
    rw [Function.update_of_ne hj.1]
    exact h.kept j hj.2
  zero j hj := by
    rw [Set.mem_insert_iff, Place.addr.injEq, hY] at hj
    rw [State.withInode_inodes, Function.update_self, hcore]
    dsimp only
    by_cases he : j = k
    · rw [he, Function.update_self]
    · rw [Function.update_of_ne he]
      exact h.zero j (hj.resolve_left he)

/-- There is no address to take out. -/
theorem skip {k : Fin (NDIRECT + 1)} (h : Emptied sb d n ip Z s s')
    (hp : pointer sb d s (n, .addr k) = 0) (hk : (s'.1.inodes ip).addrs k = 0) :
    Emptied sb d n ip (insert (.addr k) Z) s s' where
  unmarked := h.unmarked.skip hp
  core := h.core
  kept j hj := h.kept j fun hz => hj (Set.mem_insert_of_mem _ hz)
  zero j hj := by
    rcases Set.mem_insert_iff.mp hj with he | hz
    · rw [Place.addr.injEq] at he
      rw [he, hk]
    · exact h.zero j hz

end Emptied

section Trunc

variable (hc : Consistent sb d s) (hip : s.1.Caches d n ip)

include hc hip

theorem truncDirect_does {ks : List (Fin (NDIRECT + 1))} (hks : ks.Nodup)
    (hZ : ∀ k ∈ ks, Place.addr k ∉ Z) (h : Emptied sb d n ip Z s s') :
    Does E (ip.truncDirect sb ks) s' fun _ s'' =>
      Emptied sb d n ip (Z ∪ {p | ∃ k ∈ ks, p = .addr k}) s s'' := by
  induction ks generalizing Z s' with
  | nil =>
    have hnone : {p : Place | ∃ k ∈ ([] : List (Fin (NDIRECT + 1))), p = .addr k} = ∅ := by
      simp
    rw [hnone, Set.union_empty]
    exact h
  | cons k ks ih =>
    obtain ⟨hnot, hnodup⟩ := List.nodup_cons.mp hks
    have hk := hZ k List.mem_cons_self
    have hptr : pointer sb d s (n, .addr k) = (s.1.inodes ip).addrs k := hc.pointer_eq hip (.addr k)
    have hsame := h.kept k hk
    have hdev : (s'.1.inodes ip).dev = d := by
      obtain ⟨a, ha⟩ := h.inode
      rw [ha]
      exact hip.1.2.1
    have hrest : Z ∪ {p | ∃ j ∈ k :: ks, p = .addr j} =
        insert (.addr k) Z ∪ {p | ∃ j ∈ ks, p = .addr j} := by
      ext p
      simp only [Set.mem_union, Set.mem_insert_iff, Set.mem_ofPred_eq, List.mem_cons,
        exists_eq_or_imp]
      tauto
    have hZ' : ∀ j ∈ ks, Place.addr j ∉ insert (.addr k) Z := by
      intro j hj hmem
      rcases Set.mem_insert_iff.mp hmem with he | hmem
      · rw [Place.addr.injEq] at he
        exact hnot (he ▸ hj)
      · exact hZ j (List.mem_cons_of_mem _ hj) hmem
    unfold Slot.truncDirect
    rw [does_bind, does_inode, hrest]
    split_ifs with hz
    · exact ih hnodup hZ' (h.skip (hptr.trans (hsame ▸ hz)) hz)
    · rw [does_bind, hdev, hsame, ← hptr]
      rw [hsame, ← hptr] at hz
      apply (h.unmarked.bfree hc hz hk).mono
      rintro _ s₁ ⟨hcore, hu⟩
      rw [does_bind, does_modifyInode]
      exact ih hnodup hZ' (h.addr hu hcore fun _ => Iff.rfl)

omit hip in
/-- A block in use is no block of the bitmap. -/
theorem Unmarked.dev_pointer (h : Unmarked sb d n Z s s') (hl : sb.Laid) {q : ℕ × Place}
    (hq : pointer sb d s q ≠ 0) :
    s'.2.dev d (pointer sb d s q) = s.2.dev d (pointer sb d s q) := by
  apply h.disk
  intro y hy
  have hlt := hl.bblock_lt hy
  have hle := hc.pointer_le hq
  omega

theorem truncEntries_does {j k : ℕ} (hl : sb.Laid)
    (hne : (s.1.inodes ip).addrs (Fin.last NDIRECT) ≠ 0) (hjk : j + k ≤ NINDIRECT)
    (hZ : ∀ i, j ≤ i → Place.entry i ∉ Z) (h : Unmarked sb d n Z s s') :
    Does E (Slot.truncEntries sb d (d, (s.1.inodes ip).addrs (Fin.last NDIRECT)) k j) s'
      fun _ s'' => s''.1 = s'.1 ∧
        Unmarked sb d n (Z ∪ {p | ∃ i, j ≤ i ∧ i < j + k ∧ p = .entry i}) s s'' := by
  induction k generalizing Z j s' with
  | zero =>
    have hnone : {p : Place | ∃ i, j ≤ i ∧ i < j + 0 ∧ p = .entry i} = ∅ := by
      ext p
      simp only [Set.mem_ofPred_eq, Set.mem_empty_iff_false, iff_false, not_exists]
      omega
    rw [hnone, Set.union_empty]
    exact ⟨rfl, h⟩
  | succ k ih =>
    have hptr : pointer sb d s (n, .entry j) =
        (s.2.dev d ((s.1.inodes ip).addrs (Fin.last NDIRECT))).load 4 (4 * j) := by
      rw [hc.pointer_eq hip]
      exact Inode.pointer_entry rfl hne (by omega)
    have hlast : pointer sb d s (n, .addr (Fin.last NDIRECT)) =
        (s.1.inodes ip).addrs (Fin.last NDIRECT) := hc.pointer_eq hip _
    have hblk := h.dev_pointer hc hl (q := (n, .addr (Fin.last NDIRECT))) (by rwa [hlast])
    rw [hlast] at hblk
    have hdata : (s'.2.disk (d, (s.1.inodes ip).addrs (Fin.last NDIRECT))).load 4 (4 * j) =
        pointer sb d s (n, .entry j) := by
      rw [hptr, ← hblk]
      rfl
    have hrest : Z ∪ {p | ∃ i, j ≤ i ∧ i < j + (k + 1) ∧ p = .entry i} =
        insert (.entry j) Z ∪ {p | ∃ i, j + 1 ≤ i ∧ i < j + 1 + k ∧ p = .entry i} := by
      ext p
      simp only [Set.mem_union, Set.mem_insert_iff, Set.mem_ofPred_eq]
      constructor
      · rintro (hp | ⟨i, hi, hi', rfl⟩)
        · exact Or.inl (Or.inr hp)
        · by_cases he : i = j
          · exact Or.inl (Or.inl (congrArg _ he))
          · exact Or.inr ⟨i, by omega, by omega, rfl⟩
      · rintro ((rfl | hp) | ⟨i, hi, hi', rfl⟩)
        · exact Or.inr ⟨j, le_rfl, by omega, rfl⟩
        · exact Or.inl hp
        · exact Or.inr ⟨i, by omega, by omega, rfl⟩
    have hZ' : ∀ i, j + 1 ≤ i → Place.entry i ∉ insert (.entry j) Z := by
      intro i hi hmem
      rcases Set.mem_insert_iff.mp hmem with he | hmem
      · rw [Place.entry.injEq] at he
        omega
      · exact hZ i (by omega) hmem
    unfold Slot.truncEntries
    rw [does_bind, does_data, hdata, hrest]
    split_ifs with hz
    · exact ih (by omega) hZ' (h.skip hz)
    · rw [does_bind]
      apply (h.bfree hc hz (hZ j le_rfl)).mono
      rintro _ s₁ ⟨hcore, hu⟩
      rw [← hcore]
      exact ih (by omega) hZ' hu

theorem truncIndirect_does (hl : sb.Laid) (hlast : Place.addr (Fin.last NDIRECT) ∉ Z)
    (hZ : ∀ i, Place.entry i ∉ Z) (h : Emptied sb d n ip Z s s') :
    Does E (ip.truncIndirect sb) s' fun _ s'' =>
      ∃ Y, Emptied sb d n ip Y s s'' ∧ Z ⊆ Y ∧ Place.addr (Fin.last NDIRECT) ∈ Y ∧
        ∀ i, pointer sb d s (n, .entry i) ≠ 0 → Place.entry i ∈ Y := by
  have hptr : pointer sb d s (n, .addr (Fin.last NDIRECT)) =
      (s.1.inodes ip).addrs (Fin.last NDIRECT) := hc.pointer_eq hip _
  have hsame := h.kept _ hlast
  have hdev : (s'.1.inodes ip).dev = d := by
    obtain ⟨a, ha⟩ := h.inode
    rw [ha]
    exact hip.1.2.1
  unfold Slot.truncIndirect
  rw [does_bind, does_inode]
  dsimp only
  rw [hsame]
  split_ifs with hz
  · refine ⟨insert (.addr (Fin.last NDIRECT)) Z, h.skip (hptr.trans hz) (hsame.trans hz),
      Set.subset_insert _ _, Set.mem_insert _ _, fun i hi => absurd ?_ hi⟩
    rw [hc.pointer_eq hip]
    exact Inode.pointer_hole (Or.inl hz)
  · rw [does_bind, does_bread, does_bind, hdev]
    apply (truncEntries_does hc hip hl hz (Nat.zero_add _).le (fun i _ => hZ i) h.unmarked).mono
    rintro _ s₁ ⟨hcore, hu⟩
    have hnot : Place.addr (Fin.last NDIRECT) ∉
        Z ∪ {p | ∃ i, 0 ≤ i ∧ i < 0 + NINDIRECT ∧ p = .entry i} := by
      rintro (hmem | ⟨i, -, -, he⟩)
      · exact hlast hmem
      · cases he
    rw [does_bind, does_brelease, does_bind, ← hptr]
    rw [← hptr] at hz
    apply (hu.bfree hc hz hnot).mono
    rintro _ s₂ ⟨hcore', hu'⟩
    rw [does_modifyInode]
    refine ⟨_, h.addr hu' (hcore'.trans hcore) fun k => ?_, ?_, Set.mem_insert _ _,
      fun i hi => ?_⟩
    · constructor
      · rintro (hmem | ⟨i, -, -, he⟩)
        · exact hmem
        · cases he
      · exact Or.inl
    · exact fun p hp => Set.mem_insert_of_mem _ (Or.inl hp)
    · refine Set.mem_insert_of_mem _ (Or.inr ⟨i, Nat.zero_le i, ?_, rfl⟩)
      by_contra hlt
      rw [hc.pointer_eq hip] at hi
      exact hi (Inode.pointer_hole (Or.inr (by omega)))

/-- An inode without blocks, and the others as they were. -/
theorem Emptied.sound {Y : Set Place} (h : Emptied sb d n ip Y s s') (hs : Sound sb d s)
    (hl : sb.Laid) (haddr : ∀ k, Place.addr k ∈ Y) :
    SoundBut sb d s' {n} ∧ (∀ m ∉ ({n} : Set ℕ), (view sb d s').node m = (view sb d s).node m) ∧
      (view sb d s').handle = (view sb d s).handle := by
  have hi := h.bare haddr
  have hlike (jp : Slot) : (s'.1.inodes jp).handle = (s.1.inodes jp).handle ∧
      (s'.1.inodes jp).dev = (s.1.inodes jp).dev ∧
      ∀ f, (s'.1.inodes jp).node f = (s.1.inodes jp).node f := by
    by_cases hj : jp = ip
    · rw [hj, hi]
      exact ⟨rfl, rfl, fun _ => rfl⟩
    · rw [h.inodes_ne hj]
      exact ⟨rfl, rfl, fun _ => rfl⟩
  have hrefcnt (jp : Slot) : (s'.1.inodes jp).refcnt = (s.1.inodes jp).refcnt :=
    congrArg Handle.users (hlike jp).1
  have hholds (m : ℕ) (jp : Slot) : s'.1.Holds d m jp ↔ s.1.Holds d m jp := by
    have hinum : (s'.1.inodes jp).inum = (s.1.inodes jp).inum := congrArg Handle.inum (hlike jp).1
    unfold Core.Holds
    rw [hrefcnt, (hlike jp).2.1, hinum]
  have hcaches (m : ℕ) (jp : Slot) : s'.1.Caches d m jp ↔ s.1.Caches d m jp := by
    have hvalid : (s'.1.inodes jp).valid = (s.1.inodes jp).valid :=
      congrArg Handle.valid (hlike jp).1
    unfold Core.Caches
    rw [hholds, hvalid]
  have hdinode (m : ℕ) (hm : m < sb.ninodes) :
      dinode sb (s'.2.dev d) m = dinode sb (s.2.dev d) m := by
    unfold dinode
    rw [h.unmarked.disk _ fun y hy => hl.iblock_ne_bblock hm]
  have hip' := (hcaches n ip).mpr hip
  have hother {m : ℕ} (hm : m ≠ n) : present sb d s' m = present sb d s m := by
    apply present_congr (hcaches m) (fun jp hj => h.inodes_ne ?_) (hdinode m)
    rintro rfl
    exact hm (hj.1.2.2.symm.trans hip.1.2.2)
  have hptr {m : ℕ} (hm : m ≠ n) (p : Place) :
      pointer sb d s' (m, p) = pointer sb d s (m, p) := by
    unfold pointer
    rw [hother hm]
    apply Inode.pointer_congr fun _ _ => rfl
    · rfl
    · exact h.unmarked.dev_pointer hc hl (q := (m, .addr (Fin.last NDIRECT)))
  have hown : present sb d s' n = { s.1.inodes ip with addrs := fun _ => 0 } := by
    rw [← hi]
    unfold present
    have hcached : s'.1.cached d n = some ip := by
      rw [← hc.cached_eq hip]
      exact Core.cached_congr (hcaches n)
    rw [hcached]
  have hptr_self (p : Place) : pointer sb d s' (n, p) = 0 := by
    unfold pointer
    rw [hown]
    cases p with
    | addr k => rfl
    | entry j => exact Inode.pointer_hole (Or.inl rfl)
  have hpointer (q : ℕ × Place) :
      pointer sb d s' q = 0 ∨ pointer sb d s' q = pointer sb d s q := by
    obtain ⟨m, p⟩ := q
    by_cases hm : m = n
    · exact Or.inl (hm ▸ hptr_self p)
    · exact Or.inr (hptr hm p)
  have hc' : Consistent sb d s' := by
    constructor
    · refine ⟨(hc.owned.weaken hpointer).inj, fun q hq => ?_⟩
      have he := (hpointer q).resolve_left hq
      have hne : pointer sb d s q ≠ 0 := he ▸ hq
      obtain ⟨hlow, hlt, hmark⟩ := hc.owned.used q hne
      rw [he]
      refine ⟨hlow, hlt, (h.unmarked.marked _ hlt).mpr ⟨hmark, fun p _ hp => absurd ?_ hq⟩⟩
      rw [← hc.owned.inj (n, p) q (hp ▸ hne) hp]
      exact hptr_self p
    · intro b hb
      refine (h.unmarked.marked b (by omega)).mpr ⟨hc.reserved b hb, fun p _ hp => ?_⟩
      by_contra hne
      have hle := hc.pointer_le (hp ▸ hne)
      omega
    · exact fun m jp jp' hj hj' => hc.unique m jp jp' ((hholds m jp).mp hj) ((hholds m jp').mp hj')
    · exact fun m jp hj => hc.range m jp ((hholds m jp).mp hj)
  obtain ⟨hs', hnode⟩ := (hs.mono (Set.empty_subset {n})).frame hc' hcaches
    (fun jp hj => by rw [(hlike jp).2.1]; exact hs.dev jp (hrefcnt jp ▸ hj))
    (fun m jp _ => (hlike jp).2.2) (fun m _ => hdinode m) (fun q hq _ => hptr hq q.2) fun m hm => by
      apply Inode.contents_congr
      intro bn x _
      exact congrFun (Inode.block_congr (hptr hm (place bn))
        (h.unmarked.dev_pointer hc hl (q := (m, place bn)))) x
  exact ⟨hs', hnode, funext fun jp => (hlike jp).1⟩

end Trunc

theorem Inode.contents_bare {disk : ℕ → Mem} {i : Inode} (h : ∀ k, i.addrs k = 0) :
    i.contents disk = fun _ => 0 := by
  have hptr (p : Place) : i.pointer disk p = 0 := by
    cases p with
    | addr k => exact h k
    | entry j => exact Inode.pointer_hole (Or.inl (h _))
  funext x
  unfold contents Mem.ofBlocks block
  rw [if_pos (hptr _)]

/-- A file is cut to nothing, and its blocks, and no others, are free. -/
theorem trunc_does (hl : sb.Laid) (h : Sound sb d s) (hip : s.1.Caches d n ip) :
    Does E (ip.trunc sb) s fun _ s' => Sound sb d s' ∧
      view sb d s' = (view sb d s).setNode n ((view sb d s).node n).trunc ∧
      s'.1.inodes ip = { s.1.inodes ip with addrs := fun _ => 0, size := 0 } ∧
      ∀ x < sb.size, Marked sb d s' x ↔
        Marked sb d s x ∧ ∀ p, pointer sb d s (n, p) = x → x = 0 := by
  have hc := h.consistent
  have hnodup : ((List.finRange NDIRECT).map Fin.castSucc).Nodup :=
    (List.nodup_finRange _).map (Fin.castSucc_injective _)
  unfold Slot.trunc
  rw [does_bind]
  apply (truncDirect_does hc hip hnodup (fun k _ => Set.notMem_empty _) (.refl s)).mono
  rintro _ s₁ h₁
  rw [Set.empty_union] at h₁
  rw [does_bind]
  apply (truncIndirect_does hc hip hl ?_ ?_ h₁).mono
  · rintro _ s₂ ⟨Y, h₂, hsub, hlast, hentry⟩
    have haddr (k : Fin (NDIRECT + 1)) : Place.addr k ∈ Y := by
      cases k using Fin.lastCases with
      | last => exact hlast
      | cast k => exact hsub ⟨_, List.mem_map_of_mem (List.mem_finRange k), rfl⟩
    have hall (p : Place) (hp : pointer sb d s (n, p) ≠ 0) : p ∈ Y := by
      cases p with
      | addr k => exact haddr k
      | entry j => exact hentry j hp
    have hi := h₂.bare haddr
    obtain ⟨hs, hnode, hhandle⟩ := h₂.sound hc hip h hl haddr
    have hip₂ : s₂.1.Caches d n ip := by
      unfold Core.Caches Core.Holds
      rw [hi]
      exact hip
    have hempty : ({ s₂.1.inodes ip with size := 0 } : Inode) =
        { s.1.inodes ip with addrs := fun _ => 0, size := 0 } := by rw [hi]
    have hlike : ({ s₂.1.inodes ip with size := 0 } : Inode).Like (s₂.1.inodes ip) :=
      ⟨rfl, rfl, rfl, rfl⟩
    have haddrs : ({ s₂.1.inodes ip with size := 0 } : Inode).addrs = (s₂.1.inodes ip).addrs := rfl
    have hcontents : contents sb d s₂ n = fun _ => 0 := by
      unfold contents
      rw [hs.consistent.present_eq hip₂, Inode.contents_bare fun k => by rw [hi]]
    rw [does_bind, does_modifyInode]
    generalize ({ s₂.1.inodes ip with size := 0 } : Inode) = i at hempty hlike haddrs ⊢
    have hfits : i.Fits := by
      have hold := h.fits hl hip
      have hzero : 0 < 256 ^ 4 := by decide
      rw [hempty]
      exact ⟨hold.type, hold.major, hold.minor, hold.nlink, hzero, fun _ => hzero⟩
    have htype : i.type ≠ 0 := by
      rw [hempty]
      exact (h.backed n (Set.notMem_empty n) ip hip).type
    have hsize : i.size ≤ MAXFILE * BSIZE := by
      rw [hempty]
      exact Nat.zero_le _
    obtain ⟨hs', hnode', hhandle'⟩ := hs.save hl hip₂ hlike haddrs htype hfits hsize
    apply update_does (hlike.dev.trans hip₂.1.2.1) (hlike.inum.trans hip₂.1.2.2)
    refine ⟨hs', view_eq ?_ (hhandle'.trans hhandle), ?_, fun x hx => ?_⟩
    · rw [hnode', hcontents, hempty]
      funext m
      unfold Nodes.setNode
      dsimp only
      by_cases hm : m = n
      · rw [hm, Function.update_self, Function.update_self, h.node_eq hip]
        rfl
      · rw [Function.update_of_ne hm, Function.update_of_ne hm, hnode m hm]
    · rw [← hempty]
      exact Function.update_self _ _ _
    · rw [marked_saved hl hs.consistent hip₂, h₂.unmarked.marked x hx]
      refine and_congr_right fun _ => ⟨fun hz p hp => ?_, fun hz p _ => hz p⟩
      by_contra hne
      exact hne (hz p (hall p (hp ▸ hne)) hp)
  · rintro ⟨k, hk, he⟩
    obtain ⟨j, -, rfl⟩ := List.mem_map.mp hk
    rw [Place.addr.injEq] at he
    exact absurd he.symm (Fin.castSucc_lt_last j).ne
  · rintro i ⟨k, -, he⟩
    cases he

end Multiplix.Fs
