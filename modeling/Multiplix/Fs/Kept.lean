import Multiplix.Fs.Backed

/-! Steps that bring inodes to memory, give them blocks, save them and give them up. -/
namespace Multiplix.Fs
open Lib

variable {sb : Superblock} {d n : ℕ} {s s' : State Store} {ip : Slot} {i : Inode} {X : Set ℕ}
  {E : Panic → Prop}

/-! ### More blocks -/

/-- The inodes on the disk stay as they are when an inode gets blocks. -/
theorem Grows.dinode (h : Grows sb d n ip s s') {m : ℕ} (hm : m < sb.ninodes) :
    dinode sb (s'.2.dev d) m = dinode sb (s.2.dev d) m := by
  have hsame : s'.2.dev d (iblock m sb) = s.2.dev d (iblock m sb) :=
    h.apart _ (Or.inr (Or.inl ⟨m, hm, rfl⟩))
  unfold Fs.dinode
  rw [hsame]

theorem Grows.like (h : Grows sb d n ip s s') (jp : Slot) :
    (s'.1.inodes jp).handle = (s.1.inodes jp).handle ∧
      (s'.1.inodes jp).dev = (s.1.inodes jp).dev ∧
      ∀ f, (s'.1.inodes jp).node f = (s.1.inodes jp).node f := by
  by_cases hj : jp = ip
  · obtain ⟨a, ha⟩ := h.inodes_self
    rw [hj, ha]
    exact ⟨rfl, rfl, fun _ => rfl⟩
  · rw [h.inodes_ne hj]
    exact ⟨rfl, rfl, fun _ => rfl⟩

/-- An inode gets blocks. The other files stay, and so does its own if the blocks are empty. -/
theorem SoundBut.grows (h : SoundBut sb d s X) (hg : Grows sb d n ip s s')
    (hcontents : ∀ m ∉ X, contents sb d s' m = contents sb d s m) :
    SoundBut sb d s' X ∧ (∀ m ∉ X, (view sb d s').node m = (view sb d s).node m) ∧
      (view sb d s').handle = (view sb d s).handle := by
  have hdev (jp : Slot) (hj : 0 < (s'.1.inodes jp).refcnt) : (s'.1.inodes jp).dev = d := by
    obtain ⟨hhandle, hdev, -⟩ := hg.like jp
    have hrefcnt : (s'.1.inodes jp).refcnt = (s.1.inodes jp).refcnt :=
      congrArg Handle.users hhandle
    rw [hdev]
    exact h.dev jp (hrefcnt ▸ hj)
  obtain ⟨hs, hnode⟩ := h.frame hg.consistent (hg.caches d) hdev
    (fun m jp _ => (hg.like jp).2.2) (fun m _ => hg.dinode) (fun q _ => hg.keeps q) hcontents
  exact ⟨hs, hnode, funext fun jp => (hg.like jp).1⟩

theorem Mapped.sound {p : Place} {r : ℕ} (hm : Mapped sb d n ip p s r s') (h : Sound sb d s) :
    Sound sb d s' ∧ view sb d s' = view sb d s := by
  obtain ⟨hs, hnode, hhandle⟩ := h.grows hm.grows fun m _ => hm.contents m
  exact ⟨hs, view_eq (funext fun m => hnode m (Set.notMem_empty m)) hhandle⟩

/-! ### Saving -/

variable (sb d n s ip) in
theorem dinode_saved_self (hdisk : i.Fits) :
    (∀ f, (dinode sb ((saved sb d s n ip i).2.dev d) n).node f = i.node f) ∧
      (dinode sb ((saved sb d s n ip i).2.dev d) n).addrs = i.addrs := by
  have hself : (saved sb d s n ip i).2.dev d (iblock n sb) =
      i.store (s.2.disk (d, iblock n sb)) (dinodeOff n) := Function.update_self _ _ _
  unfold dinode
  rw [hself]
  exact Inode.load_store hdisk _ _ _

section Save

variable (h : SoundBut sb d s {n}) (hl : sb.Laid) (hip : s.1.Caches d n ip)
  (hi : i.Like (s.1.inodes ip)) (ha : i.addrs = (s.1.inodes ip).addrs)

include h hl hip hi ha

/-- An inode is changed, but not its blocks, and saved. -/
theorem SoundBut.saving : SoundBut sb d (saved sb d s n ip i) {n} ∧
    (view sb d (saved sb d s n ip i)).node =
      Function.update (view sb d s).node n (i.node (contents sb d s n)) ∧
    (view sb d (saved sb d s n ip i)).handle = (view sb d s).handle := by
  have hc := h.consistent
  have hself : (saved sb d s n ip i).1.inodes ip = i := Function.update_self _ _ _
  have hother {jp : Slot} (hj : jp ≠ ip) : (saved sb d s n ip i).1.inodes jp = s.1.inodes jp :=
    Function.update_of_ne hj _ _
  have hcontents := contents_saved hl hc hip hi ha
  have hc' := consistent_saved hl hc hip hi ha
  refine ⟨⟨hc', fun jp hj => ?_, fun m hm jp hj => ?_, fun m hm => ?_⟩, funext fun m => ?_,
    funext fun jp => ?_⟩
  · by_cases he : jp = ip
    · subst he
      rw [hself] at hj ⊢
      rw [hi.dev]
      exact h.dev jp (hi.refcnt ▸ hj)
    · rw [hother he] at hj ⊢
      exact h.dev jp hj
  · have hj' := (Core.caches_withInode hi d m jp).mp hj
    have he : jp ≠ ip := by
      rintro rfl
      exact hip.of_ne hm hj'
    rw [hother he]
    apply (h.backed m hm jp hj').mono (dinode_saved hm) (fun _ => rfl) fun _ _ => rfl
    have hsame := hcontents m
    unfold contents at hsame
    rwa [hc'.present_eq hj, hc.present_eq hj', hother he] at hsame
  · rw [present_saved_ne hip hi hm]
    exact h.size m hm
  · unfold view
    dsimp only
    rw [hcontents]
    by_cases hm : m = n
    · subst hm
      rw [present_saved_self hc hip hi, Function.update_self]
    · rw [present_saved_ne hip hi hm, Function.update_of_ne hm]
  · unfold view Inode.handle
    dsimp only
    by_cases he : jp = ip
    · rw [he, hself, hi.refcnt, hi.inum, hi.valid]
    · rw [hother he]

/-- Then the disk backs it, if it has a type. -/
theorem SoundBut.save (htype : i.type ≠ 0) (hfits : i.Fits) (hsize : i.size ≤ MAXFILE * BSIZE) :
    Sound sb d (saved sb d s n ip i) ∧
      (view sb d (saved sb d s n ip i)).node =
        Function.update (view sb d s).node n (i.node (contents sb d s n)) ∧
      (view sb d (saved sb d s n ip i)).handle = (view sb d s).handle := by
  obtain ⟨hs, hview⟩ := h.saving hl hip hi ha
  have hip' := (Core.caches_withInode hi d n ip).mpr hip
  refine ⟨⟨hs.consistent, hs.dev, fun m _ jp hj => ?_, fun m _ => ?_⟩, hview⟩
  · by_cases hm : m = n
    · subst hm
      obtain rfl := hs.consistent.unique m jp ip hj.1 hip'.1
      have hself : (saved sb d s m jp i).1.inodes jp = i := Function.update_self _ _ _
      obtain ⟨hnode, haddrs⟩ := dinode_saved_self sb d m s jp hfits
      rw [hself]
      exact .of_addrs hnode htype haddrs
    · exact hs.backed m hm jp hj
  · by_cases hm : m = n
    · rw [hm, present_saved_self h.consistent hip hi]
      exact hsize
    · exact hs.size m hm

end Save

theorem SoundBut.mono {Y : Set ℕ} (h : SoundBut sb d s X) (hXY : X ⊆ Y) : SoundBut sb d s Y where
  consistent := h.consistent
  dev := h.dev
  backed m hm := h.backed m fun hX => hm (hXY hX)
  size m hm := h.size m fun hX => hm (hXY hX)

theorem Consistent.addrs_lt (hc : Consistent sb d s) (hl : sb.Laid) (hip : s.1.Caches d n ip)
    (k : Fin (NDIRECT + 1)) : (s.1.inodes ip).addrs k < 256 ^ 4 := by
  by_cases hk : (s.1.inodes ip).addrs k = 0
  · rw [hk]
    decide
  · have hptr := hc.pointer_eq hip (.addr k)
    have hused := hc.owned.used (n, .addr k) (by rwa [hptr])
    rw [hptr] at hused
    have hlt : (s.1.inodes ip).addrs k < sb.size := hused.2.1
    have hsize := hl.size
    omega

theorem maxfile_lt : MAXFILE * BSIZE < 256 ^ 4 := by decide

theorem SoundBut.size_le (h : Sound sb d s) (hip : s.1.Caches d n ip) :
    (s.1.inodes ip).size ≤ MAXFILE * BSIZE := by
  have hle := h.size n (Set.notMem_empty n)
  rwa [h.consistent.present_eq hip] at hle

/-- The fields of an inode in memory fit in the inode on the disk. -/
theorem SoundBut.fits (h : Sound sb d s) (hl : sb.Laid) (hip : s.1.Caches d n ip) :
    (s.1.inodes ip).Fits :=
  (h.backed n (Set.notMem_empty n) ip hip).fits ((h.size_le hip).trans_lt maxfile_lt)
    (h.consistent.addrs_lt hl hip)

theorem Wrote.sound {off len tot : ℕ} {src : Mem} (hw : Wrote sb d n ip src off len s tot s')
    (h : Sound sb d s) (hl : sb.Laid) (hip : s.1.Caches d n ip)
    (hmax : off + len ≤ MAXFILE * BSIZE) :
    Sound sb d s' ∧
      view sb d s' = (view sb d s).setNode n (((view sb d s).node n).write off src tot) := by
  obtain ⟨s₁, i, hf, hi, rfl⟩ := hw
  obtain ⟨h₁, hnode₁, hhandle₁⟩ := (h.mono (Set.empty_subset {n})).grows hf.grows
    fun m hm => hf.others m hm
  have hip₁ := (hf.grows.caches d n ip).mpr hip
  obtain ⟨a, ha⟩ := hf.grows.inodes_self
  have hle := hf.le_len
  have hsize : i.size ≤ MAXFILE * BSIZE := by
    have hold := h.size_le hip
    rw [hi]
    exact max_le hold (by omega)
  have hfits : i.Fits := by
    have hold := h.fits hl hip
    have haddrs := h₁.consistent.addrs_lt hl hip₁
    rw [ha] at hi haddrs
    subst hi
    exact ⟨hold.type, hold.major, hold.minor, hold.nlink, hsize.trans_lt maxfile_lt, haddrs⟩
  have htype : i.type ≠ 0 := by
    rw [hi, ha]
    exact (h.backed n (Set.notMem_empty n) ip hip).type
  have hlike : i.Like (s₁.1.inodes ip) := by
    rw [hi]
    exact ⟨rfl, rfl, rfl, rfl⟩
  obtain ⟨hs, hnode, hhandle⟩ := h₁.save hl hip₁ hlike (by rw [hi]) htype hfits hsize
  refine ⟨hs, view_eq ?_ (hhandle.trans hhandle₁)⟩
  rw [hnode]
  funext m
  by_cases hm : m = n
  · rw [hm, Function.update_self, hf.contents, hi, ha]
    unfold Nodes.setNode
    dsimp only
    rw [Function.update_self, h.node_eq hip]
    rfl
  · rw [Function.update_of_ne hm, hnode₁ m hm, Nodes.setNode_ne hm]

/-! ### To memory and back -/

section Uncached

variable (hnone : ∀ jp, ¬s.1.Caches d n jp)

include hnone

theorem cached_none : s.1.cached d n = none := by
  rw [Option.eq_none_iff_forall_ne_some]
  exact fun jp hj => hnone jp (Core.cached_some hj)

/-- An inode that is not in memory is the one on the disk. -/
theorem present_dinode (hn : n < sb.ninodes) (htype : (dinode sb (s.2.dev d) n).type ≠ 0) :
    present sb d s n = dinode sb (s.2.dev d) n := by
  unfold present
  rw [cached_none hnone]
  exact if_pos ⟨hn, htype⟩

theorem present_init (htype : (dinode sb (s.2.dev d) n).type = 0) :
    present sb d s n = Inode.init := by
  unfold present
  rw [cached_none hnone]
  exact if_neg fun h => h.2 htype

end Uncached

/-- A consistent disk without any inode in memory. -/
theorem SoundBut.idle (hidle : ∀ jp, (s.1.inodes jp).refcnt = 0) (hc : Consistent sb d s)
    (hsize : ∀ n < sb.ninodes, (dinode sb (s.2.dev d) n).type ≠ 0 →
      (dinode sb (s.2.dev d) n).size ≤ MAXFILE * BSIZE) : Sound sb d s where
  consistent := hc
  dev jp hj := absurd (hidle jp) hj.ne'
  backed _ _ jp hj := absurd (hidle jp) hj.1.1.ne'
  size n _ := by
    unfold present
    rw [cached_none fun jp hj => absurd (hidle jp) hj.1.1.ne']
    dsimp only
    split_ifs with h
    · exact hsize n h.1 h.2
    · exact Nat.zero_le _

/-- An inode is brought to memory. -/
theorem SoundBut.lock (h : Sound sb d s) (ho : Opens sb s ip) :
    Sound sb d (State.withInode s ip (locked sb s ip)) ∧
      view sb d (State.withInode s ip (locked sb s ip)) =
        (view sb d s).setHandle ip { (view sb d s).handle ip with valid := true } := by
  obtain ⟨hrefcnt, hdev', hinum, hvalid⟩ := @locked_like sb s ip
  have hc := h.consistent
  have hdev := h.dev ip ho.1
  have hown : s.1.Holds d (s.1.inodes ip).inum ip := ⟨ho.1, hdev, rfl⟩
  have hself : (State.withInode s ip (locked sb s ip)).1.inodes ip = locked sb s ip :=
    Function.update_self _ _ _
  have hhandle : (locked sb s ip).handle = { (s.1.inodes ip).handle with valid := true } := by
    unfold Inode.handle
    rw [hrefcnt, hinum, hvalid]
  by_cases hv : (s.1.inodes ip).valid = true
  · have hsame : State.withInode s ip (locked sb s ip) = s := by
      unfold locked State.withInode
      rw [if_pos hv, Function.update_eq_self]
    refine ⟨by rwa [hsame], view_eq ?_ ?_⟩
    · rw [hsame]
      rfl
    · rw [view_withInode, hhandle]
      rfl
  · generalize hn : (s.1.inodes ip).inum = n at hown hinum
    have hi : locked sb s ip = { (s.1.inodes ip).load (s.2.dev d (iblock n sb)) (dinodeOff n) with
        valid := true } := by
      unfold locked
      rw [if_neg hv, hdev, hn]
    have hnone (jp : Slot) : ¬s.1.Caches d n jp := by
      intro hj
      rw [hc.unique n jp ip hj.1 hown] at hj
      exact hv hj.2
    have htype : (dinode sb (s.2.dev d) n).type ≠ 0 := by
      have hne := ho.2.resolve_left hv
      rwa [hi] at hne
    have hpresent := present_dinode hnone (hc.range n ip hown) htype
    have hc' := consistent_locked hc ho hdev hn
    have hcaches := caches_locked ho hdev hn
    have hother (m : ℕ) (hm : m ≠ n) :
        present sb d (State.withInode s ip (locked sb s ip)) m = present sb d s m := by
      apply present_congr
      · intro jp
        by_cases hj : jp = ip
        · subst hj
          exact iff_of_false (fun hj => hm (hj.1.2.2.symm.trans (hcaches.1.2.2)))
            fun hj => hm (hj.1.2.2.symm.trans hn)
        · exact Core.caches_withInode_ne hj d m
      · intro jp hj
        apply Function.update_of_ne
        rintro rfl
        exact hm (hj.1.2.2.symm.trans hn)
      · exact fun _ => rfl
    have hnode (m : ℕ) (f : Mem) :
        (present sb d (State.withInode s ip (locked sb s ip)) m).node f =
          (present sb d s m).node f := by
      by_cases hm : m = n
      · rw [hm, hc'.present_eq hcaches, hself, hpresent, hi]
        rfl
      · rw [hother m hm]
    refine ⟨⟨hc', fun jp hj => ?_, fun m _ jp hj => ?_, fun m hm => ?_⟩, view_eq ?_ ?_⟩
    · by_cases he : jp = ip
      · rw [he, hself, hdev', hdev]
      · rw [State.withInode_inodes, Function.update_of_ne he] at hj ⊢
        exact h.dev jp hj
    · by_cases hm : m = n
      · subst hm
        obtain rfl := hc'.unique m jp ip hj.1 hcaches.1
        rw [hself, hi]
        exact .of_addrs (fun _ => rfl) htype rfl
      · have he : jp ≠ ip := by
          rintro rfl
          exact hm (hj.1.2.2.symm.trans hcaches.1.2.2)
        rw [State.withInode_inodes, Function.update_of_ne he]
        exact h.backed m (Set.notMem_empty m) jp ((Core.caches_withInode_ne he d m).mp hj)
    · rw [Inode.size_of_node (hnode m)]
      exact h.size m hm
    · funext m
      have hcontents := contents_withLocked hc ho hdev hn m
      unfold view Nodes.setHandle
      dsimp only
      rw [hnode, hcontents]
    · rw [view_withInode, hhandle]
      rfl

/-- An inode is given up in memory; what the disk has of it takes its place, and may have fewer
blocks. -/
theorem SoundBut.leave (h : SoundBut sb d s {n}) (hip : s.1.Holds d n ip)
    (hi : i.refcnt ≤ 0) {x : Inode} (hx : present sb d (State.withInode s ip i) n = x)
    (hp : ∀ p, x.pointer (s.2.dev d) p = 0 ∨
      x.pointer (s.2.dev d) p = pointer sb d s (n, p)) (hsize : x.size ≤ MAXFILE * BSIZE) :
    Sound sb d (State.withInode s ip i) ∧
      view sb d (State.withInode s ip i) =
        ((view sb d s).setNode n (x.node (x.contents (s.2.dev d)))).setHandle ip i.handle := by
  have hc := h.consistent
  have hheld {m : ℕ} {jp : Slot} (hj : (State.withInode s ip i).1.Holds d m jp) :
      jp ≠ ip ∧ s.1.Holds d m jp := by
    have he : jp ≠ ip := by
      rintro rfl
      exact absurd ((Core.holds_withInode_self d m).mp hj).1 hi.not_gt
    exact ⟨he, (Core.holds_withInode_ne he d m).mp hj⟩
  have hother {m : ℕ} (hm : m ≠ n) :
      present sb d (State.withInode s ip i) m = present sb d s m := by
    apply present_congr
    · intro jp
      by_cases hj : jp = ip
      · subst hj
        exact iff_of_false (fun hj => (hheld hj.1).1 rfl)
          fun hj => hm (hj.1.2.2.symm.trans hip.2.2)
      · exact Core.caches_withInode_ne hj d m
    · intro jp hj
      apply Function.update_of_ne
      rintro rfl
      exact hm (hj.1.2.2.symm.trans hip.2.2)
    · exact fun _ => rfl
  have hpointer (q : ℕ × Place) : pointer sb d (State.withInode s ip i) q = 0 ∨
      pointer sb d (State.withInode s ip i) q = pointer sb d s q := by
    obtain ⟨m, p⟩ := q
    by_cases hm : m = n
    · subst hm
      unfold pointer
      rw [hx]
      exact hp p
    · unfold pointer
      rw [hother hm]
      exact Or.inr rfl
  have hc' : Consistent sb d (State.withInode s ip i) :=
    ⟨hc.owned.weaken hpointer, hc.reserved, fun m jp jp' hj hj' =>
      hc.unique m jp jp' (hheld hj).2 (hheld hj').2, fun m jp hj => hc.range m jp (hheld hj).2⟩
  refine ⟨⟨hc', fun jp hj => ?_, fun m _ jp hj => ?_, fun m _ => ?_⟩, view_eq ?_ (view_withInode i)⟩
  · have he : jp ≠ ip := by
      rintro rfl
      rw [State.withInode_inodes, Function.update_self] at hj
      exact absurd hj hi.not_gt
    rw [State.withInode_inodes, Function.update_of_ne he] at hj ⊢
    exact h.dev jp hj
  · obtain ⟨he, hj'⟩ := hheld hj.1
    have hm : m ∉ ({n} : Set ℕ) := by
      rintro rfl
      exact he (hc.unique m jp ip hj' hip)
    rw [State.withInode_inodes, Function.update_of_ne he]
    exact h.backed m hm jp ((Core.caches_withInode_ne he d m).mp hj)
  · by_cases hm : m = n
    · rw [hm, hx]
      exact hsize
    · rw [hother hm]
      exact h.size m hm
  · funext m
    unfold view contents Nodes.setHandle Nodes.setNode
    dsimp only
    by_cases hm : m = n
    · rw [hm, hx, Function.update_self]
      rfl
    · rw [hother hm, Function.update_of_ne hm]
      rfl

/-- The copy in memory is given up, and with it blocks that are still empty. -/
theorem SoundBut.drop (h : Sound sb d s) (hip : s.1.Caches d n ip) {k : ℤ}
    (hk : (s.1.inodes ip).refcnt + k ≤ 0) :
    Sound sb d (State.withInode s ip { s.1.inodes ip with refcnt := (s.1.inodes ip).refcnt + k }) ∧
      view sb d (State.withInode s ip
        { s.1.inodes ip with refcnt := (s.1.inodes ip).refcnt + k }) =
      (view sb d s).count ip k := by
  have hc := h.consistent
  have hback := h.backed n (Set.notMem_empty n) ip hip
  have hx : present sb d (State.withInode s ip
      { s.1.inodes ip with refcnt := (s.1.inodes ip).refcnt + k }) n =
        dinode sb (s.2.dev d) n := by
    refine present_dinode (fun jp hj => ?_) (hc.range n ip hip.1) ?_
    · by_cases he : jp = ip
      · subst he
        exact absurd ((Core.caches_withInode_self d n).mp hj).1.1 hk.not_gt
      · exact he (hc.unique n jp ip ((Core.holds_withInode_ne he d n).mp hj.1) hip.1)
    · rw [State.withInode_store, Inode.type_of_node hback.node]
      exact hback.type
  have hp (p : Place) : (dinode sb (s.2.dev d) n).pointer (s.2.dev d) p = 0 ∨
      (dinode sb (s.2.dev d) n).pointer (s.2.dev d) p = pointer sb d s (n, p) := by
    rw [hc.pointer_eq hip]
    exact hback.pointer p
  have hsize : (dinode sb (s.2.dev d) n).size ≤ MAXFILE * BSIZE := by
    rw [Inode.size_of_node hback.node]
    exact h.size_le hip
  obtain ⟨hs, hview⟩ := (h.mono (Set.empty_subset {n})).leave hip.1 hk hx hp hsize
  refine ⟨hs, hview.trans ?_⟩
  have hnode := h.node_eq hip
  unfold contents at hnode
  rw [hc.present_eq hip] at hnode
  rw [hback.node, hback.contents, ← hnode]
  unfold Nodes.count Nodes.setNode
  rw [Function.update_eq_self]
  rfl

end Multiplix.Fs
