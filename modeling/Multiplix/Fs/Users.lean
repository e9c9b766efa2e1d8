import Multiplix.Fs.Freed

/-! The handles of a device: `iget`, `dup`, `lock`, `put` and `ialloc` do what they are for. -/
namespace Multiplix.Fs
open Lib

variable {sb : Superblock} {d n : ℕ} {s s' : State Store} {ip : Slot} {E : Panic → Prop}

variable (sb) in
/-- What a step is for, between states of the disk and the table. -/
abbrev Steps (d : ℕ) (s : State Store) (l : Label Slot) (s' : State Store) : Prop :=
  Sound sb d s' ∧ Nodes.Next sb.ninodes (MAXFILE * BSIZE) (view sb d s) l (view sb d s')

section Handles

variable (hl : sb.Laid) (h : Sound sb d s)

include h

theorem SoundBut.iget_does (hn : n < sb.ninodes)
    (hE : (∀ ip, (s.1.inodes ip).refcnt ≠ 0) → E .noInodes) :
    Does E (iget d n) s fun ip s' => Sound sb d s' ∧
      Nodes.Gets n ip (view sb d s) (view sb d s') := by
  have hc := h.consistent
  by_cases hex : ∃ jp, s.1.Holds d n jp
  · obtain ⟨jp, hj⟩ := hex
    apply (igetLoop_held (List.mem_finRange jp) hj fun ip hip => hc.unique n _ _ hip hj).mono
    rintro ip s' ⟨rfl, rfl⟩
    have hpos : 0 < (s.1.inodes ip).refcnt + 1 := by
      have hlt := hj.1
      omega
    obtain ⟨hs, hview⟩ := h.recount hj.1 hpos
    exact ⟨hs, hview ▸ .again (h.holds_iff.mpr hj)⟩
  · have hnone (jp : Slot) : ¬s.1.Holds d n jp := fun hj => hex ⟨jp, hj⟩
    apply (igetLoop_does (fun _ he => absurd he (Option.not_mem_none _))
      fun _ hfull => hE fun ip => hfull ip (List.mem_finRange ip)).mono
    rintro ip s' (⟨hip, -⟩ | ⟨hfree, rfl⟩)
    · exact absurd hip (hnone ip)
    · obtain ⟨hs, hview⟩ := h.enter hfree hn hnone
      exact ⟨hs, hview ▸ .new (fun jp hj => hnone jp (h.holds_iff.mp hj)) hfree⟩

theorem SoundBut.dup_does (hip : 0 < (s.1.inodes ip).refcnt) :
    Does E ip.dup s fun _ s' => Steps sb d s (.dup ip) s' := by
  obtain ⟨hs, hview⟩ := h.recount hip (k := 1) (by omega)
  unfold Slot.dup
  rw [does_bind, does_modifyInode, does_pure]
  exact ⟨hs, hview ▸ .dup⟩

/-- The type on the disk is that of the file. -/
theorem SoundBut.node_type (hn : n < sb.ninodes) :
    ((view sb d s).node n).type = (dinode sb (s.2.dev d) n).type := by
  by_cases hex : ∃ jp, s.1.Caches d n jp
  · obtain ⟨jp, hj⟩ := hex
    rw [h.node_eq hj]
    exact (Inode.type_of_node (h.backed n (Set.notMem_empty n) jp hj).node).symm
  · have hnone (jp : Slot) : ¬s.1.Caches d n jp := fun hj => hex ⟨jp, hj⟩
    have htype : ((view sb d s).node n).type = (present sb d s n).type := rfl
    by_cases ht : (dinode sb (s.2.dev d) n).type = 0
    · rw [htype, present_init hnone ht, ht]
      rfl
    · rw [htype, present_dinode hnone hn ht]

/-- A locked inode has a type, or the kernel stops. -/
theorem SoundBut.lock_does (hip : 0 < (s.1.inodes ip).refcnt)
    (hE : ((view sb d s).node (s.1.inodes ip).inum).type = 0 → E .noType) :
    Does E (ip.lock sb) s fun _ s' => Steps sb d s (.lock ip) s' := by
  have hdev := h.dev ip hip
  have hown : s.1.Holds d (s.1.inodes ip).inum ip := ⟨hip, hdev, rfl⟩
  have hnode := h.node_type (h.consistent.range _ ip hown)
  have hlocked (hv : ¬(s.1.inodes ip).valid = true) : (locked sb s ip).type =
      (dinode sb (s.2.dev d) (s.1.inodes ip).inum).type := by
    unfold locked
    rw [if_neg hv, hdev]
    rfl
  by_cases ho : Opens sb s ip
  · apply (Fs.lock_does ho).mono
    rintro _ s' rfl
    obtain ⟨hs, hview⟩ := h.lock ho
    refine ⟨hs, hview ▸ .lock ?_⟩
    have hhandle : ((view sb d s).handle ip).inum = (s.1.inodes ip).inum := rfl
    rw [hhandle]
    by_cases hv : (s.1.inodes ip).valid = true
    · rw [h.node_eq ⟨hown, hv⟩]
      exact (h.backed _ (Set.notMem_empty _) ip ⟨hown, hv⟩).type
    · rw [hnode, ← hlocked hv]
      exact ho.2.resolve_left hv
  · obtain ⟨hv, htype⟩ := not_or.mp fun hor => ho ⟨hip, hor⟩
    have hzero := not_not.mp htype
    have hrefcnt : ¬¬1 ≤ (s.1.inodes ip).refcnt := not_not.mpr hip
    have hload : ((s.1.inodes ip).load (s.2.disk ((s.1.inodes ip).dev,
        iblock (s.1.inodes ip).inum sb)) (dinodeOff (s.1.inodes ip).inum)).type = 0 := by
      unfold locked at hzero
      rwa [if_neg hv] at hzero
    unfold Slot.lock
    rw [does_bind, does_inode, if_neg hrefcnt, if_neg hv, does_bind, does_bread, does_bind,
      does_data, does_bind, does_setInode, does_bind, does_brelease, does_bind, does_setInode,
      if_pos hload, does_fail]
    apply hE
    rw [hnode, ← hlocked hv, hzero]

theorem SoundBut.unlock_does (hip : 0 < (s.1.inodes ip).refcnt) :
    Does E ip.unlock s fun _ s' => Steps sb d s (.unlock ip) s' := by
  have hpos : ¬¬1 ≤ (s.1.inodes ip).refcnt := not_not.mpr hip
  unfold Slot.unlock
  rw [does_bind, does_inode, if_neg hpos]
  exact ⟨h, .unlock⟩

/-- A file without links is freed with its last user. -/
theorem SoundBut.free_does (hl : sb.Laid) (hip : s.1.Caches d n ip)
    (hone : (s.1.inodes ip).refcnt = 1) (hlink : (s.1.inodes ip).nlink = 0) :
    Does E (do
      ip.free sb
      modifyInode ip fun i => { i with refcnt := i.refcnt - 1 }) s
      fun _ s' => Steps sb d s (.put ip) s' := by
  have hlast : (view sb d s).Last n ip := by
    refine ⟨hip.1.2.2, hone, hip.2, ?_⟩
    rw [h.node_eq hip]
    exact hlink
  unfold Slot.free
  rw [does_bind, does_bind]
  apply (trunc_does hl h hip).mono
  rintro _ s₁ ⟨h₁, hview₁, hi, -⟩
  have hip₁ : s₁.1.Caches d n ip := by
    unfold Core.Caches Core.Holds
    rw [hi]
    exact hip
  have hlike : ({ s₁.1.inodes ip with type := 0 } : Inode).Like (s₁.1.inodes ip) :=
    ⟨rfl, rfl, rfl, rfl⟩
  have haddrs : ({ s₁.1.inodes ip with type := 0 } : Inode).addrs = (s₁.1.inodes ip).addrs := rfl
  have hfits : ({ s₁.1.inodes ip with type := 0 } : Inode).Fits := by
    have hold := h₁.fits hl hip₁
    have hzero : 0 < 256 ^ 2 := by decide
    exact ⟨hzero, hold.major, hold.minor, hold.nlink, hold.size, hold.addrs⟩
  have htype : ({ s₁.1.inodes ip with type := 0 } : Inode).type = 0 := rfl
  have hrefcnt : ({ s₁.1.inodes ip with type := 0 } : Inode).refcnt - 1 = 0 := by
    rw [hi]
    exact sub_eq_zero.mpr hone
  rw [does_bind, does_modifyInode, does_bind]
  generalize ({ s₁.1.inodes ip with type := 0 } : Inode) = i at hlike haddrs hfits htype hrefcnt ⊢
  apply update_does (hlike.dev.trans hip₁.1.2.1) (hlike.inum.trans hip₁.1.2.2)
  obtain ⟨hs, hnode, hhandle⟩ := (h₁.mono (Set.empty_subset {n})).saving hl hip₁ hlike haddrs
  have hip₂ : (saved sb d s₁ n ip i).1.Holds d n ip :=
    (Core.holds_withInode hlike d n ip).mpr hip₁.1
  obtain ⟨hfields, -⟩ := dinode_saved_self sb d n s₁ ip hfits
  have hself : (saved sb d s₁ n ip i).1.inodes ip = i := Function.update_self _ _ _
  rw [does_modifyInode, does_modifyInode, hself]
  generalize saved sb d s₁ n ip i = s₂ at hs hnode hhandle hip₂ hfields hself ⊢
  have hempty : Inode.init.node (Inode.init.contents (s₂.2.dev d)) = Node.none := by
    rw [Inode.contents_bare fun _ => rfl]
    rfl
  have hx : present sb d (State.withInode s₂ ip
      { i with valid := false, refcnt := i.refcnt - 1 }) n = Inode.init := by
    refine present_init (fun jp hj => ?_) ?_
    · by_cases he : jp = ip
      · subst he
        exact Bool.false_ne_true ((Core.caches_withInode_self d n).mp hj).2
      · exact he (hs.consistent.unique n jp ip ((Core.holds_withInode_ne he d n).mp hj.1) hip₂)
    · rw [State.withInode_store, Inode.type_of_node hfields, htype]
  have hbare (p : Place) : Inode.init.pointer (s₂.2.dev d) p = 0 := by
    cases p with
    | addr k => rfl
    | entry j => exact Inode.pointer_hole (Or.inl rfl)
  have hidem : State.withInode (State.withInode s₂ ip { i with valid := false }) ip
      { (State.withInode s₂ ip { i with valid := false }).1.inodes ip with
        refcnt := ((State.withInode s₂ ip { i with valid := false }).1.inodes ip).refcnt - 1 } =
      State.withInode s₂ ip { i with valid := false, refcnt := i.refcnt - 1 } := by
    unfold State.withInode
    dsimp only
    rw [Function.update_idem, Function.update_self]
  rw [hidem]
  obtain ⟨hs', hview⟩ := hs.leave hip₂ hrefcnt.le hx (fun p => Or.inl (hbare p)) (Nat.zero_le _)
  have hend : ({ i with valid := false, refcnt := i.refcnt - 1 } : Inode).handle =
      ⟨n, 0, false⟩ := by
    have hinum : i.inum = n := hlike.inum.trans hip₁.1.2.2
    unfold Inode.handle
    dsimp only
    rw [hinum, hrefcnt]
  have hall : view sb d (State.withInode s₂ ip
      { i with valid := false, refcnt := i.refcnt - 1 }) =
      ((view sb d s).setNode n .none).setHandle ip ⟨n, 0, false⟩ := by
    rw [hview, hempty, hend]
    apply Nodes.ext
    · unfold Nodes.setHandle Nodes.setNode
      dsimp only
      rw [hnode, hview₁, Function.update_idem]
      unfold Nodes.setNode
      dsimp only
      rw [Function.update_idem]
    · unfold Nodes.setHandle Nodes.setNode
      dsimp only
      rw [hhandle, hview₁]
      rfl
  exact ⟨hs', hall ▸ .free hlast⟩

/-- A user leaves. -/
theorem SoundBut.put_does (hl : sb.Laid) (hip : 0 < (s.1.inodes ip).refcnt) :
    Does E (ip.put sb) s fun _ s' => Steps sb d s (.put ip) s' := by
  have hdev := h.dev ip hip
  have hown : s.1.Holds d (s.1.inodes ip).inum ip := ⟨hip, hdev, rfl⟩
  unfold Slot.put
  rw [does_bind, does_inode]
  split_ifs with hlast
  · exact h.free_does hl ⟨hown, hlast.2.1⟩ hlast.1 hlast.2.2
  · have hnot (n : ℕ) : ¬(view sb d s).Last n ip := by
      rintro ⟨rfl, hone, hv, hlink⟩
      have hnode := h.node_eq (n := (s.1.inodes ip).inum) ⟨hown, hv⟩
      apply hlast
      refine ⟨hone, hv, ?_⟩
      have hsame : ((view sb d s).handle ip).inum = (s.1.inodes ip).inum := rfl
      rw [hsame, hnode] at hlink
      exact hlink
    rw [does_modifyInode, sub_eq_add_neg]
    by_cases hmore : 0 < (s.1.inodes ip).refcnt + -1
    · obtain ⟨hs, hview⟩ := h.recount hip hmore
      exact ⟨hs, hview ▸ .put hnot⟩
    · by_cases hv : (s.1.inodes ip).valid = true
      · obtain ⟨hs, hview⟩ := h.drop ⟨hown, hv⟩ (not_lt.mp hmore)
        exact ⟨hs, hview ▸ .put hnot⟩
      · obtain ⟨hs, hview⟩ := h.retire (not_lt.mp hmore) (Bool.eq_false_iff.mpr hv)
        exact ⟨hs, hview ▸ .put hnot⟩

end Handles
end Multiplix.Fs
