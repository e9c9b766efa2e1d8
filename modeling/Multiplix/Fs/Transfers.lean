import Multiplix.Fs.Users

/-! What the handles are used for: blocks, bytes and fields of files, and new files. -/
namespace Multiplix.Fs
open Lib

variable {sb : Superblock} {d n : ℕ} {s s' : State Store} {ip : Slot} {E : Panic → Prop}

/-! ### Blocks and bytes -/

/-- A file with holes is read as well: a hole gets a block of zeros, unless none is free. -/
theorem SoundBut.readLoop_does (hl : sb.Laid) (k : ℕ) (dst : Buffer) (off tot len : ℕ)
    (h : Sound sb d s) (hip : s.1.Caches d n ip) (hk : len - tot ≤ k) (htot : tot ≤ len)
    (hlen : len ≤ addrSpace) (hmax : off + (len - tot) ≤ MAXFILE * BSIZE) :
    Does E (ip.readLoop sb k dst off tot len) s fun r s' =>
      (Sound sb d s' ∧ view sb d s' = view sb d s) ∧ tot ≤ r.1 ∧ r.1 ≤ len ∧
      (r.1 < len → Full sb d s') ∧ ∀ x < addrSpace, r.2.view s'.2 x =
        (dst.view s.2).copy tot (contents sb d s n) off (r.1 - tot) x := by
  induction k generalizing dst off tot s with
  | zero =>
    have hz : tot = len := by omega
    subst hz
    refine ⟨⟨h, rfl⟩, le_rfl, le_rfl, fun hlt => absurd hlt (lt_irrefl _), fun x _ => ?_⟩
    rw [Nat.sub_self, Mem.copy_zero]
  | succ k ih =>
    unfold Slot.readLoop
    split_ifs with hlt
    · have hpos : off % BSIZE < BSIZE := Nat.mod_lt _ (by decide)
      rw [does_bind]
      apply (bmap_does hl h.consistent hip (div_lt_maxfile (by omega))).mono
      intro addr s₁ h₁
      obtain ⟨hs₁, hview₁⟩ := h₁.sound h
      have hip₁ := (h₁.grows.caches d n ip).mpr hip
      rcases h₁.block with ⟨rfl, hfull, -⟩ | ⟨hne, hptr⟩
      · refine ⟨⟨hs₁, hview₁⟩, le_rfl, htot, fun _ => hfull, fun x _ => ?_⟩
        rw [Nat.sub_self, Mem.copy_zero, dst.view_congr h₁.grows.user]
      have hdev : (s₁.1.inodes ip).dev = d := hip₁.1.2.1
      have hptr' := hs₁.consistent.pointer_eq hip₁ (place (off / BSIZE))
      rw [hptr] at hptr'
      have hcontents₁ : contents sb d s₁ n = (s₁.1.inodes ip).contents (s₁.2.dev d) := by
        unfold contents
        rw [hs₁.consistent.present_eq hip₁]
      rw [if_neg hne, does_bind, does_inode, does_bind, does_bread, hdev, does_bind, does_data,
        does_bind]
      have hm : off % BSIZE + min (len - tot) (BSIZE - off % BSIZE) ≤ BSIZE := by omega
      have hstep : 0 < min (len - tot) (BSIZE - off % BSIZE) := by omega
      have hleft : min (len - tot) (BSIZE - off % BSIZE) ≤ len - tot := min_le_left _ _
      generalize min (len - tot) (BSIZE - off % BSIZE) = m at hm hstep hleft ⊢
      apply Buffer.put_does
      · omega
      intro dst' t hdisk hview
      have hother : Sound sb d (s₁.1, t) ∧ view sb d (s₁.1, t) = view sb d s₁ :=
        hs₁.other rfl hdisk
      obtain ⟨hs₂, hview₂⟩ := hother
      have hsame : contents sb d (s₁.1, t) n = contents sb d s n := by
        have hnode := congrArg (fun a => (Nodes.node a n).bytes) (hview₂.trans hview₁)
        exact hnode
      rw [does_bind, does_brelease]
      apply (ih (s := (s₁.1, t)) dst' (off + m) (tot + m) hs₂ hip₁ (by omega) (by omega)
        (by omega)).mono
      rintro r s' ⟨⟨hs', hview'⟩, hle, hle', hfull, hbytes⟩
      refine ⟨⟨hs', hview'.trans (hview₂.trans hview₁)⟩, by omega, hle', hfull, fun x hx => ?_⟩
      have hne' : (s₁.1.inodes ip).pointer (s₁.2.dev d) (place (off / BSIZE)) ≠ 0 := hptr' ▸ hne
      have hpiece := copy_contents (dst.view s₁.2) tot hne' hm
      rw [← hptr', ← hcontents₁, h₁.contents] at hpiece
      have hdst : dst.view s₁.2 = dst.view s.2 := dst.view_congr h₁.grows.user
      rw [hbytes x hx, Mem.copy_congr (hview x hx), hsame]
      unfold Store.dev at hpiece
      rw [hpiece, hdst, Mem.copy_copy]
      congr 2
      omega
    · have hz : tot = len := by omega
      subst hz
      refine ⟨⟨h, rfl⟩, le_rfl, le_rfl, fun hlt => absurd hlt (lt_irrefl _), fun x _ => ?_⟩
      rw [Nat.sub_self, Mem.copy_zero]

section Uses

variable (hl : sb.Laid) (h : Sound sb d s) (hip : s.1.Caches d n ip)

include h hip

theorem SoundBut.view_holds : (view sb d s).Holds n ip := h.holds_iff.mpr hip.1

theorem SoundBut.view_size : ((view sb d s).node n).size = (s.1.inodes ip).size := by
  rw [h.node_eq hip]
  rfl

include hl

theorem SoundBut.bmap_does {bn : ℕ} (hbn : bn < MAXFILE) :
    Does E (ip.bmap sb bn) s fun addr s' =>
      Steps sb d s (.bmap ip bn addr (Full sb d s')) s' := by
  apply (Fs.bmap_does hl h.consistent hip hbn).mono
  intro addr s' h'
  obtain ⟨hs, hview⟩ := h'.sound h
  refine ⟨hs, hview ▸ .bmap fun hz => ?_⟩
  rcases h'.block with ⟨-, hfull, -⟩ | ⟨hne, -⟩
  · exact hfull
  · exact absurd hz hne

theorem SoundBut.read_does (dst : Buffer) {off len : ℕ} (hoff : off < 2 ^ 32)
    (hlen : len < 2 ^ 32) : Does E (ip.read sb dst off len) s fun r s' =>
      Steps sb d s (.read n ip off len (r.2.view s'.2) r.1 (Full sb d s')) s' := by
  have hholds := h.view_holds hip
  have hsize := h.view_size hip
  unfold Slot.read
  rw [does_bind, does_inode]
  by_cases hguard : off > (s.1.inodes ip).size ∨ (off + len) % 2 ^ 32 < off
  · rw [if_pos hguard]
    refine ⟨h, .skip hholds ?_⟩
    rw [hsize]
    refine hguard.imp id fun hwrap => ?_
    by_contra hlt
    rw [Nat.mod_eq_of_lt (by omega)] at hwrap
    omega
  · rw [if_neg hguard]
    obtain ⟨hin, hwrap⟩ := not_or.mp hguard
    have hlt : off + len < 2 ^ 32 := by
      by_contra hle
      have hmod : (off + len) % 2 ^ 32 = off + len - 2 ^ 32 := by
        rw [Nat.mod_eq_sub_mod (by omega), Nat.mod_eq_of_lt (by omega)]
      omega
    have hcount : (if off + len > (s.1.inodes ip).size then (s.1.inodes ip).size - off else len) =
        min len ((s.1.inodes ip).size - off) := by
      split_ifs
      · omega
      · omega
    have hmax := h.size_le hip
    have hlimit := maxfile_le
    rw [hcount]
    apply (h.readLoop_does hl _ dst off 0 _ hip (by omega) (by omega) (by omega) (by omega)).mono
    rintro r s' ⟨⟨hs, hview⟩, -, hle, hfull, hbytes⟩
    refine ⟨hs, ?_⟩
    rw [hview]
    refine .read hholds (by omega) hlt ?_ ?_ fun x hx => ?_
    · rwa [hsize]
    · rwa [hsize]
    · rw [hbytes x (by omega), Mem.copy_inside _ _ _ (Nat.zero_le x) (by omega), Nat.sub_zero]
      rfl

theorem SoundBut.write_does (src : Buffer) {off len : ℕ} (hlen : len < 2 ^ 32) :
    Does E (ip.write sb src off len) s fun r s' =>
      Steps sb d s (.write n ip off len (src.view s.2) r (Full sb d s')) s' := by
  have hholds := h.view_holds hip
  have hsize := h.view_size hip
  by_cases hrefused : Nodes.Refused (s.1.inodes ip).size (MAXFILE * BSIZE) off len
  · refine (does_of_exec (write_refused src hlen hrefused)).mpr ⟨h, .refuse hholds ?_⟩
    rwa [hsize]
  · have hnot := hrefused
    unfold Nodes.Refused at hnot
    rw [not_or, not_or, Nat.not_lt, Nat.not_le, Nat.not_lt] at hnot
    obtain ⟨hin, hwrap, hmax⟩ := hnot
    apply (Fs.write_does src hl h.consistent hip hin hwrap hmax).mono
    rintro r s' ⟨tot, rfl, hw⟩
    obtain ⟨hs, hview⟩ := hw.sound h hl hip hmax
    exact ⟨hs, hview ▸ .write hholds (by rwa [hsize]) hw.tot_le (hw.full hl hip)⟩

theorem SoundBut.trunc_does : Does E (ip.trunc sb) s fun _ s' => Steps sb d s (.trunc n ip) s' := by
  apply (Fs.trunc_does hl h hip).mono
  rintro _ s' ⟨hs, hview, -⟩
  exact ⟨hs, hview ▸ .trunc (h.view_holds hip)⟩

/-- The fields that `create` sets, saved. -/
theorem SoundBut.set_does {major minor nlink : ℕ} (hmajor : major < 256 ^ 2)
    (hminor : minor < 256 ^ 2) (hnlink : nlink < 256 ^ 2) :
    Does E (do
      modifyInode ip fun i => { i with major := major, minor := minor, nlink := nlink }
      ip.update sb) s fun _ s' => Sound sb d s' ∧ view sb d s' = (view sb d s).setNode n
        { (view sb d s).node n with major := major, minor := minor, nlink := nlink } := by
  have hold := h.fits hl hip
  rw [does_bind, does_modifyInode]
  apply update_does (d := d) (n := n)
  · exact hip.1.2.1
  · exact hip.1.2.2
  obtain ⟨hs, hnode, hhandle⟩ := (h.mono (Set.empty_subset {n})).save hl hip
    (i := { s.1.inodes ip with major := major, minor := minor, nlink := nlink })
    ⟨rfl, rfl, rfl, rfl⟩ rfl (h.backed n (Set.notMem_empty n) ip hip).type
    ⟨hold.type, hmajor, hminor, hnlink, hold.size, hold.addrs⟩ (h.size_le hip)
  refine ⟨hs, view_eq ?_ hhandle⟩
  rw [hnode]
  unfold Nodes.setNode
  dsimp only
  rw [h.node_eq hip]
  rfl

theorem SoundBut.update_does : Does E (ip.update sb) s fun _ s' =>
    Steps sb d s (.update ip) s' := by
  have hself : State.withInode s ip (s.1.inodes ip) = s := by
    unfold State.withInode
    rw [Function.update_eq_self]
  have hfits := h.fits hl hip
  have hset := h.set_does (E := E) hl hip hfits.major hfits.minor hfits.nlink
  rw [does_bind, does_modifyInode, hself] at hset
  apply hset.mono
  rintro _ s' ⟨hs, hview⟩
  have hsame : ({ (view sb d s).node n with
      major := (s.1.inodes ip).major, minor := (s.1.inodes ip).minor,
      nlink := (s.1.inodes ip).nlink } : Node) = (view sb d s).node n := by
    rw [h.node_eq hip]
    rfl
  rw [hsame] at hview
  unfold Nodes.setNode at hview
  rw [Function.update_eq_self] at hview
  exact ⟨hs, hview ▸ .update⟩

end Uses
/-! ### New files -/

variable (sb d s n) in
/-- The inode on the disk is cleared, and gets a type. -/
def typed (type : ℕ) : State Store :=
  State.withBlock s (d, iblock n sb)
    (((s.2.disk (d, iblock n sb)).fill (dinodeOff n) 64 0).store 2 (dinodeOff n) type)

section Typed

variable {type : ℕ}

theorem typed_dev {x : ℕ} (hx : x ≠ iblock n sb) :
    (typed sb d n s type).2.dev d x = s.2.dev d x :=
  Function.update_of_ne (fun he => hx (Prod.ext_iff.mp he).2) _ _

theorem dinode_typed_ne {m : ℕ} (hm : m ≠ n) :
    dinode sb ((typed sb d n s type).2.dev d) m = dinode sb (s.2.dev d) m := by
  apply dinode_congr
  intro x hx hx'
  by_cases hblk : iblock m sb = iblock n sb
  · have hoff := dinodeOff_ne hm hblk
    have hself : (typed sb d n s type).2.dev d (iblock n sb) =
        ((s.2.disk (d, iblock n sb)).fill (dinodeOff n) 64 0).store 2 (dinodeOff n) type :=
      Function.update_self _ _ _
    rw [hblk, hself, Mem.store_outside _ _ (by omega), Mem.fill_outside _ _ (by omega)]
    rfl
  · rw [typed_dev hblk]

variable (sb d n s) in
theorem dinode_typed_self (htype : type < 256 ^ 2) :
    dinode sb ((typed sb d n s type).2.dev d) n = { Inode.init with type := type } := by
  have hself : (typed sb d n s type).2.dev d (iblock n sb) =
      ((s.2.disk (d, iblock n sb)).fill (dinodeOff n) 64 0).store 2 (dinodeOff n) type :=
    Function.update_self _ _ _
  have hzero (k o : ℕ) (ho : 2 ≤ o) (hk : o + k ≤ 64) :
      (((s.2.disk (d, iblock n sb)).fill (dinodeOff n) 64 0).store 2 (dinodeOff n) type).load k
        (dinodeOff n + o) = 0 := by
    rw [Mem.load_store_disjoint _ _ (by omega), Mem.load_fill_zero _ (by omega) (by omega)]
  unfold dinode Inode.load
  rw [hself, Mem.load_store_word _ _ htype, hzero 2 2 le_rfl (by omega),
    hzero 2 4 (by omega) (by omega), hzero 2 6 (by omega) (by omega),
    hzero 4 8 (by omega) (by omega)]
  have haddrs (k : Fin (NDIRECT + 1)) :
      (((s.2.disk (d, iblock n sb)).fill (dinodeOff n) 64 0).store 2 (dinodeOff n) type).load 4
        (dinodeOff n + 12 + 4 * k) = 0 := by
    have hk : k.val < 13 := k.isLt
    rw [Nat.add_assoc]
    exact hzero 4 _ (by omega) (by omega)
  simp only [haddrs]
  rfl

variable (hl : sb.Laid) (h : Sound sb d s) (hn : n < sb.ninodes)
  (hfree : ((view sb d s).node n).type = 0)

include h hfree

/-- A file without a type is not in memory. -/
theorem SoundBut.not_caches (jp : Slot) : ¬s.1.Caches d n jp := by
  intro hj
  rw [h.node_eq hj] at hfree
  exact (h.backed n (Set.notMem_empty n) jp hj).type hfree

include hl hn

theorem SoundBut.typed (htype : type < 256 ^ 2) (hne : type ≠ 0) :
    Sound sb d (typed sb d n s type) ∧
      view sb d (Fs.typed sb d n s type) =
        (view sb d s).setNode n { Node.none with type := type } := by
  have hc := h.consistent
  have hnone := h.not_caches hfree
  have hself := dinode_typed_self sb d n s htype
  have htype' := h.node_type hn
  rw [hfree] at htype'
  have hpresent : present sb d s n = Inode.init := present_init hnone htype'.symm
  have hpresent' : present sb d (Fs.typed sb d n s type) n = { Inode.init with type := type } := by
    rw [← hself]
    refine present_dinode (s := Fs.typed sb d n s type) hnone hn ?_
    rw [hself]
    exact hne
  have hother {m : ℕ} (hm : m ≠ n) :
      present sb d (Fs.typed sb d n s type) m = present sb d s m :=
    present_congr (fun _ => Iff.rfl) (fun _ _ => rfl) fun _ => dinode_typed_ne hm
  have haddrs (m : ℕ) : (present sb d (Fs.typed sb d n s type) m).addrs =
      (present sb d s m).addrs := by
    by_cases hm : m = n
    · rw [hm, hpresent, hpresent']
    · rw [hother hm]
  have hlt := hl.iblock_lt_meta hn
  have hdev {q : ℕ × Place} (hq : pointer sb d s q ≠ 0) :
      (Fs.typed sb d n s type).2.dev d (pointer sb d s q) = s.2.dev d (pointer sb d s q) := by
    have hle := hc.pointer_le hq
    exact typed_dev (by omega)
  have hptr (q : ℕ × Place) : pointer sb d (Fs.typed sb d n s type) q = pointer sb d s q := by
    unfold pointer
    apply Inode.pointer_congr fun _ _ => by rw [haddrs]
    · rw [haddrs]
    · exact hdev (q := (q.1, .addr (Fin.last NDIRECT)))
  have hmarked (x : ℕ) : Marked sb d (Fs.typed sb d n s type) x ↔ Marked sb d s x := by
    unfold Marked
    rw [typed_dev (hl.iblock_ne_bblock hn).symm]
  have hc' : Consistent sb d (Fs.typed sb d n s type) := by
    refine ⟨?_, fun b hb => (hmarked b).mpr (hc.reserved b hb), hc.unique, hc.range⟩
    rw [funext hptr]
    exact hc.owned.mono fun b hb => ⟨hb.1, hb.2.1, (hmarked b).mpr hb.2.2⟩
  have hcontents (m : ℕ) : contents sb d (Fs.typed sb d n s type) m = contents sb d s m := by
    apply Inode.contents_congr
    intro bn x _
    exact congrFun (Inode.block_congr (hptr (m, place bn)) (hdev (q := (m, place bn)))) x
  obtain ⟨hs, hnode⟩ := (h.mono (Set.empty_subset {n})).frame hc' (fun _ _ => Iff.rfl) h.dev
    (fun _ _ _ _ => rfl) (fun m hm _ => dinode_typed_ne hm) (fun q _ _ => hptr q)
    fun m _ => hcontents m
  refine ⟨⟨hc', hs.dev, fun m _ jp hj => ?_, fun m _ => ?_⟩, view_eq (funext fun m => ?_) rfl⟩
  · apply hs.backed m ?_ jp hj
    rintro rfl
    exact hnone jp hj
  · by_cases hm : m = n
    · rw [hm, hpresent']
      exact Nat.zero_le _
    · exact hs.size m hm
  · unfold Nodes.setNode
    dsimp only
    by_cases hm : m = n
    · have hbytes : contents sb d s n = fun _ => 0 := by
        unfold contents
        rw [hpresent, Inode.contents_bare fun _ => rfl]
      unfold view
      dsimp only
      rw [hm, hpresent', hcontents, hbytes, Function.update_self]
      rfl
    · rw [Function.update_of_ne hm]
      exact hnode m hm

end Typed

theorem SoundBut.iallocLoop_does {type : ℕ} (hl : sb.Laid) (h : Sound sb d s)
    (htype : type < 256 ^ 2) (hne : type ≠ 0) (hE : (∀ ip, (s.1.inodes ip).refcnt ≠ 0) →
      E .noInodes) (k inum : ℕ) (hlow : 1 ≤ inum) (hk : inum + k = max 1 sb.ninodes)
    (hused : ∀ m, 1 ≤ m → m < inum → ((view sb d s).node m).type ≠ 0) :
    Does E (iallocLoop sb d type k inum) s fun r s' => Steps sb d s (.ialloc type r) s' := by
  induction k generalizing inum with
  | zero => exact ⟨h, .none fun m hm hm' => hused m hm (by omega)⟩
  | succ k ih =>
    have hn : inum < sb.ninodes := by omega
    have hload : (s.2.disk (d, iblock inum sb)).load 2 (dinodeOff inum) =
        ((view sb d s).node inum).type := (h.node_type hn).symm
    unfold iallocLoop
    rw [does_bind, does_bread, does_bind, does_data, hload]
    split_ifs with hfree
    · obtain ⟨hs, hview⟩ := h.typed hl hn hfree htype hne
      rw [does_bind, does_modify, does_bind, does_brelease, does_bind]
      apply (hs.iget_does hn hE).mono
      rintro ip s' ⟨hs', hget⟩
      rw [does_pure]
      rw [hview] at hget
      exact ⟨hs', .ialloc hlow hn hused hfree hget⟩
    · rw [does_bind, does_brelease]
      apply ih (inum + 1) (by omega) (by omega)
      intro m hm hm'
      by_cases he : m = inum
      · rw [he]
        exact hfree
      · exact hused m hm (by omega)

/-- The first inode that is free is taken. -/
theorem SoundBut.ialloc_does {type : ℕ} (hl : sb.Laid) (h : Sound sb d s)
    (htype : type < 256 ^ 2) (hne : type ≠ 0) (hE : (∀ ip, (s.1.inodes ip).refcnt ≠ 0) →
      E .noInodes) : Does E (ialloc sb d type) s fun r s' =>
        Steps sb d s (.ialloc type r) s' :=
  h.iallocLoop_does hl htype hne hE _ 1 le_rfl (by omega) fun m hm hm' => by omega

end Multiplix.Fs
