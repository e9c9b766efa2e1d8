import Multiplix.Fs.Nodes
import Multiplix.Fs.Tree

/-! Inodes in memory are backed by the disk: what is not there of them yet is not missed. -/
namespace Multiplix.Fs
open Lib

variable {sb : Superblock} {d m n : ℕ} {s s' : State Store} {ip jp : Slot} {i i' : Inode}
  {disk disk' : ℕ → Mem}

/-! ### Words of an inode -/

/-- The values fit in their words. -/
structure Inode.Fits (i : Inode) : Prop where
  type : i.type < 256 ^ 2
  major : i.major < 256 ^ 2
  minor : i.minor < 256 ^ 2
  nlink : i.nlink < 256 ^ 2
  size : i.size < 256 ^ 4
  addrs : ∀ k, i.addrs k < 256 ^ 4

namespace Inode

theorem fits_load (i : Inode) (m : Mem) (o : ℕ) : (i.load m o).Fits :=
  ⟨Mem.load_lt _ _ _, Mem.load_lt _ _ _, Mem.load_lt _ _ _, Mem.load_lt _ _ _, Mem.load_lt _ _ _,
    fun _ => Mem.load_lt _ _ _⟩

/-- The file of an inode, with these bytes. -/
def node (i : Inode) (bytes : Mem) : Node :=
  ⟨i.type, i.major, i.minor, i.nlink, i.size, bytes⟩

theorem load_store (h : i.Fits) (j : Inode) (m : Mem) (o : ℕ) :
    (∀ f, (j.load (i.store m o) o).node f = i.node f) ∧
      (j.load (i.store m o) o).addrs = i.addrs := by
  obtain ⟨htype, hmajor, hminor, hnlink, hsize, haddrs⟩ := h
  have hlen : (List.ofFn i.addrs).length = NDIRECT + 1 := List.length_ofFn
  unfold load store node
  dsimp only
  constructor
  · intro f
    rw [Node.mk.injEq]
    refine ⟨?_, ?_, ?_, ?_, ?_, rfl⟩
    · rw [Mem.load_storeWords_disjoint _ _ (by omega), Mem.load_store_disjoint _ _ (by omega),
        Mem.load_store_disjoint _ _ (by omega), Mem.load_store_disjoint _ _ (by omega),
        Mem.load_store_disjoint _ _ (by omega), Mem.load_store_word _ _ htype]
    · rw [Mem.load_storeWords_disjoint _ _ (by omega), Mem.load_store_disjoint _ _ (by omega),
        Mem.load_store_disjoint _ _ (by omega), Mem.load_store_disjoint _ _ (by omega),
        Mem.load_store_word _ _ hmajor]
    · rw [Mem.load_storeWords_disjoint _ _ (by omega), Mem.load_store_disjoint _ _ (by omega),
        Mem.load_store_disjoint _ _ (by omega), Mem.load_store_word _ _ hminor]
    · rw [Mem.load_storeWords_disjoint _ _ (by omega), Mem.load_store_disjoint _ _ (by omega),
        Mem.load_store_word _ _ hnlink]
    · rw [Mem.load_storeWords_disjoint _ _ (by omega), Mem.load_store_word _ _ hsize]
  · funext k
    have hk : k.val < (List.ofFn i.addrs).length := hlen.symm ▸ k.isLt
    have hget : (List.ofFn i.addrs)[k.val] = i.addrs k := List.getElem_ofFn _
    rw [Mem.load_storeWords _ _ hk (hget ▸ haddrs k), hget]

theorem size_of_node {i j : Inode} (h : ∀ f, i.node f = j.node f) : i.size = j.size :=
  congrArg Node.size (h fun _ => 0)

theorem type_of_node {i j : Inode} (h : ∀ f, i.node f = j.node f) : i.type = j.type :=
  congrArg Node.type (h fun _ => 0)

/-- A block of a file, as bytes of the file. -/
theorem contents_block (disk : ℕ → Mem) (i : Inode) (bn : ℕ) {x : ℕ} (hx : x < BSIZE) :
    i.contents disk (bn * BSIZE + x) = i.block disk bn x := by
  have hdiv : (bn * BSIZE + x) / BSIZE = bn := by
    rw [Nat.mul_comm, Nat.mul_add_div (Nat.zero_lt_of_lt hx), Nat.div_eq_of_lt hx, Nat.add_zero]
  have hmod : (bn * BSIZE + x) % BSIZE = x := by
    rw [Nat.mul_comm, Nat.mul_add_mod, Nat.mod_eq_of_lt hx]
  unfold contents Mem.ofBlocks
  rw [hdiv, hmod]

end Inode

/-! ### An inode in memory and on the disk -/

/-- The inode is as on the disk, but for blocks that read as the holes that are there. -/
structure Backed (sb : Superblock) (disk : ℕ → Mem) (n : ℕ) (i : Inode) : Prop where
  node : ∀ f, (dinode sb disk n).node f = i.node f
  type : i.type ≠ 0
  addrs : ∀ k, (dinode sb disk n).addrs k = 0 ∨ (dinode sb disk n).addrs k = i.addrs k
  holes : ∀ bn, (dinode sb disk n).pointer disk (place bn) = 0 →
    ∀ x < BSIZE, i.block disk bn x = 0

namespace Backed

theorem of_addrs (hn : ∀ f, (dinode sb disk n).node f = i.node f) (ht : i.type ≠ 0)
    (ha : (dinode sb disk n).addrs = i.addrs) : Backed sb disk n i where
  node := hn
  type := ht
  addrs k := Or.inr (congrFun ha k)
  holes bn hb x _ := by
    rw [Inode.pointer_of_addrs ha] at hb
    unfold Inode.block
    rw [if_pos hb]

variable (h : Backed sb disk n i)

include h

theorem fits (hsize : i.size < 256 ^ 4) (ha : ∀ k, i.addrs k < 256 ^ 4) : i.Fits := by
  have hload : (dinode sb disk n).Fits := Inode.fits_load _ _ _
  have hnode := h.node fun _ => 0
  unfold Inode.node at hnode
  rw [Node.mk.injEq] at hnode
  obtain ⟨htype, hmajor, hminor, hnlink, -, -⟩ := hnode
  exact ⟨htype ▸ hload.type, hmajor ▸ hload.major, hminor ▸ hload.minor, hnlink ▸ hload.nlink,
    hsize, ha⟩

theorem pointer (p : Place) : (dinode sb disk n).pointer disk p = 0 ∨
    (dinode sb disk n).pointer disk p = i.pointer disk p := by
  cases p with
  | addr k => exact h.addrs k
  | entry j =>
    rcases h.addrs (Fin.last NDIRECT) with hz | he
    · exact Or.inl (Inode.pointer_hole (Or.inl hz))
    · right
      apply Inode.pointer_congr
      · intro k hk
        cases hk
      · exact he
      · exact fun _ => rfl

/-- What is left of the file when the copy in memory is given up. -/
theorem contents : (dinode sb disk n).contents disk = i.contents disk := by
  apply Inode.contents_congr
  intro bn x hx
  rcases h.pointer (place bn) with hz | he
  · rw [h.holes bn hz x hx]
    unfold Inode.block
    rw [if_pos hz]
  · unfold Inode.block
    rw [he]

/-- The inode has got more blocks at most, and they are empty. -/
theorem mono (hd : dinode sb disk' n = dinode sb disk n) (hn : ∀ f, i'.node f = i.node f)
    (ha : ∀ k, i.addrs k ≠ 0 → i'.addrs k = i.addrs k)
    (hc : i'.contents disk' = i.contents disk) : Backed sb disk' n i' where
  node f := by rw [hd, h.node, hn]
  type := by
    rw [Inode.type_of_node hn]
    exact h.type
  addrs k := by
    rw [hd]
    rcases h.addrs k with hz | he
    · exact Or.inl hz
    · by_cases hz : i.addrs k = 0
      · exact Or.inl (he.trans hz)
      · exact Or.inr (he.trans (ha k hz).symm)
  holes bn hb x hx := by
    rw [hd] at hb
    have hold (hz : (dinode sb disk n).pointer disk (place bn) = 0) :
        i'.block disk' bn x = 0 := by
      rw [← Inode.contents_block _ _ _ hx, hc, Inode.contents_block _ _ _ hx]
      exact h.holes bn hz x hx
    generalize hp : place bn = p at hb hold
    cases p with
    | addr k => exact hold hb
    | entry j =>
      by_cases hlast : (dinode sb disk n).addrs (Fin.last NDIRECT) = 0
      · exact hold (Inode.pointer_hole (Or.inl hlast))
      · -- the entries are in a block that both have
        have he := (h.addrs (Fin.last NDIRECT)).resolve_left hlast
        have he' : i'.addrs (Fin.last NDIRECT) = (dinode sb disk n).addrs (Fin.last NDIRECT) := by
          rw [ha _ (he ▸ hlast), he]
        have hsame : i'.pointer disk' (.entry j) = (dinode sb disk n).pointer disk' (.entry j) := by
          apply Inode.pointer_congr
          · intro k hk
            cases hk
          · exact he'
          · exact fun _ => rfl
        unfold Inode.block
        rw [hp, hsame, if_pos hb]

end Backed

/-! ### All inodes -/

variable (sb d s) in
/-- The disk is consistent and backs the inodes in memory, but perhaps those of `X`. All are of this
device. -/
structure SoundBut (X : Set ℕ) : Prop where
  consistent : Consistent sb d s
  dev : ∀ ip, 0 < (s.1.inodes ip).refcnt → (s.1.inodes ip).dev = d
  backed : ∀ n ∉ X, ∀ ip, s.1.Caches d n ip → Backed sb (s.2.dev d) n (s.1.inodes ip)
  size : ∀ n ∉ X, (present sb d s n).size ≤ MAXFILE * BSIZE

variable (sb d s) in
abbrev Sound : Prop := SoundBut sb d s ∅

/-- The handle that an inode in memory is. -/
def Inode.handle (i : Inode) : Handle := ⟨i.inum, i.refcnt, i.valid⟩

variable (sb d s) in
/-- The files of the device and their handles. -/
def view : Nodes Slot where
  node n := (present sb d s n).node (contents sb d s n)
  handle ip := (s.1.inodes ip).handle

/-- What the present inode is like, where those in memory and on the disk stay so. -/
theorem present_map {β : Type} (F : Inode → β)
    (hcache : ∀ ip, s'.1.Caches d m ip ↔ s.1.Caches d m ip)
    (hmem : ∀ ip, s.1.Caches d m ip → F (s'.1.inodes ip) = F (s.1.inodes ip))
    (hdisk : m < sb.ninodes → dinode sb (s'.2.dev d) m = dinode sb (s.2.dev d) m) :
    F (present sb d s' m) = F (present sb d s m) := by
  unfold present
  rw [Core.cached_congr hcache]
  cases hf : s.1.cached d m with
  | some ip => exact hmem ip (Core.cached_some hf)
  | none =>
    dsimp only
    by_cases hm : m < sb.ninodes
    · rw [hdisk hm]
    · rw [if_neg (fun h => hm h.1), if_neg (fun h => hm h.1)]

theorem SoundBut.holds_iff {X : Set ℕ} (h : SoundBut sb d s X) :
    (view sb d s).Holds n ip ↔ s.1.Holds d n ip :=
  ⟨fun hip => ⟨hip.1, h.dev ip hip.1, hip.2⟩, fun hip => ⟨hip.1, hip.2.2⟩⟩

theorem SoundBut.node_eq {X : Set ℕ} (h : SoundBut sb d s X) (hip : s.1.Caches d n ip) :
    (view sb d s).node n = (s.1.inodes ip).node (contents sb d s n) := by
  unfold view
  dsimp only
  rw [h.consistent.present_eq hip]

/-- The inodes stay as they are, but for blocks that are added and counts of references. -/
theorem SoundBut.frame {X : Set ℕ} (h : SoundBut sb d s X) (hc : Consistent sb d s')
    (hcache : ∀ m jp, s'.1.Caches d m jp ↔ s.1.Caches d m jp)
    (hdev : ∀ jp, 0 < (s'.1.inodes jp).refcnt → (s'.1.inodes jp).dev = d)
    (hmem : ∀ m jp, s.1.Caches d m jp → ∀ f, (s'.1.inodes jp).node f = (s.1.inodes jp).node f)
    (hdisk : ∀ m ∉ X, m < sb.ninodes → dinode sb (s'.2.dev d) m = dinode sb (s.2.dev d) m)
    (hkeep : ∀ q, q.1 ∉ X → pointer sb d s q ≠ 0 → pointer sb d s' q = pointer sb d s q)
    (hcontents : ∀ m ∉ X, contents sb d s' m = contents sb d s m) :
    SoundBut sb d s' X ∧ ∀ m ∉ X, (view sb d s').node m = (view sb d s).node m := by
  have hnode {m : ℕ} (hm : m ∉ X) (f : Mem) :
      (present sb d s' m).node f = (present sb d s m).node f :=
    present_map (fun i => i.node f) (hcache m) (fun jp hj => hmem m jp hj f) (hdisk m hm)
  refine ⟨⟨hc, hdev, fun m hm jp hj => ?_, fun m hm => ?_⟩, fun m hm => ?_⟩
  · have hj' := (hcache m jp).mp hj
    have hown := h.consistent.present_eq hj'
    have hown' := hc.present_eq hj
    apply (h.backed m hm jp hj').mono (hdisk m hm (h.consistent.range m jp hj'.1)) (hmem m jp hj')
    · intro k hk
      have hkeep' := hkeep (m, .addr k) hm
      rw [hc.pointer_eq hj, h.consistent.pointer_eq hj'] at hkeep'
      exact hkeep' hk
    · have hsame := hcontents m hm
      unfold Fs.contents at hsame
      rwa [hown, hown'] at hsame
  · rw [Inode.size_of_node (hnode hm)]
    exact h.size m hm
  · unfold view
    dsimp only
    rw [hcontents m hm, hnode hm]

/-! ### Handles -/

/-- Only the table of inodes changes, and no inode in memory but for the count of references. -/
theorem SoundBut.table (h : Sound sb d s) (hdisk : s'.2.disk = s.2.disk)
    (hcache : ∀ m jp, s'.1.Caches d m jp ↔ s.1.Caches d m jp)
    (hmem : ∀ m jp, s.1.Caches d m jp → (∀ f, (s'.1.inodes jp).node f = (s.1.inodes jp).node f) ∧
      (s'.1.inodes jp).addrs = (s.1.inodes jp).addrs)
    (hdev : ∀ jp, 0 < (s'.1.inodes jp).refcnt → (s'.1.inodes jp).dev = d)
    (hunique : ∀ m jp jp', s'.1.Holds d m jp → s'.1.Holds d m jp' → jp = jp')
    (hrange : ∀ m jp, s'.1.Holds d m jp → m < sb.ninodes) :
    Sound sb d s' ∧ (view sb d s').node = (view sb d s).node := by
  have hdev' : s'.2.dev d = s.2.dev d := by
    unfold Store.dev
    rw [hdisk]
  have haddrs (m : ℕ) : (present sb d s' m).addrs = (present sb d s m).addrs :=
    present_map Inode.addrs (hcache m) (fun jp hj => (hmem m jp hj).2) fun _ => by rw [hdev']
  have hpointer : pointer sb d s' = pointer sb d s := by
    funext q
    unfold pointer
    rw [hdev', Inode.pointer_of_addrs (haddrs q.1)]
  have hmarked (x : ℕ) : Marked sb d s' x ↔ Marked sb d s x := by
    unfold Marked
    rw [hdev']
  have hc : Consistent sb d s' := by
    constructor
    · rw [hpointer]
      exact h.consistent.owned.mono fun b hb => ⟨hb.1, hb.2.1, (hmarked b).mpr hb.2.2⟩
    · exact fun b hb => (hmarked b).mpr (h.consistent.reserved b hb)
    · exact hunique
    · exact hrange
  obtain ⟨hs, hnode⟩ := h.frame hc hcache hdev (fun m jp hj => (hmem m jp hj).1)
    (fun m _ _ => by rw [hdev']) (fun q _ _ => by rw [hpointer]) fun m _ => by
      unfold contents
      rw [hdev', Inode.contents_of_addrs (haddrs m)]
  exact ⟨hs, funext fun m => hnode m (Set.notMem_empty m)⟩

theorem view_withInode (i : Inode) : (view sb d (State.withInode s ip i)).handle =
    Function.update (view sb d s).handle ip i.handle := by
  funext jp
  unfold view
  dsimp only
  by_cases hj : jp = ip
  · subst hj
    rw [State.withInode_inodes, Function.update_self, Function.update_self]
  · rw [State.withInode_inodes, Function.update_of_ne hj, Function.update_of_ne hj]

theorem view_eq {a : Nodes Slot} (hn : (view sb d s).node = a.node)
    (hh : (view sb d s).handle = a.handle) : view sb d s = a := Nodes.ext hn hh

section Table

variable (h : Sound sb d s)

include h

theorem SoundBut.other (hi : s'.1.inodes = s.1.inodes) (hd : s'.2.disk = s.2.disk) :
    Sound sb d s' ∧ view sb d s' = view sb d s := by
  have hholds (m : ℕ) (jp : Slot) : s'.1.Holds d m jp ↔ s.1.Holds d m jp := by
    unfold Core.Holds
    rw [hi]
  have hs := h.table hd (fun m jp => by unfold Core.Caches; rw [hholds, hi])
    (fun m jp _ => by rw [hi]; exact ⟨fun _ => rfl, rfl⟩) (by rw [hi]; exact h.dev)
    (fun m jp jp' hj hj' => h.consistent.unique m jp jp' ((hholds m jp).mp hj)
      ((hholds m jp').mp hj'))
    fun m jp hj => h.consistent.range m jp ((hholds m jp).mp hj)
  refine ⟨hs.1, view_eq hs.2 ?_⟩
  unfold view
  dsimp only
  rw [hi]

/-- One inode of the table changes, and stands for the same file or for none before and after. -/
theorem SoundBut.withInode {i : Inode}
    (hcache : ∀ m, (0 < i.refcnt ∧ i.dev = d ∧ i.inum = m) ∧ i.valid = true ↔ s.1.Caches d m ip)
    (hmem : (∀ f, i.node f = (s.1.inodes ip).node f) ∧ i.addrs = (s.1.inodes ip).addrs)
    (hdev : 0 < i.refcnt → i.dev = d)
    (hheld : 0 < i.refcnt → i.inum < sb.ninodes ∧ ∀ jp, s.1.Holds d i.inum jp → jp = ip) :
    Sound sb d (State.withInode s ip i) ∧
      view sb d (State.withInode s ip i) = (view sb d s).setHandle ip i.handle := by
  have hs : Sound sb d (State.withInode s ip i) ∧
      (view sb d (State.withInode s ip i)).node = (view sb d s).node := by
    refine h.table rfl (fun m jp => ?_) (fun m jp _ => ?_) (fun jp hj => ?_)
      (fun m jp jp' hj hj' => ?_) fun m jp hj => ?_
    · by_cases hj : jp = ip
      · subst hj
        rw [Core.caches_withInode_self]
        exact hcache m
      · exact Core.caches_withInode_ne hj d m
    · by_cases hj : jp = ip
      · subst hj
        rw [State.withInode_inodes, Function.update_self]
        exact hmem
      · rw [State.withInode_inodes, Function.update_of_ne hj]
        exact ⟨fun _ => rfl, rfl⟩
    · by_cases he : jp = ip
      · subst he
        rw [State.withInode_inodes, Function.update_self] at hj ⊢
        exact hdev hj
      · rw [State.withInode_inodes, Function.update_of_ne he] at hj ⊢
        exact h.dev jp hj
    · by_cases he : jp = ip
      · subst he
        rw [Core.holds_withInode_self] at hj
        by_cases he' : jp' = jp
        · exact he'.symm
        · rw [Core.holds_withInode_ne he', ← hj.2.2] at hj'
          exact ((hheld hj.1).2 jp' hj').symm
      · rw [Core.holds_withInode_ne he] at hj
        by_cases he' : jp' = ip
        · subst he'
          rw [Core.holds_withInode_self] at hj'
          rw [← hj'.2.2] at hj
          exact (hheld hj'.1).2 jp hj
        · exact h.consistent.unique m jp jp' hj ((Core.holds_withInode_ne he' d m).mp hj')
    · by_cases he : jp = ip
      · subst he
        rw [Core.holds_withInode_self] at hj
        rw [← hj.2.2]
        exact (hheld hj.1).1
      · exact h.consistent.range m jp ((Core.holds_withInode_ne he d m).mp hj)
  exact ⟨hs.1, view_eq hs.2 (view_withInode i)⟩

/-- A reference more or less, and not the last. -/
theorem SoundBut.recount {k : ℤ} (hip : 0 < (s.1.inodes ip).refcnt)
    (hk : 0 < (s.1.inodes ip).refcnt + k) :
    Sound sb d (State.withInode s ip { s.1.inodes ip with refcnt := (s.1.inodes ip).refcnt + k }) ∧
      view sb d (State.withInode s ip
        { s.1.inodes ip with refcnt := (s.1.inodes ip).refcnt + k }) =
      (view sb d s).count ip k := by
  have hdev := h.dev ip hip
  have hown : s.1.Holds d (s.1.inodes ip).inum ip := ⟨hip, hdev, rfl⟩
  refine h.withInode (fun m => ?_) ?_ (fun _ => hdev) fun _ => ?_
  · exact ⟨fun hc => ⟨⟨hip, hc.1.2⟩, hc.2⟩, fun hc => ⟨⟨hk, hc.1.2⟩, hc.2⟩⟩
  · exact ⟨fun _ => rfl, rfl⟩
  · exact ⟨h.consistent.range _ ip hown, fun jp hj => h.consistent.unique _ _ _ hj hown⟩

/-- A slot that is free is taken for an inode that has none. -/
theorem SoundBut.enter (hfree : (s.1.inodes ip).refcnt = 0) (hn : n < sb.ninodes)
    (hnone : ∀ jp, ¬s.1.Holds d n jp) :
    Sound sb d (State.withInode s ip
        { s.1.inodes ip with dev := d, inum := n, refcnt := 1, valid := false }) ∧
      view sb d (State.withInode s ip
        { s.1.inodes ip with dev := d, inum := n, refcnt := 1, valid := false }) =
      (view sb d s).setHandle ip ⟨n, 1, false⟩ := by
  refine h.withInode (fun m => ?_) ?_ (fun _ => rfl) fun _ => ?_
  · exact iff_of_false (fun hc => absurd hc.2 Bool.false_ne_true)
      fun hc => absurd hfree hc.1.1.ne'
  · exact ⟨fun _ => rfl, rfl⟩
  · exact ⟨hn, fun jp hj => absurd hj (hnone jp)⟩

/-- The last reference to an inode that is not in memory. -/
theorem SoundBut.retire {k : ℤ} (hk : (s.1.inodes ip).refcnt + k ≤ 0)
    (hv : (s.1.inodes ip).valid = false) :
    Sound sb d (State.withInode s ip { s.1.inodes ip with refcnt := (s.1.inodes ip).refcnt + k }) ∧
      view sb d (State.withInode s ip
        { s.1.inodes ip with refcnt := (s.1.inodes ip).refcnt + k }) =
      (view sb d s).count ip k := by
  refine h.withInode (fun m => ?_) ?_ (fun hz => absurd hz hk.not_gt)
    fun hz => absurd hz hk.not_gt
  · exact iff_of_false (fun hc => absurd hc.1.1 hk.not_gt)
      fun hc => Bool.false_ne_true (hv.symm.trans hc.2)
  · exact ⟨fun _ => rfl, rfl⟩

end Table
end Multiplix.Fs
