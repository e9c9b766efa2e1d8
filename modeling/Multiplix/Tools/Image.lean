import Mathlib.Algebra.Order.BigOperators.Group.List
import Mathlib.Data.Finset.Union
import Multiplix.Tools.Append

/-! The image that `mkfs` makes of files. -/
namespace Multiplix.Tools.Mkfs
open Lib Fs

namespace St

variable {st : St} {n : ℕ} {din : Dinode}

/-! ### With and without an inode in memory -/

theorem opened_holds {d m : ℕ} {ip : Fs.Slot} (h : (st.opened n din).1.Holds d m ip) :
    ip = slot₀ ∧ m = n := by
  by_cases hip : ip = slot₀
  · subst hip
    exact ⟨rfl, ((Core.holds_withInode_self d m).mp h).2.2.symm⟩
  · exact absurd ((Core.holds_withInode_ne hip d m).mp h).1 (lt_irrefl 0)

theorem booted_not_caches (d m : ℕ) (ip : Fs.Slot) : ¬st.booted.1.Caches d m ip := fun h =>
  absurd h.1.1 (lt_irrefl 0)

theorem dev_booted : st.booted.2.dev ROOTDEV = st.disk := st.store_dev

theorem dev_opened : (st.opened n din).2.dev ROOTDEV = st.disk := st.store_dev

/-- What is on the image of an inode. -/
theorem dinode_disk (hn : n ≤ NINODES) : Fs.dinode room st.disk n =
    { Inode.init with
      type := (st.dinode n).type, major := (st.dinode n).major, minor := (st.dinode n).minor,
      nlink := (st.dinode n).nlink, size := (st.dinode n).size, addrs := (st.dinode n).addrs } := by
  unfold Fs.dinode
  rw [show iblock n room = IBLOCK n from rfl, disk_ne st (iblock_lt hn).ne]
  rfl

theorem present_booted (k : ℕ) : present room ROOTDEV st.booted k =
    if k < NINODES + 1 ∧ (Fs.dinode room st.disk k).type ≠ 0 then Fs.dinode room st.disk k
    else Inode.init := by
  have hnone : st.booted.1.cached ROOTDEV k = none := by
    rw [Option.eq_none_iff_forall_ne_some]
    exact fun ip hip => booted_not_caches _ _ _ (Core.cached_some hip)
  unfold present
  rw [hnone, dev_booted]
  rfl

/-- The inode is in use. -/
def Live (st : St) (n : ℕ) : Prop := n ≤ NINODES ∧ (Fs.dinode room st.disk n).type ≠ 0

theorem Live.present (h : st.Live n) :
    present room ROOTDEV st.booted n = Fs.dinode room st.disk n := by
  rw [present_booted, if_pos ⟨Nat.lt_succ_of_le h.1, h.2⟩]

/-- The inode refers to the blocks that it has. -/
def Agrees (st : St) (n : ℕ) (din : Dinode) : Prop :=
  n ≤ NINODES ∧ (present room ROOTDEV st.booted n).addrs = din.addrs

theorem Live.agrees (h : st.Live n) : st.Agrees n (st.dinode n) := by
  refine ⟨h.1, ?_⟩
  rw [h.present, dinode_disk h.1]

namespace Agrees

variable (h : st.Agrees n din)

include h

theorem addrs (k : ℕ) : (Fs.present room ROOTDEV (st.opened n din) k).addrs =
    (Fs.present room ROOTDEV st.booted k).addrs := by
  by_cases hk : k = n
  · subst hk
    have hcached : (st.opened k din).1.cached ROOTDEV k = some slot₀ :=
      Core.cached_eq (opened_caches st k _) fun ip hip => (opened_holds hip).1
    rw [h.2]
    unfold Fs.present
    rw [hcached]
    dsimp only
    rw [opened_inode]
    rfl
  · have hnot (ip : Fs.Slot) : ¬(st.opened n din).1.Caches ROOTDEV k ip := fun hip =>
      hk (opened_holds hip.1).2
    rw [present_congr (s := st.booted) (fun ip => iff_of_false (hnot ip) (booted_not_caches _ _ _))
      (fun ip hip => absurd hip (booted_not_caches _ _ _)) fun _ => rfl]

theorem pointer :
    Fs.pointer room ROOTDEV (st.opened n din) = Fs.pointer room ROOTDEV st.booted := by
  funext q
  exact Inode.pointer_of_addrs (h.addrs q.1) _ _

theorem contents :
    Fs.contents room ROOTDEV (st.opened n din) = Fs.contents room ROOTDEV st.booted := by
  funext k
  exact Inode.contents_of_addrs (h.addrs k) _

theorem blocksFor (I : Finset (ℕ × Place)) :
    Fs.blocksFor room ROOTDEV (st.opened n din) I = Fs.blocksFor room ROOTDEV st.booted I :=
  demand_congr (fun q _ => congrFun h.pointer q) fun _ _ => Iff.rfl

theorem consistent :
    Consistent room ROOTDEV (st.opened n din) ↔ Consistent room ROOTDEV st.booted := by
  constructor
  · intro hc
    refine ⟨?_, hc.reserved, fun m ip _ hip => ?_, fun m ip hip => ?_⟩
    · rw [← h.pointer]
      exact hc.owned
    · exact absurd hip.1 (lt_irrefl 0)
    · exact absurd hip.1 (lt_irrefl 0)
  · intro hc
    refine ⟨?_, hc.reserved, fun m ip ip' hip hip' => ?_, fun m ip hip => ?_⟩
    · rw [h.pointer]
      exact hc.owned
    · rw [(opened_holds hip).1, (opened_holds hip').1]
    · rw [(opened_holds hip).2]
      exact Nat.lt_succ_of_le h.1

end Agrees

/-- An inode with the same blocks is saved. -/
structure Resaves (st : St) (n : ℕ) (din : Dinode) (st' : St) : Prop where
  run : st.winode n din = some st'
  consistent : Consistent room ROOTDEV st'.booted
  fresh : st'.Fresh
  live : st'.Live n
  dinode : st'.dinode n = din
  others : ∀ m ≤ NINODES, m ≠ n → Fs.dinode room st'.disk m = Fs.dinode room st.disk m
  pointer : ∀ q, pointer room ROOTDEV st'.booted q = pointer room ROOTDEV st.booted q
  contents : ∀ m, contents room ROOTDEV st'.booted m = contents room ROOTDEV st.booted m
  blocksFor : ∀ I, blocksFor room ROOTDEV st'.booted I = blocksFor room ROOTDEV st.booted I
  freeblock : st'.freeblock = st.freeblock
  spares : Spares st st'

theorem Resaves.inode {st' : St} (h : Resaves st n din st') : Fs.dinode room st'.disk n =
    { Inode.init with
      type := din.type, major := din.major, minor := din.minor, nlink := din.nlink,
      size := din.size, addrs := din.addrs } := by
  rw [dinode_disk h.live.1, h.dinode]

theorem winode_resaves (hc : Consistent room ROOTDEV st.booted) (hfresh : st.Fresh)
    (h : st.Agrees n din) (hw : din.Words) (htype : din.type ≠ 0) :
    ∃ st', Resaves st n din st' := by
  obtain ⟨st', hsave⟩ := winode_saves st din h.1
  have hc₁ := h.consistent.mpr hc
  have hip := opened_caches st n din
  have hlike : (din.cached n).Like ((st.opened n din).1.inodes slot₀) := by
    rw [opened_inode]
    exact ⟨rfl, rfl, rfl, rfl⟩
  have haddrs : (din.cached n).addrs = ((st.opened n din).1.inodes slot₀).addrs := by
    rw [opened_inode]
  have hstate := hsave.state din
  have hdinode := hsave.dinode hw
  have hlive : st'.Live n := by
    refine ⟨h.1, ?_⟩
    rw [dinode_disk h.1, hdinode]
    exact htype
  have hag : st'.Agrees n din := by
    have hag := hlive.agrees
    rwa [hdinode] at hag
  refine ⟨st', hsave.run, ?_, hsave.fresh h.1 ⟨hc₁, hfresh⟩, hlive, hdinode, fun m _ hm => ?_,
    fun q => ?_, fun m => ?_, fun I => ?_, hsave.freeblock, hsave.spares h.1⟩
  · rw [← hag.consistent, ← hstate]
    exact consistent_saved room_laid hc₁ hip hlike haddrs
  · have hsame : Fs.dinode room ((saved room ROOTDEV (st.opened n din) n slot₀
        (din.cached n)).2.dev ROOTDEV) m =
        Fs.dinode room ((st.opened n din).2.dev ROOTDEV) m := dinode_saved hm
    rwa [hstate, dev_opened, dev_opened] at hsame
  · rw [← hag.pointer, ← h.pointer, ← hstate]
    exact pointer_saved room_laid hc₁ hip hlike haddrs q
  · rw [← hag.contents, ← h.contents, ← hstate]
    exact contents_saved room_laid hc₁ hip hlike haddrs m
  · rw [← hag.blocksFor, ← h.blocksFor, ← hstate]
    exact blocksFor_saved room_laid hc₁ hip hlike haddrs I

/-! ### A run of `mkfs` -/

/-- The image has an inode of this type, with one link, for a file with these bytes. -/
structure Keeps (st : St) (n type : ℕ) (data : List Byte) : Prop where
  type : (Fs.dinode room st.disk n).type = type
  nlink : (Fs.dinode room st.disk n).nlink = 1
  size : (Fs.dinode room st.disk n).size = data.length
  bytes : ∀ i (h : i < data.length), contents room ROOTDEV st.booted n i = data[i]
  mapped : ∀ x < data.length, pointer room ROOTDEV st.booted (n, place (x / BSIZE)) ≠ 0

/-- Another file is left as it is. -/
theorem Keeps.congr {st' : St} {type : ℕ} {data : List Byte} (h : Keeps st n type data)
    (hdinode : Fs.dinode room st'.disk n = Fs.dinode room st.disk n)
    (hcontents : contents room ROOTDEV st'.booted n = contents room ROOTDEV st.booted n)
    (hpointer : ∀ p,
      pointer room ROOTDEV st'.booted (n, p) = pointer room ROOTDEV st.booted (n, p)) :
    Keeps st' n type data where
  type := hdinode ▸ h.type
  nlink := hdinode ▸ h.nlink
  size := hdinode ▸ h.size
  bytes := hcontents ▸ h.bytes
  mapped x hx := (hpointer _).symm ▸ h.mapped x hx

/-- A file that is appended to. -/
theorem Keeps.append {st' : St} {type len : ℕ} {data : List Byte} {xp : Mem}
    {a : Fin (NDIRECT + 1) → ℕ} (h : Keeps st n type data) (hlive : st.Live n)
    (hlive' : st'.Live n)
    (hw : Wrote room ROOTDEV n slot₀ xp (st.dinode n).size len (st.opened n (st.dinode n)) len
      (st'.opened n (st'.dinode n)))
    (ha : st'.dinode n = { st.dinode n with addrs := a, size := (st.dinode n).size + len }) :
    Keeps st' n type (data ++ xp.slice 0 len) := by
  have hip := opened_caches st n (st.dinode n)
  obtain ⟨htype, hnlink, hsize, hbytes, hmapped⟩ := h
  rw [dinode_disk hlive.1] at htype hnlink hsize
  dsimp only at htype hnlink hsize
  rw [hsize] at hw ha
  have hcontents := hw.contents_self room_laid hip
  rw [hlive.agrees.contents, hlive'.agrees.contents] at hcontents
  constructor
  · rw [dinode_disk hlive.1, ha]
    exact htype
  · rw [dinode_disk hlive.1, ha]
    exact hnlink
  · rw [dinode_disk hlive.1, ha, List.length_append, Mem.length_slice]
  · intro i hi
    rw [List.length_append, Mem.length_slice] at hi
    rw [hcontents]
    by_cases hin : i < data.length
    · rw [List.getElem_append_left hin, Mem.copy_outside _ _ _ (Or.inl hin)]
      exact hbytes i hin
    · rw [List.getElem_append_right (Nat.not_lt.mp hin),
        Mem.copy_inside _ _ _ (Nat.not_lt.mp hin) hi]
      simp [Mem.slice]
  · intro x hx
    rw [List.length_append, Mem.length_slice] at hx
    rw [← hlive'.agrees.pointer]
    by_cases hin : x < data.length
    · have hold := hmapped x hin
      rw [← hlive.agrees.pointer] at hold
      rwa [hw.pointer_eq room_laid hip (Or.inl hold)]
    · exact hw.mapped room_laid hip (Nat.not_lt.mp hin) hx

/-- After the superblock is written. -/
def start : St := (⟨fun _ _ => 0, 1, nmeta⟩ : St).wsect 1 superblock

/-- The image has these files, from the first inode on, and nothing else, and the places `I` can
still get their blocks. -/
structure Built (I : Finset (ℕ × Place)) (cs : List (ℕ × List Byte)) (st : St) : Prop where
  consistent : Consistent room ROOTDEV st.booted
  fresh : st.Fresh
  fits : blocksFor room ROOTDEV st.booted I ≤ FSSIZE
  aside : ∀ b, Aside b → st.img b = start.img b
  freeinode : st.freeinode = cs.length + 1
  count : cs.length ≤ NINODES
  keeps : ∀ i (h : i < cs.length), Keeps st (i + 1) cs[i].1 cs[i].2
  types : ∀ c ∈ cs, c.1 ≠ 0
  free : ∀ n ≤ NINODES, n = 0 ∨ cs.length < n → (Fs.dinode room st.disk n).type = 0

namespace Built

variable {I : Finset (ℕ × Place)} {cs : List (ℕ × List Byte)} (h : Built I cs st)

include h

theorem live {i : ℕ} (hi : i < cs.length) : st.Live (i + 1) :=
  ⟨hi.trans_le h.count, (h.keeps i hi).type ▸ h.types _ (List.getElem_mem hi)⟩

theorem sound {i : ℕ} (hi : i < cs.length) : Sound st (i + 1) (st.dinode (i + 1)) :=
  ⟨(h.live hi).agrees.consistent.mpr h.consistent, h.fresh⟩

theorem size_dinode {i : ℕ} (hi : i < cs.length) :
    (st.dinode (i + 1)).size = cs[i].2.length := by
  have hsize := (h.keeps i hi).size
  rwa [dinode_disk (h.live hi).1] at hsize

/-- Bytes are appended to a file. -/
theorem iappend {i : ℕ} (hi : i < cs.length) (xp : Mem) (len : ℕ)
    (hI : Covers I (i + 1) cs[i].2.length len)
    (hmax : cs[i].2.length + len ≤ MAXFILE * BSIZE) : ∃ st', st.iappend (i + 1) xp len = some st' ∧
      Built I (cs.set i (cs[i].1, cs[i].2 ++ xp.slice 0 len)) st' := by
  have hlive := h.live hi
  have hsize := h.size_dinode hi
  rw [← hsize] at hI hmax
  obtain ⟨st', hrun, hw, hfresh, ⟨a, ha⟩, hspares⟩ := iappend_wrote xp len hlive.1 (h.sound hi)
    ((hlive.agrees.blocksFor I).trans_le h.fits) hI hmax
  have hip := opened_caches st (i + 1) (st.dinode (i + 1))
  have hlive' : st'.Live (i + 1) := by
    refine ⟨hlive.1, ?_⟩
    have htype := hlive.2
    rw [dinode_disk hlive.1] at htype ⊢
    rwa [ha]
  have hcontents (m : ℕ) (hm : m ≠ i + 1) :
      contents room ROOTDEV st'.booted m = contents room ROOTDEV st.booted m := by
    rw [← hlive.agrees.contents, ← hlive'.agrees.contents]
    exact hw.contents_ne room_laid hip hm
  have hpointer (q : ℕ × Place) (hq : pointer room ROOTDEV st.booted q ≠ 0 ∨ q.1 ≠ i + 1) :
      pointer room ROOTDEV st'.booted q = pointer room ROOTDEV st.booted q := by
    rw [← hlive.agrees.pointer] at hq ⊢
    rw [← hlive'.agrees.pointer]
    exact hw.pointer_eq room_laid hip hq
  have hdinode (m : ℕ) (hm : m ≠ i + 1) (hle : m ≤ NINODES) :
      Fs.dinode room st'.disk m = Fs.dinode room st.disk m := by
    have hsame := hw.dinode_ne hm (Nat.lt_succ_of_le hle)
    rwa [dev_opened, dev_opened] at hsame
  refine ⟨st', hrun, ?_, hfresh, ?_, fun b hb => (hspares.img b hb).trans (h.aside b hb), ?_,
    ?_, fun j hj => ?_, fun c hc => ?_, fun m hm hfree => ?_⟩
  · exact hlive'.agrees.consistent.mp (hw.consistent room_laid hip)
  · rw [← hlive'.agrees.blocksFor, hw.blocks room_laid hip hI, hlive.agrees.blocksFor]
    exact h.fits
  · rw [hspares.freeinode, h.freeinode, List.length_set]
  · rw [List.length_set]
    exact h.count
  · rw [List.length_set] at hj
    by_cases hji : j = i
    · subst hji
      rw [List.getElem_set_self]
      exact (h.keeps j hi).append hlive hlive' hw ha
    · rw [List.getElem_set_ne (Ne.symm hji)]
      have hne : j + 1 ≠ i + 1 := fun he => hji (Nat.succ.inj he)
      exact (h.keeps j hj).congr (hdinode _ hne (h.live hj).1) (hcontents _ hne) fun p =>
        hpointer _ (Or.inr hne)
  · rcases List.mem_or_eq_of_mem_set hc with hc | rfl
    · exact h.types c hc
    · exact h.types cs[i] (List.getElem_mem hi)
  · rw [List.length_set] at hfree
    rw [hdinode m (by omega) hm]
    exact h.free m hm hfree

/-- An empty file is made. -/
theorem ialloc (type : ℕ) (hroom : cs.length < NINODES) (hne : type ≠ 0)
    (htype : type < 256 ^ 2) : ∃ st', st.ialloc type = some (st', cs.length + 1) ∧
      Built I (cs ++ [(type, [])]) st' := by
  have hfree := h.free (cs.length + 1) hroom (Or.inr (Nat.lt_succ_self _))
  have hag : St.Agrees { st with freeinode := st.freeinode + 1 } (cs.length + 1)
      { Dinode.zero with type := type, nlink := 1, size := 0 } := by
    refine ⟨hroom, ?_⟩
    have hpresent : present room ROOTDEV st.booted (cs.length + 1) = Inode.init := by
      rw [present_booted, if_neg fun hp => hp.2 hfree]
    exact congrArg Inode.addrs hpresent
  have hpos (k : ℕ) : 0 < 256 ^ k := Nat.pow_pos (by decide)
  have hone : 1 < 256 ^ 2 := by decide
  have hfresh : St.Fresh { st with freeinode := st.freeinode + 1 } := ⟨h.fresh.le, h.fresh.empty⟩
  obtain ⟨st', hs⟩ := winode_resaves (by exact h.consistent) hfresh hag
    ⟨htype, hpos 2, hpos 2, hone, hpos 4, fun _ => hpos 4⟩ hne
  have hothers (m : ℕ) (hle : m ≤ NINODES) (hm : m ≠ cs.length + 1) :
      Fs.dinode room st'.disk m = Fs.dinode room st.disk m := hs.others m hle hm
  refine ⟨st', ?_, hs.consistent, hs.fresh, (hs.blocksFor I).trans_le h.fits,
    fun b hb => (hs.spares.img b hb).trans (h.aside b hb), ?_, ?_, fun i hi => ?_, ?_,
    fun m hm hfree => ?_⟩
  · unfold St.ialloc
    have hrun := hs.run
    rw [h.freeinode] at hrun ⊢
    dsimp only
    rw [hrun]
    rfl
  · rw [hs.spares.freeinode, List.length_append]
    exact congrArg (· + 1) h.freeinode
  · rw [List.length_append]
    exact hroom
  · rw [List.length_append] at hi
    by_cases hin : i < cs.length
    · rw [List.getElem_append_left hin]
      exact (h.keeps i hin).congr (hothers _ (h.live hin).1 (by omega)) (hs.contents _) fun p =>
        hs.pointer _
    · obtain rfl : i = cs.length := by
        have hone : i < cs.length + 1 := hi
        omega
      rw [List.getElem_append_right le_rfl]
      simp only [Nat.sub_self, List.getElem_cons_zero]
      have hnew := hs.inode
      refine ⟨?_, ?_, ?_, fun i hi => absurd hi (Nat.not_lt_zero i), fun x hx =>
        absurd hx (Nat.not_lt_zero x)⟩
      · rw [hnew]
      · rw [hnew]
      · rw [hnew]
        rfl
  · intro c hc
    rcases List.mem_append.mp hc with hc | hc
    · exact h.types c hc
    · rw [List.mem_singleton.mp hc]
      exact hne
  · rw [List.length_append] at hfree
    have hm' : m = 0 ∨ cs.length + 1 < m := hfree
    rw [hothers m hm (by omega)]
    exact h.free m hm (by omega)

end Built

end St

/-! ### What fits -/

/-- How many blocks hold so many bytes. -/
def blocksIn (len : ℕ) : ℕ := (len + BSIZE - 1) / BSIZE

/-- How many blocks a file takes, its indirect block among them. -/
def blocksOf (len : ℕ) : ℕ := blocksIn len + if NDIRECT < blocksIn len then 1 else 0

/-- Where a file refers to its blocks. -/
def places (n len : ℕ) : Finset (ℕ × Place) :=
  ((Finset.range (blocksIn len)).biUnion fun bn => (place bn).needs).image (Prod.mk n)

theorem div_lt_blocksIn {x len : ℕ} (h : x < len) : x / BSIZE < blocksIn len := by
  have hpos : 0 < BSIZE := by decide
  have hback := Nat.lt_mul_div_succ (len + BSIZE - 1) hpos
  rw [Nat.mul_add, Nat.mul_one] at hback
  rw [Nat.div_lt_iff_lt_mul hpos, Nat.mul_comm]
  unfold blocksIn
  omega

theorem covers_places {I : Finset (ℕ × Place)} {n len off k : ℕ} (h : places n len ⊆ I)
    (hle : off + k ≤ len) : Covers I n off k := by
  intro x _ hx q hq
  have hbn := Finset.mem_range.mpr (div_lt_blocksIn (show x < len by omega))
  exact h (Finset.mem_image_of_mem _ (Finset.mem_biUnion.mpr ⟨_, hbn, hq⟩))

theorem card_places (n len : ℕ) : (places n len).card ≤ blocksOf len := by
  have hsub : ((Finset.range (blocksIn len)).biUnion fun bn => (place bn).needs) ⊆
      (Finset.range (blocksIn len)).image place ∪
        if NDIRECT < blocksIn len then {.addr (Fin.last NDIRECT)} else ∅ := by
    intro q hq
    obtain ⟨bn, hbn, hq⟩ := Finset.mem_biUnion.mp hq
    rw [Finset.mem_range] at hbn
    by_cases he : q = place bn
    · rw [he]
      exact Finset.mem_union_left _ (Finset.mem_image_of_mem _ (Finset.mem_range.mpr hbn))
    · apply Finset.mem_union_right
      unfold place at hq he
      split_ifs at hq he with hdir
      · exact absurd (Finset.mem_singleton.mp hq) he
      · rw [if_pos (by omega)]
        rcases Finset.mem_insert.mp hq with hlast | hentry
        · exact Finset.mem_singleton.mpr hlast
        · exact absurd (Finset.mem_singleton.mp hentry) he
  refine (Finset.card_image_le.trans (Finset.card_le_card hsub)).trans ?_
  refine (Finset.card_union_le _ _).trans (Nat.add_le_add ?_ ?_)
  · exact Finset.card_image_le.trans (Finset.card_range _).le
  · split_ifs
    · rfl
    · rfl

/-- Where the files from the inode `n` on refer to their blocks. -/
def placesFrom : ℕ → List ℕ → Finset (ℕ × Place)
  | _, [] => ∅
  | n, len :: lens => places n len ∪ placesFrom (n + 1) lens

theorem places_subset {n i : ℕ} {lens : List ℕ} (hi : i < lens.length) :
    places (n + i) lens[i] ⊆ placesFrom n lens := by
  induction lens generalizing n i with
  | nil => exact absurd hi (Nat.not_lt_zero i)
  | cons len lens ih =>
    unfold placesFrom
    cases i with
    | zero => exact Finset.subset_union_left
    | succ i =>
      have hsub := ih (n := n + 1) (Nat.lt_of_succ_lt_succ hi)
      rw [Nat.add_right_comm] at hsub
      exact hsub.trans Finset.subset_union_right

theorem card_placesFrom (n : ℕ) (lens : List ℕ) :
    (placesFrom n lens).card ≤ (lens.map blocksOf).sum := by
  induction lens generalizing n with
  | nil => exact le_rfl
  | cons len lens ih =>
    rw [List.map_cons, List.sum_cons]
    exact (Finset.card_union_le _ _).trans (Nat.add_le_add (card_places n len) (ih (n + 1)))

theorem le_maxfile_of_blocksOf {len : ℕ} (h : blocksOf len ≤ FSSIZE) : len ≤ MAXFILE * BSIZE := by
  have hback := Nat.lt_mul_div_succ (len + BSIZE - 1) (by decide : 0 < BSIZE)
  have hin : blocksIn len ≤ FSSIZE := (Nat.le_add_right _ _).trans h
  have hmul := Nat.mul_le_mul_left BSIZE hin
  have hmax : BSIZE * FSSIZE + BSIZE ≤ MAXFILE * BSIZE := by decide
  rw [Nat.mul_add, Nat.mul_one] at hback
  unfold blocksIn at hmul
  omega

/-! ### From the start to the end -/

namespace St

theorem start_img {b : ℕ} (hb : b ≠ 1) : start.img b = fun _ => 0 := by
  unfold start
  rw [wsect_img, Function.update_of_ne hb]

theorem start_type {n : ℕ} (hn : n ≤ NINODES) : (Fs.dinode room start.disk n).type = 0 := by
  have hne : IBLOCK n ≠ 1 := (Nat.lt_of_lt_of_le (by decide) (Nat.le_add_left _ _)).ne'
  rw [dinode_disk hn]
  unfold St.dinode
  rw [start_img hne]
  rfl

theorem start_pointer (q : ℕ × Place) : pointer room ROOTDEV start.booted q = 0 := by
  have hinit : present room ROOTDEV start.booted q.1 = Inode.init := by
    rw [present_booted]
    exact if_neg fun h => h.2 (start_type (Nat.le_of_lt_succ h.1))
  unfold pointer
  rw [hinit]
  cases q.2 with
  | addr k => rfl
  | entry j => exact Inode.pointer_hole (Or.inl rfl)

theorem built_start {I : Finset (ℕ × Place)} (hI : nmeta + I.card ≤ FSSIZE) :
    Built I [] start where
  consistent := by
    refine ⟨⟨fun p _ hp => absurd (start_pointer p) hp, fun p hp => absurd (start_pointer p) hp⟩,
      fun b hb => ?_, fun n ip _ hip => absurd hip.1 (lt_irrefl 0),
      fun n ip hip => absurd hip.1 (lt_irrefl 0)⟩
    have hlt : b < nmeta := hb
    exact (marked_iff rfl (hlt.trans (by decide))).mpr hlt
  fresh := by
    refine ⟨show nmeta ≤ FSSIZE by decide, fun b hb => start_img ?_⟩
    have hlt : 1 < nmeta := by decide
    exact (hlt.trans_le hb).ne'
  fits := by
    have hsub : (Finset.range room.size).filter (Marked room ROOTDEV start.booted) ⊆
        Finset.range nmeta := by
      intro b hb
      obtain ⟨hlt, hmark⟩ := Finset.mem_filter.mp hb
      exact Finset.mem_range.mpr ((marked_iff rfl (Finset.mem_range.mp hlt)).mp hmark)
    have hcard := (Finset.card_le_card hsub).trans (Finset.card_range _).le
    exact (Nat.add_le_add hcard (Finset.card_filter_le _ _)).trans hI
  aside _ _ := rfl
  freeinode := rfl
  count := Nat.zero_le _
  keeps i hi := absurd hi (Nat.not_lt_zero i)
  types c hc := absurd hc List.not_mem_nil
  free n hn _ := start_type hn

/-- The rest of a file is appended, a buffer at a time. -/
theorem Built.appendData {I : Finset (ℕ × Place)} {cs : List (ℕ × List Byte)} {st : St}
    (h : Built I cs st) {i : ℕ} (hi : i < cs.length) (k : ℕ) (data : List Byte)
    (hk : data.length ≤ k) (hI : Covers I (i + 1) cs[i].2.length data.length)
    (hmax : cs[i].2.length + data.length ≤ MAXFILE * BSIZE) : ∃ st',
      appendData (i + 1) k st data = some st' ∧
      Built I (cs.set i (cs[i].1, cs[i].2 ++ data)) st' := by
  induction k generalizing st cs data with
  | zero =>
    obtain rfl := List.eq_nil_of_length_eq_zero (Nat.le_zero.mp hk)
    refine ⟨st, rfl, ?_⟩
    rw [List.append_nil, List.set_getElem_self]
    exact h
  | succ k ih =>
    unfold Mkfs.appendData
    split_ifs with hnil
    · subst hnil
      refine ⟨st, rfl, ?_⟩
      rw [List.append_nil, List.set_getElem_self]
      exact h
    · have hpos := List.length_pos_iff.mpr hnil
      have hone : 0 < BSIZE := by decide
      have htake : (data.take BSIZE).length + (data.drop BSIZE).length = data.length := by
        rw [← List.length_append, List.take_append_drop]
      have hdrop : (data.drop BSIZE).length = data.length - BSIZE := List.length_drop
      obtain ⟨st₁, hrun₁, h₁⟩ := h.iappend hi (bytes (data.take BSIZE)) (data.take BSIZE).length
        (hI.mono le_rfl (by omega)) (by omega)
      have hslice : (bytes (data.take BSIZE)).slice 0 (data.take BSIZE).length = data.take BSIZE :=
        Mem.slice_getD 0 _
      rw [hslice] at h₁
      have hi₁ : i < (cs.set i (cs[i].1, cs[i].2 ++ data.take BSIZE)).length := by
        rwa [List.length_set]
      obtain ⟨st', hrun, h'⟩ := ih h₁ hi₁ (data.drop BSIZE) (by omega) (by
        rw [List.getElem_set_self, List.length_append]
        exact hI.mono (by omega) (by omega)) (by
        rw [List.getElem_set_self, List.length_append]
        omega)
      rw [List.getElem_set_self, List.set_set, List.append_assoc, List.take_append_drop] at h'
      refine ⟨st', ?_, h'⟩
      rw [hrun₁, Option.bind_eq_bind, Option.bind_some]
      exact hrun

end St

def entryBytes (inum : ℕ) (name : List Byte) : List Byte := (dirent inum name).slice 0 direntSize

/-- The bytes of the root: its entries for itself, and those for the files. -/
def rootData (files : List File) : List Byte :=
  entryBytes ROOTINO [46] ++ entryBytes ROOTINO [46, 46] ++
    (files.mapIdx fun i f => entryBytes (i + 2) f.name).flatten

/-- What the inodes of the image are for. -/
def inodes (files : List File) : List (ℕ × List Byte) :=
  (T_DIR, rootData files) :: files.map fun f => (T_FILE, f.data)

/-- The sizes of the root and of the files. -/
def sizes (files : List File) : List ℕ :=
  direntSize * (files.length + 2) :: files.map fun f => f.data.length

/-- There are inodes and blocks for all files. -/
def Room (files : List File) : Prop :=
  files.length < NINODES ∧ nmeta + ((sizes files).map blocksOf).sum ≤ FSSIZE

@[simp] theorem length_entryBytes (inum : ℕ) (name : List Byte) :
    (entryBytes inum name).length = direntSize := Mem.length_slice _ _ _

theorem rootData_append (files : List File) (f : File) :
    rootData (files ++ [f]) = rootData files ++ entryBytes (files.length + 2) f.name := by
  unfold rootData
  rw [List.mapIdx_concat, List.flatten_append, List.flatten_singleton, List.append_assoc,
    List.append_assoc, List.append_assoc]

theorem length_rootData (files : List File) :
    (rootData files).length = direntSize * (files.length + 2) := by
  induction files using List.reverseRecOn with
  | nil => rfl
  | append_singleton files f ih =>
    rw [rootData_append, List.length_append, ih, length_entryBytes, List.length_append,
      List.length_singleton, ← Nat.mul_succ]

theorem length_inodes (files : List File) : (inodes files).length = files.length + 1 := by
  unfold inodes
  rw [List.length_cons, List.length_map]

theorem length_sizes (files : List File) : (sizes files).length = files.length + 1 := by
  unfold sizes
  rw [List.length_cons, List.length_map]

namespace Room

variable {files : List File} (h : Room files)

include h

theorem blocksOf_le {i : ℕ} (hi : i < (sizes files).length) :
    (sizes files)[i] ≤ MAXFILE * BSIZE := by
  apply le_maxfile_of_blocksOf
  have hmem : blocksOf (sizes files)[i] ∈ (sizes files).map blocksOf :=
    List.mem_map_of_mem (List.getElem_mem hi)
  exact ((List.le_sum_of_mem hmem).trans (Nat.le_add_left _ _)).trans h.2

theorem start : St.Built (placesFrom 1 (sizes files)) [] St.start :=
  St.built_start ((Nat.add_le_add_left (card_placesFrom 1 _) _).trans h.2)

end Room

theorem covers_sizes {files : List File} {i off k : ℕ} (hi : i < (sizes files).length)
    (hle : off + k ≤ (sizes files)[i]) : Covers (placesFrom 1 (sizes files)) (i + 1) off k := by
  have hsub := places_subset (n := 1) hi
  rw [Nat.add_comm] at hsub
  exact covers_places hsub hle

theorem inodes_append (files : List File) (f : File) : inodes (files ++ [f]) =
    ((inodes files ++ [(T_FILE, [])]).set 0
      (T_DIR, rootData files ++ entryBytes (files.length + 2) f.name)).set (files.length + 1)
      (T_FILE, f.data) := by
  unfold inodes
  have hlast : (files.map (fun f => (T_FILE, f.data)) ++ [(T_FILE, ([] : List Byte))]).set
      files.length (T_FILE, f.data) = (files ++ [f]).map fun f => (T_FILE, f.data) := by
    rw [List.set_append_right _ _ (List.length_map _).le, List.length_map, Nat.sub_self,
      List.map_append]
    rfl
  rw [rootData_append, List.cons_append, List.set_cons_zero, List.set_cons_succ, hlast]

/-- A file is added. -/
theorem built_addFile {files done rest : List File} {f : File} {st : St} (hroom : Room files)
    (hall : files = done ++ f :: rest)
    (h : St.Built (placesFrom 1 (sizes files)) (inodes done) st) (hslash : slash ∉ f.shortname) :
    ∃ st', addFile ROOTINO st f = some st' ∧
      St.Built (placesFrom 1 (sizes files)) (inodes (done ++ [f])) st' := by
  have hlen : files.length = done.length + (rest.length + 1) := by
    rw [hall, List.length_append, List.length_cons]
  have hcount := hroom.1
  obtain ⟨st₁, hrun₁, h₁⟩ := h.ialloc T_FILE (by
    rw [length_inodes]
    omega) (by decide) (by decide)
  have hroot : 0 < (inodes done ++ [(T_FILE, [])]).length := Nat.succ_pos _
  have hsizes := length_sizes files
  have hbound : (rootData done).length + direntSize ≤ (sizes files)[0] := by
    rw [length_rootData, ← Nat.mul_succ]
    exact Nat.mul_le_mul_left _ (by omega)
  obtain ⟨st₂, hrun₂, h₂⟩ := h₁.iappend hroot (dirent (done.length + 2) f.name) direntSize
    (covers_sizes (by omega) hbound) (hbound.trans (hroom.blocksOf_le (by omega)))
  have h₂' : St.Built (placesFrom 1 (sizes files)) ((inodes done ++ [(T_FILE, [])]).set 0
      (T_DIR, rootData done ++ entryBytes (done.length + 2) f.name)) st₂ := h₂
  have hlast : done.length + 1 < ((inodes done ++ [(T_FILE, [])]).set 0
      (T_DIR, rootData done ++ entryBytes (done.length + 2) f.name)).length := by
    rw [List.length_set, List.length_append, length_inodes]
    exact Nat.lt_succ_self _
  have hempty : ((inodes done ++ [(T_FILE, [])]).set 0
      (T_DIR, rootData done ++ entryBytes (done.length + 2) f.name))[done.length + 1] =
      (T_FILE, []) := by
    rw [List.getElem_set_ne (Nat.succ_ne_zero _).symm,
      List.getElem_append_right (length_inodes done).le]
    simp [length_inodes]
  have hsize : (sizes files)[done.length + 1] = f.data.length := by
    simp [sizes, hall]
  have hmax : f.data.length ≤ MAXFILE * BSIZE := hsize ▸ hroom.blocksOf_le (by omega)
  have hcovers : Covers (placesFrom 1 (sizes files)) (done.length + 1 + 1) 0 f.data.length :=
    covers_sizes (by omega) (by rw [hsize, Nat.zero_add])
  rw [inodes_append]
  generalize (inodes done ++ [(T_FILE, [])]).set 0
    (T_DIR, rootData done ++ entryBytes (done.length + 2) f.name) = cs at h₂' hlast hempty ⊢
  obtain ⟨st', hrun, h'⟩ := h₂'.appendData hlast f.data.length f.data le_rfl
    (by rwa [hempty]) (by rwa [hempty, List.length_nil, Nat.zero_add])
  rw [hempty, List.nil_append] at h'
  refine ⟨st', ?_, h'⟩
  rw [length_inodes] at hrun₁
  unfold addFile
  rw [if_neg hslash, hrun₁, Option.bind_eq_bind, Option.bind_some]
  dsimp only
  exact (congrArg (Option.bind · _) hrun₂).trans hrun

theorem built_files {files : List File} (hroom : Room files) (rest done : List File) {st : St}
    (hall : files = done ++ rest)
    (h : St.Built (placesFrom 1 (sizes files)) (inodes done) st)
    (hslash : ∀ f ∈ rest, slash ∉ f.shortname) : ∃ st',
      rest.foldlM (addFile ROOTINO) st = some st' ∧
      St.Built (placesFrom 1 (sizes files)) (inodes files) st' := by
  induction rest generalizing done st with
  | nil =>
    rw [List.append_nil] at hall
    exact ⟨st, rfl, hall ▸ h⟩
  | cons f rest ih =>
    obtain ⟨st₁, hrun₁, h₁⟩ := built_addFile hroom hall h (hslash f List.mem_cons_self)
    obtain ⟨st', hrun, h'⟩ := ih (done ++ [f]) (by rw [hall, List.append_assoc]; rfl) h₁
      fun g hg => hslash g (List.mem_cons_of_mem f hg)
    refine ⟨st', ?_, h'⟩
    rw [List.foldlM_cons, hrun₁]
    exact hrun

theorem bitmap_outside {n x : ℕ} (h : n ≤ 8 * x) : bitmap n x = 0 := by
  induction n with
  | zero => rfl
  | succ n ih =>
    rw [bitmap_succ]
    unfold setBit
    rw [Function.update_of_ne (by omega), ih (by omega)]

/-- The image, once it is complete. The size of the root is rounded up, beyond its entries. -/
structure Made (files : List File) (st : St) : Prop where
  consistent : Consistent room ROOTDEV st.booted
  aside : ∀ b, b < inodestart → st.disk b = St.start.img b
  type : (Fs.dinode room st.disk ROOTINO).type = T_DIR
  nlink : (Fs.dinode room st.disk ROOTINO).nlink = 1
  size : (Fs.dinode room st.disk ROOTINO).size = ((rootData files).length / BSIZE + 1) * BSIZE
  bytes : ∀ i (h : i < (rootData files).length),
    contents room ROOTDEV st.booted ROOTINO i = (rootData files)[i]
  mapped : ∀ x < (rootData files).length,
    pointer room ROOTDEV st.booted (ROOTINO, place (x / BSIZE)) ≠ 0
  keeps : ∀ i (h : i < files.length), St.Keeps st (i + 2) T_FILE files[i].data
  free : ∀ n ≤ NINODES, n = 0 ∨ files.length + 1 < n → (Fs.dinode room st.disk n).type = 0

/-- The root, with its entries for itself. -/
theorem built_root {files : List File} (hroom : Room files) : ∃ st₁ st₂ st₃,
    St.start.ialloc T_DIR = some (st₁, ROOTINO) ∧
    st₁.iappend ROOTINO (dirent ROOTINO [46]) direntSize = some st₂ ∧
    st₂.iappend ROOTINO (dirent ROOTINO [46, 46]) direntSize = some st₃ ∧
    St.Built (placesFrom 1 (sizes files)) (inodes []) st₃ := by
  have hsizes := length_sizes files
  have hbound : direntSize + direntSize ≤ (sizes files)[0] := by
    have hle : direntSize * 2 ≤ direntSize * (files.length + 2) :=
      Nat.mul_le_mul_left _ (Nat.le_add_left _ _)
    exact hle
  have hmax := hroom.blocksOf_le (i := 0) (by omega)
  obtain ⟨st₁, hrun₁, h₁⟩ := hroom.start.ialloc T_DIR (Nat.zero_lt_succ _) (by decide)
    (by decide)
  obtain ⟨st₂, hrun₂, h₂⟩ := h₁.iappend (i := 0) (Nat.zero_lt_succ _) (dirent ROOTINO [46])
    direntSize (covers_sizes (by omega) ((Nat.le_add_left _ _).trans hbound))
    (((Nat.le_add_left _ _).trans hbound).trans hmax)
  have h₂' : St.Built (placesFrom 1 (sizes files)) [(T_DIR, entryBytes ROOTINO [46])] st₂ := h₂
  obtain ⟨st₃, hrun₃, h₃⟩ := h₂'.iappend (i := 0) (Nat.zero_lt_succ _) (dirent ROOTINO [46, 46])
    direntSize (covers_sizes (by omega) hbound) (hbound.trans hmax)
  exact ⟨st₁, st₂, st₃, hrun₁, hrun₂, hrun₃, h₃⟩

/-- With names without slashes, and with inodes and blocks for all files, `mkfs` succeeds. -/
theorem main_made {files : List File} (hroom : Room files)
    (hslash : ∀ f ∈ files, slash ∉ f.shortname) :
    ∃ st, main files = some st.disk ∧ Made files st := by
  obtain ⟨st₁, st₂, st₃, hrun₁, hrun₂, hrun₃, h₃⟩ := built_root hroom
  obtain ⟨st₄, hrun₄, h⟩ := built_files hroom files [] rfl h₃ hslash
  have hroot : 0 < (inodes files).length := Nat.succ_pos _
  have hlive : st₄.Live ROOTINO := h.live hroot
  have hkeep : St.Keeps st₄ ROOTINO T_DIR (rootData files) := h.keeps 0 hroot
  have hsize : (st₄.dinode ROOTINO).size = (rootData files).length := h.size_dinode hroot
  have hold := Dinode.words_load (st₄.img (IBLOCK ROOTINO)) (Mkfs.dinodeOff ROOTINO)
  have hmax : (rootData files).length ≤ MAXFILE * BSIZE := by
    rw [length_rootData]
    exact hroom.blocksOf_le (i := 0) (Nat.succ_pos _)
  have hround : (rootData files).length / BSIZE * BSIZE ≤ (rootData files).length :=
    Nat.div_mul_le_self _ _
  have hnew : ((rootData files).length / BSIZE + 1) * BSIZE < 256 ^ 4 := by
    have hlimit : MAXFILE * BSIZE + BSIZE < 256 ^ 4 := by decide
    rw [Nat.succ_mul]
    omega
  have hwords : Dinode.Words { st₄.dinode ROOTINO with
      size := ((rootData files).length / BSIZE + 1) * BSIZE } :=
    ⟨hold.type, hold.major, hold.minor, hold.nlink, hnew, hold.addrs⟩
  have hag : st₄.Agrees ROOTINO { st₄.dinode ROOTINO with
      size := ((rootData files).length / BSIZE + 1) * BSIZE } := ⟨hlive.1, hlive.agrees.2⟩
  have htype : (st₄.dinode ROOTINO).type ≠ 0 := by
    have hne := hlive.2
    rwa [St.dinode_disk hlive.1] at hne
  obtain ⟨st, hs⟩ := St.winode_resaves h.consistent h.fresh hag hwords htype
  have hfb : st.freeblock ≤ FSSIZE := hs.fresh.le
  have hbitmap (x : ℕ) (hx : BSIZE ≤ x) : bitmap st.freeblock x = st.img bmapstart x := by
    have hlimit : FSSIZE ≤ 8 * BSIZE := by decide
    rw [hs.spares.img _ (Or.inr rfl), h.aside _ (Or.inr rfl), St.start_img (by decide)]
    exact bitmap_outside (by omega)
  refine ⟨st, ?_, ?_⟩
  · have hused : st.freeblock < BSIZE * 8 := hfb.trans_lt (by decide)
    have hdisk : (st.wsect bmapstart (bitmap st.freeblock)).img = st.disk := by
      rw [St.wsect_img, St.copy_whole hbitmap]
      rfl
    have hrun := hs.run
    unfold main
    change (St.start.ialloc T_DIR).bind _ = _
    rw [hrun₁, Option.bind_some]
    dsimp only
    simp only [Option.bind_eq_bind]
    rw [if_neg (not_not.mpr rfl), hrun₂, Option.bind_some, hrun₃, Option.bind_some, hrun₄,
      Option.bind_some, St.rinode_eq hlive.1, Option.bind_some, hsize, hrun, Option.bind_some]
    unfold St.balloc
    rw [if_pos hused, Option.bind_some, hdisk]
    rfl
  · have hinode := hs.inode
    have hothers (n : ℕ) (hn : n ≤ NINODES) (hne : n ≠ ROOTINO) :
        Fs.dinode room st.disk n = Fs.dinode room st₄.disk n := hs.others n hn hne
    refine ⟨hs.consistent, fun b hb => ?_, ?_, ?_, ?_, fun i hi => ?_, fun x hx => ?_,
      fun i hi => ?_, fun n hn hfree => ?_⟩
    · have hne : b ≠ bmapstart := (hb.trans (by decide)).ne
      rw [St.disk_ne st hne, hs.spares.img b (Or.inl hb), h.aside b (Or.inl hb)]
    · rw [hinode, ← hkeep.type, St.dinode_disk hlive.1]
    · rw [hinode, ← hkeep.nlink, St.dinode_disk hlive.1]
    · rw [hinode]
    · rw [hs.contents]
      exact hkeep.bytes i hi
    · rw [hs.pointer]
      exact hkeep.mapped x hx
    · have hin : i + 1 < (inodes files).length := by
        rw [length_inodes]
        exact Nat.succ_lt_succ hi
      have hfile : (inodes files)[i + 1] = (T_FILE, files[i].data) := by
        simp [inodes]
      have hold := h.keeps (i + 1) hin
      rw [hfile] at hold
      exact hold.congr (hothers _ (h.live hin).1 (Nat.succ_ne_succ_iff.mpr (Nat.succ_ne_zero i)))
        (hs.contents _) fun p => hs.pointer _
    · have hne : n ≠ ROOTINO := by
        have hone : ROOTINO = 1 := rfl
        omega
      rw [hothers n hn hne]
      exact h.free n hn (by rwa [length_inodes])

end Multiplix.Tools.Mkfs
