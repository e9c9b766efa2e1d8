import Multiplix.Fs.Directory
import Multiplix.Fs.FileLaw
import Multiplix.Fs.Refs
import Mathlib.Tactic.Ring

/-! `Inode.link` does not copy the name to the new entry, and gives up the directory, not the inode
that it found, where the name exists. -/
namespace Multiplix.Fs
open Lib

variable {sb : Superblock} {d : ℕ} {s s' s'' : State Store} {E : Panic → Prop} {n : ℕ} {dp : Slot}

/-! ### Reading a directory -/

theorem mul_div_block (bn : ℕ) : bn * BSIZE / BSIZE = bn := Nat.mul_div_cancel _ (by decide)

/-- Where all blocks are there, nothing changes. -/
theorem reader_whole (hdev : (s.1.inodes dp).dev = d)
    (hw : (s.1.inodes dp).Whole (s.2.dev d)) :
    Reader sb E d dp (s.1.inodes dp).size ((s.1.inodes dp).contents (s.2.dev d)) False
      fun t => t = s where
  inode := by
    rintro t rfl
    exact ⟨hdev, rfl⟩
  bmap := by
    rintro t rfl bn hbn
    have hne := hw.2 (bn * BSIZE) (Nat.zero_le _) (by omega)
    have hmax := hw.1
    rw [mul_div_block, ← hdev] at hne
    apply (bmap_mapped (by
      rw [← mul_div_block bn]
      exact div_lt_maxfile (by omega)) hne).mono
    rintro a t' ⟨rfl, rfl⟩
    refine ⟨rfl, hne, fun _ y hy => ?_⟩
    rw [← hdev, Inode.contents_add]
    · rw [mul_div_block, Nat.mul_mod_left, Nat.zero_add]
      rfl
    · rwa [mul_div_block]
    · rwa [Nat.mul_mod_left, Nat.zero_add]

/-- In general, a block may be allocated. -/
theorem reader_grows (hl : sb.Laid) (hip : s.1.Caches d n dp) :
    Reader sb (fun _ => True) d dp (s.1.inodes dp).size (contents sb d s n) True fun t =>
      Grows sb d n dp s t ∧ ∀ m, contents sb d t m = contents sb d s m where
  inode := by
    rintro t ⟨hg, -⟩
    obtain ⟨a, ha⟩ := hg.inodes_self
    rw [ha]
    exact ⟨hip.1.2.1, rfl⟩
  bmap := by
    rintro t ⟨hg, hsame⟩ bn _
    have hip' := (hg.caches d n dp).mpr hip
    by_cases hbn : bn < MAXFILE
    · apply (bmap_does hl hg.consistent hip' hbn).mono
      intro a t' h
      refine ⟨⟨hg.trans h.grows, fun m => (h.contents m).trans (hsame m)⟩, fun _ => trivial, ?_⟩
      intro ha y hy
      obtain ⟨-, hptr⟩ := h.block.resolve_left fun hz => ha hz.1
      have hc' := h.grows.consistent
      have hp' := (h.grows.caches d n dp).mpr hip'
      rw [hc'.pointer_eq hp'] at hptr
      have hcontents : contents sb d s n = (t'.1.inodes dp).contents (t'.2.dev d) := by
        rw [← hsame, ← h.contents, contents, hc'.present_eq hp']
      rw [hcontents, Inode.contents_add]
      · rw [mul_div_block, hptr, Nat.mul_mod_left, Nat.zero_add]
        rfl
      · rwa [mul_div_block, hptr]
      · rwa [Nat.mul_mod_left, Nat.zero_add]
    · have hfail : dp.bmap sb bn = Prog.fail .outOfRange := by
        have hmax : MAXFILE = NDIRECT + NINDIRECT := rfl
        unfold Slot.bmap
        rw [dif_neg (by omega), if_neg (by omega)]
      rw [hfail, does_fail]
      trivial

/-! ### The name of a new entry -/

/-- `lookup` finds this inode number, or nothing. -/
def LooksUp (sb : Superblock) (d : ℕ) (s : State Store) (dp : Slot) (name : Mem)
    (o : Option ℕ) : Prop :=
  exec coherent (dp.lookup sb name) s = exec coherent (found d o) s

/-- An inode that is found is not null. -/
theorem LooksUp.not_none {name : Mem} {inum : ℕ} (h : LooksUp sb d s dp name (some inum)) :
    ¬LooksUp sb d s dp name none := by
  intro hnone
  have hfound : Does (fun _ => True) (found d (some inum)) s fun r _ => r ≠ none := by
    unfold found
    rw [does_bind]
    exact Prog.Wp.intro (fun _ => trivial) fun t ip _ => Option.some_ne_none ip
  exact absurd rfl (hfound.of_exec (h.symm.trans hnone))

theorem exec_eq_of_does {α : Type} {p q : FsM α}
    (h : ∀ (E : Panic → Prop) (Q : α → State Store → Prop), Does E q s Q → Does E p s Q) :
    exec coherent p s = exec coherent q s := by
  unfold exec
  cases hq : q.exec (known.extend coherent) s with
  | error x =>
    have hp := h (fun y => y = x) (fun _ _ => False) (by
      unfold Does Prog.Wp
      rw [hq])
    unfold Does Prog.Wp at hp
    cases hpe : p.exec (known.extend coherent) s with
    | error y =>
      rw [hpe] at hp
      rw [hp]
    | ok y =>
      rw [hpe] at hp
      exact absurd hp not_false
  | ok y =>
    have hp := h (fun _ => False) (fun a t => (t, a) = y) (by
      unfold Does Prog.Wp
      rw [hq])
    unfold Does Prog.Wp at hp
    cases hpe : p.exec (known.extend coherent) s with
    | error z =>
      rw [hpe] at hp
      exact absurd hp not_false
    | ok z =>
      rw [hpe] at hp
      rw [← hp]

/-- A directory all of whose blocks are there. -/
structure Dir (s : State Store) (d : ℕ) (dp : Slot) : Prop where
  dev : (s.1.inodes dp).dev = d
  type : (s.1.inodes dp).type = T_DIR
  whole : (s.1.inodes dp).Whole (s.2.dev d)
  size : (s.1.inodes dp).size % Dirent.size = 0

/-- The entries of a directory. -/
def dirEntries (s : State Store) (d : ℕ) (dp : Slot) : List Entry :=
  entries ((s.1.inodes dp).contents (s.2.dev d)) (s.1.inodes dp).size

namespace Dir

variable (h : Dir s d dp)

include h

theorem not_bad : ¬(False ∨ (s.1.inodes dp).size % Dirent.size ≠ 0 ∨
    2 ^ 32 ≤ (s.1.inodes dp).size) := by
  have hmax : MAXFILE * BSIZE < 2 ^ 32 := by decide
  have hle := h.whole.1
  rintro (hf | hs | hb)
  · exact hf
  · exact hs h.size
  · omega

theorem looksUp (sb : Superblock) (name : Mem) :
    LooksUp sb d s dp name (inumOf (dirEntries s d dp) (nameOf name)) := by
  apply exec_eq_of_does
  intro E Q hQ
  apply (reader_whole h.dev h.whole).lookup_does (fun hb => absurd hb h.not_bad) rfl h.type
  rintro t rfl
  exact hQ

theorem looksUp_none {name : Mem} : LooksUp sb d s dp name none ↔
    inumOf (dirEntries s d dp) (nameOf name) = none := by
  have hlook := h.looksUp sb name
  constructor
  · intro hnone
    cases ho : inumOf (dirEntries s d dp) (nameOf name) with
    | none => rfl
    | some inum =>
      rw [ho] at hlook
      exact absurd hnone hlook.not_none
  · intro hnone
    rwa [hnone] at hlook

end Dir

/-- The new entry is written. -/
def newEntry (s : State Store) (d : ℕ) (dp : Slot) (inum : ℕ) : Mem :=
  (freeEntry ((s.1.inodes dp).contents (s.2.dev d)) (s.1.inodes dp).size).1.store 2 0 inum

/-- Where the new entry is written. -/
def newOff (s : State Store) (d : ℕ) (dp : Slot) : ℕ :=
  (freeEntry ((s.1.inodes dp).contents (s.2.dev d)) (s.1.inodes dp).size).2

theorem newOff_le : newOff s d dp ≤ (s.1.inodes dp).size := by
  obtain ⟨k, hk, hoff, -⟩ := scan_spec ((s.1.inodes dp).contents (s.2.dev d))
    ((s.1.inodes dp).size / Dirent.size) Dirent.init 0
  have hmul := Nat.mul_le_mul_left Dirent.size hk
  have hle := Nat.mul_div_le (s.1.inodes dp).size Dirent.size
  unfold newOff freeEntry
  omega

theorem Dir.link_does {name : Mem} {inum : ℕ} (h : Dir s d dp) (hl : sb.Laid)
    (hc : Consistent sb d s) (hip : s.1.Caches d n dp) (habsent : LooksUp sb d s dp name none) :
    Does E (dp.link sb name inum) s fun r t => r = 0 →
      newOff s d dp + Dirent.size ≤ MAXFILE * BSIZE ∧
      Wrote sb d n dp (newEntry s d dp inum) (newOff s d dp) Dirent.size s Dirent.size t := by
  have hmax : MAXFILE * BSIZE < 2 ^ 32 := by decide
  have hsize := h.whole.1
  have hoff : newOff s d dp ≤ (s.1.inodes dp).size := newOff_le
  have R : Reader sb E d dp (s.1.inodes dp).size ((s.1.inodes dp).contents (s.2.dev d)) False
      fun t => t = s := reader_whole h.dev h.whole
  rw [h.looksUp_none] at habsent
  unfold Slot.link
  rw [does_bind]
  apply R.lookup_does (fun hb => absurd hb h.not_bad) rfl h.type
  rintro t rfl
  unfold dirEntries at habsent
  rw [habsent]
  unfold found
  rw [does_pure, does_bind, does_inode, does_bind]
  apply (R.linkLoop_does (fun hb => absurd hb h.not_bad) _ Dirent.init rfl rfl
    (Nat.lt_succ_self _)).mono
  rintro ⟨de, off⟩ t' ⟨rfl, hscan⟩
  have hentry : newEntry t' d dp inum = de.store 2 0 inum :=
    congrArg (fun x : Mem × ℕ => x.1.store 2 0 inum) hscan.symm
  have hstop : newOff t' d dp = off := congrArg Prod.snd hscan.symm
  have hlen : Dirent.size = 16 := rfl
  rw [does_bind]
  by_cases hbig : MAXFILE * BSIZE < off + Dirent.size
  · rw [does_of_exec (write_refused _ (by decide) (Or.inr (Or.inr hbig)))]
    rw [if_neg (by decide), does_pure]
    intro hr
    exact absurd hr (by decide)
  · apply (write_does (.kernel (de.store 2 0 inum)) hl hc hip (by omega) (by omega)
      (Nat.not_lt.mp hbig)).mono
    rintro r t₁ ⟨tot, rfl, hwrote⟩
    split_ifs with htot
    · rw [does_pure, hentry, hstop]
      intro _
      rw [Nat.cast_inj] at htot
      rw [htot] at hwrote
      exact ⟨Nat.not_lt.mp hbig, hwrote⟩
    · rw [does_pure]
      intro hr
      exact absurd hr (by decide)

theorem Dir.of_wrote {inum : ℕ} (h : Dir s d dp) (hl : sb.Laid) (hc : Consistent sb d s)
    (hip : s.1.Caches d n dp)
    (hw : Wrote sb d n dp (newEntry s d dp inum) (newOff s d dp) Dirent.size s Dirent.size s') :
    Dir s' d dp ∧ dirEntries s' d dp = entries
      (((s.1.inodes dp).contents (s.2.dev d)).copy (newOff s d dp) (newEntry s d dp inum) 0
        Dirent.size) (max (s.1.inodes dp).size (newOff s d dp + Dirent.size)) := by
  obtain ⟨a, ha⟩ := hw.inodes_self
  have hip' : s'.1.Caches d n dp := by
    unfold Core.Caches Core.Holds
    rw [ha]
    exact hip
  have hcontents := hw.contents_self hl hip
  unfold contents at hcontents
  rw [(hw.consistent hl hip).present_eq hip', hc.present_eq hip] at hcontents
  constructor
  · refine ⟨hip'.1.2.1, ?_, (hw.puts hl hip).whole hip hc h.whole newOff_le, ?_⟩
    · rw [ha]
      exact h.type
    · obtain ⟨k, -, hoff, -⟩ := scan_spec ((s.1.inodes dp).contents (s.2.dev d))
        ((s.1.inodes dp).size / Dirent.size) Dirent.init 0
      have hoff' : newOff s d dp = Dirent.size * k := hoff.trans (Nat.zero_add _)
      have hsize := h.size
      rw [ha]
      dsimp only
      rcases max_cases (s.1.inodes dp).size (newOff s d dp + Dirent.size) with ⟨he, -⟩ | ⟨he, -⟩
      · rw [he, hsize]
      · rw [he, Nat.add_mod_right, hoff', Nat.mul_mod_right]
  · unfold dirEntries
    rw [hcontents, ha]

/-- An entry is put among others, none of which has its name, or some does. -/
theorem inumOf_put {A mid B : List Entry} {e : Entry} {name : List Byte} (hmid : ∀ e ∈ mid, e.1 = 0)
    (he : e.1 ≠ 0) : inumOf (A ++ e :: B) name =
      if e.2 = name ∧ inumOf A name = none then some e.1 else inumOf (A ++ mid ++ B) name := by
  have hskip : inumOf mid name = none := by
    unfold inumOf
    rw [Option.map_eq_none_iff, List.find?_eq_none]
    intro e' he' hhas
    exact (of_decide_eq_true hhas).1 (hmid e' he')
  rw [inumOf_append, inumOf_append, inumOf_append, inumOf_cons, hskip, Option.or_none]
  cases hA : inumOf A name with
  | some m => simp
  | none =>
    rw [Option.none_or, Option.none_or]
    by_cases hname : e.2 = name
    · rw [if_pos ⟨he, hname⟩, if_pos ⟨hname, rfl⟩]
    · rw [if_neg fun h => hname h.2, if_neg fun h => hname h.1]

/-- The entry has this inode number, and a name of one character. -/
def oneEntry (inum : Byte) (c : Byte) : Mem := fun x =>
  if x = 0 then inum else if x = 2 then c else 0

def oneChar (c : Byte) : Mem := fun x => if x = 0 then c else 0

theorem dir_small (blk : Mem) : Dir (small T_DIR 16 blk) ROOTDEV slot₀ := by
  have hi := small_inode T_DIR 16 blk
  have hw := whole_small T_DIR 16 blk (by decide)
  constructor
  · rw [hi]
    rfl
  · rw [hi]
    rfl
  · rw [hi]
    exact hw
  · rw [hi]
    rfl

/-- What a call returns, and what is seen of the state after it. -/
def outcome {α β : Type} (f : State Store → β) (x : Except Panic (State Store × α)) :
    Option (α × β) :=
  match x with
  | .ok (t, a) => some (a, f t)
  | .error _ => none

theorem exec_of_outcome {α β : Type} {f : State Store → β} {p : FsM α} {a : α} {b : β}
    (h : outcome f (exec coherent p s) = some (a, b)) :
    ∃ s', exec coherent p s = .ok (s', a) ∧ f s' = b := by
  cases he : exec coherent p s with
  | error x =>
    rw [he] at h
    cases h
  | ok y =>
    rw [he] at h
    cases h
    exact ⟨y.1, rfl, rfl⟩

/-- A name is linked, and looked up. -/
def linkLookup (dp : Slot) (name : Mem) (inum : ℕ) : FsM (ℤ × Option Slot) := do
  let r ← dp.link smallSb name inum
  let o ← dp.lookup smallSb name
  pure (r, o)

/-- A file is made at a path, and the path is looked up. -/
def createNamei (cwd : Slot) (path : ℕ) : FsM (Option Slot × Option Slot) := do
  let r ← create smallSb cwd path T_FILE 0 0
  let o ← namei smallSb cwd path
  pure (r, o)

/-- The path in the memory of the process is a slash and the name. -/
def withPath (t : Store) (c : Byte) : Store :=
  { t with user := fun x => if x = 0 then slash else if x = 1 then c else 0 }

/-- The inode is found in its slot. -/
theorem igetLoop_held {l : List Slot} {empty : Option Slot} (hmem : dp ∈ l)
    (hheld : s.1.Holds d n dp) (hu : ∀ jp, s.1.Holds d n jp → jp = dp) :
    Does E (Slot.igetLoop d n l empty) s fun ip t => ip = dp ∧ t = State.withInode s dp
      { s.1.inodes dp with refcnt := (s.1.inodes dp).refcnt + 1 } := by
  induction l generalizing empty with
  | nil => exact absurd hmem List.not_mem_nil
  | cons jp l ih =>
    unfold Slot.igetLoop
    rw [does_bind, does_inode]
    split_ifs with hfound
    · obtain rfl := hu jp hfound
      exact ⟨rfl, rfl⟩
    all_goals
      apply ih
      rcases List.mem_cons.mp hmem with rfl | hmem
      · exact absurd hheld hfound
      · exact hmem

/-- Another inode gets another slot. -/
theorem igetLoop_slot {c : Core} {l : List Slot} {empty : Option Slot} {m : ℕ}
    (hempty : ∀ ip ∈ empty, (c.inodes ip).refcnt = 0) :
    Ends (Slot.igetLoop d m l empty) c fun ip _ => (c.inodes ip).refcnt = 0 ∨ c.Holds d m ip := by
  induction l generalizing empty with
  | nil =>
    cases empty with
    | none => trivial
    | some ip => exact Or.inl (hempty ip rfl)
  | cons jp l ih =>
    unfold Slot.igetLoop
    rw [ends_bind, ends_inode]
    split_ifs with hfound hunused
    · exact Or.inr hfound
    · apply ih
      intro ip hip
      cases hip
      exact hunused.2
    · exact ih hempty

/-- References, the entries and the size of a directory are left as they are. -/
structure Unchanged (d n : ℕ) (sb : Superblock) (dp : Slot) (s s' : State Store) : Prop where
  refs : ∀ jp, (s'.1.inodes jp).refcnt = (s.1.inodes jp).refcnt
  size : (s'.1.inodes dp).size = (s.1.inodes dp).size
  entries : ∀ x < (s.1.inodes dp).size, contents sb d s' n x = contents sb d s n x

theorem Unchanged.of_grows (hg : Grows sb d n dp s s')
    (hsame : ∀ m, contents sb d s' m = contents sb d s m) : Unchanged d n sb dp s s' := by
  obtain ⟨a, ha⟩ := hg.inodes_self
  constructor
  · intro jp
    by_cases hj : jp = dp
    · rw [hj, ha]
    · rw [hg.inodes_ne hj]
  · rw [ha]
  · intro x _
    rw [hsame]

theorem Unchanged.trans (h : Unchanged d n sb dp s s') (h' : Unchanged d n sb dp s' s'') :
    Unchanged d n sb dp s s'' where
  refs jp := (h'.refs jp).trans (h.refs jp)
  size := h'.size.trans h.size
  entries x hx := (h'.entries x (hx.trans_eq h.size.symm)).trans (h.entries x hx)

/-- No byte is written. -/
theorem Unchanged.of_wrote {src : Mem} {off len : ℕ} (hl : sb.Laid) (hip : s.1.Caches d n dp)
    (hoff : off ≤ (s.1.inodes dp).size) (h : Wrote sb d n dp src off len s 0 s') :
    Unchanged d n sb dp s s' := by
  obtain ⟨a, ha⟩ := h.inodes_self
  have hsize : (s'.1.inodes dp).size = (s.1.inodes dp).size := by
    rw [ha]
    exact max_eq_left hoff
  constructor
  · intro jp
    by_cases hj : jp = dp
    · rw [hj, ha]
    · rw [h.inodes_ne hj]
  · exact hsize
  · intro x _
    rw [h.contents_self hl hip, Mem.copy_zero]

section Fails

variable {name : Mem} {inum : ℕ} (hl : sb.Laid) (hc : Consistent sb d s)
  (hip : s.1.Caches d n dp) (htype : (s.1.inodes dp).type = T_DIR)

include hl hc hip htype

/-- The directory itself is found: its new reference is given up again. -/
theorem link_found_self
    (hfound : inumOf (entries (contents sb d s n) (s.1.inodes dp).size) (nameOf name) = some n) :
    Does (fun _ => True) (dp.link sb name inum) s fun _ t => Unchanged d n sb dp s t := by
  have R := reader_grows hl hip
  unfold Slot.link
  rw [does_bind]
  apply R.lookup_does (fun _ => trivial) ⟨.refl hc, fun _ => rfl⟩ htype
  rintro s₁ ⟨hg, hsame⟩
  have hheld := ((hg.caches d n dp).mpr hip).1
  rw [hfound]
  unfold found iget
  rw [does_bind]
  apply (igetLoop_held (List.mem_finRange dp) hheld fun jp hj =>
    hg.consistent.unique n jp dp hj hheld).mono
  rintro ip t ⟨rfl, rfl⟩
  rw [does_pure, does_bind]
  have hi : (State.withInode s₁ ip { s₁.1.inodes ip with
      refcnt := (s₁.1.inodes ip).refcnt + 1 }).1.inodes ip = { s₁.1.inodes ip with
      refcnt := (s₁.1.inodes ip).refcnt + 1 } := Function.update_self _ _ _
  unfold Slot.put
  rw [does_bind, does_inode, hi, if_neg, does_modifyInode, hi, does_pure]
  · have hback : State.withInode (State.withInode s₁ ip { s₁.1.inodes ip with
        refcnt := (s₁.1.inodes ip).refcnt + 1 }) ip { s₁.1.inodes ip with
        refcnt := (s₁.1.inodes ip).refcnt + 1 - 1 } = s₁ := by
      unfold State.withInode
      rw [Function.update_idem, add_sub_cancel_right, Function.update_eq_self]
    exact (congrArg (Unchanged d n sb ip s) hback).mpr (.of_grows hg hsame)
  · rintro ⟨hone, -⟩
    have hpos := hheld.1
    dsimp only at hone
    omega

/-- Another inode is found: the directory loses a reference. -/
theorem link_found_other {m : ℕ} (hm : m ≠ n)
    (hfound : inumOf (entries (contents sb d s n) (s.1.inodes dp).size) (nameOf name) = some m) :
    Does (fun _ => True) (dp.link sb name inum) s fun _ t =>
      (t.1.inodes dp).refcnt = (s.1.inodes dp).refcnt - 1 := by
  have R := reader_grows hl hip
  unfold Slot.link
  rw [does_bind]
  apply R.lookup_does (fun _ => trivial) ⟨.refl hc, fun _ => rfl⟩ htype
  rintro s₁ ⟨hg, hsame⟩
  have hheld := ((hg.caches d n dp).mpr hip).1
  rw [hfound]
  unfold found iget
  rw [does_bind]
  have hget := (igetLoop_ends (M := ⊥) d m s₁.1 (List.finRange NINODE) none fun _ h =>
    absurd h (Option.not_mem_none _)).wp (J := coherent)
  have hslot : Ends (Slot.igetLoop d m (List.finRange NINODE) none) s₁.1 fun ip _ =>
      (s₁.1.inodes ip).refcnt = 0 ∨ s₁.1.Holds d m ip :=
    igetLoop_slot fun _ h => absurd h (Option.not_mem_none _)
  apply (hget.and (hslot.wp (J := coherent))).mono
  rintro ip t ⟨hmoves, hslot⟩
  have hne : ip ≠ dp := by
    rintro rfl
    rcases hslot with hfree | hother
    · have hpos := hheld.1
      omega
    · exact hm (hother.2.2.symm.trans hheld.2.2)
  rw [does_pure, does_bind]
  apply ((Slot.shifts_put sb dp (M := ⊥)) t.1).wp.mono
  intro _ t' (hput : Moves ⊥ (-Pi.single dp 1) t.1 t'.1)
  rw [does_pure]
  have hrefs := congrFun hput.refs_eq dp
  rw [hmoves.refs_eq, Pi.add_apply, Pi.add_apply, Pi.single_eq_of_ne hne.symm, Pi.neg_apply,
    Pi.single_eq_same] at hrefs
  obtain ⟨a, ha⟩ := hg.inodes_self
  have hrefcnt : (s₁.1.inodes dp).refcnt = (s.1.inodes dp).refcnt := by
    rw [ha]
  unfold Core.refs at hrefs
  rw [hrefs, hrefcnt]
  ring

theorem link_absent
    (habsent : inumOf (entries (contents sb d s n) (s.1.inodes dp).size) (nameOf name) = none) :
    Does (fun _ => True) (dp.link sb name inum) s fun r t =>
      r = -1 → Unchanged d n sb dp s t := by
  have R := reader_grows hl hip
  obtain ⟨k, hk, hoff, -⟩ := scan_spec (contents sb d s n) ((s.1.inodes dp).size / Dirent.size)
    Dirent.init 0
  unfold Slot.link
  rw [does_bind]
  apply R.lookup_does (fun _ => trivial) ⟨.refl hc, fun _ => rfl⟩ htype
  rintro s₁ hs₁
  rw [habsent]
  unfold found
  rw [does_pure, does_bind, does_inode, does_bind, (R.inode s₁ hs₁).2]
  apply (R.linkLoop_does (fun _ => trivial) _ Dirent.init hs₁ rfl (Nat.lt_succ_self _)).mono
  rintro ⟨de, off⟩ s₂ ⟨⟨hg, hsame⟩, hscan⟩
  have hoff' : off = Dirent.size * k := by
    rw [← Nat.zero_add (Dirent.size * k), ← hoff]
    exact congrArg Prod.snd hscan
  have hmul := Nat.mul_le_mul_left Dirent.size hk
  have hdiv := Nat.mul_div_le (s.1.inodes dp).size Dirent.size
  have hgrows := Unchanged.of_grows hg hsame
  have hle : off ≤ (s₂.1.inodes dp).size := by
    rw [hgrows.size]
    omega
  have hip₂ := (hg.caches d n dp).mpr hip
  have hlen : Dirent.size = 16 := rfl
  rw [does_bind]
  by_cases hfits : off + Dirent.size < 2 ^ 32 ∧ off + Dirent.size ≤ MAXFILE * BSIZE
  · apply (write_does (.kernel (de.store 2 0 inum)) hl hg.consistent hip₂ hle hfits.1 hfits.2).mono
    rintro r t ⟨tot, rfl, hwrote⟩
    split_ifs with htot
    · rw [does_pure]
      intro hr
      exact absurd hr (by decide)
    · rw [does_pure]
      intro _
      have hmax := hwrote.tot_le
      have hblock : BSIZE = Dirent.size * 64 := rfl
      have htot' : tot = 0 := by
        rw [Nat.cast_inj] at htot
        rcases hwrote.ends with hzero | hall | hend
        · exact hzero
        · exact absurd hall htot
        · -- an entry does not cross the end of a block
          have hmod := Nat.mod_mul_right_mod (off + tot) Dirent.size 64
          rw [← hblock, hend, Nat.zero_mod, hoff', Nat.mul_add_mod_self_left] at hmod
          rw [hlen] at hmod htot hmax
          omega
      rw [htot'] at hwrote
      exact hgrows.trans (.of_wrote hl hip₂ hle hwrote)
  · rw [does_of_exec (write_refused _ (by decide) (by omega)), if_neg (by decide), does_pure]
    intro _
    exact hgrows

end Fails

/-- A link that fails changes nothing, if and only if the name is not there, or is one of the
directory itself. -/
theorem link_fails_iff {name : Mem} {inum : ℕ} (hl : sb.Laid) (hc : Consistent sb d s)
    (hip : s.1.Caches d n dp) (htype : (s.1.inodes dp).type = T_DIR)
    (hfail : exec coherent (dp.link sb name inum) s = .ok (s', -1)) :
    Unchanged d n sb dp s s' ↔
      ∀ m, inumOf (entries (contents sb d s n) (s.1.inodes dp).size) (nameOf name) = some m →
        m = n := by
  constructor
  · intro h m hfound
    by_contra hm
    have hlost := (link_found_other hl hc hip htype hm hfound).of_exec hfail
    rw [h.refs dp] at hlost
    omega
  · intro h
    cases hfound : inumOf (entries (contents sb d s n) (s.1.inodes dp).size) (nameOf name) with
    | none => exact (link_absent hl hc hip htype hfound).of_exec hfail rfl
    | some m =>
      rw [h m hfound] at hfound
      exact (link_found_self hl hc hip htype hfound).of_exec hfail

/-- The second slot of the table. -/
def slot₁ : Slot := ⟨1, by decide⟩

/-- In a directory with an entry for another inode, a second link to its name takes the reference
to the directory, and leaves that to the other inode. -/
theorem failed_link_counts :
    Consistent smallSb ROOTDEV (small T_DIR 16 (oneEntry 2 97)) ∧
    Dir (small T_DIR 16 (oneEntry 2 97)) ROOTDEV slot₀ ∧
    ∃ s', exec coherent (slot₀.link smallSb (oneChar 97) 1) (small T_DIR 16 (oneEntry 2 97)) =
        .ok (s', -1) ∧
      ¬Unchanged ROOTDEV 1 smallSb slot₀ (small T_DIR 16 (oneEntry 2 97)) s' ∧
      (s'.1.inodes slot₀).refcnt = 0 ∧ (s'.1.inodes slot₁).refcnt = 1 := by
  have hrun : outcome (fun t => ((t.1.inodes slot₀).refcnt, (t.1.inodes slot₁).refcnt))
      (exec coherent (slot₀.link smallSb (oneChar 97) 1) (small T_DIR 16 (oneEntry 2 97))) =
        some (-1, (0, 1)) := by decide +kernel
  obtain ⟨s', hs', hcounts⟩ := exec_of_outcome hrun
  rw [Prod.mk.injEq] at hcounts
  refine ⟨consistent_small _ _ _, dir_small _, s', hs', ?_, hcounts.1, hcounts.2⟩
  intro h
  have hrefs := h.refs slot₀
  rw [hcounts.1, small_inode] at hrefs
  exact absurd hrefs (by decide)

/-- The name of the directory itself cannot be linked, and nothing changes. -/
theorem failed_link_self : ∃ s',
    exec coherent (slot₀.link smallSb (oneChar 46) 1) (small T_DIR 16 (oneEntry 1 46)) =
      .ok (s', -1) ∧
    Unchanged ROOTDEV 1 smallSb slot₀ (small T_DIR 16 (oneEntry 1 46)) s' := by
  have hrun : outcome (fun _ => ()) (exec coherent (slot₀.link smallSb (oneChar 46) 1)
      (small T_DIR 16 (oneEntry 1 46))) = some (-1, ()) := by decide +kernel
  obtain ⟨s', hfail, -⟩ := exec_of_outcome hrun
  have hfound : inumOf (entries (contents smallSb ROOTDEV (small T_DIR 16 (oneEntry 1 46)) 1)
      ((small T_DIR 16 (oneEntry 1 46)).1.inodes slot₀).size) (nameOf (oneChar 46)) = some 1 := by
    decide +kernel
  have hlaw := link_fails_iff smallSb_laid (consistent_small _ _ _) (small_caches _ _ _)
    (dir_small _).type hfail
  refine ⟨s', hfail, hlaw.mpr fun m hm => ?_⟩
  rw [hfound] at hm
  exact (Option.some.inj hm).symm

end Multiplix.Fs
