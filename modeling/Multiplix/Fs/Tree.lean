import Multiplix.Fs.Link
import Multiplix.Fs.Text

/-! A tree of directories on the disk, and the steps that `namex` takes in it. -/
namespace Multiplix.Fs
open Lib

/-! ### The way along a path -/

/-- The entries of each inode that is a directory. -/
abbrev Listing := ℕ → Option (List Entry)

namespace Listing

variable (L : Listing)

/-- The inode under a name, of which at most 14 characters count. -/
def child (n : ℕ) (c : List Byte) : Option ℕ := do
  let es ← L n
  inumOf es (c.take DIRSIZ)

/-- One component is followed after the other. -/
def follow (n : ℕ) (cs : List (List Byte)) : Option ℕ := cs.foldlM L.child n

/-- The directory that the last component is to be found in, with the name to look for. -/
def parent (n : ℕ) (cs : List (List Byte)) : Option (ℕ × List Byte) := do
  let c ← cs.getLast?
  let m ← L.follow n cs.dropLast
  if (L m).isSome then some (m, c.take DIRSIZ) else none

/-- On the way is an inode that is not a directory, or a component that is missing. -/
def Blocked (n : ℕ) (cs : List (List Byte)) : Prop :=
  ∃ front c back m, cs = front ++ c :: back ∧ L.follow n front = some m ∧
    (L m = none ∨ ∃ es, L m = some es ∧ inumOf es (c.take DIRSIZ) = none)

/-- How far `namex` goes. -/
def walk (parent : Bool) : ℕ → List (List Byte) → Option ℕ
  | n, [] => if parent then none else some n
  | n, c :: cs => do
    let es ← L n
    if parent ∧ cs = [] then some n
    else do
      let m ← inumOf es (c.take DIRSIZ)
      walk parent m cs

variable {L} {n : ℕ} {cs : List (List Byte)}

theorem child_eq_none {c : List Byte} :
    L.child n c = none ↔ L n = none ∨ ∃ es, L n = some es ∧ inumOf es (c.take DIRSIZ) = none := by
  unfold child
  cases L n with
  | none => exact iff_of_true rfl (Or.inl rfl)
  | some es => simp

theorem follow_cons (c : List Byte) :
    L.follow n (c :: cs) = (L.child n c).bind fun m => L.follow m cs := rfl

theorem follow_eq_none : L.follow n cs = none ↔ L.Blocked n cs := by
  induction cs generalizing n with
  | nil =>
    refine iff_of_false (Option.some_ne_none n) ?_
    rintro ⟨front, c, back, m, hcs, -⟩
    exact absurd hcs (by simp)
  | cons c cs ih =>
    rw [follow_cons]
    cases hc : L.child n c with
    | none => exact iff_of_true rfl ⟨[], c, cs, n, rfl, rfl, child_eq_none.mp hc⟩
    | some m =>
      rw [Option.bind_some, ih]
      constructor
      · rintro ⟨front, c', back, m', rfl, hm, hstop⟩
        refine ⟨c :: front, c', back, m', rfl, ?_, hstop⟩
        rw [follow_cons, hc]
        exact hm
      · rintro ⟨_ | ⟨c₁, front⟩, c', back, m', hcs, hm, hstop⟩
        · obtain ⟨rfl, rfl⟩ := List.cons.inj hcs
          obtain rfl := Option.some.inj hm
          rw [child_eq_none.mpr hstop] at hc
          cases hc
        · obtain ⟨rfl, rfl⟩ := List.cons.inj hcs
          rw [follow_cons, hc] at hm
          exact ⟨front, c', back, m', rfl, hm, hstop⟩

theorem walk_false : L.walk false n cs = L.follow n cs := by
  induction cs generalizing n with
  | nil => rfl
  | cons c cs ih =>
    rw [follow_cons]
    unfold walk child
    cases L n with
    | none => rfl
    | some es => simp [ih]

theorem walk_true : L.walk true n cs = (L.parent n cs).map Prod.fst := by
  induction cs generalizing n with
  | nil => rfl
  | cons c cs ih =>
    cases cs with
    | nil =>
      unfold walk parent
      cases hn : L n with
      | none => simp [follow, hn]
      | some es => simp [follow, hn]
    | cons c' cs =>
      unfold walk
      have hnext : L.parent n (c :: c' :: cs) =
          (L.child n c).bind fun m => L.parent m (c' :: cs) := by
        unfold parent
        rw [List.getLast?_cons_cons, List.dropLast_cons_cons, follow_cons]
        cases (c' :: cs).getLast? with
        | none => cases L.child n c <;> rfl
        | some last => cases L.child n c <;> rfl
      rw [hnext]
      unfold child
      cases L n with
      | none => rfl
      | some es =>
        have hrest : ¬(true = true ∧ c' :: cs = []) := fun h => List.cons_ne_nil _ _ h.2
        rw [Option.bind_eq_bind, Option.bind_some, Option.bind_eq_bind, Option.bind_some,
          if_neg hrest]
        cases inumOf es (c.take DIRSIZ) with
        | none => rfl
        | some m => exact ih

theorem parent_eq_some {m : ℕ} {name : List Byte} : L.parent n cs = some (m, name) ↔
    ∃ c, cs.getLast? = some c ∧ L.follow n cs.dropLast = some m ∧ (L m).isSome ∧
      name = c.take DIRSIZ := by
  unfold parent
  cases cs.getLast? with
  | none => simp
  | some c =>
    cases L.follow n cs.dropLast with
    | none => simp
    | some k =>
      rw [Option.bind_eq_bind, Option.bind_some, Option.bind_eq_bind, Option.bind_some]
      constructor
      · intro h
        split_ifs at h with hk
        obtain ⟨rfl, rfl⟩ := Prod.mk.inj (Option.some.inj h)
        exact ⟨c, rfl, rfl, hk, rfl⟩
      · rintro ⟨c', hc, hm, hk, rfl⟩
        obtain rfl := Option.some.inj hc
        obtain rfl := Option.some.inj hm
        exact if_pos hk

end Listing

theorem inumOf_mem {es : List Entry} {name : List Byte} {m : ℕ} (h : inumOf es name = some m) :
    ∃ e ∈ es, e.1 = m ∧ e.1 ≠ 0 := by
  unfold inumOf at h
  obtain ⟨e, he, rfl⟩ := Option.map_eq_some_iff.mp h
  have hhas : decide (Entry.Has e name) = true := List.find?_some
    (p := fun e => decide (Entry.Has e name)) he
  exact ⟨e, List.mem_of_find?_eq_some he, rfl, (of_decide_eq_true hhas).1⟩

/-! ### The tree on the disk -/

variable {sb : Superblock} {d : ℕ} {s : State Store} {E : Panic → Prop}

/-- The directories of a device with these blocks. -/
def listing (sb : Superblock) (disk : ℕ → Mem) : Listing := fun n =>
  if (dinode sb disk n).type = T_DIR then
    some (entries ((dinode sb disk n).contents disk) (dinode sb disk n).size)
  else none

/-- These inodes are in use, the directories among them have all their blocks and whole entries, and
the entries lead to these inodes again. -/
structure Tree (sb : Superblock) (disk : ℕ → Mem) (T : Set ℕ) : Prop where
  root : ROOTINO ∈ T
  type : ∀ n ∈ T, (dinode sb disk n).type ≠ 0
  nlink : ∀ n ∈ T, (dinode sb disk n).nlink ≠ 0
  whole : ∀ n ∈ T, (dinode sb disk n).type = T_DIR → (dinode sb disk n).Whole disk
  size : ∀ n ∈ T, (dinode sb disk n).type = T_DIR → (dinode sb disk n).size % Dirent.size = 0
  entries : ∀ n ∈ T, ∀ es, listing sb disk n = some es → ∀ e ∈ es, e.1 ≠ 0 → e.1 ∈ T

/-- An in-memory inode is as on the disk. -/
structure Inode.Same (i j : Inode) : Prop where
  type : i.type = j.type
  nlink : i.nlink = j.nlink
  size : i.size = j.size
  addrs : i.addrs = j.addrs

/-- The inodes that are in memory are as on the disk. -/
def Synced (sb : Superblock) (d : ℕ) (T : Set ℕ) (s : State Store) : Prop :=
  ∀ n ∈ T, ∀ ip, s.1.Caches d n ip → (s.1.inodes ip).Same (dinode sb (s.2.dev d) n)

theorem Inode.Same.whole {i j : Inode} {disk : ℕ → Mem} (h : i.Same j) (hj : j.Whole disk) :
    i.Whole disk := by
  refine ⟨h.size ▸ hj.1, fun x hx hx' => ?_⟩
  rw [Inode.pointer_of_addrs h.addrs]
  rw [h.size] at hx'
  exact hj.2 x hx hx'

theorem same_locked {T : Set ℕ} {n : ℕ} {ip : Slot} (hs : Synced sb d T s) (hn : n ∈ T)
    (hip : s.1.Holds d n ip) : (locked sb s ip).Same (dinode sb (s.2.dev d) n) := by
  unfold locked
  split_ifs with hv
  · exact hs n hn ip ⟨hip, hv⟩
  · rw [hip.2.1, hip.2.2]
    exact ⟨rfl, rfl, rfl, rfl⟩

/-! ### Steps -/

/-- Disk and memory of the process are `t`, inodes in memory are as on the disk, and the references
are `refs`. -/
structure Rests (sb : Superblock) (d : ℕ) (t : Store) (T : Set ℕ) (refs : Slot → ℤ)
    (s : State Store) : Prop where
  store : s.2 = t
  synced : Synced sb d T s
  refs : s.1.refs = refs

/-- One count of references. -/
theorem update_refs (refs : Slot → ℤ) (ip : Slot) (k : ℤ) :
    Function.update refs ip (refs ip + k) = refs + Pi.single ip k := by
  funext jp
  by_cases hj : jp = ip
  · simp [hj]
  · simp [hj]

/-- The table is searched for the inode, and else a free slot is taken. -/
theorem igetLoop_does {m : ℕ} {l : List Slot} {empty : Option Slot}
    (hempty : ∀ ip ∈ empty, s.1.refs ip = 0)
    (hE : empty = none → (∀ ip ∈ l, s.1.refs ip ≠ 0) → E .noInodes) :
    Does E (Slot.igetLoop d m l empty) s fun ip s' =>
      s.1.Holds d m ip ∧ s' = State.withInode s ip
        { s.1.inodes ip with refcnt := (s.1.inodes ip).refcnt + 1 } ∨
      s.1.refs ip = 0 ∧ s' = State.withInode s ip
        { s.1.inodes ip with dev := d, inum := m, refcnt := 1, valid := false } := by
  induction l generalizing empty with
  | nil =>
    cases empty with
    | none => exact hE rfl fun ip h => absurd h List.not_mem_nil
    | some ip => exact Or.inr ⟨hempty ip rfl, rfl⟩
  | cons ip l ih =>
    unfold Slot.igetLoop
    rw [does_bind, does_inode]
    split_ifs with hfound hunused
    · exact Or.inl ⟨hfound, rfl⟩
    · apply ih
      · intro jp hj
        cases hj
        exact hunused.2
      · exact fun he => absurd he (Option.some_ne_none ip)
    · refine ih hempty fun he hl => hE he fun jp hj => ?_
      rcases List.mem_cons.mp hj with rfl | hj
      · exact fun hz => hunused ⟨he ▸ rfl, hz⟩
      · exact hl jp hj

namespace Rests

variable {t : Store} {T : Set ℕ} {refs : Slot → ℤ} {n : ℕ} {ip : Slot}
  (hT : Tree sb (t.dev d) T) (h : Rests sb d t T refs s)

include h

/-- One inode is changed, and stays as on the disk. -/
theorem withInode {i : Inode} {k : ℤ} (hi : i.refcnt = (s.1.inodes ip).refcnt + k)
    (hsame : ∀ n ∈ T, 0 < i.refcnt → i.dev = d → i.inum = n → i.valid = true →
      i.Same (dinode sb (t.dev d) n)) :
    Rests sb d t T (refs + Pi.single ip k) (State.withInode s ip i) := by
  refine ⟨h.store, fun n hn jp hj => ?_, ?_⟩
  · rw [State.withInode_store, h.store]
    by_cases he : jp = ip
    · subst he
      rw [Core.caches_withInode_self] at hj
      rw [State.withInode_inodes, Function.update_self]
      exact hsame n hn hj.1.1 hj.1.2.1 hj.1.2.2 hj.2
    · rw [State.withInode_inodes, Function.update_of_ne he, ← h.store]
      exact h.synced n hn jp ((Core.caches_withInode_ne he d n).mp hj)
  · rw [← update_refs, ← h.refs]
    exact (Core.refs_update s.1 ip i).trans (congrArg _ hi)

/-- One inode is changed, but not what is on the disk of it. -/
theorem recount {i : Inode} {k : ℤ} (hip : s.1.Holds d n ip)
    (hi : i = { s.1.inodes ip with refcnt := (s.1.inodes ip).refcnt + k }) :
    Rests sb d t T (refs + Pi.single ip k) (State.withInode s ip i) := by
  subst hi
  refine h.withInode rfl fun m hm _ hdev hinum hv => ?_
  have hsame := h.synced m hm ip ⟨⟨hip.1, hdev, hinum⟩, hv⟩
  rw [h.store] at hsame
  exact ⟨hsame.type, hsame.nlink, hsame.size, hsame.addrs⟩

/-- A new reference, unless no slot is free. -/
theorem iget_does {m : ℕ} (hE : (∀ ip, refs ip ≠ 0) → E .noInodes) :
    Does E (iget d m) s fun ip s' => Rests sb d t T (refs + Pi.single ip 1) s' ∧
      s'.1.Holds d m ip ∧ ∀ jp n, s.1.Caches d n jp → s'.1.Caches d n jp := by
  have hall (hl : ∀ ip ∈ List.finRange NINODE, s.1.refs ip ≠ 0) : E .noInodes :=
    hE fun ip => h.refs ▸ hl ip (List.mem_finRange ip)
  apply (igetLoop_does (fun _ he => absurd he (Option.not_mem_none _)) fun _ => hall).mono
  rintro ip s' (⟨hip, rfl⟩ | ⟨hfree, rfl⟩)
  · have hpos : 0 < (s.1.inodes ip).refcnt + 1 :=
      Int.add_pos_of_pos_of_nonneg hip.1 zero_le_one
    refine ⟨h.recount hip rfl, ?_, fun jp n hj => ?_⟩
    · rw [Core.holds_withInode_self]
      exact ⟨hpos, hip.2⟩
    · by_cases he : jp = ip
      · subst he
        rw [Core.caches_withInode_self]
        exact ⟨⟨hpos, hj.1.2⟩, hj.2⟩
      · rwa [Core.caches_withInode_ne he]
  · have hzero : (s.1.inodes ip).refcnt = 0 := hfree
    refine ⟨h.withInode (by rw [hzero, zero_add]) ?_, ?_, fun jp n hj => ?_⟩
    · exact fun n _ _ _ _ hv => absurd hv Bool.false_ne_true
    · rw [Core.holds_withInode_self]
      exact ⟨one_pos, rfl, rfl⟩
    · have he : jp ≠ ip := by
        rintro rfl
        exact absurd hzero hj.1.1.ne'
      rwa [Core.caches_withInode_ne he]

/-- A reference is given up; the inode is linked, so it is not freed. -/
theorem put_does (hn : n ∈ T) (hnlink : (dinode sb (t.dev d) n).nlink ≠ 0)
    (hip : s.1.Holds d n ip) : Does E (ip.put sb) s fun _ s' =>
      Rests sb d t T (refs + Pi.single ip (-1)) s' ∧
        ∀ jp m, s.1.Holds d m jp → 0 < s'.1.refs jp → s'.1.Holds d m jp := by
  unfold Slot.put
  rw [does_bind, does_inode, if_neg]
  · rw [does_modifyInode]
    refine ⟨h.recount hip rfl, fun jp m hj hpos => ?_⟩
    by_cases he : jp = ip
    · subst he
      unfold Core.refs at hpos
      rw [State.withInode_inodes, Function.update_self] at hpos
      rw [Core.holds_withInode_self]
      exact ⟨hpos, hj.2⟩
    · rwa [Core.holds_withInode_ne he]
  · rintro ⟨-, hv, hzero⟩
    have hsame := h.synced n hn ip ⟨hip, hv⟩
    rw [h.store] at hsame
    exact hnlink (hsame.nlink.symm.trans hzero)

theorem unlockput_does (hn : n ∈ T) (hnlink : (dinode sb (t.dev d) n).nlink ≠ 0)
    (hip : s.1.Holds d n ip) : Does E (ip.unlockput sb) s fun _ s' =>
      Rests sb d t T (refs + Pi.single ip (-1)) s' ∧
        ∀ jp m, s.1.Holds d m jp → 0 < s'.1.refs jp → s'.1.Holds d m jp := by
  have hpos : ¬¬1 ≤ (s.1.inodes ip).refcnt := not_not.mpr hip.1
  unfold Slot.unlockput Slot.unlock
  rw [does_bind, does_bind, does_inode, if_neg hpos, does_pure]
  exact h.put_does hn hnlink hip

theorem lock_does (hn : n ∈ T) (htype : (dinode sb (t.dev d) n).type ≠ 0)
    (hip : s.1.Holds d n ip) : Does E (ip.lock sb) s fun _ s' =>
      Rests sb d t T refs s' ∧ s'.1.Caches d n ip := by
  have hsame := same_locked h.synced hn hip
  rw [h.store] at hsame
  have hopens : Opens sb s ip := by
    refine ⟨hip.1, Or.inr ?_⟩
    rwa [hsame.type]
  apply (Fs.lock_does hopens).mono
  rintro _ s' rfl
  refine ⟨?_, caches_locked hopens hip.2.1 hip.2.2⟩
  have hrefcnt : (locked sb s ip).refcnt = (s.1.inodes ip).refcnt + 0 := by
    rw [add_zero]
    exact locked_like.1
  have hzero : Rests sb d t T (refs + Pi.single ip 0) (State.withInode s ip (locked sb s ip)) := by
    refine h.withInode hrefcnt fun m _ _ _ hinum _ => ?_
    rw [locked_like.2.2.1, hip.2.2] at hinum
    rwa [← hinum]
  rwa [Pi.single_zero, add_zero] at hzero

include hT in
/-- A name is looked up in a directory. -/
theorem lookup_does {es : List Entry} (hn : n ∈ T) (hip : s.1.Caches d n ip)
    (hes : listing sb (t.dev d) n = some es) (hE : (∀ ip, refs ip ≠ 0) → E .noInodes)
    (name : Mem) : Does E (ip.lookup sb name) s fun r s' =>
      Rests sb d t T (refs + held r) s' ∧ s'.1.Caches d n ip ∧
      Option.Rel (s'.1.Holds d) (inumOf es (nameOf name)) r := by
  have hsame := h.synced n hn ip hip
  rw [h.store] at hsame
  unfold listing at hes
  split_ifs at hes with htype
  obtain rfl := Option.some.inj hes
  have hdir : Dir s d ip := by
    refine ⟨hip.1.2.1, hsame.type.trans htype, ?_, ?_⟩
    · rw [h.store]
      exact hsame.whole (hT.whole n hn htype)
    · rw [hsame.size]
      exact hT.size n hn htype
  apply (reader_whole hdir.dev hdir.whole).lookup_does (fun hb => absurd hb hdir.not_bad) rfl
    hdir.type
  rintro s' rfl
  rw [h.store, Inode.contents_of_addrs hsame.addrs, hsame.size]
  cases inumOf _ (nameOf name) with
  | none => exact ⟨by rwa [held_none, add_zero], hip, .none⟩
  | some m =>
    unfold found
    rw [does_bind]
    apply (h.iget_does hE).mono
    rintro jp s₂ ⟨h₂, hj, hkeep⟩
    exact ⟨h₂, hkeep ip n hip, .some hj⟩

end Rests

end Multiplix.Fs
