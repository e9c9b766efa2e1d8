import Mathlib.Data.List.GetD
import Multiplix.Fs.Tree
import Multiplix.Fs.UserPaths

/-! `namei` and `nameiparent` follow the components of a path through the directories. -/
namespace Multiplix.Fs
open Lib

variable {sb : Superblock} {d : ℕ} {s : State Store} {t : Store} {T : Set ℕ} {base : Slot → ℤ}
  {path : ℕ} {str rest : List Byte} {n : ℕ} {ip : Slot}

/-- At most one slot for an inode is free. -/
def Crowded (refs : Slot → ℤ) : Prop := ∀ a b, refs a = 0 → refs b = 0 → a = b

/-- `namexLoop` has gone as far as the components lead, with a reference to where it is and with the
last component in the name. -/
structure Arrived (sb : Superblock) (d : ℕ) (t : Store) (T : Set ℕ) (base : Slot → ℤ)
    (parent : Bool) (n : ℕ) (cs : List (List Byte)) (r : Option Slot × Mem) (s : State Store) :
    Prop where
  rests : Rests sb d t T (base + held r.1) s
  inode : Option.Rel (s.1.Holds d) ((listing sb (t.dev d)).walk parent n cs) r.1
  name : parent = true → r.1 ≠ none → ∃ c, cs.getLast? = some c ∧ nameOf r.2 = c.take DIRSIZ

/-- A reference that is taken and given up. -/
theorem add_single_neg (k : Slot → ℤ) (ip : Slot) :
    k + Pi.single ip 1 + Pi.single ip (-1) = k + held none := by
  rw [Pi.single_neg, add_neg_cancel_right, held_none, add_zero]

/-- Nothing is there. -/
theorem Arrived.nowhere {parent : Bool} {cs : List (List Byte)} {name : Mem}
    (h : Rests sb d t T (base + Pi.single ip 1 + Pi.single ip (-1)) s)
    (hwalk : (listing sb (t.dev d)).walk parent n cs = none) :
    Arrived sb d t T base parent n cs (none, name) s := by
  rw [add_single_neg] at h
  refine ⟨h, ?_, fun _ hne => absurd rfl hne⟩
  rw [hwalk]
  exact .none

/-- From the next component on. -/
theorem Arrived.cons {parent : Bool} {c : List Byte} {cs : List (List Byte)} {m : ℕ}
    {r : Option Slot × Mem} (h : Arrived sb d t T base parent m cs r s)
    (hwalk : (listing sb (t.dev d)).walk parent n (c :: cs) =
      (listing sb (t.dev d)).walk parent m cs)
    (hmore : parent = true → cs ≠ []) : Arrived sb d t T base parent n (c :: cs) r s := by
  refine ⟨h.rests, ?_, fun hp hr => ?_⟩
  · rw [hwalk]
    exact h.inode
  · obtain ⟨c', hlast, hname⟩ := h.name hp hr
    refine ⟨c', ?_, hname⟩
    obtain ⟨c₁, cs, rfl⟩ := List.exists_cons_of_ne_nil (hmore hp)
    exact hlast

/-- Besides the slot of the current inode, none is free. -/
theorem crowded_of_full (hfull : ∀ jp, (base + Pi.single ip 1 : Slot → ℤ) jp ≠ 0) :
    Crowded base := by
  have hall (a : Slot) (ha : base a = 0) : a = ip := by
    by_contra hne
    apply hfull a
    rw [Pi.add_apply, ha, Pi.single_eq_of_ne hne, add_zero]
  exact fun a b ha hb => (hall a ha).trans (hall b hb).symm

/-- The reference to the next inode is left when that to the current one is given up. -/
theorem refs_moved {s' s'' : State Store} {jp : Slot} {m : ℕ}
    (h : Rests sb d t T (base + Pi.single ip 1) s) (hip : s.1.Holds d n ip)
    (h' : Rests sb d t T (base + Pi.single ip 1 + Pi.single jp 1) s') (hj : s'.1.Holds d m jp)
    (h'' : Rests sb d t T (base + Pi.single ip 1 + Pi.single jp 1 + Pi.single ip (-1)) s'') :
    Rests sb d t T (base + Pi.single jp 1) s'' ∧ 0 < s''.1.refs jp := by
  have hsum : base + Pi.single ip 1 + Pi.single jp 1 + Pi.single ip (-1) =
      base + Pi.single jp 1 := by
    rw [Pi.single_neg]
    abel
  rw [hsum] at h''
  refine ⟨h'', ?_⟩
  have hcur : 0 < s.1.refs ip := hip.1
  have hnew : 0 < s'.1.refs jp := hj.1
  rw [h.refs, Pi.add_apply, Pi.single_eq_same] at hcur
  rw [h'.refs, Pi.add_apply, Pi.add_apply, Pi.single_eq_same] at hnew
  rw [h''.refs, Pi.add_apply, Pi.single_eq_same]
  by_cases he : jp = ip
  · rwa [he]
  · rwa [Pi.single_eq_of_ne he, add_zero] at hnew

section Walk

variable {E : Panic → Prop} (hE : Crowded base → E .noInodes) (hT : Tree sb (t.dev d) T)

include hE hT

/-- The next component. -/
theorem lookupNext_does {parent : Bool} {next : Slot → FsM (Option Slot × Mem)} {c : List Byte}
    {cs : List (List Byte)} {es : List Entry} {name : Mem}
    (h : Rests sb d t T (base + Pi.single ip 1) s) (hip : s.1.Caches d n ip) (hn : n ∈ T)
    (hes : listing sb (t.dev d) n = some es) (hname : nameOf name = c.take DIRSIZ)
    (hmore : ¬(parent = true ∧ cs = []))
    (hnext : ∀ jp m s', Rests sb d t T (base + Pi.single jp 1) s' → s'.1.Holds d m jp → m ∈ T →
      Does E (next jp) s' (Arrived sb d t T base parent m cs)) :
    Does E (do
      match ← ip.lookup sb name with
      | none => do
        ip.unlockput sb
        pure (none, name)
      | some ip' => do
        ip.unlockput sb
        next ip') s (Arrived sb d t T base parent n (c :: cs)) := by
  have hwalk : (listing sb (t.dev d)).walk parent n (c :: cs) =
      (inumOf es (c.take DIRSIZ)).bind fun m => (listing sb (t.dev d)).walk parent m cs := by
    rw [Listing.walk, hes]
    exact if_neg hmore
  rw [does_bind]
  apply (h.lookup_does hT hn hip hes (fun hfull => hE (crowded_of_full hfull)) name).mono
  rintro r s₁ ⟨h₁, hip₁, hrel⟩
  rw [hname] at hrel
  cases hm : inumOf es (c.take DIRSIZ) with
  | none =>
    rw [hm] at hwalk hrel
    cases hrel
    rw [held_none, add_zero] at h₁
    dsimp only
    rw [does_bind]
    apply (h₁.unlockput_does hn (hT.nlink n hn) hip₁.1).mono
    rintro _ s₂ ⟨h₂, -⟩
    exact .nowhere h₂ hwalk
  | some m =>
    rw [hm] at hwalk hrel
    obtain ⟨e, he, rfl, hne⟩ := inumOf_mem hm
    cases hrel with
    | @some _ jp hj =>
      dsimp only
      rw [does_bind]
      apply (h₁.unlockput_does hn (hT.nlink n hn) hip₁.1).mono
      rintro _ s₂ ⟨h₂, hkeep⟩
      obtain ⟨h₃, hpos⟩ := refs_moved h hip.1 h₁ hj h₂
      apply (hnext jp e.1 s₂ h₃ (hkeep jp _ hj hpos) (hT.entries n hn es hes e he hne)).mono
      intro r s₃ harr
      exact harr.cons hwalk fun hp hcs => hmore ⟨hp, hcs⟩

theorem namexLoop_does (htext : Text t.user path str) (parent : Bool) (k : ℕ) (name : Mem)
    (hk : rest.length < k) (hr : rest <:+ str) (h : Rests sb d t T (base + Pi.single ip 1) s)
    (hip : s.1.Holds d n ip) (hn : n ∈ T) :
    Does E (namexLoop sb parent k ip (posOf path str rest) name) s
      (Arrived sb d t T base parent n (pieces slash rest)) := by
  induction k generalizing rest ip n name s with
  | zero => exact absurd hk (Nat.not_lt_zero _)
  | succ k ih =>
    have htext' : Text s.2.user path str := h.store ▸ htext
    unfold namexLoop
    rw [does_bind]
    apply (skipelem_does htext' hr name).mono
    rintro ⟨r, name'⟩ s₁ ⟨rfl, hskip⟩
    cases hseg : pieces slash rest with
    | nil =>
      cases hskip.none hseg
      cases parent with
      | true =>
        dsimp only
        rw [if_pos rfl, does_bind]
        apply (h.put_does hn (hT.nlink n hn) hip).mono
        rintro _ s₂ ⟨h₂, -⟩
        rw [add_single_neg] at h₂
        exact ⟨h₂, .none, fun _ hne => absurd rfl hne⟩
      | false => exact ⟨h, .some hip, fun hp => absurd hp Bool.false_ne_true⟩
    | cons c cs =>
      obtain ⟨rest', hr', hlt, hseg', hend, hpos, hname⟩ := hskip.some c cs hseg
      dsimp only at hpos hname
      subst hpos
      dsimp only
      rw [does_bind]
      apply (h.lock_does hn (hT.type n hn) hip).mono
      rintro _ s₂ ⟨h₂, hip₂⟩
      have hsame := h₂.synced n hn ip hip₂
      rw [h₂.store] at hsame
      rw [does_bind, does_inode]
      by_cases htype : (s₂.1.inodes ip).type = T_DIR
      · obtain ⟨es, hes⟩ : ∃ es, listing sb (t.dev d) n = some es :=
          ⟨_, if_pos (hsame.type.symm.trans htype)⟩
        have hnext (jp : Slot) (m : ℕ) (s' : State Store)
            (h' : Rests sb d t T (base + Pi.single jp 1) s') (hj : s'.1.Holds d m jp)
            (hm : m ∈ T) : Does E (namexLoop sb parent k jp (posOf path str rest') name') s'
              (Arrived sb d t T base parent m cs) :=
          hseg' ▸ ih name' (by omega) hr' h' hj hm
        have htext₂ : Text s₂.2.user path str := h₂.store ▸ htext
        rw [if_neg (not_not.mpr htype)]
        cases parent with
        | true =>
          rw [if_pos rfl, does_bind]
          apply htext₂.uchar_does hr'
          split_ifs with hlast
          · -- the parent of the last component
            have hcs := hend.mp hlast.2
            have hpos : ¬¬1 ≤ (s₂.1.inodes ip).refcnt := not_not.mpr hip₂.1.1
            unfold Slot.unlock
            rw [does_bind, does_bind, does_inode, if_neg hpos, does_pure]
            refine ⟨h₂, ?_, fun _ _ => ⟨c, by rw [hcs]; rfl, hname⟩⟩
            rw [Listing.walk, hes, hcs]
            exact .some hip₂.1
          · exact lookupNext_does hE hT h₂ hip₂ hn hes hname
              (fun hp => hlast ⟨rfl, hend.mpr hp.2⟩) hnext
        | false =>
          rw [if_neg Bool.false_ne_true, does_bind, does_pure,
            if_neg fun hp => Bool.false_ne_true hp.1]
          exact lookupNext_does hE hT h₂ hip₂ hn hes hname (fun hp => Bool.false_ne_true hp.1) hnext
      · rw [if_pos htype, does_bind]
        apply (h₂.unlockput_does hn (hT.nlink n hn) hip₂.1).mono
        rintro _ s₃ ⟨h₃, -⟩
        have hnone : listing sb (t.dev d) n = none :=
          if_neg fun he => htype (hsame.type.trans he)
        refine .nowhere h₃ ?_
        rw [Listing.walk, hnone]
        rfl

end Walk

/-! ### Paths -/

/-- An absolute path starts at the root, and another one at `cwd`, which is referred to besides. -/
def Starts (s : State Store) (T : Set ℕ) (cwd : Slot) (str : List Byte) (n : ℕ) : Prop :=
  if str.head? = some slash then n = ROOTINO
  else n ∈ T ∧ s.1.Holds ROOTDEV n cwd ∧ 1 < s.1.refs cwd

theorem starts_root {cwd : Slot} (h : str.head? = some slash) : Starts s T cwd str ROOTINO := by
  unfold Starts
  rw [if_pos h]

theorem head?_iff : str.headD 0 = slash ↔ str.head? = some slash := by
  cases str with
  | nil => exact iff_of_false (by decide) (by decide)
  | cons c str => exact (Option.some_inj).symm

variable {cwd : Slot}

theorem namex_does (hT : Tree sb (s.2.dev ROOTDEV) T) (hs : Synced sb ROOTDEV T s)
    (htext : Text s.2.user path str) (hn : Starts s T cwd str n) (parent : Bool) (name : Mem) :
    Does (fun x => x = .noInodes ∧ Crowded s.1.refs) (namex sb cwd path parent name) s fun r s' =>
      ∃ base, Arrived sb ROOTDEV s.2 T base parent n (pieces slash str) r s' := by
  have hfits := htext.fits
  have hpos : posOf path str str = path := by
    unfold posOf
    rw [Nat.sub_self, Nat.add_zero]
  have hrests : Rests sb ROOTDEV s.2 T s.1.refs s := ⟨rfl, hs, rfl⟩
  unfold namex
  rw [does_bind, ← hpos]
  apply htext.uchar_does (List.suffix_refl str)
  unfold Starts at hn
  by_cases habs : str.head? = some slash
  · rw [if_pos habs] at hn
    subst hn
    rw [if_pos (head?_iff.mpr habs), does_bind]
    apply (hrests.iget_does fun hfull => ⟨rfl, fun a _ ha _ => absurd ha (hfull a)⟩).mono
    rintro ip s₁ ⟨h₁, hip, -⟩
    apply (namexLoop_does (fun hcrowd => ⟨rfl, hcrowd⟩) hT htext parent addrSpace name hfits
      (List.suffix_refl str) h₁ hip hT.root).mono
    exact fun r s' h => ⟨_, h⟩
  · rw [if_neg habs] at hn
    obtain ⟨hmem, hcwd, hmore⟩ := hn
    -- the reference of `cwd` is used up, and another one is left
    have hback : s.1.refs + Pi.single cwd (-1) + Pi.single cwd 1 = s.1.refs := by
      rw [Pi.single_neg, neg_add_cancel_right]
    have hzero (a : Slot) (ha : s.1.refs a = 0) :
        (s.1.refs + Pi.single cwd (-1) : Slot → ℤ) a = 0 := by
      have hne : a ≠ cwd := by
        rintro rfl
        omega
      rw [Pi.add_apply, Pi.single_eq_of_ne hne, add_zero, ha]
    rw [if_neg (fun h => habs (head?_iff.mp h)), does_bind, does_pure]
    apply (namexLoop_does (fun hcrowd => ⟨rfl, fun a b ha hb => hcrowd a b (hzero a ha)
      (hzero b hb)⟩) hT htext parent addrSpace name hfits (List.suffix_refl str)
      (hback.symm ▸ hrests) hcwd hmem).mono
    exact fun r s' h => ⟨_, h⟩

/-- What the memory of the process is asked for, it has. -/
theorem coherent_reads {u : Mem} {W : ℕ → Prop} {o : Op} {t t' : Store} {r : Ans o}
    (ho : o.Loads W) (ht : t.user = u) (h : coherent o t = .ok (t', r)) :
    o.Reads u r ∧ t'.user = u := by
  cases o with
  | ustore => exact ho.elim
  | uload a n =>
    cases h
    exact ⟨fun i _ => congrFun ht _, ht⟩
  | bread | data | setData | brelease | rx | tx =>
    cases h
    exact ⟨trivial, ht⟩
  | inode | setInode | file | setFile | proc | setProc | freeProc | null => cases h

/-! ### A directory with one file -/

/-- Inode 1 is a directory, whose only block is 4, with the file `f` in it, inode 2. -/
def treeDev (b : ℕ) : Mem :=
  if b = 2 then fun x =>
    if x = 64 ∨ x = 70 ∨ x = 134 then 1 else if x = 72 then 16 else if x = 76 then 4
    else if x = 128 then 2 else 0
  else if b = 4 then oneEntry 2 102
  else fun _ => 0

/-- The path is at the address 0. -/
def treeStore (str : List Byte) : Store := ⟨fun k => treeDev k.2, fun x => str.getD x 0⟩

theorem listing_treeDev_root : listing smallSb treeDev 1 = some [(2, [102])] := by decide +kernel

theorem listing_treeDev_file : listing smallSb treeDev 2 = none := by decide +kernel

theorem tree_treeDev : Tree smallSb treeDev {1, 2} where
  root := Or.inl rfl
  type := by
    rintro n (rfl | rfl)
    · exact Nat.one_ne_zero
    · exact two_ne_zero
  nlink := by
    rintro n (rfl | rfl)
    · exact Nat.one_ne_zero
    · exact Nat.one_ne_zero
  whole := by
    rintro n (rfl | rfl) hdir
    · refine ⟨by decide, fun x _ hx => ?_⟩
      have hdiv : x / BSIZE = 0 := Nat.div_eq_of_lt (hx.trans (by decide))
      rw [hdiv]
      exact Nat.noConfusion
    · cases hdir
  size := by
    rintro n (rfl | rfl) hdir
    · rfl
    · cases hdir
  entries := by
    rintro n (rfl | rfl) es hes e he _
    · rw [listing_treeDev_root] at hes
      obtain rfl := Option.some.inj hes
      obtain rfl := List.mem_singleton.mp he
      exact Or.inr rfl
    · rw [listing_treeDev_file] at hes
      cases hes

theorem text_treeStore {str : List Byte} (hnul : 0 ∉ str) (hfits : str.length < addrSpace) :
    Text (treeStore str).user 0 str := by
  refine ⟨fun i hi => ?_, ?_, hnul, hfits⟩
  · rw [Nat.zero_add, Nat.mod_eq_of_lt (hi.trans hfits)]
    exact List.getD_eq_getElem _ _ hi
  · rw [Nat.zero_add, Nat.mod_eq_of_lt hfits]
    exact List.getD_eq_default _ _ le_rfl

/-- No inode is in memory. -/
theorem synced_init (t : Store) : Synced sb d T (Core.init, t) := fun _ _ _ hip =>
  absurd hip.1.1 (lt_irrefl 0)

/-- A path is followed component by component: `namei` finds the inode that they lead to, and
nothing if one of them is blocked; `nameiparent` finds the directory of the last one, with its name.
Only the path is read, up to its end. The kernel stops only if the inodes have no slots left. -/
theorem path_resolution (hT : Tree sb (s.2.dev ROOTDEV) T) (hs : Synced sb ROOTDEV T s)
    (htext : Text s.2.user path str) (hn : Starts s T cwd str n) :
    Does (fun x => x = .noInodes ∧ Crowded s.1.refs) (namei sb cwd path) s (fun r s' =>
      s'.2 = s.2 ∧ (r = none ↔ (listing sb (s.2.dev ROOTDEV)).Blocked n (pieces slash str)) ∧
      Option.Rel (s'.1.Holds ROOTDEV)
        ((listing sb (s.2.dev ROOTDEV)).follow n (pieces slash str)) r) ∧
    (∀ name, Does (fun x => x = .noInodes ∧ Crowded s.1.refs) (nameiparent sb cwd path name) s
      fun r s' => s'.2 = s.2 ∧
        Option.Rel (fun q ip => s'.1.Holds ROOTDEV q.1 ip ∧ nameOf r.2 = q.2)
          ((listing sb (s.2.dev ROOTDEV)).parent n (pieces slash str)) r.1) ∧
    ∀ parent name, ∀ o ∈ (namex sb cwd path parent name).trace (known.extend coherent) s,
      o.Loads (InString s.2.user path) := by
  refine ⟨?_, fun name => ?_, fun parent name => ?_⟩
  · unfold namei
    rw [does_bind]
    apply (namex_does hT hs htext hn false nameInit).mono
    rintro ⟨r, name⟩ s' ⟨base, harr⟩
    have hrel := harr.inode
    rw [Listing.walk_false] at hrel
    refine ⟨harr.rests.store, ?_, hrel⟩
    rw [← Listing.follow_eq_none]
    generalize (listing sb (s.2.dev ROOTDEV)).follow n (pieces slash str) = o at hrel ⊢
    cases hrel with
    | some _ => exact iff_of_false (Option.some_ne_none _) (Option.some_ne_none _)
    | none => exact iff_of_true rfl rfl
  · unfold nameiparent
    apply (namex_does hT hs htext hn true name).mono
    rintro ⟨r, name'⟩ s' ⟨base, harr⟩
    refine ⟨harr.rests.store, ?_⟩
    have hrel := harr.inode
    rw [Listing.walk_true] at hrel
    cases hp : (listing sb (s.2.dev ROOTDEV)).parent n (pieces slash str) with
    | none =>
      rw [hp] at hrel
      cases hrel
      exact .none
    | some q =>
      rw [hp] at hrel
      obtain ⟨c, hlast, -, -, htake⟩ := Listing.parent_eq_some.mp hp
      cases hrel with
      | @some _ ip hip =>
        obtain ⟨c', hlast', hname⟩ := harr.name rfl (Option.some_ne_none ip)
        obtain rfl := Option.some.inj (hlast.symm.trans hlast')
        exact .some ⟨hip, hname.trans htake.symm⟩
  · have hwalks := namex_walks sb (W := InString s.2.user path) (fun _ ha => ha) cwd parent name s.1
    exact hwalks.trace (R := fun t => t.user = s.2.user)
      (fun _ _ _ _ ho ht h => coherent_reads ho ht h) rfl

/-- The file `f` is found in the root. -/
theorem path_resolution_small : ∃ s' ip, exec coherent (namei smallSb slot₀ 0)
    (Core.init, treeStore [slash, 102]) = .ok (s', some ip) ∧ s'.1.Holds ROOTDEV 2 ip := by
  obtain ⟨s, hs⟩ : ∃ s : State Store, s = (Core.init, treeStore [slash, 102]) := ⟨_, rfl⟩
  have hfollow : (listing smallSb (s.2.dev ROOTDEV)).follow ROOTINO (pieces slash [slash, 102]) =
      some 2 := by
    rw [hs]
    decide +kernel
  have hspare : ¬Crowded s.1.refs := by
    rw [hs]
    exact fun h => absurd (h slot₀ slot₁ rfl rfl) (by decide)
  have htree : Tree smallSb (s.2.dev ROOTDEV) {1, 2} := by
    rw [hs]
    exact tree_treeDev
  have hsynced : Synced smallSb ROOTDEV {1, 2} s := by
    rw [hs]
    exact synced_init _
  have htext : Text s.2.user 0 [slash, 102] := by
    rw [hs]
    exact text_treeStore (by decide) (by decide)
  have hstart : Starts s {1, 2} slot₀ [slash, 102] ROOTINO := starts_root rfl
  have hpath := (path_resolution htree hsynced htext hstart).1
  rw [← hs]
  cases he : exec coherent (namei smallSb slot₀ 0) s with
  | error x => exact absurd (hpath.of_error he).2 hspare
  | ok y =>
    obtain ⟨-, -, hrel⟩ := hpath.of_exec he
    rw [hfollow] at hrel
    obtain ⟨s', r⟩ := y
    cases hrel with
    | @some _ ip hip => exact ⟨s', ip, rfl, hip⟩

/-- Part of a result is known. -/
theorem exec_of_map {α β : Type} {f : α → β} {p : FsM α} {s s' : State Store} {b : β}
    (h : exec coherent (do let a ← p; pure (f a)) s = .ok (s', b)) :
    ∃ a, exec coherent p s = .ok (s', a) ∧ f a = b := by
  unfold exec at h ⊢
  rw [Prog.exec_bind] at h
  cases he : p.exec (known.extend coherent) s with
  | error x =>
    rw [he] at h
    cases h
  | ok y =>
    rw [he] at h
    cases h
    exact ⟨y.2, rfl, rfl⟩

/-- All slots are in use. -/
def crowdedCore : Core := { Core.init with inodes := fun _ => { Inode.init with refcnt := 1 } }

/-- The components of `/f/x` but the last lead to a file, and `nameiparent` does not find it; and
with all slots in use, nothing is found at all. -/
theorem nameiparent_in_file :
    Tree smallSb ((treeStore [slash, 102, slash, 120]).dev ROOTDEV) {1, 2} ∧
    Text (treeStore [slash, 102, slash, 120]).user 0 [slash, 102, slash, 120] ∧
    pieces slash [slash, 102, slash, 120] = [[102], [120]] ∧
    (listing smallSb ((treeStore [slash, 102, slash, 120]).dev ROOTDEV)).follow ROOTINO [[102]] =
      some 2 ∧
    (∃ s' r, exec coherent (nameiparent smallSb slot₀ 0 nameInit)
      (Core.init, treeStore [slash, 102, slash, 120]) = .ok (s', r) ∧ r.1 = none) ∧
    exec coherent (namei smallSb slot₀ 0) (crowdedCore, treeStore [slash, 102, slash, 120]) =
      .error .noInodes := by
  have hnone : outcome (fun _ => ()) (exec coherent (do
      let r ← nameiparent smallSb slot₀ 0 nameInit
      pure r.1) (Core.init, treeStore [slash, 102, slash, 120])) = some (none, ()) := by
    decide +kernel
  refine ⟨tree_treeDev, text_treeStore (by decide) (by decide), by decide +kernel,
    by decide +kernel, ?_, eq_error_of_stop (by decide +kernel)⟩
  obtain ⟨s', hrun, -⟩ := exec_of_outcome hnone
  exact ⟨s', exec_of_map hrun⟩

end Multiplix.Fs
