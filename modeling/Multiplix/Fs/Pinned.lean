import Multiplix.Fs.Calls
import Multiplix.Fs.Descriptors

/-! The processes and the open files that point to an inode. `namex` starts at the directory of the
process without a reference of its own. -/
namespace Multiplix.Fs
open Lib

/-- The open file has this inode. -/
def File.Refers (x : File) (ip : Slot) : Prop :=
  0 < x.refcnt ∧ (x.type = .inode ∨ x.type = .device) ∧ x.ip = some ip

instance (x : File) (ip : Slot) : Decidable (x.Refers ip) :=
  inferInstanceAs (Decidable (_ ∧ (_ ∨ _) ∧ _))

namespace Core

/-- How many processes have the inode as their directory, and how many of these files have it. -/
def users (c : Core) (O : Finset FileId) (ip : Slot) : ℕ :=
  (c.live.filter fun p => (c.procs p).cwd = ip).card +
    (O.filter fun f => (c.files f).Refers ip).card

/-- No inode is recycled while it is pointed to: it has a reference for every process and every
file of `O` that has it. Then the directory of a process can be locked, and `iget` leaves alone what
is pointed to. -/
structure Pinned (c : Core) (O : Finset FileId) : Prop where
  counted : ∀ ip, (c.users O ip : ℤ) ≤ (c.inodes ip).refcnt
  cwd : ∀ p ∈ c.live, 1 ≤ (c.inodes (c.procs p).cwd).refcnt
  lock : ∀ sb, ∀ p ∈ c.live, ∀ (τ : Type) (J : Outside τ) (t : τ),
    (∀ o t, J o t ≠ .error .refcnt) → exec J ((c.procs p).cwd.lock sb) (c, t) ≠ .error .refcnt
  iget : ∀ dev inum, Ends (iget dev inum) c fun _ c' => ∀ ip, 0 < c.users O ip →
    (c'.inodes ip).dev = (c.inodes ip).dev ∧ (c'.inodes ip).inum = (c.inodes ip).inum

/-- Every user has a reference, besides those of `e`. -/
structure Held (c : Core) (O : Finset FileId) (e : Slot → ℤ) : Prop where
  counted : ∀ ip, (c.users O ip : ℤ) + e ip ≤ (c.inodes ip).refcnt
  unused : ∀ f, (c.files f).refcnt ≤ 0 → (c.files f).type = .none

section Users

variable {c c' : Core} {O O' : Finset FileId} {f : FileId} {p : ℕ} {x : File} {y : Process}
  {ip : Slot}

theorem users_eq (c : Core) (O : Finset FileId) (ip : Slot) : c.users O ip =
    (∑ p ∈ c.live, if (c.procs p).cwd = ip then 1 else 0) +
      ∑ f ∈ O, if (c.files f).Refers ip then 1 else 0 := by
  rw [users, Finset.card_filter, Finset.card_filter]

theorem users_congr (hl : c'.live = c.live) (hp : c'.procs = c.procs)
    (hf : ∀ f, (c'.files f).Refers ip ↔ (c.files f).Refers ip) :
    c'.users O ip = c.users O ip := by
  simp only [users, hl, hp, hf]

theorem users_le (hl : c'.live = c.live) (hp : c'.procs = c.procs)
    (hf : ∀ f ∈ O, (c'.files f).Refers ip → (c.files f).Refers ip) :
    c'.users O ip ≤ c.users O ip := by
  unfold users
  rw [hl, hp]
  exact Nat.add_le_add_left (Finset.card_le_card (Finset.monotone_filter_right O hf)) _

theorem users_mono (h : O ⊆ O') (ip : Slot) : c.users O ip ≤ c.users O' ip :=
  Nat.add_le_add_left (Finset.card_le_card (Finset.filter_subset_filter _ h)) _

theorem users_insert (c : Core) (O : Finset FileId) (f : FileId) (ip : Slot) :
    c.users (insert f O) ip ≤ c.users O ip + if (c.files f).Refers ip then 1 else 0 := by
  unfold users
  rw [Finset.filter_insert, Nat.add_assoc]
  apply Nat.add_le_add_left
  split_ifs
  · exact Finset.card_insert_le _ _
  · exact le_rfl

theorem users_setFile (c : Core) (O : Finset FileId) (f : FileId) (x : File) (ip : Slot) :
    (c.setFile f x).users O ip +
    (if f ∈ O ∧ (c.files f).Refers ip then 1 else 0) =
      c.users O ip + if f ∈ O ∧ x.Refers ip then 1 else 0 := by
  have hupdate : (fun f' => if ((c.setFile f x).files f').Refers ip then 1 else 0) =
      Function.update (fun f' => if (c.files f').Refers ip then 1 else 0) f
        (if x.Refers ip then 1 else 0) := by
    funext f'
    by_cases he : f' = f
    · rw [he, setFile_files, Function.update_self, Function.update_self]
    · rw [setFile_files, Function.update_of_ne he, Function.update_of_ne he]
  rw [users_eq, users_eq, hupdate, setFile_live, setFile_procs]
  by_cases hf : f ∈ O
  · rw [Finset.sum_update_of_mem hf, ← Finset.add_sum_erase O _ hf, Finset.sdiff_singleton_eq_erase]
    simp only [hf, true_and]
    omega
  · rw [Finset.sum_update_of_notMem hf]
    simp only [hf, false_and, if_false]

theorem users_setProc (hp : p ∈ c.live) (O : Finset FileId) (y : Process) (ip : Slot) :
    (c.setProc p y).users O ip +
    (if (c.procs p).cwd = ip then 1 else 0) = c.users O ip + if y.cwd = ip then 1 else 0 := by
  have hsum := c.sum_setProc (x := y) (fun z => if z.cwd = ip then 1 else 0) hp
  rw [users_eq, users_eq, setProc_files]
  omega

theorem users_setProc_new (hp : p ∉ c.live) (O : Finset FileId) (y : Process) (ip : Slot) :
    (c.setProc p y).users O ip = c.users O ip + if y.cwd = ip then 1 else 0 := by
  have hsum := c.sum_setProc_new (x := y) (fun z => if z.cwd = ip then 1 else 0) hp
  rw [users_eq, users_eq, setProc_files]
  omega

theorem users_freeProc (c : Core) (O : Finset FileId) (p : ℕ) (ip : Slot) :
    (c.freeProc p).users O ip ≤ c.users O ip := by
  have hsum := c.sum_freeProc (fun z => if z.cwd = ip then 1 else 0) p
  rw [users_eq, users_eq]
  exact Nat.add_le_add_right hsum _

theorem users_cwd_pos (hp : p ∈ c.live) : 0 < c.users O (c.procs p).cwd := by
  have hmem : p ∈ c.live.filter fun q => (c.procs q).cwd = (c.procs p).cwd :=
    Finset.mem_filter.mpr ⟨hp, rfl⟩
  exact Nat.add_pos_left (Finset.card_pos.mpr ⟨p, hmem⟩) _

end Users

namespace Held

variable {c c' : Core} {O O' : Finset FileId} {d e : Slot → ℤ} {f : FileId} {p : ℕ} {x : File}
  {y : Process} {ip : Slot}

theorem moves (h : c.Held O e) (hm : Moves ⊥ d c c') : c'.Held O (e + d) where
  counted ip := by
    have husers : c'.users O ip = c.users O ip :=
      users_congr hm.live hm.procs fun f => by rw [hm.files]
    have hrefs : (c'.inodes ip).refcnt = (c.inodes ip).refcnt + d ip := congrFun hm.refs_eq ip
    have hcount := h.counted ip
    rw [husers, hrefs, Pi.add_apply]
    omega
  unused f := by
    rw [hm.files]
    exact h.unused f

theorem mono (h : c.Held O e) (hO : O' ⊆ O) : c.Held O' e where
  counted ip := by
    have hle := users_mono (c := c) hO ip
    have hcount := h.counted ip
    omega
  unused := h.unused

theorem lost (h : c.Held O e) : (c.lost e).Held O 0 where
  counted ip := by
    have husers : (c.lost e).users O ip = c.users O ip := rfl
    have hrefs : ((c.lost e).inodes ip).refcnt = (c.inodes ip).refcnt - e ip := rfl
    have hcount := h.counted ip
    rw [husers, hrefs, Pi.zero_apply]
    omega
  unused := h.unused

/-- A reference to spare can be taken. -/
theorem spare (h : c.Held O 0) (hs : (c.users O ip : ℤ) < (c.inodes ip).refcnt) :
    c.Held O (Pi.single ip 1) where
  counted ip' := by
    have hcount := h.counted ip'
    rw [Pi.zero_apply] at hcount
    by_cases he : ip' = ip
    · subst he
      rw [Pi.single_eq_same]
      omega
    · rwa [Pi.single_eq_of_ne he]
  unused := h.unused

/-- A file that does not come to have an inode. -/
theorem setFile (h : c.Held O e) (hx : ∀ ip, f ∈ O → x.Refers ip → (c.files f).Refers ip)
    (hunused : x.refcnt ≤ 0 → x.type = .none) : (c.setFile f x).Held O e where
  counted ip := by
    have husers := c.users_setFile O f x ip
    have hcount := h.counted ip
    have hle : (if f ∈ O ∧ x.Refers ip then 1 else 0) ≤
        if f ∈ O ∧ (c.files f).Refers ip then 1 else 0 := by
      split_ifs with h₁ h₂
      · exact le_rfl
      · exact absurd ⟨h₁.1, hx ip h₁.1 h₁.2⟩ h₂
      · exact Nat.zero_le _
      · exact le_rfl
    change ((c.setFile f x).users O ip : ℤ) + e ip ≤ (c.inodes ip).refcnt
    omega
  unused f' := by
    by_cases he : f' = f
    · rw [he, setFile_files, Function.update_self]
      exact hunused
    · rw [setFile_files, Function.update_of_ne he]
      exact h.unused f'

/-- A file that gives its inode up. -/
theorem release (h : c.Held O e) (hf : f ∈ O) (href : (c.files f).Refers ip)
    (hx : x.refcnt = 0) (htype : x.type = .none) :
    (c.setFile f x).Held O (e + Pi.single ip 1) where
  counted ip' := by
    have hnot : ¬x.Refers ip' := fun h => by
      have hpos := h.1
      omega
    have husers := c.users_setFile O f x ip'
    have hcount := h.counted ip'
    simp only [hf, hnot, and_false, if_false, true_and, add_zero] at husers
    change ((c.setFile f x).users O ip' : ℤ) + (e ip' + (Pi.single ip 1 : Slot → ℤ) ip') ≤
      (c.inodes ip').refcnt
    by_cases he : ip' = ip
    · subst he
      rw [if_pos href] at husers
      rw [Pi.single_eq_same]
      omega
    · rw [Pi.single_eq_of_ne he]
      omega
  unused f' := by
    by_cases he : f' = f
    · rw [he, setFile_files, Function.update_self]
      exact fun _ => htype
    · rw [setFile_files, Function.update_of_ne he]
      exact h.unused f'

/-- A process that changes its directory. -/
theorem setProc (h : c.Held O (Pi.single y.cwd 1 - Pi.single (c.procs p).cwd 1 + e))
    (hp : p ∈ c.live) : (c.setProc p y).Held O e where
  counted ip := by
    have husers := users_setProc hp O y ip
    have hcount := h.counted ip
    simp only [Pi.add_apply, Pi.sub_apply, Pi.single_apply] at hcount
    change ((c.setProc p y).users O ip : ℤ) + e ip ≤ (c.inodes ip).refcnt
    simp only [eq_comm (a := ip)] at hcount
    split_ifs at husers hcount
    all_goals omega
  unused := h.unused

theorem setProc_new (h : c.Held O (Pi.single y.cwd 1 + e)) (hp : p ∉ c.live) :
    (c.setProc p y).Held O e where
  counted ip := by
    have husers := users_setProc_new hp O y ip
    have hcount := h.counted ip
    simp only [Pi.add_apply, Pi.single_apply] at hcount
    change ((c.setProc p y).users O ip : ℤ) + e ip ≤ (c.inodes ip).refcnt
    simp only [eq_comm (a := ip)] at hcount
    split_ifs at husers hcount
    all_goals omega
  unused := h.unused

theorem freeProc (h : c.Held O e) (p : ℕ) : (c.freeProc p).Held O e where
  counted ip := by
    have husers := c.users_freeProc O p ip
    have hcount := h.counted ip
    change ((c.freeProc p).users O ip : ℤ) + e ip ≤ (c.inodes ip).refcnt
    omega
  unused := h.unused

/-- The same directory, and another descriptor. -/
theorem setFd (h : c.Held O e) (hp : p ∈ c.live) (i : Fin nofile) (o : Option FileId) :
    (c.setFd p i o).Held O e := by
  refine setProc ?_ hp
  rwa [sub_self, zero_add]

/-- The reference in hand is that of the file. -/
theorem insert (h : c.Held O (Pi.single ip 1)) (hip : (c.files f).ip = some ip) :
    c.Held (insert f O) 0 where
  counted ip' := by
    have husers := c.users_insert O f ip'
    have hcount := h.counted ip'
    have hle : (if (c.files f).Refers ip' then 1 else 0 : ℕ) ≤ (Pi.single ip 1 : Slot → ℤ) ip' := by
      rw [Pi.single_apply]
      split_ifs with href he
      · exact le_rfl
      · exact absurd (Option.some.inj (href.2.2.symm.trans hip)) he
      · exact zero_le_one
      · exact le_rfl
    rw [Pi.zero_apply, add_zero]
    omega
  unused := h.unused

/-- The last reference to a file that was not opened gives up one to whatever inode the file was
left with. -/
theorem closed (h : c.Held O 0)
    (hspare : f ∉ O → (c.files f).refcnt = 1 →
      (c.files f).type = .inode ∨ (c.files f).type = .device →
      ∀ ip, (c.files f).ip = some ip → (c.users O ip : ℤ) < (c.inodes ip).refcnt)
    (hc : Closed c f c') : c'.Held O 0 := by
  cases hc with
  | shared hshared =>
    refine h.setFile (fun ip _ href => ⟨by omega, href.2⟩) fun hzero => ?_
    have hone : (c.files f).refcnt - 1 ≤ 0 := hzero
    omega
  | plain _ _ _ => exact h.setFile (fun _ _ href => absurd href.1 (lt_irrefl 0)) fun _ => rfl
  | @last ip _ hlast hobject hip hm =>
    by_cases hf : f ∈ O
    · have hs := (h.release hf ⟨by omega, hobject, hip⟩ (x := { c.files f with
        refcnt := 0, type := .none }) rfl rfl).moves hm
      rwa [add_neg_cancel_right] at hs
    · have hs := ((h.spare (hspare hf hlast hobject ip hip)).setFile (f := f) (x := { c.files f with
        refcnt := 0, type := .none }) (fun _ _ href => absurd href.1 (lt_irrefl 0))
        fun _ => rfl).moves hm
      rwa [add_neg_cancel] at hs

/-- The reference in hand goes to the file, or is given up. -/
theorem opened (h : c.Held O (Pi.single ip 1)) (hO : ∀ f ∈ O, 0 < (c.files f).refcnt)
    (hp : p ∈ c.live) (ho : Opened c p ip c') (hO' : ∀ f ∈ O', 0 < (c'.files f).refcnt ∧
      (f ∈ O ∨ (c.files f).refcnt = 0)) : c'.Held O' 0 := by
  have hsub (hsame : ∀ f, (c.files f).refcnt = 0 → (c'.files f).refcnt = 0) : O' ⊆ O := by
    intro f hf
    obtain ⟨hpos, hfrom⟩ := hO' f hf
    refine hfrom.resolve_right fun hzero => ?_
    have hzero' := hsame f hzero
    omega
  cases ho with
  | full hm =>
    have hs := h.moves hm
    rw [add_neg_cancel] at hs
    exact hs.mono (hsub fun f hf => by rwa [hm.files])
  | @busy f c₁ _ hunused hc hm =>
    rw [hc.eq hunused (h.unused f hunused.le)] at hm
    have hs := h.moves hm
    rw [add_neg_cancel] at hs
    exact hs.mono (hsub fun f hf => by rwa [hm.files])
  | @done f fd x _ hunused hfree hx hip htype hm =>
    have hnot : f ∉ O := fun hf => by
      have hpos := hO f hf
      omega
    have hset : (c.setFile f x).Held O (Pi.single ip 1) :=
      h.setFile (fun _ hf _ => absurd hf hnot) fun hzero => by omega
    have hs := (hset.setFd hp fd (some f)).moves hm
    rw [add_zero] at hs
    have hfile : c'.files = Function.update c.files f x := hm.files
    refine (hs.insert (f := f) ?_).mono fun f' hf' => ?_
    · rw [hfile, Function.update_self]
      exact hip
    · obtain ⟨hpos, hfrom⟩ := hO' f' hf'
      by_cases he : f' = f
      · exact Finset.mem_insert.mpr (Or.inl he)
      · rw [hfile, Function.update_of_ne he] at hpos
        exact Finset.mem_insert_of_mem (hfrom.resolve_right fun hzero => by omega)

/-- The files of a new process are others than those that are open. -/
theorem made {files : Fin nofile → Option FileId} (h : c.Held O e)
    (hO : ∀ f ∈ O, 0 < (c.files f).refcnt) (hm : Made c files c') :
    c'.Held O e ∧ c'.live = c.live ∧ ∀ f ∈ O, 0 < (c'.files f).refcnt := by
  have hnot {f : FileId} (hunused : (c.files f).refcnt = 0) : f ∉ O := fun hf => by
    have hpos := hO f hf
    omega
  have hused {x : File} (hx : x.refcnt = 1) : x.refcnt ≤ 0 → x.type = .none := by omega
  cases hm with
  | @intro f₀ f₁ hne h₀ h₁ =>
    refine ⟨?_, rfl, fun f hf => ?_⟩
    · exact (h.setFile (fun _ hf _ => absurd hf (hnot h₀)) (hused rfl)).setFile
        (fun _ hf _ => absurd hf (hnot h₁)) (hused rfl)
    · have he₀ : f ≠ f₀ := fun he => hnot h₀ (he ▸ hf)
      have he₁ : f ≠ f₁ := fun he => hnot h₁ (he ▸ hf)
      rw [setFile_files, Function.update_of_ne he₁, setFile_files, Function.update_of_ne he₀]
      exact hO f hf

theorem addRefs (h : c.Held O e) (hO : ∀ f ∈ O, 0 < (c.files f).refcnt) (n : FileId → ℕ) :
    (c.addRefs n).Held O e where
  counted ip := by
    have husers : (c.addRefs n).users O ip ≤ c.users O ip :=
      users_le rfl rfl fun f hf href => ⟨hO f hf, href.2⟩
    have hcount := h.counted ip
    change ((c.addRefs n).users O ip : ℤ) + e ip ≤ (c.inodes ip).refcnt
    omega
  unused f hf := by
    have hle : (c.files f).refcnt + n f ≤ 0 := hf
    exact h.unused f (by omega)

/-- All but the calls that give up inodes. -/
theorem effect {E : Event} (h : c.Held O 0) (hO : ∀ f ∈ O, 0 < (c.files f).refcnt)
    (hen : E.Enabled c) (hopen : ∀ p path mode, E ≠ .open_ p path mode)
    (hclose : ∀ p fd, E ≠ .close p fd) (hchdir : ∀ p path, E ≠ .chdir p path)
    (he : Effect ⊥ c E c') : c'.Held O 0 := by
  have hp := hen.1.1
  cases he with
  | idle hm =>
    have hs := h.moves hm
    rwa [add_zero] at hs
  | open_ _ _ => exact absurd rfl (hopen _ _ _)
  | close _ _ => exact absurd rfl (hclose _ _)
  | dup _ _ => exact h.setFd hp _ _
  | chdir _ => exact absurd rfl (hchdir _ _)
  | give hm => exact (h.made hO hm).1
  | @fork p child files c₁ c₂ hm hmoves =>
    obtain ⟨hmade, hlive, hpos⟩ := h.made hO hm
    have hs := (hmade.addRefs hpos _).moves hmoves
    rw [add_comm] at hs
    refine setProc_new hs ?_
    rw [hmoves.live]
    change child ∉ c₁.live
    rw [hlive]
    exact hen.2
  | @exit p =>
    refine setProc ?_ hp
    rwa [sub_self, zero_add]
  | wait => exact h.freeProc _

end Held

theorem igetLoop_keeps (c : Core) (dev inum : ℕ) (l : List Slot) (empty : Option Slot)
    (hempty : ∀ ip ∈ empty, (c.inodes ip).refcnt = 0) :
    Ends (Slot.igetLoop dev inum l empty) c fun _ c' => ∀ ip, 0 < (c.inodes ip).refcnt →
      (c'.inodes ip).dev = (c.inodes ip).dev ∧ (c'.inodes ip).inum = (c.inodes ip).inum := by
  induction l generalizing empty with
  | nil =>
    cases empty with
    | none => trivial
    | some ip' =>
      unfold Slot.igetLoop
      rw [ends_bind, ends_modifyInode, ends_pure]
      intro ip hip
      have hne : ip ≠ ip' := fun he => by
        have hzero := hempty ip' rfl
        rw [he] at hip
        omega
      dsimp only
      rw [Function.update_of_ne hne]
      exact ⟨rfl, rfl⟩
  | cons ip' l ih =>
    unfold Slot.igetLoop
    rw [ends_bind, ends_inode]
    split_ifs with hfound hunused
    · rw [ends_bind, ends_setInode, ends_pure]
      intro ip hip
      dsimp only
      by_cases he : ip = ip'
      · rw [he, Function.update_self]
        exact ⟨rfl, rfl⟩
      · rw [Function.update_of_ne he]
        exact ⟨rfl, rfl⟩
    · apply ih
      intro ip hip
      cases hip
      exact hunused.2
    · exact ih empty hempty

/-- An inode that is in use can be locked, as far as its references go. -/
theorem lock_held {τ : Type} {J : Outside τ} (hJ : ∀ o t, J o t ≠ .error .refcnt)
    (sb : Superblock) {c : Core} {t : τ} {ip : Slot} (hip : 1 ≤ (c.inodes ip).refcnt) :
    Prog.Wp (known.extend J) (· ≠ Panic.refcnt) (ip.lock sb) (c, t) fun _ _ => True := by
  have hout {o : Op} {s : State τ} (ho : ∀ c, known o c = none) :
      Prog.Wp (known.extend J) (· ≠ Panic.refcnt) (Prog.perform o) s fun _ _ => True := by
    unfold Prog.Wp
    rw [Prog.exec_perform]
    unfold Prog.Part.extend
    rw [ho]
    dsimp only
    rcases hr : J o s.2 with x | ⟨t', a⟩
    · intro hx
      exact hJ o s.2 (by rw [hr, hx])
    · trivial
  have hset {i : Inode} {s : State τ} {f : Unit → FsM Unit}
      (hf : ∀ s, Prog.Wp (known.extend J) (· ≠ Panic.refcnt) (f ()) s fun _ _ => True) :
      Prog.Wp (known.extend J) (· ≠ Panic.refcnt) (setInode ip i >>= f) s fun _ _ => True := by
    rw [Prog.wp_bind]
    exact hf _
  unfold Slot.lock
  rw [Prog.wp_bind]
  change Prog.Wp _ _ (if ¬1 ≤ (c.inodes ip).refcnt then _ else _) (c, t) _
  rw [if_neg (not_not.mpr hip)]
  split_ifs
  · trivial
  · have hread {dev b : ℕ} {s : State τ} : Prog.Wp (known.extend J) (· ≠ Panic.refcnt)
        (bread dev b) s fun _ _ => True := by
      unfold bread
      exact (hout fun _ => rfl).bind fun _ _ _ => Prog.wp_pure.mpr trivial
    refine hread.bind fun bp s₁ _ => ?_
    refine (hout fun _ => rfl).bind fun d s₂ _ => ?_
    apply hset
    intro s₃
    refine (hout fun _ => rfl).bind fun _ s₄ _ => ?_
    apply hset
    intro s₅
    split_ifs
    · exact Panic.noConfusion
    · trivial

theorem Held.pinned {c : Core} {O : Finset FileId} (h : c.Held O 0) : c.Pinned O where
  counted ip := by
    have hcount := h.counted ip
    rwa [Pi.zero_apply, add_zero] at hcount
  cwd p hp := by
    have hcount := h.counted (c.procs p).cwd
    have hpos := users_cwd_pos (O := O) hp
    rw [Pi.zero_apply] at hcount
    omega
  lock sb p hp τ J t hJ := by
    have hcount := h.counted (c.procs p).cwd
    have hpos := users_cwd_pos (O := O) hp
    rw [Pi.zero_apply] at hcount
    intro he
    exact (lock_held hJ sb (t := t) (by omega)).of_error he rfl
  iget dev inum := by
    refine (igetLoop_keeps c dev inum _ none fun _ h => absurd h (Option.not_mem_none _)).mono
      fun _ c' hkeep ip hip => hkeep ip ?_
    have hcount := h.counted ip
    rw [Pi.zero_apply] at hcount
    omega

end Core

section Runs

variable (sb : Superblock) {τ : Type} (J : Outside τ)

/-- Runs as before, with the files that were opened from an inode. -/
inductive Reaches (ok : State τ → Finset FileId → Syscall → Prop) : State τ → Finset FileId → Prop
  | boot {t : τ} {p : ℕ} {s : State τ} : exec J (makeFromElf p) (Core.init, t) = .ok (s, ()) →
      Reaches ok s ∅
  | step {s s' : State τ} {O : Finset FileId} {k : Syscall} : Reaches ok s O → k.Enabled s.1 →
      ok s O k → exec J (k.prog sb) s = .ok (s', ()) → Reaches ok s' (k.opened s.1 s'.1 O)

/-- The inode has a reference to spare. -/
def Core.Spare (c : Core) (O : Finset FileId) (ip : Slot) : Prop :=
  (c.users O ip : ℤ) < (c.inodes ip).refcnt

/-- A path starts at the root, or the directory of the process has a reference to spare; a file that
is created is not found when its directory is entered in; and where the last reference to an open
file is given up that was not opened from an inode, the inode that it was left with has one to
spare. -/
def Sparing (s : State τ) (O : Finset FileId) : Syscall → Prop
  | .event (.open_ p path mode) =>
    (Rooted J s path ∨ s.1.Spare O (s.1.procs p).cwd) ∧ (mode &&& Mode.CREATE ≠ 0 →
      exec J (create sb (s.1.procs p).cwd path T_FILE 0 0) s =
        exec J (createWith sb (Slot.linkNew sb) (s.1.procs p).cwd path T_FILE 0 0) s)
  | .event (.chdir p path) => Rooted J s path ∨ s.1.Spare O (s.1.procs p).cwd
  | .event (.close p fd) => ∀ x ∈ checkfd (s.1.procs p) fd, x.2 ∉ O →
      (s.1.files x.2).refcnt = 1 →
      (s.1.files x.2).type = .inode ∨ (s.1.files x.2).type = .device →
      ∀ ip, (s.1.files x.2).ip = some ip → s.1.Spare O ip
  | _ => True

variable {sb J} {s s' : State τ} {O : Finset FileId}

namespace Core.Held

variable (h : s.1.Held O 0) (hO : ∀ f ∈ O, 0 < (s.1.files f).refcnt)

include h

theorem alike {c : Core} (ha : s.1.Alike c) : c.Held O 0 where
  counted ip := by
    have husers : c.users O ip = s.1.users O ip := by
      refine users_congr ha.live ha.procs fun f => ?_
      obtain ⟨hr, ht, hi⟩ := ha.files f
      unfold File.Refers
      rw [hr, ht, hi]
    have hrefs : (c.inodes ip).refcnt = (s.1.inodes ip).refcnt := congrFun ha.refs ip
    rw [husers, hrefs]
    exact h.counted ip
  unused f hf := by
    obtain ⟨hr, ht, -⟩ := ha.files f
    rw [hr] at hf
    rw [ht]
    exact h.unused f hf

/-- What the path takes was there to spare. -/
theorem takes {p path : ℕ} (hpath : Rooted J s path ∨ s.1.Spare O (s.1.procs p).cwd) :
    ∃ e, Takes J ⊥ s (s.1.procs p).cwd path e ∧ s.1.Held O e := by
  by_cases hroot : Rooted J s path
  · exact ⟨0, takes_none (Or.inl hroot), h⟩
  · exact ⟨_, takes_one hroot, h.spare (hpath.resolve_left hroot)⟩

theorem sysChdir {p path : ℕ} (hen : (Event.chdir p path).Enabled s.1)
    (hok : Sparing sb J s O (.event (.chdir p path))) :
    Prog.Wp (known.extend J) (fun _ => True) (Fs.sysChdir sb p path) s fun _ s' =>
      s'.1.Held O 0 := by
  obtain ⟨e, ht, hheld⟩ := h.takes hok
  have hp : p ∈ s.1.live := hen.1.1
  refine (sysChdir_wp sb J p hp ht).mono fun _ ⟨c', t⟩ he => ?_
  dsimp only at he ⊢
  have hlost := hheld.lost
  cases he with
  | idle hm =>
    have hs := hlost.moves hm
    rwa [add_zero] at hs
  | @chdir _ _ ip c₁ hm =>
    have hs := hlost.moves hm
    refine setProc ?_ (by rw [hm.live]; exact hp)
    rw [hm.procs, add_zero]
    rwa [zero_add] at hs

theorem sysClose {p : ℕ} {fd : ℤ} (hok : Sparing sb J s O (.event (.close p fd))) :
    Ends (Fs.sysClose sb p fd) s.1 fun _ c' => c'.Held O 0 := by
  unfold Fs.sysClose
  rw [ends_bind, ends_proc]
  intro hp
  cases hfd : checkfd (s.1.procs p) fd with
  | none => exact h
  | some x =>
    dsimp only
    rw [ends_bind, ends_setProc, ends_bind]
    refine (x.2.close_ends sb _).mono fun _ c' hc => ?_
    have hset := h.setFd hp x.1 none
    refine hset.closed (fun hf hlast hobject ip hip => ?_) hc
    have husers : (s.1.setFd p x.1 none).users O ip = s.1.users O ip := by
      have hu := users_setProc hp O { s.1.procs p with
        ofile := Function.update (s.1.procs p).ofile x.1 none } ip
      exact Nat.add_right_cancel hu
    rw [husers]
    exact hok x hfd hf hlast hobject ip hip

include hO

theorem sysOpen {p path mode : ℕ} (hen : (Event.open_ p path mode).Enabled s.1)
    (hok : Sparing sb J s O (.event (.open_ p path mode))) :
    Prog.Wp (known.extend J) (fun _ => True) (Fs.sysOpen sb p path mode) s fun _ s' =>
      ∀ O', (∀ f ∈ O', 0 < (s'.1.files f).refcnt ∧ (f ∈ O ∨ (s.1.files f).refcnt = 0)) →
        s'.1.Held O' 0 := by
  obtain ⟨hpath, hcreate⟩ := hok
  obtain ⟨e, ht, hheld⟩ := h.takes hpath
  have hp : p ∈ s.1.live := hen.1.1
  have hnew (hmode : mode &&& Mode.CREATE ≠ 0) :
      Drives J ⊥ s (create sb (s.1.procs p).cwd path T_FILE 0 0) fun r => held r - e :=
    (Prog.wp_congr (hcreate hmode)).mpr
      (ht.createWith sb (fun ip => ip.quiet_linkNew sb) T_FILE 0 0)
  refine (sysOpen_wp sb J p hp ht hnew).mono fun _ s' he O' hO' => ?_
  have hlost := hheld.lost
  cases he with
  | idle hm =>
    have hs := hlost.moves hm
    rw [add_zero] at hs
    refine hs.mono fun f hf => ?_
    obtain ⟨hpos, hfrom⟩ := hO' f hf
    have hfiles : s'.1.files = s.1.files := hm.files
    rw [hfiles] at hpos
    exact hfrom.resolve_right fun hzero => by omega
  | @open_ _ _ _ ip c₁ _ hm ho =>
    have hs := hlost.moves hm
    rw [zero_add] at hs
    have hfiles : c₁.files = s.1.files := hm.files
    refine hs.opened ?_ (by rw [hm.live]; exact hp) ho ?_
    · rwa [hfiles]
    · rwa [hfiles]

/-- What a call keeps. -/
theorem call {k : Syscall} (hen : k.Enabled s.1) (hok : Sparing sb J s O k)
    (he : exec J (k.prog sb) s = .ok (s', ())) : s'.1.Held (k.opened s.1 s'.1 O) 0 := by
  have hopened (hk : k.opens = false) : k.opened s.1 s'.1 O ⊆ O := fun f hf => by
    obtain ⟨-, hfrom⟩ := (Finset.mem_filter.mp hf).2
    refine hfrom.resolve_right fun ⟨hk', _⟩ => ?_
    rw [hk] at hk'
    cases hk'
  have hsame {p : FsM ℤ} (hp : Calm p) :
      Prog.Wp (known.extend J) (fun _ => True) (do let _ ← p; pure () : FsM Unit) s fun _ s' =>
        s'.1.Held O 0 :=
    Prog.Wp.bind ((hp s.1).wp.mono fun _ _ ha => h.alike ha) fun _ _ h => h
  cases k with
  | read p fd addr sz valid =>
    have hw := hsame (calm_sysRead sb p fd addr sz valid)
    exact (hw.of_exec he).mono (hopened rfl)
  | write p fd addr sz valid =>
    have hw := hsame (calm_sysWrite sb p fd addr sz valid)
    exact (hw.of_exec he).mono (hopened rfl)
  | event e =>
    cases e with
    | open_ p path mode =>
      have hw : Prog.Wp (known.extend J) (fun _ => True) (Event.prog sb (.open_ p path mode)) s
          fun _ s' => ∀ O', (∀ f ∈ O', 0 < (s'.1.files f).refcnt ∧
            (f ∈ O ∨ (s.1.files f).refcnt = 0)) → s'.1.Held O' 0 :=
        (h.sysOpen hO hen hok).bind fun _ _ h => h
      refine hw.of_exec he _ fun f hf => ?_
      obtain ⟨hpos, hfrom⟩ := (Finset.mem_filter.mp hf).2
      exact ⟨hpos, hfrom.imp_right fun ⟨_, hzero⟩ => hzero⟩
    | close p fd =>
      have hw : Prog.Wp (known.extend J) (fun _ => True) (Event.prog sb (.close p fd)) s
          fun _ s' => s'.1.Held O 0 := (h.sysClose hok).wp.bind fun _ _ h => h
      exact (hw.of_exec he).mono (hopened rfl)
    | chdir p path =>
      have hw : Prog.Wp (known.extend J) (fun _ => True) (Event.prog sb (.chdir p path)) s
          fun _ s' => s'.1.Held O 0 := (h.sysChdir hen hok).bind fun _ _ h => h
      exact (hw.of_exec he).mono (hopened rfl)
    | _ =>
      have heffect := (Event.effect (M := ⊥) sb J hen trivial).of_exec he
      refine (h.effect hO hen ?_ ?_ ?_ heffect).mono (hopened rfl)
      · exact fun _ _ _ => Event.noConfusion
      · exact fun _ _ => Event.noConfusion
      · exact fun _ _ => Event.noConfusion

end Core.Held

theorem Core.Held.booted {p : ℕ} {c : Core} (h : Booted ⊥ Core.init p c) : c.Held ∅ 0 := by
  cases h with
  | @intro files ip c₁ c₂ hm hmoves =>
    have hinit : Core.init.Held ∅ 0 := ⟨fun ip => le_rfl, fun _ _ => rfl⟩
    obtain ⟨hmade, hlive, -⟩ := hinit.made (fun f hf => absurd hf (Finset.notMem_empty f)) hm
    have hs := hmade.moves hmoves
    rw [zero_add] at hs
    refine setProc_new (y := ⟨files, ip, none, false⟩) (by rwa [add_zero]) ?_
    rw [hmoves.live, hlive]
    exact Finset.notMem_empty p

/-- In a run whose calls take from the directories of processes only what these have to spare, no
inode is recycled while it is pointed to. -/
theorem pinned_of_sparing (h : Reaches sb J (Sparing sb J) s O) : s.1.Pinned O := by
  have hheld : s.1.Held O 0 ∧ ∀ f ∈ O, 0 < (s.1.files f).refcnt := by
    induction h with
    | boot he =>
      exact ⟨.booted (booted_of_exec J _ he), fun f hf => absurd hf (Finset.notMem_empty f)⟩
    | step _ hen hok he ih =>
      refine ⟨ih.1.call ih.2 hen hok he, fun f hf => ?_⟩
      exact (Finset.mem_filter.mp hf).2.1
  exact hheld.1.pinned

variable (sb J) in
/-- The state after some calls, if all of them can happen, and the files that were opened. -/
def callsFrom : List Syscall → State τ × Finset FileId → Option (State τ × Finset FileId)
  | [], r => some r
  | k :: ks, (s, O) =>
    if k.Enabled s.1 then
      match exec J (k.prog sb) s with
      | .ok (s', _) => callsFrom ks (s', k.opened s.1 s'.1 O)
      | .error _ => none
    else none

variable (sb J) in
/-- The state after the first process is made, and some calls. -/
def calls (p : ℕ) (ks : List Syscall) (t : τ) : Option (State τ × Finset FileId) :=
  match exec J (makeFromElf p) (Core.init, t) with
  | .ok (s, _) => callsFrom sb J ks (s, ∅)
  | .error _ => none

variable {ok : State τ → Finset FileId → Syscall → Prop} {ks : List Syscall}
  {r : State τ × Finset FileId} (hok : ∀ s O, ∀ k ∈ ks, ok s O k)

include hok

theorem reaches_callsFrom (hr : Reaches sb J ok s O) (h : callsFrom sb J ks (s, O) = some r) :
    Reaches sb J ok r.1 r.2 := by
  induction ks generalizing s O with
  | nil =>
    cases h
    exact hr
  | cons k ks ih =>
    unfold callsFrom at h
    split_ifs at h with hen
    rcases he : exec J (k.prog sb) s with x | ⟨s₁, u⟩ <;> rw [he] at h
    · cases h
    · have hstep := hr.step hen (hok s O k List.mem_cons_self) he
      exact ih (fun s O k hk => hok s O k (List.mem_cons_of_mem _ hk)) hstep h

theorem reaches_calls {p : ℕ} {t : τ} (h : calls sb J p ks t = some r) :
    Reaches sb J ok r.1 r.2 := by
  unfold calls at h
  rcases he : exec J (makeFromElf p) (Core.init, t) with x | ⟨s₁, u⟩ <;> rw [he] at h
  · cases h
  · exact reaches_callsFrom hok (.boot he) h

end Runs

/-- A disk whose root directory has an entry for itself, and a path in the memory of processes. -/
def rootDisk (path : List Byte) : Outside Unit
  | .data (_, 0), t =>
    .ok (t, fun x => if x = 64 ∨ x = 70 ∨ x = 76 then 1 else if x = 72 then 16 else 0)
  | .data _, t => .ok (t, fun x => if x = 0 then 1 else if x = 2 then 46 else 0)
  | .uload a _, t => .ok (t, fun x => path.getD (a + x) 0)
  | o, t => silent o t

/-- The first process enters the root directory again, and opens it. -/
theorem pinned_of_sparing_root : ∃ s : State Unit, ∃ O,
    Reaches ⟨0, 0, 0, 0, 0⟩ (rootDisk [47, 46])
      (Sparing ⟨0, 0, 0, 0, 0⟩ (rootDisk [47, 46])) s O ∧ O.card = 1 ∧ s.1.Pinned O := by
  have hrun : ((calls ⟨0, 0, 0, 0, 0⟩ (rootDisk [47, 46]) 0
      [.event (.chdir 0 0), .event (.open_ 0 0 0)] ()).map fun r => r.2.card) = some 1 := by
    decide +kernel
  obtain ⟨r, hr, hcard⟩ := Option.map_eq_some_iff.mp hrun
  have hroot (s : State Unit) : Rooted (rootDisk [47, 46]) s 0 := fun s' c hc => by
    cases hc
    rfl
  have hok : ∀ s O, ∀ k ∈ [Syscall.event (.chdir 0 0), Syscall.event (.open_ 0 0 0)],
      Sparing ⟨0, 0, 0, 0, 0⟩ (rootDisk [47, 46]) s O k := by
    intro s O k hk
    rcases List.mem_pair.mp hk with rfl | rfl
    · exact Or.inl (hroot s)
    · exact ⟨Or.inl (hroot s), fun h => absurd rfl h⟩
  have hreach := reaches_calls hok hr
  exact ⟨r.1, r.2, hreach, hcard, pinned_of_sparing hreach⟩

/-- A path that starts at the directory of the process takes the reference of the process. When the
file is closed, the directory has none left, and the next path stops the kernel. -/
theorem not_pinned_dot : ∃ r : State Unit × Finset FileId,
    calls ⟨0, 0, 0, 0, 0⟩ (rootDisk [46]) 0 [.event (.open_ 0 0 0), .event (.close 0 2)] () =
      some r ∧
    Reaches ⟨0, 0, 0, 0, 0⟩ (rootDisk [46]) (fun _ _ _ => True) r.1 r.2 ∧ ¬r.1.1.Pinned r.2 ∧
    stop (exec (rootDisk [46]) (sysOpen ⟨0, 0, 0, 0, 0⟩ 0 0 0) r.1) = some .refcnt := by
  have hrun : ((calls ⟨0, 0, 0, 0, 0⟩ (rootDisk [46]) 0
      [.event (.open_ 0 0 0), .event (.close 0 2)] ()).map fun r =>
        (decide (0 ∈ r.1.1.live ∧ (r.1.1.inodes (r.1.1.procs 0).cwd).refcnt < 1),
          stop (exec (rootDisk [46]) (sysOpen ⟨0, 0, 0, 0, 0⟩ 0 0 0) r.1))) =
        some (true, some .refcnt) := by
    decide +kernel
  obtain ⟨r, hr, hstate⟩ := Option.map_eq_some_iff.mp hrun
  obtain ⟨hdir, hstop⟩ := Prod.mk.inj hstate
  obtain ⟨hlive, hcwd⟩ := of_decide_eq_true hdir
  refine ⟨r, hr, reaches_calls (fun _ _ _ _ => trivial) hr, fun h => ?_, hstop⟩
  exact absurd (h.cwd 0 hlive) (not_le.mpr hcwd)

end Multiplix.Fs
