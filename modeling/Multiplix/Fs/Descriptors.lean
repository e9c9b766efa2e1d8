import Mathlib.Algebra.BigOperators.Fin
import Mathlib.Algebra.Order.BigOperators.Group.Finset
import Multiplix.Fs.Effect

/-! Open files and the descriptors that name them. `sys_dup` gives out a descriptor without taking a
reference. -/
namespace Multiplix.Fs
open Lib

/-- How many descriptors of a process name the file. -/
def Process.naming (x : Process) (f : FileId) : ℕ :=
  (List.finRange nofile).countP fun i => x.ofile i = some f

namespace Core

/-- How many descriptors name the file. -/
def descriptors (c : Core) (f : FileId) : ℕ := ∑ p ∈ c.live, (c.procs p).naming f

/-- A file has a reference for each of its descriptors. -/
def Counted (c : Core) : Prop := ∀ f, (c.descriptors f : ℤ) ≤ (c.files f).refcnt

/-- Files are not released while they are in use. Then `sys_close` changes no file that still has
a descriptor, and `falloc` finds a file that has none. -/
structure FilesSafe (c : Core) : Prop where
  counted : c.Counted
  close : ∀ sb p fd, Ends (sysClose sb p fd) c fun _ c' =>
    ∀ q ∈ c'.live, ∀ i f, (c'.procs q).ofile i = some f →
      (c'.files f).type = (c.files f).type ∧ (c'.files f).off = (c.files f).off ∧
        (c'.files f).ip = (c.files f).ip
  falloc : Ends falloc c fun r _ =>
    ∀ f ∈ r, ∀ q ∈ c.live, ∀ i, (c.procs q).ofile i ≠ some f

end Core

namespace Process

variable {x y : Process} {f : FileId}

theorem naming_eq_sum (x : Process) (f : FileId) :
    x.naming f = ∑ i, if x.ofile i = some f then 1 else 0 := by
  rw [naming, List.countP_eq_length_filter, ← Finset.card_filter]
  rfl

theorem naming_pos {i : Fin nofile} (h : x.ofile i = some f) : 0 < x.naming f :=
  List.countP_pos_iff.mpr ⟨i, List.mem_finRange i, by simpa using h⟩

theorem naming_update (x : Process) (f : FileId) (i : Fin nofile) (o : Option FileId) :
    { x with ofile := Function.update x.ofile i o }.naming f +
      (if x.ofile i = some f then 1 else 0) = x.naming f + if o = some f then 1 else 0 := by
  have hupdate : (fun j => if Function.update x.ofile i o j = some f then 1 else 0) =
      Function.update (fun j => if x.ofile j = some f then 1 else 0) i
        (if o = some f then 1 else 0) := by
    funext j
    by_cases hj : j = i
    · simp [hj]
    · simp [hj]
  rw [naming_eq_sum, naming_eq_sum, hupdate, Finset.sum_update_of_mem (Finset.mem_univ i),
    Finset.sum_eq_add_sum_sdiff_singleton_of_mem (Finset.mem_univ i)]
  omega

/-- A process whose first two descriptors are given. -/
theorem naming_pair {f₀ f₁ : FileId} (h : x.ofile =
      fun i => if i.val = 0 then some f₀ else if i.val = 1 then some f₁ else none) :
    x.naming f = (if f₀ = f then 1 else 0) + if f₁ = f then 1 else 0 := by
  have hsplit (i : Fin nofile) : (if x.ofile i = some f then 1 else 0) =
      (if i = ⟨0, by decide⟩ then if f₀ = f then 1 else 0 else 0) +
        if i = ⟨1, by decide⟩ then if f₁ = f then 1 else 0 else 0 := by
    rw [h]
    by_cases h0 : i.val = 0
    · simp [h0, Fin.ext_iff]
    · by_cases h1 : i.val = 1
      · simp [h1, Fin.ext_iff]
      · simp [h0, h1, Fin.ext_iff]
  rw [naming_eq_sum, Finset.sum_congr rfl fun i _ => hsplit i, Finset.sum_add_distrib,
    Finset.sum_ite_eq', Finset.sum_ite_eq', if_pos (Finset.mem_univ _),
    if_pos (Finset.mem_univ _)]

end Process

namespace Core

variable {c c' : Core} {p : ℕ} {f : FileId} {x : Process} {i : Fin nofile} {o : Option FileId}

theorem descriptors_congr (hl : c'.live = c.live) (hp : c'.procs = c.procs) :
    c'.descriptors f = c.descriptors f := by
  rw [descriptors, hl, hp, descriptors]

theorem descriptors_pos (hp : p ∈ c.live) (h : (c.procs p).ofile i = some f) :
    0 < c.descriptors f :=
  (Process.naming_pos h).trans_le
    (Finset.single_le_sum (f := fun p => (c.procs p).naming f) (fun _ _ => Nat.zero_le _) hp)

/-! Sums over the processes that exist. -/

theorem sum_setProc_new (g : Process → ℕ) (hp : p ∉ c.live) :
    ∑ q ∈ (c.setProc p x).live, g ((c.setProc p x).procs q) =
      ∑ q ∈ c.live, g (c.procs q) + g x := by
  have hsame : ∀ q ∈ c.live, g ((c.setProc p x).procs q) = g (c.procs q) := fun q hq => by
    have hne : q ≠ p := fun he => hp (he ▸ hq)
    rw [setProc_procs, Function.update_of_ne hne]
  rw [setProc_live, Finset.sum_insert hp, Finset.sum_congr rfl hsame, setProc_procs,
    Function.update_self, Nat.add_comm]

theorem sum_setProc (g : Process → ℕ) (hp : p ∈ c.live) :
    ∑ q ∈ (c.setProc p x).live, g ((c.setProc p x).procs q) + g (c.procs p) =
      ∑ q ∈ c.live, g (c.procs q) + g x := by
  have hsame : ∀ q ∈ c.live.erase p, g ((c.setProc p x).procs q) = g (c.procs q) :=
    fun q hq => by rw [setProc_procs, Function.update_of_ne (Finset.ne_of_mem_erase hq)]
  have hold := Finset.add_sum_erase c.live (fun q => g (c.procs q)) hp
  have hnew := Finset.add_sum_erase c.live (fun q => g ((c.setProc p x).procs q)) hp
  rw [Finset.sum_congr rfl hsame] at hnew
  simp only [setProc_procs, Function.update_self] at hnew
  rw [setProc_live, Finset.insert_eq_of_mem hp, ← hold]
  simp only [setProc_procs]
  omega

theorem sum_freeProc (g : Process → ℕ) (c : Core) (p : ℕ) :
    ∑ q ∈ (c.freeProc p).live, g ((c.freeProc p).procs q) ≤ ∑ q ∈ c.live, g (c.procs q) :=
  Finset.sum_le_sum_of_subset (Finset.erase_subset p c.live)

theorem descriptors_setProc_new (hp : p ∉ c.live) :
    (c.setProc p x).descriptors f = c.descriptors f + x.naming f :=
  sum_setProc_new (·.naming f) hp

theorem descriptors_setProc (hp : p ∈ c.live) :
    (c.setProc p x).descriptors f + (c.procs p).naming f = c.descriptors f + x.naming f :=
  sum_setProc (·.naming f) hp

theorem descriptors_setFd (hp : p ∈ c.live) : (c.setFd p i o).descriptors f +
    (if (c.procs p).ofile i = some f then 1 else 0) =
      c.descriptors f + if o = some f then 1 else 0 := by
  obtain ⟨y, hy⟩ : ∃ y : Process, y = { c.procs p with
    ofile := Function.update (c.procs p).ofile i o } := ⟨_, rfl⟩
  have hproc := c.descriptors_setProc (f := f) (x := y) hp
  have hupdate := (c.procs p).naming_update f i o
  rw [← hy] at hupdate
  rw [setFd, ← hy]
  omega

theorem descriptors_freeProc (c : Core) (p : ℕ) (f : FileId) :
    (c.freeProc p).descriptors f ≤ c.descriptors f := sum_freeProc (·.naming f) c p

namespace Counted

/-- A file that is not used has no descriptors. -/
theorem unused (h : c.Counted) (hf : (c.files f).refcnt = 0) : c.descriptors f = 0 := by
  have hle := h f
  omega

theorem of_files (h : c.Counted) (hf : c'.files = c.files) (hl : c'.live = c.live)
    (hp : c'.procs = c.procs) : c'.Counted := fun f => by
  rw [descriptors_congr hl hp, hf]
  exact h f

theorem moves {M : AddSubgroup (Slot → ℤ)} {d : Slot → ℤ} (h : c.Counted)
    (hm : Moves M d c c') : c'.Counted := h.of_files hm.files hm.live hm.procs

/-- Only the file that is set has to be looked at. -/
theorem setFile {x : File} (h : c.Counted) (hx : (c.descriptors f : ℤ) ≤ x.refcnt) :
    (c.setFile f x).Counted := fun f' => by
  have hsame : (c.setFile f x).descriptors f' = c.descriptors f' := rfl
  rw [hsame, setFile_files]
  by_cases he : f' = f
  · rw [he, Function.update_self]
    exact hx
  · rw [Function.update_of_ne he]
    exact h f'

/-- One reference less to a file that has lost a descriptor. -/
theorem closed (hrest : ∀ f' ≠ f, (c.descriptors f' : ℤ) ≤ (c.files f').refcnt)
    (hlost : (c.descriptors f : ℤ) + 1 ≤ (c.files f).refcnt) (hc : Closed c f c') :
    c'.Counted ∧ c'.live = c.live ∧ c'.procs = c.procs ∧ ∀ f', 0 < c.descriptors f' →
      (c'.files f').type = (c.files f').type ∧ (c'.files f').off = (c.files f').off ∧
        (c'.files f').ip = (c.files f').ip := by
  have h : c.Counted := fun f' => by
    by_cases he : f' = f
    · rw [he]
      omega
    · exact hrest f' he
  have hother {x : File} {f' : FileId} (he : f' ≠ f) :
      (c.setFile f x).files f' = c.files f' := Function.update_of_ne he _ _
  cases hc with
  | shared hshared =>
    refine ⟨h.setFile (Int.le_sub_one_of_lt (by omega)), rfl, rfl, fun f' _ => ?_⟩
    by_cases he : f' = f
    · rw [he, setFile_files, Function.update_self]
      exact ⟨rfl, rfl, rfl⟩
    · rw [hother he]
      exact ⟨rfl, rfl, rfl⟩
  | plain hlast _ _ =>
    refine ⟨h.setFile (by rw [hlast] at hlost; exact Int.le_of_lt_add_one hlost), rfl, rfl,
      fun f' hpos => ?_⟩
    have he : f' ≠ f := fun he => by
      rw [he] at hpos
      omega
    rw [hother he]
    exact ⟨rfl, rfl, rfl⟩
  | last hlast _ _ hm =>
    refine ⟨(h.setFile (by rw [hlast] at hlost; exact Int.le_of_lt_add_one hlost)).moves hm,
      hm.live, hm.procs, fun f' hpos => ?_⟩
    have he : f' ≠ f := fun he => by
      rw [he] at hpos
      omega
    rw [hm.files, hother he]
    exact ⟨rfl, rfl, rfl⟩

/-- The descriptor is taken away before its file is closed. -/
theorem setFd_closed (h : c.Counted) (hp : p ∈ c.live) (hi : (c.procs p).ofile i = some f)
    (hc : Closed (c.setFd p i none) f c') :
    c'.Counted ∧ c'.live = c.live ∧ c'.procs = (c.setFd p i none).procs ∧
      ∀ f', 0 < (c.setFd p i none).descriptors f' →
        (c'.files f').type = (c.files f').type ∧ (c'.files f').off = (c.files f').off ∧
          (c'.files f').ip = (c.files f').ip := by
  have hdesc (f' : FileId) := descriptors_setFd (f := f') (i := i) (o := none) hp
  have hlive : (c.setFd p i none).live = c.live := Finset.insert_eq_of_mem hp
  have hrest : ∀ f' ≠ f,
      ((c.setFd p i none).descriptors f' : ℤ) ≤ ((c.setFd p i none).files f').refcnt :=
    fun f' he => by
      have hd := hdesc f'
      simp only [hi, Option.some.injEq, Ne.symm he, if_false, reduceCtorEq, add_zero] at hd
      rw [hd]
      exact h f'
  have hlost :
      ((c.setFd p i none).descriptors f : ℤ) + 1 ≤ ((c.setFd p i none).files f).refcnt := by
    have hle := h f
    have hd := hdesc f
    simp only [hi, if_true, reduceCtorEq, if_false, add_zero] at hd
    change _ ≤ (c.files f).refcnt
    omega
  obtain ⟨hcount, hl, hprocs, hfiles⟩ := closed hrest hlost hc
  exact ⟨hcount, hl.trans hlive, hprocs, hfiles⟩

theorem opened {ip : Slot} (h : c.Counted) (hp : p ∈ c.live) (ho : Opened c p ip c') :
    c'.Counted := by
  cases ho with
  | full hm => exact h.moves hm
  | @busy f c₁ _ hunused hc hm =>
    have hzero := h.unused hunused
    have hfile : (c.setFile f { c.files f with refcnt := 1 }).files f =
        { c.files f with refcnt := 1 } := Function.update_self _ _ _
    have hcount : (c.setFile f { c.files f with refcnt := 1 }).Counted :=
      h.setFile (by rw [hzero]; exact zero_le_one)
    refine (closed (fun f' _ => hcount f') ?_ hc).1.moves hm
    rw [hfile]
    change (c.descriptors f : ℤ) + 1 ≤ 1
    rw [hzero]
    exact le_rfl
  | @done f fd x _ hunused hfree hx _ _ hm =>
    refine Counted.moves (fun f' => ?_) hm
    have hd := descriptors_setFd (c := c.setFile f x) (f := f') (i := fd) (o := some f) hp
    have hsame : (c.setFile f x).descriptors f' = c.descriptors f' := rfl
    rw [hsame, setFile_procs, hfree] at hd
    simp only [reduceCtorEq, if_false, add_zero, Option.some.injEq] at hd
    rw [hd]
    change _ ≤ (Function.update c.files f x f').refcnt
    by_cases he : f' = f
    · rw [he, Function.update_self, if_pos rfl, hx, h.unused hunused]
      exact le_rfl
    · rw [Function.update_of_ne he, if_neg (Ne.symm he)]
      exact h f'

/-- The two files of a new process have no other descriptors. -/
theorem made {files : Fin nofile → Option FileId} (h : c.Counted) (hm : Made c files c')
    (hx : x.ofile = files) : c'.live = c.live ∧ c'.procs = c.procs ∧
      ∀ f, (c'.descriptors f + x.naming f : ℤ) ≤ (c'.files f).refcnt := by
  cases hm with
  | @intro f₀ f₁ hne h₀ h₁ =>
    refine ⟨rfl, rfl, fun f => ?_⟩
    have hnaming := Process.naming_pair (f := f) hx
    have hsame : ((c.setFile f₀ { c.files f₀ with
        refcnt := 1, type := .device, readable := true }).setFile f₁ { c.files f₁ with
          refcnt := 1, type := .device, writable := true }).descriptors f = c.descriptors f := rfl
    rw [hsame, hnaming, setFile_files]
    by_cases he₁ : f = f₁
    · rw [he₁, Function.update_self, h.unused h₁, if_neg hne]
      simp
    · rw [Function.update_of_ne he₁, if_neg (Ne.symm he₁), setFile_files]
      by_cases he₀ : f = f₀
      · rw [he₀, Function.update_self, h.unused h₀]
        simp
      · rw [Function.update_of_ne he₀, if_neg (Ne.symm he₀)]
        simpa using h f

theorem forked {files : Fin nofile → Option FileId} {c₁ c₂ : Core} {child : ℕ} {y : Process}
    {M : AddSubgroup (Slot → ℤ)} {d : Slot → ℤ} (h : c.Counted) (hm : Made c files c₁)
    (hmoves : Moves M d (c₁.addRefs fun f => (c.procs p).naming f) c₂) (hnew : child ∉ c.live)
    (hy : y.ofile = fun i => ((c.procs p).ofile i).or (files i)) :
    (c₂.setProc child y).Counted := fun f => by
  obtain ⟨hlive, hprocs, hmade⟩ := h.made hm (x := { c.procs p with ofile := files }) rfl
  have hle : y.naming f ≤ (c.procs p).naming f +
      { c.procs p with ofile := files }.naming f := by
    rw [Process.naming_eq_sum, Process.naming_eq_sum, Process.naming_eq_sum,
      ← Finset.sum_add_distrib]
    refine Finset.sum_le_sum fun i _ => ?_
    simp only [hy]
    rcases (c.procs p).ofile i with _ | g
    · rw [Option.none_or]
      exact Nat.le_add_left _ _
    · rw [Option.some_or]
      exact Nat.le_add_right _ _
  have hlive₂ : c₂.live = c.live := hmoves.live.trans hlive
  have hdesc : c₂.descriptors f = c₁.descriptors f :=
    descriptors_congr hmoves.live hmoves.procs
  have hfiles : (c₂.files f).refcnt = (c₁.files f).refcnt + (c.procs p).naming f := by
    rw [hmoves.files]
    rfl
  have hf := hmade f
  rw [descriptors_setProc_new (by rwa [hlive₂]), setProc_files, hfiles, hdesc]
  omega

end Counted

theorem Counted.safe (h : c.Counted) : c.FilesSafe where
  counted := h
  close sb p fd := by
    unfold sysClose
    rw [ends_bind, ends_proc]
    intro hp
    cases hfd : checkfd (c.procs p) fd with
    | none => exact fun _ _ _ _ _ => ⟨rfl, rfl, rfl⟩
    | some x =>
      dsimp only
      rw [ends_bind, ends_setProc, ends_bind]
      refine (x.2.close_ends sb _).mono fun _ c' hc q hq i f hi => ?_
      obtain ⟨-, hlive, hprocs, hfiles⟩ := h.setFd_closed hp (checkfd_some hfd) hc
      have hlive' : (c.setFd p x.1 none).live = c.live := Finset.insert_eq_of_mem hp
      rw [hlive, ← hlive'] at hq
      rw [hprocs] at hi
      exact hfiles f (descriptors_pos hq hi)
  falloc := by
    refine (falloc_ends c).mono fun r c' hr f hf q hq i hi => ?_
    rw [Option.mem_def] at hf
    subst hf
    have hpos := descriptors_pos hq hi
    rw [h.unused hr.1] at hpos
    exact absurd hpos (lt_irrefl 0)

end Core

variable {τ : Type} {sb : Superblock} {J : Outside τ} {s : State τ}

/-- Where `sys_dup` finds a file and a free descriptor, the file has a reference to spare. -/
def Spares (s : State τ) : Event → Prop
  | .dup p fd => ∀ x ∈ checkfd (s.1.procs p) fd, (∃ i, (s.1.procs p).ofile i = none) →
      (s.1.descriptors x.2 : ℤ) < (s.1.files x.2).refcnt
  | _ => True

theorem sysDup_spares {p : ℕ} {fd : ℤ} (h : s.1.Counted) (hs : Spares s (.dup p fd)) :
    Ends (sysDup p fd) s.1 fun _ c' => c'.Counted := by
  unfold sysDup
  rw [ends_bind, ends_proc]
  intro hp
  cases hfd : checkfd (s.1.procs p) fd with
  | none => exact h
  | some x =>
    refine (fdalloc_ends s.1 x.2 p).bind fun r c' hr => ?_
    cases r with
    | none =>
      subst hr
      exact h
    | some j =>
      obtain ⟨hfree, rfl⟩ := hr
      have hspare := hs x hfd ⟨j, hfree⟩
      rw [ends_pure]
      intro f
      have hd := Core.descriptors_setFd (f := f) (i := j) (o := some x.2) hp
      have hf := h f
      rw [hfree] at hd
      simp only [reduceCtorEq, if_false, add_zero, Option.some.injEq] at hd
      rw [hd]
      change _ ≤ (s.1.files f).refcnt
      split_ifs with he
      · rw [← he]
        omega
      · exact hf

theorem Core.Counted.effect {M : AddSubgroup (Slot → ℤ)} {c c' : Core} {e : Event}
    (h : c.Counted) (hen : e.Enabled c) (hdup : ∀ p fd, e ≠ .dup p fd) (he : Effect M c e c') :
    c'.Counted := by
  have hp := hen.1.1
  cases he with
  | idle hm => exact h.moves hm
  | open_ hm ho => exact (h.moves hm).opened (by rwa [hm.live]) ho
  | close hi hc => exact (h.setFd_closed hp hi hc).1
  | dup _ _ => exact absurd rfl (hdup _ _)
  | @chdir p _ ip c₁ hm =>
    intro f
    have hp : p ∈ c.live := hp
    have hd := Core.descriptors_setProc (c := c₁) (f := f) (x := { c.procs p with cwd := ip })
      (by rwa [hm.live])
    have hsame : { c.procs p with cwd := ip }.naming f = (c₁.procs p).naming f := by
      rw [hm.procs]
      rfl
    rw [hsame, Nat.add_right_cancel_iff] at hd
    rw [hd]
    exact h.moves hm f
  | give hm =>
    obtain ⟨-, -, hmade⟩ := h.made hm (x := { c.procs 0 with ofile := _ }) rfl
    intro f
    have hf := hmade f
    omega
  | fork hm hmoves => exact h.forked hm hmoves hen.2 rfl
  | @exit p =>
    intro f
    have hp : p ∈ c.live := hp
    have hd := Core.descriptors_setProc (c := c) (f := f)
      (x := { c.procs p with exited := true }) hp
    have hsame : { c.procs p with exited := true }.naming f = (c.procs p).naming f := rfl
    rw [hsame, Nat.add_right_cancel_iff] at hd
    rw [hd]
    exact h f
  | @wait p child =>
    intro f
    have hle := c.descriptors_freeProc child f
    have hf := h f
    change ((c.freeProc child).descriptors f : ℤ) ≤ (c.files f).refcnt
    omega

theorem Core.Counted.step {s' : State τ} {e : Event} (h : s.1.Counted) (hen : e.Enabled s.1)
    (hs : Spares s e) (hr : exec J (e.prog sb) s = .ok (s', ())) : s'.1.Counted := by
  by_cases hdup : ∃ p fd, e = .dup p fd
  · obtain ⟨p, fd, rfl⟩ := hdup
    have hw : Prog.Wp (known.extend J) (fun _ => True) (Event.prog sb (.dup p fd)) s
        fun _ s' => s'.1.Counted := (sysDup_spares h hs).wp.bind fun _ _ h => h
    exact hw.of_exec hr
  · exact h.effect hen (fun p fd he => hdup ⟨p, fd, he⟩)
      ((Event.effect sb J hen (tame_top sb J e)).of_exec hr)

theorem Core.Counted.booted {M : AddSubgroup (Slot → ℤ)} {p : ℕ} {c : Core}
    (h : Booted M Core.init p c) : c.Counted := by
  cases h with
  | @intro files ip c₁ c₂ hm hmoves =>
    have hinit : Core.init.Counted := fun f => le_rfl
    obtain ⟨hlive, -, hmade⟩ := hinit.made hm (x := ⟨files, ip, none, false⟩) rfl
    intro f
    have hf := hmade f
    rw [Core.descriptors_setProc_new (by rw [hmoves.live, hlive]; exact Finset.notMem_empty p),
      Core.descriptors_congr hmoves.live hmoves.procs, Core.setProc_files, hmoves.files]
    exact_mod_cast hf

end Multiplix.Fs
