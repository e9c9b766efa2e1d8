import Mathlib.Algebra.BigOperators.Pi
import Mathlib.Algebra.BigOperators.Ring.Finset
import Multiplix.Fs.Effect

/-! The references that the processes and the open files account for. A run whose only process is
the first one, and whose paths start at the root, gives back what it takes. -/
namespace Multiplix.Fs
open Lib

/-- The reference that an open file has to its inode. -/
def File.holds (x : File) : Slot → ℤ := if 0 < x.refcnt then held x.ip else 0

theorem File.holds_apply (x : File) (ip : Slot) :
    x.holds ip = if 0 < x.refcnt ∧ x.ip = some ip then 1 else 0 := by
  unfold holds
  by_cases hx : 0 < x.refcnt
  · rw [if_pos hx]
    cases hip : x.ip with
    | none => simp
    | some ip' => simp [hx, Pi.single_apply, eq_comm]
  · simp [hx]

theorem File.holds_unused {x : File} (h : x.refcnt = 0) : x.holds = 0 := if_neg (by omega)

theorem File.holds_used {x : File} {ip : Slot} (h : x.refcnt = 1) (hip : x.ip = some ip) :
    x.holds = Pi.single ip 1 := by
  unfold holds
  rw [if_pos (by omega), hip, held_some]

namespace Core

/-- What the open files hold. -/
def holds (c : Core) : Slot → ℤ := ∑ f, (c.files f).holds

theorem holds_setFile (c : Core) (f : FileId) (x : File) :
    (c.setFile f x).holds = c.holds - (c.files f).holds + x.holds := by
  have hupdate : (fun f' => (Function.update c.files f x f').holds) =
      Function.update (fun f' => (c.files f').holds) f x.holds := by
    funext f'
    by_cases he : f' = f
    · rw [he, Function.update_self, Function.update_self]
    · rw [Function.update_of_ne he, Function.update_of_ne he]
  unfold holds
  rw [setFile_files, hupdate, Finset.sum_update_of_mem (Finset.mem_univ f),
    Finset.sum_eq_add_sum_sdiff_singleton_of_mem (Finset.mem_univ f)]
  abel

/-- Every open file is one of a process, and the count of every inode is that of the processes and
open files that point to it. -/
def Released (c : Core) : Prop :=
  (∀ f, 0 < (c.files f).refcnt → ∃ p ∈ c.live, ∃ fd, (c.procs p).ofile fd = some f) ∧
  ∀ ip, (c.inodes ip).refcnt = (c.live.filter fun p => (c.procs p).cwd = ip).card +
    (Finset.univ.filter fun f => 0 < (c.files f).refcnt ∧ (c.files f).ip = some ip).card

/-- A file as the first process leaves it: unused, or open under some descriptor. -/
def Kept (x : File) (ofile : Fin nofile → Option FileId) (f : FileId) : Prop :=
  x.refcnt = 0 ∧ x.type = .none ∨
    x.refcnt = 1 ∧ (x.type = .inode ∨ x.type = .device) ∧ ∃ fd, ofile fd = some f

/-- The first process is the only one, and `e` are references that it has in hand. -/
structure Settled (c : Core) (p : ℕ) (e : Slot → ℤ) : Prop where
  live : c.live = {p}
  files : ∀ f, Kept (c.files f) (c.procs p).ofile f
  refs : c.refs = Pi.single (c.procs p).cwd 1 + c.holds + e

namespace Settled

variable {c c' : Core} {p : ℕ} {d e : Slot → ℤ}

theorem released (h : c.Settled p 0) : c.Released := by
  refine ⟨fun f hf => ?_, fun ip => ?_⟩
  · refine ⟨p, by rw [h.live]; exact Finset.mem_singleton_self p, ?_⟩
    rcases h.files f with ⟨hunused, -⟩ | ⟨-, -, hfd⟩
    · omega
    · exact hfd
  · have hcwd : ((c.live.filter fun p => (c.procs p).cwd = ip).card : ℤ) =
        (Pi.single (c.procs p).cwd 1 : Slot → ℤ) ip := by
      rw [h.live, Finset.filter_singleton, Pi.single_apply]
      by_cases he : (c.procs p).cwd = ip
      · simp [he]
      · simp [he, Ne.symm he]
    have hholds : ((Finset.univ.filter fun f =>
        0 < (c.files f).refcnt ∧ (c.files f).ip = some ip).card : ℤ) = c.holds ip := by
      unfold holds
      simp only [Finset.sum_apply, File.holds_apply, Finset.sum_boole]
    have hrefs := congrFun h.refs ip
    rw [add_zero, Pi.add_apply] at hrefs
    rw [hcwd, hholds, ← hrefs]
    rfl

theorem moves (h : c.Settled p e) (hm : Moves ⊥ d c c') : c'.Settled p (e + d) where
  live := hm.live.trans h.live
  files f := by
    rw [hm.files, hm.procs]
    exact h.files f
  refs := by
    have hholds : c'.holds = c.holds := by
      unfold holds
      rw [hm.files]
    rw [hm.refs_eq, h.refs, hm.procs, hholds, add_assoc]

theorem setFile {f : FileId} {x : File} (h : c.Settled p e) (hx : Kept x (c.procs p).ofile f) :
    (c.setFile f x).Settled p (e + (c.files f).holds - x.holds) where
  live := h.live
  files f' := by
    by_cases he : f' = f
    · rw [he, setFile_files, Function.update_self]
      exact hx
    · rw [setFile_files, Function.update_of_ne he]
      exact h.files f'
  refs := by
    rw [holds_setFile, setFile_procs]
    refine h.refs.trans ?_
    abel

theorem setProc {x : Process} (h : c.Settled p e)
    (hx : ∀ f fd, (c.procs p).ofile fd = some f → (c.files f).refcnt ≠ 0 →
      ∃ fd, x.ofile fd = some f) :
    (c.setProc p x).Settled p (e + Pi.single (c.procs p).cwd 1 - Pi.single x.cwd 1) where
  live := by rw [setProc_live, h.live, Finset.insert_eq_of_mem (Finset.mem_singleton_self p)]
  files f := by
    rw [setProc_files, setProc_procs, Function.update_self]
    refine (h.files f).imp_right fun ⟨hused, htype, fd, hfd⟩ => ⟨hused, htype, ?_⟩
    exact hx f fd hfd (by omega)
  refs := by
    rw [setProc_procs, Function.update_self]
    refine h.refs.trans ?_
    change _ = Pi.single x.cwd 1 + c.holds + _
    abel

theorem setFd {i : Fin nofile} {o : Option FileId} (h : c.Settled p e)
    (hi : ∀ f, (c.procs p).ofile i = some f → (c.files f).refcnt = 0) :
    (c.setFd p i o).Settled p e := by
  have hset := h.setProc (x := { c.procs p with
    ofile := Function.update (c.procs p).ofile i o }) fun f fd hfd hused => ⟨fd, ?_⟩
  · rwa [add_sub_cancel_right] at hset
  · have hne : fd ≠ i := by
      intro he
      rw [he] at hfd
      exact hused (hi f hfd)
    exact (Function.update_of_ne hne _ _).trans hfd

/-- The process gives up a file with the descriptor that it was given. -/
theorem closed {i : Fin nofile} {f : FileId} (h : c.Settled p e)
    (hi : (c.procs p).ofile i = some f) (hc : Closed (c.setFd p i none) f c') :
    c'.Settled p e := by
  have hkept := h.files f
  cases hc with
  | shared hshared =>
    have hmany : 1 < (c.files f).refcnt := hshared
    rcases hkept with ⟨hcount, -⟩ | ⟨hcount, -⟩
    · omega
    · omega
  | plain hlast hinode hdevice =>
    have hone : (c.files f).refcnt = 1 := hlast
    rcases hkept with ⟨hcount, -⟩ | ⟨-, htype, -⟩
    · omega
    · exact absurd htype (not_or.mpr ⟨hinode, hdevice⟩)
  | @last ip _ hlast _ hip hm =>
    have hholds : (c.files f).holds = Pi.single ip 1 := File.holds_used hlast hip
    have hs := h.setFile (f := f) (x := { c.files f with refcnt := 0, type := .none })
      (Or.inl ⟨rfl, rfl⟩)
    rw [hholds, File.holds_unused rfl, sub_zero] at hs
    have hfree : ∀ f', ((c.setFile f { c.files f with
        refcnt := 0, type := .none }).procs p).ofile i = some f' →
        ((c.setFile f { c.files f with refcnt := 0, type := .none }).files f').refcnt = 0 := by
      intro f' hf'
      rw [setFile_procs, hi] at hf'
      cases hf'
      rw [setFile_files, Function.update_self]
    have hd := (hs.setFd (o := none) hfree).moves hm
    rwa [add_neg_cancel_right] at hd

theorem opened {ip : Slot} (h : c.Settled p (Pi.single ip 1)) (ho : Opened c p ip c') :
    c'.Settled p 0 := by
  cases ho with
  | full hm =>
    have hs := h.moves hm
    rwa [add_neg_cancel] at hs
  | @busy f c₁ _ hunused hc hm =>
    -- the file is closed as it was found
    have htype : (c.files f).type = .none := by
      rcases h.files f with ⟨-, htype⟩ | ⟨hcount, -⟩
      · exact htype
      · omega
    rw [hc.eq hunused htype] at hm
    have hs := h.moves hm
    rwa [add_neg_cancel] at hs
  | @done f fd x _ hunused hfree hx hip htype hm =>
    have hd : (c.setFd p fd (some f)).Settled p (Pi.single ip 1) := by
      refine h.setFd fun f' hf' => ?_
      rw [hfree] at hf'
      cases hf'
    have hs := hd.setFile (f := f) (x := x) (Or.inr ⟨hx, htype, fd, ?_⟩)
    · have hholds : ((c.setFd p fd (some f)).files f).holds = 0 := File.holds_unused hunused
      rw [hholds, File.holds_used hx hip, add_zero, sub_self] at hs
      have hm' := hs.moves hm
      rwa [add_zero] at hm'
    · unfold Core.setFd
      rw [setProc_procs, Function.update_self]
      exact Function.update_self _ _ _

end Settled

/-- The files of the first process have no inode that they could hold. -/
theorem Made.settled {files : Fin nofile → Option FileId} (h : Made Core.init files c) :
    c.live = ∅ ∧ c.refs = 0 ∧ c.holds = 0 ∧ ∀ f, Kept (c.files f) files f := by
  cases h with
  | @intro f₀ f₁ hne h₀ h₁ =>
    have hinit : Core.init.holds = 0 := Finset.sum_eq_zero fun f _ => rfl
    refine ⟨rfl, rfl, ?_, fun f => ?_⟩
    · rw [holds_setFile, holds_setFile, hinit, setFile_files, Function.update_of_ne hne.symm]
      rfl
    · by_cases he₁ : f = f₁
      · rw [he₁, setFile_files, Function.update_self]
        exact Or.inr ⟨rfl, Or.inr rfl, ⟨1, by decide⟩, rfl⟩
      · rw [setFile_files, Function.update_of_ne he₁, setFile_files]
        by_cases he₀ : f = f₀
        · rw [he₀, Function.update_self]
          exact Or.inr ⟨rfl, Or.inr rfl, ⟨0, by decide⟩, rfl⟩
        · rw [Function.update_of_ne he₀]
          exact Or.inl ⟨rfl, rfl⟩

theorem Booted.settled {p : ℕ} (h : Booted ⊥ Core.init p c) : c.Settled p 0 := by
  cases h with
  | @intro files ip c₁ c₂ hmade hm =>
    obtain ⟨hlive, hrefs, hholds, hfiles⟩ := Made.settled hmade
    refine ⟨?_, fun f => ?_, ?_⟩
    · rw [setProc_live, hm.live, hlive, insert_empty_eq]
    · rw [setProc_files, setProc_procs, Function.update_self, hm.files]
      exact hfiles f
    · have hrefs₂ := hm.refs_eq
      have hholds₂ : c₂.holds = 0 := by
        rw [← hholds]
        unfold holds
        rw [hm.files]
      rw [hrefs, zero_add] at hrefs₂
      rw [setProc_procs, Function.update_self]
      change c₂.refs = Pi.single ip 1 + c₂.holds + 0
      rw [hrefs₂, hholds₂, add_zero, add_zero]

end Core

variable {τ : Type} (sb : Superblock) (J : Outside τ)

/-- No fork finds memory for a child, paths start at the root, and a file that is created is not
found when its directory is entered in. -/
def Regular (s : State τ) : Event → Prop
  | .fork _ child _ => child = none
  | .open_ p path mode => Rooted J s path ∧ (mode &&& Mode.CREATE ≠ 0 →
      exec J (create sb (s.1.procs p).cwd path T_FILE 0 0) s =
        exec J (createWith sb (Slot.linkNew sb) (s.1.procs p).cwd path T_FILE 0 0) s)
  | .chdir _ path => Rooted J s path
  | _ => True

theorem Regular.tame {s : State τ} {e : Event} (h : Regular sb J s e) : Tame sb J ⊥ s e := by
  cases e with
  | open_ p path mode =>
    obtain ⟨hroot, hcreate⟩ := h
    refine ⟨Or.inl hroot, fun hmode => ?_⟩
    have ht : Takes J ⊥ s (s.1.procs p).cwd path 0 := takes_none (Or.inl hroot)
    have hnew := ht.createWith sb (fun ip => ip.quiet_linkNew sb) T_FILE 0 0
    simp only [sub_zero] at hnew
    exact (Prog.wp_congr (hcreate hmode)).mpr hnew
  | chdir p path => exact Or.inl h
  | _ => trivial

variable {sb J}

theorem Core.Settled.effect {s : State τ} {p : ℕ} {e : Event} {c' : Core} (h : s.1.Settled p 0)
    (hen : e.Enabled s.1) (hreg : Regular sb J s e) (he : Effect ⊥ s.1 e c') :
    c'.Settled p 0 := by
  have hactor : e.actor = p := by
    have hlive := hen.1.1
    rwa [h.live, Finset.mem_singleton] at hlive
  cases he with
  | idle hm =>
    have hs := h.moves hm
    rwa [add_zero] at hs
  | open_ hm ho =>
    subst hactor
    have hs := h.moves hm
    rw [zero_add] at hs
    exact hs.opened ho
  | close hi hc =>
    subst hactor
    exact h.closed hi hc
  | dup _ hj =>
    subst hactor
    refine h.setFd fun f hf => ?_
    cases hf.symm.trans hj
  | @chdir q _ ip c₁ hm =>
    have hq : q = p := hactor
    subst hq
    have hnet : 0 + (Pi.single ip 1 - Pi.single (s.1.procs q).cwd 1) +
        Pi.single (s.1.procs q).cwd 1 - Pi.single ip 1 = (0 : Slot → ℤ) := by abel
    have hs := (h.moves hm).setProc (x := { s.1.procs q with cwd := ip }) fun f fd hfd _ => ⟨fd, ?_⟩
    · dsimp only at hs
      rwa [hm.procs, hnet] at hs
    · rwa [hm.procs] at hfd
  | give _ => cases hreg
  | fork _ _ => cases hreg
  | @exit q =>
    have hq : q = p := hactor
    subst hq
    have hs := h.setProc (x := { s.1.procs q with exited := true }) fun f fd hfd _ => ⟨fd, hfd⟩
    dsimp only at hs
    rwa [add_sub_cancel_right] at hs
  | wait =>
    -- the only process is not waited for while it runs
    obtain ⟨⟨-, hruns⟩, hchild, hexited, -⟩ := hen
    rw [h.live, Finset.mem_singleton] at hchild
    rw [hchild, ← hactor] at hexited
    cases hruns.symm.trans hexited

end Multiplix.Fs
