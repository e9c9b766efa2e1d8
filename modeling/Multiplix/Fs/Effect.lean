import Multiplix.Fs.Files

/-! What the system calls come to, for the tables of inodes, files and processes. -/
namespace Multiplix.Fs
open Lib

/-- The changes that an event can make, with reference counts of inodes up to a difference in `M`
where that is not said to be exact. -/
inductive Effect (M : AddSubgroup (Slot → ℤ)) (c : Core) : Event → Core → Prop
  | idle {e : Event} {c' : Core} : Moves M 0 c c' → Effect M c e c'
  | open_ {p path mode : ℕ} {ip : Slot} {c₁ c' : Core} : Moves M (Pi.single ip 1) c c₁ →
      Opened c₁ p ip c' → Effect M c (.open_ p path mode) c'
  | close {p : ℕ} {fd : ℤ} {i : Fin nofile} {f : FileId} {c' : Core} :
      (c.procs p).ofile i = some f → Closed (c.setFd p i none) f c' → Effect M c (.close p fd) c'
  | dup {p : ℕ} {fd : ℤ} {i j : Fin nofile} {f : FileId} : (c.procs p).ofile i = some f →
      (c.procs p).ofile j = none → Effect M c (.dup p fd) (c.setFd p j (some f))
  | chdir {p path : ℕ} {ip : Slot} {c₁ : Core} :
      Moves M (Pi.single ip 1 - Pi.single (c.procs p).cwd 1) c c₁ →
      Effect M c (.chdir p path) (c₁.setProc p { c.procs p with cwd := ip })
  /-- The child is given up. -/
  | give {p child : ℕ} {files : Fin nofile → Option FileId} {c' : Core} : Made c files c' →
      Effect M c (.fork p (some child) false) c'
  | fork {p child : ℕ} {files : Fin nofile → Option FileId} {c₁ c₂ : Core} : Made c files c₁ →
      Moves M (Pi.single (c.procs p).cwd 1)
        (c₁.addRefs fun f => (List.finRange nofile).countP fun fd => (c.procs p).ofile fd = some f)
        c₂ →
      Effect M c (.fork p (some child) true) (c₂.setProc child
        ⟨fun fd => ((c.procs p).ofile fd).or (files fd), (c.procs p).cwd, some p, false⟩)
  | exit {p : ℕ} : Effect M c (.exit p) (c.setProc p { c.procs p with exited := true })
  | wait {p child : ℕ} : Effect M c (.wait p child) (c.freeProc child)

variable {τ : Type} (sb : Superblock) (J : Outside τ) {M : AddSubgroup (Slot → ℤ)} {s : State τ}
  (p : ℕ)

theorem exec_proc (hp : p ∈ s.1.live) : exec J (proc p) s = .ok (s, s.1.procs p) := by
  have hknown : known (.proc p) s.1 = some (.ok (s.1, s.1.procs p)) := if_pos hp
  unfold exec proc Prog.perform Prog.exec Prog.Part.extend
  rw [hknown]
  rfl

theorem wp_proc {Q : Process → State τ → Prop} (hp : p ∈ s.1.live) (h : Q (s.1.procs p) s) :
    Prog.Wp (known.extend J) (fun _ => True) (proc p) s Q := by
  have hexec : (proc p).exec (known.extend J) s = .ok (s, s.1.procs p) := exec_proc J p hp
  unfold Prog.Wp
  rw [hexec]
  exact h

theorem checkfd_some {x : Process} {fd : ℤ} {i : Fin nofile} {f : FileId}
    (h : checkfd x fd = some (i, f)) : x.ofile i = some f := by
  unfold checkfd at h
  split_ifs at h
  obtain ⟨f', hf, he⟩ := Option.map_eq_some_iff.mp h
  cases he
  exact hf

section Calls

variable (c : Core)

theorem sysClose_ends (fd : ℤ) : Ends (sysClose sb p fd) c fun _ c' =>
    Effect M c (.close p fd) c' := by
  unfold sysClose
  rw [ends_bind, ends_proc]
  intro _
  cases hfd : checkfd (c.procs p) fd with
  | none => exact .idle (.refl _)
  | some x =>
    dsimp only
    rw [ends_bind, ends_setProc, ends_bind]
    exact (x.2.close_ends sb _).mono fun _ c' h => .close (checkfd_some hfd) h

theorem sysFstat_ends (fd : ℤ) (st : ℕ) : Ends (sysFstat sb p fd st) c fun _ c' =>
    Effect M c (.fstat p fd st) c' := by
  unfold sysFstat
  rw [ends_bind, ends_proc]
  intro _
  cases checkfd (c.procs p) fd with
  | none => exact .idle (.refl _)
  | some x => exact (x.2.quiet_stat sb st c).mono fun _ c' h => .idle h

theorem sysDup_ends (fd : ℤ) : Ends (sysDup p fd) c fun _ c' => Effect M c (.dup p fd) c' := by
  unfold sysDup
  rw [ends_bind, ends_proc]
  intro _
  cases hfd : checkfd (c.procs p) fd with
  | none => exact .idle (.refl _)
  | some x =>
    refine (fdalloc_ends c x.2 p).bind fun r c' h => ?_
    cases r with
    | none =>
      subst h
      exact .idle (.refl _)
    | some j =>
      obtain ⟨hfree, rfl⟩ := h
      exact .dup (checkfd_some hfd) hfree

theorem Made.procs {c c' : Core} {files : Fin nofile → Option FileId} (h : Made c files c') :
    c'.procs = c.procs := by
  cases h
  rfl

theorem makeFromParent_ends (child : ℕ) (mapped : Bool) :
    Ends (makeFromParent p child mapped) c fun _ c' =>
      Effect M c (.fork p (some child) mapped) c' := by
  unfold makeFromParent
  refine (makeEmpty_ends c).bind fun files c₁ hmade => ?_
  cases mapped with
  | false => exact .give hmade
  | true =>
    rw [if_neg (by decide), ends_bind, ends_proc, hmade.procs]
    intro _
    refine (dupFiles_ends c₁ _ _ files).bind fun r c₂ ⟨hr, hc₂⟩ => ?_
    refine ((c.procs p).cwd.dup_ends (M := M) c₂).bind fun cwd c₃ ⟨hcwd, h₃⟩ => ?_
    subst hcwd hc₂
    have hfiles : r = fun fd => ((c.procs p).ofile fd).or (files fd) := by
      funext fd
      rw [hr, if_pos (List.mem_finRange fd)]
    rw [ends_bind, ends_setProc, ends_pure, hfiles]
    exact .fork hmade h₃

end Calls

section Paths

variable (hp : p ∈ s.1.live) {path : ℕ} {e : Slot → ℤ}
  (ht : Takes J M s (s.1.procs p).cwd path e)

include hp ht

/-- What the path takes is missing from the directory of the process. -/
theorem sysOpen_wp {mode : ℕ} (hcreate : mode &&& Mode.CREATE ≠ 0 →
    Drives J M s (create sb (s.1.procs p).cwd path T_FILE 0 0) fun r => held r - e) :
    Prog.Wp (known.extend J) (fun _ => True) (sysOpen sb p path mode) s fun _ s' =>
      Effect M (s.1.lost e) (.open_ p path mode) s'.1 := by
  unfold sysOpen
  rw [Prog.wp_bind]
  apply wp_proc J p hp
  refine (ht.openInode sb hcreate).bind fun r s₁ h₁ => ?_
  cases r with
  | none => exact .idle h₁.lost
  | some ip => exact (openFile_ends sb s₁.1 p ip mode).wp.mono fun _ s' h => .open_ h₁.lost h

theorem sysChdir_wp : Prog.Wp (known.extend J) (fun _ => True) (sysChdir sb p path) s fun _ s' =>
    Effect M (s.1.lost e) (.chdir p path) s'.1 := by
  unfold sysChdir
  rw [Prog.wp_bind]
  apply wp_proc J p hp
  refine (ht.namei sb).bind fun r s₁ h₁ => ?_
  cases r with
  | none => exact .idle h₁.lost
  | some ip =>
    have hgone : Shifts M (do ip.unlockput sb; pure (-1) : FsM ℤ) fun _ => -Pi.single ip 1 := by
      apply (Slot.shifts_unlockput sb ip).then
      intro _
      exact .pure (sub_self _)
    have hrest : Ends (do
        ip.lock sb
        let i ← inode ip
        if i.type ≠ T_DIR then do
          ip.unlockput sb
          pure (-1)
        else do
          ip.unlock
          (s.1.procs p).cwd.put sb
          setProc p { s.1.procs p with cwd := ip }
          pure 0 : FsM ℤ) s₁.1 fun _ c' => Effect M (s.1.lost e) (.chdir p path) c' := by
      refine (Slot.quiet_lock (M := M) sb ip s₁.1).bind fun _ c₂ h₂ => ?_
      have h₀₂ := h₁.lost.trans h₂
      rw [add_zero, held_some] at h₀₂
      rw [ends_bind, ends_inode]
      split_ifs
      · refine (hgone c₂).mono fun _ c' h => .idle ?_
        have hsum := h₀₂.trans h
        rwa [add_neg_cancel] at hsum
      · refine (ip.quiet_unlock (M := M) c₂).bind fun _ c₃ h₃ => ?_
        refine ((s.1.procs p).cwd.shifts_put (M := M) sb c₃).bind fun _ c₄ h₄ => ?_
        rw [ends_bind, ends_setProc, ends_pure]
        refine .chdir (c := s.1.lost e) ?_
        have hsum := (h₀₂.trans h₃).trans h₄
        rwa [add_zero, ← sub_eq_add_neg] at hsum
    exact hrest.wp

end Paths

/-- The first process, made from these tables. -/
inductive Booted (M : AddSubgroup (Slot → ℤ)) (c : Core) (p : ℕ) : Core → Prop
  | intro {files : Fin nofile → Option FileId} {ip : Slot} {c₁ c₂ : Core} : Made c files c₁ →
      Moves M (Pi.single ip 1) c₁ c₂ → Booted M c p (c₂.setProc p ⟨files, ip, none, false⟩)

theorem makeFromElf_ends (c : Core) : Ends (makeFromElf p) c fun _ c' => Booted M c p c' := by
  unfold makeFromElf
  refine (makeEmpty_ends c).bind fun files c₁ hmade => ?_
  refine (shifts_iget (M := M) ROOTDEV ROOTINO c₁).bind fun ip c₂ h => ?_
  exact .intro hmade h

/-- Where the event looks up a path, reference counts move as `M` lets them. -/
def Tame (M : AddSubgroup (Slot → ℤ)) (s : State τ) : Event → Prop
  | .open_ p path mode => (Rooted J s path ∨ Pi.single (s.1.procs p).cwd 1 ∈ M) ∧
      (mode &&& Mode.CREATE ≠ 0 →
        Drives J M s (create sb (s.1.procs p).cwd path T_FILE 0 0) held)
  | .chdir p path => Rooted J s path ∨ Pi.single (s.1.procs p).cwd 1 ∈ M
  | _ => True

/-- Up to any difference every event is tame. -/
theorem tame_top (e : Event) : Tame sb J ⊤ s e := by
  have hcwd : Pi.single (s.1.procs e.actor).cwd (1 : ℤ) ∈ (⊤ : AddSubgroup (Slot → ℤ)) :=
    AddSubgroup.mem_top _
  cases e with
  | open_ p path mode =>
    refine ⟨Or.inr hcwd, fun _ => ?_⟩
    have ht : Takes J ⊤ s (s.1.procs p).cwd path 0 := takes_none (Or.inr hcwd)
    have hcreate := ht.createWith sb (fun ip => ip.quiet_link sb) T_FILE 0 0
    simp only [sub_zero] at hcreate
    exact hcreate
  | chdir p path => exact Or.inr hcwd
  | _ => trivial

theorem Event.effect {e : Event} (he : e.Enabled s.1) (ht : Tame sb J M s e) :
    Prog.Wp (known.extend J) (fun _ => True) (e.prog sb) s fun _ s' => Effect M s.1 e s'.1 := by
  have hp : e.actor ∈ s.1.live := he.1.1
  cases e with
  | open_ p path mode =>
    have hcreate (hmode : mode &&& Mode.CREATE ≠ 0) :
        Drives J M s (create sb (s.1.procs p).cwd path T_FILE 0 0) fun r => held r - 0 := by
      simp only [sub_zero]
      exact ht.2 hmode
    have hopen := sysOpen_wp sb J p hp (takes_none ht.1) hcreate
    rw [Core.lost_zero] at hopen
    exact hopen.bind fun _ _ h => h
  | close p fd => exact (sysClose_ends sb p s.1 fd).wp.bind fun _ _ h => h
  | fstat p fd st => exact (sysFstat_ends sb p s.1 fd st).wp.bind fun _ _ h => h
  | dup p fd => exact (sysDup_ends p s.1 fd).wp.bind fun _ _ h => h
  | chdir p path =>
    have hchdir := sysChdir_wp sb J p hp (takes_none ht)
    rw [Core.lost_zero] at hchdir
    exact hchdir.bind fun _ _ h => h
  | fork p child mapped =>
    cases child with
    | none => exact .idle (.refl _)
    | some child => exact (makeFromParent_ends p s.1 child mapped).wp.bind fun _ _ h => h
  | exit p =>
    unfold prog modifyProc
    rw [Prog.wp_bind]
    exact wp_proc J p hp .exit
  | wait p child => exact Effect.wait

theorem booted_of_exec {c : Core} {t : τ}
    (h : exec J (makeFromElf p) (c, t) = .ok (s, ())) : Booted M c p s.1 := by
  have hw : Prog.Wp (known.extend J) (fun _ => True) (makeFromElf p) (c, t) fun _ s' =>
      Booted M c p s'.1 := Ends.wp (s := (c, t)) (makeFromElf_ends p c)
  exact hw.of_exec h

/-- What the first process has and every effect keeps holds on the whole run. -/
theorem Reachable.inv {ok : State τ → Event → Prop} {I : Core → Prop}
    (hok : ∀ s e, ok s e → Tame sb J M s e)
    (hboot : ∀ p c, Booted M Core.init p c → I c)
    (hstep : ∀ s e c', I s.1 → e.Enabled s.1 → ok s e → Effect M s.1 e c' → I c')
    (h : Reachable sb J ok s) : I s.1 := by
  induction h with
  | @boot t p s he =>
    exact hboot p s.1 (booted_of_exec J p he)
  | @step s s' e _ hen hoke he ih =>
    exact hstep s e s'.1 ih hen hoke ((Event.effect sb J hen (hok s e hoke)).of_exec he)

end Multiplix.Fs
