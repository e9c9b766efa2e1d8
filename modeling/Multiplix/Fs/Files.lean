import Multiplix.Fs.Refs

/-! What the programs on open files do to the tables, whatever the disk holds. -/
namespace Multiplix.Fs
open Lib

variable (sb : Superblock) (c : Core) (f : FileId) (p : ℕ)

/-- The first unused file gets a reference. The rest of it stays as it was left. -/
theorem fallocLoop_ends (l : List FileId) : Ends (fallocLoop l) c fun r c' =>
    match r with
    | none => c' = c
    | some f => (c.files f).refcnt = 0 ∧ c' = c.setFile f { c.files f with refcnt := 1 } := by
  induction l with
  | nil => exact rfl
  | cons f l ih =>
    unfold fallocLoop
    rw [ends_bind, ends_file]
    split_ifs with hunused
    · exact ⟨hunused, rfl⟩
    · exact ih

theorem falloc_ends : Ends falloc c fun r c' =>
    match r with
    | none => c' = c
    | some f => (c.files f).refcnt = 0 ∧ c' = c.setFile f { c.files f with refcnt := 1 } :=
  fallocLoop_ends c _

theorem fdallocLoop_ends (l : List (Fin nofile)) : Ends (fdallocLoop p f l) c fun r c' =>
    match r with
    | none => c' = c
    | some fd => (c.procs p).ofile fd = none ∧ c' = c.setFd p fd (some f) := by
  induction l with
  | nil => exact rfl
  | cons fd l ih =>
    unfold fdallocLoop
    rw [ends_bind, ends_proc]
    intro _
    split_ifs with hfree
    · exact ⟨hfree, rfl⟩
    · exact ih

theorem fdalloc_ends : Ends (fdalloc p f) c fun r c' =>
    match r with
    | none => c' = c
    | some fd => (c.procs p).ofile fd = none ∧ c' = c.setFd p fd (some f) :=
  fdallocLoop_ends c f p _

namespace FileId

theorem dup_ends : Ends f.dup c fun f' c' =>
    f' = f ∧ c' = c.setFile f { c.files f with refcnt := (c.files f).refcnt + 1 } := by
  unfold dup
  rw [ends_bind, ends_file]
  split_ifs
  · exact ⟨rfl, rfl⟩
  · trivial

end FileId

/-- What `close` comes to. -/
inductive Closed (c : Core) (f : FileId) : Core → Prop
  | shared : 1 < (c.files f).refcnt →
      Closed c f (c.setFile f { c.files f with refcnt := (c.files f).refcnt - 1 })
  /-- The last reference, to a file without an object. -/
  | plain : (c.files f).refcnt = 1 → (c.files f).type ≠ .inode → (c.files f).type ≠ .device →
      Closed c f (c.setFile f { c.files f with refcnt := 0, type := .none })
  | last {ip : Slot} {c' : Core} : (c.files f).refcnt = 1 →
      (c.files f).type = .inode ∨ (c.files f).type = .device → (c.files f).ip = some ip →
      Moves ⊥ (-Pi.single ip 1) (c.setFile f { c.files f with refcnt := 0, type := .none }) c' →
      Closed c f c'

/-- A file that is taken and closed again is as it was found. -/
theorem Closed.eq {c c' : Core} {f : FileId} (hunused : (c.files f).refcnt = 0)
    (htype : (c.files f).type = .none)
    (h : Closed (c.setFile f { c.files f with refcnt := 1 }) f c') : c' = c := by
  have hfile : (c.setFile f { c.files f with refcnt := 1 }).files f =
      { c.files f with refcnt := 1 } := Function.update_self _ _ _
  cases h with
  | shared hshared =>
    rw [hfile] at hshared
    exact absurd hshared (lt_irrefl _)
  | plain _ _ _ =>
    have hx : ({ c.files f with refcnt := 0, type := .none } : File) = c.files f := by
      rw [← hunused, ← htype]
    rw [hfile, Core.setFile_setFile]
    exact (congrArg (c.setFile f) hx).trans (c.setFile_self f)
  | last _ hobject _ _ =>
    rw [hfile, htype] at hobject
    simp at hobject

theorem deref_ends (ip : Option Slot) : Ends (deref ip) c fun ip' c' => ip = some ip' ∧ c' = c := by
  cases ip with
  | none => trivial
  | some ip => exact ⟨rfl, rfl⟩

theorem FileId.close_ends : Ends (f.close sb) c fun _ c' => Closed c f c' := by
  unfold close
  rw [ends_bind, ends_file]
  split_ifs with hopen hshared hobject
  · exact .shared (by omega)
  · have hlast : (c.files f).refcnt = 1 := by omega
    rw [ends_bind, ends_setFile, ends_bind, ends_setFile]
    refine (deref_ends _ _).bind fun ip c' ⟨hip, hc'⟩ => ?_
    subst hc'
    rw [Core.setFile_setFile]
    have hput : Shifts ⊥ (ip.put sb) fun _ => -Pi.single ip 1 := Slot.shifts_put sb ip
    exact (hput _).mono fun _ c' hmoves => .last hlast hobject hip hmoves
  · have hlast : (c.files f).refcnt = 1 := by omega
    rw [not_or] at hobject
    rw [ends_bind, ends_setFile, ends_bind, ends_setFile, ends_pure, Core.setFile_setFile]
    exact .plain hlast hobject.1 hobject.2
  · trivial

theorem FileId.quiet_stat {M : AddSubgroup (Slot → ℤ)} (addr : ℕ) : Quiet M (f.stat sb addr) := by
  have hfile : Quiet M (file f) := fun c => .refl c
  have hderef (ip : Option Slot) : Quiet M (deref ip) := by
    cases ip with
    | none => exact fun c => trivial
    | some ip => exact .pure rfl
  unfold stat
  apply hfile.bind
  intro x
  split_ifs
  · apply (hderef _).bind
    intro ip
    apply (Slot.quiet_lock sb ip).bind
    intro _
    unfold Slot.stat
    apply Quiet.bind
    · apply (quiet_inode ip).bind
      intro i
      apply (quiet_ustoreWord _ _ _).bind
      intro _
      apply (quiet_ustoreWord _ _ _).bind
      intro _
      apply (quiet_ustoreWord _ _ _).bind
      intro _
      apply (quiet_ustoreWord _ _ _).bind
      intro _
      exact quiet_ustoreWord _ _ _
    · intro _
      apply (Slot.quiet_unlock ip).bind
      intro _
      exact .pure rfl
  · exact .pure rfl

/-- What `openFile` comes to. -/
inductive Opened (c : Core) (p : ℕ) (ip : Slot) : Core → Prop
  /-- There is no file. -/
  | full {c' : Core} : Moves ⊥ (-Pi.single ip 1) c c' → Opened c p ip c'
  /-- There is no descriptor for the file. -/
  | busy {f : FileId} {c₁ c' : Core} : (c.files f).refcnt = 0 →
      Closed (c.setFile f { c.files f with refcnt := 1 }) f c₁ →
      Moves ⊥ (-Pi.single ip 1) c₁ c' → Opened c p ip c'
  | done {f : FileId} {fd : Fin nofile} {x : File} {c' : Core} : (c.files f).refcnt = 0 →
      (c.procs p).ofile fd = none → x.refcnt = 1 → x.ip = some ip →
      x.type = .inode ∨ x.type = .device →
      Moves ⊥ 0 ((c.setFile f x).setFd p fd (some f)) c' → Opened c p ip c'

theorem File.opened_type (x : File) (ip : Slot) (i : Inode) (mode : ℕ) :
    (x.opened ip i mode).type = .inode ∨ (x.opened ip i mode).type = .device := by
  unfold opened
  split_ifs
  · exact Or.inr rfl
  · exact Or.inl rfl

theorem File.opened_refcnt (x : File) (ip : Slot) (i : Inode) (mode : ℕ) :
    (x.opened ip i mode).refcnt = x.refcnt := by
  unfold opened
  split_ifs
  · rfl
  · rfl

theorem openFile_ends (ip : Slot) (mode : ℕ) :
    Ends (openFile sb p ip mode) c fun _ c' => Opened c p ip c' := by
  have hput (n : ℤ) : Shifts ⊥ (do ip.unlockput sb; pure n : FsM ℤ) fun _ => -Pi.single ip 1 := by
    apply (Slot.shifts_unlockput sb ip).then
    intro _
    exact .pure (sub_self _)
  unfold openFile
  refine (falloc_ends c).bind fun r c₁ h₁ => ?_
  cases r with
  | none =>
    subst h₁
    exact (hput _ _).mono fun _ c' h => .full h
  | some f =>
    obtain ⟨hunused, rfl⟩ := h₁
    refine (fdalloc_ends _ f p).bind fun r c₂ h₂ => ?_
    cases r with
    | none =>
      subst h₂
      refine (f.close_ends sb _).bind fun _ c₃ h₃ => ?_
      exact (hput _ _).mono fun _ c' h => .busy hunused h₃ h
    | some fd =>
      obtain ⟨hfree, rfl⟩ := h₂
      have hunlock : Quiet ⊥ (do ip.unlock; pure fd.val : FsM ℤ) := by
        apply (Slot.quiet_unlock ip).bind
        intro _
        exact .pure rfl
      have htrunc : Quiet ⊥ (do ip.trunc sb; ip.unlock; pure fd.val : FsM ℤ) := by
        apply (Slot.quiet_trunc sb ip).bind
        intro _
        exact hunlock
      have hdone (i : Inode) {x : File} {c' : Core}
          (hx : x = ({ c.files f with refcnt := 1 } : File))
          (h : Moves ⊥ 0 (((c.setFile f { c.files f with refcnt := 1 }).setFd p fd
            (some f)).setFile f (x.opened ip i mode)) c') : Opened c p ip c' := by
        rw [Core.setFd_setFile, Core.setFile_setFile] at h
        refine .done hunused hfree ?_ rfl (File.opened_type _ _ _ _) h
        rw [File.opened_refcnt, hx]
      have hfile : ((c.setFile f { c.files f with refcnt := 1 }).setFd p fd (some f)).files f =
          { c.files f with refcnt := 1 } := Function.update_self _ _ _
      dsimp only
      rw [ends_bind, ends_inode, ends_bind, ends_modifyFile]
      split_ifs
      · exact (htrunc _).mono fun _ c' h => hdone _ hfile h
      · exact (hunlock _).mono fun _ c' h => hdone _ hfile h

/-- The two files that `makeEmpty` takes keep what they held before, but for their type. -/
inductive Made (c : Core) : (Fin nofile → Option FileId) → Core → Prop
  | intro {f₀ f₁ : FileId} : f₀ ≠ f₁ → (c.files f₀).refcnt = 0 → (c.files f₁).refcnt = 0 →
      Made c (fun fd => if fd.val = 0 then some f₀ else if fd.val = 1 then some f₁ else none)
        ((c.setFile f₀ { c.files f₀ with refcnt := 1, type := .device, readable := true }).setFile
          f₁ { c.files f₁ with refcnt := 1, type := .device, writable := true })

theorem makeEmpty_ends : Ends makeEmpty c fun files c' => Made c files c' := by
  unfold makeEmpty
  refine (falloc_ends c).bind fun r c₁ h₁ => ?_
  cases r with
  | none => trivial
  | some f₀ =>
    obtain ⟨hunused₀, rfl⟩ := h₁
    refine (falloc_ends _).bind fun r c₂ h₂ => ?_
    cases r with
    | none => trivial
    | some f₁ =>
      obtain ⟨hunused₁, rfl⟩ := h₂
      have hne : f₀ ≠ f₁ := by
        intro he
        subst he
        rw [Core.setFile_files, Function.update_self] at hunused₁
        exact absurd hunused₁ one_ne_zero
      rw [Core.setFile_files, Function.update_of_ne hne.symm] at hunused₁ ⊢
      dsimp only
      rw [ends_bind, ends_modifyFile, ends_bind, ends_modifyFile, ends_pure,
        Core.setFile_comm _ hne.symm, Core.setFile_setFile, Core.setFile_setFile]
      simp only [Core.setFile_files, Function.update_self, Function.update_of_ne hne]
      exact .intro hne hunused₀ hunused₁

theorem dupFiles_ends (ofile : Fin nofile → Option FileId) (l : List (Fin nofile))
    (files : Fin nofile → Option FileId) : Ends (dupFiles ofile l files) c fun r c' =>
      (∀ fd, r fd = if fd ∈ l then (ofile fd).or (files fd) else files fd) ∧
      c' = c.addRefs fun f => l.countP fun fd => ofile fd = some f := by
  induction l generalizing c files with
  | nil => exact ⟨fun fd => rfl, by simp [Core.addRefs]⟩
  | cons fd l ih =>
    unfold dupFiles
    cases hfd : ofile fd with
    | none =>
      refine (ih c files).mono fun r c' ⟨hr, hc'⟩ => ⟨fun fd' => ?_, ?_⟩
      · rw [hr]
        by_cases he : fd' = fd
        · simp [he, hfd]
        · simp [he]
      · rw [hc']
        simp [hfd]
    | some f =>
      refine (f.dup_ends c).bind fun f' c₁ ⟨hf', hc₁⟩ => ?_
      subst hf' hc₁
      refine (ih _ _).mono fun r c' ⟨hr, hc'⟩ => ⟨fun fd' => ?_, ?_⟩
      · rw [hr]
        by_cases he : fd' = fd
        · simp [he, hfd]
        · simp [he]
      · rw [hc', Core.addRefs_setFile]
        simp only [List.countP_cons, hfd, Option.some.injEq, decide_eq_true_eq]

end Multiplix.Fs
