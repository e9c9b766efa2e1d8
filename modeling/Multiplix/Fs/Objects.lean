import Multiplix.Fs.Effect

/-! The files of `make_empty` are devices without an inode, and one of them stays open. -/
namespace Multiplix.Fs
open Lib

namespace Core

/-- Every open file on an inode or a device has an inode that is in use. -/
def HasObjects (c : Core) : Prop :=
  ∀ f, 0 < (c.files f).refcnt → (c.files f).type = .inode ∨ (c.files f).type = .device →
    ∃ ip, (c.files f).ip = some ip ∧ 1 ≤ (c.inodes ip).refcnt

/-- An open device without an inode. -/
structure Bare (c : Core) (f : FileId) : Prop where
  used : 0 < (c.files f).refcnt
  type : (c.files f).type = .device
  ip : (c.files f).ip = none

variable {c c' : Core} {f : FileId}

theorem Bare.not_hasObjects (h : c.Bare f) : ¬c.HasObjects := by
  intro hobj
  obtain ⟨ip, hip, -⟩ := hobj f h.used (Or.inr h.type)
  rw [h.ip] at hip
  cases hip

theorem Bare.of_file (h : c.Bare f) (he : c'.files f = c.files f) : c'.Bare f :=
  ⟨by rw [he]; exact h.used, by rw [he]; exact h.type, by rw [he]; exact h.ip⟩

variable {M : AddSubgroup (Slot → ℤ)} {d : Slot → ℤ}

theorem Bare.of_files (h : c.Bare f) (he : c'.files = c.files) : c'.Bare f :=
  h.of_file (congrFun he f)

theorem Bare.setFd (h : c.Bare f) (p : ℕ) (fd : Fin nofile) (o : Option FileId) :
    (c.setFd p fd o).Bare f := h.of_files rfl

theorem Bare.moves (h : c.Bare f) (hm : Moves M d c c') : c'.Bare f :=
  h.of_files hm.files

/-- Only unused files are taken. -/
theorem Bare.setFile {f' : FileId} (h : c.Bare f) (hunused : (c.files f').refcnt = 0) (x : File) :
    (c.setFile f' x).Bare f := by
  have hne : f ≠ f' := by
    intro he
    have hused := h.used
    rw [he, hunused] at hused
    exact absurd hused (lt_irrefl _)
  exact h.of_file (Function.update_of_ne hne _ _)

/-- The last reference to it cannot be given up: its inode would be released. -/
theorem Bare.closed {f' : FileId} (h : c.Bare f) (hc : Closed c f' c') : c'.Bare f := by
  by_cases he : f = f'
  · subst he
    cases hc with
    | shared hshared =>
      refine ⟨?_, ?_, ?_⟩
      · rw [setFile_files, Function.update_self]
        exact Int.sub_pos_of_lt hshared
      · rw [setFile_files, Function.update_self]
        exact h.type
      · rw [setFile_files, Function.update_self]
        exact h.ip
    | plain _ _ hdevice => exact absurd h.type hdevice
    | last _ _ hip _ =>
      rw [h.ip] at hip
      cases hip
  · cases hc with
    | shared _ => exact h.of_file (Function.update_of_ne he _ _)
    | plain _ _ _ => exact h.of_file (Function.update_of_ne he _ _)
    | last _ _ _ hm => exact (h.of_file (Function.update_of_ne he _ _)).moves hm

theorem Bare.opened {p : ℕ} {ip : Slot} (h : c.Bare f) (ho : Opened c p ip c') : c'.Bare f := by
  cases ho with
  | full hm => exact h.moves hm
  | busy hunused hc hm => exact ((h.setFile hunused _).closed hc).moves hm
  | @done f' fd x _ hunused _ _ _ _ hm =>
    exact ((h.setFile hunused x).setFd p fd (some f')).moves hm

theorem Bare.made {files : Fin nofile → Option FileId} (h : c.Bare f) (hm : Made c files c') :
    c'.Bare f := by
  cases hm with
  | intro hne h₀ h₁ =>
    refine (h.setFile h₀ _).setFile ?_ _
    rw [setFile_files, Function.update_of_ne hne.symm]
    exact h₁

theorem Bare.addRefs (h : c.Bare f) (n : FileId → ℕ) : (c.addRefs n).Bare f :=
  ⟨Int.add_pos_of_pos_of_nonneg h.used (Int.natCast_nonneg _), h.type, h.ip⟩

theorem Bare.effect {e : Event} (h : c.Bare f) (he : Effect M c e c') : c'.Bare f := by
  cases he with
  | idle hm => exact h.moves hm
  | open_ hm ho => exact (h.moves hm).opened ho
  | @close p fd i _ _ _ hc => exact (h.setFd p i none).closed hc
  | dup _ _ => exact h.setFd _ _ _
  | chdir hm => exact (h.moves hm).of_files rfl
  | give hm => exact h.made hm
  | fork hm hd => exact (((h.made hm).addRefs _).moves hd).of_files rfl
  | exit => exact h.of_files rfl
  | wait => exact h.of_files rfl

theorem Booted.bare {p : ℕ} (h : Booted M Core.init p c) : ∃ f, c.Bare f := by
  cases h with
  | intro hmade hm =>
    cases hmade with
    | @intro f₀ f₁ hne h₀ h₁ =>
      refine ⟨f₀, Bare.of_files (Bare.moves ?_ hm) rfl⟩
      have hfile : ((Core.init.setFile f₀ { Core.init.files f₀ with
          refcnt := 1, type := .device, readable := true }).setFile f₁ { Core.init.files f₁ with
          refcnt := 1, type := .device, writable := true }).files f₀ =
          { Core.init.files f₀ with refcnt := 1, type := .device, readable := true } := by
        rw [setFile_files, Function.update_of_ne hne, setFile_files, Function.update_self]
      refine ⟨?_, ?_, ?_⟩
      · rw [hfile]
        exact one_pos
      · rw [hfile]
      · rw [hfile]
        rfl

end Core

variable {τ : Type} {sb : Superblock} {J : Outside τ}

theorem Reachable.bare {s : State τ} (h : Reachable sb J (fun _ _ => True) s) :
    ∃ f, s.1.Bare f := by
  apply h.inv (M := ⊤) (I := fun c => ∃ f, c.Bare f)
  · intro s e _
    exact tame_top sb J e
  · intro p c hb
    exact Core.Booted.bare hb
  · rintro s e c' ⟨f, hf⟩ _ _ he
    exact ⟨f, hf.effect he⟩

/-- A process that can name such a file stops the kernel when it asks for its status. -/
theorem Core.Bare.sysFstat {s : State τ} {f : FileId} (h : s.1.Bare f) {p : ℕ} (hp : p ∈ s.1.live)
    {fd : ℤ} {i : Fin nofile} (hfd : checkfd (s.1.procs p) fd = some (i, f)) (st : ℕ) :
    exec J (sysFstat sb p fd st) s = .error .fault := by
  have hstat : exec J (f.stat sb st) s = .error .fault := by
    have hfile : (file f).exec (known.extend J) s = .ok (s, s.1.files f) := rfl
    have hderef : (deref none).exec (known.extend J) s = .error .fault := rfl
    unfold exec FileId.stat
    rw [Prog.exec_bind_of_ok hfile, if_pos (Or.inr h.type), h.ip, Prog.exec_bind_of_error hderef]
  unfold exec Fs.sysFstat
  rw [Prog.exec_bind_of_ok (exec_proc J p hp), hfd]
  exact hstat

/-- There is no state of any run in which every open file has its object. -/
theorem never_hasObjects {s : State τ} (h : Reachable sb J (fun _ _ => True) s) :
    ¬s.1.HasObjects := by
  obtain ⟨f, hf⟩ := h.bare
  exact hf.not_hasObjects

/-- Before the first process does anything. -/
theorem never_hasObjects_boot : ∃ s : State Unit,
    Reachable ⟨0, 0, 0, 0, 0⟩ silent (fun _ _ => True) s ∧ ¬s.1.HasObjects := by
  have hrun : (run ⟨0, 0, 0, 0, 0⟩ silent 0 [] ()).isSome = true := by decide +kernel
  obtain ⟨s, hs⟩ := Option.isSome_iff_exists.mp hrun
  exact ⟨s, reachable_run _ _ hs, never_hasObjects (reachable_run _ _ hs)⟩

/-- Before the first process does anything, its descriptor 0 can be neither closed nor looked at. -/
theorem first_files_fault : ∃ s : State Unit,
    Reachable ⟨0, 0, 0, 0, 0⟩ silent (fun _ _ => True) s ∧ ¬s.1.HasObjects ∧
    exec silent (sysClose ⟨0, 0, 0, 0, 0⟩ 0 0) s = .error .fault ∧
    exec silent (sysFstat ⟨0, 0, 0, 0, 0⟩ 0 0 0) s = .error .fault := by
  have hrun : ((run ⟨0, 0, 0, 0, 0⟩ silent 0 [] ()).map fun s =>
      (stop (exec silent (sysClose ⟨0, 0, 0, 0, 0⟩ 0 0) s),
        stop (exec silent (sysFstat ⟨0, 0, 0, 0, 0⟩ 0 0 0) s))) =
      some (some .fault, some .fault) := by decide +kernel
  obtain ⟨s, hs, he⟩ := Option.map_eq_some_iff.mp hrun
  rw [Prod.mk.injEq] at he
  have hr := reachable_run _ _ hs
  obtain ⟨f, hf⟩ := hr.bare
  exact ⟨s, hr, hf.not_hasObjects, eq_error_of_stop he.1, eq_error_of_stop he.2⟩

end Multiplix.Fs
