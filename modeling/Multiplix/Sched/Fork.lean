import Multiplix.Fs.Files
import Multiplix.Proc.Destroy
import Multiplix.Sched.System

/-! `sys_fork` on the page tables, the open files and the queues at once, and what is left of it
when there is not enough memory. -/
namespace Multiplix.Vm
open Lib

variable (ops : PteOps)

/-- `Pagetable.free`: the tables below are given back, and the entries are cleared. What is valid in
a table of the last level is a leaf. -/
def PteOps.free : ℕ → ℕ → PtMem → List ℕ × PtMem
  | 0, pt, T =>
    (List.range 512).foldl (fun x i =>
      if ops.valid (x.2 pt i) = true ∧ ops.leaf (x.2 pt i) .normal = true then
        (x.1, Radix.write x.2 pt i 0)
      else x) ([], T)
  | level + 1, pt, T =>
    (List.range 512).foldl (fun x i =>
      if ops.valid (x.2 pt i) = true ∧ ops.leaf (x.2 pt i) (.ofHeight (level + 1)) = true then
        (x.1, Radix.write x.2 pt i 0)
      else if ops.valid (x.2 pt i) = true then
        let child := ops.pa (x.2 pt i)
        let freed := free level child x.2
        (x.1 ++ freed.1 ++ [child], Radix.write freed.2 pt i 0)
      else x) ([], T)

/-- The tables below a table that has only leaves are none, and other tables stay. -/
theorem PteOps.free_leaves {ops : PteOps} {level pt : ℕ} {T : PtMem}
    (h : ∀ i < 512, ops.valid (T pt i) = true →
      ops.leaf (T pt i) (.ofHeight (level + 1)) = true) :
    (ops.free (level + 1) pt T).1 = [] ∧ ∀ t ≠ pt, (ops.free (level + 1) pt T).2 t = T t := by
  let C : List ℕ × PtMem → Prop := fun x => x.1 = [] ∧ (∀ t ≠ pt, x.2 t = T t) ∧
    ∀ i, x.2 pt i = T pt i ∨ x.2 pt i = 0
  suffices hC : C (ops.free (level + 1) pt T) from ⟨hC.1, hC.2.1⟩
  rw [PteOps.free]
  apply List.foldlRecOn (motive := C)
  · exact ⟨rfl, fun _ _ => rfl, fun _ => Or.inl rfl⟩
  rintro x ⟨hfreed, hother, hself⟩ i hi
  have hleaf : ops.valid (x.2 pt i) = true →
      ops.leaf (x.2 pt i) (.ofHeight (level + 1)) = true := fun hv => by
    rcases hself i with he | he
    · rw [he] at hv ⊢
      exact h i (List.mem_range.mp hi) hv
    · rw [he, ops.valid_zero] at hv
      cases hv
  by_cases hv : ops.valid (x.2 pt i) = true
  · rw [if_pos ⟨hv, hleaf hv⟩]
    refine ⟨hfreed, fun t ht => (Function.update_of_ne ht ..).trans (hother t ht), fun j => ?_⟩
    dsimp only [Radix.write]
    rw [Function.update_self]
    by_cases hj : j = i
    · rw [hj, Function.update_self]
      exact Or.inr rfl
    · rw [Function.update_of_ne hj]
      exact hself j
  · rw [if_neg fun hc => hv hc.1, if_neg hv]
    exact ⟨hfreed, hother, hself⟩

end Multiplix.Vm

namespace Multiplix.Proc.Machine
open Lib Vm

/-- The memory of `Proc.make_empty`: the page table and the process, or what is given back if there
is none for the process. -/
def allocProc (P : Platform) (m : Machine) : (List ℕ ⊕ ℕ × ℕ) × Machine :=
  match m.knewTable with
  | (none, m) => (.inl [], m)
  | (some pgtbl, m) =>
    let m := { m with tables := P.kernelProcmap m.tables pgtbl }
    match m.kalloc with
    | (none, m) =>
      let freed := P.ops.free PtLevel.giga.toNat pgtbl m.tables
      (.inl (freed.1 ++ [pgtbl]), { m with tables := freed.2 })
    | (some p, m) => (.inr (pgtbl, p), m)

variable {P : Platform} {m m' : Machine} {pt p t : ℕ} {freed : List ℕ}

/-- A prepared table has no tables below. -/
theorem leaf_of_procmap {T : PtMem} (hzero : ∀ i, T pt i = 0) (i : ℕ) (hi : i < 512)
    (hv : P.ops.valid (P.kernelProcmap T pt pt i) = true) :
    P.ops.leaf (P.kernelProcmap T pt pt i) .giga = true := by
  by_contra hno
  have hstops : P.ops.stops (P.kernelProcmap T pt pt i) = false := by
    by_contra hs
    exact hno (P.ops.leaf_of_stops (by decide) (by simpa using hs))
  have hidx : P.ops.radix.index 0 (i * 2 ^ 30) = i := by
    change vpn 2 _ = i
    rw [vpn_eq, Nat.mul_div_cancel _ (by decide), Nat.mod_eq_of_lt hi]
  have hnode : P.ops.radix.node (P.kernelProcmap T pt) pt (i * 2 ^ 30) 1 =
      some (P.ops.pa (P.kernelProcmap T pt pt i)) := by
    rw [Radix.node_succ rfl, hidx, PteOps.slot_link hstops hv]
    rfl
  have htree := P.procmap_tree hzero
  have hroot : P.ops.radix.node (P.kernelProcmap T pt) pt 0 0 = some pt := rfl
  have hmem := htree.node_mem (by decide : 1 ≤ 2) hnode
  rw [Set.mem_singleton_iff.mp hmem] at hnode
  exact absurd (htree.unique (by decide : 1 ≤ 2) (Nat.zero_le _) hnode hroot).1 (by decide)

/-- Memory that is not enough for a process is given back, and only tables that the allocator has
answered are written. -/
theorem allocProc_none (hn : m.newProc = none) : ∃ as m',
    m.allocProc P = (.inl as.reduceOption, m') ∧ m.heap = as ++ m'.heap ∧
      m'.refcnt = m.refcnt ∧ ∀ t, some t ∉ m.heap → m'.tables t = m.tables t := by
  unfold newProc knewTable at hn
  unfold allocProc knewTable
  rcases hh : m.heap with _ | ⟨_ | pt, as⟩
  · exact ⟨[], _, rfl, rfl, rfl, fun _ _ => rfl⟩
  · exact ⟨[none], _, rfl, rfl, rfl, fun _ _ => rfl⟩
  rw [hh] at hn
  obtain ⟨T, hfree, hother⟩ : ∃ T : PtMem, P.ops.free PtLevel.giga.toNat pt
      (P.kernelProcmap (Function.update m.tables pt fun _ => 0) pt) = ([], T) ∧
        ∀ t ≠ pt, T t = P.kernelProcmap (Function.update m.tables pt fun _ => 0) pt t := by
    obtain ⟨hfreed, hother⟩ := @PteOps.free_leaves P.ops 1 pt _
      (leaf_of_procmap (P := P) (T := Function.update m.tables pt fun _ => 0) fun i => by
        rw [Function.update_self])
    have hlevel : PtLevel.giga.toNat = 1 + 1 := rfl
    rw [hlevel]
    generalize P.ops.free (1 + 1) pt _ = x at hfreed hother
    obtain ⟨freed, T⟩ := x
    exact ⟨T, congrArg (·, T) hfreed, hother⟩
  have htables : ∀ t, some t ∉ some pt :: as → T t = m.tables t := fun t ht => by
    have hne : t ≠ pt := fun he => ht (he ▸ List.mem_cons_self)
    rw [hother t hne, P.procmap_other hne, Function.update_of_ne hne]
  dsimp only [ptalloc]
  rcases as with _ | ⟨_ | p, as⟩
  · dsimp only [kalloc]
    rw [hfree]
    exact ⟨[some pt], _, rfl, rfl, rfl, htables⟩
  · dsimp only [kalloc]
    rw [hfree]
    exact ⟨[some pt, none], _, rfl, rfl, rfl, htables⟩
  · cases hn

theorem allocProc_some (hn : m.newProc = some (pt, p)) :
    ∃ m', m.allocProc P = (.inr (pt, p), m') := by
  obtain ⟨rest, hheap⟩ := newProc_heap hn
  unfold allocProc knewTable
  rw [hheap]
  exact ⟨_, rfl⟩

end Multiplix.Proc.Machine

namespace Multiplix.Sched
open Lib Vm
open Multiplix.Proc (Machine Platform PtIter)

/-- What a fork works on. `freed` is the memory that has been given back. -/
structure ForkState where
  machine : Machine
  core : Fs.Core
  system : System
  pt : Addr → ℕ
  freed : List ℕ

namespace ForkState

variable (P : Platform)

def sysFork (s : ForkState) (p : Addr) : Except Fs.Panic (BitVec 64 × ForkState) :=
  match s.machine.allocProc P with
  | (.inl freed, m) => .ok (Err.nomem, { s with machine := m, freed := s.freed ++ freed })
  | (.inr (pgtbl, proc), m) =>
    let a : Addr := BitVec.ofNat 64 proc
    let shared := PtIter.opApply P.ops (Machine.sharePage P pgtbl) PtIter.fuel (.get (s.pt p)) m
    -- the disk plays no part
    match Fs.exec Fs.silent (Fs.makeFromParent p.toNat proc shared.1) (s.core, ()) with
    | .error x => .error x
    | .ok ((core, _), _) =>
      let system := s.system.makeEmpty a
      if shared.1 = false then
        let kfree := shared.2.kfree P pgtbl proc
        .ok (Err.nomem, { s with
          machine := kfree.2, core := core, system := system.free a, freed := s.freed ++ kfree.1 })
      else
        let system := (system.makeFromParent p a).addChild p a
        .ok ((system.kernel.proc a).pid.signExtend 64, { s with
          machine := shared.2, core := core, system := system, pt := Function.update s.pt a pgtbl })

/-- What is mapped at an address. -/
def view (s : ForkState) (r va : ℕ) : Option Mapping :=
  (P.ops.lookup s.machine.tables r va).map (VaMapping.view P.ops s.machine.tables)

/-- Nothing of a call is left. -/
structure Intact (p : Addr) (s s' : ForkState) : Prop where
  table : ∀ va, s'.view P (s.pt p) va = s.view P (s.pt p) va
  pages : ∀ pn, s'.machine.refcnt pn = s.machine.refcnt pn
  files : ∀ f, (s'.core.files f).refcnt = (s.core.files f).refcnt
  inodes : ∀ ip, (s'.core.inodes ip).refcnt = (s.core.inodes ip).refcnt
  children : (s'.system.kernel.proc p).children = (s.system.kernel.proc p).children
  runq : s'.system.kernel.queue .runq = s.system.kernel.queue .runq ∧
    ∀ q ∈ s.system.live, (s'.system.kernel.proc q).next = (s.system.kernel.proc q).next ∧
      (s'.system.kernel.proc q).prev = (s.system.kernel.proc q).prev
  memory : ∃ as freed, s.machine.heap = as ++ s'.machine.heap ∧ s'.freed = s.freed ++ freed ∧
    as.reduceOption.Perm freed

/-- The allocator does not answer a page table that the process uses. -/
def Promised (p : Addr) (s : ForkState) : Prop :=
  ∀ t, some t ∈ s.machine.heap → ∀ va, ∀ d ≤ P.ops.radix.last,
    P.ops.radix.node s.machine.tables (s.pt p) va d ≠ some t

variable {P} {s s' : ForkState} {p : Addr}

theorem view_of_sameTree (h : s.machine.SameTree P s'.machine (s.pt p)) (va : ℕ) :
    s'.view P (s.pt p) va = s.view P (s.pt p) va := by
  unfold view
  rw [PteOps.view_lookup, PteOps.view_lookup, h.lookup va]

/-- A fork that has memory for the process takes two files, and keeps them. -/
theorem files_taken (c : Fs.Core) (p child : ℕ) (mapped : Bool) :
    Fs.Ends (Fs.makeFromParent p child mapped) c fun _ c' =>
      ∃ f, (c.files f).refcnt = 0 ∧ 1 ≤ (c'.files f).refcnt := by
  unfold Fs.makeFromParent
  refine (Fs.makeEmpty_ends c).bind fun files c₁ hmade => ?_
  obtain ⟨f, hfree, htaken⟩ : ∃ f, (c.files f).refcnt = 0 ∧ (c₁.files f).refcnt = 1 := by
    cases hmade with
    | @intro f₀ f₁ hne hfree₀ hfree₁ =>
      refine ⟨f₁, hfree₁, ?_⟩
      simp
  cases mapped with
  | false => exact ⟨f, hfree, htaken.ge⟩
  | true =>
    rw [if_neg (by decide), Fs.ends_bind, Fs.ends_proc]
    intro _
    refine (Fs.dupFiles_ends c₁ _ _ files).bind fun r c₂ ⟨_, hc₂⟩ => ?_
    unfold Fs.Slot.dup
    rw [Fs.ends_bind, Fs.ends_bind, Fs.ends_modifyInode, Fs.ends_pure, Fs.ends_bind,
      Fs.ends_setProc]
    refine ⟨f, hfree, ?_⟩
    subst hc₂
    unfold Fs.Core.addRefs
    dsimp only [Fs.Core.setProc_files]
    rw [htaken]
    omega

/-- There is no memory for a process: nothing is left of the call. -/
theorem intact_of_newProc (hp : s.Promised P p) (hn : s.machine.newProc = none) {ret : BitVec 64}
    (h : s.sysFork P p = .ok (ret, s')) : Intact P p s s' := by
  obtain ⟨as, m', halloc, hheap, hrefcnt, htables⟩ := Machine.allocProc_none (P := P) hn
  unfold sysFork at h
  rw [halloc] at h
  cases h
  have hsame : s.machine.SameTree P m' (s.pt p) := fun va d t hd hnode =>
    htables t fun ht => hp t ht va d hd hnode
  exact ⟨fun va => view_of_sameTree hsame va, fun pn => congrFun hrefcnt pn, fun _ => rfl,
    fun _ => rfl, rfl, ⟨rfl, fun _ _ => ⟨rfl, rfl⟩⟩, as, as.reduceOption, hheap, rfl, .refl _⟩

/-- There is memory for a process: its files are taken, whatever becomes of it. -/
theorem not_intact_of_newProc {x : ℕ × ℕ} (hn : s.machine.newProc = some x) {ret : BitVec 64}
    (h : s.sysFork P p = .ok (ret, s')) : ¬ Intact P p s s' := by
  obtain ⟨pgtbl, proc⟩ := x
  obtain ⟨m', halloc⟩ := Machine.allocProc_some (P := P) hn
  intro hintact
  unfold sysFork at h
  rw [halloc] at h
  dsimp only at h
  generalize PtIter.opApply P.ops (Machine.sharePage P pgtbl) PtIter.fuel (.get (s.pt p)) m' =
    shared at h
  have hfiles := (files_taken s.core p.toNat proc shared.1).wp (J := Fs.silent) (s := (s.core, ()))
  unfold Prog.Wp at hfiles
  unfold Fs.exec at h
  rcases hexec : (Fs.makeFromParent p.toNat proc shared.1).exec (Fs.known.extend Fs.silent)
    (s.core, ()) with x | ⟨⟨core, u⟩, r⟩
  · rw [hexec] at h
    cases h
  rw [hexec] at h hfiles
  have hcore : s'.core = core := by
    dsimp only at h
    split_ifs at h <;> cases h <;> rfl
  obtain ⟨f, hfree, htaken⟩ := hfiles
  have hsame := hintact.files f
  rw [hcore, hfree] at hsame
  have hnone : (core.files f).refcnt = 0 := hsame
  dsimp only at htaken
  omega

/-- A fork without enough memory leaves nothing behind if and only if one of the two allocations of
`make_empty` has failed. -/
theorem fork_intact_iff (hp : s.Promised P p) (h : s.sysFork P p = .ok (Err.nomem, s')) :
    Intact P p s s' ↔ s.machine.newProc = none := by
  constructor
  · intro hintact
    by_contra hne
    obtain ⟨x, hn⟩ := Option.ne_none_iff_exists'.mp hne
    exact not_intact_of_newProc hn h hintact
  · exact fun hn => intact_of_newProc hp hn h

/-- The state of the first process, with a program of one page. There is memory for `n` pages. -/
def first (P : Platform) (n : ℕ) : ForkState where
  machine := ((P.boot n).makeFromElf P (Machine.oneSegment 0x10000)).2
  core :=
    match Fs.exec Fs.silent (Fs.makeFromElf 0x80600000) (Fs.Core.init, ()) with
    | .error _ => .init
    | .ok ((core, _), _) => core
  system := .boot 0x80600000
  pt _ := 0x80000000
  freed := []

theorem promised_of_formed {roots : List ℕ} (h : s.machine.Formed P roots)
    (hr : s.pt p ∈ roots) : Promised P p s := by
  obtain ⟨o, hs⟩ := h.shape
  intro t ht va d hd hnode
  exact hs.fresh.not_mem t ht (Or.inl ⟨_, hr, (hs.tree _ hr).node_mem hd hnode⟩)

theorem first_promised {n : ℕ} (hn : n ≤ P.npgs)
    (hpt : ((P.boot n).makeEmpty P).1 = some 0x80000000) :
    Promised P p (first P n) := by
  have hboot : (P.boot n).Formed P [] :=
    ⟨⟨_, (P.answers_boot hn).shape⟩, fun _ hr => absurd hr List.not_mem_nil⟩
  have hf := (hboot.makeFromElf (Machine.oneSegment 0x10000)).2
  rw [hpt] at hf
  exact promised_of_formed hf.2 (List.mem_append_right _ (List.mem_singleton_self _))

/-- A fork that finds memory for a process, but not for its page tables. -/
theorem not_intact_first : ∃ s s' : ForkState, ∃ p : Addr,
    Promised (Proc.Riscv64.platform Proc.Riscv64.virt) p s ∧
    s.sysFork (Proc.Riscv64.platform Proc.Riscv64.virt) p = .ok (Err.nomem, s') ∧
    ¬ Intact (Proc.Riscv64.platform Proc.Riscv64.virt) p s s' := by
  generalize hP : Proc.Riscv64.platform Proc.Riscv64.virt = P
  have hn : 10 ≤ P.npgs := by
    subst hP
    decide
  have hpt : ((P.boot 10).makeEmpty P).1 = some 0x80000000 := by
    subst hP
    decide +kernel
  have hres : ((first P 10).sysFork P 0x80600000).toOption.map Prod.fst = some Err.nomem := by
    subst hP
    decide +kernel
  have hnew : (first P 10).machine.newProc = some (0x80008000, 0x80009000) := by
    subst hP
    decide +kernel
  rcases hfork : (first P 10).sysFork P 0x80600000 with x | ⟨r, s'⟩
  · rw [hfork] at hres
    cases hres
  rw [hfork] at hres
  cases hres
  exact ⟨_, s', _, first_promised hn hpt, hfork, not_intact_of_newProc hnew hfork⟩

/-- A fork that does not find memory for a process. -/
theorem fork_intact_first : ∃ s s' : ForkState, ∃ p : Addr,
    Intact (Proc.Riscv64.platform Proc.Riscv64.virt) p s s' ↔ s.machine.newProc = none := by
  generalize hP : Proc.Riscv64.platform Proc.Riscv64.virt = P
  have hn : 9 ≤ P.npgs := by
    subst hP
    decide
  have hpt : ((P.boot 9).makeEmpty P).1 = some 0x80000000 := by
    subst hP
    decide +kernel
  have hres : ((first P 9).sysFork P 0x80600000).toOption.map Prod.fst = some Err.nomem := by
    subst hP
    decide +kernel
  rcases hfork : (first P 9).sysFork P 0x80600000 with x | ⟨r, s'⟩
  · rw [hfork] at hres
    cases hres
  rw [hfork] at hres
  cases hres
  exact ⟨_, s', _, fork_intact_iff (first_promised hn hpt) hfork⟩

end ForkState
end Multiplix.Sched
