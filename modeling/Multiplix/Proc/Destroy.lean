import Multiplix.Proc.Runs

/-! What is given back of a process that is freed: `~this` of `Proc`, and `kfree` of it. -/
namespace Multiplix.Proc
open Lib Vm

/-- Virtual addresses of the kernel. -/
def iska (va : ℕ) : Bool := va ≥ highmemBase

/-- A loop over the mappings of a page table, whose body gives memory back and changes no table. -/
def PtIter.release (ops : PteOps) (T : PtMem) (body : VaMapping → List ℕ) : ℕ → PtIter → List ℕ
  | 0, _ => []
  | n + 1, it =>
    match it.next ops T fuel with
    | none => []
    | some (map, it) => body map ++ release ops T body n it

namespace Machine

variable (P : Platform)

/-- `~this` of `Proc`: the pages that it gives back, by their physical addresses. -/
def destroy (m : Machine) (pt : ℕ) : List ℕ :=
  PtIter.release P.ops m.tables (fun map =>
    if iska map.va = false then
      let pg := map.pa P.ops m.tables / pagesize
      if m.refcnt pg = 0 then [map.pa P.ops m.tables] else []
    else []) PtIter.fuel (.get pt)

/-- `kfree` of a process, which is destroyed first: what is given back, and what is left. -/
def kfree (m : Machine) (pt proc : ℕ) : List ℕ × Machine := (m.destroy P pt ++ [proc], m)

/-- What `make_empty` allocates: the page table and the process. -/
def newProc (m : Machine) : Option (ℕ × ℕ) :=
  match m.knewTable with
  | (none, _) => none
  | (some pgtbl, m) =>
    match m.kalloc with
    | (none, _) => none
    | (some p, _) => some (pgtbl, p)

end Machine

/-- The kernel, with the memory of each process. -/
structure Procs where
  kernel : Kernel
  proc : ℕ → ℕ

namespace Procs

variable (P : Platform)

/-- Where the processes are after an event, which may have made one. -/
def placed (s : Procs) : Kernel.Event → ℕ → ℕ
  | .make _ | .fork _ =>
    match s.kernel.machine.newProc with
    | none => s.proc
    | some (pt, p) => Function.update s.proc pt p
  | _ => s.proc

def exec (s : Procs) (e : Kernel.Event) : Option Procs :=
  (s.kernel.exec P e).map fun k => ⟨k, s.placed e⟩

def restock (s : Procs) (as : Supply) : Procs := { s with kernel := s.kernel.restock as }

inductive Reached : Procs → Prop
  | boot {m : Machine} {proc : ℕ → ℕ} : m.heap = [] → (∀ pn, m.refcnt pn = 0) →
      Reached ⟨⟨m, []⟩, proc⟩
  | step {s s' : Procs} {as : Supply} {e : Kernel.Event} : Reached s → s.kernel.Answers P as →
      (s.restock as).exec P e = some s' → Reached s'

/-- What is to be given back of a process, and what is to be left of its shares. -/
structure FreesMemory (s : Procs) (r : ℕ) (freed : List ℕ) (m : Machine) : Prop where
  pages : ∀ pn, (s.kernel.machine.userEntries P [r] pn).Nonempty →
    (∀ r' ∈ s.kernel.roots, r' ≠ r → s.kernel.machine.userEntries P [r'] pn = ∅) →
    freed.count (pn * pagesize) = 1
  tables : ∀ va d t, d ≤ P.ops.radix.last →
    P.ops.radix.node s.kernel.machine.tables r va d = some t → freed.count t = 1
  proc : freed.count (s.proc r) = 1
  kept : ∀ r' ∈ s.kernel.roots, r' ≠ r → ∀ pn,
    (s.kernel.machine.userEntries P [r'] pn).Nonempty → pn * pagesize ∉ freed
  shares : ∀ pn, (s.kernel.machine.userEntries P [r] pn).Nonempty →
    (∃ r' ∈ s.kernel.roots, r' ≠ r ∧ (s.kernel.machine.userEntries P [r'] pn).Nonempty) →
    (m.refcnt pn : ℕ∞) + (s.kernel.machine.userEntries P [r] pn).encard =
      s.kernel.machine.refcnt pn

end Procs

namespace Machine

variable {P : Platform} {roots : List ℕ} {o : Owners} {m m' : Machine} {r j n : ℕ}
  {x : Option (ℕ × ℕ)}

/-- What a loop gives back comes from the turns at the pages of the process. -/
theorem Shape.mem_release (h : m.Shape P roots o) (hr : r ∈ roots) {body : VaMapping → List ℕ}
    (hj : j ≤ userPages) {a : ℕ}
    (ha : a ∈ PtIter.release P.ops m.tables body n ⟨j * 4096, x, r⟩) :
    ∃ k pte p w, m.ref P roots (r, k) = some (p, w) ∧ m.PteAt P r k pte ∧
      a ∈ body ⟨pte, k * 4096, 4096⟩ := by
  induction n generalizing j x with
  | zero => cases ha
  | succ n ih =>
    have hfuel : userPages - j < PtIter.fuel := by
      rw [PtIter.fuel, ← userPages]
      omega
    rw [PtIter.release] at ha
    rcases h.next_eq hr (x := x) hj hfuel with
      ⟨heq, -⟩ | ⟨k, pte, -, hk, -, ⟨p, w, hl⟩, hat, heq⟩
    · rw [heq] at ha
      cases ha
    · rw [heq] at ha
      rcases List.mem_append.mp ha with ha | ha
      · exact ⟨k, pte, p, w, hl, hat, ha⟩
      · exact ih (by omega) ha

/-- Only pages are given back, and only pages without references. -/
theorem Shape.mem_destroy (h : m.Shape P roots o) (hr : r ∈ roots) {p : ℕ}
    (hp : p ∈ m.destroy P r) :
    p ∈ o.pages ∧ m.refcnt (p / 4096) = 0 ∧ ∃ k w, m.ref P roots (r, k) = some (p, w) := by
  have hmem : p ∈ PtIter.release P.ops m.tables _ PtIter.fuel ⟨0 * 4096, none, r⟩ := hp
  obtain ⟨k, pte, q, w, hl, hat, hbody⟩ := h.mem_release hr (Nat.zero_le _) hmem
  have hpa : (VaMapping.mk pte (k * 4096) 4096).pa P.ops m.tables = q := (h.pteAt_spec hl hat).2
  dsimp only at hbody
  rw [hpa] at hbody
  split_ifs at hbody with hlow hcnt
  · obtain rfl : p = q := List.mem_singleton.mp hbody
    exact ⟨(h.ref_mem_pages hl).1, hcnt, k, w, hl⟩
  · cases hbody
  · cases hbody

/-- The counts being right, no page is given back. -/
theorem Inv.destroy_eq (h : m.Inv P roots o) (hr : r ∈ roots) : m.destroy P r = [] := by
  refine List.eq_nil_iff_forall_not_mem.mpr fun p hp => ?_
  obtain ⟨-, hcnt, k, w, hl⟩ := h.shape.mem_destroy hr hp
  have hpos := h.count_pos hl
  omega

theorem newProc_heap {pt p : ℕ} (hm : m.newProc = some (pt, p)) :
    ∃ rest, m.heap = some pt :: some p :: rest := by
  unfold newProc knewTable at hm
  rcases hh : m.heap with _ | ⟨_ | a, _ | ⟨_ | b, as⟩⟩ <;>
    simp only [hh, ptalloc, kalloc, reduceCtorEq] at hm
  cases hm
  exact ⟨as, rfl⟩

theorem newProc_of_makeEmpty {pt : ℕ} (he : m.makeEmpty P = (some pt, m')) :
    ∃ p, m.newProc = some (pt, p) := by
  obtain ⟨m₁, p, hheap, -, hk⟩ := makeEmpty_eq he
  unfold kalloc at hk
  rcases hh : m₁.heap with _ | ⟨b, as⟩ <;> rw [hh] at hk <;> cases hk
  refine ⟨p, ?_⟩
  rw [hh] at hheap
  unfold newProc knewTable
  rw [hheap]
  rfl

/-- The page table and the process are in different places. -/
theorem Shape.newProc_ne (h : m.Shape P roots o) {pt p : ℕ} (hm : m.newProc = some (pt, p)) :
    p ≠ pt := by
  obtain ⟨rest, hheap⟩ := newProc_heap hm
  have hf := h.fresh
  rw [hheap] at hf
  rintro rfl
  exact hf.2.2.2.1 (Set.mem_insert p _)

end Machine

/-- Page tables are new after `make_from_elf` and `fork` only. -/
theorem Kernel.exec_roots_subset {P : Platform} {s s' : Kernel} {e : Kernel.Event}
    (he : s.exec P e = some s') (hmake : ∀ bin, e ≠ .make bin) (hfork : ∀ r, e ≠ .fork r) :
    s'.roots ⊆ s.roots := by
  have hfree : ∀ r, (s.free r).roots ⊆ s.roots := fun r => by
    rw [free_roots]
    exact List.filter_subset_self _
  cases e with
  | make bin => exact absurd rfl (hmake bin)
  | fork r => exact absurd rfl (hfork r)
  | fault r addr kind =>
    rw [Kernel.exec] at he
    split_ifs at he
    rcases hm : s.machine.pgfltHandler P r addr kind with ⟨_ | _ | _, m⟩ <;> rw [hm] at he
    · cases he
      exact fun _ => id
    · cases he
      rw [set_roots]
      exact fun _ => id
    · obtain ⟨map, -, rfl⟩ := Option.map_eq_some_iff.mp he
      rw [set_roots]
      exact fun _ => id
  | retry r map =>
    rw [Kernel.exec] at he
    split_ifs at he
    rcases hm : s.machine.finishCopy P map with ⟨_ | _ | _, m⟩ <;> rw [hm] at he
    · cases he
      rw [set_roots]
      exact fun _ => id
    · cases he
      exact fun _ => id
    · cases he
      exact fun _ => id
  | exit r =>
    rw [Kernel.exec] at he
    split_ifs at he
    cases he
    rw [set_roots]
    exact fun _ => id
  | wait r child =>
    rw [Kernel.exec] at he
    split_ifs at he
    cases he
    exact hfree child
  | kfree r =>
    rw [Kernel.exec] at he
    split_ifs at he
    cases he
    exact hfree r

namespace Procs

variable {P : Platform} {s s' : Procs} {r child : ℕ} {e : Kernel.Event}

theorem exec_eq (he : s.exec P e = some s') :
    s.kernel.exec P e = some s'.kernel ∧ s'.proc = s.placed e := by
  obtain ⟨k, hk, rfl⟩ := Option.map_eq_some_iff.mp he
  exact ⟨hk, rfl⟩

theorem Reached.kernel (h : s.Reached P) : s.kernel.Reached P := by
  induction h with
  | boot hheap hzero => exact .boot hheap hzero
  | step _ ha he ih => exact .step ih ha trivial (exec_eq he).1

/-- A run of the kernel puts the processes somewhere. -/
theorem exists_reached {k : Kernel} (h : k.Reached P) : ∃ proc, Reached P ⟨k, proc⟩ := by
  induction h with
  | boot hheap hzero => exact ⟨id, .boot hheap hzero⟩
  | step _ ha _ he ih =>
    obtain ⟨proc, hr⟩ := ih
    exact ⟨_, .step hr ha (congrArg (Option.map _) he)⟩

/-- The memory of a new process is apart from its page table. -/
theorem placed_ne (hs : s.kernel.Formed P) (h : ∀ r ∈ s.kernel.roots, s.proc r ≠ r)
    {parent : Option ℕ} {made : Option ℕ × Machine}
    (hr : r ∈ (s.kernel.spawn P parent made).roots) :
    (match s.kernel.machine.newProc with
      | none => s.proc
      | some (pt, p) => Function.update s.proc pt p) r ≠ r := by
  have hnew : r ∈ s.kernel.roots ∨ ∃ p, s.kernel.machine.newProc = some (r, p) := by
    rcases he : s.kernel.machine.makeEmpty P with ⟨_ | pt, m⟩
    · rw [Kernel.spawn_none (by rw [he])] at hr
      exact Or.inl hr
    · rw [(Kernel.spawn_some (by rw [he])).2] at hr
      rcases List.mem_append.mp hr with hr | hr
      · exact Or.inl hr
      · rw [List.mem_singleton.mp hr]
        exact Or.inr (Machine.newProc_of_makeEmpty he)
  obtain ⟨o, hshape⟩ := hs.machine.shape
  rcases hn : s.kernel.machine.newProc with _ | ⟨pt, p⟩
  · rw [hn] at hnew
    exact h r (hnew.resolve_right fun ⟨_, hc⟩ => Option.some_ne_none _ hc.symm)
  · dsimp only
    by_cases he : r = pt
    · rw [he, Function.update_self]
      exact hshape.newProc_ne hn
    · rw [Function.update_of_ne he]
      rw [hn] at hnew
      exact h r (hnew.resolve_right fun ⟨_, hc⟩ => he (by cases hc; rfl))

/-- The memory of processes is apart from their page tables. -/
theorem Reached.proc_ne (h : s.Reached P) : ∀ r ∈ s.kernel.roots, s.proc r ≠ r := by
  induction h with
  | boot => exact fun r hr => absurd hr List.not_mem_nil
  | @step s s' as e hs ha he ih =>
    obtain ⟨hk, hproc⟩ := exec_eq he
    obtain ⟨k, proc⟩ := s'
    have hf : (s.restock as).kernel.Formed P := hs.kernel.formed.restock ha
    dsimp only at hk hproc
    intro r hr
    rw [hproc]
    cases e with
    | make bin =>
      cases hk
      exact placed_ne hf ih hr
    | fork r₀ =>
      rw [Kernel.exec] at hk
      split_ifs at hk
      cases hk
      exact placed_ne hf ih hr
    | _ =>
      refine ih r (Kernel.exec_roots_subset hk (fun bin hc => ?_) (fun r hc => ?_) hr)
      · cases hc
      · cases hc

/-- The root table of a process is not given back. -/
theorem not_freesMemory (hs : s.kernel.Formed P) (hr : r ∈ s.kernel.roots) (hne : s.proc r ≠ r) :
    ¬ FreesMemory P s r (s.kernel.machine.kfree P r (s.proc r)).1
      (s.kernel.machine.kfree P r (s.proc r)).2 := by
  intro hfrees
  obtain ⟨o, hshape⟩ := hs.machine.shape
  have hroot : (s.kernel.machine.destroy P r ++ [s.proc r]).count r = 1 :=
    hfrees.tables 0 0 r (Nat.zero_le _) rfl
  have hmem : r ∈ s.kernel.machine.destroy P r ++ [s.proc r] :=
    List.count_pos_iff.mp (by rw [hroot]; exact Nat.one_pos)
  rcases List.mem_append.mp hmem with hmem | hmem
  · have htree : r ∈ o.tables r := (hshape.tree r hr).node_mem (k := 0) (Nat.zero_le _) rfl
    exact Set.disjoint_left.mp (hshape.apart r hr) htree (hshape.mem_destroy hr hmem).1
  · exact hne (List.mem_singleton.mp hmem).symm

/-- Freeing a process never gives all of its memory back: its page tables are kept. -/
theorem kfree_never_frees_memory (h : s.Reached P) (hz : s.kernel.Zombie r child) :
    ¬ FreesMemory P s child (s.kernel.machine.kfree P child (s.proc child)).1
      (s.kernel.machine.kfree P child (s.proc child)).2 := by
  obtain ⟨p, hp, rfl, -⟩ := hz
  have hmem : p.pt ∈ s.kernel.roots := List.mem_map_of_mem hp
  exact not_freesMemory h.kernel.formed hmem (h.proc_ne p.pt hmem)

/-- A child that exits, and is waited for. -/
theorem exists_zombie : ∃ (s : Procs) (r child : ℕ),
    s.Reached (Riscv64.platform Riscv64.virt) ∧ s.kernel.Zombie r child := by
  obtain ⟨k, r, child, h, hz⟩ := Kernel.exists_zombie
  obtain ⟨proc, hr⟩ := exists_reached (h.mono fun _ _ _ => trivial)
  exact ⟨⟨k, proc⟩, r, child, hr, hz⟩

/-- A process and its child, which has exited. -/
theorem kfree_never_frees_memory_child : ∃ (s : Procs) (child : ℕ),
    ¬ FreesMemory (Riscv64.platform Riscv64.virt) s child
      (s.kernel.machine.kfree (Riscv64.platform Riscv64.virt) child (s.proc child)).1
      (s.kernel.machine.kfree (Riscv64.platform Riscv64.virt) child (s.proc child)).2 := by
  obtain ⟨s, r, child, h, hz⟩ := exists_zombie
  exact ⟨s, child, kfree_never_frees_memory h hz⟩

theorem kfree_leaks : ∃ (s : Procs) (r child : ℕ), s.Reached (Riscv64.platform Riscv64.virt) ∧
    s.kernel.Zombie r child ∧ ¬ FreesMemory (Riscv64.platform Riscv64.virt) s child
      (s.kernel.machine.kfree (Riscv64.platform Riscv64.virt) child (s.proc child)).1
      (s.kernel.machine.kfree (Riscv64.platform Riscv64.virt) child (s.proc child)).2 := by
  obtain ⟨s, r, child, h, hz⟩ := exists_zombie
  have hmem : child ∈ s.kernel.roots := by
    obtain ⟨p, hp, rfl, -⟩ := hz
    exact List.mem_map_of_mem hp
  exact ⟨s, r, child, h, hz, not_freesMemory h.kernel.formed hmem (h.proc_ne child hmem)⟩

end Procs
end Multiplix.Proc
