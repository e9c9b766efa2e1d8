import Multiplix.Vm.Aarch64
import Multiplix.Vm.MapRuns
import Multiplix.Vm.Riscv64

/-! What the two page tables make of a log of calls, and where they differ from it and from each
other. -/
namespace Multiplix.Vm
open Lib

/-- Every lookup says what the latest call for its address said. -/
def Refines (ops : PteOps) (root : ℕ) (s : PtState) : Prop :=
  ∀ va < 2 ^ 39, (ops.lookup s.mem root va).map (VaMapping.view ops s.mem) =
    (latest s.log va).map MapCall.mapping

namespace Riscv64

/-- `Pagetable.map_giga`. -/
def mapGiga (T : PtMem) (root va pa : ℕ) (perm : Perm) : PtMem :=
  Radix.write T root (vpn 2 va) (Pte.validate (Pte.setPa (Pte.setPerm (T root (vpn 2 va)) perm) pa))

/-- It writes what `map` writes at the top level. -/
theorem mapGiga_eq (T : PtMem) (root va pa : ℕ) (perm : Perm) (as : Supply) :
    pteOps.map T root va pa .giga perm as = (true, mapGiga T root va pa perm, as) := by
  have hcomm : ∀ e, Pte.setPerm (Pte.setPa e pa) perm = Pte.setPa (Pte.setPerm e perm) pa :=
    fun e => BitVec.eq_of_getLsbD_eq fun i _ => by
      rw [getLsbD_setPerm, getLsbD_setPa, getLsbD_setPa, getLsbD_setPerm]
      by_cases h : 10 ≤ i ∧ i ≤ 53
      · simp only [h, and_self, if_true, show i ≠ 8 by omega, show i ≠ 4 by omega,
          show i ≠ 3 by omega, show i ≠ 2 by omega, show i ≠ 1 by omega, if_false]
      · simp only [h, if_false]
  change (true, Radix.write T root (vpn 2 va)
    (Pte.validate (Pte.setPerm (Pte.setPa (T root (vpn 2 va)) pa) perm)), as) = _
  rw [hcomm]
  rfl

/-- The calls that the page table is meant for. -/
inductive Step (root : ℕ) : PtState → PtState → Prop
  | map {s s' : PtState} : PtState.Step pteOps root s s' → Step root s s'
  | mapGiga {s : PtState} {va pa : ℕ} {perm : Perm} :
      s.Allowed pteOps root ⟨va, pa, .giga, perm⟩ [] →
      Step root s ⟨mapGiga s.mem root va pa perm, s.used, ⟨va, pa, .giga, perm⟩ :: s.log⟩

theorem Step.toStep {root : ℕ} {s s' : PtState} (h : Step root s s') :
    PtState.Step pteOps root s s' := by
  cases h with
  | map h => exact h
  | @mapGiga va pa perm ha =>
    have hs := PtState.Step.map ha (mapGiga_eq s.mem root va pa perm [])
    have hused : s.used ∪ supplied [] = s.used := by simp [supplied]
    rwa [hused] at hs

variable {root : ℕ} {T : PtMem} {s : PtState}

theorem inv_of_run (h0 : ∀ i, T root i = 0)
    (hr : Relation.ReflTransGen (Step root) (PtState.init root T) s) : s.Inv pteOps root := by
  induction hr with
  | refl => exact .init h0
  | tail _ hs ih => exact ih.step hs.toStep

/-- An entry that was never written is no leaf. -/
theorem viewAt_zero : pteOps.viewAt (2, 0) = none := by decide

/-- The lookups follow the log exactly as long as what they find was mapped readable: the flags
that `perm` collects always contain `Perm.r`. A call that fails changes no lookup. -/
theorem refines_iff (h0 : ∀ i, T root i = 0)
    (hr : Relation.ReflTransGen (Step root) (PtState.init root T) s) :
    (Refines pteOps root s ↔ ∀ va < 2 ^ 39, ∀ c ∈ latest s.log va, c.perm.has .r = true) ∧
      ∀ c as T' rest, s.Allowed pteOps root c as → s.map pteOps root c as = (false, T', rest) →
        ∀ va, pteOps.lookup T' root va = pteOps.lookup s.mem root va ∧
          (pteOps.lookup T' root va).map (VaMapping.view pteOps T') =
            (pteOps.lookup s.mem root va).map (VaMapping.view pteOps s.mem) := by
  have hinv := inv_of_run h0 hr
  have hread : ∀ p : Perm, p ||| Perm.r = p ↔ p.has .r = true := by decide
  have hview : ∀ va < 2 ^ 39, (pteOps.lookup s.mem root va).map (VaMapping.view pteOps s.mem) =
      (latest s.log va).map fun c => { c.mapping with perm := c.perm ||| Perm.r } :=
    fun va hva => by
      rw [hinv.view hva]
      cases latest s.log va with
      | some c => rfl
      | none =>
        rw [viewAt_zero]
        simp
  refine ⟨forall₂_congr fun va hva => ?_, fun c as T' rest ha hm va => ?_⟩
  · rw [hview va hva]
    cases latest s.log va with
    | none => simp
    | some c => simp [MapCall.mapping, hread]
  · obtain ⟨-, ⟨-, hl⟩ | ⟨h, -⟩⟩ := PteOps.map_spec hinv.tree ha.open_ ha.fresh ha.pa_lt
      ha.pa_aligned ha.perm hm
    · refine ⟨(hl va).1, ?_⟩
      rw [PteOps.view_lookup, PteOps.view_lookup, (hl va).2]
    · cases h

private theorem lookup_empty : pteOps.lookup (fun _ _ => 0) 4096 0 = none := by decide

private theorem run_giga (perm : Perm) (hp : perm &&& Perm.rwx ≠ 0) :
    Relation.ReflTransGen (Step 4096) (PtState.init 4096 fun _ _ => 0)
      ⟨mapGiga (fun _ _ => 0) 4096 0 0 perm, {4096}, [⟨0, 0, .giga, perm⟩]⟩ := by
  refine .single (.mapGiga ⟨Nat.two_pow_pos 39, dvd_zero _, Nat.two_pow_pos 56, dvd_zero _, hp,
    trivial, fun m hm => ?_⟩)
  rw [show (PtState.init 4096 fun _ _ => 0).mem = fun _ _ => 0 from rfl, lookup_empty] at hm
  cases hm

/-- A region mapped for reading and writing. -/
theorem refines_iff_rw : ∃ s, Relation.ReflTransGen (Step 4096)
    (PtState.init 4096 fun _ _ => 0) s ∧ s.log = [⟨0, 0, .giga, .rw⟩] ∧ Refines pteOps 4096 s := by
  refine ⟨_, run_giga .rw (by decide), rfl,
    (refines_iff (fun _ => rfl) (run_giga .rw (by decide))).1.mpr fun va _ c hc => ?_⟩
  rcases List.mem_singleton.mp (List.mem_of_find?_eq_some hc) with rfl
  decide

/-- A region mapped for execution only is found readable. -/
theorem not_refines_executeOnly : ∃ s, Relation.ReflTransGen (Step 4096)
    (PtState.init 4096 fun _ _ => 0) s ∧ s.log = [⟨0, 0, .giga, .x⟩] ∧ ¬ Refines pteOps 4096 s :=
  ⟨_, run_giga .x (by decide), rfl, fun h => absurd (h 0 (by decide)) (by decide)⟩

end Riscv64

/-- Both page tables give the same mapping for the address, or none. -/
def Agreement (rv arm : PteOps) (root root' : ℕ) (s s' : PtState) (va : ℕ) : Prop :=
  (rv.lookup s.mem root va).map (VaMapping.view rv s.mem) =
    (arm.lookup s'.mem root' va).map (VaMapping.view arm s'.mem)

/-- An entry that was never written is a leaf of the last level on AArch64. -/
theorem Aarch64.viewAt_zero (memType : ℕ → BitVec 64) :
    (Aarch64.pteOps memType).viewAt (2, 0) = some ⟨0, Perm.urwx, 4096⟩ := by
  change (Aarch64.pteOps fun _ => 0).viewAt (2, 0) = _
  decide

section Agreement

variable {root root' : ℕ} {T T' : PtMem} {s s' : PtState} (memType : ℕ → BitVec 64)

/-- The two page tables agree on an address exactly if some call covered it or no page was mapped
in its region of 2 MiB: elsewhere AArch64 finds a user-accessible mapping. -/
theorem agreement_iff (h0 : ∀ i, T root i = 0) (h0' : ∀ i, T' root' i = 0)
    (hr : Relation.ReflTransGen (PtState.Step Riscv64.pteOps root) (PtState.init root T) s)
    (hr' : Relation.ReflTransGen (PtState.Step (Aarch64.pteOps memType) root')
      (PtState.init root' T') s') (hlog : s.log = s'.log) {va : ℕ} (hva : va < 2 ^ 39) :
    Agreement Riscv64.pteOps (Aarch64.pteOps memType) root root' s s' va ↔
      (∃ c ∈ s.log, c.Covers va) ∨ ¬ HasTable s.log va := by
  have hv := ((PtState.Inv.init h0).run hr).view hva
  have hv' := ((PtState.Inv.init h0').run hr').view hva
  rw [← hlog] at hv'
  rw [Agreement, hv, hv']
  cases hc : latest s.log va with
  | some c =>
    have hcov : c.Covers va := by simpa using List.find?_some hc
    exact ⟨fun _ => Or.inl ⟨c, List.mem_of_find?_eq_some hc, hcov⟩, fun _ => rfl⟩
  | none =>
    have hno : ¬ ∃ c ∈ s.log, c.Covers va := by
      simpa [latest, List.find?_eq_none] using hc
    by_cases ht : HasTable s.log va
    · have hne : Riscv64.pteOps.viewAt (2, 0) ≠ (Aarch64.pteOps memType).viewAt (2, 0) := by
        rw [Riscv64.viewAt_zero, Aarch64.viewAt_zero]
        exact Option.some_ne_none _ |>.symm
      exact ⟨fun h => absurd (by simpa only [ht, if_true] using h) hne,
        fun h => absurd ht (h.resolve_left hno)⟩
    · simp [ht]

end Agreement

/-- One page mapped in an empty table. -/
private theorem run_page (ops : PteOps) (hpa : 2 ^ 48 ≤ 2 ^ ops.paBits)
    (hempty : ops.lookup (fun _ _ => 0) 4096 4096 = none) {T : PtMem} {rest : Supply}
    (hm : ops.map (fun _ _ => 0) 4096 4096 0 .normal .r [some 8192, some 12288] = (true, T, rest)) :
    ∃ used, Relation.ReflTransGen (PtState.Step ops 4096) (PtState.init 4096 fun _ _ => 0)
      ⟨T, used, [⟨4096, 0, .normal, .r⟩]⟩ := by
  have hlt : (12288 : ℕ) < 2 ^ 48 := by decide
  refine ⟨_, .single (.map
    ⟨by decide, by decide, Nat.two_pow_pos _, dvd_zero _, by decide, ?_, fun m hm => ?_⟩ hm)⟩
  · refine ⟨?_, by omega, by decide, ?_, by omega, by decide, trivial⟩ <;> simp [PtState.init]
  · rw [show (PtState.init 4096 fun _ _ => 0).mem = fun _ _ => 0 from rfl, hempty] at hm
    cases hm

/-- The page itself. -/
theorem agreement_iff_page : ∃ s s',
    Relation.ReflTransGen (PtState.Step Riscv64.pteOps 4096) (PtState.init 4096 fun _ _ => 0) s ∧
    Relation.ReflTransGen (PtState.Step (Aarch64.pteOps fun _ => 0) 4096)
      (PtState.init 4096 fun _ _ => 0) s' ∧
    s.log = [⟨4096, 0, .normal, .r⟩] ∧ s.log = s'.log ∧
    Agreement Riscv64.pteOps (Aarch64.pteOps fun _ => 0) 4096 4096 s s' 4096 := by
  obtain ⟨_, hr⟩ := run_page Riscv64.pteOps (by decide) (by decide) rfl
  obtain ⟨_, hr'⟩ := run_page (Aarch64.pteOps fun _ => 0) (by decide) (by decide) rfl
  exact ⟨_, _, hr, hr', rfl, rfl, (agreement_iff _ (fun _ => rfl) (fun _ => rfl) hr hr' rfl
    (by decide)).mpr (Or.inl ⟨_, List.mem_singleton_self _, by decide⟩)⟩

/-- The page after it, which nobody mapped. -/
theorem not_agreement_hole : ∃ s s',
    Relation.ReflTransGen (PtState.Step Riscv64.pteOps 4096) (PtState.init 4096 fun _ _ => 0) s ∧
    Relation.ReflTransGen (PtState.Step (Aarch64.pteOps fun _ => 0) 4096)
      (PtState.init 4096 fun _ _ => 0) s' ∧
    s.log = [⟨4096, 0, .normal, .r⟩] ∧ s.log = s'.log ∧
    ¬ Agreement Riscv64.pteOps (Aarch64.pteOps fun _ => 0) 4096 4096 s s' 8192 ∧
    ∃ m ∈ (Aarch64.pteOps fun _ => 0).lookup s'.mem 4096 8192,
      m.user (Aarch64.pteOps fun _ => 0) s'.mem = true := by
  obtain ⟨_, hr⟩ := run_page Riscv64.pteOps (by decide) (by decide) rfl
  obtain ⟨_, hr'⟩ := run_page (Aarch64.pteOps fun _ => 0) (by decide) (by decide) rfl
  refine ⟨_, _, hr, hr', rfl, rfl, ?_, ⟨(12288, 2), 8192, 4096⟩, ?_, ?_⟩
  · unfold Agreement
    dsimp only
    decide
  · dsimp only
    decide
  · dsimp only
    decide

end Multiplix.Vm
