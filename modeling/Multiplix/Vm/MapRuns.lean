import Multiplix.Vm.Mapping
import Mathlib.Logic.Relation

/-! Runs of `map`: a page table is a function of the log of its successful calls. -/
namespace Multiplix.Vm
open Lib

structure MapCall where
  va : ℕ
  pa : ℕ
  level : PtLevel
  perm : Perm
  deriving DecidableEq

namespace MapCall

/-- The address lies in the region of the call. -/
def Covers (c : MapCall) (va : ℕ) : Prop := c.va ≤ va ∧ va < c.va + level2size c.level

instance (c : MapCall) (va : ℕ) : Decidable (c.Covers va) := inferInstanceAs (Decidable (_ ∧ _))

def mapping (c : MapCall) : Mapping := ⟨c.pa, c.perm, level2size c.level⟩

end MapCall

/-- The last call in the log, latest first, that covers the address. -/
def latest (log : List MapCall) (va : ℕ) : Option MapCall := log.find? fun c => c.Covers va

/-- Some call mapped a page in the same region of 2 MiB. -/
def HasTable (log : List MapCall) (va : ℕ) : Prop :=
  ∃ c ∈ log, c.level = .normal ∧ c.va / level2size .mega = va / level2size .mega

instance (log : List MapCall) (va : ℕ) : Decidable (HasTable log va) :=
  inferInstanceAs (Decidable (∃ c ∈ log, _))

/-- A page table in use, with the tables it may consist of and its successful calls. -/
structure PtState where
  mem : PtMem
  used : Set ℕ
  log : List MapCall

namespace PtState

/-- A call that the page table is meant for. -/
structure Allowed (ops : PteOps) (root : ℕ) (s : PtState) (c : MapCall) (as : Supply) : Prop where
  va_lt : c.va < 2 ^ 39
  va_dvd : level2size c.level ∣ c.va
  pa_lt : c.pa < 2 ^ ops.paBits
  pa_dvd : level2size c.level ∣ c.pa
  perm : c.perm &&& Perm.rwx ≠ 0
  fresh : ops.Fresh s.used as
  uncovered : ∀ m ∈ ops.lookup s.mem root c.va, m.size ≤ level2size c.level

def map (ops : PteOps) (root : ℕ) (s : PtState) (c : MapCall) (as : Supply) :
    Bool × PtMem × Supply :=
  ops.map s.mem root c.va c.pa c.level c.perm as

inductive Step (ops : PteOps) (root : ℕ) : PtState → PtState → Prop
  | map {s : PtState} {c : MapCall} {as rest : Supply} {T' : PtMem} :
      s.Allowed ops root c as → s.map ops root c as = (true, T', rest) →
      Step ops root s ⟨T', s.used ∪ supplied as, c :: s.log⟩
  | mapFail {s : PtState} {c : MapCall} {as rest : Supply} {T' : PtMem} :
      s.Allowed ops root c as → s.map ops root c as = (false, T', rest) →
      Step ops root s ⟨T', s.used ∪ supplied as, s.log⟩

def init (root : ℕ) (T : PtMem) : PtState := ⟨T, {root}, []⟩

/-- The entry where the path of an address ends is what the log says. -/
structure Inv (ops : PteOps) (root : ℕ) (s : PtState) : Prop where
  tree : ops.radix.Tree s.mem root s.used
  mapped : ∀ {va c}, va < 2 ^ 39 → latest s.log va = some c →
    ∃ e, ops.IsEntry c.level c.pa c.perm e ∧
      ops.radix.lookup s.mem root va = some (2 - c.level.toNat, e)
  unmapped : ∀ {va}, va < 2 ^ 39 → latest s.log va = none →
    ops.radix.lookup s.mem root va = if HasTable s.log va then some (2, 0) else none

variable {ops : PteOps} {root : ℕ} {s s' : PtState} {c : MapCall} {as : Supply}

theorem Allowed.open_ (h : s.Allowed ops root c as) : ops.Open s.mem root c.va c.level := by
  intro r hr
  by_contra hlt
  obtain ⟨h1, h2, h3⟩ := Radix.find_eq_some.mp hr
  have hlev := c.level.toNat_le
  have hne : r.1 ≠ ops.radix.last := by
    change r.1 ≠ 2
    omega
  have hs : ops.stops (s.mem r.2 (vpn (2 - r.1) c.va)) = true :=
    PteOps.slot_eq_leaf.mp (h3.resolve_left hne)
  have hheight : (PtLevel.ofHeight (2 - r.1)).toNat = 2 - r.1 :=
    PtLevel.toNat_ofHeight (Nat.sub_le _ _)
  have hn : PtLevel.ofHeight (2 - r.1) ≠ .normal := fun hc => by
    rw [hc, PtLevel.toNat] at hheight
    omega
  have hlook : ops.lookup s.mem root c.va = _ := PteOps.lookup_eq
  rw [Option.mem_def.mp hr, Option.bind_some, if_pos (ops.leaf_of_stops hn hs)] at hlook
  have hsize := toNat_le_of_level2size_le (h.uncovered _ hlook)
  omega

theorem Allowed.pa_aligned (h : s.Allowed ops root c as) : 4096 ∣ c.pa :=
  (by cases c.level <;> decide : 4096 ∣ level2size c.level).trans h.pa_dvd

theorem covers_iff (ha : s.Allowed ops root c as) {va : ℕ} (hva : va < 2 ^ 39) :
    c.Covers va ↔ ops.radix.Agree c.va va (2 - c.level.toNat + 1) := by
  rw [agree_iff ops ha.va_lt hva]
  have hd := ha.va_dvd
  unfold MapCall.Covers
  cases hl : c.level <;> simp only [hl, level2size] at hd ⊢ <;> omega

theorem Inv.init {T : PtMem} (h : ∀ i, T root i = 0) : (init root T).Inv ops root where
  tree := Radix.Tree.init h
  mapped _ h := by cases h
  unmapped _ _ := by
    rw [Radix.lookup, Radix.find_init h (by change 0 < 2; omega),
      if_neg (by simp [HasTable, PtState.init])]
    rfl

theorem Inv.step (h : s.Inv ops root) (hs : Step ops root s s') : s'.Inv ops root := by
  cases hs with
  | @mapFail c as rest T' ha hm =>
    obtain ⟨⟨_, hcut, htree, -⟩, ⟨-, hl⟩ | ⟨h, -⟩⟩ :=
      PteOps.map_spec h.tree ha.open_ ha.fresh ha.pa_lt ha.pa_aligned ha.perm hm
    · refine ⟨htree.mono (hcut ▸ union_supplied_subset), fun hva hc => ?_, fun hva hc => ?_⟩
      · rw [(hl _).2]
        exact h.mapped hva hc
      · rw [(hl _).2]
        exact h.unmapped hva hc
    · cases h
  | @map c as rest T' ha hm =>
    obtain ⟨⟨_, hcut, htree, -⟩, ⟨h, -⟩ | ⟨-, e, he, hl⟩⟩ :=
      PteOps.map_spec h.tree ha.open_ ha.fresh ha.pa_lt ha.pa_aligned ha.perm hm
    · cases h
    have hlatest : ∀ va, latest (c :: s.log) va =
        if c.Covers va then some c else latest s.log va := fun va => by
      rw [latest, List.find?_cons]
      split_ifs with hc <;> simp [hc, latest]
    have hnone : ∀ {va c'}, va < 2 ^ 39 → latest s.log va = some c' →
        ops.radix.lookup s.mem root va ≠ none := fun hva hc => by
      obtain ⟨e, -, hl⟩ := h.mapped hva hc
      simp [hl]
    refine ⟨htree.mono (hcut ▸ union_supplied_subset), fun {va c'} hva hc => ?_,
      fun {va} hva hc => ?_⟩
    · rw [hlatest] at hc
      rw [hl]
      split_ifs at hc with hcov
      · rw [if_pos ((covers_iff ha hva).mp hcov)]
        cases hc
        exact ⟨e, he, rfl⟩
      · rw [if_neg (mt (covers_iff ha hva).mpr hcov), if_neg fun hn => hnone hva hc hn.2.2]
        exact h.mapped hva hc
    · rw [hlatest] at hc
      split_ifs at hc with hcov
      have hmega := agree_iff ops ha.va_lt hva .mega
      have hcons : HasTable (c :: s.log) va ↔
          (c.level = .normal ∧ ops.radix.Agree c.va va 2) ∨ HasTable s.log va := by
        rw [show ops.radix.Agree c.va va 2 ↔ _ from hmega]
        simp [HasTable]
      have hun := h.unmapped hva hc
      rw [hl, if_neg (mt (covers_iff ha hva).mpr hcov)]
      by_cases ht : HasTable s.log va
      · rw [if_pos ht] at hun
        rw [if_neg (by simp [hun]), if_pos (hcons.mpr (Or.inr ht)), hun]
      · rw [if_neg ht] at hun
        simp only [hun, hcons, ht, or_false, and_true]

theorem Inv.run (h : s.Inv ops root) (hr : Relation.ReflTransGen (Step ops root) s s') :
    s'.Inv ops root := by
  induction hr with
  | refl => exact h
  | tail _ hs ih => exact ih.step hs

/-- The lookups of a page table, from its log alone. D initialises the flags that `perm` returns
with `Perm.r`, and an entry of the last level may count as a leaf without being mapped. -/
theorem Inv.view (h : s.Inv ops root) {va : ℕ} (hva : va < 2 ^ 39) :
    (ops.lookup s.mem root va).map (VaMapping.view ops s.mem) =
      match latest s.log va with
      | some c => some { c.mapping with perm := c.perm ||| Perm.r }
      | none => if HasTable s.log va then ops.viewAt (2, 0) else none := by
  rw [PteOps.view_lookup]
  cases hc : latest s.log va with
  | some c =>
    obtain ⟨e, he, hl⟩ := h.mapped hva hc
    have hlev := c.level.toNat_le
    have hh : PtLevel.ofHeight (2 - (2 - c.level.toNat)) = c.level := by
      rw [show 2 - (2 - c.level.toNat) = c.level.toNat by omega, PtLevel.ofHeight_toNat]
    simp only [hl, Option.bind_some, PteOps.viewAt, hh, he.leaf, he.pa_eq, he.perm_eq, if_true,
      MapCall.mapping]
  | none =>
    rw [h.unmapped hva hc]
    split_ifs <;> rfl

end PtState
end Multiplix.Vm
