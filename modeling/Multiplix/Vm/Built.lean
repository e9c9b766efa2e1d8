import Mathlib.Data.List.ReduceOption
import Multiplix.Lib.Tables
import Multiplix.Vm.Descriptor
import Multiplix.Vm.Refinement

/-! Page tables made by any calls of `map` and `map_giga`, on either architecture. -/
namespace Multiplix.Vm
open Core Lib

/-- `Pagetable.map_giga` of AArch64. -/
def Aarch64.mapGiga (memType : ℕ → BitVec 64) (T : PtMem) (root va pa : ℕ) (perm : Perm) : PtMem :=
  let idx := (getBits (BitVec.ofNat 64 va) 38 30).toNat
  Radix.write T root idx (Pte.mappedGiga memType (T root idx) pa perm)

/-- The page table of an architecture. What `map_giga` writes is `gigaEntry`, which is valid as
`gigaValid` says. -/
structure Arch extends PteOps where
  mapGiga : PtMem → ℕ → ℕ → ℕ → Perm → PtMem
  gigaEntry : Pte → ℕ → Perm → Pte
  gigaValid : Perm → Bool
  mapGiga_eq : ∀ {T root va a p}, mapGiga T root va a p =
    Radix.write T root (vpn 2 va) (gigaEntry (T root (vpn 2 va)) a p)
  stops_of_leaf : ∀ {e l}, l ≠ .normal → valid e = true → leaf e l = true → stops e = true
  leaf_mapped : ∀ {e a l p}, p &&& Perm.rwx ≠ 0 → leaf (mapped e a l p) l = true
  gigaEntry_spec : ∀ {e a p}, p &&& Perm.rwx ≠ 0 →
    leaf (gigaEntry e a p) .giga = true ∧ valid (gigaEntry e a p) = gigaValid p

namespace Aarch64

variable (memType : ℕ → BitVec 64)

theorem getBits_vpn (va : ℕ) : (getBits (BitVec.ofNat 64 va) 38 30).toNat = vpn 2 va := by
  have hmask : (mask 64 9).toNat = 2 ^ 9 - 1 := by decide
  rw [vpn_eq, getBits, BitVec.toNat_and, hmask, Nat.and_two_pow_sub_one_eq_mod,
    BitVec.toNat_ushiftRight, BitVec.toNat_ofNat, Nat.shiftRight_eq_div_pow]
  omega

theorem gigaEntry_spec {e : Pte} {a : ℕ} {p : Perm} :
    Pte.leaf (Pte.mappedGiga memType e a p) .giga = true ∧
      Pte.valid (Pte.mappedGiga memType e a p) = p.has .r := by
  have htable : Pte.table (Pte.mappedGiga memType e a p) = false := by
    rw [Pte.table, flag_eq _ (by decide), getLsbD_mappedGiga, getLsbD_setPerm, Pte.setTable,
      getLsbD_setFlag _ _ (by decide) (by decide)]
    simp
  constructor
  · rw [Pte.leaf, htable]
    rfl
  · rw [Pte.valid, flag_eq _ (by decide), getLsbD_mappedGiga, getLsbD_setPerm]
    simp

theorem stops_of_leaf {e : Pte} {l : PtLevel} (hl : l ≠ .normal) (hv : Pte.valid e = true)
    (h : Pte.leaf e l = true) : Pte.stops e = true := by
  rw [Pte.leaf, if_neg hl] at h
  rw [Pte.stops, hv, h]
  rfl

theorem mapGiga_eq {T : PtMem} {root va a : ℕ} {p : Perm} : mapGiga memType T root va a p =
    Radix.write T root (vpn 2 va) (Pte.mappedGiga memType (T root (vpn 2 va)) a p) := by
  rw [mapGiga, getBits_vpn]

def arch : Arch :=
  ⟨pteOps memType, mapGiga memType, Pte.mappedGiga memType, fun p => p.has .r, mapGiga_eq memType,
    stops_of_leaf, fun _ => leaf_mapped memType, fun _ => gigaEntry_spec memType⟩

end Aarch64

namespace Riscv64

/-- What `map_giga` writes over an entry. -/
def Pte.mappedGiga (e : Pte) (a : ℕ) (p : Perm) : Pte := validate (setPa (setPerm e p) a)

theorem gigaEntry_spec {e : Pte} {a : ℕ} {p : Perm} (hp : p &&& Perm.rwx ≠ 0) :
    Pte.leaf (Pte.mappedGiga e a p) = true ∧ Pte.valid (Pte.mappedGiga e a p) = true := by
  have hall : ∀ q : Perm, q &&& Perm.rwx ≠ 0 → (q.has .r || q.has .w || q.has .x) = true := by
    decide
  constructor
  · have hbit : ∀ i, 1 ≤ i → i ≤ 3 →
        (Pte.mappedGiga e a p).getLsbD i = (Pte.setPerm e p).getLsbD i :=
      fun i h1 h3 => by
        rw [Pte.mappedGiga, getLsbD_validate, getLsbD_setPa, if_neg (by omega), if_neg (by omega),
          if_neg (by omega), if_neg (by omega)]
    rw [leaf_eq, hbit 1 (by decide) (by decide), hbit 2 (by decide) (by decide),
      hbit 3 (by decide) (by decide), getLsbD_setPerm, getLsbD_setPerm, getLsbD_setPerm]
    exact hall p hp
  · rw [Pte.valid, flag_eq _ (by decide), Pte.mappedGiga, getLsbD_validate]
    simp

def arch : Arch :=
  ⟨pteOps, mapGiga, Pte.mappedGiga, fun _ => true, rfl, fun _ _ h => h, leaf_mapped,
    gigaEntry_spec⟩

end Riscv64

/-- A call, with the answers of the allocator where it asks. -/
inductive Call
  | map (c : MapCall) (as : Supply)
  | mapGiga (va pa : ℕ) (perm : Perm)

namespace Arch

variable (A : Arch)

/-- The entry points to a table. -/
def IsTable (e : Pte) (l : PtLevel) : Prop := A.valid e = true ∧ A.leaf e l = false

/-- The call writes a leaf over an entry that points to a table. -/
def Overwrites (root : ℕ) (T : PtMem) : Call → Prop
  | .map c as =>
    let w := A.walk T root c.va c.level as
    ∃ x ∈ w.pte, A.IsTable (w.mem x.1 x.2) w.endlevel
  | .mapGiga va _ _ => A.IsTable (T root (vpn 2 va)) .giga

/-- The page tables that calls with the property `P` make, with the tables that the allocator
answered. -/
inductive Built (root : ℕ) (P : PtMem → Call → Prop) : PtMem → List ℕ → Prop
  | init {T} (h : ∀ i, T root i = 0) : Built root P T []
  | map {T T' ts c as cs rest ok} (h : Built root P T ts) (hP : P T (.map c as))
      (hp : c.perm &&& Perm.rwx ≠ 0) (hf : A.Fresh (insert root {t | t ∈ ts}) as)
      (hm : A.map T root c.va c.pa c.level c.perm as = (ok, T', rest)) (hc : as = cs ++ rest) :
      Built root P T' (ts ++ cs.reduceOption)
  | mapGiga {T ts va pa perm} (h : Built root P T ts) (hP : P T (.mapGiga va pa perm))
      (hp : perm &&& Perm.rwx ≠ 0) : Built root P (A.mapGiga T root va pa perm) ts
  /-- Other memory changes. -/
  | other {T T' ts} (h : Built root P T ts) (hT : ∀ t, t = root ∨ t ∈ ts → T' t = T t) :
      Built root P T' ts

/-- What an entry of a table at a depth is. An entry of the root is zero or valid if `strict`. -/
structure Good (strict : Prop) (d : ℕ) (e : Pte) : Prop where
  leaf : d = 2 → A.valid e = true → A.leaf e .normal = true
  valid : 0 < d ∨ strict → e = 0 ∨ A.valid e = true

variable {A} {strict : Prop} {root va pt : ℕ} {F : Radix.Tables Pte} {as : Supply} {lev : PtLevel}
  {e : Pte} {d : ℕ}

theorem good_zero : A.Good strict d 0 :=
  ⟨fun _ hv => absurd hv (by rw [A.valid_zero]; decide), fun _ => Or.inl rfl⟩

theorem slot_of_valid {l : PtLevel} (hl : l ≠ .normal) (hv : A.valid e = true) :
    A.radix.slot e = if A.leaf e l = true then .leaf else .link (A.pa e) := by
  split_ifs with h
  · exact PteOps.slot_leaf (A.stops_of_leaf hl hv h)
  · have hs : A.stops e = false := by
      by_contra hc
      exact h (A.leaf_of_stops hl (Bool.eq_true_of_not_eq_false hc))
    exact PteOps.slot_link hs hv

/-- What is no table entry leads nowhere. -/
theorem child_of_not_isTable {l : PtLevel} (hl : l ≠ .normal) (h : ¬ A.IsTable e l) :
    (A.radix.slot e).child = none := by
  by_cases hv : A.valid e = true
  · have hleaf : A.leaf e l = true := by
      by_contra hc
      exact h ⟨hv, by simpa using hc⟩
    rw [slot_of_valid hl hv, if_pos hleaf, Slot.child]
  · rw [Bool.not_eq_true] at hv
    by_cases hs : A.stops e = true
    · rw [PteOps.slot_leaf hs, Slot.child]
    · rw [PteOps.slot_empty (by simpa using hs) hv, Slot.child]

abbrev Linked (A : Arch) (strict : Prop) (root : ℕ) (F : Radix.Tables Pte) : Prop :=
  Radix.Tables.Linked A.radix 512 (A.Good strict) root F

abbrev Full (A : Arch) (root : ℕ) (F : Radix.Tables Pte) : Prop :=
  Radix.Tables.Full A.radix 512 root F

theorem vpn_lt (level va : ℕ) : vpn level va < 512 := by
  rw [vpn_eq]
  exact Nat.mod_lt _ (by decide)

/-- A walk ends at a table of its level, and links the tables that it takes from the allocator. -/
theorem walkLoop_tables (n : ℕ) (h : A.Linked strict root F) (hpt : pt ∈ F.used)
    (hd : F.depth pt + n = 2) (hlev : lev.toNat ≤ n) (hf : A.Fresh F.used as) :
    ∃ cs F', as = cs ++ (A.walkLoop va lev n pt F.mem as).rest ∧
      F'.mem = (A.walkLoop va lev n pt F.mem as).mem ∧ F'.used = F.used ∪ supplied cs ∧
      A.Linked strict root F' ∧ (A.Full root F → A.Full root F') ∧
      ∀ x ∈ (A.walkLoop va lev n pt F.mem as).pte, x.1 ∈ F'.used ∧ x.2 < 512 ∧
        F'.depth x.1 + (A.walkLoop va lev n pt F.mem as).endlevel.toNat = 2 := by
  induction n generalizing F pt as with
  | zero =>
    refine ⟨[], F, rfl, rfl, by simp, h, id, fun x hx => ?_⟩
    obtain rfl : (pt, vpn lev.toNat va) = x := Option.some.inj hx
    exact ⟨hpt, vpn_lt _ _, by simpa [PteOps.walkLoop, Nat.le_zero.mp hlev] using hd⟩
  | succ n ih =>
    have hdepth : F.depth pt < A.radix.last := show F.depth pt < 2 by omega
    rw [PteOps.walkLoop]
    dsimp only
    by_cases hgt : n + 1 > lev.toNat
    swap
    · rw [if_neg hgt]
      refine ⟨[], F, rfl, rfl, by simp, h, id, fun x hx => ?_⟩
      obtain rfl : (pt, vpn lev.toNat va) = x := Option.some.inj hx
      exact ⟨hpt, vpn_lt _ _, show F.depth pt + lev.toNat = 2 by omega⟩
    rw [if_pos hgt]
    by_cases hs : A.stops (F.mem pt (vpn (n + 1) va)) = true
    · rw [if_pos hs]
      refine ⟨[], F, rfl, rfl, by simp, h, id, fun x hx => ?_⟩
      obtain rfl : (pt, vpn (n + 1) va) = x := Option.some.inj hx
      refine ⟨hpt, vpn_lt _ _, ?_⟩
      rw [PtLevel.toNat_ofHeight (by omega), hd]
    rw [if_neg hs]
    rw [Bool.not_eq_true] at hs
    by_cases hv : A.valid (F.mem pt (vpn (n + 1) va)) = true
    · rw [if_pos hv]
      have hedge := h.edge ⟨hpt, hdepth, vpn_lt (n + 1) va, PteOps.slot_link hs hv⟩
      exact ih h hedge.1 (by omega) (by omega) hf
    rw [if_neg hv]
    rw [Bool.not_eq_true] at hv
    -- a table is missing
    rcases as with _ | ⟨_ | t, as⟩
    · exact ⟨[], F, rfl, rfl, by simp, h, id, fun x hx => absurd hx (Option.not_mem_none x)⟩
    · exact ⟨[none], F, rfl, rfl, by simp, h, id, fun x hx => absurd hx (Option.not_mem_none x)⟩
    · obtain ⟨hfresh, hpa, hal, hf⟩ := hf
      have hpt' : pt ≠ t := fun hc => hfresh (hc ▸ hpt)
      have hsame : A.radix.clear F.mem t pt (vpn (n + 1) va) = F.mem pt (vpn (n + 1) va) := by
        rw [Radix.clear, Function.update_of_ne hpt']
      obtain ⟨hstop, hvalid, hpa'⟩ := A.link_spec hv hs hpa hal
      have hslot : A.radix.slot (A.link (F.mem pt (vpn (n + 1) va)) t) = .link t := by
        rw [PteOps.slot_link hstop hvalid, hpa']
      have hempty : (A.radix.slot (F.mem pt (vpn (n + 1) va))).child = none := by
        rw [PteOps.slot_empty hs hv, Slot.child]
      have hlink := h.link (i := vpn (n + 1) va) hpt hfresh hslot
        ⟨fun hc => by omega, fun _ => Or.inr hvalid⟩ good_zero
      have htd : (F.link A.radix pt (vpn (n + 1) va)
          (A.link (F.mem pt (vpn (n + 1) va)) t) t).depth t = F.depth pt + 1 :=
        Function.update_self ..
      have hwalk : ptalloc F.mem (some t :: as) = (some t, A.radix.clear F.mem t, as) := rfl
      rw [hwalk]
      dsimp only
      rw [hsame]
      obtain ⟨cs, F', hc, hm, hu, hl, hfull, hx⟩ :=
        ih hlink (Set.mem_insert t _) (by rw [htd]; omega) (by omega) hf
      refine ⟨some t :: cs, F', congrArg (some t :: ·) hc, hm, ?_, hl, fun hF => ?_, hx⟩
      · rw [hu, union_supplied_some]
        rfl
      · exact hfull (hF.link hpt hdepth (vpn_lt _ _) hfresh hslot hempty)

variable {T T' : PtMem} {ts : List ℕ} {P : PtMem → Call → Prop}

theorem map_tables {c : MapCall} {rest : Supply} {ok : Bool} (h : A.Linked strict root F)
    (hp : c.perm &&& Perm.rwx ≠ 0) (hf : A.Fresh F.used as)
    (hm : A.map F.mem root c.va c.pa c.level c.perm as = (ok, T', rest)) :
    ∃ cs F', as = cs ++ rest ∧ F'.mem = T' ∧ F'.used = F.used ∪ supplied cs ∧
      A.Linked strict root F' ∧
      (A.Full root F → ¬ A.Overwrites root F.mem (.map c as) → A.Full root F') := by
  have hroot : F.depth root + 2 = 2 := by rw [h.root_depth]
  obtain ⟨cs, F', hc, hmem, hused, hl, hfull, hx⟩ :=
    @walkLoop_tables A strict root c.va root F as c.level 2 h h.root_mem hroot c.level.toNat_le hf
  unfold PteOps.map PteOps.walk at hm
  rw [show PtLevel.giga.toNat = 2 from rfl] at hm
  rcases hpte : (A.walkLoop c.va c.level 2 root F.mem as).pte with _ | ⟨t, i⟩
  · simp only [hpte, Prod.mk.injEq] at hm
    obtain ⟨-, rfl, rfl⟩ := hm
    exact ⟨cs, F', hc, hmem, hused, hl, fun hF _ => hfull hF⟩
  · simp only [hpte, Prod.mk.injEq] at hm
    obtain ⟨-, rfl, rfl⟩ := hm
    obtain ⟨ht, -, hd⟩ := hx _ hpte
    dsimp only at ht hd
    have hnormal : F'.depth t < 2 →
        (A.walkLoop c.va c.level 2 root F.mem as).endlevel ≠ .normal := fun hlt hc => by
      have hz : F'.depth t + 0 = 2 := by rwa [hc] at hd
      omega
    have hleaf := A.leaf_mapped (e := F'.mem t i) (a := c.pa)
      (l := (A.walkLoop c.va c.level 2 root F.mem as).endlevel) hp
    have hend : F'.depth t < 2 → (A.radix.slot (A.mapped (F'.mem t i) c.pa
        (A.walkLoop c.va c.level 2 root F.mem as).endlevel c.perm)).child = none := fun hlt =>
      child_of_not_isTable (hnormal hlt) fun hc => by
        rw [IsTable, hleaf] at hc
        cases hc.2
    have hgood : A.Good strict (F'.depth t) (A.mapped (F'.mem t i) c.pa
        (A.walkLoop c.va c.level 2 root F.mem as).endlevel c.perm) := by
      refine ⟨fun h2 _ => ?_, fun _ => Or.inr A.valid_mapped⟩
      have hz : (A.walkLoop c.va c.level 2 root F.mem as).endlevel.toNat = 0 := by omega
      have hn : (A.walkLoop c.va c.level 2 root F.mem as).endlevel = .normal := by
        rw [← PtLevel.ofHeight_toNat (A.walkLoop c.va c.level 2 root F.mem as).endlevel, hz]
        rfl
      rw [hn] at hleaf ⊢
      exact hleaf
    rw [← hmem]
    refine ⟨cs, F'.write t i _, hc, rfl, hused, hl.write ht hgood hend, fun hF hno => ?_⟩
    refine (hfull hF).write hend fun hlt => child_of_not_isTable (hnormal hlt) fun htable => hno ?_
    rw [hmem] at htable
    exact ⟨(t, i), hpte, htable⟩

theorem mapGiga_tables {pa : ℕ} {perm : Perm} (h : A.Linked strict root F)
    (hp : perm &&& Perm.rwx ≠ 0) (hs : strict → A.gigaValid perm = true) :
    ∃ F', F'.mem = A.mapGiga F.mem root va pa perm ∧ F'.used = F.used ∧ A.Linked strict root F' ∧
      (A.Full root F → ¬ A.Overwrites root F.mem (.mapGiga va pa perm) → A.Full root F') := by
  obtain ⟨hleaf, hvalid⟩ := A.gigaEntry_spec (e := F.mem root (vpn 2 va)) (a := pa) hp
  have hend : F.depth root < A.radix.last →
      (A.radix.slot (A.gigaEntry (F.mem root (vpn 2 va)) pa perm)).child = none := fun _ =>
    child_of_not_isTable (l := .giga) (by decide) fun hc => by
      rw [IsTable, hleaf] at hc
      cases hc.2
  have hgood : A.Good strict (F.depth root) (A.gigaEntry (F.mem root (vpn 2 va)) pa perm) := by
    rw [h.root_depth]
    exact ⟨fun hc => by omega, fun hc => Or.inr (by rw [hvalid, hs (by simpa using hc)])⟩
  refine ⟨F.write root (vpn 2 va) _, A.mapGiga_eq.symm, rfl, h.write h.root_mem hgood hend,
    fun hF hno => hF.write hend fun _ => child_of_not_isTable (l := .giga) (by decide) hno⟩

/-- Every page table is made of tables that are linked once: the root and some or, if no table
entry was overwritten, all of those that the allocator answered. -/
theorem Built.tables (h : A.Built root P T ts)
    (hs : strict → ∀ {T va pa perm}, P T (.mapGiga va pa perm) → A.gigaValid perm = true) :
    ∃ F, F.mem = T ∧ F.used = insert root {t | t ∈ ts} ∧ A.Linked strict root F ∧
      ((∀ {T c}, P T c → ¬ A.Overwrites root T c) → A.Full root F) := by
  induction h with
  | @init T h0 =>
    refine ⟨.init T root, rfl, by simp [Radix.Tables.init], Radix.Tables.init_linked good_zero h0,
      fun _ => Radix.Tables.init_full⟩
  | map _ hP hp hf hm hc ih =>
    obtain ⟨F, rfl, hu, hl, hF⟩ := ih
    rw [← hu] at hf
    obtain ⟨cs, F', hc', hmem, hused, hl', hF'⟩ := map_tables hl hp hf hm
    obtain rfl := List.append_cancel_right (hc.symm.trans hc')
    refine ⟨F', hmem, ?_, hl', fun hno => hF' (hF hno) (hno hP)⟩
    rw [hused, hu]
    ext t
    simp [supplied, List.reduceOption_mem_iff, or_assoc]
  | mapGiga _ hP hp ih =>
    obtain ⟨F, rfl, hu, hl, hF⟩ := ih
    obtain ⟨F', hmem, hused, hl', hF'⟩ := mapGiga_tables hl hp fun hst => hs hst hP
    exact ⟨F', hmem, hused.trans hu, hl', fun hno => hF' (hF hno) (hno hP)⟩
  | other _ hT ih =>
    obtain ⟨F, rfl, hu, hl, hF⟩ := ih
    have hframe : ∀ x ∈ F.used, _ := fun x hx => hT x (by rw [hu] at hx; exact hx)
    exact ⟨{ F with mem := _ }, rfl, hu, hl.frame hframe, fun hno => (hF hno).frame hframe⟩

/-- The allocator answers no table twice. -/
theorem fresh_nodup {used : Set ℕ} (hf : A.Fresh used as) : as.reduceOption.Nodup ∧
    ∀ t ∈ as.reduceOption, t ∉ used := by
  induction as generalizing used with
  | nil => simp
  | cons a as ih =>
    cases a with
    | none => exact ih hf
    | some t =>
      obtain ⟨hnd, hout⟩ := ih hf.2.2.2
      rw [List.reduceOption_cons_of_some, List.nodup_cons]
      refine ⟨⟨fun ht => hout t ht (Set.mem_insert t used), hnd⟩, fun s hs => ?_⟩
      rcases List.mem_cons.mp hs with rfl | hs
      · exact hf.1
      · exact fun hc => hout s hs (Set.mem_insert_of_mem t hc)

theorem Built.nodup (h : A.Built root P T ts) : ts.Nodup ∧ root ∉ ts := by
  induction h with
  | init => simp
  | map _ _ _ hf _ hc ih =>
    rw [hc, PteOps.fresh_append] at hf
    obtain ⟨hnd, hout⟩ := fresh_nodup hf.1
    constructor
    · refine List.nodup_append.mpr ⟨ih.1, hnd, fun t ht s hs he => ?_⟩
      exact hout s hs (Set.mem_insert_of_mem _ (he ▸ ht))
    · rw [List.mem_append, not_or]
      exact ⟨ih.2, fun hr => hout _ hr (Set.mem_insert _ _)⟩
  | mapGiga _ _ _ ih => exact ih
  | other _ _ ih => exact ih

end Arch
end Multiplix.Vm
