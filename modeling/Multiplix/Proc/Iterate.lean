import Multiplix.Proc.Fork
import Multiplix.Vm.Built

/-! `PtIter` enumerates the pages of a page table. -/
namespace Multiplix.Proc
open Lib Vm

/-- Calling `next` until it answers nothing. -/
def PtIter.toList (ops : PteOps) (T : PtMem) (n : ℕ) : ℕ → PtIter → List VaMapping
  | 0, _ => []
  | k + 1, it =>
    match it.next ops T n with
    | none => []
    | some (map, it) => map :: toList ops T n k it

variable (A : Arch) (T : PtMem) (root : ℕ)

/-- The valid leaf entry of 4 KiB for an address: table entries lead to it at both levels above. -/
def leaf4K (va : ℕ) : Option (ℕ × ℕ) :=
  let giga := T root (vpn 2 va)
  if A.valid giga && !A.leaf giga .giga then
    let mega := T (A.pa giga) (vpn 1 va)
    if A.valid mega && !A.leaf mega .mega then
      let pte := T (A.pa mega) (vpn 0 va)
      if A.valid pte && A.leaf pte .normal then some (A.pa mega, vpn 0 va) else none
    else none
  else none

/-- The address lies in a valid superpage. -/
def superpage (va : ℕ) : Bool :=
  let giga := T root (vpn 2 va)
  let mega := T (A.pa giga) (vpn 1 va)
  A.valid giga && (A.leaf giga .giga || A.valid mega && A.leaf mega .mega)

/-- The mappings `ms` are those of the user pages, each once, from the lowest address on. -/
structure Enumerates (ms : List VaMapping) : Prop where
  increasing : (ms.map VaMapping.va).Pairwise (· < ·)
  mem_iff : ∀ va, va ∈ ms.map VaMapping.va ↔
    va < maxVa ∧ 4096 ∣ va ∧ (leaf4K A T root va).isSome = true
  own : ∀ m ∈ ms, leaf4K A T root m.va = some m.pte ∧ m.size = 4096
  distinct : (ms.map VaMapping.pte).Nodup
  skips : ∀ m ∈ ms, superpage A T root m.va = false

variable {A T root} {va va' j k n : ℕ} {x : Option (ℕ × ℕ)}

/-! ### Where a walk stops -/

/-- The level at which the walk of an address stops at an entry. -/
def stopLevel (A : Arch) (T : PtMem) (root va : ℕ) : PtLevel :=
  match A.radix.find T root va with
  | some r => .ofHeight (2 - r.1)
  | none => .normal

theorem leaf4K_eq : leaf4K A T root va = (A.radix.find T root va).bind fun r =>
    if r.1 = 2 ∧ A.valid (T r.2 (vpn 0 va)) = true ∧ A.leaf (T r.2 (vpn 0 va)) .normal = true then
      some (r.2, vpn 0 va)
    else none := by
  have hempty : ∀ {e : Pte} {l : PtLevel}, A.valid e = false →
      A.radix.slot e = .leaf ∨ A.radix.slot e = .empty := fun {e _} hv => by
    by_cases hs : A.stops e = true
    · exact Or.inl (PteOps.slot_leaf hs)
    · exact Or.inr (PteOps.slot_empty (by simpa using hs) hv)
  rw [leaf4K, Radix.find, show A.radix.last = 2 from rfl, Radix.findFrom,
    show A.radix.index 0 va = vpn 2 va from rfl]
  dsimp only
  cases hv : A.valid (T root (vpn 2 va)) with
  | false => rcases hempty (l := .giga) hv with hs | hs <;> simp [hs]
  | true =>
    rw [Arch.slot_of_valid (l := .giga) (by decide) hv]
    cases hl : A.leaf (T root (vpn 2 va)) .giga with
    | true => simp
    | false =>
      simp only [Bool.false_eq_true, if_false, Bool.not_false, Bool.and_true, if_true]
      rw [Radix.findFrom, show A.radix.index (0 + 1) va = vpn 1 va from rfl]
      cases hv' : A.valid (T (A.pa (T root (vpn 2 va))) (vpn 1 va)) with
      | false => rcases hempty (l := .mega) hv' with hs | hs <;> simp [hs]
      | true =>
        rw [Arch.slot_of_valid (l := .mega) (by decide) hv']
        cases hl' : A.leaf (T (A.pa (T root (vpn 2 va))) (vpn 1 va)) .mega with
        | true => simp
        | false => simp [Radix.findFrom]

theorem leaf4K_of_stopLevel (h : stopLevel A T root va ≠ .normal) :
    leaf4K A T root va = none := by
  rw [leaf4K_eq]
  rw [stopLevel] at h
  cases hf : A.radix.find T root va with
  | none => rfl
  | some r =>
    rw [hf] at h
    rw [Option.bind_some, if_neg]
    rintro ⟨h2, -⟩
    exact h (congrArg (PtLevel.ofHeight <| 2 - ·) h2)

/-- The addresses of a superpage have the same walk. -/
theorem stopLevel_congr (hva : va < 2 ^ 39) (hva' : va' < 2 ^ 39)
    (h : stopLevel A T root va' ≠ .normal) (hdiv : va / level2size (stopLevel A T root va') =
      va' / level2size (stopLevel A T root va')) :
    stopLevel A T root va = stopLevel A T root va' := by
  unfold stopLevel at h hdiv ⊢
  cases hf : A.radix.find T root va' with
  | none =>
    rw [hf] at h
    exact absurd rfl h
  | some r =>
    obtain ⟨d, t⟩ := r
    rw [hf] at h hdiv
    dsimp only at h hdiv
    obtain ⟨hd, hn, hs⟩ := Radix.find_eq_some.mp hf
    have hd2 : d ≤ 2 := hd
    have hne : d ≠ 2 := fun hc => h (by rw [hc]; rfl)
    have hag := (agree_iff A.toPteOps hva hva' (.ofHeight (2 - d))).mpr hdiv
    rw [PtLevel.toNat_ofHeight (Nat.sub_le _ _), show 2 - (2 - d) + 1 = d + 1 by omega,
      Radix.Agree.succ_iff] at hag
    have hslot := hs.resolve_left hne
    rw [← hag.2] at hslot
    have hf' : A.radix.find T root va = some (d, t) :=
      Radix.find_eq_some.mpr ⟨hd, by rw [Radix.node_congr hag.1, hn], Or.inr hslot⟩
    rw [hf']

/-! ### The cursor -/

/-- The address is the first of the superpage that it lies in. -/
def Starts (A : Arch) (T : PtMem) (root va : ℕ) : Prop := level2size (stopLevel A T root va) ∣ va

theorem starts_zero : Starts A T root 0 := dvd_zero _

theorem level2size_le (l : PtLevel) : level2size l ≤ 2 ^ 30 := by cases l <;> decide

private theorem next_dvd {l l' : PtLevel} (h : level2size l ∣ va) (hc : l' ≠ .normal →
    va / level2size l' = (va + level2size l) / level2size l' → l = l') :
    level2size l' ∣ va + level2size l := by
  by_cases hl : l'.toNat ≤ l.toNat
  · have hdvd : level2size l' ∣ level2size l := by
      cases l <;> cases l' <;> revert hl <;> decide
    exact Dvd.dvd.trans hdvd ((Nat.dvd_add_right h).mpr dvd_rfl)
  · have hne : l' ≠ .normal := fun he => hl (by rw [he]; exact Nat.zero_le _)
    by_contra hnot
    have hdiv : va / level2size l' = (va + level2size l) / level2size l' := by
      cases l <;> cases l' <;> simp only [PtLevel.toNat, level2size] at hl h hnot ⊢ <;> omega
    exact hl (by rw [hc hne hdiv])

/-- Going on by what the walk stopped at leads to the start of the next superpage. -/
theorem Starts.next (h : Starts A T root va) (hva : va < 2 ^ 38) :
    Starts A T root (va + level2size (stopLevel A T root va)) := by
  have hsize := level2size_le (stopLevel A T root va)
  have hlt : va < 2 ^ 39 := by omega
  have hlt' : va + level2size (stopLevel A T root va) < 2 ^ 39 := by omega
  exact next_dvd h (stopLevel_congr hlt hlt')

/-- What one step passes over is not mapped, unless it is the page of the cursor. -/
theorem leaf4K_skipped (h : Starts A T root va) (hlt : va < va')
    (hlt' : va' < va + level2size (stopLevel A T root va)) (hd : 4096 ∣ va) (hd' : 4096 ∣ va')
    (hva : va < 2 ^ 38) : leaf4K A T root va' = none := by
  have hsize := level2size_le (stopLevel A T root va)
  have hlt39 : va < 2 ^ 39 := by omega
  have hlt39' : va' < 2 ^ 39 := by omega
  have hcongr := @stopLevel_congr A T root _ _ hlt39' hlt39
  have hleaf := @leaf4K_of_stopLevel A T root va'
  unfold Starts at h
  revert h hlt' hcongr
  generalize stopLevel A T root va = l
  intro h hlt' hcongr
  have hne : l ≠ .normal := fun hc => by
    rw [hc, level2size] at hlt'
    omega
  have hdiv : va' / level2size l = va / level2size l := by
    cases l <;> simp only [level2size] at h hlt' ⊢ <;> omega
  exact hleaf (by rwa [hcongr hne hdiv])

/-- The entries of the last level that are valid are leaves. -/
def LeavesLast (A : Arch) (T : PtMem) (root : ℕ) : Prop :=
  ∀ va t, A.radix.find T root va = some (2, t) → A.valid (T t (vpn 0 va)) = true →
    A.leaf (T t (vpn 0 va)) .normal = true

theorem advance_eq (hl : LeavesLast A T root) (hva : va < maxVa) :
    PtIter.advance A.toPteOps T ⟨va, x, root⟩ =
      some ⟨va + level2size (stopLevel A T root va), leaf4K A T root va, root⟩ := by
  rw [PtIter.advance, if_neg hva.not_ge, leaf4K_eq, stopLevel]
  dsimp only
  cases hf : A.radix.find T root va with
  | none =>
    rw [PteOps.walk_of_find_none hf]
    rfl
  | some r =>
    obtain ⟨d, t⟩ := r
    obtain ⟨hw, hend⟩ := PteOps.walk_of_find hf
    rw [hw, hend]
    dsimp only
    by_cases h2 : d = 2
    · subst h2
      have hnormal : PtLevel.ofHeight 0 = .normal := rfl
      have hlast := hl va t hf
      cases hv : A.valid (T t (vpn 0 va)) with
      | false => simp [hv]
      | true => simp [hv, hnormal, hlast hv]
    · have hd := (Radix.find_eq_some.mp hf).1
      have hd2 : d ≤ 2 := hd
      have hne : PtLevel.ofHeight (2 - d) ≠ .normal := by
        rcases (by omega : d = 0 ∨ d = 1) with rfl | rfl <;> decide
      simp [h2, hne]

/-! ### The whole iteration -/

/-- The mapping of page `k`. -/
def pageAt (A : Arch) (T : PtMem) (root k : ℕ) : Option VaMapping :=
  (leaf4K A T root (k * 4096)).map fun pte => ⟨pte, k * 4096, 4096⟩

/-- The mappings of the user pages from page `k` on. -/
def pagesFrom (A : Arch) (T : PtMem) (root k : ℕ) : List VaMapping :=
  (List.range' k (userPages - k)).filterMap (pageAt A T root)

theorem pagesFrom_of_le (h : userPages ≤ k) : pagesFrom A T root k = [] := by
  rw [pagesFrom, Nat.sub_eq_zero_of_le h]
  rfl

theorem pagesFrom_eq (h : k < userPages) : pagesFrom A T root k =
    match pageAt A T root k with
    | none => pagesFrom A T root (k + 1)
    | some m => m :: pagesFrom A T root (k + 1) := by
  obtain ⟨d, hd⟩ : ∃ d, userPages - k = d + 1 := ⟨userPages - k - 1, by omega⟩
  rw [pagesFrom, hd, List.range'_succ, List.filterMap_cons, pagesFrom,
    show userPages - (k + 1) = d by omega]
  cases pageAt A T root k <;> rfl

/-- Pages that are not mapped add nothing. -/
theorem pagesFrom_skip (hkj : k ≤ j) (h : ∀ i, k ≤ i → i < j → leaf4K A T root (i * 4096) = none) :
    pagesFrom A T root k = pagesFrom A T root j := by
  induction j, hkj using Nat.le_induction with
  | base => rfl
  | succ j hkj ih =>
    rw [ih fun i h1 h2 => h i h1 (by omega)]
    by_cases hj : j < userPages
    · rw [pagesFrom_eq hj, pageAt, h j hkj (by omega)]
      rfl
    · rw [pagesFrom_of_le (by omega), pagesFrom_of_le (by omega)]

/-- `next` finds the next mapping and leaves the cursor behind it. -/
theorem next_eq (hl : LeavesLast A T root) (hs : Starts A T root (k * 4096))
    (hn : userPages - k < n) :
    (PtIter.next A.toPteOps T n ⟨k * 4096, x, root⟩ = none ∧ pagesFrom A T root k = []) ∨
    ∃ m j x', k < j ∧ PtIter.next A.toPteOps T n ⟨k * 4096, x, root⟩ =
      some (m, ⟨j * 4096, x', root⟩) ∧ Starts A T root (j * 4096) ∧
      pagesFrom A T root k = m :: pagesFrom A T root j := by
  induction n generalizing k x with
  | zero => omega
  | succ n ih =>
    have hmax := maxVa_eq
    have hpages := userPages_lt
    rw [PtIter.next]
    by_cases hk : userPages ≤ k
    · rw [PtIter.advance, if_pos (show maxVa ≤ k * 4096 by omega)]
      exact Or.inl ⟨rfl, pagesFrom_of_le hk⟩
    have hva : k * 4096 < maxVa := by omega
    have h38 : k * 4096 < 2 ^ 38 := by omega
    -- the cursor stands on pages
    obtain ⟨d, hd0, hd⟩ : ∃ d, 0 < d ∧ level2size (stopLevel A T root (k * 4096)) = d * 4096 := by
      cases stopLevel A T root (k * 4096)
      exacts [⟨1, by decide, by decide⟩, ⟨512, by decide, by decide⟩,
        ⟨512 * 512, by decide, by decide⟩]
    have hnext := hs.next h38
    rw [hd, ← Nat.add_mul] at hnext
    have hskip : ∀ i, k < i → i < k + d → leaf4K A T root (i * 4096) = none := fun i h1 h2 => by
      have hi : i * 4096 < (k + d) * 4096 := Nat.mul_lt_mul_of_pos_right h2 (by decide)
      exact leaf4K_skipped hs (Nat.mul_lt_mul_of_pos_right h1 (by decide))
        (by rwa [hd, ← Nat.add_mul]) (Nat.dvd_mul_left ..) (Nat.dvd_mul_left ..) h38
    rw [advance_eq hl hva, hd, ← Nat.add_mul]
    clear hd hs
    dsimp only
    cases hleaf : leaf4K A T root (k * 4096) with
    | none =>
      dsimp only
      have hfrom : pagesFrom A T root k = pagesFrom A T root (k + d) :=
        pagesFrom_skip (by omega) fun i h1 h2 => by
          rcases Nat.eq_or_lt_of_le h1 with rfl | h1
          · exact hleaf
          · exact hskip i h1 h2
      rw [hfrom]
      rcases ih (x := none) hnext (by omega) with hend | ⟨m, j, x', hj, hrest⟩
      · exact Or.inl hend
      · exact Or.inr ⟨m, j, x', by omega, hrest⟩
    | some pte =>
      have hfrom : pagesFrom A T root (k + 1) = pagesFrom A T root (k + d) :=
        pagesFrom_skip (by omega) fun i h1 h2 => hskip i (by omega) h2
      refine Or.inr ⟨_, k + d, some pte, by omega, rfl, hnext, ?_⟩
      rw [pagesFrom_eq (by omega), pageAt, hleaf, ← hfrom]
      rfl

theorem toList_eq (hl : LeavesLast A T root) (hs : Starts A T root (k * 4096))
    (hn : userPages - k < n) {f : ℕ} (hf : userPages - k < f) :
    PtIter.toList A.toPteOps T n f ⟨k * 4096, x, root⟩ = pagesFrom A T root k := by
  induction f generalizing k x with
  | zero => omega
  | succ f ih =>
    rw [PtIter.toList]
    rcases next_eq (x := x) hl hs hn with ⟨hnext, hfrom⟩ | ⟨m, j, x', hj, hnext, hs', hfrom⟩
    · rw [hnext, hfrom]
    · rw [hnext, hfrom]
      by_cases hu : userPages ≤ k
      · rw [pagesFrom_of_le hu] at hfrom
        cases hfrom
      · exact congrArg (m :: ·) (ih hs' (by omega) (by omega))

/-! ### What is enumerated -/

theorem exists_of_leaf4K {pte : ℕ × ℕ} (h : leaf4K A T root va = some pte) :
    A.radix.find T root va = some (2, pte.1) ∧ pte.2 = vpn 0 va := by
  rw [leaf4K_eq, Option.bind_eq_some_iff] at h
  obtain ⟨r, hr, hif⟩ := h
  split_ifs at hif with hc
  obtain rfl := Option.some.inj hif
  rw [hr, ← hc.1]
  exact ⟨rfl, rfl⟩

theorem superpage_of_leaf4K {pte : ℕ × ℕ} (h : leaf4K A T root va = some pte) :
    superpage A T root va = false := by
  unfold leaf4K at h
  unfold superpage
  dsimp only at h ⊢
  split_ifs at h with h1 h2 h3
  simp only [Bool.and_eq_true, Bool.not_eq_true'] at h1 h2
  simp [h1, h2]

variable {F : Radix.Tables Pte} {strict : Prop}

theorem index_lt (d va : ℕ) : A.radix.index d va < 512 := Arch.vpn_lt _ _

theorem leavesLast_of_linked (h : A.Linked strict root F) : LeavesLast A F.mem root :=
  fun va t hf hv => by
    obtain ⟨-, hn, -⟩ := Radix.find_eq_some.mp hf
    obtain ⟨hu, hd⟩ := h.node_mem index_lt le_rfl hn
    exact (h.good t hu (vpn 0 va) (Arch.vpn_lt 0 va)).leaf hd hv

/-- Two pages do not share an entry. -/
theorem leaf4K_inj (h : A.Linked strict root F) {pte : ℕ × ℕ} (hva : va < 2 ^ 39)
    (hva' : va' < 2 ^ 39) (hl : leaf4K A F.mem root va = some pte)
    (hl' : leaf4K A F.mem root va' = some pte) : va / 4096 = va' / 4096 := by
  obtain ⟨hf, hi⟩ := exists_of_leaf4K hl
  obtain ⟨hf', hi'⟩ := exists_of_leaf4K hl'
  have hag := h.node_unique index_lt le_rfl (Radix.find_eq_some.mp hf).2.1
    (Radix.find_eq_some.mp hf').2.1
  exact (agree_iff A.toPteOps hva hva' .normal).mp
    (Radix.Agree.succ_iff.mpr ⟨hag, hi.symm.trans hi'⟩)

theorem pageAt_eq_some {m : VaMapping} :
    pageAt A T root k = some m ↔ leaf4K A T root (k * 4096) = some m.pte ∧ m.va = k * 4096 ∧
      m.size = 4096 := by
  rw [pageAt, Option.map_eq_some_iff]
  constructor
  · rintro ⟨pte, hl, rfl⟩
    exact ⟨hl, rfl, rfl⟩
  · obtain ⟨pte, va, size⟩ := m
    rintro ⟨hl, rfl, rfl⟩
    exact ⟨pte, hl, rfl⟩

theorem mem_pagesFrom_zero {m : VaMapping} :
    m ∈ pagesFrom A T root 0 ↔ ∃ k < userPages, pageAt A T root k = some m := by
  simp [pagesFrom, List.mem_filterMap, List.mem_range'_1]

theorem enumerates (h : A.Linked strict root F) :
    Enumerates A F.mem root (pagesFrom A F.mem root 0) where
  increasing := by
    rw [pagesFrom, List.pairwise_map, List.pairwise_filterMap]
    refine (List.pairwise_lt_range' 1).imp fun {j k} hjk m hm m' hm' => ?_
    rw [(pageAt_eq_some.mp hm).2.1, (pageAt_eq_some.mp hm').2.1]
    omega
  mem_iff va := by
    have hmax := maxVa_eq
    rw [List.mem_map]
    constructor
    · rintro ⟨m, hm, rfl⟩
      obtain ⟨k, hk, hat⟩ := mem_pagesFrom_zero.mp hm
      obtain ⟨hl, hva, -⟩ := pageAt_eq_some.mp hat
      rw [hva, hl]
      exact ⟨by omega, Nat.dvd_mul_left .., rfl⟩
    · rintro ⟨hlt, ⟨k, rfl⟩, hl⟩
      obtain ⟨pte, hpte⟩ := Option.isSome_iff_exists.mp hl
      rw [Nat.mul_comm] at hpte hlt ⊢
      exact ⟨⟨pte, k * 4096, 4096⟩, mem_pagesFrom_zero.mpr ⟨k, by omega,
        pageAt_eq_some.mpr ⟨hpte, rfl, rfl⟩⟩, rfl⟩
  own m hm := by
    obtain ⟨k, -, hat⟩ := mem_pagesFrom_zero.mp hm
    obtain ⟨hl, hva, hsize⟩ := pageAt_eq_some.mp hat
    exact ⟨by rw [hva, hl], hsize⟩
  distinct := by
    have hpages := userPages_lt
    have hrange : (List.range' 0 (userPages - 0)).Pairwise fun j k => j < k ∧ k < userPages :=
      (List.pairwise_lt_range' 1).imp_of_mem fun {j k} _ hk hjk => by
        rw [List.mem_range'_1] at hk
        exact ⟨hjk, by omega⟩
    rw [pagesFrom, List.Nodup, List.pairwise_map, List.pairwise_filterMap]
    refine hrange.imp fun {j k} hjk m hm m' hm' he => ?_
    have hl := (pageAt_eq_some.mp hm).1
    have hl' := (pageAt_eq_some.mp hm').1
    have hpage := leaf4K_inj h (by omega) (by omega) hl (he ▸ hl')
    rw [Nat.mul_div_cancel _ (by decide), Nat.mul_div_cancel _ (by decide)] at hpage
    omega
  skips m hm := by
    obtain ⟨k, -, hat⟩ := mem_pagesFrom_zero.mp hm
    obtain ⟨hl, hva, -⟩ := pageAt_eq_some.mp hat
    rw [hva]
    exact superpage_of_leaf4K hl

/-- Iterating over any page table made by `map` and `map_giga` ends, and enumerates its pages. -/
theorem iter_enumerates {ts : List ℕ} (h : A.Built root (fun _ _ => True) T ts) :
    ∃ ms, Enumerates A T root ms ∧
      ∀ n ≥ PtIter.fuel, PtIter.toList A.toPteOps T n n (.get root) = ms := by
  obtain ⟨F, rfl, -, hl, -⟩ := h.tables fun hs : False => hs.elim
  refine ⟨pagesFrom A F.mem root 0, enumerates hl, fun n hn => ?_⟩
  have hfuel : userPages - 0 < n := Nat.lt_of_lt_of_le (Nat.lt_succ_self userPages) hn
  have hstart : Starts A F.mem root (0 * 4096) := starts_zero
  exact toList_eq (x := none) (leavesLast_of_linked hl) hstart hfuel hfuel

/-- One page mapped at the second page of an empty table. -/
theorem iter_enumerates_page : ∃ T ts, Riscv64.arch.Built 4096 (fun _ _ => True) T ts ∧
    leaf4K Riscv64.arch T 4096 4096 = some (12288, 1) ∧
    ∃ ms, Enumerates Riscv64.arch T 4096 ms ∧
      ∀ n ≥ PtIter.fuel, PtIter.toList Riscv64.arch.toPteOps T n n (.get 4096) = ms := by
  have hlt : (12288 : ℕ) < 2 ^ Riscv64.arch.paBits := by decide
  have hb := @Arch.Built.map Riscv64.arch 4096 (fun _ _ => True) (fun _ _ => 0) _ []
    ⟨4096, 0, .normal, .r⟩ [some 8192, some 12288] [some 8192, some 12288] [] true
    (.init fun _ => rfl) trivial (by decide)
    ⟨by simp, by omega, by decide, by simp, hlt, by decide, trivial⟩ rfl rfl
  exact ⟨_, _, hb, by decide, iter_enumerates hb⟩

end Multiplix.Proc
