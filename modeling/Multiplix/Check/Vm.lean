import Multiplix.Core.HashmapRefinement
import Multiplix.Proc.Iterate

/-! The checker of `plix.check.vm`: a shadow TLB against the pages of the page table in memory. -/
namespace Multiplix.Check
open Core Lib Vm Proc

/-- How a check may end instead. -/
inductive VmPanic
  | ensure
  | stale (va : ℕ) (tlbPte pte : Pte)
  | count (mappings length : ℕ)

/-- An address, an entry and a flag. -/
def entrySize : EntrySize := ⟨24, by decide⟩

abbrev ShadowTlb := Hashmap ℕ Pte

variable (A : Arch) (hashfn : ℕ → BitVec 64) (depth : ℕ)

/-- The body of the loop of `check_consistency`. The calls of `put` meanwhile find memory as `mem`
says. -/
def visit (mem : ℕ → Bool) (T : PtMem) (vamap : VaMapping) (shadowTlb : ShadowTlb) :
    Option (Except VmPanic ShadowTlb) :=
  let pte := T vamap.pte.1 vamap.pte.2
  match shadowTlb.get hashfn vamap.va with
  | none => none
  | some (_, false) =>
    match Hashmap.put hashfn entrySize mem (depth + 2) shadowTlb vamap.va pte with
    | none => none
    | some (false, _) => some (.error .ensure)
    | some (true, shadowTlb) => some (.ok shadowTlb)
  | some (tlbPte, true) =>
    if tlbPte ≠ pte then some (.error (.stale vamap.va tlbPte pte)) else some (.ok shadowTlb)

def checkLoop (mem : ℕ → Bool) (T : PtMem) :
    List VaMapping → ℕ → ShadowTlb → Option (Except VmPanic (ℕ × ShadowTlb))
  | [], mappings, shadowTlb => some (.ok (mappings, shadowTlb))
  | vamap :: rest, mappings, shadowTlb =>
    match visit hashfn depth mem T vamap shadowTlb with
    | none => none
    | some (.error e) => some (.error e)
    | some (.ok shadowTlb) => checkLoop mem T rest ((mappings + 1) % 2 ^ 64) shadowTlb

def checkConsistency (mem : ℕ → Bool) (T : PtMem) (root : ℕ) (shadowTlb : ShadowTlb) :
    Option (Except VmPanic ShadowTlb) :=
  let maps := PtIter.toList A.toPteOps T PtIter.fuel PtIter.fuel (.get root)
  match checkLoop hashfn depth mem T maps 0 shadowTlb with
  | none => none
  | some (.error e) => some (.error e)
  | some (.ok (mappings, shadowTlb)) =>
    if mappings ≠ shadowTlb.length then some (.error (.count mappings shadowTlb.length))
    else some (.ok shadowTlb)

/-- What the checker holds: each check may see another page table. -/
inductive Accumulated : ShadowTlb → Prop
  | setup {mem : ℕ → Bool} {shadowTlb : ShadowTlb} :
      Hashmap.alloc entrySize mem 1024 = some (true, shadowTlb) → Accumulated shadowTlb
  | check {mem : ℕ → Bool} {T : PtMem} {root : ℕ} {ts : List ℕ} {shadowTlb shadowTlb' : ShadowTlb} :
      Accumulated shadowTlb → A.Built root (fun _ _ => True) T ts →
      checkConsistency A hashfn depth mem T root shadowTlb = some (.ok shadowTlb') →
      Accumulated shadowTlb'
  | onVmfence {shadowTlb : ShadowTlb} : Accumulated shadowTlb → Accumulated shadowTlb.clear

/-- The descriptor of 4 KiB that is valid for an address of a process. -/
def current (T : PtMem) (root va : ℕ) : Option Pte :=
  if va < maxVa ∧ 4096 ∣ va then (leaf4K A T root va).map fun pte => T pte.1 pte.2 else none

def Cached (shadowTlb : ShadowTlb) (va : ℕ) (pte : Pte) : Prop :=
  shadowTlb.get hashfn va = some (pte, true)

/-- The shadow TLB holds a finite map of pages, and has not grown beyond what they need. -/
structure Shadow (shadowTlb : ShadowTlb) (f : ℕ → Option Pte) : Prop where
  ok : Hashmap.Ok hashfn shadowTlb
  holds : shadowTlb.Holds f
  pages : ∀ va, f va ≠ none → va < maxVa ∧ 4096 ∣ va
  cap : shadowTlb.cap ≤ 2 ^ 29

variable {A hashfn depth} {mem : ℕ → Bool} {T : PtMem} {root va mappings : ℕ} {pte : Pte}
  {s s' : ShadowTlb} {f : ℕ → Option Pte} {vamap : VaMapping} {maps : List VaMapping}

/-- A process has so many pages. -/
theorem ncard_pages_le {l : Set ℕ} (h : ∀ va ∈ l, va < maxVa ∧ 4096 ∣ va) :
    l.ncard ≤ userPages := by
  have hsub : l ⊆ ((Finset.range userPages).image (· * 4096) : Finset ℕ) := by
    intro va hva
    obtain ⟨hlt, k, rfl⟩ := h va hva
    rw [maxVa_eq] at hlt
    exact Finset.mem_coe.mpr (Finset.mem_image.mpr
      ⟨k, Finset.mem_range.mpr (by omega), Nat.mul_comm k 4096⟩)
  have hle := Set.ncard_le_ncard hsub (Finset.finite_toSet _)
  rw [Set.ncard_coe_finset] at hle
  exact hle.trans (Finset.card_image_le.trans (Finset.card_range _).le)

namespace Shadow

theorem cached_iff (h : Shadow hashfn s f) : Cached hashfn s va pte ↔ f va = some pte := by
  rw [Cached, h.ok.get_eq h.holds]
  cases f va <;> simp

/-- There are no more keys than pages. -/
theorem length_le (h : Shadow hashfn s f) : s.length ≤ userPages := by
  obtain ⟨-, hcard⟩ := h.ok.ncard h.holds
  rw [← hcard]
  exact ncard_pages_le h.pages

theorem setup (h : Hashmap.alloc entrySize mem 1024 = some (true, s)) :
    Shadow hashfn s fun _ => none := by
  obtain ⟨hok, hp⟩ := Hashmap.alloc_spec hashfn h
  refine ⟨hok, fun va pte => ?_, fun va hva => absurd rfl hva, ?_⟩
  · rw [hp]
    exact ⟨fun hc => (by cases hc), fun hc => (by cases hc)⟩
  · have hcap : pow2ceil 1024 = some 1024 := by decide
    rw [Hashmap.alloc, hcap] at h
    dsimp only at h
    split_ifs at h <;> cases h
    exact (by decide : 1024 ≤ 2 ^ 29)

theorem clear (h : Shadow hashfn s f) : Shadow hashfn s.clear fun _ => none := by
  obtain ⟨ok, m', hm, hok, hf⟩ := h.ok.exec entrySize h.holds .clear
  cases hm 0
  exact ⟨hok, hf, fun va hva => absurd rfl hva, h.cap⟩

/-- A new page is put, where there is memory. -/
theorem put (h : Shadow hashfn s f) (depth : ℕ) (mem : ℕ → Bool)
    (hva : va < maxVa ∧ 4096 ∣ va) (pte : Pte) :
    ∃ ok s', Hashmap.put hashfn entrySize mem (depth + 2) s va pte = some (ok, s') ∧
      ((∀ n, mem n = true) → ok = true) ∧
      (ok = true → Shadow hashfn s' (Function.update f va (some pte))) := by
  obtain ⟨ok, s', hput, hok, hf⟩ := h.ok.exec entrySize h.holds (.put va pte mem)
  obtain ⟨hgrow, hcap⟩ := h.ok.put_grow (hput depth)
  have hlen := h.length_le
  have hpages := userPages_lt
  have hle := h.cap
  refine ⟨ok, s', hput depth, fun hmem => ?_, ?_⟩
  · by_contra hb
    obtain ⟨hfull, hno⟩ := hgrow (Bool.eq_false_of_not_eq_true hb)
    have hbytes : entrySize.bytes = 24 := rfl
    rw [Hashmap.kallocarray, hmem, Bool.true_and, decide_eq_false_iff_not, hbytes] at hno
    omega
  · rintro rfl
    refine ⟨hok, hf, fun va' hva' => ?_, by omega⟩
    by_cases he : va' = va
    · rw [he]
      exact hva
    · exact h.pages va' (by rwa [Function.update_of_ne he] at hva')

/-- The loop goes on where the page is new or has the descriptor that is cached. -/
theorem visit (h : Shadow hashfn s f) (depth : ℕ) (mem : ℕ → Bool)
    (hva : vamap.va < maxVa ∧ 4096 ∣ vamap.va) (hpte : T vamap.pte.1 vamap.pte.2 = pte) :
    ∃ r, Check.visit hashfn depth mem T vamap s = some r ∧
      ((∀ n, mem n = true) → (∀ tlbPte ∈ f vamap.va, tlbPte = pte) → ∃ s', r = .ok s') ∧
      ∀ s', r = .ok s' → (∀ tlbPte ∈ f vamap.va, tlbPte = pte) ∧
        Shadow hashfn s' (Function.update f vamap.va (some pte)) := by
  unfold Check.visit
  rw [h.ok.get_eq h.holds, hpte]
  cases hf : f vamap.va with
  | none =>
    obtain ⟨ok, s', hput, hmem, hs'⟩ := h.put depth mem hva pte
    dsimp only [Option.getD_none, Option.isSome_none]
    rw [hput]
    cases ok with
    | false =>
      exact ⟨_, rfl, fun hall => absurd (hmem hall) (by decide), fun _ hr => by cases hr⟩
    | true =>
      refine ⟨_, rfl, fun _ _ => ⟨s', rfl⟩, fun _ hr => ?_⟩
      cases hr
      exact ⟨fun _ hc => absurd hc (Option.not_mem_none _), hs' rfl⟩
  | some tlbPte =>
    dsimp only [Option.getD_some, Option.isSome_some]
    split_ifs with hne
    · refine ⟨_, rfl, fun _ hall => ?_, fun _ hr => by cases hr⟩
      exact absurd (hall tlbPte rfl) hne
    · rw [not_not] at hne
      subst hne
      refine ⟨_, rfl, fun _ _ => ⟨s, rfl⟩, fun _ hr => ?_⟩
      cases hr
      rw [← hf, Function.update_eq_self]
      exact ⟨fun _ hc => Option.some.inj (hc.symm.trans hf), h⟩

/-- The loop counts the pages. When it ends, they are all cached, and nothing else is new. -/
theorem checkLoop (h : Shadow hashfn s f) (depth : ℕ) (mem : ℕ → Bool)
    (hva : ∀ vamap ∈ maps, vamap.va < maxVa ∧ 4096 ∣ vamap.va)
    (hnd : (maps.map VaMapping.va).Nodup) (hlt : mappings + maps.length < 2 ^ 64) :
    ∃ r, Check.checkLoop hashfn depth mem T maps mappings s = some r ∧
      ((∀ n, mem n = true) → (∀ vamap ∈ maps, ∀ tlbPte ∈ f vamap.va,
        tlbPte = T vamap.pte.1 vamap.pte.2) → ∃ p, r = .ok p) ∧
      ∀ p, r = .ok p → p.1 = mappings + maps.length ∧
        (∀ vamap ∈ maps, ∀ tlbPte ∈ f vamap.va, tlbPte = T vamap.pte.1 vamap.pte.2) ∧
        ∃ f', Shadow hashfn p.2 f' ∧
          (∀ vamap ∈ maps, f' vamap.va = some (T vamap.pte.1 vamap.pte.2)) ∧
          ∀ va ∉ maps.map VaMapping.va, f' va = f va := by
  induction maps generalizing s f mappings with
  | nil =>
    refine ⟨_, rfl, fun _ _ => ⟨_, rfl⟩, fun p hp => ?_⟩
    cases hp
    exact ⟨rfl, fun _ hm => absurd hm List.not_mem_nil, f, h,
      fun _ hm => absurd hm List.not_mem_nil, fun _ _ => rfl⟩
  | cons vamap maps ih =>
    rw [List.map_cons, List.nodup_cons] at hnd
    rw [List.length_cons] at hlt ⊢
    obtain ⟨r, hr, hgo, hdone⟩ := h.visit depth mem (hva vamap List.mem_cons_self)
      (rfl : T vamap.pte.1 vamap.pte.2 = _)
    rw [Check.checkLoop, hr]
    cases r with
    | error e =>
      refine ⟨_, rfl, fun hmem hall => ?_, fun p hp => by cases hp⟩
      obtain ⟨s', hs'⟩ := hgo hmem (hall vamap List.mem_cons_self)
      cases hs'
    | ok s' =>
      obtain ⟨hagree, hs'⟩ := hdone s' rfl
      have hother : ∀ va ∈ maps.map VaMapping.va, Function.update f vamap.va
          (some (T vamap.pte.1 vamap.pte.2)) va = f va := fun va hm => by
        apply Function.update_of_ne
        rintro rfl
        exact hnd.1 hm
      have hlt' : (mappings + 1) % 2 ^ 64 + maps.length < 2 ^ 64 := by omega
      obtain ⟨r, hr, hgo, hdone⟩ :=
        ih hs' (fun m hm => hva m (List.mem_cons_of_mem _ hm)) hnd.2 hlt'
      refine ⟨r, hr, fun hmem hall => hgo hmem fun m hm => ?_, fun p hp => ?_⟩
      · rw [hother m.va (List.mem_map_of_mem hm)]
        exact hall m (List.mem_cons_of_mem _ hm)
      · obtain ⟨hcount, hall, f', hf', hin, hout⟩ := hdone p hp
        refine ⟨by omega, ?_, f', hf', ?_, fun va hm => ?_⟩
        · intro m hm
          rcases List.mem_cons.mp hm with rfl | hm
          · exact hagree
          · rw [← hother m.va (List.mem_map_of_mem hm)]
            exact hall m hm
        · intro m hm
          rcases List.mem_cons.mp hm with rfl | hm
          · rw [hout _ hnd.1, Function.update_self]
          · exact hin m hm
        · rw [List.map_cons, List.mem_cons, not_or] at hm
          rw [hout va hm.2, Function.update_of_ne hm.1]

end Shadow

/-! ### The whole check -/

theorem current_of_mem (h : Enumerates A T root maps) (hm : vamap ∈ maps) :
    current A T root vamap.va = some (T vamap.pte.1 vamap.pte.2) := by
  obtain ⟨hlt, hd, -⟩ := (h.mem_iff vamap.va).mp (List.mem_map_of_mem hm)
  rw [current, if_pos ⟨hlt, hd⟩, (h.own vamap hm).1]
  rfl

theorem current_of_not_mem (h : Enumerates A T root maps) (hm : va ∉ maps.map VaMapping.va) :
    current A T root va = none := by
  unfold current
  split_ifs with hpage
  · rw [Option.map_eq_none_iff]
    by_contra hc
    exact hm ((h.mem_iff va).mpr ⟨hpage.1, hpage.2, Option.isSome_iff_ne_none.mpr hc⟩)
  · rfl

theorem length_maps_le (h : Enumerates A T root maps) : maps.length ≤ userPages := by
  have hnd : (maps.map VaMapping.va).Nodup := h.increasing.imp ne_of_lt
  have hle := ncard_pages_le (l := (maps.map VaMapping.va).toFinset) fun va hva => by
    obtain ⟨hlt, hd, -⟩ := (h.mem_iff va).mp (List.mem_toFinset.mp hva)
    exact ⟨hlt, hd⟩
  rwa [Set.ncard_coe_finset, List.toFinset_card_of_nodup hnd, List.length_map] at hle

/-- The keys are as many as the addresses of a list if and only if they are no others. -/
theorem ncard_eq_length_iff {l : List ℕ} (hfin : {va | f va ≠ none}.Finite) (hnd : l.Nodup)
    (hl : ∀ va ∈ l, f va ≠ none) :
    l.length = {va | f va ≠ none}.ncard ↔ ∀ va, f va ≠ none → va ∈ l := by
  have hsub : (l.toFinset : Set ℕ) ⊆ {va | f va ≠ none} := fun va hva =>
    hl va (List.mem_toFinset.mp hva)
  have hcard : (l.toFinset : Set ℕ).ncard = l.length := by
    rw [Set.ncard_coe_finset, List.toFinset_card_of_nodup hnd]
  rw [← hcard]
  constructor
  · intro he va hva
    have hset := Set.eq_of_subset_of_ncard_le hsub he.ge hfin
    exact List.mem_toFinset.mp (hset.symm.subset hva)
  · intro hall
    refine congrArg Set.ncard (hsub.antisymm fun va hva => ?_)
    exact List.mem_toFinset.mpr (hall va hva)

/-- A check returns. It passes, if there is memory, when every cached descriptor is the current one,
and it leaves the current ones. Equal counts mean that nothing else is cached. -/
theorem Shadow.check (h : Shadow hashfn s f) (depth : ℕ) (mem : ℕ → Bool) {ts : List ℕ}
    (hT : A.Built root (fun _ _ => True) T ts) :
    ∃ r, checkConsistency A hashfn depth mem T root s = some r ∧
      ((∀ n, mem n = true) → (∀ va, ∀ pte ∈ f va, current A T root va = some pte) →
        ∃ s', r = .ok s') ∧
      ∀ s', r = .ok s' → (∀ va, ∀ pte ∈ f va, current A T root va = some pte) ∧
        Shadow hashfn s' (current A T root) := by
  obtain ⟨maps, henum, hlist⟩ := iter_enumerates hT
  have hnd : (maps.map VaMapping.va).Nodup := henum.increasing.imp ne_of_lt
  have hlen := length_maps_le henum
  have hpages := userPages_lt
  have hlt : 0 + maps.length < 2 ^ 64 := by omega
  obtain ⟨r, hr, hgo, hdone⟩ := h.checkLoop (T := T) depth mem (fun m hm => by
    obtain ⟨hlt, hd, -⟩ := (henum.mem_iff m.va).mp (List.mem_map_of_mem hm)
    exact ⟨hlt, hd⟩) hnd hlt
  rw [checkConsistency, hlist _ le_rfl, hr]
  cases r with
  | error e =>
    refine ⟨_, rfl, fun hmem hall => ?_, fun p hp => by cases hp⟩
    obtain ⟨p, hp⟩ := hgo hmem fun m hm tlbPte ht => by
      have hcur := hall _ _ ht
      rw [current_of_mem henum hm] at hcur
      exact (Option.some.inj hcur).symm
    cases hp
  | ok p =>
    obtain ⟨mappings, s'⟩ := p
    obtain ⟨hcount, hagree, f', hf', hin, hout⟩ := hdone _ rfl
    dsimp only at hcount hf' ⊢
    have hmapped : ∀ va ∈ maps.map VaMapping.va,
        f' va = current A T root va ∧ f' va ≠ none := fun va hva => by
      obtain ⟨m, hm, rfl⟩ := List.mem_map.mp hva
      rw [hin m hm, current_of_mem henum hm]
      exact ⟨rfl, Option.some_ne_none _⟩
    obtain ⟨hfin, hcard⟩ := hf'.ok.ncard hf'.holds
    have hcounts := ncard_eq_length_iff hfin hnd fun va hva => (hmapped va hva).2
    rw [hcard, List.length_map] at hcounts
    split_ifs with hne
    · refine ⟨_, rfl, fun _ hall => ?_, fun p hp => by cases hp⟩
      refine absurd (hcounts.mpr fun va hva => ?_) (by omega)
      -- an address that is not visited was cached, and is mapped
      by_contra hnot
      rw [hout va hnot] at hva
      obtain ⟨pte, hpte⟩ := Option.ne_none_iff_exists'.mp hva
      have hcur := hall va pte hpte
      rw [current_of_not_mem henum hnot] at hcur
      cases hcur
    · have honly := hcounts.mp (by omega)
      refine ⟨_, rfl, fun _ _ => ⟨s', rfl⟩, fun p hp => ?_⟩
      cases hp
      have heq : f' = current A T root := funext fun va => by
        by_cases hm : va ∈ maps.map VaMapping.va
        · exact (hmapped va hm).1
        · rw [current_of_not_mem henum hm]
          exact not_not.mp fun hva => hm (honly va hva)
      refine ⟨fun va pte hpte => ?_, heq ▸ hf'⟩
      by_cases hm : va ∈ maps.map VaMapping.va
      · obtain ⟨m, hmem, rfl⟩ := List.mem_map.mp hm
        rw [current_of_mem henum hmem, hagree m hmem pte hpte]
      · rw [← heq, hout va hm]
        exact hpte

theorem Accumulated.shadow (h : Accumulated A hashfn depth s) : ∃ f, Shadow hashfn s f := by
  induction h with
  | setup h => exact ⟨_, .setup h⟩
  | @check mem T root ts s s' _ hT hc ih =>
    obtain ⟨f, hf⟩ := ih
    obtain ⟨r, hr, -, hpass⟩ := hf.check depth mem hT
    rw [hr] at hc
    cases hc
    exact ⟨_, (hpass s' rfl).2⟩
  | onVmfence _ ih =>
    obtain ⟨f, hf⟩ := ih
    exact ⟨_, hf.clear⟩

/-- A check passes if and only if every cached descriptor is still that of the page table, and
leaves the page table's. -/
theorem check_exact {ts : List ℕ} (h : Accumulated A hashfn depth s)
    (hT : A.Built root (fun _ _ => True) T ts) (hmem : ∀ n, mem n = true) :
    (∃ r, checkConsistency A hashfn depth mem T root s = some r) ∧
    ((∃ s', checkConsistency A hashfn depth mem T root s = some (.ok s')) ↔
      ∀ va pte, Cached hashfn s va pte → current A T root va = some pte) ∧
    ∀ s', checkConsistency A hashfn depth mem T root s = some (.ok s') →
      ∀ va pte, Cached hashfn s' va pte ↔ current A T root va = some pte := by
  obtain ⟨f, hf⟩ := h.shadow
  obtain ⟨r, hr, hgo, hpass⟩ := hf.check depth mem hT
  rw [hr]
  refine ⟨⟨r, rfl⟩, ⟨?_, fun hall => ?_⟩, ?_⟩
  · rintro ⟨s', hs'⟩ va pte hc
    exact (hpass s' (Option.some.inj hs')).1 va pte (hf.cached_iff.mp hc)
  · obtain ⟨s', hs'⟩ := hgo hmem fun va pte hpte => hall va pte (hf.cached_iff.mpr hpte)
    exact ⟨s', congrArg some hs'⟩
  · intro s' hs' va pte
    exact (hpass s' (Option.some.inj hs')).2.cached_iff

/-- The first check of a page table with one page. -/
theorem check_exact_page : ∃ (T : PtMem) (s s' : ShadowTlb),
    Accumulated Riscv64.arch (BitVec.ofNat 64) 0 s ∧
    checkConsistency Riscv64.arch (BitVec.ofNat 64) 0 (fun _ => true) T 4096 s = some (.ok s') ∧
    Cached (BitVec.ofNat 64) s' 4096 (T 12288 1) := by
  have hlt : (12288 : ℕ) < 2 ^ Riscv64.arch.paBits := by decide
  have hb := @Arch.Built.map Riscv64.arch 4096 (fun _ _ => True) (fun _ _ => 0) _ []
    ⟨4096, 0, .normal, .r⟩ [some 8192, some 12288] [some 8192, some 12288] [] true
    (.init fun _ => rfl) trivial (by decide)
    ⟨by simp, by omega, by decide, by simp, hlt, by decide, trivial⟩ rfl rfl
  have halloc : Hashmap.alloc entrySize (fun _ => true) 1024 =
      some (true, (⟨1024, Hashmap.zeros, 0⟩ : ShadowTlb)) := rfl
  have hs : Accumulated Riscv64.arch (BitVec.ofNat 64) 0 ⟨1024, Hashmap.zeros, 0⟩ := .setup halloc
  obtain ⟨-, hiff, hcached⟩ := check_exact hs hb fun n => rfl
  obtain ⟨s', hs'⟩ := hiff.mpr fun va pte hc => by
    have hnone := (Shadow.setup halloc).cached_iff.mp hc
    cases hnone
  exact ⟨_, _, s', hs, hs', (hcached s' hs' _ _).mpr (by decide)⟩

end Multiplix.Check
