import Multiplix.Proc.Shape

/-! What the operations on page tables do to the mappings of all processes. -/
namespace Multiplix.Proc
open Lib Vm

namespace Machine

variable {P : Platform} {roots : List ℕ} {o : Owners} {m m' : Machine} {r k t va pa : ℕ}
  {perm : Perm}

@[simp] theorem setPte_bytes (pte : ℕ × ℕ) (f : Pte → Pte) : (m.setPte pte f).bytes = m.bytes := rfl
@[simp] theorem setPte_refcnt (pte : ℕ × ℕ) (f : Pte → Pte) :
    (m.setPte pte f).refcnt = m.refcnt := rfl
@[simp] theorem setPte_heap (pte : ℕ × ℕ) (f : Pte → Pte) : (m.setPte pte f).heap = m.heap := rfl
@[simp] theorem addRef_bytes (p : ℕ) : (m.addRef p).bytes = m.bytes := rfl
@[simp] theorem addRef_tables (p : ℕ) : (m.addRef p).tables = m.tables := rfl
@[simp] theorem addRef_heap (p : ℕ) : (m.addRef p).heap = m.heap := rfl
@[simp] theorem dropRef_bytes (p : ℕ) : (m.dropRef p).bytes = m.bytes := rfl
@[simp] theorem dropRef_tables (p : ℕ) : (m.dropRef p).tables = m.tables := rfl
@[simp] theorem dropRef_heap (p : ℕ) : (m.dropRef p).heap = m.heap := rfl

theorem leaf_congr (h : m'.tables = m.tables) : m'.leaf P roots = m.leaf P roots := by
  funext l
  rw [leaf, leaf, h]

theorem ref_of_leaf {roots' : List ℕ} (h : m'.leaf P roots' = m.leaf P roots) :
    m'.ref P roots' = m.ref P roots := by
  funext l
  rw [ref_eq_leaf, ref_eq_leaf, h]

theorem ref_congr (h : m'.tables = m.tables) : m'.ref P roots = m.ref P roots :=
  ref_of_leaf (leaf_congr h)

theorem Shape.congr (h : m.Shape P roots o) (ht : m'.tables = m.tables) (hh : m'.heap = m.heap) :
    m'.Shape P roots o :=
  ⟨h.nodup, h.root, hh ▸ h.avail, ht ▸ h.tree, h.sep, h.apart, h.page, ht ▸ h.entry, hh ▸ h.fresh⟩

/-- The place of the entry of a page. -/
def PteAt (P : Platform) (m : Machine) (r k : ℕ) (pte : ℕ × ℕ) : Prop :=
  P.ops.radix.find m.tables r (k * 4096) = some (2, pte.1) ∧ pte.2 = vpn 0 (k * 4096)

theorem PteAt.lookup {pte : ℕ × ℕ} (h : m.PteAt P r k pte) :
    P.ops.radix.lookup m.tables r (k * 4096) = some (2, m.tables pte.1 pte.2) := by
  rw [Radix.lookup, h.1, h.2]
  rfl

namespace Shape

variable (h : m.Shape P roots o)
include h

theorem setPte {pte : ℕ × ℕ} (hr : r ∈ roots) (hk : k < 2 ^ 26) (hat : m.PteAt P r k pte)
    {f : Pte → Pte} (he : UserEntry P.ops (f (m.tables pte.1 pte.2)))
    (hp : P.ops.pa (f (m.tables pte.1 pte.2)) ∈ o.pages) :
    (m.setPte pte f).Shape P roots o ∧ (m.setPte pte f).PteAt P r k pte ∧
      (m.setPte pte f).leaf P roots =
        Function.update (m.leaf P roots) (r, k) (some (f (m.tables pte.1 pte.2))) := by
  obtain ⟨t, i⟩ := pte
  obtain ⟨hfind, rfl⟩ : P.ops.radix.find m.tables r (k * 4096) = some (2, t) ∧
    i = vpn 0 (k * 4096) := hat
  obtain ⟨hd, hnode, -⟩ := Radix.find_eq_some.mp hfind
  generalize hfe : f (m.tables t (vpn 0 (k * 4096))) = e at he hp
  have hT : (m.setPte (t, vpn 0 (k * 4096)) f).tables = Radix.write m.tables t
      (P.ops.radix.index 2 (k * 4096)) e := by rw [← hfe]; rfl
  have hlook : ∀ va, P.ops.radix.lookup (m.setPte (t, vpn 0 (k * 4096)) f).tables r va =
      if P.ops.radix.Agree (k * 4096) va 3 then some (2, e)
      else P.ops.radix.lookup m.tables r va := fun va => by
    rw [hT]
    exact Radix.lookup_write_leaf (Or.inl rfl) (h.tree r hr) hd hnode
  have hag : ∀ va < 2 ^ 38, P.ops.radix.Agree (k * 4096) va 3 ↔ k * 4096 / 4096 = va / 4096 :=
    fun va hva => agree_iff P.ops (by omega) (by omega) .normal
  have hsame : P.ops.radix.Agree (k * 4096) (k * 4096) 3 := fun _ _ => rfl
  have hupd := h.update (m.setPte (t, vpn 0 (k * 4096)) f) (c := []) hr hk rfl
    (by rw [supplied_nil, Set.union_empty, hT]
        exact (h.tree r hr).write_leaf (Or.inl rfl) hd hnode)
    (fun s hs => by
      rw [hT, Radix.write, Function.update_of_ne]
      rintro rfl
      exact hs (Or.inl ((h.tree r hr).node_mem hd hnode)))
    he hp (by rw [hlook, if_pos hsame])
    (fun va hva hne => Or.inl (by
      rw [hlook, if_neg fun hc => hne ?_]
      rw [hag va hva] at hc
      omega))
  rw [supplied_nil, Owners.addTables_empty] at hupd
  refine ⟨hupd.1, ⟨?_, rfl⟩, hfe ▸ hupd.2⟩
  rw [hT]
  exact Radix.find_write_leaf (Or.inl rfl) (h.tree r hr) hd hnode hsame

/-- A user page mapped by a process. -/
theorem mappg (hr : r ∈ roots) (hva : va < 2 ^ 38) (hp : pa ∈ o.pages) (hread : perm.has .r = true)
    (huser : perm.has .u = true) (hcow : perm.has .cow = !perm.has .w)
    (hm : m.mappg P r va pa perm = (true, m')) :
    ∃ c, m'.Shape P roots (o.addTables r (supplied c)) ∧ m.heap = c ++ m'.heap ∧
      m'.bytes = m.bytes ∧ m'.refcnt = (m.addRef pa).refcnt ∧ ∃ e, P.ops.pa e = pa ∧
        P.ops.perm e = perm ∧
        m'.leaf P roots = Function.update (m.leaf P roots) (r, va / 4096) (some e) := by
  have hin := h.page pa hp
  have hperm : ∀ q : Perm, q.has .r = true → q ||| Perm.r = q ∧ q &&& Perm.rwx ≠ 0 := by decide
  have hopen : P.ops.Open m.tables r va .normal := fun x hx => by
    have hx' : P.ops.radix.lookup m.tables r va =
        some (x.1, m.tables x.2 (P.ops.radix.index x.1 va)) := by
      rw [Radix.lookup, Option.mem_def.mp hx]
      rfl
    exact (h.entry r hr va hva _ hx').1.ge
  obtain ⟨ok, T', rest, hmap⟩ : ∃ ok T' rest,
      P.ops.map m.tables r va pa .normal perm m.heap = (ok, T', rest) := ⟨_, _, _, rfl⟩
  obtain ⟨⟨c, hc, htree, hframe⟩, hres⟩ := PteOps.map_spec (h.tree r hr) hopen
    (h.fresh.anti (Owners.tables_subset hr)) hin.lt hin.dvd (hperm perm hread).2 hmap
  rw [Machine.mappg, hmap] at hm
  rcases hres with ⟨rfl, -⟩ | ⟨rfl, e, he, hlook⟩
  · cases hm
  obtain rfl : { m with tables := T', heap := rest }.addRef pa = m' := by injection hm
  have hpe : P.ops.perm e = perm := he.perm_eq.trans (hperm perm hread).1
  have hag : ∀ va' < 2 ^ 38, P.ops.radix.Agree va va' (2 - PtLevel.normal.toNat + 1) ↔
      va / 4096 = va' / 4096 := fun va' hva' => agree_iff P.ops (by omega) (by omega) .normal
  have hupd := h.update ({ m with tables := T', heap := rest }.addRef pa)
    (k := va / 4096) (e := e) hr (by omega) hc htree hframe
    ⟨he.valid, he.leaf, hpe ▸ huser, hpe ▸ hread, hpe ▸ hcow⟩ (by rwa [he.pa_eq])
    (by
      change P.ops.radix.lookup T' r (va / 4096 * 4096) = _
      rw [hlook, if_pos]
      · rfl
      · exact agree_page P.ops va)
    (fun va' hva' hne => by
      change P.ops.radix.lookup T' r va' = _ ∨ _ ∧ P.ops.radix.lookup T' r va' = _
      rw [hlook, if_neg fun hag' => hne ((hag va' hva').mp hag').symm]
      split_ifs with hnone
      · exact Or.inr ⟨hnone.2.2, rfl⟩
      · exact Or.inl rfl)
  exact ⟨c, hupd.1, hc, rfl, rfl, e, he.pa_eq, hpe, hupd.2⟩

/-- A page that is not mapped, because there is no memory for the tables. -/
theorem mappg_fail (hr : r ∈ roots) (hp : pa ∈ o.pages) (hperm : perm &&& Perm.rwx ≠ 0)
    (hm : m.mappg P r va pa perm = (false, m')) :
    ∃ c, m'.Shape P roots (o.addTables r (supplied c)) ∧ m.heap = c ++ m'.heap ∧
      m'.bytes = m.bytes ∧ m'.refcnt = m.refcnt ∧ m'.leaf P roots = m.leaf P roots := by
  have hin := h.page pa hp
  obtain ⟨ok, T', rest, hmap⟩ : ∃ ok T' rest,
      P.ops.map m.tables r va pa .normal perm m.heap = (ok, T', rest) := ⟨_, _, _, rfl⟩
  obtain ⟨⟨c, hc, htree, hframe⟩, hres⟩ := PteOps.map_page_spec (h.tree r hr)
    (h.fresh.anti (Owners.tables_subset hr)) hin.lt hin.dvd hperm hmap
  rw [Machine.mappg, hmap] at hm
  rcases hres with ⟨rfl, hlook⟩ | ⟨rfl, -⟩
  · obtain rfl : { m with tables := T', heap := rest } = m' := by injection hm
    obtain ⟨hs, hleaf⟩ := h.grow { m with tables := T', heap := rest } hr hc htree hframe hlook
    exact ⟨c, hs, hc, rfl, rfl, hleaf⟩
  · cases hm

/-- A page handed out. -/
theorem kalloc {p : ℕ} (hm : m.kalloc = (some p, m')) : m'.Shape P roots (o.addPage p) ∧
    m' = { m with heap := m'.heap } ∧ m.heap = some p :: m'.heap ∧ p ∉ o.used roots := by
  unfold Machine.kalloc at hm
  rcases hh : m.heap with _ | ⟨a, as⟩
  · simp [hh] at hm
  · simp only [hh, Prod.mk.injEq] at hm
    obtain ⟨rfl, rfl⟩ := hm
    have hf := h.fresh
    rw [hh] at hf
    refine ⟨⟨h.nodup, h.root, fun t ht => h.avail t (hh ▸ List.mem_cons_of_mem _ ht), h.tree, h.sep,
      fun r hr => ?_, fun q hq => ?_, fun r hr va hva x hx => ?_, ?_⟩, rfl, rfl, hf.1⟩
    · refine Set.disjoint_right.mpr fun t ht ht' => ?_
      rcases ht with rfl | ht
      · exact hf.1 (Or.inl ⟨r, hr, ht'⟩)
      · exact Set.disjoint_left.mp (h.apart r hr) ht' ht
    · rcases hq with rfl | hq
      · exact h.avail q (hh ▸ List.mem_cons_self)
      · exact h.page q hq
    · obtain ⟨h1, h2⟩ := h.entry r hr va hva x hx
      exact ⟨h1, h2.imp_right fun h => ⟨h.1, Or.inr h.2⟩⟩
    · rw [Owners.used_addPage]
      exact hf.2.2.2

/-- A table for a new process. -/
theorem addProc {pt : ℕ} {heap : Supply} (hheap : m.heap = some pt :: heap)
    (hm : m' = { m with
      tables := P.kernelProcmap (Function.update m.tables pt fun _ => 0) pt, heap := heap }) :
    m'.Shape P (roots ++ [pt]) (o.addProc pt) ∧
      pt ∉ roots ∧ m'.leaf P (roots ++ [pt]) = m.leaf P roots := by
  have hf := h.fresh
  rw [hheap] at hf
  have hout : ∀ r ∈ roots, pt ∉ o.tables r := fun r hr ht => hf.1 (Or.inl ⟨r, hr, ht⟩)
  have hnew : pt ∉ roots := fun hr =>
    hout pt hr ((h.tree pt hr).node_mem (k := 0) (d := 0) (Nat.zero_le _) rfl)
  have hne : ∀ r ∈ roots, r ≠ pt := fun r hr he => hnew (he ▸ hr)
  have hframe : ∀ s ≠ pt, m'.tables s = m.tables s := fun s hs => by
    rw [hm]
    exact (P.procmap_other hs).trans (Function.update_of_ne hs ..)
  have hold : ∀ r ∈ roots, ∀ s ∈ o.tables r, m'.tables s = m.tables s := fun r hr s hs =>
    hframe s fun he => hout r hr (he ▸ hs)
  have hlook : ∀ r ∈ roots, ∀ va, P.ops.radix.lookup m'.tables r va =
      P.ops.radix.lookup m.tables r va := fun r hr va =>
    Radix.lookup_frame (h.tree r hr) (hold r hr)
  have hempty : ∀ va < 2 ^ 38, P.ops.radix.lookup m'.tables pt va = none := fun va hva => by
    rw [Radix.lookup, Radix.find_eq_none_of_empty (d := 0) (t := pt) (by decide : 0 < 2) rfl,
      Option.map_none]
    have hi : vpn 2 va < 256 := by
      rw [vpn_eq]
      omega
    change P.ops.radix.slot (m'.tables pt (vpn 2 va)) = .empty
    rw [hm]
    dsimp only
    rw [P.procmap_low hi, Function.update_self]
    exact P.ops.radix.slot_zero
  refine ⟨⟨?_, fun r hr => ?_, fun t ht => h.avail t ?_, fun r hr => ?_, fun r₁ h₁ r₂ h₂ hn => ?_,
    fun r hr => ?_, h.page, fun r hr va hva x hx => ?_, ?_⟩, hnew, funext fun l => ?_⟩
  · exact List.nodup_append.mpr ⟨h.nodup, List.nodup_singleton _, fun r hr s hs => by
      rw [List.mem_singleton.mp hs]
      exact hne r hr⟩
  · rcases List.mem_append.mp hr with hr | hr
    · exact h.root r hr
    · rw [List.mem_singleton.mp hr]
      exact h.avail pt (hheap ▸ List.mem_cons_self)
  · rw [hm] at ht
    exact hheap ▸ List.mem_cons_of_mem _ ht
  · rcases List.mem_append.mp hr with hr | hr
    · rw [Owners.addProc_of_ne (hne r hr)]
      exact (h.tree r hr).frame (hold r hr)
    · rw [List.mem_singleton.mp hr, Owners.addProc_self, hm]
      exact P.procmap_tree fun _ => by rw [Function.update_self]
  · rcases List.mem_append.mp h₁ with h₁ | h₁ <;> rcases List.mem_append.mp h₂ with h₂ | h₂
    · rw [Owners.addProc_of_ne (hne _ h₁), Owners.addProc_of_ne (hne _ h₂)]
      exact h.sep r₁ h₁ r₂ h₂ hn
    · rw [List.mem_singleton.mp h₂, Owners.addProc_of_ne (hne _ h₁), Owners.addProc_self]
      exact Set.disjoint_singleton_right.mpr (hout r₁ h₁)
    · rw [List.mem_singleton.mp h₁, Owners.addProc_of_ne (hne _ h₂), Owners.addProc_self]
      exact Set.disjoint_singleton_left.mpr (hout r₂ h₂)
    · exact absurd ((List.mem_singleton.mp h₁).trans (List.mem_singleton.mp h₂).symm) hn
  · rcases List.mem_append.mp hr with hr | hr
    · rw [Owners.addProc_of_ne (hne r hr)]
      exact h.apart r hr
    · rw [List.mem_singleton.mp hr, Owners.addProc_self]
      exact Set.disjoint_singleton_left.mpr fun hp => hf.1 (Or.inr hp)
  · rcases List.mem_append.mp hr with hr | hr
    · rw [hlook r hr] at hx
      exact h.entry r hr va hva x hx
    · rw [List.mem_singleton.mp hr, hempty va hva] at hx
      cases hx
  · rw [Owners.used_addProc hnew, hm]
    exact hf.2.2.2
  · obtain ⟨r, k⟩ := l
    by_cases hr : r ∈ roots
    · simp only [leaf, hr, List.mem_append, true_or, hlook r hr]
    · have hno : ¬ (r ∈ roots ∧ k < 2 ^ 26) := fun hc => hr hc.1
      rw [leaf, leaf, if_neg hno]
      split_ifs with hp
      · have hrp : r = pt := List.mem_singleton.mp ((List.mem_append.mp hp.1).resolve_left hr)
        rw [hrp, hempty _ (by have := hp.2; omega), Option.bind_none]
      · rfl

/-- The entry of a mapped page, and what `lookup` says of its addresses. -/
theorem exists_pteAt {p : ℕ} {w : Bool} (hl : m.ref P roots (r, k) = some (p, w)) :
    ∃ pte, m.PteAt P r k pte ∧ UserEntry P.ops (m.tables pte.1 pte.2) ∧
      P.ops.pa (m.tables pte.1 pte.2) = p ∧ (P.ops.perm (m.tables pte.1 pte.2)).has .w = w ∧
      ∀ va, va / 4096 = k → P.ops.lookup m.tables r va = some ⟨pte, va, 4096⟩ := by
  obtain ⟨-, hr, hk⟩ := h.ref_mem_pages hl
  rcases h.ref_cases hr hk with ⟨hn, -⟩ | ⟨e, he, -, hlook, href⟩
  · rw [hn] at hl
    cases hl
  rw [href, Option.some.injEq, Prod.mk.injEq] at hl
  obtain ⟨rfl, rfl⟩ := hl
  rw [Radix.lookup, Option.map_eq_some_iff] at hlook
  obtain ⟨⟨d, t⟩, hfind, hd⟩ := hlook
  obtain ⟨rfl, hte⟩ : d = 2 ∧ m.tables t (P.ops.radix.index d (k * 4096)) = e :=
    Prod.mk.inj hd
  replace hte : m.tables t (vpn 0 (k * 4096)) = e := hte
  refine ⟨(t, vpn 0 (k * 4096)), ⟨hfind, rfl⟩, by rwa [hte], by rw [hte], by rw [hte], ?_⟩
  rintro va rfl
  have hidx : vpn 0 va = vpn 0 (va / 4096 * 4096) := agree_page P.ops va 2 (by decide)
  rw [PteOps.lookup_eq, Radix.find_agree (agree_page P.ops va), hfind, Option.bind_some]
  change (if P.ops.leaf (m.tables t (vpn 0 va)) .normal = true then
    some (VaMapping.mk (t, vpn 0 va) va 4096) else none) = _
  rw [hidx, hte, if_pos he.leaf]

theorem pteAt_spec {p : ℕ} {w : Bool} (hl : m.ref P roots (r, k) = some (p, w)) {pte : ℕ × ℕ}
    (hat : m.PteAt P r k pte) :
    UserEntry P.ops (m.tables pte.1 pte.2) ∧ P.ops.pa (m.tables pte.1 pte.2) = p := by
  obtain ⟨-, hr, hk⟩ := h.ref_mem_pages hl
  rcases h.ref_cases hr hk with ⟨hn, -⟩ | ⟨e, he, -, hlook, href⟩
  · rw [hn] at hl
    cases hl
  · rw [hat.lookup, Option.some.injEq, Prod.mk.injEq] at hlook
    rw [hl, Option.some.injEq, Prod.mk.injEq] at href
    rw [hlook.2]
    exact ⟨he, href.1.symm⟩

/-- What `lookup` may find where no page is mapped. -/
theorem lookup_unmapped (hr : r ∈ roots) (hva : va < 2 ^ 38)
    (hl : m.ref P roots (r, va / 4096) = none) {map : VaMapping}
    (hm : P.ops.lookup m.tables r va = some map) : m.tables map.pte.1 map.pte.2 = 0 := by
  rcases h.ref_cases hr (by omega : va / 4096 < 2 ^ 26) with ⟨-, hlook⟩ | ⟨e, -, -, -, href⟩
  · rw [← lookup_page] at hlook
    rw [PteOps.lookup_eq] at hm
    rw [Radix.lookup] at hlook
    cases hf : P.ops.radix.find m.tables r va with
    | none => simp [hf] at hm
    | some x =>
      obtain ⟨d, t⟩ := x
      rw [hf] at hm hlook
      simp only [Option.map_some, reduceCtorEq, Option.some.injEq, Prod.mk.injEq, false_or] at hlook
      obtain ⟨rfl, h0⟩ := hlook
      rw [Option.bind_some] at hm
      split_ifs at hm
      cases hm
      exact h0
  · rw [href] at hl
    cases hl

end Shape
end Machine
end Multiplix.Proc
