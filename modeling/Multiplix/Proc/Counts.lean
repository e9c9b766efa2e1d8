import Multiplix.Proc.ForkRefinement
import Multiplix.Proc.KernelMap

/-! Reference counts that are exact, and the operations that keep them so. -/
namespace Multiplix.Proc
open Lib Vm

namespace Machine

variable (P : Platform)

/-- The entries of user pages that map a page, by process and number. -/
def userEntries (roots : List ℕ) (m : Machine) (pn : ℕ) : Set (ℕ × ℕ) :=
  {l | l.1 ∈ roots ∧ l.2 < 2 ^ 27 ∧ ∃ map, P.ops.lookup m.tables l.1 (l.2 * 4096) = some map ∧
    map.size = pagesize ∧ P.ops.valid (m.tables map.pte.1 map.pte.2) = true ∧
    map.user P.ops m.tables = true ∧ map.pa P.ops m.tables = pn * 4096}

/-- The tables of the processes, and the pages that they map. -/
def owners (roots : List ℕ) (m : Machine) : Owners where
  tables r := {t | ∃ va d, d ≤ P.ops.radix.last ∧ P.ops.radix.node m.tables r va d = some t}
  pages := {p | ∃ l w, m.ref P roots l = some (p, w)}

/-- The number of the page that an address stands for. -/
def page (va : ℕ) : ℕ := va % 2 ^ 39 / 4096

/-- In the upper half of its address space a process has no entries for single pages. -/
def Upper (roots : List ℕ) (m : Machine) : Prop :=
  ∀ r ∈ roots, ∀ va, va.testBit 38 = true → ∀ x ∈ P.ops.radix.lookup m.tables r va, x.1 ≠ 2

/-- Counts fit the references, and a page without references has none. -/
structure Exact (roots : List ℕ) (m : Machine) : Prop where
  inv : ∃ o, m.Inv P roots o
  upper : m.Upper P roots
  idle : ∀ pn, (∀ l w, m.ref P roots l ≠ some (pn * 4096, w)) → m.refcnt pn = 0

variable {P} {roots roots' : List ℕ} {o o' : Owners} {m m' : Machine} {r pt va va' p k : ℕ}
  {perm : Perm}

theorem testBit_iff : va.testBit 38 = true ↔ 256 ≤ vpn 2 va := by
  rw [vpn_eq, Nat.testBit_eq_decide_div_mod_eq, decide_eq_true_iff]
  omega

theorem not_agree_of_testBit (h : va.testBit 38 = false) (h' : va'.testBit 38 = true) :
    ¬ P.ops.radix.Agree va va' 1 := fun hag => by
  have hi : vpn 2 va = vpn 2 va' := hag 0 (by decide)
  rw [testBit_iff, ← hi, ← testBit_iff, h] at h'
  cases h'

theorem mod_lt_of_testBit (h : va.testBit 38 = false) : va % 2 ^ 39 < 2 ^ 38 := by
  rw [Nat.testBit_eq_decide_div_mod_eq, decide_eq_false_iff_not] at h
  omega

theorem testBit_of_lt (h : va < 2 ^ 38) : va.testBit 38 = false := Nat.testBit_lt_two_pow h

/-- Page tables look at 39 bits of an address. -/
theorem vpn_mod (i : ℕ) (hi : i ≤ 2) : vpn i va = vpn i (va % 2 ^ 39) := by
  rw [vpn_eq, vpn_eq]
  rcases (by omega : i = 0 ∨ i = 1 ∨ i = 2) with rfl | rfl | rfl <;> omega

theorem mappg_mod : m.mappg P r va p perm = m.mappg P r (va % 2 ^ 39) p perm := by
  rw [mappg, mappg, PteOps.map, PteOps.map, PteOps.walk_congr fun i hi => vpn_mod i hi]

theorem Upper.frame (h : m.Upper P roots) (hs : ∀ r ∈ roots, ∀ va, va.testBit 38 = true →
    P.ops.radix.lookup m'.tables r va = P.ops.radix.lookup m.tables r va) : m'.Upper P roots :=
  fun r hr va hva x hx => h r hr va hva x (hs r hr va hva ▸ hx)

theorem Upper.congr (h : m.Upper P roots) (ht : m'.tables = m.tables) : m'.Upper P roots :=
  h.frame fun r _ va _ => by rw [ht]

/-- Mapping a page in the lower half changes nothing in the upper half. -/
theorem Shape.mappg_high (h : m.Shape P roots o) (hr : r ∈ roots) (hp : p ∈ o.pages)
    (hperm : perm &&& Perm.rwx ≠ 0) {ok : Bool} (hva : ok = true → va.testBit 38 = false)
    (hm : m.mappg P r va p perm = (ok, m')) {r' : ℕ} (hr' : r' ∈ roots)
    (hva' : va'.testBit 38 = true) :
    P.ops.radix.lookup m'.tables r' va' = P.ops.radix.lookup m.tables r' va' := by
  have hin := h.page p hp
  rcases hmap : P.ops.map m.tables r va p .normal perm m.heap with ⟨ok', T', rest⟩
  obtain ⟨⟨c, hc, htree, hframe⟩, hres⟩ := PteOps.map_page_spec (h.tree r hr)
    (h.fresh.anti (Owners.tables_subset hr)) hin.lt hin.dvd hperm hmap
  have htr : ok' = ok ∧ m'.tables = T' ∧ m'.heap = rest := by
    rw [Machine.mappg, hmap] at hm
    cases ok' <;> cases hm <;> exact ⟨rfl, rfl, rfl⟩
  obtain ⟨rfl, rfl, rfl⟩ := htr
  by_cases hne : r' = r
  · subst hne
    rcases hres with ⟨-, hlook⟩ | ⟨rfl, d, -, e, -, hlook⟩
    · exact hlook va'
    · have hno := not_agree_of_testBit (P := P) (hva rfl) hva'
      rw [hlook, if_neg fun hag => hno fun i hi => hag i (by omega),
        if_neg fun hc => hno fun i hi => hc.1 i (by omega)]
  · exact (h.lookup_other m' hr hc hframe hr' hne).2 va'

theorem Shape.mappg_upper (h : m.Shape P roots o) (hr : r ∈ roots) (hp : p ∈ o.pages)
    (hperm : perm &&& Perm.rwx ≠ 0) {ok : Bool} (hva : ok = true → va.testBit 38 = false)
    (hm : m.mappg P r va p perm = (ok, m')) (hu : m.Upper P roots) : m'.Upper P roots :=
  hu.frame fun _ hr' _ hva' => h.mappg_high hr hp hperm hva hm hr' hva'

/-- Changing the entry of a page changes nothing in the upper half. -/
theorem Shape.setPte_high (h : m.Shape P roots o) (hr : r ∈ roots) (hk : k < 2 ^ 26)
    {pte : ℕ × ℕ} (hat : m.PteAt P r k pte) (f : Pte → Pte) {r' : ℕ} (hr' : r' ∈ roots)
    (hva' : va'.testBit 38 = true) :
    P.ops.radix.lookup (m.setPte pte f).tables r' va' = P.ops.radix.lookup m.tables r' va' := by
  obtain ⟨t, i⟩ := pte
  obtain ⟨hfind, rfl⟩ : P.ops.radix.find m.tables r (k * 4096) = some (2, t) ∧
    i = vpn 0 (k * 4096) := hat
  obtain ⟨hd, hnode, -⟩ := Radix.find_eq_some.mp hfind
  have hmem := (h.tree r hr).node_mem hd hnode
  have hframe : ∀ s ≠ t, (m.setPte (t, vpn 0 (k * 4096)) f).tables s = m.tables s :=
    fun s hs => Function.update_of_ne hs ..
  by_cases hne : r' = r
  · subst hne
    have hno := not_agree_of_testBit (P := P) (testBit_of_lt (by omega : k * 4096 < 2 ^ 38)) hva'
    refine (Radix.lookup_write_leaf (Or.inl rfl) (h.tree r' hr') hd hnode).trans (if_neg ?_)
    exact fun hag => hno fun i hi => hag i (by omega)
  · exact Radix.lookup_frame (h.tree r' hr') fun s hs =>
      hframe s fun he => Set.disjoint_left.mp (h.sep r' hr' r hr hne) hs (he ▸ hmem)

theorem Shape.setPte_upper (h : m.Shape P roots o) (hr : r ∈ roots) (hk : k < 2 ^ 26)
    {pte : ℕ × ℕ} (hat : m.PteAt P r k pte) (f : Pte → Pte) (hu : m.Upper P roots) :
    (m.setPte pte f).Upper P roots :=
  hu.frame fun _ hr' _ hva' => h.setPte_high hr hk hat f hr' hva'

/-- The kernel's own mappings are of large pages. -/
theorem Shape.addProc_upper (h : m.Shape P roots o) {heap : Supply}
    (hheap : m.heap = some pt :: heap) (hm : m' = { m with
      tables := P.kernelProcmap (Function.update m.tables pt fun _ => 0) pt, heap := heap })
    (hu : m.Upper P roots) : m'.Upper P (roots ++ [pt]) := by
  have hf := h.fresh
  rw [hheap] at hf
  intro r hr va hva x hx
  rcases List.mem_append.mp hr with hr | hr
  · have hsame : ∀ s ∈ o.tables r, m'.tables s = m.tables s := fun s hs => by
      have hne : s ≠ pt := fun he => hf.1 (Or.inl ⟨r, hr, he ▸ hs⟩)
      rw [hm]
      exact (P.procmap_other hne).trans (Function.update_of_ne hne ..)
    exact hu r hr va hva x (Radix.lookup_frame (h.tree r hr) hsame ▸ hx)
  · obtain rfl := List.mem_singleton.mp hr
    have htree : P.ops.radix.Tree m'.tables r {r} := by
      rw [hm]
      exact P.procmap_tree fun _ => by rw [Function.update_self]
    obtain ⟨⟨d, t⟩, hfind, rfl⟩ := Option.map_eq_some_iff.mp (Option.mem_def.mp hx)
    obtain ⟨hd, hnode, -⟩ := Radix.find_eq_some.mp hfind
    have ht : t = r := htree.node_mem hd hnode
    have hroot : P.ops.radix.node m'.tables r va 0 = some r := rfl
    rw [ht] at hnode
    obtain ⟨rfl, -⟩ := htree.unique hd (Nat.zero_le _) hnode hroot
    exact Nat.zero_ne_add_one 1

/-- What `lookup` finds in the upper half is no page. -/
theorem Upper.size_ne (h : m.Upper P roots) (hr : r ∈ roots) (hva : va.testBit 38 = true)
    {map : VaMapping} (hm : P.ops.lookup m.tables r va = some map) : map.size ≠ pagesize := by
  rw [PteOps.lookup_eq] at hm
  obtain ⟨⟨d, t⟩, hfind, hif⟩ := Option.bind_eq_some_iff.mp hm
  have hd := h r hr va hva (d, m.tables t (P.ops.radix.index d va)) (by
    rw [Radix.lookup, hfind]
    exact rfl)
  have hle : d ≤ 2 := (Radix.find_eq_some.mp hfind).1
  split_ifs at hif
  cases hif
  change level2size (.ofHeight (2 - d)) ≠ _
  rcases (by omega : d = 0 ∨ d = 1) with rfl | rfl <;> decide

theorem Shape.mem_userEntries (h : m.Shape P roots o) {w : Bool}
    (hl : m.ref P roots (r, k) = some (p, w)) (hr : r ∈ roots') :
    (r, k) ∈ m.userEntries P roots' (p / 4096) := by
  obtain ⟨hp, -, hk⟩ := h.ref_mem_pages hl
  obtain ⟨pte, -, he, hpa, -, hlook⟩ := h.exists_pteAt hl
  rw [userEntries, Nat.div_mul_cancel (h.page p hp).dvd]
  exact ⟨hr, by omega, _, hlook _ (Nat.mul_div_cancel _ (by decide)), rfl, he.valid, he.user, hpa⟩

theorem userEntries_eq (h : m.Shape P roots o) (hu : m.Upper P roots) (pn : ℕ) :
    m.userEntries P roots pn = (m.cow P roots).refs (pn * 4096) := by
  ext ⟨r, k⟩
  constructor
  · rintro ⟨hr, hk, map, hlook, hsize, hv, -, hpa⟩
    have hlt : k * 4096 < 2 ^ 38 := by
      by_contra hc
      refine hu.size_ne hr (Nat.testBit_of_two_pow_le_and_two_pow_add_one_gt (not_lt.mp hc) ?_)
        hlook hsize
      omega
    have href := h.ref_of_lookup hr hlt hlook hv
    rw [Nat.mul_div_cancel _ (by decide), hpa] at href
    exact ⟨_, href⟩
  · rintro ⟨w, hl⟩
    have hmem := h.mem_userEntries hl (h.ref_mem_pages hl).2.1
    rwa [Nat.mul_div_cancel _ (by decide)] at hmem

/-- Every count is the number of entries for its page. -/
theorem Exact.counts (h : m.Exact P roots) (pn : ℕ) :
    (m.userEntries P roots pn).encard = m.refcnt pn := by
  obtain ⟨o, hi⟩ := h.inv
  rw [userEntries_eq hi.shape h.upper]
  rcases Set.eq_empty_or_nonempty ((m.cow P roots).refs (pn * 4096)) with he | hne
  · have hno : ∀ l w, m.ref P roots l ≠ some (pn * 4096, w) := fun l w hl =>
      Set.eq_empty_iff_forall_notMem.mp he l ⟨w, hl⟩
    rw [he, Set.encard_empty, h.idle pn hno, Nat.cast_zero]
  · rw [hi.counted.count hne]
    change ((m.refcnt (pn * 4096 / 4096) : ℕ) : ℕ∞) = _
    rw [Nat.mul_div_cancel _ (by decide)]

/-- The same references and counts, with fewer answers. -/
theorem Inv.of_shape (h : m.Inv P roots o) (hs : m'.Shape P roots o')
    (href : m'.ref P roots = m.ref P roots) (hcnt : m'.refcnt = m.refcnt)
    (hheap : ∀ t, some t ∈ m'.heap → some t ∈ m.heap) : m'.Inv P roots o' := by
  refine ⟨hs, ?_, fun t ht => by rw [hcnt]; exact h.zero t (hheap t ht)⟩
  have hcow : m'.cow P roots = m.cow P roots := by rw [cow, cow, href, hcnt]
  rw [hcow]
  exact h.counted

theorem Exact.of_inv (h : m.Exact P roots) (hi : m'.Inv P roots o) (hu : m'.Upper P roots)
    (href : m'.ref P roots = m.ref P roots) (hcnt : m'.refcnt = m.refcnt) : m'.Exact P roots := by
  refine ⟨⟨o, hi⟩, hu, fun pn hpn => ?_⟩
  rw [hcnt]
  exact h.idle pn (href ▸ hpn)

/-- Of the processes some are left. -/
theorem Shape.sub (h : m.Shape P roots o) (hsub : roots' ⊆ roots) (hnodup : roots'.Nodup) :
    m.Shape P roots' o where
  nodup := hnodup
  root r hr := h.root r (hsub hr)
  avail := h.avail
  tree r hr := h.tree r (hsub hr)
  sep r hr r' hr' := h.sep r (hsub hr) r' (hsub hr')
  apart r hr := h.apart r (hsub hr)
  page := h.page
  entry r hr := h.entry r (hsub hr)
  fresh := h.fresh.anti fun _ ht => ht.imp_left fun ⟨r, hr, hrt⟩ => ⟨r, hsub hr, hrt⟩

theorem ref_sub (hsub : roots' ⊆ roots) (l : ℕ × ℕ) :
    m.ref P roots' l = if l.1 ∈ roots' then m.ref P roots l else none := by
  by_cases hl : l.1 ∈ roots'
  · rw [if_pos hl, ref, ref]
    simp only [hl, hsub hl, true_and]
  · rw [if_neg hl, ref, if_neg fun hc => hl hc.1]

/-- The processes that are gone mapped no pages. -/
theorem Exact.sub (h : m.Exact P roots) (hsub : roots' ⊆ roots) (hnodup : roots'.Nodup)
    (hgone : ∀ l : ℕ × ℕ, l.1 ∉ roots' → m.ref P roots l = none) : m.Exact P roots' := by
  obtain ⟨o, hi⟩ := h.inv
  have href : m.ref P roots' = m.ref P roots := funext fun l => by
    rw [ref_sub hsub]
    split_ifs with hl
    · rfl
    · exact (hgone l hl).symm
  have hcow : m.cow P roots' = m.cow P roots := by rw [cow, cow, href]
  exact ⟨⟨o, hi.shape.sub hsub hnodup, hcow ▸ hi.counted, hi.zero⟩, fun r hr => h.upper r (hsub hr),
    href ▸ h.idle⟩

/-- Tables that are not reached and pages that are not mapped may be handed out again. -/
theorem Shape.restock (h : m.Shape P roots o) {as : Supply} (hin : ∀ t, some t ∈ as → P.InMem t)
    (hfresh : P.ops.Fresh ((m.owners P roots).used roots) as) :
    ({ m with heap := as } : Machine).Shape P roots (m.owners P roots) := by
  have htables : ∀ r ∈ roots, (m.owners P roots).tables r ⊆ o.tables r :=
    fun r hr t ⟨va, d, hd, hn⟩ => (h.tree r hr).node_mem hd hn
  have hpages : (m.owners P roots).pages ⊆ o.pages := fun p ⟨l, w, hl⟩ => (h.ref_mem_pages hl).1
  refine ⟨h.nodup, h.root, hin, fun r hr => ⟨fun hd hn => ⟨_, _, hd, hn⟩, (h.tree r hr).unique⟩,
    fun r hr r' hr' hne => (h.sep r hr r' hr' hne).mono (htables r hr) (htables r' hr'),
    fun r hr => (h.apart r hr).mono (htables r hr) hpages, fun p hp => h.page p (hpages hp),
    fun r hr va hva x hx => ?_, hfresh⟩
  obtain ⟨h1, h2⟩ := h.entry r hr va hva x hx
  refine ⟨h1, h2.imp_right fun ⟨hu, _⟩ => ⟨hu, (r, va / 4096), (P.ops.perm x.2).has .w, ?_⟩⟩
  replace hx : P.ops.radix.lookup m.tables r va = some x := hx
  rw [ref_eq hr (by omega), ← lookup_page, hx, Option.bind_some, if_pos hu.valid]

theorem Exact.restock (h : m.Exact P roots) {as : Supply} (hin : ∀ t, some t ∈ as → P.InMem t)
    (hfresh : P.ops.Fresh ((m.owners P roots).used roots) as) :
    ({ m with heap := as } : Machine).Exact P roots := by
  obtain ⟨o, hi⟩ := h.inv
  refine ⟨⟨_, hi.shape.restock hin hfresh, hi.counted, fun t ht => h.idle _ fun l w hl => ?_⟩,
    h.upper, h.idle⟩
  rw [Nat.div_mul_cancel (hin t ht).dvd] at hl
  exact hfresh.not_mem t ht (Or.inr ⟨l, w, hl⟩)

/-- A call of `kalloc`. -/
theorem Exact.kalloc (h : m.Exact P roots) {a : Option ℕ} (hk : m.kalloc = (a, m')) :
    m'.Exact P roots ∧ m'.ref P roots = m.ref P roots := by
  obtain ⟨o, hi⟩ := h.inv
  rcases a with _ | p
  · rw [Machine.kalloc] at hk
    rcases hh : m.heap with _ | ⟨a, as⟩ <;> rw [hh] at hk <;> cases hk
    · exact ⟨h, rfl⟩
    · have hs : ({ m with heap := as } : Machine).Shape P roots o := by
        have hf := hi.shape.fresh
        rw [hh] at hf
        exact ⟨hi.shape.nodup, hi.shape.root, fun t ht => hi.shape.avail t
          (hh ▸ List.mem_cons_of_mem _ ht), hi.shape.tree, hi.shape.sep, hi.shape.apart,
          hi.shape.page, hi.shape.entry, hf⟩
      exact ⟨h.of_inv (hi.of_shape hs rfl rfl fun t ht => hh ▸ List.mem_cons_of_mem _ ht) h.upper
        rfl rfl, rfl⟩
  · obtain ⟨hi', heq, -⟩ := hi.kalloc hk
    have ht : m'.tables = m.tables := by rw [heq]
    have hc : m'.refcnt = m.refcnt := by rw [heq]
    exact ⟨h.of_inv hi' (h.upper.congr ht) (ref_congr ht) hc, ref_congr ht⟩

theorem Exact.congr (h : m.Exact P roots) (ht : m'.tables = m.tables) (hh : m'.heap = m.heap)
    (hc : m'.refcnt = m.refcnt) : m'.Exact P roots := by
  obtain ⟨o, hi⟩ := h.inv
  exact h.of_inv (hi.congr ht hh hc) (h.upper.congr ht) (ref_congr ht) hc

/-- A page is not mapped, because there is no memory for the tables. -/
theorem Exact.mappg_fail (h : m.Exact P roots) (hi : m.Inv P roots o) (hr : r ∈ roots)
    (hp : p ∈ o.pages) (hperm : perm &&& Perm.rwx ≠ 0)
    (hm : m.mappg P r va p perm = (false, m')) :
    m'.Exact P roots ∧ m'.ref P roots = m.ref P roots := by
  obtain ⟨c, hs, hc, -, hcnt, hleaf⟩ := hi.shape.mappg_fail hr hp hperm hm
  have href := ref_of_leaf hleaf
  have hu := hi.shape.mappg_upper hr hp hperm (by simp) hm h.upper
  refine ⟨h.of_inv (hi.of_shape hs href hcnt fun t ht => ?_) hu href hcnt, href⟩
  rw [hc]
  exact List.mem_append_right _ ht

/-- A page just handed out is filled and mapped where nothing is, or not, if there is no memory. -/
theorem Exact.mapFresh (h : m.Exact P roots) {m₁ : Machine} (hk : m.kalloc = (some p, m₁))
    {bytes : Mem} (hr : r ∈ roots) (hperm : perm = .urwx ∨ perm = .urw) {ok : Bool}
    (hva : ok = true → va.testBit 38 = false ∧ m.ref P roots (r, page va) = none)
    (hm : { m₁ with bytes := bytes }.mappg P r va p perm = (ok, m')) :
    m'.Exact P roots ∧ m'.ref P roots =
      if ok then Function.update (m.ref P roots) (r, page va) (some (p, true))
      else m.ref P roots := by
  obtain ⟨o, hi⟩ := h.inv
  cases ok with
  | false =>
    obtain ⟨h₁, href₁⟩ := h.kalloc hk
    obtain ⟨hi₁, -⟩ := hi.kalloc hk
    have h₂ : ({ m₁ with bytes := bytes } : Machine).Exact P roots := h₁.congr rfl rfl rfl
    have hi₂ : ({ m₁ with bytes := bytes } : Machine).Inv P roots (o.addPage p) :=
      hi₁.congr rfl rfl rfl
    obtain ⟨h', href⟩ := h₂.mappg_fail hi₂ hr (Set.mem_insert _ _)
      (by rcases hperm with rfl | rfl <;> decide) hm
    exact ⟨h', href.trans href₁⟩
  | true =>
    obtain ⟨hbit, hnone⟩ := hva rfl
    have hu : m'.Upper P roots := by
      obtain ⟨hi₁, -⟩ := hi.kalloc hk
      have hs₂ : ({ m₁ with bytes := bytes } : Machine).Shape P roots (o.addPage p) :=
        hi₁.shape.congr rfl rfl
      exact hs₂.mappg_upper hr (Set.mem_insert _ _) (by rcases hperm with rfl | rfl <;> decide)
        (fun _ => hbit) hm ((h.kalloc hk).1.upper.congr rfl)
    rw [mappg_mod] at hm
    have hlt := mod_lt_of_testBit hbit
    obtain ⟨-, hin, -, -, hcnt, href⟩ := hi.shape.mapFresh hk hr hlt hperm hm
    obtain ⟨-, -, hi', -⟩ := hi.mapFresh hk hr hlt hperm
      (fun q w hl => absurd (hnone.symm.trans hl) (by simp)) hm
    refine ⟨⟨hi', hu, fun pn hpn => ?_⟩, href⟩
    have hne : pn ≠ p / 4096 := fun he =>
      hpn (r, page va) true
        (by rw [page, href, Function.update_self, he, Nat.div_mul_cancel hin.dvd])
    have hold : m'.refcnt pn = m.refcnt pn := by
      rw [hcnt]
      exact Function.update_of_ne hne ..
    rw [hold]
    refine h.idle pn fun l w hl => hpn l w ?_
    rw [href, Function.update_of_ne fun he => ?_, hl]
    rw [he, ← page, hnone] at hl
    cases hl

/-- A process without pages is made, or there is no memory for it. -/
theorem Exact.makeEmpty (h : m.Exact P roots) {a : Option ℕ} (hm : m.makeEmpty P = (a, m')) :
    match a with
    | none => m'.Exact P roots
    | some pt => pt ∉ roots ∧ m'.Exact P (roots ++ [pt]) ∧
      m'.ref P (roots ++ [pt]) = m.ref P roots := by
  rcases makeEmpty_cases hm with ⟨rfl, hk⟩ | ⟨root, m₁, b, hheap, heq, hk, rfl⟩
  · exact (h.kalloc hk).1
  obtain ⟨o, hi⟩ := h.inv
  obtain ⟨hs, hnew, hleaf⟩ := hi.shape.addProc hheap heq
  have href := ref_of_leaf hleaf
  have hcow : m₁.cow P (roots ++ [root]) = m.cow P roots := by rw [cow, cow, href, heq]
  have h₁ : m₁.Exact P (roots ++ [root]) := by
    refine ⟨⟨_, hs, hcow ▸ hi.counted, fun t ht => ?_⟩,
      hi.shape.addProc_upper hheap heq h.upper, fun pn hpn => ?_⟩
    · rw [heq]
      exact hi.zero t (hheap ▸ List.mem_cons_of_mem _ ht)
    · rw [heq]
      exact h.idle pn (href ▸ hpn)
  obtain ⟨h', href'⟩ := h₁.kalloc hk
  cases b with
  | some p => exact ⟨hnew, h', href'.trans href⟩
  | none =>
    refine h'.sub (List.subset_append_left _ _) hi.shape.nodup fun l hl => ?_
    rw [href', href]
    exact if_neg fun hc => hl hc.1

end Machine
end Multiplix.Proc
