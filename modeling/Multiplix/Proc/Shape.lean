import Mathlib.Order.BourbakiWitt
import Mathlib.Order.CompletePartialOrder
import Multiplix.Lib.Cow
import Multiplix.Proc.Proc

/-! The page tables of all processes at once: they share no table, and below the kernel they map
single pages for users. -/
namespace Multiplix.Proc
open Lib Vm

/-- An address that names a page of main memory. -/
def Platform.InMem (P : Platform) (t : ℕ) : Prop :=
  ∃ pn, P.basepg ≤ pn ∧ pn < P.basepg + P.npgs ∧ t = pn * 4096

theorem Platform.InMem.dvd {P : Platform} {t : ℕ} (h : P.InMem t) : 4096 ∣ t := by
  obtain ⟨pn, -, -, rfl⟩ := h
  exact Dvd.intro_left pn rfl

theorem Platform.InMem.lt {P : Platform} {t : ℕ} (h : P.InMem t) : t < 2 ^ P.ops.paBits := by
  obtain ⟨pn, -, h2, rfl⟩ := h
  have := P.mem_le
  omega

/-- The entry of a page that a process may read, and may write or is to copy first. -/
structure UserEntry (ops : PteOps) (e : Pte) : Prop where
  valid : ops.valid e = true
  leaf : ops.leaf e .normal = true
  user : (ops.perm e).has .u = true
  read : (ops.perm e).has .r = true
  cow : (ops.perm e).has .cow = !(ops.perm e).has .w

namespace UserEntry

variable {ops : PteOps} {e : Pte} (h : UserEntry ops e)
include h

/-- A page that may be written instead of copied. -/
theorem writable : UserEntry ops (ops.setPerm e (ops.perm e &&& ~~~Perm.cow ||| Perm.w)) ∧
    ops.pa (ops.setPerm e (ops.perm e &&& ~~~Perm.cow ||| Perm.w)) = ops.pa e ∧
    (ops.perm (ops.setPerm e (ops.perm e &&& ~~~Perm.cow ||| Perm.w))).has .w = true := by
  have hall : ∀ q : Perm, q.has .r = true → q.has .u = true →
      (q &&& ~~~Perm.cow ||| Perm.w).has .r = true ∧ (q &&& ~~~Perm.cow ||| Perm.w).has .u = true ∧
      (q &&& ~~~Perm.cow ||| Perm.w).has .cow = false ∧
      (q &&& ~~~Perm.cow ||| Perm.w).has .w = true := by decide
  obtain ⟨hr, hu, hc, hw⟩ := hall _ h.read h.user
  obtain ⟨h1, h2, h3, h4⟩ := ops.setPerm_spec h.valid hr
  rw [h3, h4]
  exact ⟨⟨h1, h2, by rw [h4, hu], by rw [h4, hr], by rw [h4, hc, hw]; rfl⟩, rfl, hw⟩

/-- A page that is to be copied before it is written. -/
theorem shared : UserEntry ops (ops.setPerm e (ops.perm e &&& ~~~Perm.w ||| Perm.cow)) ∧
    ops.pa (ops.setPerm e (ops.perm e &&& ~~~Perm.w ||| Perm.cow)) = ops.pa e ∧
    (ops.perm (ops.setPerm e (ops.perm e &&& ~~~Perm.w ||| Perm.cow))).has .w = false := by
  have hall : ∀ q : Perm, q.has .r = true → q.has .u = true →
      (q &&& ~~~Perm.w ||| Perm.cow).has .r = true ∧ (q &&& ~~~Perm.w ||| Perm.cow).has .u = true ∧
      (q &&& ~~~Perm.w ||| Perm.cow).has .cow = true ∧
      (q &&& ~~~Perm.w ||| Perm.cow).has .w = false := by decide
  obtain ⟨hr, hu, hc, hw⟩ := hall _ h.read h.user
  obtain ⟨h1, h2, h3, h4⟩ := ops.setPerm_spec h.valid hr
  rw [h3, h4]
  exact ⟨⟨h1, h2, by rw [h4, hu], by rw [h4, hr], by rw [h4, hc, hw]; rfl⟩, rfl, hw⟩

theorem setPa {q : ℕ} (hq : q < 2 ^ ops.paBits) (hal : 4096 ∣ q) :
    UserEntry ops (ops.setPa e q) ∧ ops.pa (ops.setPa e q) = q ∧
      ops.perm (ops.setPa e q) = ops.perm e := by
  obtain ⟨h1, h2, h3, h4⟩ := ops.setPa_spec (e := e) hq hal
  exact ⟨⟨h1 ▸ h.valid, h2 ▸ h.leaf, h4 ▸ h.user, h4 ▸ h.read, by rw [h4]; exact h.cow⟩, h3, h4⟩

end UserEntry

/-- The tables of each process, and the pages handed out for other use. -/
structure Owners where
  tables : ℕ → Set ℕ
  pages : Set ℕ

namespace Owners

def used (o : Owners) (roots : List ℕ) : Set ℕ :=
  {t | (∃ r ∈ roots, t ∈ o.tables r) ∨ t ∈ o.pages}

def addTables (o : Owners) (r : ℕ) (ts : Set ℕ) : Owners :=
  { o with tables := Function.update o.tables r (o.tables r ∪ ts) }

def addProc (o : Owners) (pt : ℕ) : Owners :=
  { o with tables := Function.update o.tables pt {pt} }

def addPage (o : Owners) (p : ℕ) : Owners := { o with pages := insert p o.pages }

variable {o : Owners} {roots : List ℕ} {r : ℕ}

theorem tables_subset (hr : r ∈ roots) : o.tables r ⊆ o.used roots := fun _ ht => Or.inl ⟨r, hr, ht⟩

@[simp] theorem addTables_pages (ts : Set ℕ) : (o.addTables r ts).pages = o.pages := rfl

@[simp] theorem addTables_self (ts : Set ℕ) : (o.addTables r ts).tables r = o.tables r ∪ ts :=
  Function.update_self ..

theorem addTables_of_ne {r' : ℕ} (h : r' ≠ r) (ts : Set ℕ) :
    (o.addTables r ts).tables r' = o.tables r' := Function.update_of_ne h ..

theorem addTables_subset (r' : ℕ) (ts : Set ℕ) : o.tables r' ⊆ (o.addTables r ts).tables r' := by
  by_cases he : r' = r
  · subst he
    rw [addTables_self]
    exact Set.subset_union_left
  · rw [addTables_of_ne he]

@[simp] theorem addTables_empty : o.addTables r ∅ = o := by
  rw [addTables, Set.union_empty, Function.update_eq_self]

theorem used_addTables (hr : r ∈ roots) (ts : Set ℕ) :
    (o.addTables r ts).used roots = o.used roots ∪ ts := by
  ext t
  constructor
  · rintro (⟨r', hr', ht⟩ | ht)
    · by_cases he : r' = r
      · subst he
        rw [addTables_self] at ht
        exact ht.imp (fun h => Or.inl ⟨r', hr', h⟩) id
      · rw [addTables_of_ne he] at ht
        exact Or.inl (Or.inl ⟨r', hr', ht⟩)
    · exact Or.inl (Or.inr ht)
  · rintro ((⟨r', hr', ht⟩ | ht) | ht)
    · exact Or.inl ⟨r', hr', addTables_subset r' ts ht⟩
    · exact Or.inr ht
    · refine Or.inl ⟨r, hr, ?_⟩
      rw [addTables_self]
      exact Or.inr ht

theorem used_addPage (p : ℕ) : (o.addPage p).used roots = insert p (o.used roots) := by
  ext t
  simp only [used, addPage, Set.mem_insert_iff, Set.mem_ofPred_eq]
  exact or_left_comm

@[simp] theorem addProc_pages (pt : ℕ) : (o.addProc pt).pages = o.pages := rfl

@[simp] theorem addProc_self (pt : ℕ) : (o.addProc pt).tables pt = {pt} := Function.update_self ..

theorem addProc_of_ne {pt : ℕ} (h : r ≠ pt) : (o.addProc pt).tables r = o.tables r :=
  Function.update_of_ne h ..

theorem used_addProc {pt : ℕ} (h : pt ∉ roots) :
    (o.addProc pt).used (roots ++ [pt]) = insert pt (o.used roots) := by
  have hne : ∀ r ∈ roots, r ≠ pt := fun r hr he => h (he ▸ hr)
  ext t
  constructor
  · rintro (⟨r, hr, ht⟩ | ht)
    · rcases List.mem_append.mp hr with hr | hr
      · rw [addProc_of_ne (hne r hr)] at ht
        exact Or.inr (Or.inl ⟨r, hr, ht⟩)
      · rw [List.mem_singleton.mp hr, addProc_self] at ht
        exact Or.inl ht
    · exact Or.inr (Or.inr ht)
  · rintro (ht | ⟨r, hr, ht⟩ | ht)
    · refine Or.inl ⟨pt, List.mem_append_right _ (List.mem_singleton_self _), ?_⟩
      rw [addProc_self]
      exact ht
    · refine Or.inl ⟨r, List.mem_append_left _ hr, ?_⟩
      rwa [addProc_of_ne (hne r hr)]
    · exact Or.inr ht

end Owners

namespace Machine

variable (P : Platform)

/-- What a process maps at a page of its address space. -/
def ref (roots : List ℕ) (m : Machine) (l : ℕ × ℕ) : Option (ℕ × Bool) :=
  if l.1 ∈ roots ∧ l.2 < 2 ^ 26 then
    (P.ops.radix.lookup m.tables l.1 (l.2 * 4096)).bind fun x =>
      if P.ops.valid x.2 then some (P.ops.pa x.2, (P.ops.perm x.2).has .w) else none
  else none

/-- The entry of a page that a process maps. -/
def leaf (roots : List ℕ) (m : Machine) (l : ℕ × ℕ) : Option Pte :=
  if l.1 ∈ roots ∧ l.2 < 2 ^ 26 then
    (P.ops.radix.lookup m.tables l.1 (l.2 * 4096)).bind fun x =>
      if P.ops.valid x.2 then some x.2 else none
  else none

structure Shape (roots : List ℕ) (o : Owners) (m : Machine) : Prop where
  nodup : roots.Nodup
  root : ∀ r ∈ roots, P.InMem r
  avail : ∀ t, some t ∈ m.heap → P.InMem t
  tree : ∀ r ∈ roots, P.ops.radix.Tree m.tables r (o.tables r)
  sep : ∀ r ∈ roots, ∀ r' ∈ roots, r ≠ r' → Disjoint (o.tables r) (o.tables r')
  apart : ∀ r ∈ roots, Disjoint (o.tables r) o.pages
  page : ∀ p ∈ o.pages, P.InMem p
  entry : ∀ r ∈ roots, ∀ va < 2 ^ 38, ∀ x ∈ P.ops.radix.lookup m.tables r va,
    x.1 = 2 ∧ (x.2 = 0 ∨ UserEntry P.ops x.2 ∧ P.ops.pa x.2 ∈ o.pages)
  fresh : P.ops.Fresh (o.used roots) m.heap

variable {P} {roots : List ℕ} {o : Owners} {m m' : Machine} {r k va : ℕ} {e : Pte}

theorem ref_eq (hr : r ∈ roots) (hk : k < 2 ^ 26) : m.ref P roots (r, k) =
    (P.ops.radix.lookup m.tables r (k * 4096)).bind fun x =>
      if P.ops.valid x.2 then some (P.ops.pa x.2, (P.ops.perm x.2).has .w) else none :=
  if_pos ⟨hr, hk⟩

theorem leaf_eq (hr : r ∈ roots) (hk : k < 2 ^ 26) : m.leaf P roots (r, k) =
    (P.ops.radix.lookup m.tables r (k * 4096)).bind fun x =>
      if P.ops.valid x.2 then some x.2 else none :=
  if_pos ⟨hr, hk⟩

theorem ref_eq_leaf (l : ℕ × ℕ) : m.ref P roots l =
    (m.leaf P roots l).map fun e => (P.ops.pa e, (P.ops.perm e).has .w) := by
  unfold ref leaf
  split_ifs with hin
  · cases P.ops.radix.lookup m.tables l.1 (l.2 * 4096) with
    | none => rfl
    | some x =>
      dsimp only [Option.bind_some]
      split_ifs <;> rfl
  · rfl

/-- References change with the entries. -/
theorem ref_update {l : ℕ × ℕ}
    (h : m'.leaf P roots = Function.update (m.leaf P roots) l (some e)) : m'.ref P roots =
      Function.update (m.ref P roots) l (some (P.ops.pa e, (P.ops.perm e).has .w)) := by
  funext l'
  rw [ref_eq_leaf, h]
  by_cases he : l' = l
  · rw [he, Function.update_self, Function.update_self, Option.map_some]
  · rw [Function.update_of_ne he, Function.update_of_ne he, ref_eq_leaf]

theorem lookup_page (T : PtMem) (r va : ℕ) :
    P.ops.radix.lookup T r va = P.ops.radix.lookup T r (va / 4096 * 4096) :=
  Radix.lookup_agree (agree_page P.ops va)

namespace Shape

variable (h : m.Shape P roots o)
include h

/-- What a page may find: nothing, a hole, or the entry of a user page. -/
theorem ref_cases (hr : r ∈ roots) (hk : k < 2 ^ 26) :
    (m.ref P roots (r, k) = none ∧ (P.ops.radix.lookup m.tables r (k * 4096) = none ∨
      P.ops.radix.lookup m.tables r (k * 4096) = some (2, 0))) ∨
    ∃ e, UserEntry P.ops e ∧ P.ops.pa e ∈ o.pages ∧
      P.ops.radix.lookup m.tables r (k * 4096) = some (2, e) ∧
      m.ref P roots (r, k) = some (P.ops.pa e, (P.ops.perm e).has .w) := by
  rw [ref_eq hr hk]
  have he := h.entry r hr (k * 4096) (by omega)
  cases hx : P.ops.radix.lookup m.tables r (k * 4096) with
  | none => exact Or.inl ⟨rfl, Or.inl rfl⟩
  | some x =>
    obtain ⟨d, e⟩ := x
    obtain ⟨rfl, rfl | ⟨hu, hp⟩⟩ : d = 2 ∧ (e = 0 ∨ UserEntry P.ops e ∧ P.ops.pa e ∈ o.pages) :=
      he _ hx
    · refine Or.inl ⟨?_, Or.inr rfl⟩
      rw [Option.bind_some, P.ops.valid_zero]
      rfl
    · refine Or.inr ⟨e, hu, hp, rfl, ?_⟩
      rw [Option.bind_some, if_pos hu.valid]

theorem ref_mem_pages {l : ℕ × ℕ} {p : ℕ} {w : Bool} (hl : m.ref P roots l = some (p, w)) :
    p ∈ o.pages ∧ l.1 ∈ roots ∧ l.2 < 2 ^ 26 := by
  have hin : l.1 ∈ roots ∧ l.2 < 2 ^ 26 := by
    by_contra hc
    rw [ref, if_neg hc] at hl
    cases hl
  refine ⟨?_, hin⟩
  rcases h.ref_cases hin.1 hin.2 with ⟨hn, -⟩ | ⟨e, -, hp, -, he⟩
  · rw [hn] at hl
    cases hl
  · rw [he, Option.some.injEq, Prod.mk.injEq] at hl
    rwa [← hl.1]

/-- Other processes do not notice changes to the tables of one process. -/
theorem lookup_other (m' : Machine) (hr : r ∈ roots) {c : Supply} (hheap : m.heap = c ++ m'.heap)
    (hframe : ∀ s ∉ o.tables r ∪ supplied c, m'.tables s = m.tables s) {r' : ℕ} (hr' : r' ∈ roots)
    (hne : r' ≠ r) : (∀ s ∈ o.tables r', m'.tables s = m.tables s) ∧
      ∀ va, P.ops.radix.lookup m'.tables r' va = P.ops.radix.lookup m.tables r' va := by
  have hfresh := h.fresh
  rw [hheap, PteOps.fresh_append] at hfresh
  have hsame : ∀ s ∈ o.tables r', m'.tables s = m.tables s := fun s hs => hframe s fun hc => hc.elim
    (Set.disjoint_left.mp (h.sep r' hr' r hr hne) hs) fun hc =>
      hfresh.1.not_mem s hc (Or.inl ⟨r', hr', hs⟩)
  exact ⟨hsame, fun va => Radix.lookup_frame (h.tree r' hr') hsame⟩

/-- Changes to the tables of one process only. -/
theorem reshape (m' : Machine) (hr : r ∈ roots) {c : Supply} (hheap : m.heap = c ++ m'.heap)
    (htree : P.ops.radix.Tree m'.tables r (o.tables r ∪ supplied c))
    (hframe : ∀ s ∉ o.tables r ∪ supplied c, m'.tables s = m.tables s)
    (hentry : ∀ va < 2 ^ 38, ∀ x ∈ P.ops.radix.lookup m'.tables r va,
      x.1 = 2 ∧ (x.2 = 0 ∨ UserEntry P.ops x.2 ∧ P.ops.pa x.2 ∈ o.pages)) :
    m'.Shape P roots (o.addTables r (supplied c)) := by
  have hfresh := h.fresh
  rw [hheap, PteOps.fresh_append] at hfresh
  have hnew : ∀ t ∈ supplied c, t ∉ o.used roots := hfresh.1.not_mem
  have hother : ∀ {r'}, r' ∈ roots → r' ≠ r → (∀ s ∈ o.tables r', m'.tables s = m.tables s) ∧
      ∀ va, P.ops.radix.lookup m'.tables r' va = P.ops.radix.lookup m.tables r' va :=
    h.lookup_other m' hr hheap hframe
  have hsep : ∀ r' ∈ roots, r' ≠ r → Disjoint (o.tables r ∪ supplied c) (o.tables r') :=
    fun r' hr' hne => Set.disjoint_union_left.mpr ⟨h.sep r hr r' hr' hne.symm,
      Set.disjoint_left.mpr fun t ht ht' => hnew t ht (Or.inl ⟨r', hr', ht'⟩)⟩
  refine ⟨h.nodup, h.root, fun t ht => h.avail t ?_, fun r' hr' => ?_, fun r₁ h₁ r₂ h₂ hne => ?_,
    fun r' hr' => ?_, h.page, fun r' hr' va hva x hx => ?_, ?_⟩
  · rw [hheap]
    exact List.mem_append_right _ ht
  · by_cases hne : r' = r
    · rw [hne, Owners.addTables_self]
      exact htree
    · rw [Owners.addTables_of_ne hne]
      exact (h.tree r' hr').frame (hother hr' hne).1
  · by_cases h1 : r₁ = r
    · rw [h1, Owners.addTables_self, Owners.addTables_of_ne (h1 ▸ hne.symm)]
      exact hsep r₂ h₂ (h1 ▸ hne.symm)
    · rw [Owners.addTables_of_ne h1]
      by_cases h2 : r₂ = r
      · rw [h2, Owners.addTables_self]
        exact (hsep r₁ h₁ h1).symm
      · rw [Owners.addTables_of_ne h2]
        exact h.sep r₁ h₁ r₂ h₂ hne
  · rw [Owners.addTables_pages]
    by_cases hne : r' = r
    · rw [hne, Owners.addTables_self]
      exact Set.disjoint_union_left.mpr
        ⟨h.apart r hr, Set.disjoint_left.mpr fun t ht hp => hnew t ht (Or.inr hp)⟩
    · rw [Owners.addTables_of_ne hne]
      exact h.apart r' hr'
  · by_cases hne : r' = r
    · subst hne
      exact hentry va hva x hx
    · rw [(hother hr' hne).2] at hx
      exact h.entry r' hr' va hva x hx
  · rw [Owners.used_addTables hr]
    exact hfresh.2

/-- Changes to the tables of one process only, after which one page has a new entry. -/
theorem update (m' : Machine) (hr : r ∈ roots) (hk : k < 2 ^ 26) {c : Supply}
    (hheap : m.heap = c ++ m'.heap)
    (htree : P.ops.radix.Tree m'.tables r (o.tables r ∪ supplied c))
    (hframe : ∀ s ∉ o.tables r ∪ supplied c, m'.tables s = m.tables s)
    (he : UserEntry P.ops e) (hp : P.ops.pa e ∈ o.pages)
    (hpage : P.ops.radix.lookup m'.tables r (k * 4096) = some (2, e))
    (hlook : ∀ va < 2 ^ 38, va / 4096 ≠ k →
      P.ops.radix.lookup m'.tables r va = P.ops.radix.lookup m.tables r va ∨
        P.ops.radix.lookup m.tables r va = none ∧
          P.ops.radix.lookup m'.tables r va = some (2, 0)) :
    m'.Shape P roots (o.addTables r (supplied c)) ∧
      m'.leaf P roots = Function.update (m.leaf P roots) (r, k) (some e) := by
  have hother : ∀ {r'}, r' ∈ roots → r' ≠ r → (∀ s ∈ o.tables r', m'.tables s = m.tables s) ∧
      ∀ va, P.ops.radix.lookup m'.tables r' va = P.ops.radix.lookup m.tables r' va :=
    h.lookup_other m' hr hheap hframe
  refine ⟨h.reshape m' hr hheap htree hframe fun va hva x hx => ?_, funext fun ⟨r', k'⟩ => ?_⟩
  · by_cases hva' : va / 4096 = k
    · rw [lookup_page, hva', hpage, Option.mem_some_iff] at hx
      rw [← hx]
      exact ⟨rfl, Or.inr ⟨he, hp⟩⟩
    · rcases hlook va hva hva' with hl | ⟨-, hl⟩
      · exact h.entry r hr va hva x (hl ▸ hx)
      · rw [hl, Option.mem_some_iff] at hx
        rw [← hx]
        exact ⟨rfl, Or.inl rfl⟩
  · by_cases hin : r' ∈ roots ∧ k' < 2 ^ 26
    swap
    · rw [Function.update_of_ne fun hc => hin (by cases hc; exact ⟨hr, hk⟩), leaf, if_neg hin, leaf,
        if_neg hin]
    by_cases hl : (r', k') = (r, k)
    · cases hl
      rw [Function.update_self, leaf_eq hr hk, hpage, Option.bind_some, if_pos he.valid]
    · rw [Function.update_of_ne hl, leaf_eq hin.1 hin.2, leaf_eq hin.1 hin.2]
      by_cases hne : r' = r
      · subst hne
        have hk' : k' * 4096 / 4096 ≠ k := fun hc =>
          hl (by rw [← hc, Nat.mul_div_cancel _ (by decide)])
        rcases hlook (k' * 4096) (by omega) hk' with hl | ⟨hl, hl'⟩
        · rw [hl]
        · rw [hl, hl', Option.bind_some, P.ops.valid_zero]
          rfl
      · rw [(hother hin.1 hne).2]

/-- New tables of one process, with the same entries. -/
theorem grow (m' : Machine) (hr : r ∈ roots) {c : Supply} (hheap : m.heap = c ++ m'.heap)
    (htree : P.ops.radix.Tree m'.tables r (o.tables r ∪ supplied c))
    (hframe : ∀ s ∉ o.tables r ∪ supplied c, m'.tables s = m.tables s)
    (hlook : ∀ va, P.ops.radix.lookup m'.tables r va = P.ops.radix.lookup m.tables r va) :
    m'.Shape P roots (o.addTables r (supplied c)) ∧ m'.leaf P roots = m.leaf P roots := by
  refine ⟨h.reshape m' hr hheap htree hframe fun va hva x hx =>
    h.entry r hr va hva x (hlook va ▸ hx), funext fun ⟨r', k'⟩ => ?_⟩
  by_cases hin : r' ∈ roots ∧ k' < 2 ^ 26
  · rw [leaf_eq hin.1 hin.2, leaf_eq hin.1 hin.2]
    by_cases hne : r' = r
    · rw [hne, hlook]
    · rw [(h.lookup_other m' hr hheap hframe hin.1 hne).2]
  · rw [leaf, leaf, if_neg hin, if_neg hin]

end Shape
end Machine
end Multiplix.Proc
