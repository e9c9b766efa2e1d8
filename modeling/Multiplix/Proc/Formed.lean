import Multiplix.Proc.Lifecycle

/-! The page tables of all processes over any run: programs may be anything, pages may be lost, and
counts may be wrong. -/
namespace Multiplix.Proc
open Lib Vm

/-- The permissions of a page once it is its process's own: a page that is to be copied becomes
writable. -/
def Perm.owned (q : Perm) : Perm := if q.has .cow then q &&& ~~~Perm.cow ||| Perm.w else q

/-- The permissions of a page while it is shared. -/
def Perm.shared (q : Perm) : Perm := q &&& ~~~Perm.w ||| Perm.cow

theorem UserEntry.owned {ops : PteOps} {e : Pte} (h : UserEntry ops e) :
    Perm.owned (ops.perm e &&& ~~~Perm.cow ||| Perm.w) = Perm.owned (ops.perm e) ∧
      Perm.owned (Perm.shared (ops.perm e)) = Perm.owned (ops.perm e) := by
  have hall : ∀ q : Perm, q.has .cow = !q.has .w →
      Perm.owned (q &&& ~~~Perm.cow ||| Perm.w) = Perm.owned q ∧
        Perm.owned (Perm.shared q) = Perm.owned q := by decide
  exact hall _ h.cow

namespace Machine

variable (P : Platform)

/-- The tables of a process are as before. -/
def SameTree (m m' : Machine) (r : ℕ) : Prop :=
  ∀ va d t, d ≤ P.ops.radix.last → P.ops.radix.node m.tables r va d = some t →
    m'.tables t = m.tables t

/-- In the upper half of its address space a process has no page that is to be copied. -/
def Plain (roots : List ℕ) (m : Machine) : Prop :=
  ∀ r ∈ roots, ∀ va, va.testBit 38 = true → ∀ x ∈ P.ops.radix.lookup m.tables r va,
    x.1 = 2 → (P.ops.perm x.2).has .cow = false

structure Formed (roots : List ℕ) (m : Machine) : Prop where
  shape : ∃ o, m.Shape P roots o
  plain : m.Plain P roots

variable {P} {roots : List ℕ} {o : Owners} {m m' m'' : Machine} {r r' k p pt pa va : ℕ}
  {perm : Perm}

theorem SameTree.refl (m : Machine) (r : ℕ) : m.SameTree P m r := fun _ _ _ _ _ => rfl

theorem SameTree.of_eq (h : m'.tables = m.tables) (r : ℕ) : m.SameTree P m' r :=
  fun _ _ _ _ _ => by rw [h]

theorem SameTree.node (h : m.SameTree P m' r) {d : ℕ} (hd : d ≤ P.ops.radix.last) :
    P.ops.radix.node m'.tables r va d = P.ops.radix.node m.tables r va d := by
  induction d with
  | zero => rfl
  | succ d ih =>
    unfold Radix.node
    rw [ih (by omega)]
    cases hn : P.ops.radix.node m.tables r va d with
    | none => rfl
    | some t => rw [Option.bind_some, Option.bind_some, h va d t (by omega) hn]

theorem SameTree.trans (h : m.SameTree P m' r) (h' : m'.SameTree P m'' r) : m.SameTree P m'' r :=
  fun va d t hd hn => by rw [h' va d t hd ((h.node hd).trans hn), h va d t hd hn]

theorem SameTree.find (h : m.SameTree P m' r) (va : ℕ) :
    P.ops.radix.find m'.tables r va = P.ops.radix.find m.tables r va :=
  Radix.find_congr (fun _ hd => h.node hd) fun d hd t hn => by rw [h va d t hd hn]

theorem SameTree.lookup (h : m.SameTree P m' r) (va : ℕ) :
    P.ops.radix.lookup m'.tables r va = P.ops.radix.lookup m.tables r va := by
  unfold Radix.lookup
  rw [h.find va]
  cases hf : P.ops.radix.find m.tables r va with
  | none => rfl
  | some x =>
    obtain ⟨hd, hn, -⟩ := Radix.find_eq_some.mp hf
    rw [Option.map_some, Option.map_some, h va _ _ hd hn]

theorem SameTree.leaf (h : m.SameTree P m' r) {roots' : List ℕ} (hr : r ∈ roots)
    (hr' : r ∈ roots') :
    m'.leaf P roots' (r, k) = m.leaf P roots (r, k) := by
  unfold Machine.leaf
  simp only [hr, hr', h.lookup]

/-- What writes the tables of one process, and new ones, leaves the others alone. -/
theorem Shape.sameTree (h : m.Shape P roots o) (hr : r ∈ roots) {c : Supply}
    (hheap : m.heap = c ++ m'.heap)
    (hframe : ∀ s ∉ o.tables r ∪ supplied c, m'.tables s = m.tables s) (hr' : r' ∈ roots)
    (hne : r' ≠ r) : m.SameTree P m' r' := fun _ _ t hd hn =>
  (h.lookup_other m' hr hheap hframe hr' hne).1 t ((h.tree r' hr').node_mem hd hn)

theorem Plain.frame (h : m.Plain P roots) (hs : ∀ r ∈ roots, ∀ va, va.testBit 38 = true →
    P.ops.radix.lookup m'.tables r va = P.ops.radix.lookup m.tables r va) : m'.Plain P roots :=
  fun r hr va hva x hx => h r hr va hva x (hs r hr va hva ▸ hx)

theorem Plain.update (h : m.Plain P roots) (hs : ∀ r' ∈ roots, r' ≠ r → m.SameTree P m' r')
    (hr : ∀ va, va.testBit 38 = true → ∀ x ∈ P.ops.radix.lookup m'.tables r va, x.1 = 2 →
      (P.ops.perm x.2).has .cow = false) : m'.Plain P roots := by
  intro r' hr' va hva x hx
  by_cases hne : r' = r
  · rw [hne] at hx
    exact hr va hva x hx
  · exact h r' hr' va hva x ((hs r' hr' hne).lookup va ▸ hx)

theorem Formed.congr (h : m.Formed P roots) (ht : m'.tables = m.tables) (hh : m'.heap = m.heap) :
    m'.Formed P roots := by
  obtain ⟨o, hs⟩ := h.shape
  exact ⟨⟨o, hs.congr ht hh⟩, h.plain.frame fun r _ va _ => by rw [ht]⟩

theorem Formed.sub {roots' : List ℕ} (h : m.Formed P roots) (hsub : roots' ⊆ roots)
    (hnodup : roots'.Nodup) : m.Formed P roots' := by
  obtain ⟨o, hs⟩ := h.shape
  exact ⟨⟨o, hs.sub hsub hnodup⟩, fun r hr => h.plain r (hsub hr)⟩

theorem Shape.kalloc_formed (h : m.Shape P roots o) (hp : m.Plain P roots) {a : Option ℕ}
    (hk : m.kalloc = (a, m')) : (∃ o', m'.Shape P roots o' ∧ ∀ p ∈ a, p ∈ o'.pages) ∧
      m'.Plain P roots ∧ m'.tables = m.tables := by
  cases a with
  | some p =>
    obtain ⟨hs, heq, -, -⟩ := h.kalloc hk
    have ht : m'.tables = m.tables := by rw [heq]
    refine ⟨⟨_, hs, fun q hq => ?_⟩, hp.frame fun r _ va _ => by rw [ht], ht⟩
    rw [← Option.mem_some_iff.mp hq]
    exact Set.mem_insert _ _
  | none =>
    unfold Machine.kalloc at hk
    have hno : ∀ q ∈ (none : Option ℕ), q ∈ o.pages := fun q hq => absurd hq (Option.not_mem_none q)
    rcases hh : m.heap with _ | ⟨a, as⟩
    · rw [hh] at hk
      cases hk
      exact ⟨⟨o, h, hno⟩, hp, rfl⟩
    · rw [hh] at hk
      cases hk
      have hf := h.fresh
      rw [hh] at hf
      exact ⟨⟨o, ⟨h.nodup, h.root, fun t ht => h.avail t (hh ▸ List.mem_cons_of_mem _ ht), h.tree,
        h.sep, h.apart, h.page, h.entry, hf⟩, hno⟩, hp, rfl⟩

/-- A page is mapped for users anywhere, or is not, because there is no memory for the tables. -/
theorem Shape.mappg_formed (h : m.Shape P roots o) (hp : m.Plain P roots) (hr : r ∈ roots)
    (hpa : pa ∈ o.pages) (hread : perm.has .r = true) (huser : perm.has .u = true)
    (hcow : perm.has .cow = !perm.has .w) (hhigh : va.testBit 38 = true → perm.has .cow = false)
    {ok : Bool} (hm : m.mappg P r va pa perm = (ok, m')) :
    m'.Formed P roots ∧ ∀ r' ∈ roots, r' ≠ r → m.SameTree P m' r' := by
  have hin := h.page pa hpa
  have hperm : ∀ q : Perm, q.has .r = true → q ||| Perm.r = q ∧ q &&& Perm.rwx ≠ 0 := by decide
  obtain ⟨hor, hrwx⟩ := hperm perm hread
  rw [mappg_mod] at hm
  rcases hmap : P.ops.map m.tables r (va % 2 ^ 39) pa .normal perm m.heap with ⟨ok', T', rest⟩
  obtain ⟨⟨c, hc, htree, hframe⟩, hres⟩ := PteOps.map_page_spec (h.tree r hr)
    (h.fresh.anti (Owners.tables_subset hr)) hin.lt hin.dvd hrwx hmap
  have htr : ok' = ok ∧ m'.tables = T' ∧ m'.heap = rest := by
    rw [Machine.mappg, hmap] at hm
    cases ok' <;> cases hm <;> exact ⟨rfl, rfl, rfl⟩
  obtain ⟨rfl, rfl, rfl⟩ := htr
  have hother : ∀ r' ∈ roots, r' ≠ r → m.SameTree P m' r' := fun r' hr' hne =>
    h.sameTree hr hc hframe hr' hne
  refine ⟨⟨?_, hp.update hother fun va' hva' x hx hx2 => ?_⟩, hother⟩
  · rcases hres with ⟨rfl, -⟩ | ⟨rfl, d, hd, e, he, hlook⟩
    · obtain ⟨c, hs, -⟩ := h.mappg_fail hr hpa hrwx hm
      exact ⟨_, hs⟩
    by_cases hbit : va.testBit 38 = true
    · refine ⟨_, h.reshape m' hr hc htree hframe fun va' hva' x hx => ?_⟩
      have hno : ¬ P.ops.radix.Agree (va % 2 ^ 39) va' 1 := fun hag => by
        refine not_agree_of_testBit (P := P) (testBit_of_lt hva') hbit fun i hi => ?_
        obtain rfl : i = 0 := by omega
        exact (hag 0 hi).symm.trans (vpn_mod 2 le_rfl).symm
      rw [hlook, if_neg fun hag => hno fun i hi => hag i (by omega),
        if_neg fun hag => hno fun i hi => hag.1 i (by omega)] at hx
      exact h.entry r hr va' hva' x hx
    · obtain ⟨c, hs, -⟩ := h.mappg hr (mod_lt_of_testBit (Bool.not_eq_true _ ▸ hbit)) hpa hread
        huser hcow hm
      exact ⟨_, hs⟩
  · rcases hres with ⟨rfl, hlook⟩ | ⟨rfl, d, hd, e, he, hlook⟩
    · rw [hlook] at hx
      exact hp r hr va' hva' x hx hx2
    rw [hlook] at hx
    split_ifs at hx with hag hhole
    · cases hx
      rw [he.perm_eq, hor]
      refine hhigh ?_
      by_contra hbit
      refine not_agree_of_testBit (P := P) (Bool.not_eq_true _ ▸ hbit) hva' fun i hi => ?_
      obtain rfl : i = 0 := by omega
      exact (vpn_mod 2 le_rfl).trans (hag 0 (by omega))
    · cases hx
      exact P.ops.cow_zero
    · exact hp r hr va' hva' x hx hx2

/-- The entry of a page gets another entry for users. -/
theorem Shape.setPte_formed (h : m.Shape P roots o) (hp : m.Plain P roots) (hr : r ∈ roots)
    (hk : k < 2 ^ 26) {pte : ℕ × ℕ} (hat : m.PteAt P r k pte) {f : Pte → Pte}
    (he : UserEntry P.ops (f (m.tables pte.1 pte.2)))
    (hpa : P.ops.pa (f (m.tables pte.1 pte.2)) ∈ o.pages) :
    (m.setPte pte f).Shape P roots o ∧ (m.setPte pte f).Plain P roots ∧
      (∀ r' ∈ roots, r' ≠ r → m.SameTree P (m.setPte pte f) r') ∧
      (m.setPte pte f).PteAt P r k pte ∧ (m.setPte pte f).leaf P roots =
        Function.update (m.leaf P roots) (r, k) (some (f (m.tables pte.1 pte.2))) := by
  obtain ⟨hs, hat', hleaf⟩ := h.setPte hr hk hat he hpa
  obtain ⟨t, i⟩ := pte
  obtain ⟨hfind, rfl⟩ : P.ops.radix.find m.tables r (k * 4096) = some (2, t) ∧
    i = vpn 0 (k * 4096) := hat
  obtain ⟨hd, hnode, -⟩ := Radix.find_eq_some.mp hfind
  have hmem := (h.tree r hr).node_mem hd hnode
  have hother : ∀ r' ∈ roots, r' ≠ r → m.SameTree P (m.setPte (t, vpn 0 (k * 4096)) f) r' :=
    fun r' hr' hne => by
      refine h.sameTree (c := []) hr rfl (fun s hout => Function.update_of_ne ?_ ..) hr' hne
      rintro rfl
      exact hout (Or.inl hmem)
  exact ⟨hs, hp.frame fun r' hr' va hva => h.setPte_high hr hk ⟨hfind, rfl⟩ f hr' hva, hother, hat',
    hleaf⟩

/-- A process without pages is made, or there is no memory for it. -/
theorem Formed.makeEmpty (h : m.Formed P roots) {a : Option ℕ} (hm : m.makeEmpty P = (a, m')) :
    (∀ r ∈ roots, m.SameTree P m' r) ∧ match a with
    | none => m'.Formed P roots
    | some pt => pt ∉ roots ∧ m'.Formed P (roots ++ [pt]) ∧
      (∀ k, m'.leaf P (roots ++ [pt]) (pt, k) = none) ∧
      ∃ T : PtMem, (∀ i, T pt i = 0) ∧ m'.tables = P.kernelProcmap T pt := by
  obtain ⟨o, hs⟩ := h.shape
  rcases makeEmpty_cases hm with ⟨rfl, hk⟩ | ⟨root, m₁, b, hheap, heq, hk, rfl⟩
  · obtain ⟨⟨o', hs', -⟩, hp', ht⟩ := hs.kalloc_formed h.plain hk
    exact ⟨fun r _ => .of_eq ht r, ⟨o', hs'⟩, hp'⟩
  obtain ⟨hs₁, hnew, hleaf⟩ := hs.addProc hheap heq
  have hf := hs.fresh
  rw [hheap] at hf
  have hsame₁ : ∀ r ∈ roots, m.SameTree P m₁ r := fun r hr va d t hd hn => by
    have hne : t ≠ root := fun he => hf.1 (Or.inl ⟨r, hr, he ▸ (hs.tree r hr).node_mem hd hn⟩)
    rw [heq]
    exact (P.procmap_other hne).trans (Function.update_of_ne hne ..)
  have hplain₁ : m₁.Plain P (roots ++ [root]) := by
    intro r hr va hva x hx hx2
    rcases List.mem_append.mp hr with hr | hr
    · exact h.plain r hr va hva x ((hsame₁ r hr).lookup va ▸ hx) hx2
    · rw [List.mem_singleton.mp hr] at hx
      have hempty : (⟨m.tables, m.bytes, m.refcnt, m.heap⟩ : Machine).Upper P [] :=
        fun r hr => absurd hr List.not_mem_nil
      have hnil : m.Shape P [] o := hs.sub (List.nil_subset _) List.nodup_nil
      exact absurd hx2 (hnil.addProc_upper hheap heq hempty root (List.mem_singleton_self root) va
        hva x hx)
  obtain ⟨⟨o', hs', -⟩, hp', ht⟩ := hs₁.kalloc_formed hplain₁ hk
  have hsame : ∀ r ∈ roots, m.SameTree P m' r := fun r hr => (hsame₁ r hr).trans (.of_eq ht r)
  refine ⟨hsame, ?_⟩
  cases b with
  | none => exact Formed.sub ⟨⟨o', hs'⟩, hp'⟩ (List.subset_append_left _ _) hs.nodup
  | some p =>
    refine ⟨hnew, ⟨⟨o', hs'⟩, hp'⟩, fun k => ?_, _, fun i => ?_, ht.trans (congrArg _ heq)⟩
    · rw [leaf_congr ht, hleaf]
      exact if_neg fun hc => hnew hc.1
    · rw [Function.update_self]

/-! ### Programs -/

theorem Formed.mapPage (h : m.Formed P roots) {m₁ : Machine} (hk : m.kalloc = (some p, m₁))
    {bytes : Mem} (hr : r ∈ roots) (hperm : perm = .urwx ∨ perm = .urw) {ok : Bool}
    (hm : { m₁ with bytes := bytes }.mappg P r va p perm = (ok, m')) :
    m'.Formed P roots ∧ ∀ r' ∈ roots, r' ≠ r → m.SameTree P m' r' := by
  have hflags : perm.has .r = true ∧ perm.has .u = true ∧ perm.has .cow = !perm.has .w ∧
      perm.has .cow = false := by
    rcases hperm with rfl | rfl <;> decide
  obtain ⟨hread, huser, hcow, hno⟩ := hflags
  obtain ⟨o, hs⟩ := h.shape
  obtain ⟨⟨o', hs', hp⟩, hp', ht⟩ := hs.kalloc_formed h.plain hk
  have hs₂ : ({ m₁ with bytes := bytes } : Machine).Shape P roots o' := hs'.congr rfl rfl
  have hp₂ : ({ m₁ with bytes := bytes } : Machine).Plain P roots := hp'
  obtain ⟨hf, hsame⟩ := hs₂.mappg_formed hp₂ hr (hp p rfl) hread huser hcow (fun _ => hno) hm
  refine ⟨hf, fun r' hr' hne => ?_⟩
  have hbytes : m.SameTree P { m₁ with bytes := bytes } r' := .of_eq ht r'
  exact hbytes.trans (hsame r' hr' hne)

theorem Formed.loadPages (h : m.Formed P roots) (hr : r ∈ roots) (bin : Mem) (ph : ProgHeader)
    (n va pad : ℕ) : (m.loadPages P bin ph r n va pad).2.Formed P roots ∧
      ∀ r' ∈ roots, r' ≠ r → m.SameTree P (m.loadPages P bin ph r n va pad).2 r' := by
  induction n generalizing m va pad with
  | zero => exact ⟨h, fun r' _ _ => .refl m r'⟩
  | succ n ih =>
    unfold Machine.loadPages
    split_ifs
    swap
    · exact ⟨h, fun r' _ _ => .refl m r'⟩
    rcases hk : m.kalloc with ⟨_ | mem, m₁⟩
    · obtain ⟨o, hs⟩ := h.shape
      obtain ⟨⟨o', hs', -⟩, hp', ht⟩ := hs.kalloc_formed h.plain hk
      exact ⟨⟨⟨o', hs'⟩, hp'⟩, fun r' _ _ => .of_eq ht r'⟩
    dsimp only
    rcases hmap : ({ m₁ with bytes := ph.fillPage bin va pad mem m₁.bytes } : Machine).mappg
      P r va mem .urwx with ⟨ok, m₂⟩
    obtain ⟨h₂, hsame₂⟩ := h.mapPage hk hr (Or.inl rfl) hmap
    cases ok with
    | false => exact ⟨h₂, hsame₂⟩
    | true =>
      obtain ⟨h', hsame'⟩ := ih h₂ ((va + pagesize) % 2 ^ 64) 0
      exact ⟨h', fun r' hr' hne => (hsame₂ r' hr' hne).trans (hsame' r' hr' hne)⟩

theorem Formed.loadSegments (h : m.Formed P roots) (hr : r ∈ roots) (bin : Mem) (n off brk : ℕ) :
    (m.loadSegments P bin r n off brk).2.Formed P roots ∧
      ∀ r' ∈ roots, r' ≠ r → m.SameTree P (m.loadSegments P bin r n off brk).2 r' := by
  induction n generalizing m off brk with
  | zero => exact ⟨h, fun r' _ _ => .refl m r'⟩
  | succ n ih =>
    unfold Machine.loadSegments
    dsimp only
    split_ifs
    · exact ih h _ _
    · exact ⟨h, fun r' _ _ => .refl m r'⟩
    · exact ⟨h, fun r' _ _ => .refl m r'⟩
    generalize ProgHeader.read bin off = ph
    have hpages := h.loadPages hr bin ph (m.heap.length + 1) ph.vaStart ph.pad
    rcases hl : m.loadPages P bin ph r (m.heap.length + 1) ph.vaStart ph.pad with
      ⟨_ | _, m₁⟩ <;> rw [hl] at hpages
    · exact hpages
    · obtain ⟨h', hsame'⟩ := ih hpages.1 ((off + ProgHeader.size) % 2 ^ 64)
        (max ((ph.vaddr + ph.memsz) % 2 ^ 64) brk)
      exact ⟨h', fun r' hr' hne => (hpages.2 r' hr' hne).trans (hsame' r' hr' hne)⟩

theorem Formed.loadelf (h : m.Formed P roots) (hr : r ∈ roots) (bin : Mem) :
    (m.loadelf P bin r).2.Formed P roots ∧
      ∀ r' ∈ roots, r' ≠ r → m.SameTree P (m.loadelf P bin r).2 r' := by
  unfold Machine.loadelf
  dsimp only
  split_ifs
  · exact ⟨h, fun r' _ _ => .refl m r'⟩
  have hsegs := h.loadSegments hr bin (FileHeader.read bin).phnum (FileHeader.read bin).phoff 0
  rcases hl : m.loadSegments P bin r (FileHeader.read bin).phnum (FileHeader.read bin).phoff 0 with
    ⟨_ | brk, m₁⟩ <;> rw [hl] at hsegs
  · exact hsegs
  · exact hsegs

/-- A process is made, and is freed in the end if that fails: the others keep their tables. -/
theorem Formed.makeFromElf (h : m.Formed P roots) (bin : Mem) :
    (∀ r ∈ roots, m.SameTree P (m.makeFromElf P bin).2 r) ∧ match (m.makeEmpty P).1 with
    | none => (m.makeFromElf P bin).2.Formed P roots
    | some pt => pt ∉ roots ∧ (m.makeFromElf P bin).2.Formed P (roots ++ [pt]) := by
  unfold Machine.makeFromElf
  rcases he : m.makeEmpty P with ⟨_ | pt, m₀⟩
  · exact h.makeEmpty he
  obtain ⟨hsame₀, hnew, h₀, -, -⟩ := h.makeEmpty he
  have hpt : pt ∈ roots ++ [pt] := List.mem_append_right _ (List.mem_singleton_self pt)
  have hold : ∀ {m₁ : Machine}, (∀ r' ∈ roots ++ [pt], r' ≠ pt → m₀.SameTree P m₁ r') →
      ∀ r ∈ roots, m.SameTree P m₁ r := fun hs r hr =>
    (hsame₀ r hr).trans (hs r (List.mem_append_left _ hr) fun he => hnew (he ▸ hr))
  obtain ⟨h₁, hsame₁⟩ := h₀.loadelf hpt bin
  dsimp only
  rcases hl : m₀.loadelf P bin pt with ⟨_ | entry, m₁⟩ <;> rw [hl] at h₁ hsame₁
  · exact ⟨hold hsame₁, hnew, h₁⟩
  dsimp only
  unfold Machine.kzalloc
  rcases hk : m₁.kalloc with ⟨_ | ustack, m₂⟩
  · obtain ⟨o, hs⟩ := h₁.shape
    obtain ⟨⟨o', hs', -⟩, hp', ht⟩ := hs.kalloc_formed h₁.plain hk
    exact ⟨hold fun r' hr' hne => (hsame₁ r' hr' hne).trans (.of_eq ht r'), hnew, ⟨o', hs'⟩, hp'⟩
  dsimp only
  rcases hmap : ({ m₂ with bytes := m₂.bytes.fill ustack stackSize 0 } : Machine).mappg
    P pt stackVa ustack .urw with ⟨ok, m₃⟩
  obtain ⟨h₃, hsame₃⟩ := h₁.mapPage hk hpt (Or.inr rfl) hmap
  have hall := hold fun r' hr' hne => (hsame₁ r' hr' hne).trans (hsame₃ r' hr' hne)
  cases ok with
  | false => exact ⟨hall, hnew, h₃⟩
  | true => exact ⟨hall, hnew, h₃⟩

end Machine
end Multiplix.Proc
