import Multiplix.Proc.Inv

/-! Pages that get a new owner: those that a process is loaded with, and those that the fault
handler takes over or copies. -/
namespace Multiplix.Proc
open Lib Vm

namespace Machine

variable {P : Platform} {roots : List ℕ} {o : Owners} {m m' : Machine} {r k p q va pt : ℕ}
  {perm : Perm} {w : Bool}

/-- A page in use is apart from one that was just handed out. -/
theorem Shape.outside (h : m.Shape P roots o) (hq : q ∈ o.pages) (hp : p ∉ o.used roots)
    (hal : 4096 ∣ p) (i : ℕ) : q + i % 4096 < p ∨ p + 4096 ≤ q + i % 4096 := by
  have hne : q ≠ p := fun he => hp (Or.inr (he ▸ hq))
  have := (h.page q hq).dvd
  omega

theorem Shape.refs_empty (h : m.Shape P roots o) (hp : p ∉ o.used roots) :
    (m.cow P roots).refs p = ∅ :=
  Set.eq_empty_of_forall_notMem fun _ ⟨_, hl⟩ => hp (Or.inr (h.ref_mem_pages hl).1)

/-- The view of a page does not change with bytes elsewhere. -/
theorem Shape.seen_eq (h : m.Shape P roots o) (hp : p ∉ o.used roots) (hal : 4096 ∣ p)
    (hb : ∀ x, x < p ∨ p + 4096 ≤ x → m'.bytes x = m.bytes x)
    (href : (m'.ref P roots (r, va / 4096)).map Prod.fst =
      (m.ref P roots (r, va / 4096)).map Prod.fst) :
    m'.seen P roots r va = m.seen P roots r va := by
  rw [seen, seen]
  cases hx : m.ref P roots (r, va / 4096) with
  | none =>
    rw [hx, Option.map_none, Option.map_eq_none_iff] at href
    rw [href]
    rfl
  | some x =>
    rw [hx, Option.map_some, Option.map_eq_some_iff] at href
    obtain ⟨y, hy, hyx⟩ := href
    have hxp : x.1 ∈ o.pages := (h.ref_mem_pages (p := x.1) (w := x.2) hx).1
    rw [hy, Option.map_some, Option.map_some, hyx, hb _ (h.outside hxp hp hal va)]

/-- A page just handed out is filled and mapped. -/
theorem Shape.mapFresh (h : m.Shape P roots o) {m₁ : Machine} (hk : m.kalloc = (some p, m₁))
    {bytes : Mem} (hr : r ∈ roots) (hva : va < 2 ^ 38) (hperm : perm = .urwx ∨ perm = .urw)
    (hm : { m₁ with bytes := bytes }.mappg P r va p perm = (true, m')) :
    p ∉ o.used roots ∧ P.InMem p ∧
      (∃ c, m'.Shape P roots ((o.addPage p).addTables r (supplied c)) ∧
        m.heap = some p :: c ++ m'.heap) ∧
      m'.bytes = bytes ∧ m'.refcnt = (m.addRef p).refcnt ∧
      m'.ref P roots = Function.update (m.ref P roots) (r, va / 4096) (some (p, true)) := by
  have hflags : perm.has .r = true ∧ perm.has .u = true ∧ perm.has .cow = !perm.has .w ∧
      perm.has .w = true := by
    rcases hperm with rfl | rfl <;> decide
  obtain ⟨hread, huser, hcow, hwrite⟩ := hflags
  obtain ⟨hs₁, heq, hheap, hp⟩ := h.kalloc hk
  have hin : P.InMem p := hs₁.page p (Set.mem_insert _ _)
  have hs₂ : ({ m₁ with bytes := bytes } : Machine).Shape P roots (o.addPage p) :=
    hs₁.congr rfl rfl
  obtain ⟨c, hs, hc, hbytes, hcnt, e, hpa, hpe, hleaf⟩ := hs₂.mappg hr hva (Set.mem_insert _ _)
    hread huser hcow hm
  have href := ref_update hleaf
  have href₁ : m₁.ref P roots = m.ref P roots := ref_congr (by rw [heq])
  rw [hpa, hpe, hwrite] at href
  replace hc : m₁.heap = c ++ m'.heap := hc
  refine ⟨hp, hin, ⟨c, hs, by rw [hheap, hc, List.cons_append]⟩, hbytes, ?_,
    by rw [← href₁]; exact href⟩
  rw [hcnt]
  change (m₁.addRef p).refcnt = _
  rw [heq]
  rfl

/-- A page just handed out is filled and mapped, where nobody else has a claim. -/
theorem Inv.mapFresh (h : m.Inv P roots o) {m₁ : Machine} (hk : m.kalloc = (some p, m₁))
    {bytes : Mem} (hr : r ∈ roots) (hva : va < 2 ^ 38) (hperm : perm = .urwx ∨ perm = .urw)
    (hw : ∀ q w, m.ref P roots (r, va / 4096) = some (q, w) → w = true)
    (hm : { m₁ with bytes := bytes }.mappg P r va p perm = (true, m')) :
    p ∉ o.used roots ∧ 4096 ∣ p ∧ (∃ o', m'.Inv P roots o') ∧ m'.bytes = bytes ∧
      m'.ref P roots = Function.update (m.ref P roots) (r, va / 4096) (some (p, true)) := by
  obtain ⟨hp, hin, ⟨c, hs, hheap⟩, hbytes, hcnt, href⟩ := h.shape.mapFresh hk hr hva hperm hm
  have hzero : m.refcnt (p / 4096) = 0 := h.zero p (hheap ▸ List.mem_cons_self)
  replace hcnt : m'.refcnt = Function.update m.refcnt (p / 4096) 1 := by
    rw [hcnt]
    change Function.update m.refcnt (p / 4096) ((m.refcnt (p / 4096) + 1) % 2 ^ 32) = _
    rw [hzero, Nat.zero_add, Nat.one_mod_eq_one.mpr (by decide)]
  refine ⟨hp, hin.dvd, ⟨_, ⟨hs, ?_, fun t ht => ?_⟩⟩, hbytes, href⟩
  · refine h.counted.assign (h.shape.refs_empty hp) href ?_ fun {p' l₁ w'} hne hl => ?_
    · change m'.refcnt (p / 4096) = 1
      rw [hcnt, Function.update_self]
    · have hp' : p' ∈ o.pages := (h.shape.ref_mem_pages hl).1
      have hne' : p' / 4096 ≠ p / 4096 :=
        h.shape.div_ne hp' hin.dvd fun he => hp (Or.inr (he ▸ hp'))
      refine ⟨fun ⟨w'', hl'⟩ => ?_, fun _ => ?_⟩
      · obtain rfl := hw _ _ hl'
        exact absurd (h.counted.unique hl' hl).symm hne
      · change m'.refcnt (p' / 4096) = m.refcnt (p' / 4096)
        rw [hcnt, Function.update_of_ne hne']
  · have hmem : t ∈ supplied (c ++ m'.heap) := List.mem_append_right _ ht
    have hfresh := h.shape.fresh
    rw [hheap] at hfresh
    have hne : t ≠ p := fun he => hfresh.2.2.2.not_mem t hmem (he ▸ Set.mem_insert _ _)
    have hav : some t ∈ m.heap := hheap ▸ List.mem_cons_of_mem _ hmem
    have := (h.shape.avail t hav).dvd
    have := hin.dvd
    rw [hcnt, Function.update_of_ne (by omega)]
    exact h.zero t hav

/-- What the handler does at a page that is to be copied. -/
theorem Shape.pgfltHandler_eq (h : m.Shape P roots o)
    (hl : m.ref P roots (r, va / 4096) = some (p, false)) :
    ∃ pte perm, m.PteAt P r (va / 4096) pte ∧ UserEntry P.ops (m.tables pte.1 pte.2) ∧
      P.ops.pa (m.tables pte.1 pte.2) = p ∧
      perm = P.ops.perm (m.tables pte.1 pte.2) &&& ~~~Perm.cow ||| Perm.w ∧
      m.pgfltHandler P r va .write =
        if m.refcnt (p / 4096) = 1 then (.resumed, m.setPte pte (P.ops.setPerm · perm))
        else
          match (m.dropRef p).kalloc with
          | (none, m) => (.blocked, m)
          | (some mem, m) =>
            let m := { m with bytes := m.bytes.copy mem m.bytes p pagesize }
            let m := (m.setPte pte (P.ops.setPerm · perm)).setPte pte (P.ops.setPa · mem)
            (.resumed, m.addRef (P.ops.pa (m.tables pte.1 pte.2))) := by
  obtain ⟨pte, hat, he, hpa, hw, hlook⟩ := h.exists_pteAt hl
  have hpg : (va - va % 4096) / 4096 = va / 4096 := by omega
  refine ⟨pte, _, hat, he, hpa, rfl, ?_⟩
  have huser : (VaMapping.mk pte (va - va % 4096) 4096).user P.ops m.tables = true := he.user
  have hcow : (VaMapping.mk pte (va - va % 4096) 4096).cow P.ops m.tables = true :=
    he.cow.trans (by rw [hw]; rfl)
  have hread : (VaMapping.mk pte (va - va % 4096) 4096).read P.ops m.tables = true := he.read
  have hmpa : (VaMapping.mk pte (va - va % 4096) 4096).pa P.ops m.tables = p := hpa
  rw [Machine.pgfltHandler]
  dsimp only
  rw [hlook _ hpg]
  dsimp only
  rw [if_neg (by rw [huser]; simp [pagesize]), if_pos ⟨rfl, hcow, hread⟩, hmpa]
  rfl

/-- The sole owner of a page takes it over. -/
theorem Inv.takeOver (h : m.Inv P roots o) (hl : m.ref P roots (r, k) = some (p, false))
    (hone : m.refcnt (p / 4096) = 1) {pte : ℕ × ℕ} (hat : m.PteAt P r k pte)
    (he : UserEntry P.ops (m.tables pte.1 pte.2)) (hpa : P.ops.pa (m.tables pte.1 pte.2) = p)
    (hperm : perm = P.ops.perm (m.tables pte.1 pte.2) &&& ~~~Perm.cow ||| Perm.w) :
    (m.setPte pte (P.ops.setPerm · perm)).Inv P roots o ∧
      (m.setPte pte (P.ops.setPerm · perm)).ref P roots =
        Function.update (m.ref P roots) (r, k) (some (p, true)) := by
  obtain ⟨hpage, hr, hk⟩ := h.shape.ref_mem_pages hl
  obtain ⟨hwr, hpawr, hwwr⟩ := he.writable
  rw [← hperm] at hwr hpawr hwwr
  obtain ⟨hs, -, hleaf⟩ := h.shape.setPte hr hk hat (f := (P.ops.setPerm · perm)) hwr
    (by rwa [hpawr, hpa])
  have href := ref_update hleaf
  rw [hpawr, hpa, hwwr] at href
  exact ⟨⟨hs, h.counted.takeOver hl hone href rfl, h.zero⟩, href⟩

/-- The entry of a page becomes writable and is pointed to another page. -/
theorem Shape.repoint (h : m.Shape P roots o) (hr : r ∈ roots) (hk : k < 2 ^ 26) {pte : ℕ × ℕ}
    (hat : m.PteAt P r k pte) (he : UserEntry P.ops (m.tables pte.1 pte.2))
    (hpa : P.ops.pa (m.tables pte.1 pte.2) ∈ o.pages) (hq : q ∈ o.pages)
    (hperm : perm = P.ops.perm (m.tables pte.1 pte.2) &&& ~~~Perm.cow ||| Perm.w)
    (hm : m' = (m.setPte pte (P.ops.setPerm · perm)).setPte pte (P.ops.setPa · q)) :
    m'.Shape P roots o ∧ P.ops.pa (m'.tables pte.1 pte.2) = q ∧
      P.ops.perm (m'.tables pte.1 pte.2) = perm ∧
      m'.leaf P roots =
        Function.update (m.leaf P roots) (r, k) (some (m'.tables pte.1 pte.2)) := by
  obtain ⟨hwr, hpawr, hwwr⟩ := he.writable
  rw [← hperm] at hwr hwwr hpawr
  have hin := h.page q hq
  have hentry : ∀ (m₀ : Machine) (f : Pte → Pte),
      (m₀.setPte pte f).tables pte.1 pte.2 = f (m₀.tables pte.1 pte.2) := fun m₀ f => by
    simp [Machine.setPte, Radix.write]
  obtain ⟨hs₁, hat₁, hleaf₁⟩ := h.setPte hr hk hat (f := (P.ops.setPerm · perm)) hwr
    (by rwa [hpawr])
  obtain ⟨he₂, hpa₂, hperm₂⟩ := hwr.setPa hin.lt hin.dvd
  obtain ⟨hs₂, -, hleaf₂⟩ := hs₁.setPte hr hk hat₁ (f := (P.ops.setPa · q))
    (by rw [hentry]; exact he₂) (by rw [hentry, hpa₂]; exact hq)
  rw [hentry, hleaf₁, Function.update_idem] at hleaf₂
  have hset := (P.ops.setPerm_spec (p := perm) he.valid (by
    have hall : ∀ q : Perm, q.has .r = true → (q &&& ~~~Perm.cow ||| Perm.w).has .r = true := by
      decide
    rw [hperm]
    exact hall _ he.read)).2.2.2
  rw [hm]
  exact ⟨hs₂, by rw [hentry, hentry, hpa₂], by rw [hentry, hentry, hperm₂, hset],
    by rw [hentry, hentry]; exact hleaf₂⟩

/-- A process gets its own copy of a page. -/
theorem Inv.copyPage (h : m.Inv P roots o) (hl : m.ref P roots (r, k) = some (p, false))
    {m₁ : Machine} (hkal : (m.dropRef p).kalloc = (some q, m₁)) (bytes : Mem) {pte : ℕ × ℕ}
    (hat : m.PteAt P r k pte) (he : UserEntry P.ops (m.tables pte.1 pte.2))
    (hpa : P.ops.pa (m.tables pte.1 pte.2) = p)
    (hperm : perm = P.ops.perm (m.tables pte.1 pte.2) &&& ~~~Perm.cow ||| Perm.w)
    (hm : m' = ({ m₁ with bytes := bytes }.setPte pte (P.ops.setPerm · perm)).setPte pte
      (P.ops.setPa · q)) :
    q ∉ o.used roots ∧ 4096 ∣ q ∧ P.ops.pa (m'.tables pte.1 pte.2) = q ∧
      (m'.addRef q).Inv P roots (o.addPage q) ∧
      (m'.addRef q).refcnt = Function.update
        (Function.update m.refcnt (p / 4096) (m.refcnt (p / 4096) - 1)) (q / 4096) 1 ∧
      (m'.addRef q).ref P roots = Function.update (m.ref P roots) (r, k) (some (q, true)) := by
  obtain ⟨hpage, hr, hk⟩ := h.shape.ref_mem_pages hl
  have hs₀ : (m.dropRef p).Shape P roots o := h.shape.congr rfl rfl
  obtain ⟨hs₁, heq, hheap, hq⟩ := hs₀.kalloc hkal
  have hin : P.InMem q := hs₁.page q (Set.mem_insert _ _)
  have hT : m₁.tables = m.tables := by rw [heq]; rfl
  have hs₂ : ({ m₁ with bytes := bytes } : Machine).Shape P roots (o.addPage q) :=
    hs₁.congr rfl rfl
  have hat₂ : ({ m₁ with bytes := bytes } : Machine).PteAt P r k pte := by
    unfold PteAt at hat ⊢
    rwa [hT]
  obtain ⟨hs, hpaq, hpeq, hleaf⟩ := hs₂.repoint hr hk hat₂ (by rwa [hT])
    (by rw [hT, hpa]; exact Or.inr hpage) (Or.inl rfl) (by rw [hT]; exact hperm) hm
  have href := ref_update hleaf
  have hwq : perm.has .w = true := by
    have hall : ∀ q : Perm, (q &&& ~~~Perm.cow ||| Perm.w).has .w = true := by decide
    rw [hperm]
    exact hall _
  rw [hpaq, hpeq, hwq] at href
  have href₁ : ({ m₁ with bytes := bytes } : Machine).ref P roots = m.ref P roots := ref_congr hT
  rw [href₁] at href
  have hpq : p / 4096 ≠ q / 4096 :=
    h.shape.div_ne hpage hin.dvd fun he => hq (Or.inr (he ▸ hpage))
  have hheap' : m.heap = some q :: m'.heap := by rw [hm]; exact hheap
  have hzero : m.refcnt (q / 4096) = 0 := h.zero q (hheap' ▸ List.mem_cons_self)
  have hpos := h.count_pos hl
  have hle := h.count_le hl
  have hnpgs := P.npgs_lt
  have hcnt : (m'.addRef q).refcnt = Function.update
      (Function.update m.refcnt (p / 4096) (m.refcnt (p / 4096) - 1)) (q / 4096) 1 := by
    have h1 : m'.refcnt = Function.update m.refcnt (p / 4096) (m.refcnt (p / 4096) - 1) := by
      have h2 : m'.refcnt = m₁.refcnt := by rw [hm]; rfl
      have h3 : (m.refcnt (p / 4096) + (2 ^ 32 - 1)) % 2 ^ 32 = m.refcnt (p / 4096) - 1 := by
        omega
      rw [h2, heq, ← h3]
      rfl
    change Function.update m'.refcnt (q / 4096) ((m'.refcnt (q / 4096) + 1) % 2 ^ 32) = _
    rw [h1, Function.update_of_ne hpq.symm, hzero, Nat.zero_add,
      Nat.one_mod_eq_one.mpr (by decide)]
  refine ⟨hq, hin.dvd, hpaq, ⟨hs.congr rfl rfl, ?_, fun t ht => ?_⟩, hcnt, href⟩
  · refine h.counted.assign (h.shape.refs_empty hq) href ?_ fun {p' l₁ w'} hne hl' => ?_
    · change (m'.addRef q).refcnt (q / 4096) = 1
      rw [hcnt, Function.update_self]
    · have hp' : p' ∈ o.pages := (h.shape.ref_mem_pages hl').1
      have hne' : p' / 4096 ≠ q / 4096 :=
        h.shape.div_ne hp' hin.dvd fun he => hq (Or.inr (he ▸ hp'))
      have hmem : (r, k) ∈ (m.cow P roots).refs p' ↔ p' = p := by
        refine ⟨fun ⟨_, hx⟩ => ?_, fun he => ⟨false, he ▸ hl⟩⟩
        exact (Prod.mk.inj (Option.some.inj (hl.symm.trans hx))).1.symm
      change (_ → (m'.addRef q).refcnt (p' / 4096) = m.refcnt (p' / 4096) - 1) ∧
        (_ → (m'.addRef q).refcnt (p' / 4096) = m.refcnt (p' / 4096))
      rw [hmem, hcnt, Function.update_of_ne hne']
      refine ⟨fun he => by rw [he, Function.update_self], fun he => ?_⟩
      exact Function.update_of_ne (h.shape.div_ne hp' (h.shape.page p hpage).dvd he) ..
  · have hht : some t ∈ m.heap := hheap' ▸ List.mem_cons_of_mem _ ht
    have hf := h.shape.fresh
    rw [hheap'] at hf
    have hnot := hf.2.2.2.not_mem t ht
    have htq : t ≠ q := fun he => hnot (Or.inl he)
    have htp : t ≠ p := fun he => hnot (Or.inr (Or.inr (he ▸ hpage)))
    have hal := (h.shape.avail t hht).dvd
    have hqal := hin.dvd
    have hpal := (h.shape.page p hpage).dvd
    rw [hcnt, Function.update_of_ne (by omega), Function.update_of_ne (by omega)]
    exact h.zero t hht

/-- After a write fault at a page that is to be copied, unless memory runs out, the process may
write the page, and no process sees a difference. -/
theorem Inv.pgfltHandler (h : m.Inv P roots o)
    (hl : m.ref P roots (r, va / 4096) = some (p, false)) :
    (m.pgfltHandler P r va .write).1 = .blocked ∨
      ∃ m' o' q, m.pgfltHandler P r va .write = (.resumed, m') ∧ m'.Inv P roots o' ∧
        m'.ref P roots = Function.update (m.ref P roots) (r, va / 4096) (some (q, true)) ∧
        ∀ r' va', m'.seen P roots r' va' = m.seen P roots r' va' := by
  obtain ⟨pte, perm, hat, he, hpa, hperm, heq⟩ := h.shape.pgfltHandler_eq hl
  rw [heq]
  split_ifs with hone
  · obtain ⟨hi, href⟩ := h.takeOver hl hone hat he hpa hperm
    refine Or.inr ⟨_, o, p, rfl, hi, href, fun r' va' => ?_⟩
    rw [seen, seen, href, Function.update_apply]
    split_ifs with hrv
    · rw [hrv, hl]
      rfl
    · rfl
  · rcases hkal : (m.dropRef p).kalloc with ⟨_ | q, m₁⟩
    · exact Or.inl rfl
    have hb₁ : m₁.bytes = m.bytes := by
      have hs₀ : (m.dropRef p).Shape P roots o := h.shape.congr rfl rfl
      rw [(hs₀.kalloc hkal).2.1]
      rfl
    obtain ⟨hq, hal, hpaq, hi, -, href⟩ := h.copyPage hl hkal
      (m₁.bytes.copy q m₁.bytes p pagesize) hat he hpa hperm rfl
    dsimp only
    rw [hpaq]
    refine Or.inr ⟨_, _, q, rfl, hi, href, fun r' va' => ?_⟩
    by_cases hrv : (r', va' / 4096) = (r, va / 4096)
    · have hin : (m.bytes.copy q m.bytes p 4096) (q + va' % 4096) = m.bytes (p + va' % 4096) := by
        rw [Mem.copy_inside _ _ _ (by omega) (by omega), Nat.add_sub_cancel_left]
      rw [seen, seen, href, hrv, Function.update_self, hl, Option.map_some, Option.map_some,
        ← hin, ← hb₁]
      rfl
    · refine h.shape.seen_eq hq hal (fun x hx => ?_) ?_
      · rw [← hb₁]
        exact Mem.copy_outside _ _ _ hx
      · rw [href, Function.update_of_ne hrv]

end Machine
end Multiplix.Proc
