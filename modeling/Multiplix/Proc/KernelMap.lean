import Multiplix.Proc.LoadImage

/-! What loading a program does to the kernel's half of a RISC-V page table. -/
namespace Multiplix.Proc
open Lib Vm

namespace Machine

variable (P : Platform)

/-- The addresses at which `loadPages` maps pages, up to where it stops. -/
def mappedPages (bin : Mem) (ph : ProgHeader) (pt : ℕ) : ℕ → ℕ → ℕ → Machine → List ℕ
  | 0, _, _, _ => []
  | n + 1, va, pad, m =>
    if va < (ph.vaStart + ph.sz) % 2 ^ 64 then
      match m.kalloc with
      | (none, _) => []
      | (some mem, m) =>
        let m := { m with bytes := ph.fillPage bin va pad mem m.bytes }
        match m.mappg P pt va mem .urwx with
        | (false, _) => []
        | (true, m) => va :: mappedPages bin ph pt n ((va + pagesize) % 2 ^ 64) 0 m
    else []

/-- The addresses at which `loadSegments` maps pages. -/
def mappedSegments (bin : Mem) (pt : ℕ) : ℕ → ℕ → Machine → List ℕ
  | 0, _, _ => []
  | n + 1, off, m =>
    let ph := ProgHeader.read bin off
    let off := (off + ProgHeader.size) % 2 ^ 64
    if ph.type ≠ Prog.load ∨ ph.memsz = 0 then mappedSegments bin pt n off m
    else if ph.memsz < ph.filesz then []
    else if (ph.vaddr + ph.memsz) % 2 ^ 64 < ph.vaddr then []
    else
      m.mappedPages P bin ph pt (m.heap.length + 1) ph.vaStart ph.pad ++
        match m.loadPages P bin ph pt (m.heap.length + 1) ph.vaStart ph.pad with
        | (false, _) => []
        | (true, m) => mappedSegments bin pt n off m

/-- The addresses at which `loadelf` maps pages. -/
def mappedImage (bin : Mem) (pt : ℕ) (m : Machine) : List ℕ :=
  let elf := FileHeader.read bin
  if elf.magic ≠ magic then [] else m.mappedSegments P bin pt elf.phnum elf.phoff

end Machine

namespace Riscv64
open Vm.Riscv64

/-- What `lookup` says of an address. -/
def view (T : PtMem) (root va : ℕ) : Option Mapping :=
  (pteOps.lookup T root va).map (VaMapping.view pteOps T)

/-- The lookups of kernel addresses are as before, and no supervisor mapping has become a user's. -/
structure Kept (root : ℕ) (T T' : PtMem) : Prop where
  high : ∀ va, highmemBase ≤ va → va < 2 ^ 64 → view T' root va = view T root va
  supervisor : ∀ va map map', view T root va = some map → map.perm.has .u = false →
    view T' root va = some map' → map'.perm.has .u = false

/-- An address that is mapped for users. -/
def UserAt (T : PtMem) (root va : ℕ) : Prop :=
  ∃ map, view T root va = some map ∧ map.perm.has .u = true

/-- The tables of one process, and the answers of the allocator. -/
structure Table (root : ℕ) (m : Machine) : Prop where
  tree : ∃ used, pteOps.radix.Tree m.tables root used ∧ pteOps.Fresh used m.heap

/-- User pages were mapped at some addresses: other parts of the root table are as before, and
user mappings stay. -/
structure Spread (root : ℕ) (vas : List ℕ) (T T' : PtMem) : Prop where
  keep : ∀ va', (∀ va ∈ vas, ¬ pteOps.radix.Agree va va' 1) → view T' root va' = view T root va'
  user : ∀ va', (UserAt T root va' ∨ ∃ va ∈ vas, pteOps.radix.Agree va va' 3) → UserAt T' root va'

variable {b : Board} {root va mem : ℕ} {perm : Perm} {vas vas' : List ℕ} {T T' T'' : PtMem}
  {m m' : Machine} {bin : Mem} {ph : ProgHeader}

theorem view_eq (T : PtMem) (root va : ℕ) :
    view T root va = (pteOps.radix.lookup T root va).bind pteOps.viewAt := PteOps.view_lookup

theorem Spread.refl (root : ℕ) (T : PtMem) : Spread root [] T T :=
  ⟨fun _ _ => rfl, fun _ h => h.elim id fun ⟨_, hva, _⟩ => absurd hva List.not_mem_nil⟩

theorem Spread.trans (h : Spread root vas T T') (h' : Spread root vas' T' T'') :
    Spread root (vas ++ vas') T T'' where
  keep va' hno := by
    rw [h'.keep va' fun va hva => hno va (List.mem_append_right _ hva),
      h.keep va' fun va hva => hno va (List.mem_append_left _ hva)]
  user va' hu := by
    refine h'.user va' ?_
    rcases hu with hu | ⟨va, hva, hag⟩
    · exact Or.inl (h.user va' (Or.inl hu))
    · rcases List.mem_append.mp hva with hva | hva
      · exact Or.inl (h.user va' (Or.inr ⟨va, hva, hag⟩))
      · exact Or.inr ⟨va, hva, hag⟩

theorem Table.congr (h : Table root m) (ht : m'.tables = m.tables) (hh : m'.heap = m.heap) :
    Table root m' := by
  obtain ⟨used, htree, hf⟩ := h.tree
  exact ⟨used, ht ▸ htree, hh ▸ hf⟩

theorem Table.kalloc (h : Table root m) {a : Option ℕ} (hk : m.kalloc = (a, m')) :
    Table root m' ∧ m'.tables = m.tables ∧ ∀ mem ∈ a, mem < 2 ^ 56 ∧ 4096 ∣ mem := by
  obtain ⟨used, htree, hf⟩ := h.tree
  rw [Machine.kalloc] at hk
  rcases hh : m.heap with _ | ⟨_ | mem, as⟩ <;> rw [hh] at hk hf <;>
    obtain ⟨rfl, rfl⟩ := Prod.mk.inj hk
  · exact ⟨h, rfl, fun _ hmem => absurd hmem (Option.not_mem_none _)⟩
  · exact ⟨⟨used, htree, hf⟩, rfl, fun _ hmem => absurd hmem (Option.not_mem_none _)⟩
  · refine ⟨⟨used, htree, hf.2.2.2.anti (Set.subset_insert _ _)⟩, rfl, fun p hp => ?_⟩
    rw [← Option.mem_some_iff.mp hp]
    exact ⟨hf.2.1, hf.2.2.1⟩

private theorem urwx_user : Perm.urwx &&& Perm.rwx ≠ 0 ∧ (Perm.urwx ||| Perm.r).has .u = true := by
  decide

private theorem urw_user : Perm.urw &&& Perm.rwx ≠ 0 ∧ (Perm.urw ||| Perm.r).has .u = true := by
  decide

/-- One page for users. -/
theorem Table.mappg (h : Table root m) (hpa : mem < 2 ^ 56) (hal : 4096 ∣ mem)
    (hp : perm &&& Perm.rwx ≠ 0) (hu : (perm ||| Perm.r).has .u = true) {ok : Bool}
    (hm : m.mappg (platform b) root va mem perm = (ok, m')) :
    Table root m' ∧ Spread root (if ok then [va] else []) m.tables m'.tables := by
  obtain ⟨used, htree, hf⟩ := h.tree
  rcases hmap : pteOps.map m.tables root va mem .normal perm m.heap with ⟨ok', T', rest⟩
  obtain ⟨⟨c, hc, htree', -⟩, hres⟩ := PteOps.map_page_spec htree hf hpa hal hp hmap
  rw [hc, PteOps.fresh_append] at hf
  have hops : (platform b).ops.map m.tables root va mem .normal perm m.heap = (ok', T', rest) :=
    hmap
  rw [Machine.mappg, hops] at hm
  rcases hres with ⟨rfl, hlook⟩ | ⟨rfl, d, hd, e, he, hlook⟩
  · cases hm
    have hview : ∀ va', view T' root va' = view m.tables root va' := fun va' => by
      rw [view_eq, view_eq, hlook]
    refine ⟨⟨_, htree', hf.2⟩, fun va' _ => hview va', fun va' hu => ?_⟩
    rcases hu with ⟨map, hmap, hu⟩ | ⟨_, hva, -⟩
    · exact ⟨map, (hview va').trans hmap, hu⟩
    · exact absurd hva List.not_mem_nil
  · cases hm
    have hview : ∀ va', view T' root va' = if pteOps.radix.Agree va va' (d + 1) then
        some ⟨mem, perm ||| Perm.r, level2size (.ofHeight (2 - d))⟩
        else view m.tables root va' := fun va' => by
      rw [view_eq, view_eq, hlook]
      split_ifs with h1 h2
      · rw [Option.bind_some, PteOps.viewAt, if_pos he.leaf, he.pa_eq, he.perm_eq]
      · rw [h2.2, Option.bind_some, viewAt_zero]
        rfl
      · rfl
    refine ⟨⟨_, htree', hf.2⟩, fun va' hno => ?_, fun va' hu' => ?_⟩
    · refine (hview va').trans (if_neg fun hag => ?_)
      exact hno va (List.mem_singleton_self va) fun i hi => hag i (by omega)
    · rcases hu' with ⟨map, hmap, hum⟩ | ⟨va₁, hva, hag⟩
      · by_cases hag : pteOps.radix.Agree va va' (d + 1)
        · exact ⟨_, (hview va').trans (if_pos hag), hu⟩
        · exact ⟨map, ((hview va').trans (if_neg hag)).trans hmap, hum⟩
      · rw [List.mem_singleton.mp hva] at hag
        exact ⟨_, (hview va').trans (if_pos fun i hi => hag i (by omega)), hu⟩

theorem Table.loadPages (b : Board) (bin : Mem) (ph : ProgHeader) (n va pad : ℕ)
    (h : Table root m) :
    Table root (m.loadPages (platform b) bin ph root n va pad).2 ∧
      Spread root (m.mappedPages (platform b) bin ph root n va pad) m.tables
        (m.loadPages (platform b) bin ph root n va pad).2.tables := by
  induction n generalizing m va pad with
  | zero => exact ⟨h, .refl root _⟩
  | succ n ih =>
    rw [Machine.loadPages, Machine.mappedPages]
    split_ifs
    swap
    · exact ⟨h, .refl root _⟩
    rcases hk : m.kalloc with ⟨a, m₁⟩
    obtain ⟨h₁, ht₁, hmem⟩ := h.kalloc hk
    rcases a with _ | mem
    · exact ⟨h₁, ht₁ ▸ .refl root _⟩
    obtain ⟨hpa, hal⟩ := hmem mem rfl
    dsimp only
    rcases hmap : ({ m₁ with bytes := ph.fillPage bin va pad mem m₁.bytes } : Machine).mappg
      (platform b) root va mem .urwx with ⟨ok, m₂⟩
    have hb : Table root { m₁ with bytes := ph.fillPage bin va pad mem m₁.bytes } :=
      h₁.congr rfl rfl
    obtain ⟨h₂, hs⟩ := hb.mappg hpa hal urwx_user.1 urwx_user.2 hmap
    replace hs : Spread root (if ok then [va] else []) m.tables m₂.tables := ht₁ ▸ hs
    cases ok with
    | false => exact ⟨h₂, hs⟩
    | true =>
      obtain ⟨h', hs'⟩ := ih ((va + pagesize) % 2 ^ 64) 0 h₂
      exact ⟨h', hs.trans hs'⟩

theorem Table.loadSegments (b : Board) (bin : Mem) (n off brk : ℕ) (h : Table root m) :
    Table root (m.loadSegments (platform b) bin root n off brk).2 ∧
      Spread root (m.mappedSegments (platform b) bin root n off) m.tables
        (m.loadSegments (platform b) bin root n off brk).2.tables := by
  induction n generalizing m off brk with
  | zero => exact ⟨h, .refl root _⟩
  | succ n ih =>
    rw [Machine.loadSegments, Machine.mappedSegments]
    split_ifs
    · exact ih _ _ h
    · exact ⟨h, .refl root _⟩
    · exact ⟨h, .refl root _⟩
    · generalize ProgHeader.read bin off = ph
      have hpages := h.loadPages b bin ph (m.heap.length + 1) ph.vaStart ph.pad
      rcases hl : m.loadPages (platform b) bin ph root (m.heap.length + 1) ph.vaStart ph.pad with
        ⟨_ | _, m₁⟩ <;> rw [hl] at hpages
      · exact ⟨hpages.1, hpages.2.trans (.refl root _)⟩
      · obtain ⟨h', hs'⟩ := ih ((off + ProgHeader.size) % 2 ^ 64)
          (max ((ph.vaddr + ph.memsz) % 2 ^ 64) brk) hpages.1
        exact ⟨h', hpages.2.trans hs'⟩

theorem Table.loadelf (b : Board) (bin : Mem) (h : Table root m) :
    Table root (m.loadelf (platform b) bin root).2 ∧
    Spread root (m.mappedImage (platform b) bin root) m.tables
      (m.loadelf (platform b) bin root).2.tables := by
  rw [Machine.loadelf, Machine.mappedImage]
  split_ifs
  · exact ⟨h, .refl root _⟩
  · have hsegs := h.loadSegments b bin (FileHeader.read bin).phnum (FileHeader.read bin).phoff 0
    rcases hl : m.loadSegments (platform b) bin root (FileHeader.read bin).phnum
      (FileHeader.read bin).phoff 0 with ⟨_ | brk, m₁⟩ <;> rw [hl] at hsegs
    · exact hsegs
    · exact hsegs

/-- A table as `kernel_procmap` leaves it: nothing is mapped for users, and nothing below the
kernel. -/
structure Prepared (root : ℕ) (T : PtMem) : Prop where
  tree : pteOps.radix.Tree T root {root}
  kernel : ∀ va map, view T root va = some map → map.perm.has .u = false
  low : ∀ va, vpn 2 va < 256 → view T root va = none

theorem Prepared.giga (h : Prepared root T) {addr : ℕ} (ha : addr < 2 ^ 38)
    (hal : 4096 ∣ addr) : Prepared root (mapGiga T root (pa2hka addr) addr .rwx) := by
  have hvpn : 256 ≤ vpn 2 (pa2hka addr) := by
    rw [vpn_eq, pa2hka, highmemBase]
    omega
  have hmap := mapGiga_eq T root (pa2hka addr) addr .rwx []
  obtain ⟨hleaf, -, hperm⟩ := mapped_spec (e := T root (vpn 2 (pa2hka addr))) (p := .rwx)
    (ha.trans (by decide)) hal (by decide)
  have hw : mapGiga T root (pa2hka addr) addr .rwx =
      Radix.write T root (pteOps.radix.index 0 (pa2hka addr))
        (Pte.mapped (T root (vpn 2 (pa2hka addr))) addr .rwx) :=
    (Prod.mk.inj (Prod.mk.inj hmap).2).1.symm
  have hslot : pteOps.radix.slot (Pte.mapped (T root (vpn 2 (pa2hka addr))) addr .rwx) = .leaf :=
    PteOps.slot_leaf hleaf
  have hlook : ∀ va, pteOps.radix.lookup (mapGiga T root (pa2hka addr) addr .rwx) root va =
      if pteOps.radix.Agree (pa2hka addr) va 1 then
        some (0, Pte.mapped (T root (vpn 2 (pa2hka addr))) addr .rwx)
      else pteOps.radix.lookup T root va := fun va => by
    rw [hw]
    exact Radix.lookup_write_leaf (Or.inr hslot) h.tree (Nat.zero_le _) rfl
  refine ⟨?_, fun va map hv => ?_, fun va hva => ?_⟩
  · rw [hw]
    exact h.tree.write_leaf (Or.inr hslot) (Nat.zero_le _) rfl
  · rw [view_eq, hlook] at hv
    split_ifs at hv
    · have hview : pteOps.viewAt (0, Pte.mapped (T root (vpn 2 (pa2hka addr))) addr .rwx) =
          some ⟨_, _, _⟩ := if_pos hleaf
      rw [Option.bind_some, hview] at hv
      cases hv
      change (Pte.perm _).has .u = false
      rw [hperm]
      decide
    · exact h.kernel va map ((view_eq T root va).trans hv)
  · rw [view_eq, hlook, if_neg fun hag => ?_, ← view_eq]
    · exact h.low va hva
    · have hi : vpn 2 (pa2hka addr) = vpn 2 va := hag 0 (by decide)
      omega

private theorem prepared_foldl {α : Type*} {f : PtMem → α → PtMem} {l : List α}
    (hf : ∀ T, ∀ a ∈ l, Prepared root T → Prepared root (f T a)) (h : Prepared root T) :
    Prepared root (l.foldl f T) := by
  induction l generalizing T with
  | nil => exact h
  | cons a l ih =>
    exact ih (fun T a ha => hf T a (List.mem_cons_of_mem _ ha)) (hf T a List.mem_cons_self h)

theorem prepared_kernelProcmap (b : Board) (h : ∀ i, T root i = 0) :
    Prepared root (kernelProcmap b T root) := by
  have hempty : ∀ va, view T root va = none := fun va => by
    rw [view_eq, Radix.lookup, Radix.find_init h (by decide : 0 < 2)]
    rfl
  refine prepared_foldl (fun T r hr => prepared_foldl fun T i hi h => ?_)
    ⟨.init h, fun va map hv => ?_, fun va _ => hempty va⟩
  · have hb := b.bounded r hr
    have hal := b.aligned r hr
    rw [List.mem_range, gb] at hi
    rw [gb]
    exact h.giga (by omega) (by omega)
  · rw [hempty] at hv
    cases hv

theorem Prepared.makeEmpty {pt : ℕ} (hf : pteOps.Fresh ∅ m.heap)
    (hm : m.makeEmpty (platform b) = (some pt, m')) : Table pt m' ∧ Prepared pt m'.tables := by
  obtain ⟨m₁, p, hheap, heq, hk⟩ := Machine.makeEmpty_eq hm
  rw [hheap] at hf
  have hprep : Prepared pt m₁.tables := by
    rw [heq]
    exact prepared_kernelProcmap b fun i => by rw [Function.update_self]
  have h₁ : Table pt m₁ := ⟨{pt}, hprep.tree, by simpa using hf.2.2.2⟩
  obtain ⟨h', ht, -⟩ := h₁.kalloc hk
  exact ⟨h', ht ▸ hprep⟩

/-- Kernel addresses have an index of their own half in the root table. -/
private theorem vpn_high {va : ℕ} (h : highmemBase ≤ va) (hlt : va < 2 ^ 64) : 256 ≤ vpn 2 va := by
  rw [highmemBase] at h
  rw [vpn_eq]
  omega

private theorem not_agree_of_vpn {va va' : ℕ} (h : vpn 2 va < 256) (h' : 256 ≤ vpn 2 va') :
    ¬ pteOps.radix.Agree va va' 1 := fun hag => by
  have hi : vpn 2 va = vpn 2 va' := hag 0 (by decide)
  omega

/-- Only the upper half of the root table matters. -/
theorem Prepared.kept_iff (h : Prepared root T) (hs : Spread root vas T T') :
    Kept root T T' ↔ ∀ va ∈ vas, vpn 2 va < 256 := by
  constructor
  · intro hk va hva
    by_contra hc
    -- the kernel address with the same path
    have hag : pteOps.radix.Agree va (highmemBase + va % 2 ^ 38) 3 := fun i hi => by
      change vpn (2 - i) va = vpn (2 - i) (highmemBase + va % 2 ^ 38)
      rw [vpn_eq] at hc
      rw [vpn_eq, vpn_eq, highmemBase]
      rcases (by omega : i = 0 ∨ i = 1 ∨ i = 2) with rfl | rfl | rfl <;> omega
    obtain ⟨map, hmap, hu⟩ := hs.user _ (Or.inr ⟨va, hva, hag⟩)
    have hhigh := hk.high (highmemBase + va % 2 ^ 38) (Nat.le_add_right _ _) (by
      rw [highmemBase]
      omega)
    rw [hhigh] at hmap
    rw [h.kernel _ _ hmap] at hu
    cases hu
  · intro hlow
    have hkeep : ∀ va', 256 ≤ vpn 2 va' → view T' root va' = view T root va' := fun va' hva' =>
      hs.keep va' fun va hva => not_agree_of_vpn (hlow va hva) hva'
    refine ⟨fun va hva hlt => hkeep va (vpn_high hva hlt), fun va map map' hv hu hv' => ?_⟩
    by_cases hva : vpn 2 va < 256
    · rw [h.low va hva] at hv
      cases hv
    · rw [hkeep va (not_lt.mp hva), hv] at hv'
      cases hv'
      exact hu

/-- Loading keeps the kernel's mappings if and only if the loader maps no page with an address whose
bit 38 is set. -/
theorem kept_iff_mapped_low {pt : ℕ} {m₀ : Machine} (hans : (platform b).Answers m.heap)
    (hempty : m.makeEmpty (platform b) = (some pt, m₀)) :
    (Kept pt m₀.tables (m₀.loadelf (platform b) bin pt).2.tables ↔
      ∀ va ∈ m₀.mappedImage (platform b) bin pt, va.testBit 38 = false) ∧
    (Kept pt m₀.tables (m.makeFromElf (platform b) bin).2.tables ↔
      ∀ va ∈ m₀.mappedImage (platform b) bin pt, va.testBit 38 = false) := by
  obtain ⟨h₀, hprep⟩ := Prepared.makeEmpty hans.2 hempty
  obtain ⟨h₁, hs₁⟩ := h₀.loadelf b bin
  have hbit : ∀ vas : List ℕ, (∀ va ∈ vas, vpn 2 va < 256) ↔ ∀ va ∈ vas, va.testBit 38 = false :=
    fun vas => forall₂_congr fun va _ => by
      rw [vpn_eq, Nat.testBit_eq_decide_div_mod_eq, decide_eq_false_iff_not]
      omega
  refine ⟨(hprep.kept_iff hs₁).trans (hbit _), ?_⟩
  -- the stack is mapped in the lower half
  have hstack : ∃ vas, Spread pt (m₀.mappedImage (platform b) bin pt ++ vas) m₀.tables
      (m.makeFromElf (platform b) bin).2.tables ∧ ∀ va ∈ vas, va = stackVa := by
    rw [Machine.makeFromElf, hempty]
    dsimp only
    rcases hl : m₀.loadelf (platform b) bin pt with ⟨_ | ⟨entry, brk⟩, m₁⟩ <;> rw [hl] at h₁ hs₁
    · exact ⟨[], hs₁.trans (.refl pt _), fun _ hva => absurd hva List.not_mem_nil⟩
    dsimp only
    rw [Machine.kzalloc]
    rcases hk : m₁.kalloc with ⟨a, m₂⟩
    obtain ⟨h₂, ht₂, hmem⟩ := h₁.kalloc hk
    replace hs₁ : Spread pt _ m₀.tables m₂.tables := ht₂ ▸ hs₁
    rcases a with _ | ustack
    · exact ⟨[], hs₁.trans (.refl pt _), fun _ hva => absurd hva List.not_mem_nil⟩
    obtain ⟨hpa, hal⟩ := hmem ustack rfl
    dsimp only
    rcases hmap : ({ m₂ with bytes := m₂.bytes.fill ustack stackSize 0 } : Machine).mappg
      (platform b) pt stackVa ustack .urw with ⟨ok, m₃⟩
    have hz : Table pt { m₂ with bytes := m₂.bytes.fill ustack stackSize 0 } := h₂.congr rfl rfl
    obtain ⟨-, hs⟩ := hz.mappg hpa hal urw_user.1 urw_user.2 hmap
    cases ok with
    | false => exact ⟨[], hs₁.trans hs, fun _ hva => absurd hva List.not_mem_nil⟩
    | true => exact ⟨[stackVa], hs₁.trans hs, fun _ hva => List.mem_singleton.mp hva⟩
  obtain ⟨vas, hs, hvas⟩ := hstack
  rw [hprep.kept_iff hs, ← hbit]
  refine ⟨fun h va hva => h va (List.mem_append_left _ hva), fun h va hva => ?_⟩
  rcases List.mem_append.mp hva with hva | hva
  · exact h va hva
  · rw [hvas va hva]
    decide

/-- A program for the lower half. -/
theorem kept_iff_mapped_low_user : ∃ (m m₀ : Machine) (pt : ℕ),
    m.makeEmpty (platform virt) = (some pt, m₀) ∧
    Kept pt m₀.tables (m₀.loadelf (platform virt) (Machine.oneSegment 0x10000) pt).2.tables ∧
    Kept pt m₀.tables (m.makeFromElf (platform virt) (Machine.oneSegment 0x10000)).2.tables := by
  generalize hP : platform virt = P
  have hn : 6 ≤ P.npgs := by
    subst hP
    decide
  have hpt : ((P.boot 6).makeEmpty P).1 = some 0x80000000 := by
    subst hP
    decide +kernel
  have hlow : ∀ va ∈ ((P.boot 6).makeEmpty P).2.mappedImage P (Machine.oneSegment 0x10000)
      0x80000000, va.testBit 38 = false := by
    subst hP
    decide +kernel
  rcases he : (P.boot 6).makeEmpty P with ⟨r, m₀⟩
  rw [he] at hpt hlow
  replace he : (P.boot 6).makeEmpty P = (some 0x80000000, m₀) := hpt ▸ he
  refine ⟨P.boot 6, m₀, 0x80000000, he, ?_⟩
  have hans := P.answers_boot hn
  subst hP
  exact ⟨(kept_iff_mapped_low hans he).1.mpr hlow, (kept_iff_mapped_low hans he).2.mpr hlow⟩

/-- A program for the kernel's memory becomes part of it. -/
theorem not_kept_kernel : ∃ (bin : Mem) (m m₀ : Machine) (pt : ℕ),
    (platform virt).Answers m.heap ∧ m.makeEmpty (platform virt) = (some pt, m₀) ∧
    (m₀.loadelf (platform virt) bin pt).1.isSome = true ∧
    ¬ Kept pt m₀.tables (m₀.loadelf (platform virt) bin pt).2.tables := by
  generalize hP : platform virt = P
  have hn : 6 ≤ P.npgs := by
    subst hP
    decide
  have hpt : ((P.boot 6).makeEmpty P).1 = some 0x80000000 := by
    subst hP
    decide +kernel
  have hload : (((P.boot 6).makeEmpty P).2.loadelf P
      (Machine.oneSegment (highmemBase + 0x80000000)) 0x80000000).1.isSome = true := by
    subst hP
    decide +kernel
  have hview : view (((P.boot 6).makeEmpty P).2.loadelf P
        (Machine.oneSegment (highmemBase + 0x80000000)) 0x80000000).2.tables 0x80000000
        (highmemBase + 0x80000000) ≠
      view ((P.boot 6).makeEmpty P).2.tables 0x80000000 (highmemBase + 0x80000000) := by
    subst hP
    decide +kernel
  rcases he : (P.boot 6).makeEmpty P with ⟨r, m₀⟩
  rw [he] at hpt hload hview
  exact ⟨Machine.oneSegment (highmemBase + 0x80000000), P.boot 6, m₀, 0x80000000, P.answers_boot hn,
    hpt ▸ he, hload, fun hk => hview (hk.high _ (Nat.le_add_right _ _) (by decide))⟩

end Riscv64
end Multiplix.Proc
