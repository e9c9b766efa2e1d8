import Multiplix.Proc.Counts

/-! Loading, forking and faulting keep the counts exact, also where memory runs out. -/
namespace Multiplix.Proc
open Lib Vm

namespace Machine

variable {P : Platform} {roots : List ℕ} {o : Owners} {m m' : Machine} {r k p pt va pad n : ℕ}
  {vas vas' : List ℕ} {bin : Mem} {ph : ProgHeader} {w : Bool}

/-- Addresses of different pages in the user's half. -/
def Distinct (vas : List ℕ) : Prop :=
  (vas.map page).Nodup ∧ ∀ va ∈ vas, va.testBit 38 = false

instance (vas : List ℕ) : Decidable (Distinct vas) :=
  inferInstanceAs (Decidable ((vas.map page).Nodup ∧ ∀ va ∈ vas, va.testBit 38 = false))

/-- Pages that a process may still map. -/
structure Room (P : Platform) (roots : List ℕ) (r : ℕ) (vas : List ℕ) (m : Machine) : Prop where
  distinct : Distinct vas
  unmapped : ∀ va ∈ vas, m.ref P roots (r, page va) = none

/-- A process has mapped new pages. -/
structure Grown (P : Platform) (roots : List ℕ) (r : ℕ) (vas : List ℕ) (m m' : Machine) :
    Prop where
  counts : m'.Exact P roots
  keep : ∀ l : ℕ × ℕ, (l.1 = r → ∀ va ∈ vas, page va ≠ l.2) → m'.ref P roots l = m.ref P roots l

theorem Grown.trans {m'' : Machine} (h : Grown P roots r vas m m')
    (h' : Grown P roots r vas' m' m'') : Grown P roots r (vas ++ vas') m m'' where
  counts := h'.counts
  keep l hl := by
    rw [h'.keep l fun he va hva => hl he va (List.mem_append_right _ hva),
      h.keep l fun he va hva => hl he va (List.mem_append_left _ hva)]

theorem Grown.refl (h : m.Exact P roots) (r : ℕ) : Grown P roots r [] m m := ⟨h, fun _ _ => rfl⟩

theorem Room.left (h : Room P roots r (vas ++ vas') m) : Room P roots r vas m := by
  obtain ⟨⟨hnd, hlow⟩, hun⟩ := h
  rw [List.map_append] at hnd
  exact ⟨⟨(List.nodup_append.mp hnd).1, fun va hva => hlow va (List.mem_append_left _ hva)⟩,
    fun va hva => hun va (List.mem_append_left _ hva)⟩

theorem Room.right (h : Room P roots r (vas ++ vas') m) (hg : Grown P roots r vas m m') :
    Room P roots r vas' m' := by
  obtain ⟨⟨hnd, hlow⟩, hun⟩ := h
  rw [List.map_append] at hnd
  obtain ⟨-, hnd', hne⟩ := List.nodup_append.mp hnd
  refine ⟨⟨hnd', fun va hva => hlow va (List.mem_append_right _ hva)⟩, fun va' hva' => ?_⟩
  rw [hg.keep _ fun _ va hva => hne _ (List.mem_map_of_mem hva) _ (List.mem_map_of_mem hva')]
  exact hun va' (List.mem_append_right _ hva')

theorem Exact.mapPage (h : m.Exact P roots) {m₁ : Machine} (hk : m.kalloc = (some p, m₁))
    {bytes : Mem} (hr : r ∈ roots) {perm : Perm} (hperm : perm = .urwx ∨ perm = .urw) {b : Bool}
    (hroom : Room P roots r (if b then [va] else []) m)
    (hm : { m₁ with bytes := bytes }.mappg P r va p perm = (b, m')) :
    Grown P roots r (if b then [va] else []) m m' := by
  obtain ⟨hx, href⟩ := h.mapFresh hk hr hperm (fun hok => by
    rw [if_pos hok] at hroom
    exact ⟨hroom.distinct.2 va (List.mem_singleton_self va),
      hroom.unmapped va (List.mem_singleton_self va)⟩) hm
  refine ⟨hx, fun l hl => ?_⟩
  rw [href]
  split_ifs at hl ⊢ with hok
  · refine Function.update_of_ne ?_ ..
    rintro rfl
    exact hl rfl va (List.mem_singleton_self va) rfl
  · rfl

theorem Exact.loadPages (h : m.Exact P roots) (hr : r ∈ roots)
    (hroom : Room P roots r (m.mappedPages P bin ph r n va pad) m) :
    Grown P roots r (m.mappedPages P bin ph r n va pad) m
      (m.loadPages P bin ph r n va pad).2 := by
  induction n generalizing m va pad with
  | zero => exact .refl h r
  | succ n ih =>
    rw [Machine.mappedPages] at hroom ⊢
    rw [Machine.loadPages]
    split_ifs at hroom ⊢
    swap
    · exact .refl h r
    rcases hk : m.kalloc with ⟨a, m₁⟩
    rw [hk] at hroom
    rcases a with _ | mem
    · obtain ⟨h₁, href⟩ := h.kalloc hk
      exact ⟨h₁, fun _ _ => by rw [href]⟩
    dsimp only at hroom ⊢
    rcases hmap : ({ m₁ with bytes := ph.fillPage bin va pad mem m₁.bytes } : Machine).mappg
      P r va mem .urwx with ⟨ok, m₂⟩
    rw [hmap] at hroom
    cases ok with
    | false => exact h.mapPage hk hr (Or.inl rfl) (b := false) hroom hmap
    | true =>
      replace hroom : Room P roots r ([va] ++ mappedPages P bin ph r n _ 0 m₂) m := hroom
      have hg : Grown P roots r [va] m m₂ :=
        h.mapPage hk hr (Or.inl rfl) (b := true) hroom.left hmap
      exact hg.trans (ih hg.counts (hroom.right hg))

theorem Exact.loadSegments (h : m.Exact P roots) (hr : r ∈ roots) {off : ℕ} (brk : ℕ)
    (hroom : Room P roots r (m.mappedSegments P bin r n off) m) :
    Grown P roots r (m.mappedSegments P bin r n off) m (m.loadSegments P bin r n off brk).2 := by
  induction n generalizing m off brk with
  | zero => exact .refl h r
  | succ n ih =>
    rw [Machine.mappedSegments] at hroom ⊢
    rw [Machine.loadSegments]
    split_ifs at hroom ⊢
    · exact ih h brk hroom
    · exact .refl h r
    · exact .refl h r
    · generalize ProgHeader.read bin off = ph at hroom ⊢
      have hpages := h.loadPages hr hroom.left
      rcases hl : m.loadPages P bin ph r (m.heap.length + 1) ph.vaStart ph.pad with
        ⟨_ | _, m₁⟩ <;> rw [hl] at hroom hpages
      · exact hpages.trans (.refl hpages.counts r)
      · exact hpages.trans (ih hpages.counts _ (hroom.right hpages))

theorem Exact.loadelf (h : m.Exact P roots) (hr : r ∈ roots)
    (hroom : Room P roots r (m.mappedImage P bin r) m) :
    Grown P roots r (m.mappedImage P bin r) m (m.loadelf P bin r).2 := by
  rw [Machine.mappedImage] at hroom ⊢
  rw [Machine.loadelf]
  split_ifs at hroom ⊢
  · exact .refl h r
  · have hsegs := h.loadSegments hr 0 hroom
    rcases hl : m.loadSegments P bin r (FileHeader.read bin).phnum
      (FileHeader.read bin).phoff 0 with ⟨_ | brk, m₁⟩ <;> rw [hl] at hsegs <;> exact hsegs

/-- The pages of a program are apart from each other and from the stack. -/
def Loadable (P : Platform) (bin : Mem) (m : Machine) : Prop :=
  ∀ pt m₀, m.makeEmpty P = (some pt, m₀) → Distinct (m₀.mappedImage P bin pt ++ [stackVa])

/-- A process is made from a program, or freed in the end, if that fails. -/
theorem Exact.makeFromElf (h : m.Exact P roots) (hbin : m.Loadable P bin) :
    match (m.makeEmpty P).1 with
    | none => (m.makeFromElf P bin).2.Exact P roots
    | some pt => pt ∉ roots ∧ (m.makeFromElf P bin).2.Exact P (roots ++ [pt]) := by
  rw [Machine.makeFromElf]
  rcases he : m.makeEmpty P with ⟨_ | pt, m₀⟩
  · exact h.makeEmpty he
  obtain ⟨hnew, h₀, href₀⟩ := h.makeEmpty he
  dsimp only
  refine ⟨hnew, ?_⟩
  have hpt : pt ∈ roots ++ [pt] := List.mem_append_right _ (List.mem_singleton_self pt)
  have hroom : Room P (roots ++ [pt]) pt (m₀.mappedImage P bin pt ++ [stackVa]) m₀ :=
    ⟨hbin pt m₀ he, fun va _ => by
      rw [href₀]
      exact if_neg fun hc => hnew hc.1⟩
  have hload := h₀.loadelf hpt hroom.left
  rcases hl : m₀.loadelf P bin pt with ⟨_ | ⟨entry, brk⟩, m₁⟩ <;> rw [hl] at hload
  · exact hload.counts
  dsimp only
  rw [Machine.kzalloc]
  rcases hk : m₁.kalloc with ⟨_ | ustack, m₂⟩
  · exact (hload.counts.kalloc hk).1
  dsimp only
  rcases hmap : ({ m₂ with bytes := m₂.bytes.fill ustack stackSize 0 } : Machine).mappg
    P pt stackVa ustack .urw with ⟨ok, m₃⟩
  have hstack := hroom.right hload
  cases ok with
  | false =>
    exact (hload.counts.mapPage hk hpt (Or.inr rfl) (b := false)
      ⟨⟨List.nodup_nil, by simp⟩, by simp⟩ hmap).counts
  | true => exact (hload.counts.mapPage hk hpt (Or.inr rfl) (b := true) hstack hmap).counts

/-- A page is shared with a child, or only becomes read-only, if there is no memory. -/
theorem Exact.sharePage (h : m.Exact P roots) (hl : m.ref P roots (r, k) = some (p, w))
    {pte : ℕ × ℕ} (hat : m.PteAt P r k pte) {child : ℕ} (hc : child ∈ roots)
    (hl' : m.ref P roots (child, k) = none) {b : Bool}
    (hm : m.sharePage P child ⟨pte, k * 4096, 4096⟩ = (b, m')) : m'.Exact P roots ∧
      ∀ l, l ≠ (r, k) → l ≠ (child, k) → m'.ref P roots l = m.ref P roots l := by
  obtain ⟨o, hi⟩ := h.inv
  obtain ⟨hpage, hr, hk⟩ := hi.shape.ref_mem_pages hl
  obtain ⟨perm, heq, hs₁, href₁⟩ := hi.shape.sharePage_eq hl hat child
  have hu₁ := hi.shape.setPte_upper hr hk hat (P.ops.setPerm · perm) h.upper
  have hidle₁ : ∀ pn, (∀ l w, (m.setPte pte (P.ops.setPerm · perm)).ref P roots l ≠
      some (pn * 4096, w)) → m.refcnt pn = 0 := fun pn hpn => h.idle pn fun l w hlw => by
    by_cases he : l = (r, k)
    · rw [he, hl] at hlw
      cases hlw
      exact hpn (r, k) false (by rw [href₁, Function.update_self])
    · exact hpn l w (by rw [href₁, Function.update_of_ne he, hlw])
  cases b with
  | false =>
    rw [heq] at hm
    have hi₁ : (m.setPte pte (P.ops.setPerm · perm)).Inv P roots o :=
      ⟨hs₁, hi.counted.protect hl href₁ rfl, hi.zero⟩
    have h₁ : (m.setPte pte (P.ops.setPerm · perm)).Exact P roots := ⟨⟨o, hi₁⟩, hu₁, hidle₁⟩
    obtain ⟨h', href'⟩ := h₁.mappg_fail hi₁ hc hpage (by decide) hm
    refine ⟨h', fun l hne _ => ?_⟩
    rw [href', href₁, Function.update_of_ne hne]
  | true =>
    obtain ⟨hi', -, hcnt, href⟩ := hi.sharePage hl hat hc hl' hm
    rw [heq] at hm
    have hu := hs₁.mappg_upper hc hpage (by decide)
      (fun _ => testBit_of_lt (by omega : k * 4096 < 2 ^ 38)) hm hu₁
    refine ⟨⟨hi', hu, fun pn hpn => ?_⟩, fun l hne hne' => ?_⟩
    · have hshared := hpn (child, k) false
      rw [href, Function.update_self] at hshared
      have hne : pn ≠ p / 4096 := fun he =>
        hshared (by rw [he, Nat.div_mul_cancel (hi.shape.page p hpage).dvd])
      rw [hcnt, Function.update_of_ne hne]
      refine hidle₁ pn fun l w hlw => hpn l w ?_
      rw [href, Function.update_of_ne, ← href₁, hlw]
      rintro rfl
      rw [href₁, Function.update_of_ne, hl'] at hlw
      · cases hlw
      · rintro he
        rw [he, hl] at hl'
        cases hl'
    · rw [href, Function.update_of_ne hne', Function.update_of_ne hne]

/-- A process is made from its parent, or freed in the end, if that fails. -/
theorem Exact.makeFromParent (h : m.Exact P roots) (hr : r ∈ roots) :
    match (m.makeEmpty P).1 with
    | none => (m.makeFromParent P r).2.Exact P roots
    | some pt => pt ∉ roots ∧ (m.makeFromParent P r).2.Exact P (roots ++ [pt]) := by
  rw [Machine.makeFromParent]
  rcases he : m.makeEmpty P with ⟨_ | pt, m₀⟩
  · exact h.makeEmpty he
  obtain ⟨hnew, h₀, href₀⟩ := h.makeEmpty he
  dsimp only
  refine ⟨hnew, ?_⟩
  -- the child has none of the pages to come
  let J : ℕ → Machine → Prop := fun k m => m.Exact P (roots ++ [pt]) ∧
    ∀ k', k ≤ k' → m.ref P (roots ++ [pt]) (pt, k') = none
  have hrule : LoopRule P (roots ++ [pt]) r (Machine.sharePage P pt) J
      (Exact P (roots ++ [pt])) := by
    refine ⟨fun hJ => ⟨_, hJ.1.inv.choose_spec.shape⟩,
      fun hJ _ _ => ⟨hJ.1, fun k' hk' => hJ.2 k' (by omega)⟩, ?_⟩
    intro k m p w pte hJ hk hl hat ok m' hbody
    obtain ⟨h', hkeep⟩ := hJ.1.sharePage hl hat
      (List.mem_append_right _ (List.mem_singleton_self pt)) (hJ.2 k le_rfl) hbody
    split_ifs
    · refine ⟨h', fun k' hk' => ?_⟩
      rw [hkeep _ (fun he => hnew (by cases he; exact hr)) fun he => by cases he; omega]
      exact hJ.2 k' (by omega)
    · exact h'
  have hstart : J 0 m₀ := ⟨h₀, fun k _ => by
    rw [href₀]
    exact if_neg fun hc => hnew hc.1⟩
  rcases hop : PtIter.opApply P.ops (Machine.sharePage P pt) PtIter.fuel (.get r) m₀ with ⟨ok, m₁⟩
  have hend := hrule.opApply (List.mem_append_left _ hr) hstart hop
  cases ok with
  | false => exact hend
  | true => exact hend.1

theorem lookup_mod (T : PtMem) (root va : ℕ) : P.ops.lookup T root va =
    (P.ops.lookup T root (va % 2 ^ 39)).map fun map => { map with va := va } := by
  have hwalk : P.ops.walk T root va .normal [] = P.ops.walk T root (va % 2 ^ 39) .normal [] :=
    PteOps.walk_congr fun i hi => vpn_mod i hi
  rw [PteOps.lookup, PteOps.lookup, ← hwalk]
  rcases (P.ops.walk T root va .normal []).pte with _ | ⟨t, i⟩
  · rfl
  · dsimp only
    split_ifs <;> rfl

theorem pgfltHandler_mod (addr : ℕ) (kind : FaultType) :
    m.pgfltHandler P r addr kind = m.pgfltHandler P r (addr % 2 ^ 39) kind := by
  have haddr : (addr - addr % 4096) % 2 ^ 39 = addr % 2 ^ 39 - addr % 2 ^ 39 % 4096 := by omega
  rw [Machine.pgfltHandler, Machine.pgfltHandler]
  dsimp only
  rw [lookup_mod, haddr]
  cases P.ops.lookup m.tables r (addr % 2 ^ 39 - addr % 2 ^ 39 % 4096) <;> rfl

/-- An access that the handler does not allow. -/
theorem Shape.pgfltHandler_killed (h : m.Shape P roots o) {kind : FaultType}
    (hl : m.ref P roots (r, va / 4096) = some (p, w)) (hk : kind = .write → w = true) :
    m.pgfltHandler P r va kind = (.killed, m) := by
  obtain ⟨pte, -, he, -, hw, hlook⟩ := h.exists_pteAt hl
  have hcow : (VaMapping.mk pte (va - va % 4096) 4096).cow P.ops m.tables = !w := he.cow.trans
    (by rw [hw])
  rw [Machine.pgfltHandler]
  dsimp only
  rw [hlook _ (by omega)]
  dsimp only
  rw [hcow]
  rw [if_neg (c := kind = .write ∧ _) fun hc => ?_, ite_self]
  rw [hk hc.1] at hc
  exact Bool.false_ne_true hc.2.1

theorem Exact.takeOver (h : m.Exact P roots) (hi : m.Inv P roots o)
    (hl : m.ref P roots (r, k) = some (p, false)) (hone : m.refcnt (p / 4096) = 1) {pte : ℕ × ℕ}
    (hat : m.PteAt P r k pte) (he : UserEntry P.ops (m.tables pte.1 pte.2))
    (hpa : P.ops.pa (m.tables pte.1 pte.2) = p) {perm : Perm}
    (hperm : perm = P.ops.perm (m.tables pte.1 pte.2) &&& ~~~Perm.cow ||| Perm.w) :
    (m.setPte pte (P.ops.setPerm · perm)).Exact P roots := by
  obtain ⟨-, hr, hk⟩ := hi.shape.ref_mem_pages hl
  obtain ⟨hi', href⟩ := hi.takeOver hl hone hat he hpa hperm
  refine ⟨⟨o, hi'⟩, hi.shape.setPte_upper hr hk hat _ h.upper, fun pn hpn => ?_⟩
  refine h.idle pn fun l w hlw => ?_
  by_cases hlk : l = (r, k)
  · rw [hlk, hl] at hlw
    cases hlw
    exact hpn _ true (by rw [href, Function.update_self])
  · exact hpn l w (by rw [href, Function.update_of_ne hlk, hlw])

theorem setPte_setPte (pte : ℕ × ℕ) (f g : Pte → Pte) :
    (m.setPte pte f).setPte pte g = m.setPte pte fun e => g (f e) := by
  simp [Machine.setPte, Radix.write]

/-- The old page, which others refer to, has one reference less. -/
theorem Exact.copyPage (h : m.Exact P roots) (hi : m.Inv P roots o)
    (hl : m.ref P roots (r, k) = some (p, false)) (hmany : m.refcnt (p / 4096) ≠ 1) {m₁ : Machine}
    {q : ℕ} (hkal : (m.dropRef p).kalloc = (some q, m₁)) (bytes : Mem) {pte : ℕ × ℕ}
    (hat : m.PteAt P r k pte) (he : UserEntry P.ops (m.tables pte.1 pte.2))
    (hpa : P.ops.pa (m.tables pte.1 pte.2) = p) {perm : Perm}
    (hperm : perm = P.ops.perm (m.tables pte.1 pte.2) &&& ~~~Perm.cow ||| Perm.w)
    (hm : m' = ({ m₁ with bytes := bytes }.setPte pte (P.ops.setPerm · perm)).setPte pte
      (P.ops.setPa · q)) : (m'.addRef q).Exact P roots := by
  obtain ⟨-, hr, hk⟩ := hi.shape.ref_mem_pages hl
  obtain ⟨hq, hal, -, hi', hcnt, href⟩ := hi.copyPage hl hkal bytes hat he hpa hperm hm
  refine ⟨⟨_, hi'⟩, ?_, fun pn hpn => ?_⟩
  · have hs₀ : (m.dropRef p).Shape P roots o := hi.shape.congr rfl rfl
    obtain ⟨hs₁, heq, -⟩ := hs₀.kalloc hkal
    have hT : m₁.tables = m.tables := by
      rw [heq]
      rfl
    have hs₂ : ({ m₁ with bytes := bytes } : Machine).Shape P roots (o.addPage q) :=
      hs₁.congr rfl rfl
    have hat₂ : ({ m₁ with bytes := bytes } : Machine).PteAt P r k pte := by
      unfold PteAt at hat ⊢
      rwa [hT]
    have hu₂ : ({ m₁ with bytes := bytes } : Machine).Upper P roots := h.upper.congr hT
    rw [setPte_setPte] at hm
    rw [hm]
    exact (hs₂.setPte_upper hr hk hat₂
      (fun e => P.ops.setPa (P.ops.setPerm e perm) q) hu₂).congr rfl
  have hne : pn ≠ q / 4096 := fun hpq =>
    hpn (r, k) true (by rw [href, Function.update_self, hpq, Nat.div_mul_cancel hal])
  have hother : ∀ l w, l ≠ (r, k) → m.ref P roots l ≠ some (pn * 4096, w) := fun l w hlk hlw =>
    hpn l w (by rw [href, Function.update_of_ne hlk, hlw])
  rw [hcnt, Function.update_of_ne hne]
  by_cases hpp : pn = p / 4096
  · -- without other references the process would have taken the page over
    have hdvd := (hi.shape.page p (hi.shape.ref_mem_pages hl).1).dvd
    have hsole : (m.cow P roots).refs p = {(r, k)} := by
      ext l
      refine ⟨fun ⟨w, hlw⟩ => ?_, fun hlk => ?_⟩
      · by_contra hlk
        refine hother l w hlk ?_
        rw [hpp, Nat.div_mul_cancel hdvd]
        exact hlw
      · rw [Set.mem_singleton_iff.mp hlk]
        exact ⟨false, hl⟩
    have hcount := hi.counted.count ⟨_, Cow.mem_refs_of (s := m.cow P roots) hl⟩
    rw [hsole, Set.encard_singleton] at hcount
    exact absurd (by exact_mod_cast hcount.symm) hmany
  · rw [Function.update_of_ne hpp]
    refine h.idle pn fun l w hlw => ?_
    by_cases hlk : l = (r, k)
    · rw [hlk, hl] at hlw
      cases hlw
      exact hpp (Nat.mul_div_cancel _ (by decide)).symm
    · exact hother l w hlk hlw

/-- How a fault ends: the process is killed and nothing changes, or counts stay exact, or there is
no memory for a copy. -/
inductive Served (P : Platform) (roots : List ℕ) (r addr : ℕ) (m : Machine) :
    FaultType → Handled × Machine → Prop
  | killed {kind : FaultType} : Served P roots r addr m kind (.killed, m)
  | resumed {kind : FaultType} {m' : Machine} : m'.Exact P roots →
      Served P roots r addr m kind (.resumed, m')
  | blocked {m' : Machine} {map : VaMapping} :
      P.ops.lookup m.tables r (addr - addr % 4096) = some map → map.cow P.ops m.tables = true →
      m.refcnt (map.pa P.ops m.tables / pagesize) ≠ 1 → m.kalloc.1 = none →
      Served P roots r addr m .write (.blocked, m')

theorem Exact.pgfltHandler (h : m.Exact P roots) (hr : r ∈ roots) (addr : ℕ) (kind : FaultType) :
    Served P roots r addr m kind (m.pgfltHandler P r addr kind) := by
  obtain ⟨o, hi⟩ := h.inv
  by_cases hbit : addr.testBit 38 = true
  · -- the kernel's half has no pages
    have hbit' : (addr - addr % 4096).testBit 38 = true := by
      rw [Nat.testBit_eq_decide_div_mod_eq, decide_eq_true_iff] at hbit ⊢
      omega
    rw [Machine.pgfltHandler]
    dsimp only
    rcases hlook : P.ops.lookup m.tables r (addr - addr % 4096) with _ | map
    · exact .killed
    · dsimp only
      rw [if_pos (Or.inr (h.upper.size_ne hr hbit' hlook))]
      exact .killed
  rw [Bool.not_eq_true] at hbit
  have hlt := mod_lt_of_testBit hbit
  rw [pgfltHandler_mod]
  rcases hl : m.ref P roots (r, addr % 2 ^ 39 / 4096) with _ | ⟨p, w⟩
  · rw [hi.shape.pgfltHandler_unmapped hr hlt hl]
    exact .killed
  by_cases hkw : kind = .write → w = true
  · rw [hi.shape.pgfltHandler_killed hl hkw]
    exact .killed
  obtain ⟨rfl, hw⟩ : kind = .write ∧ w ≠ true := by simpa using hkw
  obtain rfl := Bool.eq_false_of_not_eq_true hw
  obtain ⟨pte, perm, hat, he, hpa, hperm, heq⟩ := hi.shape.pgfltHandler_eq hl
  rw [heq]
  split_ifs with hone
  · exact .resumed (h.takeOver hi hl hone hat he hpa hperm)
  rcases hkal : (m.dropRef p).kalloc with ⟨_ | q, m₁⟩
  · obtain ⟨pte', -, he', hpa', hw', hlook⟩ := hi.shape.exists_pteAt hl
    have haddr : (addr - addr % 4096) % 2 ^ 39 / 4096 = addr % 2 ^ 39 / 4096 := by omega
    have hdrop : (m.dropRef p).kalloc.1 = m.kalloc.1 := by
      rw [Machine.kalloc, Machine.kalloc, dropRef_heap]
      cases m.heap <;> rfl
    refine .blocked ((lookup_mod _ _ _).trans (congrArg _ (hlook _ haddr)))
      (he'.cow.trans (by rw [hw']; rfl)) ?_ (by rw [← hdrop, hkal])
    change m.refcnt (P.ops.pa (m.tables pte'.1 pte'.2) / 4096) ≠ 1
    rwa [hpa']
  · have hpaq := (hi.copyPage hl hkal (m₁.bytes.copy q m₁.bytes p pagesize) hat he hpa hperm
      rfl).2.2.1
    dsimp only
    rw [hpaq]
    exact .resumed (h.copyPage hi hl hone hkal _ hat he hpa hperm rfl)

section Enough

/-! Operations for which there is memory. -/

variable {a b c t u : ℕ} {rest : Supply} {perm : Perm}

/-- Two pages are enough for the tables of a mapping. -/
theorem mappg_of_heap (hheap : m.heap = some t :: some u :: rest) :
    (m.mappg P r va p perm).1 = true := by
  have hlow : ∀ pt T u as, (P.ops.walkLoop va .normal 1 pt T (some u :: as)).pte ≠ none :=
    fun pt T u as => by
      rw [PteOps.walkLoop, if_pos (by decide)]
      dsimp only [ptalloc]
      split_ifs <;> simp [PteOps.walkLoop]
  have hwalk : (P.ops.walk m.tables r va .normal m.heap).pte ≠ none := by
    rw [hheap, PteOps.walk, show PtLevel.giga.toNat = 1 + 1 from rfl, PteOps.walkLoop,
      if_pos (by decide)]
    dsimp only [ptalloc]
    split_ifs
    · simp
    · exact hlow _ _ _ _
    · exact hlow _ _ _ _
  rw [mappg, PteOps.map]
  obtain ⟨x, hx⟩ := Option.ne_none_iff_exists'.mp hwalk
  rw [hx]

theorem makeEmpty_of_heap (hheap : m.heap = some a :: some b :: rest) :
    ∃ m₀, m.makeEmpty P = (some a, m₀) ∧ m₀.heap = rest := by
  rw [Machine.makeEmpty, knewTable, hheap]
  exact ⟨_, rfl, rfl⟩

/-- A program without segments gets a process with a stack. -/
theorem Exact.makeFromElf_bare (h : m.Exact P roots) (hmagic : (FileHeader.read bin).magic = magic)
    (hbare : (FileHeader.read bin).phnum = 0)
    (hheap : m.heap = some a :: some b :: some c :: some t :: some u :: rest) :
    ∃ m', m.makeFromElf P bin = (some a, m') ∧ m'.Exact P (roots ++ [a]) ∧
      m'.ref P (roots ++ [a]) =
        Function.update (m.ref P roots) (a, page stackVa) (some (c, true)) := by
  obtain ⟨m₀, he, hheap₀⟩ := makeEmpty_of_heap (P := P) hheap
  obtain ⟨hnew, h₀, href₀⟩ := h.makeEmpty he
  have hk : m₀.kalloc = (some c, { m₀ with heap := some t :: some u :: rest }) := by
    rw [Machine.kalloc, hheap₀]
  have hmap : (Machine.mappg P { m₀ with
      bytes := m₀.bytes.fill c stackSize 0, heap := some t :: some u :: rest } a stackVa c
      .urw).1 = true := mappg_of_heap rfl
  rcases hm : Machine.mappg P { m₀ with
      bytes := m₀.bytes.fill c stackSize 0, heap := some t :: some u :: rest } a stackVa c
      .urw with ⟨ok, m'⟩
  rw [hm] at hmap
  obtain rfl : ok = true := hmap
  have ha : a ∈ roots ++ [a] := List.mem_append_right _ (List.mem_singleton_self a)
  have hnone : m₀.ref P (roots ++ [a]) (a, page stackVa) = none := by
    rw [href₀]
    exact if_neg fun hc => hnew hc.1
  obtain ⟨h', href⟩ := h₀.mapFresh hk ha (Or.inr rfl) (fun _ => ⟨by decide, hnone⟩) hm
  refine ⟨m', ?_, h', ?_⟩
  · rw [Machine.makeFromElf, he]
    dsimp only
    rw [Machine.loadelf, if_neg (not_not.mpr hmagic), hbare, Machine.loadSegments]
    dsimp only
    rw [Machine.kzalloc, hk]
    dsimp only
    rw [hm]
  · rw [href, href₀]
    rfl

theorem loadable_bare (hmagic : (FileHeader.read bin).magic = magic)
    (hbare : (FileHeader.read bin).phnum = 0) : m.Loadable P bin := fun pt m₀ _ => by
  rw [mappedImage, if_neg (not_not.mpr hmagic), hbare, mappedSegments]
  decide

/-- A process with a single page forks if there is memory for the tables of the child, and shares
the page with it. -/
theorem Exact.makeFromParent_single (h : m.Exact P roots) (hr : r ∈ roots)
    (hsingle : ∀ k' ≠ k, m.ref P roots (r, k') = none) (hl : m.ref P roots (r, k) = some (p, w))
    (hk : k < userPages) (hheap : m.heap = some a :: some b :: some t :: some u :: rest) :
    ∃ m', m.makeFromParent P r = (some a, m') ∧ m'.Exact P (roots ++ [a]) ∧
      m'.ref P (roots ++ [a]) (r, k) = some (p, false) ∧
      m'.ref P (roots ++ [a]) (a, k) = some (p, false) := by
  obtain ⟨m₀, he, hheap₀⟩ := makeEmpty_of_heap (P := P) hheap
  obtain ⟨hnew, h₀, href₀⟩ := h.makeEmpty he
  let J : ℕ → Machine → Prop := fun j m => m.Exact P (roots ++ [a]) ∧
    (∀ k' ≠ k, m.ref P (roots ++ [a]) (r, k') = none) ∧
    (∀ k', j ≤ k' → m.ref P (roots ++ [a]) (a, k') = none) ∧
    (j ≤ k → m.heap = some t :: some u :: rest ∧
      m.ref P (roots ++ [a]) (r, k) = some (p, w)) ∧
    (k < j → m.ref P (roots ++ [a]) (r, k) = some (p, false) ∧
      m.ref P (roots ++ [a]) (a, k) = some (p, false))
  have hrule : LoopRule P (roots ++ [a]) r (Machine.sharePage P a) J fun _ => False := by
    refine ⟨fun hJ => ⟨_, hJ.1.inv.choose_spec.shape⟩, ?_, ?_⟩
    · rintro j m ⟨hx, hs, hno, hbefore, hafter⟩ hj hnone
      refine ⟨hx, hs, fun k' hk' => hno k' (by omega), fun hjk => hbefore (by omega), fun hjk => ?_⟩
      rcases Nat.lt_succ_iff_lt_or_eq.mp hjk with hlt | rfl
      · exact hafter hlt
      · rw [(hbefore le_rfl).2] at hnone
        cases hnone
    rintro j m p' w' pte ⟨hx, hs, hno, hbefore, hafter⟩ hj hl' hat ok m' hbody
    obtain rfl : j = k := by
      by_contra hne
      rw [hs j hne] at hl'
      cases hl'
    obtain ⟨hheap, hlw⟩ := hbefore le_rfl
    obtain ⟨rfl, rfl⟩ : p' = p ∧ w' = w := by
      rw [hl', Option.some.injEq, Prod.mk.injEq] at hlw
      exact hlw
    obtain ⟨o, hi⟩ := hx.inv
    obtain ⟨h', hkeep⟩ := hx.sharePage hl' hat
      (List.mem_append_right _ (List.mem_singleton_self a)) (hno j le_rfl) hbody
    obtain ⟨perm, heq, -⟩ := hi.shape.sharePage_eq hl' hat a
    have hok : ok = true := by
      have hmap : ((m.setPte pte (P.ops.setPerm · perm)).mappg P a (j * 4096) p'
        (Perm.urx ||| Perm.cow)).1 = true := mappg_of_heap hheap
      rwa [← heq, hbody] at hmap
    rw [if_pos hok]
    rw [hok] at hbody
    have hra : r ≠ a := fun he => hnew (he ▸ hr)
    obtain ⟨-, -, -, href⟩ := hi.sharePage hl' hat
      (List.mem_append_right _ (List.mem_singleton_self a)) (hno j le_rfl) hbody
    refine ⟨h', fun k' hk' => ?_, fun k' hk' => ?_, fun hk => by omega, fun _ => ⟨?_, ?_⟩⟩
    · rw [hkeep _ (fun he => hk' (by cases he; rfl)) fun he => hra (by cases he; rfl)]
      exact hs k' hk'
    · rw [hkeep _ (fun he => hra (by cases he; rfl)) fun he => by cases he; omega]
      exact hno k' (by omega)
    · rw [href, Function.update_of_ne fun he => hra (by cases he; rfl), Function.update_self]
    · rw [href, Function.update_self]
  have hstart : J 0 m₀ := by
    refine ⟨h₀, fun k' hk' => by rw [href₀, hsingle k' hk'], fun k' _ => ?_,
      fun _ => ⟨hheap₀, by rw [href₀, hl]⟩, fun hk => absurd hk (Nat.not_lt_zero k)⟩
    rw [href₀]
    exact if_neg fun hc => hnew hc.1
  rw [Machine.makeFromParent, he]
  dsimp only
  rcases hop : PtIter.opApply P.ops (Machine.sharePage P a) PtIter.fuel (.get r) m₀ with ⟨ok, m₁⟩
  have hend := hrule.opApply (List.mem_append_left _ hr) hstart hop
  cases ok with
  | false => exact hend.elim
  | true =>
    obtain ⟨hx, -, -, -, hafter⟩ := hend
    exact ⟨m₁, rfl, hx, hafter hk⟩

end Enough

end Machine

/-- Before there are processes, every count is zero. -/
theorem Platform.Answers.exact {P : Platform} {m : Machine} (h : P.Answers m.heap)
    (hzero : ∀ pn, m.refcnt pn = 0) : m.Exact P [] :=
  ⟨h.inv hzero, fun _ hr => absurd hr List.not_mem_nil, fun pn _ => hzero pn⟩

end Multiplix.Proc
