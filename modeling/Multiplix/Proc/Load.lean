import Multiplix.Proc.Fault

/-! Processes made by `make_from_elf`. -/
namespace Multiplix.Proc
open Lib Vm

/-- The headers that `loadelf` reads. -/
def progHeaders (bin : Mem) : ℕ → ℕ → List ProgHeader
  | 0, _ => []
  | n + 1, off =>
    ProgHeader.read bin off :: progHeaders bin n ((off + ProgHeader.size) % 2 ^ 64)

/-- All pages of an image are user pages. -/
def BelowMaxVa (bin : Mem) : Prop :=
  ∀ ph ∈ progHeaders bin (FileHeader.read bin).phnum (FileHeader.read bin).phoff,
    ph.type = Prog.load → ph.memsz ≠ 0 → ph.vaStart + ph.sz ≤ maxVa

theorem ProgHeader.fillPage_outside (ph : ProgHeader) (bin bytes : Mem) {va pad mem x : ℕ}
    (hpad : pad ≤ 4096) (hx : x < mem ∨ mem + 4096 ≤ x) :
    ph.fillPage bin va pad mem bytes x = bytes x := by
  have hps : pagesize = 4096 := rfl
  rw [fillPage, hps]
  generalize hn : (if ph.filesz > (va + 2 ^ 64 - ph.vaddr) % 2 ^ 64 then
    min (4096 - pad) (ph.filesz - (va + 2 ^ 64 - ph.vaddr) % 2 ^ 64) else 0) = n
  have hle : n ≤ 4096 - pad := by
    rw [← hn]
    split_ifs
    · exact min_le_left _ _
    · exact Nat.zero_le _
  rw [Mem.fill_outside _ _ (by omega), Mem.copy_outside _ _ _ (by omega),
    Mem.fill_outside _ _ (by omega)]

namespace Machine

variable {P : Platform} {roots : List ℕ} {o : Owners} {m m' : Machine} {pt va pad n : ℕ}
  {bin : Mem} {ph : ProgHeader}

/-- A process that is being loaded owns all its pages. -/
structure Loading (P : Platform) (roots : List ℕ) (pt : ℕ) (m : Machine) : Prop where
  inv : ∃ o, m.Inv P roots o
  mem : pt ∈ roots
  own : ∀ {k q w}, m.ref P roots (pt, k) = some (q, w) → w = true

theorem Loading.mapFresh (h : m.Loading P roots pt) {m₁ : Machine} {p : ℕ}
    (hk : m.kalloc = (some p, m₁)) {bytes : Mem} (hva : va < maxVa) {perm : Perm}
    (hperm : perm = .urwx ∨ perm = .urw)
    (hm : { m₁ with bytes := bytes }.mappg P pt va p perm = (true, m')) :
    m'.Loading P roots pt := by
  obtain ⟨o, hi⟩ := h.inv
  have hmax : maxVa < 2 ^ 38 := by decide
  obtain ⟨-, -, hi', -, href⟩ := hi.mapFresh hk h.mem (hva.trans hmax) hperm
    (fun q w hl => h.own hl) hm
  refine ⟨hi', h.mem, fun {k q w} hl => ?_⟩
  rw [href, Function.update_apply] at hl
  split_ifs at hl
  · cases hl
    rfl
  · exact h.own hl

theorem Loading.loadPages (h : m.Loading P roots pt) (hsz : ph.vaStart + ph.sz ≤ maxVa)
    (hm : m.loadPages P bin ph pt n va pad = (true, m')) : m'.Loading P roots pt := by
  induction n generalizing m va pad with
  | zero => cases hm
  | succ n ih =>
    have hmod : (ph.vaStart + ph.sz) % 2 ^ 64 ≤ maxVa := (Nat.mod_le _ _).trans hsz
    rw [Machine.loadPages] at hm
    split_ifs at hm with hva
    swap
    · cases hm
      exact h
    rcases hk : m.kalloc with ⟨_ | p, m₁⟩
    · rw [hk] at hm
      cases hm
    rw [hk] at hm
    dsimp only at hm
    rcases hmap : ({ m₁ with bytes := ph.fillPage bin va pad p m₁.bytes } : Machine).mappg P pt va p
      .urwx with ⟨_ | _, m₂⟩
    · rw [hmap] at hm
      cases hm
    · rw [hmap] at hm
      exact ih (h.mapFresh hk (by omega) (Or.inl rfl) hmap) hm

theorem Loading.loadSegments (h : m.Loading P roots pt) {off brk brk' : ℕ}
    (hsz : ∀ ph ∈ progHeaders bin n off, ph.type = Prog.load → ph.memsz ≠ 0 →
      ph.vaStart + ph.sz ≤ maxVa)
    (hm : m.loadSegments P bin pt n off brk = (some brk', m')) : m'.Loading P roots pt := by
  induction n generalizing m off brk with
  | zero =>
    cases hm
    exact h
  | succ n ih =>
    have hrest := fun ph hph => hsz ph (List.mem_cons_of_mem _ hph)
    rw [Machine.loadSegments] at hm
    split_ifs at hm with hskip hbad hwrap
    · exact ih h hrest hm
    · simp at hm
    · simp at hm
    · rw [not_or, not_not] at hskip
      split at hm
      · simp at hm
      · next m₁ hload =>
        exact ih (h.loadPages (hsz _ List.mem_cons_self hskip.1 hskip.2) hload) hrest hm

/-- The new process is as if it had been there before with no pages, and owns its pages. -/
theorem Inv.makeFromElf (h : m.Inv P roots o) (hbin : BelowMaxVa bin)
    (hm : m.makeFromElf P bin = (some pt, m')) : m'.Loading P (roots ++ [pt]) pt := by
  rw [Machine.makeFromElf] at hm
  rcases hme : m.makeEmpty P with ⟨_ | pt', m₀⟩
  · rw [hme] at hm
    cases hm
  rw [hme] at hm
  dsimp only at hm
  obtain ⟨o₀, hi₀, hnew, href₀, -⟩ := h.makeEmpty hme
  have hl₀ : m₀.Loading P (roots ++ [pt']) pt' := by
    refine ⟨⟨_, hi₀⟩, List.mem_append_right _ (List.mem_singleton_self _), fun {k q w} hl => ?_⟩
    rw [href₀] at hl
    exact absurd (h.shape.ref_mem_pages hl).2.1 hnew
  rcases hload : m₀.loadelf P bin pt' with ⟨_ | ⟨entry, brk⟩, m₁⟩
  · rw [hload] at hm
    cases hm
  rw [hload] at hm
  dsimp only at hm
  have hl₁ : m₁.Loading P (roots ++ [pt']) pt' := by
    rw [loadelf] at hload
    split_ifs at hload
    · cases hload
    · split at hload
      · cases hload
      · next brk' m₂ hseg =>
        obtain ⟨-, rfl⟩ := Prod.mk.inj hload
        exact hl₀.loadSegments hbin hseg
  rw [kzalloc] at hm
  rcases hk : m₁.kalloc with ⟨_ | p, m₂⟩
  · rw [hk] at hm
    cases hm
  rw [hk] at hm
  dsimp only at hm
  split at hm
  · cases hm
  · next m₃ hmap =>
    obtain ⟨rfl, rfl⟩ : pt' = pt ∧ m₃ = m' := by simpa using hm
    exact hl₁.mapFresh hk (by decide) (Or.inr rfl) hmap

end Machine

/-- What `kalloc` may answer as long as no page is freed. -/
def Platform.Answers (P : Platform) (heap : Supply) : Prop :=
  (∀ t, some t ∈ heap → P.InMem t) ∧ P.ops.Fresh ∅ heap

/-- Processes made from programs whose pages lie below the kernel's limit. -/
inductive Loaded (P : Platform) : System → Prop
  | boot {m : Machine} : P.Answers m.heap → (∀ pn, m.refcnt pn = 0) → Loaded P ⟨m, []⟩
  | spawn {s : System} {bin : Mem} {pt : ℕ} {m : Machine} : Loaded P s → BelowMaxVa bin →
      s.machine.makeFromElf P bin = (some pt, m) → Loaded P ⟨m, s.procs ++ [pt]⟩

/-- A machine on which `kalloc` is going to hand out the first pages of memory. -/
def Platform.boot (P : Platform) (n : ℕ) : Machine where
  tables _ _ := 0
  bytes _ := 0
  refcnt _ := 0
  heap := (List.range' P.basepg n).map fun pn => some (pn * 4096)

private theorem fresh_range' {ops : PteOps} {used : Set ℕ} {a n : ℕ}
    (hused : ∀ t ∈ used, t < a * 4096) (hle : (a + n) * 4096 ≤ 2 ^ ops.paBits) :
    ops.Fresh used ((List.range' a n).map fun pn => some (pn * 4096)) := by
  induction n generalizing a used with
  | zero => trivial
  | succ n ih =>
    rw [List.range'_succ, List.map_cons]
    refine ⟨fun ha => (hused _ ha).false, by omega, Dvd.intro_left _ rfl, ih (fun t ht => ?_) ?_⟩
    · have hmul := Nat.mul_le_mul_right 4096 (Nat.le_succ a)
      rcases ht with rfl | ht
      · exact Nat.mul_lt_mul_of_pos_right (Nat.lt_succ_self a) (by decide)
      · exact (hused t ht).trans_le hmul
    · rwa [Nat.add_right_comm]

theorem Platform.answers_boot (P : Platform) {n : ℕ} (hn : n ≤ P.npgs) :
    P.Answers (P.boot n).heap := by
  refine ⟨fun t ht => ?_, fresh_range' (by simp) ?_⟩
  · obtain ⟨pn, hpn, heq⟩ := List.mem_map.mp ht
    rw [List.mem_range'_1] at hpn
    exact ⟨pn, hpn.1, by omega, (Option.some.inj heq).symm⟩
  · exact (Nat.mul_le_mul_right _ (by omega)).trans P.mem_le

/-- Before there are processes. -/
theorem Platform.Answers.shape {P : Platform} {m : Machine} (h : P.Answers m.heap) :
    m.Shape P [] ⟨fun _ => ∅, ∅⟩ := by
  refine ⟨List.nodup_nil, by simp, h.1, by simp, by simp, by simp,
    fun p hp => absurd hp (Set.notMem_empty p), by simp, h.2.anti ?_⟩
  rintro t (⟨r, hr, -⟩ | hp)
  · simp at hr
  · exact hp

theorem Platform.Answers.inv {P : Platform} {m : Machine} (h : P.Answers m.heap)
    (hzero : ∀ pn, m.refcnt pn = 0) : ∃ o, m.Inv P [] o := by
  have href : ∀ l, m.ref P [] l = none := fun l => if_neg fun hc => by simp at hc
  refine ⟨_, h.shape, ⟨?_, ?_, ?_⟩, fun t _ => hzero _⟩
  · rintro p ⟨l, w, hl⟩
    exact absurd (hl.symm.trans (href l)) (by simp)
  · exact fun {l _ _ _} hl _ => absurd (hl.symm.trans (href l)) (by simp)
  · exact fun {l _ _ _ _} hl _ => absurd (hl.symm.trans (href l)) (by simp)

theorem Loaded.inv {P : Platform} {s : System} (h : Loaded P s) :
    ∃ o, s.machine.Inv P s.procs o := by
  induction h with
  | boot hans hzero => exact hans.inv hzero
  | spawn _ hbin hm ih => exact (ih.choose_spec.makeFromElf hbin hm).inv

end Multiplix.Proc
