import Multiplix.Boot.Payload
import Multiplix.Lib.CopyDown
import Multiplix.Proc.Platforms

/-! The copy of the payload to its entry point in `kmain` of `boot.main`, through the page table
that `kernel_setup` of `plix.arch.riscv64.boot` makes. -/
namespace Multiplix.Boot
open Core Lib Proc Proc.Riscv64 Vm Vm.Riscv64

/-- A board whose memory begins at gigapages, as `map_giga` needs it. -/
structure GigaBoard extends Board where
  giga : ∀ r ∈ memRanges, gb ∣ r.start

/-- `map_region`. -/
def mapRegion (root : ℕ) (T : PtMem) (range : MemRange) : PtMem :=
  (List.range ((range.sz + (gb - 1)) / gb)).foldl
    (fun T i =>
      let addr := range.start + i * gb
      mapGiga (mapGiga T root addr addr .rwx) root (pa2hka addr) addr .rwx) T

def kernelSetup (b : GigaBoard) (T : PtMem) (root : ℕ) : PtMem :=
  b.memRanges.foldl (mapRegion root) T

/-- The walk of the hardware for a load or a store of the kernel. The bit that forbids it the pages
of users is off. -/
def walkPa (T : PtMem) (va : ℕ) : ℕ → ℕ → Option ℕ
  | 0, pt =>
    let pte := T pt (vpn 0 va)
    if Pte.valid pte = true ∧ Pte.leaf pte = true then pageAddr pte 0 else none
  | level + 1, pt =>
    let pte := T pt (vpn (level + 1) va)
    if Pte.valid pte = false then none
    else if Pte.leaf pte = true then pageAddr pte (level + 1)
    else walkPa T va level (Pte.pa pte)
where
  /-- A page must be aligned to its size. -/
  pageAddr (pte : Pte) (level : ℕ) : Option ℕ :=
    if Pte.read pte = true ∧ Pte.write pte = true ∧ 2 ^ (12 + 9 * level) ∣ Pte.pa pte then
      some (Pte.pa pte + va % 2 ^ (12 + 9 * level))
    else none

/-- The upper bits of an address are all the same. -/
def Canonical (va : ℕ) : Prop := va < 2 ^ 38 ∨ highmemBase ≤ va ∧ va < 2 ^ 64

instance (va : ℕ) : Decidable (Canonical va) := inferInstanceAs (Decidable (_ ∨ _))

def translate (T : PtMem) (root va : ℕ) : Option ℕ :=
  if Canonical va then walkPa T va 2 root else none

/-- The two assertions of `kmain`. Addresses are compared as they are. -/
def Accepted (boot : BootSlice) (heap : ℕ) : Prop :=
  (boot.ptr ≤ boot.entry ∧ 0 < boot.length) ∧ heap ≤ boot.entry

instance (boot : BootSlice) (heap : ℕ) : Decidable (Accepted boot heap) :=
  inferInstanceAs (Decidable (_ ∧ _))

/-- The copy of the bytes below `n`. An address that is not mapped is a fault. -/
def copyLoop (tr : ℕ → Option ℕ) (boot : BootSlice) : ℕ → Mem → Option Mem
  | 0, m => some m
  | i + 1, m => do
    let src ← tr ((boot.ptr + i) % 2 ^ 64)
    let dst ← tr ((boot.entry + i) % 2 ^ 64)
    copyLoop tr boot i (Function.update m dst (m src))

/-- The memory with which `kmain` jumps to the entry point, if it comes to that. -/
def kmain (tr : ℕ → Option ℕ) (heap : ℕ) (boot : BootSlice) (m : Mem) : Option Mem :=
  if Accepted boot heap then copyLoop tr boot boot.length m else none

/-- The bytes at the entry point are those of the payload before the copy. -/
def Relocated (tr : ℕ → Option ℕ) (heap : ℕ) (boot : BootSlice) (m : Mem) : Prop :=
  ∃ m', kmain tr heap boot m = some m' ∧ ∀ i < boot.length,
    ∃ src ∈ tr ((boot.ptr + i) % 2 ^ 64), ∃ dst ∈ tr ((boot.entry + i) % 2 ^ 64), m' dst = m src

namespace GigaBoard

variable (b : GigaBoard)

/-- The gigapages of the board. -/
def gigas : List ℕ := b.memRanges.flatMap fun range =>
  (List.range ((range.sz + (gb - 1)) / gb)).map fun i => range.start + i * gb

/-- An address that is in the board's memory, or in its copy for the kernel. -/
def Mapped (va : ℕ) : Prop := Canonical va ∧ ∃ a ∈ b.gigas, a / gb = va % 2 ^ 38 / gb

instance (va : ℕ) : Decidable (b.Mapped va) := inferInstanceAs (Decidable (_ ∧ _))

/-- A valid entry for the gigapage at `a`. -/
structure Giga (e : Pte) (a : ℕ) : Prop where
  valid : Pte.valid e = true
  leaf : Pte.leaf e = true
  pa : Pte.pa e = a
  read : Pte.read e = true
  write : Pte.write e = true

/-- The root table when the gigapages `l` have been mapped in both places. -/
def Done (root : ℕ) (l : List ℕ) (T : PtMem) : Prop := ∀ i < 512,
  if ∃ a ∈ l, a / gb = i % 256 then Giga (T root i) (i % 256 * gb) else T root i = 0

variable {b} {T : PtMem} {root va a i : ℕ} {l : List ℕ}

theorem access_mapped {e : Pte} : Pte.read (Pte.mapped e a .rwx) = true ∧
    Pte.write (Pte.mapped e a .rwx) = true := by
  unfold Pte.read Pte.write Pte.mapped
  rw [flag_eq _ (by decide), flag_eq _ (by decide), getLsbD_validate, getLsbD_validate,
    getLsbD_setPerm, getLsbD_setPerm]
  exact ⟨rfl, rfl⟩

theorem giga_mapGiga (T : PtMem) (root va : ℕ) (ha : a < 2 ^ 38) (hal : gb ∣ a) :
    Giga (mapGiga T root va a .rwx root (vpn 2 va)) a ∧
      ∀ i ≠ vpn 2 va, mapGiga T root va a .rwx root i = T root i := by
  have hmap := mapGiga_eq T root va a .rwx []
  have hw : mapGiga T root va a .rwx =
      Radix.write T root (vpn 2 va) (Pte.mapped (T root (vpn 2 va)) a .rwx) :=
    (Prod.mk.inj (Prod.mk.inj hmap).2).1.symm
  obtain ⟨hleaf, hpa, -⟩ := mapped_spec (e := T root (vpn 2 va)) (p := .rwx)
    (ha.trans (by decide)) (Dvd.dvd.trans (by decide) hal) (by decide)
  rw [hw, Radix.write, Function.update_self, Function.update_self]
  refine ⟨⟨valid_mapped, hleaf, hpa, access_mapped.1, access_mapped.2⟩, fun i hi => ?_⟩
  exact Function.update_of_ne hi _ _

theorem Done.step (h : Done root l T) (ha : a < 2 ^ 38) (hal : gb ∣ a) :
    Done root (a :: l) (mapGiga (mapGiga T root a a .rwx) root (pa2hka a) a .rwx) := by
  obtain ⟨hlow, hkeep⟩ := giga_mapGiga T root a ha hal
  obtain ⟨hhigh, hkeep'⟩ := giga_mapGiga (mapGiga T root a a .rwx) root (pa2hka a) ha hal
  have hgb : gb = 2 ^ 30 := rfl
  have hi : vpn 2 a = a / gb := by
    rw [vpn_eq, hgb]
    omega
  have hi' : vpn 2 (pa2hka a) = 256 + a / gb := by
    rw [vpn_eq, pa2hka, highmemBase, hgb]
    omega
  have hpa : a / gb * gb = a := Nat.div_mul_cancel hal
  have hlt : a / gb < 256 := by
    rw [hgb]
    omega
  rw [hi] at hlow hkeep
  rw [hi'] at hhigh hkeep'
  intro i hi
  rcases eq_or_ne i (256 + a / gb) with rfl | hne
  · have hmod : (256 + a / gb) % 256 = a / gb := by omega
    rw [hmod, hpa, if_pos ⟨a, List.mem_cons_self, rfl⟩]
    exact hhigh
  rw [hkeep' i hne]
  rcases eq_or_ne i (a / gb) with rfl | hne'
  · rw [Nat.mod_eq_of_lt hlt, hpa, if_pos ⟨a, List.mem_cons_self, rfl⟩]
    exact hlow
  rw [hkeep i hne']
  have hother : a / gb ≠ i % 256 := by omega
  have hiff : (∃ a' ∈ a :: l, a' / gb = i % 256) ↔ ∃ a' ∈ l, a' / gb = i % 256 := by
    simp [hother]
  rw [if_congr hiff rfl rfl]
  exact h i hi

theorem Done.foldl {l' : List ℕ} (h : Done root l T) (hl' : ∀ a ∈ l', a < 2 ^ 38 ∧ gb ∣ a) :
    Done root (l'.reverse ++ l) (l'.foldl (fun T addr =>
      mapGiga (mapGiga T root addr addr .rwx) root (pa2hka addr) addr .rwx) T) := by
  induction l' generalizing l T with
  | nil => exact h
  | cons a l' ih =>
    rw [List.reverse_cons, List.append_assoc]
    obtain ⟨ha, hal⟩ := hl' a List.mem_cons_self
    exact ih (h.step ha hal) fun a ha => hl' a (List.mem_cons_of_mem _ ha)

theorem gigas_spec : ∀ a ∈ b.gigas, a < 2 ^ 38 ∧ gb ∣ a := by
  intro a ha
  obtain ⟨r, hr, ha⟩ := List.mem_flatMap.mp ha
  obtain ⟨i, hi, rfl⟩ := List.mem_map.mp ha
  have hb := b.bounded r hr
  have hg := b.giga r hr
  have hgb : gb = 2 ^ 30 := rfl
  rw [List.mem_range, hgb] at hi
  rw [hgb] at hg ⊢
  exact ⟨by omega, Nat.dvd_add hg (Nat.dvd_mul_left _ _)⟩

theorem kernelSetup_eq (b : GigaBoard) (T : PtMem) (root : ℕ) : kernelSetup b T root =
    b.gigas.foldl (fun T addr =>
      mapGiga (mapGiga T root addr addr .rwx) root (pa2hka addr) addr .rwx) T := by
  simp only [gigas, List.foldl_flatMap, List.foldl_map]
  rfl

theorem done_kernelSetup (b : GigaBoard) (h : ∀ i, T root i = 0) :
    Done root b.gigas.reverse (kernelSetup b T root) := by
  have hinit : Done root [] T := fun i _ => by
    rw [if_neg (by simp)]
    exact h i
  have hdone := hinit.foldl (gigas_spec (b := b))
  rwa [List.append_nil, ← kernelSetup_eq] at hdone

theorem vpn_mod (va : ℕ) : vpn 2 va < 512 ∧ vpn 2 va % 256 = va % 2 ^ 38 / gb := by
  have hgb : gb = 2 ^ 30 := rfl
  rw [vpn_eq, hgb]
  omega

/-- Memory is where it was, and once more for the kernel. -/
theorem translate_of_mapped (h : ∀ i, T root i = 0) (hm : b.Mapped va) :
    translate (kernelSetup b T root) root va = some (va % 2 ^ 38) := by
  have hgb : gb = 2 ^ 30 := rfl
  obtain ⟨hlt, hi⟩ := vpn_mod va
  have hdone := done_kernelSetup b h (vpn 2 va) hlt
  simp only [List.mem_reverse, hi] at hdone
  rw [if_pos hm.2] at hdone
  rw [translate, if_pos hm.1, walkPa, if_neg (by rw [hdone.valid]; decide), if_pos hdone.leaf,
    walkPa.pageAddr, hdone.pa, if_pos ⟨hdone.read, hdone.write, Dvd.intro_left _ rfl⟩, hgb]
  congr 1
  omega

theorem translate_of_not_mapped (h : ∀ i, T root i = 0) (hm : ¬ b.Mapped va) :
    translate (kernelSetup b T root) root va = none := by
  by_cases hc : Canonical va
  · obtain ⟨hlt, hi⟩ := vpn_mod va
    have hdone := done_kernelSetup b h (vpn 2 va) hlt
    simp only [List.mem_reverse, hi] at hdone
    rw [if_neg fun hex => hm ⟨hc, hex⟩] at hdone
    rw [translate, if_pos hc, walkPa, hdone]
    rfl
  · exact if_neg hc

end GigaBoard

/-! ### The copy -/

variable {tr : ℕ → Option ℕ} {boot : BootSlice} {m m' : Mem} {n : ℕ} {s d : ℕ → ℕ}

/-- Where nothing faults, physical bytes are copied from the last one on. -/
theorem copyLoop_eq (hs : ∀ i < n, tr ((boot.ptr + i) % 2 ^ 64) = some (s i))
    (hd : ∀ i < n, tr ((boot.entry + i) % 2 ^ 64) = some (d i)) :
    copyLoop tr boot n m = some (copyDown s d n m) := by
  induction n generalizing m with
  | zero => rfl
  | succ n ih =>
    rw [copyLoop, hs n (Nat.lt_succ_self n), hd n (Nat.lt_succ_self n)]
    exact ih (fun i hi => hs i (Nat.lt_succ_of_lt hi)) fun i hi => hd i (Nat.lt_succ_of_lt hi)

/-- The loop ends with the payload at its place if and only if both ranges are mapped and a byte
that is overwritten before it is read was what it is overwritten with. The copy that goes down reads
nothing too late where the destination does not begin below the source in physical memory. -/
theorem relocated_iff {b : GigaBoard} {T : PtMem} {root heap : ℕ} (h : ∀ i, T root i = 0)
    (ha : Accepted boot heap) : Relocated (translate (kernelSetup b T root) root) heap boot m ↔
      (∀ i < boot.length,
        b.Mapped ((boot.ptr + i) % 2 ^ 64) ∧ b.Mapped ((boot.entry + i) % 2 ^ 64)) ∧
      ∀ i < boot.length, ∀ k < i, (boot.entry + i) % 2 ^ 38 = (boot.ptr + k) % 2 ^ 38 →
        m ((boot.ptr + i) % 2 ^ 38) = m ((boot.ptr + k) % 2 ^ 38) := by
  have hmod (a : ℕ) : a % 2 ^ 64 % 2 ^ 38 = a % 2 ^ 38 := by omega
  have hcopy (hm : ∀ i < boot.length,
      b.Mapped ((boot.ptr + i) % 2 ^ 64) ∧ b.Mapped ((boot.entry + i) % 2 ^ 64)) :
      ∀ i < boot.length,
        translate (kernelSetup b T root) root ((boot.ptr + i) % 2 ^ 64) =
          some ((boot.ptr + i) % 2 ^ 38) ∧
        translate (kernelSetup b T root) root ((boot.entry + i) % 2 ^ 64) =
          some ((boot.entry + i) % 2 ^ 38) := fun i hi => by
    rw [GigaBoard.translate_of_mapped h (hm i hi).1, GigaBoard.translate_of_mapped h (hm i hi).2,
      hmod, hmod]
    exact ⟨rfl, rfl⟩
  have hlen := boot.length_lt
  have hinj : ∀ i < boot.length, ∀ k < boot.length,
      (boot.entry + i) % 2 ^ 38 = (boot.entry + k) % 2 ^ 38 → i = k := fun i hi k hk he => by
    omega
  constructor
  · rintro ⟨m', hm', hbytes⟩
    have hm : ∀ i < boot.length,
        b.Mapped ((boot.ptr + i) % 2 ^ 64) ∧ b.Mapped ((boot.entry + i) % 2 ^ 64) := by
      intro i hi
      obtain ⟨src, hsrc, dst, hdst, -⟩ := hbytes i hi
      constructor
      · by_contra hc
        rw [GigaBoard.translate_of_not_mapped h hc] at hsrc
        cases hsrc
      · by_contra hc
        rw [GigaBoard.translate_of_not_mapped h hc] at hdst
        cases hdst
    have hall := hcopy hm
    rw [kmain, if_pos ha, copyLoop_eq (fun i hi => (hall i hi).1) fun i hi => (hall i hi).2] at hm'
    cases hm'
    refine ⟨hm, (copyDown.copied_iff hinj).mp fun i hi => ?_⟩
    obtain ⟨src, hsrc, dst, hdst, heq⟩ := hbytes i hi
    rw [(hall i hi).1] at hsrc
    rw [(hall i hi).2] at hdst
    cases hsrc
    cases hdst
    exact heq
  · rintro ⟨hm, hsame⟩
    have hall := hcopy hm
    refine ⟨_, (if_pos ha).trans
      (copyLoop_eq (fun i hi => (hall i hi).1) fun i hi => (hall i hi).2), fun i hi => ?_⟩
    exact ⟨_, (hall i hi).1, _, (hall i hi).2, (copyDown.copied_iff hinj).mpr hsame i hi⟩

/-- The board `virt`. -/
def gigaVirt : GigaBoard := { virt with giga := by decide }

/-- A payload for the kernel's address of the memory that begins 16 bytes below it. -/
def below (length : ℕ) (h : length < 2 ^ 32) : BootSlice :=
  ⟨highmemBase + 0x80210000, 0x80210010, length, h⟩

/-- Sixteen bytes fit in front of themselves. -/
theorem relocated_iff_apart :
    Relocated (translate (kernelSetup gigaVirt (fun _ _ => 0) 0) 0) 0x80230000
      (below 16 (by decide)) fun x => BitVec.ofNat 8 x := by
  refine (relocated_iff (fun _ => rfl) (by decide)).mpr ⟨by decide, fun i hi k hk he => ?_⟩
  change i < 16 at hi
  change (highmemBase + 0x80210000 + i) % 2 ^ 38 = (0x80210010 + k) % 2 ^ 38 at he
  rw [highmemBase] at he
  omega

theorem not_relocated_below :
    Accepted (below 20 (by decide)) 0x80230000 ∧
    ¬ Relocated (translate (kernelSetup gigaVirt (fun _ _ => 0) 0) 0) 0x80230000
      (below 20 (by decide)) fun x => BitVec.ofNat 8 x := by
  refine ⟨by decide, fun h => ?_⟩
  have hsame := ((relocated_iff (fun _ => rfl) (by decide)).mp h).2 16 (by decide) 0 (by decide)
    (by decide)
  exact absurd hsame (by decide)

end Multiplix.Boot
