import Multiplix.Vm.Aarch64

/-! The descriptors that the AArch64 page table writes, read in the layout that the architecture
gives to stage 1 leaf descriptors. The layout is stated here by bit numbers and does not use the
fields of `Pte`. -/
namespace Multiplix.Vm.Aarch64
open Core

/-- What `map_giga` writes over an entry. Unlike `map` it sets the permissions last. -/
def Pte.mappedGiga (memType : ℕ → BitVec 64) (e : Pte) (a : ℕ) (p : Perm) : Pte :=
  let e := setPa e a
  let e := setValid e true
  let e := setTable e false
  let e := setPerm e p
  let e := setAf e true
  let e := setSh e 3
  setIndex e (memType a)

/-- What a leaf descriptor means to the MMU. -/
structure Descriptor where
  valid : Bool
  output : ℕ
  /-- EL0 data access -/
  user : Bool
  write : Bool
  execUser : Bool
  /-- EL1 execution is not forbidden -/
  execKernel : Bool
  deriving DecidableEq

/-- AP[1] is bit 6, AP[2] bit 7, PXN bit 53 and UXN bit 54; the output address is in bits 47
to 12. -/
def decode (d : BitVec 64) : Descriptor where
  valid := d.getLsbD 0
  output := d.toNat / 2 ^ 12 % 2 ^ 36 * 2 ^ 12
  user := d.getLsbD 6
  write := !d.getLsbD 7
  execUser := !d.getLsbD 54
  execKernel := !d.getLsbD 53

/-- What a mapping asks for. -/
def asked (a : ℕ) (p : Perm) : Descriptor where
  valid := true
  output := a
  user := p.has .u
  write := p.has .w
  execUser := p.has .x && p.has .u
  execKernel := p.has .x

/-- The requests that the descriptor keeps: the two execution bits are written one place too
high, so bit 54 gets the complement of `x` and bit 53 stays what it was. -/
def Meant (prev : Pte) (p : Perm) : Prop :=
  (p.has .x = true → p.has .u = true) ∧ prev.getLsbD 53 = !p.has .x

section Decode

variable {e d : Pte} {a : ℕ} {p : Perm}

theorem getLsbD_mappedGiga (memType : ℕ → BitVec 64) (e : Pte) (a : ℕ) (p : Perm) (i : ℕ) :
    (Pte.mappedGiga memType e a p).getLsbD i =
      if 2 ≤ i ∧ i < 5 then (memType a).getLsbD (i - 2)
      else if 8 ≤ i ∧ i < 10 then (3 : BitVec 64).getLsbD (i - 8) else if i = 10 then true
      else (Pte.setPerm (Pte.setTable (Pte.setValid (Pte.setPa e a) true) false) p).getLsbD i := by
  simp only [Pte.mappedGiga, Pte.setIndex, Pte.setAf, Pte.setSh,
    getLsbD_setField _ _ (by decide : 3 < 64) (by decide : 2 + 3 ≤ 64),
    getLsbD_setField _ _ (by decide : 2 < 64) (by decide : 8 + 2 ≤ 64),
    getLsbD_setFlag _ _ (by decide : 1 < 64) (by decide : 10 < 64)]

/-- The output address from the bits of a page-aligned address. -/
theorem output_eq (ha : a < 2 ^ 48) (hal : 4096 ∣ a)
    (h : ∀ i, 12 ≤ i → i < 48 → d.getLsbD i = a.testBit i) : (decode d).output = a := by
  refine Nat.eq_of_testBit_eq fun i => ?_
  simp only [decode, Nat.testBit_mul_two_pow, Nat.testBit_mod_two_pow, Nat.testBit_div_two_pow]
  by_cases hlo : 12 ≤ i
  · by_cases hhi : i < 48
    · rw [show i - 12 + 12 = i by omega, BitVec.testBit_toNat, h i hlo hhi]
      simp [hlo, show i - 12 < 36 by omega]
    · simp [testBit_eq_false_of_lt ha (not_lt.mp hhi), show ¬ i - 12 < 36 by omega]
  · simp [hlo, testBit_of_aligned hal (not_le.mp hlo)]

/-- A descriptor with the bits that both functions leave means what was asked exactly when the
request is one that survives the shift. -/
theorem decode_eq_iff (ha : a < 2 ^ 48) (hal : 4096 ∣ a) (hv : d.getLsbD 0 = true)
    (haddr : ∀ i, 12 ≤ i → i < 48 → d.getLsbD i = a.testBit i)
    (hap : ∀ i, 6 ≤ i → i < 8 → d.getLsbD i = (apOf p).getLsbD (i - 6))
    (h53 : d.getLsbD 53 = e.getLsbD 53) (h54 : d.getLsbD 54 = !p.has .x) :
    decode d = asked a p ↔ Meant e p := by
  have huser : (apOf p).getLsbD 0 = p.has .u ∧ (apOf p).getLsbD 1 = !p.has .w := by
    unfold apOf
    constructor <;> split_ifs <;> simp [*]
  have hout := output_eq ha hal haddr
  have h6 := hap 6 (by omega) (by omega)
  have h7 := hap 7 (by omega) (by omega)
  simp only [Nat.reduceSub, huser] at h6 h7
  simp only [decode] at hout
  simp only [decode, asked, Descriptor.mk.injEq, hv, hout, h6, h7, h53, h54, Meant]
  cases p.has .x <;> cases p.has .u <;> simp

variable (memType : ℕ → BitVec 64) (l : PtLevel)

/-- For every previous word, address, level and permissions with `r`: what `map` and `map_giga`
write is what was asked exactly for the requests that survive the shift of the execution bits. -/
theorem decode_mapped_iff (e : Pte) (ha : a < 2 ^ 48) (hal : 4096 ∣ a) (hr : p.has .r = true) :
    (decode (Pte.mapped memType e a l p) = asked a p ↔ Meant e p) ∧
      (decode (Pte.mappedGiga memType e a p) = asked a p ↔ Meant e p) := by
  have hmap := getLsbD_mapped memType e a l p
  have hgiga := getLsbD_mappedGiga memType e a p
  simp only [getLsbD_setPerm, getLsbD_setPa, Pte.setTable, Pte.setValid,
    getLsbD_setFlag _ _ (by decide : 1 < 64) (by decide : 1 < 64),
    getLsbD_setFlag _ _ (by decide : 1 < 64) (by decide : 0 < 64)] at hmap hgiga
  constructor
  · refine decode_eq_iff ha hal ?_ (fun i h1 h2 => ?_) (fun i h1 h2 => ?_) ?_ ?_
    · rw [hmap]
      simp
    · rw [hmap]
      grind
    · rw [hmap]
      grind
    · rw [hmap]
      simp
    · rw [hmap]
      simp
  · refine decode_eq_iff ha hal ?_ (fun i h1 h2 => ?_) (fun i h1 h2 => ?_) ?_ ?_
    · rw [hgiga]
      simp [hr]
    · rw [hgiga]
      grind
    · rw [hgiga]
      grind
    · rw [hgiga]
      simp
    · rw [hgiga]
      simp

/-- Code for users in an entry that was zero is described as asked. -/
theorem decode_mapped_urx :
    (decode (Pte.mapped (fun _ => 0) 0 4096 .normal .urx) = asked 4096 .urx ↔ Meant 0 .urx) ∧
      (decode (Pte.mappedGiga (fun _ => 0) 0 4096 .urx) = asked 4096 .urx ↔ Meant 0 .urx) :=
  decode_mapped_iff (fun _ => 0) .normal 0 (by decide) (by decide) (by decide)

/-- Kernel code, mapped without `u`, is executable at EL0. -/
theorem decode_mapped_rwx :
    (decode (Pte.mapped (fun _ => 0) 0 4096 .normal .rwx)).execUser = true ∧
      decode (Pte.mapped (fun _ => 0) 0 4096 .normal .rwx) ≠ asked 4096 .rwx := by
  decide

end Decode

end Multiplix.Vm.Aarch64
