import Multiplix.Proc.Checkaddr
import Multiplix.Proc.ForkPerms

/-! The memory of a process as its system calls find it, and the pages that `checkaddr` accepts. -/
namespace Multiplix.Sys
open Lib Vm Proc

section UserMemory

variable (P : Platform) (T : PtMem) (r a : ℕ)

/-- A byte that the process has mapped. -/
def UserByte : Prop := ∃ x, userPage P T r a = some x

/-- A byte that the process may write. -/
def Writable : Prop := ∃ x ∈ userPage P T r a, x.perm.has .w = true

/-- A byte of a page that is to be copied before it is written. -/
def Shared : Prop := ∃ x ∈ userPage P T r a, x.perm.has .cow = true

/-- The entry for the byte is an empty one of the last level. -/
def Hole : Prop := ∃ map ∈ P.ops.lookup T r a, P.ops.valid (T map.pte.1 map.pte.2) = false

/-- What `checkaddr` asks of a page. -/
def Accepted : Prop := ∃ map ∈ P.ops.lookup T r a, map.user P.ops T = true

end UserMemory

variable {P : Platform} {T : PtMem} {r a n : ℕ} {addr sz stop : BitVec 64}

/-- An entry that is found is a leaf. -/
theorem lookup_entry {q : Pte → Prop} : (∃ map ∈ P.ops.lookup T r a, q (T map.pte.1 map.pte.2)) ↔
    ∃ x ∈ P.ops.radix.lookup T r a, P.ops.leaf x.2 (.ofHeight (2 - x.1)) = true ∧ q x.2 := by
  rw [PteOps.lookup_eq, Radix.lookup]
  cases P.ops.radix.find T r a with
  | none => simp
  | some x =>
    have hidx : P.ops.radix.index x.1 a = vpn (2 - x.1) a := rfl
    rw [Option.bind_some, Option.map_some, hidx]
    by_cases hleaf : P.ops.leaf (T x.2 (vpn (2 - x.1) a)) (.ofHeight (2 - x.1)) = true
    · simp [hleaf]
    · simp [hleaf]

theorem accepted_iff : Accepted P T r a ↔ ∃ x ∈ P.ops.radix.lookup T r a,
    P.ops.leaf x.2 (.ofHeight (2 - x.1)) = true ∧ (P.ops.perm x.2).has .u = true :=
  lookup_entry (q := fun e => (P.ops.perm e).has .u = true)

theorem hole_iff : Hole P T r a ↔ ∃ x ∈ P.ops.radix.lookup T r a,
    P.ops.leaf x.2 (.ofHeight (2 - x.1)) = true ∧ P.ops.valid x.2 = false :=
  lookup_entry (q := fun e => P.ops.valid e = false)

/-- What the loop accepts, it accepts page by page. -/
theorem accepted_of_checkaddrLoop {k j : ℕ}
    (hc : checkaddrLoop P.ops T r stop n (BitVec.ofNat 64 (k * 4096)) = some true)
    (hk : k * 4096 < 2 ^ 64) (hkj : k ≤ j) (hj : j * 4096 < stop.toNat) :
    Accepted P T r (j * 4096) := by
  induction n generalizing k with
  | zero =>
    rw [checkaddrLoop] at hc
    exact absurd hc.symm (Option.some_ne_none true)
  | succ n ih =>
    have hva : (BitVec.ofNat 64 (k * 4096)).toNat = k * 4096 := by
      rw [BitVec.toNat_ofNat, Nat.mod_eq_of_lt hk]
    have hbelow : BitVec.ofNat 64 (k * 4096) < stop := by
      rw [BitVec.lt_def, hva]
      exact lt_of_le_of_lt (Nat.mul_le_mul_right 4096 hkj) hj
    rw [checkaddrLoop, if_pos hbelow, hva] at hc
    rcases hl : P.ops.lookup T r (k * 4096) with _ | map <;> rw [hl] at hc
    · exact absurd (Option.some.inj hc) Bool.false_ne_true
    · dsimp only at hc
      split_ifs at hc with huser
      · exact absurd (Option.some.inj hc) Bool.false_ne_true
      · rw [Bool.not_eq_false] at huser
        obtain rfl | hlt := eq_or_lt_of_le hkj
        · exact ⟨map, hl, huser⟩
        · have hnext : BitVec.ofNat 64 (k * 4096) + BitVec.ofNat 64 pagesize =
              BitVec.ofNat 64 ((k + 1) * 4096) := by
            rw [← BitVec.ofNat_add, Nat.succ_mul]
            rfl
          have hle : (k + 1) * 4096 ≤ j * 4096 := Nat.mul_le_mul_right 4096 hlt
          rw [hnext] at hc
          exact ih hc (hle.trans_lt (hj.trans stop.isLt)) hlt

/-- A buffer that `checkaddr` accepts begins below the limit, does not wrap around, and lies in
pages that it accepts. -/
theorem accepted_of_checkaddr (hc : checkaddr P.ops T r n addr sz = some true) :
    addr.toNat < maxVa ∧ addr.toNat + sz.toNat < 2 ^ 64 ∧
      ∀ k < sz.toNat, Accepted P T r (addr.toNat + k) := by
  have hsum : (addr + sz).toNat = (addr.toNat + sz.toNat) % 2 ^ 64 := BitVec.toNat_add addr sz
  have haddr := addr.isLt
  have hsz := sz.isLt
  unfold checkaddr at hc
  dsimp only at hc
  split_ifs at hc with hbad
  · exact absurd (Option.some.inj hc) Bool.false_ne_true
  rw [not_or, BitVec.lt_def, hsum] at hbad
  obtain ⟨hwrap, hmax⟩ := hbad
  rw [pageStart_eq] at hc
  refine ⟨by omega, by omega, fun k hk => ?_⟩
  have hpage : Accepted P T r ((addr.toNat + k) / 4096 * 4096) :=
    accepted_of_checkaddrLoop hc (by omega) (Nat.div_le_div_right (Nat.le_add_right _ _)) (by omega)
  rw [accepted_iff, ← Machine.lookup_page] at hpage
  exact accepted_iff.mpr hpage

/-! ### The pages of a process -/

section Formed

variable {s : Kernel} (h : s.Formed P) (hr : r ∈ s.roots) (ha : a.testBit 38 = false)

include h hr ha

/-- A page that is referenced is accepted. -/
theorem accepted_of_ref {p : ℕ} {w : Bool}
    (hl : s.machine.ref P s.roots (r, Machine.page a) = some (p, w)) :
    Accepted P s.machine.tables r a ∧ ∃ x, userPage P s.machine.tables r a = some x ∧ x.pa = p ∧
      x.perm.has .w = w ∧ x.perm.has .cow = !w := by
  obtain ⟨o, hs⟩ := h.machine.shape
  have hk : Machine.page a < 2 ^ 26 := by
    have hlt := Machine.mod_lt_of_testBit ha
    unfold Machine.page
    omega
  rw [accepted_iff, Machine.userPage_eq, Machine.lookup_page_mod]
  rcases hs.ref_cases hr hk with ⟨hnone, -⟩ | ⟨e, he, -, hentry, href⟩
  · exact absurd (hl.symm.trans hnone) (Option.some_ne_none _)
  · rw [hl] at href
    cases href
    rw [hentry]
    exact ⟨⟨_, rfl, he.leaf, he.user⟩, _, if_pos ⟨he.leaf, he.valid, he.user⟩, rfl, rfl, he.cow⟩

variable (hacc : Accepted P s.machine.tables r a)

include hacc

/-- A page that is accepted is a hole, or one of the process's, which is written or copied. -/
theorem accepted_cases : (Hole P s.machine.tables r a ∧ userPage P s.machine.tables r a = none) ∨
    ¬Hole P s.machine.tables r a ∧ ∃ x, userPage P s.machine.tables r a = some x ∧
      x.perm.has .cow = !x.perm.has .w := by
  obtain ⟨o, hs⟩ := h.machine.shape
  have hk : Machine.page a < 2 ^ 26 := by
    have hlt := Machine.mod_lt_of_testBit ha
    unfold Machine.page
    omega
  obtain ⟨x, hx, hleaf, -⟩ := accepted_iff.mp hacc
  rw [Machine.lookup_page_mod, Option.mem_def] at hx
  rw [hole_iff, Machine.userPage_eq, Machine.lookup_page_mod, hx]
  rcases hs.ref_cases hr hk with ⟨-, hnone | hzero⟩ | ⟨e, he, -, hentry, -⟩
  · rw [hnone] at hx
    exact absurd hx.symm (Option.some_ne_none x)
  · obtain rfl : (2, 0) = x := Option.some.inj (hzero.symm.trans hx)
    refine Or.inl ⟨⟨_, rfl, hleaf, P.ops.valid_zero⟩, if_neg fun hv => ?_⟩
    exact Bool.false_ne_true (P.ops.valid_zero.symm.trans hv.2.1)
  · obtain rfl : (2, e) = x := Option.some.inj (hentry.symm.trans hx)
    refine Or.inr ⟨?_, _, if_pos ⟨he.leaf, he.valid, he.user⟩, he.cow⟩
    rintro ⟨y, hy, -, hv⟩
    obtain rfl := Option.some.inj hy
    exact Bool.false_ne_true (hv.symm.trans he.valid)

theorem userByte_iff : UserByte P s.machine.tables r a ↔ ¬Hole P s.machine.tables r a := by
  rcases accepted_cases h hr ha hacc with ⟨hhole, hnone⟩ | ⟨hno, x, hx, -⟩
  · refine iff_of_false ?_ (not_not.mpr hhole)
    rintro ⟨x, hx⟩
    exact Option.some_ne_none x (hx.symm.trans hnone)
  · exact iff_of_true ⟨x, hx⟩ hno

theorem writable_iff : Writable P s.machine.tables r a ↔
    ¬Shared P s.machine.tables r a ∧ ¬Hole P s.machine.tables r a := by
  rcases accepted_cases h hr ha hacc with ⟨hhole, hnone⟩ | ⟨hno, x, hx, hcow⟩
  · refine iff_of_false ?_ fun hc => hc.2 hhole
    rintro ⟨x, hx, -⟩
    exact Option.some_ne_none x (hx.symm.trans hnone)
  · constructor
    · rintro ⟨y, hy, hw⟩
      refine ⟨?_, hno⟩
      rintro ⟨z, hz, hc⟩
      obtain rfl := Option.some.inj (hy.symm.trans hx)
      obtain rfl := Option.some.inj (hz.symm.trans hx)
      rw [hc, hw] at hcow
      exact absurd hcow Bool.noConfusion
    · rintro ⟨hshared, -⟩
      refine ⟨x, hx, ?_⟩
      by_contra hw
      rw [Bool.not_eq_true] at hw
      exact hshared ⟨x, hx, by rw [hcow, hw]; rfl⟩

end Formed

/-- The first bytes of a buffer that is accepted lie in the lower half of the address space. -/
theorem buffer_low {k : ℕ} (ha : a < maxVa) (hk : k < 2 ^ 31) :
    (a + k).testBit 38 = false ∧ (a + k) % 2 ^ 64 = a + k := by
  have hmax : maxVa = 0x7fff1000 := rfl
  exact ⟨Nat.testBit_lt_two_pow (by omega), Nat.mod_eq_of_lt (by omega)⟩

end Multiplix.Sys
