import Multiplix.Proc.Fork
import Multiplix.Vm.Sv39

/-! The check of user buffers in `plix.sysfile`. -/
namespace Multiplix.Proc
open Lib Vm

/-- The loop of `checkaddr`, from an address on and up to `stop`. -/
def checkaddrLoop (ops : PteOps) (T : PtMem) (pt : ℕ) (stop : BitVec 64) :
    ℕ → BitVec 64 → Option Bool
  | 0, _ => none
  | n + 1, va =>
    if va < stop then
      match ops.lookup T pt va.toNat with
      | none => some false
      | some vmap =>
        if vmap.user ops T = false then some false
        else checkaddrLoop ops T pt stop n (va + BitVec.ofNat 64 pagesize)
    else some true

/-- `checkaddr`, unless more than `n` turns of its loop are needed. -/
def checkaddr (ops : PteOps) (T : PtMem) (pt n : ℕ) (addr sz : BitVec 64) : Option Bool :=
  let overflow := addr + sz
  if overflow < addr ∨ maxVa ≤ addr.toNat then some false
  else checkaddrLoop ops T pt (addr + sz) n (addr - (addr &&& 0xFFF))

/-- The first page that the check looks at. -/
theorem pageStart_eq (addr : BitVec 64) :
    addr - (addr &&& 0xFFF) = BitVec.ofNat 64 (addr.toNat / 4096 * 4096) := by
  have hlt := addr.isLt
  have hand : (addr &&& 0xFFF).toNat = addr.toNat % 4096 := by
    rw [BitVec.toNat_and]
    exact Nat.and_two_pow_sub_one_eq_mod addr.toNat 12
  have hle : addr &&& 0xFFF ≤ addr := by
    rw [BitVec.le_def, hand]
    exact Nat.mod_le _ _
  apply BitVec.eq_of_toNat_eq
  rw [BitVec.toNat_sub_of_le hle, hand, BitVec.toNat_ofNat]
  omega

namespace Riscv64
open Vm.Riscv64

variable {T : PtMem} {root k n : ℕ} {stop addr sz : BitVec 64}

private theorem next_page {a : ℕ} (h : k * 4096 ≤ a) (ha : a / 4096 ≠ k * 4096 / 4096) :
    (k + 1) * 4096 ≤ a := by
  rw [Nat.mul_div_cancel k (by decide)] at ha
  have hle : k ≤ a / 4096 := (Nat.le_div_iff_mul_le (by decide)).mpr h
  exact (Nat.le_div_iff_mul_le (by decide)).mp (lt_of_le_of_ne hle (Ne.symm ha))

/-- From a page below the limit on, the loop ends, and says whether all bytes up to `stop` are
mapped for users. -/
theorem checkaddrLoop_eq (h : Built root T)
    (hlow : ∀ va < 2 ^ 39, UserMapped T root va → va < maxVa) (hk : k ≤ userPages)
    (hn : userPages - k + 1 < n) : ∃ b,
      checkaddrLoop pteOps T root stop n (BitVec.ofNat 64 (k * 4096)) = some b ∧
      (b = true ↔ ∀ a, k * 4096 ≤ a → a < stop.toNat → UserMapped T root a) := by
  obtain ⟨used, hroot, hs⟩ := h.sound
  have hmax := maxVa_eq
  have hpages := userPages_lt
  induction n generalizing k with
  | zero => omega
  | succ n ih =>
    have hva : (BitVec.ofNat 64 (k * 4096)).toNat = k * 4096 := by
      rw [BitVec.toNat_ofNat, Nat.mod_eq_of_lt (by omega)]
    have hstop : BitVec.ofNat 64 (k * 4096) < stop ↔ k * 4096 < stop.toNat := by
      rw [BitVec.lt_def, hva]
    rw [checkaddrLoop]
    by_cases hlt : k * 4096 < stop.toNat
    · rw [if_pos (hstop.mpr hlt), hva]
      by_cases huser : UserMapped T root (k * 4096)
      · have hbelow := hlow (k * 4096) (by omega) huser
        obtain ⟨m, hm, hu⟩ := (hs.lookup_user hroot (k * 4096)).mpr huser
        have hnext : BitVec.ofNat 64 (k * 4096) + BitVec.ofNat 64 pagesize =
            BitVec.ofNat 64 ((k + 1) * 4096) := by
          rw [← BitVec.ofNat_add, Nat.succ_mul]
          rfl
        obtain ⟨b, hb, hiff⟩ := ih (k := k + 1) (by omega) (by omega)
        rw [Option.mem_def.mp hm, hnext]
        dsimp only
        rw [if_neg (by rw [hu]; exact Bool.noConfusion)]
        refine ⟨b, hb, hiff.trans ⟨fun hall a h1 h2 => ?_, fun hall a h1 h2 => ?_⟩⟩
        · by_cases ha : a / 4096 = k * 4096 / 4096
          · exact (userMapped_page ha).mpr huser
          · exact hall a (next_page h1 ha) h2
        · exact hall a ((Nat.mul_le_mul_right 4096 (Nat.le_succ k)).trans h1) h2
      · refine ⟨false, ?_, fun hc => Bool.noConfusion hc, fun hall =>
          absurd (hall (k * 4096) le_rfl hlt) huser⟩
        rcases hl : pteOps.lookup T root (k * 4096) with _ | m
        · rfl
        · refine if_pos (Bool.eq_false_iff.mpr fun hu => huser ?_)
          exact (hs.lookup_user hroot (k * 4096)).mp ⟨m, hl, hu⟩
    · rw [if_neg fun hc => hlt (hstop.mp hc)]
      exact ⟨true, rfl, fun _ a h1 h2 => by omega, fun _ => rfl⟩

/-- `checkaddr` ends for every buffer. Where the user's pages are below the limit, it accepts a
buffer if and only if its end does not wrap around, it starts below the limit, and all of its bytes
are mapped for users. -/
theorem checkaddr_iff (h : Built root T) (hlow : ∀ va < 2 ^ 39, UserMapped T root va → va < maxVa)
    (addr sz : BitVec 64) :
    ∃ b, (∀ n, userPages + 1 < n → checkaddr pteOps T root n addr sz = some b) ∧
      (1 ≤ sz.toNat → (b = true ↔ addr.toNat + sz.toNat < 2 ^ 64 ∧ addr.toNat < maxVa ∧
        ∀ a, addr.toNat ≤ a → a < addr.toNat + sz.toNat → UserMapped T root a)) := by
  have hlt := addr.isLt
  have hlt' := sz.isLt
  have hsum : (addr + sz).toNat = (addr.toNat + sz.toNat) % 2 ^ 64 := BitVec.toNat_add addr sz
  have hoverflow : addr + sz < addr ↔ 2 ^ 64 ≤ addr.toNat + sz.toNat := by
    rw [BitVec.lt_def, hsum]
    omega
  by_cases hbad : 2 ^ 64 ≤ addr.toNat + sz.toNat ∨ maxVa ≤ addr.toNat
  · refine ⟨false, fun n _ => if_pos (hbad.imp_left hoverflow.mpr), fun _ =>
      ⟨fun hc => Bool.noConfusion hc, fun ⟨h1, h2, _⟩ => by omega⟩⟩
  · have hk : addr.toNat / 4096 ≤ userPages := by
      have hmax := maxVa_eq
      omega
    have hok : ¬ (addr + sz < addr ∨ maxVa ≤ addr.toNat) :=
      fun hc => hbad (hc.imp_left hoverflow.mp)
    have hstop : (addr + sz).toNat = addr.toNat + sz.toNat := by omega
    have hloop : ∀ n, userPages + 1 < n → ∃ b, checkaddr pteOps T root n addr sz = some b ∧
        (b = true ↔ ∀ a, addr.toNat / 4096 * 4096 ≤ a → a < addr.toNat + sz.toNat →
          UserMapped T root a) := fun n hn => by
      unfold checkaddr
      rw [if_neg hok, pageStart_eq, ← hstop]
      exact checkaddrLoop_eq h hlow hk (by omega)
    obtain ⟨b, hb, hiff⟩ := hloop (userPages + 2) (Nat.lt_succ_self _)
    refine ⟨b, fun n hn => ?_, fun hsz => hiff.trans ⟨fun hall => ?_, fun hall a h1 h2 => ?_⟩⟩
    · obtain ⟨b', hb', hiff'⟩ := hloop n hn
      rw [hb', Bool.eq_iff_iff.mpr (hiff'.trans hiff.symm)]
    · exact ⟨by omega, by omega, fun a h1 h2 => hall a (by omega) h2⟩
    · by_cases ha : addr.toNat ≤ a
      · exact hall.2.2 a ha h2
      · have hsame : a / 4096 = addr.toNat / 4096 := by omega
        exact (userMapped_page hsame).mpr (hall.2.2 addr.toNat le_rfl (by omega))

/-- A gigapage for users at address 0. -/
theorem checkaddr_iff_giga : ∃ T, Built 4096 T ∧ ∃ b,
    (∀ n, userPages + 1 < n → checkaddr pteOps T 4096 n 0x1000 0x2000 = some b) ∧
    (1 ≤ (0x2000 : BitVec 64).toNat → (b = true ↔
      (0x1000 : BitVec 64).toNat + (0x2000 : BitVec 64).toNat < 2 ^ 64 ∧
      (0x1000 : BitVec 64).toNat < maxVa ∧ ∀ a, (0x1000 : BitVec 64).toNat ≤ a →
        a < (0x1000 : BitVec 64).toNat + (0x2000 : BitVec 64).toNat → UserMapped T 4096 a)) := by
  have hb : Built 4096 (mapGiga (fun _ _ => 0) 4096 0 0x80000000 .urw) :=
    .mapGiga (.init fun _ => rfl) (by decide)
  refine ⟨_, hb, checkaddr_iff hb (fun va hva huser => ?_) _ _⟩
  obtain ⟨pte, hpte, -⟩ := huser
  have hzero : vpn 2 va = 0 := by
    by_contra hne
    have hentry : mapGiga (fun _ _ => 0) 4096 0 0x80000000 .urw 4096 (vpn 2 va) = 0 := by
      unfold mapGiga Radix.write
      rw [Function.update_self]
      exact Function.update_of_ne hne ..
    rw [sv39, hentry] at hpte
    exact absurd hpte (Option.not_mem_none pte)
  rw [vpn_eq] at hzero
  have hmax : maxVa = 0x7fff1000 := rfl
  omega

end Riscv64
end Multiplix.Proc
