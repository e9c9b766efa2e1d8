import Multiplix.Core.BitRange
import Multiplix.Vm.Aarch64
import Multiplix.Vm.Riscv64

/-! The accessors of page-table entries do not interfere: what one of them sets, no other one
sees. -/
namespace Multiplix.Vm
open Core

/-- An entry has other permissions, and is as before in all else. -/
structure Rewritten (ops : PteOps) {α : Type} (attrs : Pte → α) (e e' : Pte) (p : Perm) :
    Prop where
  perm : ops.perm e' = p
  pa : ops.pa e' = ops.pa e
  attrs : attrs e' = attrs e

/-- The two setters, beside the other fields of an entry. -/
structure Independent (ops : PteOps) {α : Type} (attrs : Pte → α) : Prop where
  setPerm : ∀ e p, p.has .r = true → Rewritten ops attrs e (ops.setPerm e p) p
  pa_setPa : ∀ e a, a < 2 ^ ops.paBits → 4096 ∣ a → ops.pa (ops.setPa e a) = a
  perm_setPa : ∀ e a, a < 2 ^ ops.paBits → 4096 ∣ a → ops.perm (ops.setPa e a) = ops.perm e
  attrs_setPa : ∀ e a, attrs (ops.setPa e a) = attrs e
  comm : ∀ e p a, ops.setPa (ops.setPerm e p) a = ops.setPerm (ops.setPa e a) p
  /-- `make_from_parent` -/
  shared : ∀ e, Rewritten ops attrs e (ops.setPerm e (ops.perm e &&& ~~~Perm.w ||| Perm.cow))
    (ops.perm e &&& ~~~Perm.w ||| Perm.cow)
  /-- `pgflt_handler` -/
  owned : ∀ e, Rewritten ops attrs e (ops.setPerm e (ops.perm e &&& ~~~Perm.cow ||| Perm.w))
    (ops.perm e &&& ~~~Perm.cow ||| Perm.w)

theorem Perm.readable : ∀ q : Perm, q.has .r = true →
    (q &&& ~~~Perm.w ||| Perm.cow).has .r = true ∧
      (q &&& ~~~Perm.cow ||| Perm.w).has .r = true := by
  decide

theorem Perm.addIf_readable : ∀ (p q : Perm) (b : Bool), p.has .r = true →
    (p.addIf q b).has .r = true := by
  decide

namespace Riscv64

/-- The three parts of the address are of narrow types, and are widened before they are shifted. -/
theorem pa_getter (e : Pte) : Pte.pa e = (((getter e 10 9).setWidth 64 <<< 12) |||
    ((getter e 19 9).setWidth 64 <<< 21) ||| ((getter e 28 26).setWidth 64 <<< 30)).toNat := by
  rw [getter_setWidth (by decide), getter_setWidth (by decide), getter_setWidth (by decide)]
  rfl

/-- The fields of an entry beside those that an address and permissions are kept in. -/
structure Attrs where
  valid : BitVec 8
  global : BitVec 8
  accessed : BitVec 8
  dirty : BitVec 8
  rsw : BitVec 8
  reserved : BitVec 16
  deriving DecidableEq

def attrs (e : Pte) : Attrs where
  valid := getter e 0 1
  global := getter e 5 1
  accessed := getter e 6 1
  dirty := getter e 7 1
  rsw := getter e 9 1
  reserved := getter e 54 10

/-- They are read from the bits that neither setter writes. -/
theorem attrs_congr {e e' : Pte} (h : ∀ i, i = 0 ∨ 5 ≤ i ∧ i < 8 ∨ i = 9 ∨ 54 ≤ i →
    e'.getLsbD i = e.getLsbD i) : attrs e' = attrs e := by
  have hflag (off : ℕ) (hoff : off = 0 ∨ 5 ≤ off ∧ off < 8 ∨ off = 9) :
      getter e' off 1 = getter e off 1 := getter_congr (by decide) fun i hi => h _ (by omega)
  have hreserved : getter e' 54 10 = getter e 54 10 :=
    getter_congr (by decide) fun i hi => h _ (by omega)
  unfold attrs
  rw [hflag 0 (by omega), hflag 5 (by omega), hflag 6 (by omega), hflag 7 (by omega),
    hflag 9 (by omega), hreserved]

theorem setPerm_rewritten (e : Pte) {p : Perm} (hr : p.has .r = true) :
    Rewritten pteOps attrs e (Pte.setPerm e p) p where
  perm := perm_setPerm e hr
  pa := pa_setPerm e p
  attrs := attrs_congr fun i hi => by
    rw [getLsbD_setPerm, if_neg (by omega), if_neg (by omega), if_neg (by omega),
      if_neg (by omega), if_neg (by omega)]

theorem setPa_setPerm (e : Pte) (p : Perm) (a : ℕ) :
    Pte.setPa (Pte.setPerm e p) a = Pte.setPerm (Pte.setPa e a) p := by
  refine BitVec.eq_of_getLsbD_eq fun i _ => ?_
  rw [getLsbD_setPa, getLsbD_setPerm, getLsbD_setPerm, getLsbD_setPa]
  by_cases hi : 10 ≤ i ∧ i ≤ 53
  · rw [if_pos hi, if_neg (by omega), if_neg (by omega), if_neg (by omega), if_neg (by omega),
      if_neg (by omega), if_pos hi]
  · rw [if_neg hi, if_neg hi]

theorem perm_readable (e : Pte) : (Pte.perm e).has .r = true := by
  unfold Pte.perm
  repeat' apply Perm.addIf_readable
  decide

theorem independent : Independent pteOps attrs where
  setPerm e _ hr := setPerm_rewritten e hr
  pa_setPa _ _ ha hal := (setPa_spec ha hal).2.2.1
  perm_setPa _ _ ha hal := (setPa_spec ha hal).2.2.2
  attrs_setPa e a := attrs_congr fun i hi => by rw [pteOps, getLsbD_setPa, if_neg (by omega)]
  comm := setPa_setPerm
  shared e := setPerm_rewritten e (Perm.readable _ (perm_readable e)).1
  owned e := setPerm_rewritten e (Perm.readable _ (perm_readable e)).2

end Riscv64

namespace Aarch64

theorem pa_getter (e : Pte) : Pte.pa e = ((getter e 12 36).setWidth 64 <<< 12).toNat := by
  rw [getter_setWidth (by decide)]
  rfl

/-- The fields of an entry beside those that an address and permissions are kept in. -/
structure Attrs where
  table : BitVec 8
  index : BitVec 8
  ns : BitVec 8
  sh : BitVec 8
  af : BitVec 8
  r : BitVec 8
  r2 : BitVec 8
  dbm : BitVec 8
  contiguous : BitVec 8
  sw : BitVec 8
  r3 : BitVec 8
  deriving DecidableEq

/-- The last field has one bit too many, and ends with the word. -/
def attrs (e : Pte) : Attrs where
  table := getter e 1 1
  index := getter e 2 3
  ns := getter e 5 1
  sh := getter e 8 2
  af := getter e 10 1
  r := getter e 11 1
  r2 := getter e 48 4
  dbm := getter e 52 1
  contiguous := getter e 53 1
  sw := getter e 57 3
  r3 := getter e 60 5

/-- They are read from the bits that neither setter writes. -/
theorem attrs_congr {e e' : Pte} (h : ∀ i, 1 ≤ i ∧ i < 6 ∨ 8 ≤ i ∧ i < 12 ∨ 48 ≤ i ∧ i < 54 ∨
    57 ≤ i → e'.getLsbD i = e.getLsbD i) : attrs e' = attrs e := by
  have hget (off size : ℕ) (hsize : size < 64) (hoff : 1 ≤ off ∧ off + size ≤ 6 ∨
      8 ≤ off ∧ off + size ≤ 12 ∨ 48 ≤ off ∧ off + size ≤ 54 ∨ 57 ≤ off) :
      getter e' off size = getter e off size := getter_congr hsize fun i hi => h _ (by omega)
  unfold attrs
  rw [hget 1 1 (by omega) (by omega), hget 2 3 (by omega) (by omega),
    hget 5 1 (by omega) (by omega), hget 8 2 (by omega) (by omega),
    hget 10 1 (by omega) (by omega), hget 11 1 (by omega) (by omega),
    hget 48 4 (by omega) (by omega), hget 52 1 (by omega) (by omega),
    hget 53 1 (by omega) (by omega), hget 57 3 (by omega) (by omega),
    hget 60 5 (by omega) (by omega)]

variable (memType : ℕ → BitVec 64)

theorem setPerm_rewritten (e : Pte) {p : Perm} (hr : p.has .r = true) :
    Rewritten (pteOps memType) attrs e (Pte.setPerm e p) p where
  perm := perm_setPerm e hr
  pa := pa_setPerm e p
  attrs := attrs_congr fun i hi => by
    rw [getLsbD_setPerm, if_neg (by omega), if_neg (by omega), if_neg (by omega),
      if_neg (by omega), if_neg (by omega)]

theorem setPa_setPerm (e : Pte) (p : Perm) (a : ℕ) :
    Pte.setPa (Pte.setPerm e p) a = Pte.setPerm (Pte.setPa e a) p := by
  refine BitVec.eq_of_getLsbD_eq fun i _ => ?_
  rw [getLsbD_setPa, getLsbD_setPerm, getLsbD_setPerm, getLsbD_setPa]
  by_cases hi : 12 ≤ i ∧ i < 48
  · rw [if_pos hi, if_neg (by omega), if_neg (by omega), if_neg (by omega), if_neg (by omega),
      if_neg (by omega), if_pos hi]
  · rw [if_neg hi, if_neg hi]

theorem perm_readable (e : Pte) : (Pte.perm e).has .r = true := by
  unfold Pte.perm
  repeat' apply Perm.addIf_readable
  decide

theorem independent : Independent (pteOps memType) attrs where
  setPerm e _ hr := setPerm_rewritten memType e hr
  pa_setPa _ _ ha hal := (setPa_spec ha hal).2.2.1
  perm_setPa _ _ ha hal := (setPa_spec ha hal).2.2.2
  attrs_setPa e a := attrs_congr fun i hi => by rw [pteOps, getLsbD_setPa, if_neg (by omega)]
  comm := setPa_setPerm
  shared e := setPerm_rewritten memType e (Perm.readable _ (perm_readable e)).1
  owned e := setPerm_rewritten memType e (Perm.readable _ (perm_readable e)).2

end Aarch64

/-- On both architectures, for every entry. -/
theorem accessors_independent : Independent Riscv64.pteOps Riscv64.attrs ∧
    ∀ memType, Independent (Aarch64.pteOps memType) Aarch64.attrs :=
  ⟨Riscv64.independent, Aarch64.independent⟩

end Multiplix.Vm
