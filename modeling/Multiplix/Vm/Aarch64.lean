import Multiplix.Vm.Pte

/-! The page-table entries of `plix.arch.aarch64.vm`. The memory type of an address is the
board's `Machine.mem_type`. -/
namespace Multiplix.Vm.Aarch64
open Core

namespace Pte

def valid (e : Pte) : Bool := flag e 0
def table (e : Pte) : Bool := flag e 1
def ap (e : Pte) : BitVec 64 := field e 6 2
def addr (e : Pte) : BitVec 64 := field e 12 36
def pxn (e : Pte) : Bool := flag e 54
def uxn (e : Pte) : Bool := flag e 55
def cow (e : Pte) : Bool := flag e 56

def setValid (e : Pte) (b : Bool) : Pte := setFlag e 0 b
def setTable (e : Pte) (b : Bool) : Pte := setFlag e 1 b
def setIndex (e : Pte) (v : BitVec 64) : Pte := setField e 2 3 v
def setAp (e : Pte) (v : BitVec 64) : Pte := setField e 6 2 v
def setSh (e : Pte) (v : BitVec 64) : Pte := setField e 8 2 v
def setAf (e : Pte) (b : Bool) : Pte := setFlag e 10 b

def pa (e : Pte) : ℕ := (addr e <<< 12).toNat

def setPa (e : Pte) (pa : ℕ) : Pte := setField e 12 36 (BitVec.ofNat 64 pa >>> 12)

/-- At the last level every entry counts as a leaf. -/
def leaf (e : Pte) (level : PtLevel) : Bool := if level = .normal then true else !table e

def setPerm (e : Pte) (p : Perm) : Pte :=
  let e := setValid e (p.has .r)
  let e := setFlag e 56 (p.has .cow)
  let e := setFlag e 54 (!p.has .x)
  let e := setFlag e 55 (!p.has .x || !p.has .u)
  let ap := if p.has .u then 1 else 0
  let ap := if p.has .w then ap else ap ||| 2
  setAp e ap

def perm (e : Pte) : Perm :=
  let p := Perm.init.addIf .r (valid e)
  let p := p.addIf .x (!uxn e || !pxn e)
  let p := p.addIf .u (!uxn e || ap e &&& 1 != 0)
  let p := p.addIf .w (ap e &&& 2 == 0)
  p.addIf .cow (cow e)

/-- The walk's own test, `pte.valid && !pte.table`. -/
def stops (e : Pte) : Bool := valid e && !table e

def link (e : Pte) (t : ℕ) : Pte := setTable (setValid (setPa e t) true) true

def mapped (memType : ℕ → BitVec 64) (e : Pte) (a : ℕ) (level : PtLevel) (p : Perm) : Pte :=
  let e := setPerm (setPa e a) p
  let e := setValid e true
  let e := if level = .normal then setTable e true else setTable e false
  let e := setSh e 3
  let e := setAf e true
  setIndex e (memType a)

end Pte

section Bits

variable (e : Pte) (p : Perm) (a i : ℕ)

theorem getLsbD_setPa : (Pte.setPa e a).getLsbD i =
    if 12 ≤ i ∧ i < 48 then a.testBit i else e.getLsbD i := by
  rw [Pte.setPa, getLsbD_setField _ _ (by decide) (by decide)]
  by_cases h : 12 ≤ i ∧ i < 48
  · rw [if_pos (by omega), if_pos h, BitVec.getLsbD_ushiftRight, BitVec.getLsbD_ofNat,
      decide_eq_true (by omega), show 12 + (i - 12) = i by omega, Bool.true_and]
  · rw [if_neg (by omega), if_neg h]

/-- The access permission of a set of flags. -/
def apOf (p : Perm) : BitVec 64 := (if p.has .u then 1 else 0) ||| (if p.has .w then 0 else 2)

theorem getLsbD_setPerm : (Pte.setPerm e p).getLsbD i =
    if 6 ≤ i ∧ i < 8 then (apOf p).getLsbD (i - 6) else if i = 55 then !p.has .x || !p.has .u
    else if i = 54 then !p.has .x else if i = 56 then p.has .cow
    else if i = 0 then p.has .r else e.getLsbD i := by
  have hap : (if p.has .w then (if p.has .u then (1 : BitVec 64) else 0)
      else (if p.has .u then 1 else 0) ||| 2) = apOf p := by
    unfold apOf
    split_ifs <;> decide
  simp only [Pte.setPerm, Pte.setAp, Pte.setValid, hap,
    getLsbD_setField _ _ (by decide : 2 < 64) (by decide : 6 + 2 ≤ 64),
    getLsbD_setFlag _ _ (by decide : 1 < 64) (by decide : 55 < 64),
    getLsbD_setFlag _ _ (by decide : 1 < 64) (by decide : 54 < 64),
    getLsbD_setFlag _ _ (by decide : 1 < 64) (by decide : 56 < 64),
    getLsbD_setFlag _ _ (by decide : 1 < 64) (by decide : 0 < 64)]

theorem getLsbD_pa (hi : i < 64) : (Pte.addr e <<< 12).getLsbD i =
    (decide (12 ≤ i) && decide (i < 48) && e.getLsbD i) := by
  simp only [Pte.addr, BitVec.getLsbD_shiftLeft, getLsbD_field _ (by decide : 36 < 64),
    decide_eq_true hi, Bool.true_and]
  by_cases h : i < 12
  · simp [h, show ¬ 12 ≤ i by omega]
  · by_cases h' : i < 48
    · simp [h, h', show 12 ≤ i by omega, show i - 12 < 36 by omega,
        show 12 + (i - 12) = i by omega]
    · simp [h', show ¬ i - 12 < 36 by omega]

variable {e p a}

theorem pa_eq (ha : a < 2 ^ 48) (hal : 4096 ∣ a)
    (h : ∀ i, 12 ≤ i → i < 48 → e.getLsbD i = a.testBit i) : Pte.pa e = a := by
  refine toNat_eq_of_testBit (ha.trans (by decide)) fun i hi => ?_
  rw [getLsbD_pa e i hi]
  rcases (by omega : i < 12 ∨ (12 ≤ i ∧ i < 48) ∨ 48 ≤ i) with h' | ⟨h1, h2⟩ | h'
  · rw [testBit_of_aligned hal h', decide_eq_false (by omega)]
    rfl
  · rw [decide_eq_true h1, decide_eq_true h2, h i h1 h2]
    rfl
  · rw [testBit_eq_false_of_lt ha h', decide_eq_false (by omega : ¬ i < 48), Bool.and_false]
    rfl

theorem ap_eq (h6 : e.getLsbD 6 = (apOf p).getLsbD 0) (h7 : e.getLsbD 7 = (apOf p).getLsbD 1) :
    Pte.ap e = apOf p := by
  have hall : ∀ q : Perm, ∀ j < 64, 2 ≤ j → (apOf q).getLsbD j = false := by decide
  refine BitVec.eq_of_getLsbD_eq fun j hj => ?_
  rw [Pte.ap, getLsbD_field _ (by decide : 2 < 64)]
  rcases (by omega : j = 0 ∨ j = 1 ∨ 2 ≤ j) with rfl | rfl | h
  · rw [h6]
    exact Bool.and_true _
  · rw [h7]
    exact Bool.and_true _
  · rw [hall p j hj h, decide_eq_false (by omega), Bool.and_false]

theorem perm_eq {v : Bool} (hv : e.getLsbD 0 = v) (h6 : e.getLsbD 6 = (apOf p).getLsbD 0)
    (h7 : e.getLsbD 7 = (apOf p).getLsbD 1) (hp : e.getLsbD 54 = !p.has .x)
    (hu : e.getLsbD 55 = (!p.has .x || !p.has .u)) (hc : e.getLsbD 56 = p.has .cow) :
    Pte.perm e = p ||| Perm.r := by
  have hall : ∀ (q : Perm) (v : Bool), ((((Perm.init.addIf .r v).addIf .x
      (!(!q.has .x || !q.has .u) || !(!q.has .x))).addIf .u
      (!(!q.has .x || !q.has .u) || apOf q &&& 1 != 0)).addIf .w (apOf q &&& 2 == 0)).addIf .cow
      (q.has .cow) = q ||| Perm.r := by decide
  simp only [Pte.perm, Pte.valid, Pte.uxn, Pte.pxn, Pte.cow, ap_eq h6 h7,
    flag_eq _ (by decide : 1 < 64), hv, hp, hu, hc]
  exact hall p v

theorem getLsbD_mapped (memType : ℕ → BitVec 64) (e : Pte) (a : ℕ) (l : PtLevel) (p : Perm)
    (i : ℕ) : (Pte.mapped memType e a l p).getLsbD i =
    if 2 ≤ i ∧ i < 5 then (memType a).getLsbD (i - 2) else if i = 10 then true
    else if 8 ≤ i ∧ i < 10 then (3 : BitVec 64).getLsbD (i - 8)
    else if i = 1 then decide (l = .normal) else if i = 0 then true
    else (Pte.setPerm (Pte.setPa e a) p).getLsbD i := by
  have ht : ∀ b : Pte, (if l = .normal then Pte.setTable b true else Pte.setTable b false) =
      Pte.setTable b (decide (l = .normal)) := fun b => by
    by_cases hl : l = .normal <;> simp [hl]
  simp only [Pte.mapped, ht]
  simp only [Pte.setIndex, Pte.setAf, Pte.setSh, Pte.setTable, Pte.setValid,
    getLsbD_setField _ _ (by decide : 3 < 64) (by decide : 2 + 3 ≤ 64),
    getLsbD_setField _ _ (by decide : 2 < 64) (by decide : 8 + 2 ≤ 64),
    getLsbD_setFlag _ _ (by decide : 1 < 64) (by decide : 10 < 64),
    getLsbD_setFlag _ _ (by decide : 1 < 64) (by decide : 1 < 64),
    getLsbD_setFlag _ _ (by decide : 1 < 64) (by decide : 0 < 64)]

end Bits

theorem link_spec {t : ℕ} {e : Pte} (ht : t < 2 ^ 48) (hal : 4096 ∣ t) :
    Pte.stops (Pte.link e t) = false ∧ Pte.valid (Pte.link e t) = true ∧
      Pte.pa (Pte.link e t) = t := by
  have hl : ∀ i, (Pte.link e t).getLsbD i = if i = 1 then true else if i = 0 then true
      else if 12 ≤ i ∧ i < 48 then t.testBit i else e.getLsbD i := fun i => by
    rw [Pte.link, Pte.setTable, getLsbD_setFlag _ _ (by decide) (by decide), Pte.setValid,
      getLsbD_setFlag _ _ (by decide) (by decide), getLsbD_setPa]
  refine ⟨?_, ?_, pa_eq ht hal fun i h1 h2 => ?_⟩
  · rw [Pte.stops, Pte.valid, Pte.table, flag_eq _ (by decide), flag_eq _ (by decide), hl, hl]
    rfl
  · rw [Pte.valid, flag_eq _ (by decide), hl]
    rfl
  · rw [hl, if_neg (by omega), if_neg (by omega), if_pos ⟨h1, h2⟩]

section Mapped

variable (memType : ℕ → BitVec 64) {e : Pte} {a : ℕ} {l : PtLevel} {p : Perm}

theorem valid_mapped : Pte.valid (Pte.mapped memType e a l p) = true := by
  rw [Pte.valid, flag_eq _ (by decide), getLsbD_mapped]
  rfl

theorem table_mapped : Pte.table (Pte.mapped memType e a l p) = decide (l = .normal) := by
  rw [Pte.table, flag_eq _ (by decide), getLsbD_mapped]
  rfl

/-- Whatever address is mapped, the entry is a leaf of its level. -/
theorem leaf_mapped : Pte.leaf (Pte.mapped memType e a l p) l = true := by
  rw [Pte.leaf, table_mapped]
  by_cases hl : l = .normal <;> simp [hl]

theorem mapped_spec (ha : a < 2 ^ 48) (hal : 4096 ∣ a) :
    Pte.leaf (Pte.mapped memType e a l p) l = true ∧ Pte.pa (Pte.mapped memType e a l p) = a ∧
      Pte.perm (Pte.mapped memType e a l p) = p ||| Perm.r ∧
      (l ≠ .normal → Pte.stops (Pte.mapped memType e a l p) = true) := by
  have hm := fun i => (getLsbD_mapped memType e a l p i).trans (by
    rw [getLsbD_setPerm, getLsbD_setPa])
  refine ⟨leaf_mapped memType, pa_eq ha hal fun i h1 h2 => ?_, ?_, fun hl => ?_⟩
  · rw [hm]
    simp only [show ¬ (2 ≤ i ∧ i < 5) by omega, show i ≠ 10 by omega,
      show ¬ (8 ≤ i ∧ i < 10) by omega, show i ≠ 1 by omega, show i ≠ 0 by omega,
      show ¬ (6 ≤ i ∧ i < 8) by omega, show i ≠ 55 by omega, show i ≠ 54 by omega,
      show i ≠ 56 by omega, if_false]
    exact if_pos ⟨h1, h2⟩
  · exact perm_eq (hm 0) (hm 6) (hm 7) (hm 54) (hm 55) (hm 56)
  · rw [Pte.stops, valid_mapped, table_mapped, decide_eq_false hl]
    rfl

end Mapped

/-- The address is in other bits than the permissions. -/
theorem pa_setPerm (e : Pte) (p : Perm) : Pte.pa (Pte.setPerm e p) = Pte.pa e := by
  refine congrArg BitVec.toNat (BitVec.eq_of_getLsbD_eq fun i hi => ?_)
  rw [getLsbD_pa _ i hi, getLsbD_pa _ i hi]
  by_cases h : 12 ≤ i ∧ i < 48
  · rw [getLsbD_setPerm, if_neg (by omega), if_neg (by omega), if_neg (by omega),
      if_neg (by omega), if_neg (by omega)]
  · rcases not_and_or.mp h with h | h
    · rw [decide_eq_false h, Bool.false_and, Bool.false_and, Bool.false_and]
    · rw [decide_eq_false h, Bool.and_false, Bool.false_and, Bool.false_and]

theorem perm_setPerm (e : Pte) {p : Perm} (hr : p.has .r = true) :
    Pte.perm (Pte.setPerm e p) = p := by
  have hs := getLsbD_setPerm e p
  have hall : ∀ q : Perm, q.has .r = true → q ||| Perm.r = q := by decide
  rw [perm_eq (hs 0) (hs 6) (hs 7) (hs 54) (hs 55) (hs 56), hall p hr]

theorem setPerm_spec {e : Pte} {p : Perm} (hr : p.has .r = true) :
    Pte.valid (Pte.setPerm e p) = true ∧ Pte.leaf (Pte.setPerm e p) .normal = true ∧
      Pte.pa (Pte.setPerm e p) = Pte.pa e ∧ Pte.perm (Pte.setPerm e p) = p := by
  refine ⟨?_, rfl, pa_setPerm e p, perm_setPerm e hr⟩
  rw [Pte.valid, flag_eq _ (by decide), getLsbD_setPerm]
  exact hr

theorem setPa_spec {e : Pte} {a : ℕ} (ha : a < 2 ^ 48) (hal : 4096 ∣ a) :
    Pte.valid (Pte.setPa e a) = Pte.valid e ∧
      Pte.leaf (Pte.setPa e a) .normal = Pte.leaf e .normal ∧
      Pte.pa (Pte.setPa e a) = a ∧ Pte.perm (Pte.setPa e a) = Pte.perm e := by
  have hout : ∀ i, i < 12 ∨ 48 ≤ i → (Pte.setPa e a).getLsbD i = e.getLsbD i := fun i hi => by
    rw [getLsbD_setPa, if_neg (by omega)]
  have hap : Pte.ap (Pte.setPa e a) = Pte.ap e := BitVec.eq_of_getLsbD_eq fun i _ => by
    rw [Pte.ap, Pte.ap, getLsbD_field _ (by decide : 2 < 64), getLsbD_field _ (by decide : 2 < 64)]
    by_cases h : i < 2
    · rw [hout _ (by omega)]
    · rw [decide_eq_false h, Bool.and_false, Bool.and_false]
  refine ⟨?_, rfl, pa_eq ha hal fun i h1 h2 => by rw [getLsbD_setPa, if_pos ⟨h1, h2⟩], ?_⟩
  · simp only [Pte.valid, flag_eq _ (by decide : 1 < 64), hout 0 (by decide)]
  · simp only [Pte.perm, Pte.valid, Pte.uxn, Pte.pxn, Pte.cow, hap,
      flag_eq _ (by decide : 1 < 64), hout 0 (by decide), hout 54 (by decide),
      hout 55 (by decide), hout 56 (by decide)]

theorem leaf_of_stops {e : Pte} {l : PtLevel} (hl : l ≠ .normal) (h : Pte.stops e = true) :
    Pte.leaf e l = true := by
  rw [Pte.leaf, if_neg hl]
  exact ((Bool.and_eq_true _ _).mp h).2

/-- The entries as the page table uses them. -/
def pteOps (memType : ℕ → BitVec 64) : PteOps where
  paBits := 48
  valid := Pte.valid
  stops := Pte.stops
  leaf := Pte.leaf
  pa := Pte.pa
  perm := Pte.perm
  setPa := Pte.setPa
  setPerm := Pte.setPerm
  link := Pte.link
  mapped := Pte.mapped memType
  valid_zero := by decide
  stops_zero := by decide
  leaf_of_stops := leaf_of_stops
  link_spec _ _ ht hal := link_spec ht hal
  mapped_spec ha hal _ := mapped_spec memType ha hal
  cow_zero := by decide
  valid_mapped := valid_mapped memType
  setPerm_spec _ hr := setPerm_spec hr
  setPa_spec := setPa_spec

end Multiplix.Vm.Aarch64
