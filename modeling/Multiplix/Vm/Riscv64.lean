import Multiplix.Vm.Pte

/-! The page-table entries of `plix.arch.riscv64.vm`. -/
namespace Multiplix.Vm.Riscv64
open Core

namespace Pte

def valid (e : Pte) : Bool := flag e 0
def read (e : Pte) : Bool := flag e 1
def write (e : Pte) : Bool := flag e 2
def exec (e : Pte) : Bool := flag e 3
def user (e : Pte) : Bool := flag e 4
def cow (e : Pte) : Bool := flag e 8
def ppn0 (e : Pte) : BitVec 64 := field e 10 9
def ppn1 (e : Pte) : BitVec 64 := field e 19 9
def ppn2 (e : Pte) : BitVec 64 := field e 28 26

def setValid (e : Pte) (b : Bool) : Pte := setFlag e 0 b
def setAccessed (e : Pte) (b : Bool) : Pte := setFlag e 6 b
def setDirty (e : Pte) (b : Bool) : Pte := setFlag e 7 b

/-- Set this pte to valid. -/
def validate (e : Pte) : Pte := setDirty (setAccessed (setValid e true) true) true

def pa (e : Pte) : ℕ := ((ppn0 e <<< 12) ||| (ppn1 e <<< 21) ||| (ppn2 e <<< 30)).toNat

def setPa (e : Pte) (pa : ℕ) : Pte := writeBits e 53 10 (getBits (BitVec.ofNat 64 pa) 55 12)

/-- True if at least one of read, write and exec is 1, at any level. -/
def leaf (e : Pte) : Bool := getBits e 3 1 != 0

def setPerm (e : Pte) (p : Perm) : Pte :=
  let e := setFlag e 1 (p.has .r)
  let e := setFlag e 2 (p.has .w)
  let e := setFlag e 3 (p.has .x)
  let e := setFlag e 4 (p.has .u)
  setFlag e 8 (p.has .cow)

def perm (e : Pte) : Perm :=
  let p := Perm.init.addIf .r (read e)
  let p := p.addIf .w (write e)
  let p := p.addIf .x (exec e)
  let p := p.addIf .u (user e)
  p.addIf .cow (cow e)

def link (e : Pte) (t : ℕ) : Pte := setValid (setPa e t) true

def mapped (e : Pte) (a : ℕ) (p : Perm) : Pte := validate (setPerm (setPa e a) p)

end Pte

section Bits

variable (e : Pte) (p : Perm) (a i : ℕ)

theorem getLsbD_setPa : (Pte.setPa e a).getLsbD i =
    if 10 ≤ i ∧ i ≤ 53 then a.testBit (i + 2) else e.getLsbD i := by
  have hg : ∀ j, (getBits (BitVec.ofNat 64 a) 55 12).getLsbD j =
      ((BitVec.ofNat 64 a).getLsbD (12 + j) && decide (j < 44)) :=
    fun j => getLsbD_getBits _ (by decide) j
  rw [Pte.setPa, getLsbD_writeBits _ _ (by decide) (by decide) (fun j hj => by
    rw [hg, decide_eq_false (by omega), Bool.and_false])]
  split_ifs with h
  · rw [hg, BitVec.getLsbD_ofNat, decide_eq_true (by omega), decide_eq_true (by omega)]
    rw [Bool.true_and, Bool.and_true, show 12 + (i - 10) = i + 2 by omega]
  · rfl

theorem getLsbD_setPerm : (Pte.setPerm e p).getLsbD i =
    if i = 8 then p.has .cow else if i = 4 then p.has .u else if i = 3 then p.has .x
    else if i = 2 then p.has .w else if i = 1 then p.has .r else e.getLsbD i := by
  simp only [Pte.setPerm, getLsbD_setFlag _ _ (by decide : 1 < 64) (by decide : 8 < 64),
    getLsbD_setFlag _ _ (by decide : 1 < 64) (by decide : 4 < 64),
    getLsbD_setFlag _ _ (by decide : 1 < 64) (by decide : 3 < 64),
    getLsbD_setFlag _ _ (by decide : 1 < 64) (by decide : 2 < 64),
    getLsbD_setFlag _ _ (by decide : 1 < 64) (by decide : 1 < 64)]

theorem getLsbD_validate : (Pte.validate e).getLsbD i =
    if i = 7 then true else if i = 6 then true else if i = 0 then true else e.getLsbD i := by
  simp only [Pte.validate, Pte.setValid, Pte.setAccessed, Pte.setDirty,
    getLsbD_setFlag _ _ (by decide : 1 < 64) (by decide : 7 < 64),
    getLsbD_setFlag _ _ (by decide : 1 < 64) (by decide : 6 < 64),
    getLsbD_setFlag _ _ (by decide : 1 < 64) (by decide : 0 < 64)]

theorem leaf_eq : Pte.leaf e = (e.getLsbD 1 || e.getLsbD 2 || e.getLsbD 3) := by
  have hg : ∀ j, (getBits e 3 1).getLsbD j = (e.getLsbD (1 + j) && decide (j < 3)) :=
    fun j => getLsbD_getBits e (by decide) j
  rw [Pte.leaf, Bool.eq_iff_iff, bne_iff_ne]
  constructor
  · intro h
    by_contra hc
    simp only [Bool.or_eq_true, not_or, Bool.not_eq_true] at hc
    refine h (BitVec.eq_of_getLsbD_eq fun j _ => ?_)
    rw [hg, show (0 : Pte).getLsbD j = false from BitVec.getLsbD_zero]
    rcases (by omega : j = 0 ∨ j = 1 ∨ j = 2 ∨ ¬ j < 3) with rfl | rfl | rfl | hj
    · rw [hc.1.1, Bool.false_and]
    · rw [hc.1.2, Bool.false_and]
    · rw [hc.2, Bool.false_and]
    · rw [decide_eq_false hj, Bool.and_false]
  · intro h hz
    have hb : ∀ j < 3, e.getLsbD (1 + j) = false := fun j hj => by
      have := hg j
      rw [hz, decide_eq_true hj, Bool.and_true] at this
      simpa using this.symm
    rw [hb 0 (by decide), hb 1 (by decide), hb 2 (by decide)] at h
    cases h

theorem getLsbD_pa (hi : i < 64) :
    ((Pte.ppn0 e <<< 12) ||| (Pte.ppn1 e <<< 21) ||| (Pte.ppn2 e <<< 30)).getLsbD i =
      (decide (12 ≤ i) && decide (i < 56) && e.getLsbD (i - 2)) := by
  simp only [Pte.ppn0, Pte.ppn1, Pte.ppn2, BitVec.getLsbD_or, BitVec.getLsbD_shiftLeft,
    getLsbD_field _ (by decide : 9 < 64), getLsbD_field _ (by decide : 26 < 64),
    decide_eq_true hi, Bool.true_and]
  rcases (by omega : i < 12 ∨ (12 ≤ i ∧ i < 21) ∨ (21 ≤ i ∧ i < 30) ∨ (30 ≤ i ∧ i < 56) ∨ 56 ≤ i)
    with h | ⟨h, h'⟩ | ⟨h, h'⟩ | ⟨h, h'⟩ | h
  · simp [h, show i < 21 by omega, show i < 30 by omega, show ¬ 12 ≤ i by omega]
  · simp [h, h', show ¬ i < 12 by omega, show i < 30 by omega, show i < 56 by omega,
      show i - 12 < 9 by omega, show 10 + (i - 12) = i - 2 by omega]
  · simp [h', show ¬ i < 12 by omega, show ¬ i < 21 by omega, show i < 56 by omega,
      show ¬ i - 12 < 9 by omega, show i - 21 < 9 by omega, show 19 + (i - 21) = i - 2 by omega,
      show 12 ≤ i by omega]
  · simp [h', show ¬ i < 12 by omega, show ¬ i < 21 by omega, show ¬ i < 30 by omega,
      show ¬ i - 12 < 9 by omega, show ¬ i - 21 < 9 by omega, show i - 30 < 26 by omega,
      show 28 + (i - 30) = i - 2 by omega, show 12 ≤ i by omega]
  · simp [show ¬ i - 12 < 9 by omega, show ¬ i - 21 < 9 by omega, show ¬ i - 30 < 26 by omega,
      show ¬ i < 56 by omega]

variable {e p a}

theorem pa_eq (ha : a < 2 ^ 56) (hal : 4096 ∣ a)
    (h : ∀ i, 10 ≤ i → i < 54 → e.getLsbD i = a.testBit (i + 2)) : Pte.pa e = a := by
  refine toNat_eq_of_testBit (ha.trans (by decide)) fun i hi => ?_
  rw [getLsbD_pa e i hi]
  rcases (by omega : i < 12 ∨ (12 ≤ i ∧ i < 56) ∨ 56 ≤ i) with h' | ⟨h1, h2⟩ | h'
  · rw [testBit_of_aligned hal h', decide_eq_false (by omega)]
    rfl
  · rw [decide_eq_true h1, decide_eq_true h2, h (i - 2) (by omega) (by omega),
      show i - 2 + 2 = i by omega]
    rfl
  · rw [testBit_eq_false_of_lt ha h', decide_eq_false (by omega : ¬ i < 56), Bool.and_false]
    rfl

theorem perm_eq {f : ℕ → Bool} (h : ∀ i, e.getLsbD i = f i) (hr : f 1 = p.has .r)
    (hw : f 2 = p.has .w) (hx : f 3 = p.has .x) (hu : f 4 = p.has .u) (hc : f 8 = p.has .cow) :
    Pte.perm e = p ||| Perm.r := by
  have hall : ∀ q : Perm, ((((Perm.init.addIf .r (q.has .r)).addIf .w (q.has .w)).addIf .x
      (q.has .x)).addIf .u (q.has .u)).addIf .cow (q.has .cow) = q ||| Perm.r := by decide
  simp only [Pte.perm, Pte.read, Pte.write, Pte.exec, Pte.user, Pte.cow,
    flag_eq _ (by decide : 1 < 64), h, hr, hw, hx, hu, hc]
  exact hall p

end Bits

theorem link_spec {t : ℕ} {e : Pte} (hs : Pte.leaf e = false) (ht : t < 2 ^ 56) (hal : 4096 ∣ t) :
    Pte.leaf (Pte.link e t) = false ∧ Pte.valid (Pte.link e t) = true ∧
      Pte.pa (Pte.link e t) = t := by
  have hl : ∀ i, (Pte.link e t).getLsbD i = if i = 0 then true
      else if 10 ≤ i ∧ i ≤ 53 then t.testBit (i + 2) else e.getLsbD i := fun i => by
    rw [Pte.link, Pte.setValid, getLsbD_setFlag _ _ (by decide) (by decide), getLsbD_setPa]
  refine ⟨?_, ?_, pa_eq ht hal fun i h1 h2 => ?_⟩
  · rw [leaf_eq, hl, hl, hl]
    rw [leaf_eq] at hs
    exact hs
  · rw [Pte.valid, flag_eq _ (by decide), hl]
    rfl
  · rw [hl, if_neg (by omega), if_pos (by omega)]

theorem leaf_mapped {e : Pte} {a : ℕ} {p : Perm} (hp : p &&& Perm.rwx ≠ 0) :
    Pte.leaf (Pte.mapped e a p) = true := by
  have hm := fun i => (getLsbD_validate (Pte.setPerm (Pte.setPa e a) p) i).trans (by
    rw [getLsbD_setPerm])
  have hall : ∀ q : Perm, q &&& Perm.rwx ≠ 0 → (q.has .r || q.has .w || q.has .x) = true := by
    decide
  rw [Pte.mapped, leaf_eq, hm, hm, hm]
  exact hall p hp

theorem mapped_spec {e : Pte} {a : ℕ} {p : Perm} (ha : a < 2 ^ 56) (hal : 4096 ∣ a)
    (hp : p &&& Perm.rwx ≠ 0) : Pte.leaf (Pte.mapped e a p) = true ∧
      Pte.pa (Pte.mapped e a p) = a ∧ Pte.perm (Pte.mapped e a p) = p ||| Perm.r := by
  have hm := fun i => (getLsbD_validate (Pte.setPerm (Pte.setPa e a) p) i).trans (by
    rw [getLsbD_setPerm, getLsbD_setPa])
  refine ⟨leaf_mapped hp, pa_eq ha hal fun i h1 h2 => ?_, perm_eq hm rfl rfl rfl rfl rfl⟩
  · rw [Pte.mapped, hm]
    simp only [show i ≠ 7 by omega, show i ≠ 6 by omega, show i ≠ 0 by omega,
      show i ≠ 8 by omega, show i ≠ 4 by omega, show i ≠ 3 by omega, show i ≠ 2 by omega,
      show i ≠ 1 by omega, if_false]
    exact if_pos (by omega)

theorem valid_mapped {e : Pte} {a : ℕ} {p : Perm} : Pte.valid (Pte.mapped e a p) = true := by
  rw [Pte.valid, flag_eq _ (by decide), Pte.mapped, getLsbD_validate]
  rfl

/-- The address is in other bits than the permissions. -/
theorem pa_setPerm (e : Pte) (p : Perm) : Pte.pa (Pte.setPerm e p) = Pte.pa e := by
  refine congrArg BitVec.toNat (BitVec.eq_of_getLsbD_eq fun i hi => ?_)
  rw [getLsbD_pa _ i hi, getLsbD_pa _ i hi]
  by_cases h : 12 ≤ i
  · rw [getLsbD_setPerm, if_neg (by omega), if_neg (by omega), if_neg (by omega),
      if_neg (by omega), if_neg (by omega)]
  · rw [decide_eq_false h, Bool.false_and, Bool.false_and, Bool.false_and]

theorem perm_setPerm (e : Pte) {p : Perm} (hr : p.has .r = true) :
    Pte.perm (Pte.setPerm e p) = p := by
  have hall : ∀ q : Perm, q.has .r = true → q ||| Perm.r = q := by decide
  rw [perm_eq (getLsbD_setPerm e p) rfl rfl rfl rfl rfl, hall p hr]

theorem setPerm_spec {e : Pte} {p : Perm} (hv : Pte.valid e = true) (hr : p.has .r = true) :
    Pte.valid (Pte.setPerm e p) = true ∧ Pte.leaf (Pte.setPerm e p) = true ∧
      Pte.pa (Pte.setPerm e p) = Pte.pa e ∧ Pte.perm (Pte.setPerm e p) = p := by
  have hs := getLsbD_setPerm e p
  refine ⟨?_, ?_, pa_setPerm e p, perm_setPerm e hr⟩
  · rw [Pte.valid, flag_eq _ (by decide), hs] at *
    exact hv
  · rw [leaf_eq, hs, hs, hs]
    simp [hr]

theorem setPa_spec {e : Pte} {a : ℕ} (ha : a < 2 ^ 56) (hal : 4096 ∣ a) :
    Pte.valid (Pte.setPa e a) = Pte.valid e ∧ Pte.leaf (Pte.setPa e a) = Pte.leaf e ∧
      Pte.pa (Pte.setPa e a) = a ∧ Pte.perm (Pte.setPa e a) = Pte.perm e := by
  have hlow : ∀ i < 10, (Pte.setPa e a).getLsbD i = e.getLsbD i := fun i hi => by
    rw [getLsbD_setPa, if_neg (by omega)]
  refine ⟨?_, ?_, pa_eq ha hal fun i h1 h2 => by rw [getLsbD_setPa, if_pos (by omega)], ?_⟩
  · simp only [Pte.valid, flag_eq _ (by decide : 1 < 64), hlow 0 (by decide)]
  · rw [leaf_eq, leaf_eq, hlow 1 (by decide), hlow 2 (by decide), hlow 3 (by decide)]
  · simp only [Pte.perm, Pte.read, Pte.write, Pte.exec, Pte.user, Pte.cow,
      flag_eq _ (by decide : 1 < 64), hlow 1 (by decide), hlow 2 (by decide), hlow 3 (by decide),
      hlow 4 (by decide), hlow 8 (by decide)]

/-- The entries as the page table uses them. -/
def pteOps : PteOps where
  paBits := 56
  valid := Pte.valid
  stops := Pte.leaf
  leaf e _ := Pte.leaf e
  pa := Pte.pa
  perm := Pte.perm
  setPa := Pte.setPa
  setPerm := Pte.setPerm
  link := Pte.link
  mapped e a _ p := Pte.mapped e a p
  valid_zero := by decide
  stops_zero := by decide
  leaf_of_stops _ h := h
  link_spec _ hs ht hal := link_spec hs ht hal
  mapped_spec ha hal hp :=
    ⟨(mapped_spec ha hal hp).1, (mapped_spec ha hal hp).2.1, (mapped_spec ha hal hp).2.2,
      fun _ => (mapped_spec ha hal hp).1⟩
  cow_zero := by decide
  valid_mapped := valid_mapped
  setPerm_spec := setPerm_spec
  setPa_spec := setPa_spec

end Multiplix.Vm.Riscv64
