import Multiplix.Lib.ByteMem
import Multiplix.Lib.Numeral

/-! Integers as text, as `core.fmt` writes them. -/
namespace Multiplix.Core
open Lib

/-- The types that `itoa` is used at. -/
inductive IntType
  | int
  | uint
  | long
  | ulong
  deriving DecidableEq

namespace IntType

def sizeof : IntType → ℕ
  | int => 4
  | uint => 4
  | long => 8
  | ulong => 8

def signed : IntType → Bool
  | int => true
  | uint => false
  | long => true
  | ulong => false

abbrev Word (S : IntType) := BitVec (8 * S.sizeof)

def val (S : IntType) (v : S.Word) : ℤ := if S.signed then v.toInt else v.toNat

/-- `num % base`. The base is a `uint`: only a `long` keeps its sign in the operation. -/
def rem (S : IntType) (num : S.Word) (base : BitVec 32) : S.Word :=
  if S = long then num.srem (base.setWidth _) else num % base.setWidth _

/-- `num / base` -/
def quot (S : IntType) (num : S.Word) (base : BitVec 32) : S.Word :=
  if S = long then num.sdiv (base.setWidth _) else num / base.setWidth _

/-- `rem > 9`, at the type of `num % base`. -/
def aboveNine (S : IntType) (r : S.Word) : Bool :=
  if S = long then (9 : S.Word).slt r else (9 : S.Word).ult r

/-- `cast(char)((rem > 9) ? (rem - 10) + 'a' : rem + '0')` -/
def digitChar (S : IntType) (r : S.Word) : Byte :=
  (if S.aboveNine r then r - 10 + 97 else r + 48).setWidth 8

/-- The digit loop with `pos` places of the buffer left, of which `out` is the rest. `none` is an
index outside the buffer. -/
def itoaLoop (S : IntType) (base : BitVec 32) :
    ℕ → S.Word → List Byte → Option (ℕ × List Byte)
  | 0, _, _ => none
  | pos + 1, num, out =>
    let out := S.digitChar (S.rem num base) :: out
    let num := S.quot num base
    if num = 0 then some (pos, out) else itoaLoop S base pos num out

/-- `num < 0`, where the type has negative values. -/
def negative (S : IntType) (num : S.Word) : Bool := S.signed && num.slt 0#_

/-- What `num` is once the sign is taken off. -/
def magnitude (S : IntType) (num : S.Word) : S.Word := if S.negative num then -num else num

/-- `itoa(input, buf, base)` for a buffer of `len` places. -/
def itoa (S : IntType) (input : S.Word) (len : ℕ) (base : BitVec 32) : Option (List Byte) := do
  let (pos, out) ← S.itoaLoop base len (S.magnitude input) []
  if S.negative input then
    match pos with
    | 0 => none
    | _ + 1 => some (45 :: out)
  else some out

/-- `Formatter.write_elem(value, base)`: what is sent to `putc`. -/
def write_elem (S : IntType) (value : S.Word) (base : BitVec 32) : Option (List Byte) :=
  S.itoa value (S.sizeof * 8) base

end IntType

section Numerals

/-- The characters `0` to `9` and `a` to `f`. -/
def hexDigits : List Byte :=
  [48, 49, 50, 51, 52, 53, 54, 55, 56, 57, 97, 98, 99, 100, 101, 102]

def digit (d : ℕ) : Byte := hexDigits.getD d 0

/-- `cs` is the canonical numeral of `v`: a sign exactly when `v` is negative, then digits that
denote `|v|`, without a superfluous zero in front. -/
def IsNumeral (base : ℕ) (v : ℤ) (cs : List Byte) : Prop :=
  ∃ ds : List ℕ, cs = (if v < 0 then [45] else []) ++ ds.map digit ∧ ds ≠ [] ∧
    (∀ d ∈ ds, d < base) ∧ (ds.head? = some 0 → ds = [0]) ∧ numValue base ds = v.natAbs

def digitVal (base : ℕ) (c : Byte) : Option ℕ := (List.range base).find? fun d => digit d = c

/-- Reading digits back, from the value `a` of those before. -/
def readDigits (base : ℕ) : ℕ → List Byte → Option ℕ
  | a, [] => some a
  | a, c :: cs => (digitVal base c).bind fun d => readDigits base (a * base + d) cs

/-- Reading a numeral back. -/
def readInt (base : ℕ) (cs : List Byte) : Option ℤ :=
  if cs.head? = some 45 then (readDigits base 0 cs.tail).map fun n : ℕ => -(n : ℤ)
  else (readDigits base 0 cs).map fun n : ℕ => (n : ℤ)

theorem digitVal_digit : ∀ base ≤ 16, ∀ d < base, digitVal base (digit d) = some d := by decide

theorem digit_ne_minus : ∀ d < 16, digit d ≠ 45 := by decide

theorem readDigits_map {base : ℕ} (hb : base ≤ 16) (ds : List ℕ) (h : ∀ d ∈ ds, d < base)
    (a : ℕ) :
    readDigits base a (ds.map digit) = some (ds.foldl (fun a d => a * base + d) a) := by
  induction ds generalizing a with
  | nil => rfl
  | cons d ds ih =>
    have hd := digitVal_digit base hb d (h d (by simp))
    simp [readDigits, hd, ih fun x hx => h x (by simp [hx])]

/-- A canonical numeral reads back as the number it denotes. -/
theorem IsNumeral.read {base : ℕ} (hb : base ≤ 16) {v : ℤ} {cs : List Byte}
    (h : IsNumeral base v cs) : readInt base cs = some v := by
  obtain ⟨ds, rfl, hne, hlt, -, hval⟩ := h
  have hread := readDigits_map hb ds hlt 0
  rw [show ds.foldl (fun a d => a * base + d) 0 = v.natAbs from hval] at hread
  unfold readInt
  by_cases hv : v < 0
  · have habs : -(v.natAbs : ℤ) = v := by omega
    simp only [hv, if_true, List.singleton_append, List.head?_cons, List.tail_cons, hread,
      Option.map_some, habs]
  · obtain ⟨d, ds, rfl⟩ := List.exists_cons_of_ne_nil hne
    have hd : digit d ≠ 45 := digit_ne_minus d ((hlt d (by simp)).trans_le hb)
    have habs : (v.natAbs : ℤ) = v := by omega
    have hhead : (List.map digit (d :: ds)).head? ≠ some 45 := by simpa using hd
    rw [if_neg hv, List.nil_append, if_neg hhead, hread, Option.map_some, habs]

theorem isNumeral_numeral {base : ℕ} (hb : 1 < base) (v : ℤ) :
    IsNumeral base v ((if v < 0 then [45] else []) ++ (numeral base v.natAbs).map digit) :=
  ⟨_, rfl, numeral_ne_nil _ _, fun _ => lt_of_mem_numeral hb, numeral_of_head,
    numValue_numeral hb _⟩

end Numerals

namespace IntType

variable {S : IntType} {base : BitVec 32}

/-- The words on which the division of the digit loop is that of natural numbers: all of them,
but for a `long` that still has its sign. -/
def Plain (S : IntType) (num : S.Word) : Prop := S = .long → num.msb = false

theorem toNat_base (S : IntType) (base : BitVec 32) :
    (base.setWidth (8 * S.sizeof)).toNat = base.toNat := by
  cases S <;> simp [sizeof, BitVec.toNat_setWidth] <;> omega

theorem msb_base (h : S = .long) (base : BitVec 32) :
    (base.setWidth (8 * S.sizeof)).msb = false := by
  subst h
  rw [BitVec.msb_eq_false_iff_two_mul_lt, toNat_base]
  have := base.isLt
  simp only [sizeof]
  omega

theorem toNat_rem {num : S.Word} (h : S.Plain num) :
    (S.rem num base).toNat = num.toNat % base.toNat := by
  rw [← toNat_base S base, ← BitVec.toNat_umod, rem]
  split_ifs with hS
  · rw [BitVec.srem_eq, h hS, msb_base hS]
  · rfl

theorem toNat_quot {num : S.Word} (h : S.Plain num) :
    (S.quot num base).toNat = num.toNat / base.toNat := by
  rw [← toNat_base S base, ← BitVec.toNat_udiv, quot]
  split_ifs with hS
  · rw [BitVec.sdiv_eq, h hS, msb_base hS]
    rfl
  · rfl

theorem plain_quot {num : S.Word} (h : S.Plain num) : S.Plain (S.quot num base) := by
  intro hS
  have hle : (S.quot num base).toNat ≤ num.toNat := by
    rw [toNat_quot h]
    exact Nat.div_le_self _ _
  have hnum := h hS
  rw [BitVec.msb_eq_false_iff_two_mul_lt] at hnum ⊢
  omega

theorem digitChar_eq {r : S.Word} (hr : r.toNat < 16) : S.digitChar r = digit r.toNat := by
  obtain ⟨d, hd⟩ : ∃ d, r.toNat = d := ⟨_, rfl⟩
  have hr' : r = BitVec.ofNat _ d := by rw [← hd, BitVec.ofNat_toNat, BitVec.setWidth_eq]
  rw [hd] at hr ⊢
  subst hr'
  cases S <;> interval_cases d <;> decide

/-- One turn of the digit loop. -/
theorem itoaLoop_succ (hb : 0 < base.toNat) (hb' : base.toNat ≤ 16) {num : S.Word}
    (hnum : S.Plain num) (pos : ℕ) (out : List Byte) :
    S.itoaLoop base (pos + 1) num out =
      if num.toNat / base.toNat = 0 then some (pos, digit (num.toNat % base.toNat) :: out)
      else S.itoaLoop base pos (S.quot num base) (digit (num.toNat % base.toNat) :: out) := by
  have hrem : (S.rem num base).toNat = num.toNat % base.toNat := toNat_rem hnum
  have hchar := digitChar_eq (hrem ▸ (Nat.mod_lt _ hb).trans_le hb')
  have hzero : S.quot num base = 0 ↔ num.toNat / base.toNat = 0 := by
    rw [← toNat_quot hnum, BitVec.toNat_eq]
    rfl
  simp only [itoaLoop, hchar, hrem, hzero]

/-- The digit loop writes the numeral of its word, if the places left are enough for it. -/
theorem itoaLoop_eq (hb : 1 < base.toNat) (hb' : base.toNat ≤ 16) (k pos : ℕ) (num : S.Word)
    (out : List Byte) (hnum : S.Plain num) (hk : num.toNat < base.toNat ^ (k + 1))
    (hpos : k < pos) :
    ∃ left, pos ≤ left + (k + 1) ∧ S.itoaLoop base pos num out =
      some (left, (numeral base.toNat num.toNat).map digit ++ out) := by
  induction k generalizing pos num out with
  | zero =>
    obtain ⟨left, rfl⟩ : ∃ left, pos = left + 1 := ⟨pos - 1, by omega⟩
    have hquot : num.toNat / base.toNat = 0 := Nat.div_eq_of_lt (by simpa using hk)
    refine ⟨left, by omega, ?_⟩
    rw [itoaLoop_succ (by omega) hb' hnum, numeral_div hb]
    simp [hquot]
  | succ k ih =>
    obtain ⟨left, rfl⟩ : ∃ left, pos = left + 1 := ⟨pos - 1, by omega⟩
    rw [itoaLoop_succ (by omega) hb' hnum, numeral_div hb]
    split_ifs with hquot
    · exact ⟨left, by omega, by simp⟩
    · have hlt : (S.quot num base).toNat < base.toNat ^ (k + 1) := by
        rw [toNat_quot hnum]
        exact Nat.div_lt_of_lt_mul (by rwa [← pow_succ'])
      obtain ⟨left', hle, heq⟩ := ih left _ (digit (num.toNat % base.toNat) :: out)
        (plain_quot hnum) hlt (by omega)
      rw [toNat_quot hnum] at heq
      exact ⟨left', by omega, by simp [heq]⟩

theorem negative_iff (v : S.Word) : S.negative v ↔ S.val v < 0 := by
  cases S <;> simp [negative, signed, val, BitVec.slt_iff_toInt_lt]

/-- Taking the sign off is exact in the unsigned reading, also for the least value. -/
theorem toNat_magnitude (v : S.Word) : (S.magnitude v).toNat = (S.val v).natAbs := by
  have hlt := v.isLt
  unfold magnitude negative val
  by_cases hs : S.signed
  · rw [hs, BitVec.slt_zero_eq_msb, BitVec.toInt_eq_msb_cond]
    cases hmsb : v.msb with
    | false => simp
    | true =>
      rw [BitVec.msb_eq_true_iff_two_mul_ge] at hmsb
      have hpos : 0 < v.toNat := by
        have := Nat.two_pow_pos (8 * S.sizeof)
        omega
      simp only [Bool.and_self, if_true, BitVec.toNat_neg]
      rw [Nat.mod_eq_of_lt (by omega)]
      omega
  · simp [hs]

/-- The words that lose their sign before the digit loop: all but the least `long`. -/
theorem plain_magnitude {v : S.Word} (h : ¬ (S = .long ∧ S.val v = -2 ^ 63)) :
    S.Plain (S.magnitude v) := by
  intro hS
  have hne : S.val v ≠ -2 ^ 63 := fun hv => h ⟨hS, hv⟩
  rw [BitVec.msb_eq_false_iff_two_mul_lt, toNat_magnitude]
  subst hS
  have hlo := BitVec.le_two_mul_toInt (x := v)
  have hhi := BitVec.two_mul_toInt_lt (x := v)
  simp only [val, signed, sizeof, if_true] at hne hlo hhi ⊢
  omega

/-- A value that is not the least `long` is written as its canonical numeral. -/
theorem write_elem_eq {v : S.Word} (hb : base = 10 ∨ base = 16)
    (h : ¬ (S = .long ∧ S.val v = -2 ^ 63)) :
    S.write_elem v base = some ((if S.val v < 0 then [45] else []) ++
      (numeral base.toNat (S.val v).natAbs).map digit) := by
  have hlt : (S.magnitude v).toNat < 10 ^ 20 := by
    refine (S.magnitude v).isLt.trans_le ?_
    cases S <;> decide
  have hbase : 10 ≤ base.toNat ∧ base.toNat ≤ 16 := by
    rcases hb with rfl | rfl <;> decide
  have hroom : 20 < S.sizeof * 8 := by
    cases S <;> decide
  obtain ⟨left, hleft, heq⟩ := itoaLoop_eq (by omega) hbase.2 19 (S.sizeof * 8)
    (S.magnitude v) [] (plain_magnitude h) (hlt.trans_le (Nat.pow_le_pow_left hbase.1 20))
    (by omega)
  obtain ⟨left, rfl⟩ : ∃ m, left = m + 1 := ⟨left - 1, by omega⟩
  rw [toNat_magnitude, List.append_nil] at heq
  by_cases hneg : S.val v < 0
  · simp [write_elem, itoa, heq, (negative_iff v).mpr hneg, hneg]
  · have hpos : S.negative v = false := by simpa using mt (negative_iff v).mp hneg
    simp [write_elem, itoa, heq, hpos, hneg]

theorem val_injective (S : IntType) : Function.Injective S.val := by
  intro v w h
  cases S <;> simpa [val, signed, BitVec.toInt_inj, BitVec.toNat_inj] using h

/-- The least `long` is written as characters that are not digits. -/
theorem write_elem_least_long (hb : base = 10 ∨ base = 16) :
    ∃ cs, write_elem .long (BitVec.intMin 64) base = some cs ∧ readInt base.toNat cs = none := by
  rcases hb with rfl | rfl
  · exact ⟨[45, 39, 46, 46, 45, 45, 41, 46, 48, 45, 42, 40, 43, 44, 41, 41, 43, 40, 48, 40],
      by decide, by decide⟩
  · exact ⟨[45, 40, 48, 48, 48, 48, 48, 48, 48, 48, 48, 48, 48, 48, 48, 48, 48],
      by decide, by decide⟩

/-- The least `long` as a case of the type. -/
theorem write_elem_least (hb : base = 10 ∨ base = 16) {v : S.Word}
    (h : S = .long ∧ S.val v = -2 ^ 63) :
    ∃ cs, S.write_elem v base = some cs ∧ readInt base.toNat cs = none := by
  obtain ⟨rfl, hv⟩ := h
  have hleast : v = BitVec.intMin 64 := val_injective .long (hv.trans (by decide))
  exact hleast ▸ write_elem_least_long hb

theorem exists_write_elem (hb : base = 10 ∨ base = 16) (v : S.Word) :
    ∃ cs, S.write_elem v base = some cs := by
  by_cases h : S = .long ∧ S.val v = -2 ^ 63
  · obtain ⟨cs, hcs, -⟩ := write_elem_least hb h
    exact ⟨cs, hcs⟩
  · exact ⟨_, write_elem_eq hb h⟩

/-- What reads back is not the text of another value. -/
theorem write_elem_ne (hb : base = 10 ∨ base = 16) {v w : S.Word} {cs : List Byte} (hne : w ≠ v)
    (hread : readInt base.toNat cs = some (S.val v)) : S.write_elem w base ≠ some cs := by
  intro hw
  have hbase : 1 < base.toNat ∧ base.toNat ≤ 16 := by
    rcases hb with rfl | rfl <;> decide
  by_cases h : S = .long ∧ S.val w = -2 ^ 63
  · obtain ⟨cs', hcs', hnone⟩ := write_elem_least hb h
    rw [hw, Option.some.injEq] at hcs'
    rw [← hcs', hread] at hnone
    cases hnone
  · rw [write_elem_eq hb h, Option.some.injEq] at hw
    rw [← hw, (isNumeral_numeral hbase.1 (S.val w)).read hbase.2, Option.some.injEq] at hread
    exact hne (val_injective S hread)

/-- `write_elem` never leaves its buffer, and for every value but the least `long` it writes the
canonical numeral, which reads back as the value and is the text of no other. -/
theorem write_elem_canonical_iff (S : IntType) (v : S.Word) (base : BitVec 32)
    (hb : base = 10 ∨ base = 16) :
    (∃ cs, S.write_elem v base = some cs) ∧
      ((∃ cs, S.write_elem v base = some cs ∧ IsNumeral base.toNat (S.val v) cs ∧
          readInt base.toNat cs = some (S.val v) ∧ ∀ w ≠ v, S.write_elem w base ≠ some cs) ↔
        ¬ (S = .long ∧ S.val v = -2 ^ 63)) := by
  have hbase : 1 < base.toNat ∧ base.toNat ≤ 16 := by
    rcases hb with rfl | rfl <;> decide
  refine ⟨exists_write_elem hb v, ?_⟩
  by_cases h : S = .long ∧ S.val v = -2 ^ 63
  · obtain ⟨cs, hcs, hnone⟩ := write_elem_least hb h
    simp [hcs, hnone, h]
  · have hnum := isNumeral_numeral hbase.1 (S.val v)
    have hread := hnum.read hbase.2
    have hne : ∀ w ≠ v, S.write_elem w base ≠ some _ := fun w hw => write_elem_ne hb hw hread
    exact ⟨fun _ => h, fun _ => ⟨_, write_elem_eq hb h, hnum, hread, hne⟩⟩

theorem write_elem_canonical_int_min :
    (∃ cs, write_elem .int (BitVec.intMin 32) 10 = some cs) ∧
      ((∃ cs, write_elem .int (BitVec.intMin 32) 10 = some cs ∧
          IsNumeral 10 (val .int (BitVec.intMin 32)) cs ∧
          readInt 10 cs = some (val .int (BitVec.intMin 32)) ∧
          ∀ w : Word .int, w ≠ BitVec.intMin 32 → write_elem .int w 10 ≠ some cs) ↔
        ¬ (int = long ∧ val .int (BitVec.intMin 32) = -2 ^ 63)) :=
  write_elem_canonical_iff .int (BitVec.intMin 32) 10 (.inl rfl)

/-- `-9223372036854775808` is written as `-'..--).0-*(+,))+(0(`. -/
theorem write_elem_long_min :
    ¬ ∃ cs, write_elem .long (BitVec.intMin 64) 10 = some cs ∧
      IsNumeral 10 (val .long (BitVec.intMin 64)) cs := by
  intro ⟨cs, hcs, hnum⟩
  obtain ⟨cs', hcs', hnone⟩ := write_elem_least_long (.inl rfl)
  have hread : readInt 10 cs = some (val .long (BitVec.intMin 64)) := hnum.read (by decide)
  rw [hcs, Option.some.injEq] at hcs'
  rw [← hcs'] at hnone
  exact absurd (hread.symm.trans hnone) (by simp)

end IntType

end Multiplix.Core
