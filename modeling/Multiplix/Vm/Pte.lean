import Multiplix.Core.Bits

/-! Page-table entries. What `plix.vm` and the two page tables ask of an entry is one interface,
with the laws that make its operations fit together. -/
namespace Multiplix.Vm
open Core

abbrev Pte := BitVec 64

inductive PtLevel
  | normal
  | mega
  | giga
  deriving DecidableEq

/-- The flags of a mapping. -/
abbrev Perm := BitVec 5

namespace Perm

def r : Perm := 1
def w : Perm := 2
def x : Perm := 4
def u : Perm := 8
def cow : Perm := 16
def rw : Perm := r ||| w
def rwx : Perm := rw ||| x
def urx : Perm := u ||| r ||| x
def urw : Perm := u ||| rw
def urwx : Perm := urw ||| x

/-- `(perm & flag) != 0`. -/
def has (p flag : Perm) : Bool := p &&& flag != 0

/-- D initialises a variable of an enum type with the first member. -/
def init : Perm := r

def addIf (p flag : Perm) (b : Bool) : Perm := if b then p ||| flag else p

end Perm

/-- The entries of one architecture. `stops` is the test that ends a walk above the level asked
for, `link` what a walk writes for a new table, and `mapped` what `map` writes. -/
structure PteOps where
  paBits : ℕ
  valid : Pte → Bool
  stops : Pte → Bool
  leaf : Pte → PtLevel → Bool
  pa : Pte → ℕ
  perm : Pte → Perm
  setPa : Pte → ℕ → Pte
  setPerm : Pte → Perm → Pte
  link : Pte → ℕ → Pte
  mapped : Pte → ℕ → PtLevel → Perm → Pte
  valid_zero : valid 0 = false
  stops_zero : stops 0 = false
  leaf_of_stops : ∀ {e l}, l ≠ .normal → stops e = true → leaf e l = true
  link_spec : ∀ {e t}, valid e = false → stops e = false → t < 2 ^ paBits → 4096 ∣ t →
    stops (link e t) = false ∧ valid (link e t) = true ∧ pa (link e t) = t
  mapped_spec : ∀ {e a l p}, a < 2 ^ paBits → 4096 ∣ a → p &&& Perm.rwx ≠ 0 →
    leaf (mapped e a l p) l = true ∧ pa (mapped e a l p) = a ∧
      perm (mapped e a l p) = p ||| Perm.r ∧ (l ≠ .normal → stops (mapped e a l p) = true)
  cow_zero : (perm 0).has .cow = false
  valid_mapped : ∀ {e a l p}, valid (mapped e a l p) = true
  setPerm_spec : ∀ {e p}, valid e = true → p.has .r = true →
    valid (setPerm e p) = true ∧ leaf (setPerm e p) .normal = true ∧
      pa (setPerm e p) = pa e ∧ perm (setPerm e p) = p
  setPa_spec : ∀ {e a}, a < 2 ^ paBits → 4096 ∣ a →
    valid (setPa e a) = valid e ∧ leaf (setPa e a) .normal = leaf e .normal ∧
      pa (setPa e a) = a ∧ perm (setPa e a) = perm e

theorem testBit_of_aligned {a : ℕ} (h : 4096 ∣ a) {i : ℕ} (hi : i < 12) : a.testBit i = false := by
  obtain ⟨q, rfl⟩ := h
  rw [show (4096 : ℕ) = 2 ^ 12 by decide, Nat.testBit_two_pow_mul, decide_eq_false (by omega)]
  rfl

/-- An address is what the bits of its entry say. -/
theorem toNat_eq_of_testBit {v : BitVec 64} {a : ℕ} (ha : a < 2 ^ 64)
    (h : ∀ i < 64, v.getLsbD i = a.testBit i) : v.toNat = a := by
  refine Nat.eq_of_testBit_eq fun i => ?_
  rw [BitVec.testBit_toNat]
  rcases Nat.lt_or_ge i 64 with hi | hi
  · exact h i hi
  · rw [BitVec.getLsbD_of_ge _ _ hi, Nat.testBit_lt_two_pow]
    exact ha.trans_le (Nat.pow_le_pow_right (by omega) hi)

theorem testBit_eq_false_of_lt {a n : ℕ} (ha : a < 2 ^ n) {i : ℕ} (hi : n ≤ i) :
    a.testBit i = false :=
  Nat.testBit_lt_two_pow (ha.trans_le (Nat.pow_le_pow_right (by omega) hi))

end Multiplix.Vm
