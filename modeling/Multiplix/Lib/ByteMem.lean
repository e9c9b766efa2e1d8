import Mathlib.Tactic.Ring

/-! Byte-addressed memory with little-endian words. -/
namespace Lib

abbrev Byte := BitVec 8

abbrev Mem := ℕ → Byte

namespace Mem

/-- The little-endian word of `n` bytes at `a`. -/
def load : ℕ → Mem → ℕ → ℕ
  | 0, _, _ => 0
  | n + 1, m, a => (m a).toNat + 256 * load n m (a + 1)

/-- Overwrite the `n` bytes at `a` with the low bytes of `v`. -/
def store (n : ℕ) (m : Mem) (a v : ℕ) : Mem := fun x =>
  if a ≤ x ∧ x < a + n then BitVec.ofNat 8 (v / 256 ^ (x - a)) else m x

/-- Set the `n` bytes at `a` to `c`. -/
def fill (m : Mem) (a n : ℕ) (c : Byte) : Mem := fun x =>
  if a ≤ x ∧ x < a + n then c else m x

/-- Copy `n` bytes of `src` starting at `b` to `m` at `a`. -/
def copy (m : Mem) (a : ℕ) (src : Mem) (b n : ℕ) : Mem := fun x =>
  if a ≤ x ∧ x < a + n then src (b + (x - a)) else m x

theorem copy_shift (m : Mem) (a : ℕ) (src : Mem) (b n : ℕ) :
    m.copy a (fun x => src (b + x)) 0 n = m.copy a src b n := by
  unfold copy
  simp only [Nat.zero_add]

/-- Store words of `n` bytes one after the other. -/
def storeWords (n : ℕ) (m : Mem) (a : ℕ) : List ℕ → Mem
  | [] => m
  | v :: vs => storeWords n (store n m a v) (a + n) vs

/-- The `n` bytes from `a` on. -/
def slice (m : Mem) (a n : ℕ) : List Byte := (List.range n).map fun i => m (a + i)

/-- The two memories hold the same bytes in `[a, a + n)`. -/
def SameOn (m m' : Mem) (a n : ℕ) : Prop := ∀ x, a ≤ x → x < a + n → m' x = m x

theorem load_lt (n : ℕ) (m : Mem) (a : ℕ) : load n m a < 256 ^ n := by
  induction n generalizing a with
  | zero => simp [load]
  | succ n ih =>
    have hb := (m a).isLt
    have hr := ih (a + 1)
    simp only [load, pow_succ]
    omega

theorem load_congr {m m' : Mem} {n a : ℕ} (h : m.SameOn m' a n) : load n m' a = load n m a := by
  induction n generalizing a with
  | zero => rfl
  | succ n ih =>
    have hr : load n m' (a + 1) = load n m (a + 1) :=
      ih fun x hx hx' => h x (by omega) (by omega)
    simp only [load, hr, h a le_rfl (by omega)]

theorem store_outside {n a x : ℕ} (m : Mem) (v : ℕ) (h : x < a ∨ a + n ≤ x) :
    store n m a v x = m x := if_neg (by omega)

theorem fill_outside {a n x : ℕ} (m : Mem) (c : Byte) (h : x < a ∨ a + n ≤ x) :
    fill m a n c x = m x := if_neg (by omega)

theorem fill_inside {a n x : ℕ} (m : Mem) (c : Byte) (h : a ≤ x) (h' : x < a + n) :
    fill m a n c x = c := if_pos ⟨h, h'⟩

theorem copy_outside {a n x : ℕ} (m src : Mem) (b : ℕ) (h : x < a ∨ a + n ≤ x) :
    copy m a src b n x = m x := if_neg (by omega)

theorem copy_inside {a n x : ℕ} (m src : Mem) (b : ℕ) (h : a ≤ x) (h' : x < a + n) :
    copy m a src b n x = src (b + (x - a)) := if_pos ⟨h, h'⟩

private theorem load_store_shift (n k : ℕ) (m : Mem) (a v : ℕ) :
    load n (store (k + n) m a v) (a + k) = v / 256 ^ k % 256 ^ n := by
  induction n generalizing k with
  | zero => simp [load, Nat.mod_one]
  | succ n ih =>
    have hr := ih (k + 1)
    rw [show k + 1 + n = k + (n + 1) by omega, show a + (k + 1) = a + k + 1 by omega] at hr
    have hx : a ≤ a + k ∧ a + k < a + (k + (n + 1)) := by omega
    simp only [load, hr, store, hx, and_self, if_true, Nat.add_sub_cancel_left,
      BitVec.toNat_ofNat]
    rw [pow_succ 256 k, ← Nat.div_div_eq_div_mul, pow_succ' 256 n, Nat.mod_mul]

@[simp] theorem load_store_same (n : ℕ) (m : Mem) (a v : ℕ) :
    load n (store n m a v) a = v % 256 ^ n := by
  simpa using load_store_shift n 0 m a v

theorem load_store_word {n v : ℕ} (m : Mem) (a : ℕ) (hv : v < 256 ^ n) :
    load n (store n m a v) a = v := by
  rw [load_store_same, Nat.mod_eq_of_lt hv]

theorem load_store_disjoint {n k a b : ℕ} (m : Mem) (v : ℕ) (h : a + n ≤ b ∨ b + k ≤ a) :
    load n (store k m b v) a = load n m a :=
  load_congr fun _ _ _ => store_outside m v (by omega)

theorem load_fill_zero {n k a b : ℕ} (m : Mem) (h : b ≤ a) (h' : a + n ≤ b + k) :
    load n (fill m b k 0) a = 0 := by
  induction n generalizing a with
  | zero => rfl
  | succ n ih =>
    simp only [load, ih (a := a + 1) (by omega) (by omega),
      fill_inside m 0 h (by omega : a < b + k)]
    rfl

theorem SameOn.refl (m : Mem) (a n : ℕ) : m.SameOn m a n := fun _ _ _ => rfl

theorem SameOn.trans {m₁ m₂ m₃ : Mem} {a n : ℕ} (h : m₁.SameOn m₂ a n) (h' : m₂.SameOn m₃ a n) :
    m₁.SameOn m₃ a n := fun x hx hx' => (h' x hx hx').trans (h x hx hx')

theorem SameOn.mono {m m' : Mem} {a n b k : ℕ} (h : m.SameOn m' a n) (hb : a ≤ b)
    (hk : b + k ≤ a + n) : m.SameOn m' b k := fun x hx hx' => h x (by omega) (by omega)

theorem sameOn_store {n k a b : ℕ} (m : Mem) (v : ℕ) (h : a + n ≤ b ∨ b + k ≤ a) :
    m.SameOn (store k m b v) a n := fun _ _ _ => store_outside m v (by omega)

@[simp] theorem length_slice (m : Mem) (a n : ℕ) : (m.slice a n).length = n := by
  rw [slice, List.length_map, List.length_range]

theorem slice_succ (m : Mem) (a n : ℕ) : m.slice a (n + 1) = m a :: m.slice (a + 1) n := by
  unfold slice
  rw [List.range_succ_eq_map, List.map_cons, List.map_map, Nat.add_zero]
  congr 2
  funext i
  rw [Function.comp_apply]
  congr 1
  omega

theorem slice_add (m : Mem) (a n k : ℕ) : m.slice a (n + k) = m.slice a n ++ m.slice (a + n) k := by
  induction n generalizing a with
  | zero => simp [slice]
  | succ n ih =>
    rw [Nat.succ_add_eq_add_succ n k, show n + (k + 1) = n + k + 1 by omega, slice_succ, ih,
      slice_succ, List.cons_append, show a + 1 + n = a + (n + 1) by omega]

theorem slice_getD (a : ℕ) (bs : List Byte) :
    slice (fun x => bs.getD (x - a) 0) a bs.length = bs := by
  apply List.ext_getElem
  · rw [length_slice]
  · intro i h _
    rw [length_slice] at h
    simp [slice, h]

/-- Equal bytes make equal slices, also at another place. -/
theorem slice_congr {m m' : Mem} {a b n : ℕ} (h : ∀ i < n, m' (a + i) = m (b + i)) :
    m'.slice a n = m.slice b n :=
  List.map_congr_left fun i hi => h i (List.mem_range.mp hi)

end Mem

/-- The low `n` bytes of a word, the lowest one first. -/
def leBytes : ℕ → ℕ → List Byte
  | 0, _ => []
  | n + 1, v => BitVec.ofNat 8 v :: leBytes n (v >>> 8)

/-- The word that bytes in this order make up. -/
def leVal : List Byte → ℕ
  | [] => 0
  | b :: bs => b.toNat + 256 * leVal bs

theorem Mem.load_slice (m : Mem) (a n : ℕ) : m.load n a = leVal (m.slice a n) := by
  induction n generalizing a with
  | zero => rfl
  | succ n ih => rw [slice_succ, load, leVal, ih]

@[simp] theorem length_leBytes (n v : ℕ) : (leBytes n v).length = n := by
  induction n generalizing v with
  | zero => rfl
  | succ n ih => simp [leBytes, ih]

theorem leVal_leBytes (n v : ℕ) : leVal (leBytes n v) = v % 256 ^ n := by
  induction n generalizing v with
  | zero => simp [leBytes, leVal, Nat.mod_one]
  | succ n ih =>
    rw [leBytes, leVal, ih, Nat.shiftRight_eq_div_pow, pow_succ' 256 n, Nat.mod_mul,
      BitVec.toNat_ofNat]

end Lib
