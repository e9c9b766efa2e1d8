import Multiplix.Lib.ByteMem
import Multiplix.Lib.CopyDown

/-! `memmove` of `builtins`. Pointers are machine words, and memory is what is at every address. -/
namespace Multiplix.Core
open Lib

abbrev Space := BitVec 64 → Byte

/-- `while (n-- > 0) *d++ = *s++` -/
def moveUp : ℕ → BitVec 64 → BitVec 64 → Space → Space
  | 0, _, _, m => m
  | n + 1, d, s, m => moveUp n (d + 1) (s + 1) (Function.update m d (m s))

/-- `while (n-- > 0) *--d = *--s` -/
def moveDown : ℕ → BitVec 64 → BitVec 64 → Space → Space
  | 0, _, _, m => m
  | n + 1, d, s, m => moveDown n (d - 1) (s - 1) (Function.update m (d - 1) (m (s - 1)))

/-- The pointer that is returned, and memory. -/
def memmove (m : Space) (dst src n : BitVec 64) : BitVec 64 × Space :=
  if src < dst ∧ src + n > dst then (dst, moveDown n.toNat (dst + n) (src + n) m)
  else (dst, moveUp n.toNat dst src m)

/-- The byte at an offset from a pointer. -/
def cell (a : BitVec 64) (i : ℕ) : BitVec 64 := a + BitVec.ofNat 64 i

/-- A temporary into which `n` bytes are read. -/
def readOut (m : Space) (src : BitVec 64) (n : ℕ) : List Byte :=
  (List.range n).map fun i => m (cell src i)

/-- A temporary is written to memory. -/
def writeBack : List Byte → BitVec 64 → Space → Space
  | [], _, m => m
  | b :: bs, dst, m => writeBack bs (dst + 1) (Function.update m dst b)

section Cells

variable {a b x : BitVec 64} {n i j : ℕ} {m : Space}

theorem cell_zero (a : BitVec 64) : cell a 0 = a := BitVec.add_zero a

theorem cell_one_add (a : BitVec 64) (i : ℕ) : cell (a + 1) i = cell a (i + 1) := by
  unfold cell
  rw [Nat.add_comm i 1, BitVec.ofNat_add, BitVec.add_assoc]
  rfl

theorem cell_succ_sub (a : BitVec 64) (i : ℕ) : cell a (i + 1) - 1 = cell a i := by
  unfold cell
  rw [BitVec.ofNat_add, ← BitVec.add_assoc]
  exact BitVec.add_sub_cancel _ _

theorem toNat_cell (h : a.toNat + i < 2 ^ 64) : (cell a i).toNat = a.toNat + i := by
  unfold cell
  rw [BitVec.toNat_add, BitVec.toNat_ofNat, Nat.mod_eq_of_lt (by omega : i < 2 ^ 64),
    Nat.mod_eq_of_lt h]

theorem cell_inj (h : a.toNat + n < 2 ^ 64) (hi : i < n) (hj : j < n)
    (he : cell a i = cell a j) : i = j := by
  have hnat := congrArg BitVec.toNat he
  rw [toNat_cell (by omega), toNat_cell (by omega)] at hnat
  omega

/-- The bytes of a range are those that are not outside. -/
theorem cell_ne (h : a.toNat + n < 2 ^ 64) (hi : i < n)
    (hx : x.toNat < a.toNat ∨ a.toNat + n ≤ x.toNat) : cell a i ≠ x := by
  rintro rfl
  rw [toNat_cell (by omega)] at hx
  omega

theorem moveUp_eq (d s : BitVec 64) : moveUp n d s m = copyUp (cell s) (cell d) n m := by
  induction n generalizing d s m with
  | zero => rfl
  | succ n ih =>
    have hnext (a : BitVec 64) : cell (a + 1) = cell a ∘ Nat.succ := funext (cell_one_add a)
    rw [moveUp, copyUp, ih, hnext, hnext, cell_zero, cell_zero]

theorem moveDown_eq (d s : BitVec 64) :
    moveDown n (cell d n) (cell s n) m = copyDown (cell s) (cell d) n m := by
  induction n generalizing m with
  | zero => rfl
  | succ n ih => rw [moveDown, copyDown, cell_succ_sub, cell_succ_sub, ih]

end Cells

/-- The bytes of `[src, src + n)` have arrived at `dst`, and all else is as it was. -/
structure Moved (m : Space) (dst src : BitVec 64) (n : ℕ) (m' : Space) : Prop where
  copied : ∀ i < n, m' (cell dst i) = m (cell src i)
  frame : ∀ x, (∀ i < n, cell dst i ≠ x) → m' x = m x

section Moved

variable {m m' m'' : Space} {dst src n : BitVec 64} {k : ℕ}

/-- There is one such memory. -/
theorem Moved.unique (h : Moved m dst src k m') (h' : Moved m dst src k m'') : m' = m'' := by
  funext x
  by_cases hx : ∀ i < k, cell dst i ≠ x
  · rw [h.frame x hx, h'.frame x hx]
  · push Not at hx
    obtain ⟨i, hi, rfl⟩ := hx
    rw [h.copied i hi, h'.copied i hi]

theorem writeBack_frame {bs : List Byte} {x : BitVec 64} (h : ∀ i < bs.length, cell dst i ≠ x) :
    writeBack bs dst m x = m x := by
  induction bs generalizing dst m with
  | nil => rfl
  | cons b bs ih =>
    rw [writeBack, ih fun i hi => ?_]
    · have hne := h 0 (Nat.succ_pos _)
      rw [cell_zero] at hne
      exact Function.update_of_ne hne.symm _ _
    · rw [cell_one_add]
      exact h (i + 1) (Nat.succ_lt_succ hi)

theorem writeBack_copied {bs : List Byte} (hd : dst.toNat + bs.length < 2 ^ 64) {i : ℕ}
    (hi : i < bs.length) : writeBack bs dst m (cell dst i) = bs[i] := by
  induction bs generalizing dst m i with
  | nil => exact absurd hi (Nat.not_lt_zero i)
  | cons b bs ih =>
    rw [List.length_cons] at hd hi
    have hnext : (dst + 1).toNat = dst.toNat + 1 := toNat_cell (i := 1) (by omega)
    rw [writeBack]
    cases i with
    | zero =>
      rw [writeBack_frame, cell_zero, Function.update_self]
      · rfl
      · intro i hi he
        rw [cell_one_add] at he
        exact absurd (cell_inj hd (Nat.succ_lt_succ hi) (Nat.succ_pos _) he) (Nat.succ_ne_zero i)
    | succ i =>
      rw [← cell_one_add]
      exact ih (by omega) (Nat.lt_of_succ_lt_succ hi)

/-- Copying through a temporary moves the bytes. -/
theorem moved_writeBack (hd : dst.toNat + k < 2 ^ 64) :
    Moved m dst src k (writeBack (readOut m src k) dst m) := by
  have hlen : (readOut m src k).length = k := by
    rw [readOut, List.length_map, List.length_range]
  constructor
  · intro i hi
    rw [writeBack_copied (by rwa [hlen]) (by rwa [hlen])]
    simp [readOut]
  · intro x hx
    exact writeBack_frame (by rwa [hlen])

/-- From the first byte on, if `dst` is not inside of the source. -/
theorem moved_moveUp (hs : src.toNat + k < 2 ^ 64) (hd : dst.toNat + k < 2 ^ 64)
    (h : dst.toNat ≤ src.toNat ∨ src.toNat + k ≤ dst.toNat) :
    Moved m dst src k (moveUp k dst src m) := by
  rw [moveUp_eq]
  constructor
  · intro j hj
    refine copyUp.of_kept (fun i hi l hl he => cell_inj hd hi hl he) hj fun i hi he => ?_
    have hnat := congrArg BitVec.toNat he
    rw [toNat_cell (by omega), toNat_cell (by omega)] at hnat
    omega
  · intro x hx
    exact copyUp.frame hx

/-- From the last byte on, if `dst` is behind the start of the source. -/
theorem moved_moveDown (hs : src.toNat + k < 2 ^ 64) (hd : dst.toNat + k < 2 ^ 64)
    (h : src.toNat < dst.toNat) : Moved m dst src k (moveDown k (cell dst k) (cell src k) m) := by
  rw [moveDown_eq]
  constructor
  · intro j hj
    refine copyDown.of_kept (fun i hi l hl he => cell_inj hd hi hl he) hj fun i hji hi he => ?_
    have hnat := congrArg BitVec.toNat he
    rw [toNat_cell (by omega), toNat_cell (by omega)] at hnat
    omega
  · intro x hx
    exact copyDown.frame hx

/-- However the ranges overlap. -/
theorem moved_memmove (m : Space) (hs : src.toNat + n.toNat < 2 ^ 64)
    (hd : dst.toNat + n.toNat < 2 ^ 64) : Moved m dst src n.toNat (memmove m dst src n).2 := by
  have hend (a : BitVec 64) : cell a n.toNat = a + n := by rw [cell, BitVec.ofNat_toNat,
    BitVec.setWidth_eq]
  have hstop : (src + n).toNat = src.toNat + n.toNat := by rw [← hend, toNat_cell hs]
  unfold memmove
  split_ifs with h
  · rw [← hend, ← hend]
    exact moved_moveDown hs hd (BitVec.lt_def.mp h.1)
  · refine moved_moveUp hs hd ?_
    rw [gt_iff_lt, BitVec.lt_def, BitVec.lt_def, hstop] at h
    omega

/-- Where neither range wraps around, `memmove` is copying through a temporary: whatever they share,
the old bytes of the source arrive, and all bytes outside of the destination stay. -/
theorem memmove_eq (m : Space) (dst src n : BitVec 64) (hs : src.toNat + n.toNat < 2 ^ 64)
    (hd : dst.toNat + n.toNat < 2 ^ 64) :
    memmove m dst src n = (dst, writeBack (readOut m src n.toNat) dst m) ∧
      (∀ i < n.toNat, (memmove m dst src n).2 (dst + BitVec.ofNat 64 i) =
        m (src + BitVec.ofNat 64 i)) ∧
      ∀ x : BitVec 64, x.toNat < dst.toNat ∨ dst.toNat + n.toNat ≤ x.toNat →
        (memmove m dst src n).2 x = m x := by
  have hmoved := moved_memmove m hs hd
  have hret : (memmove m dst src n).1 = dst := by
    unfold memmove
    split_ifs
    · rfl
    · rfl
  refine ⟨Prod.ext hret (hmoved.unique (moved_writeBack hd)), hmoved.copied, fun x hx => ?_⟩
  exact hmoved.frame x fun i hi => cell_ne hd hi hx

/-- Four bytes are moved up by two, and down by two. -/
theorem memmove_eq_overlap :
    memmove (fun a => a.setWidth 8) 12 10 4 =
      (12, writeBack (readOut (fun a => a.setWidth 8) 10 4) 12 fun a => a.setWidth 8) ∧
    memmove (fun a => a.setWidth 8) 10 12 4 =
      (10, writeBack (readOut (fun a => a.setWidth 8) 12 4) 10 fun a => a.setWidth 8) :=
  ⟨(memmove_eq _ 12 10 4 (by decide) (by decide)).1,
    (memmove_eq _ 10 12 4 (by decide) (by decide)).1⟩

end Moved

end Multiplix.Core
