import Mathlib.Data.Nat.Digits.Lemmas

/-! Numerals of natural numbers: the digits in a base, the most significant first, with one
digit for zero. -/
namespace Lib

def numeral (b n : ℕ) : List ℕ := if n = 0 then [0] else (Nat.digits b n).reverse

/-- The number that a list of digits denotes. -/
def numValue (b : ℕ) (ds : List ℕ) : ℕ := ds.foldl (fun a d => a * b + d) 0

variable {b n d : ℕ}

@[simp] theorem numeral_zero (b : ℕ) : numeral b 0 = [0] := by simp [numeral]

theorem numeral_ne_nil (b n : ℕ) : numeral b n ≠ [] := by
  unfold numeral
  split_ifs with h
  · simp
  · simpa using Nat.digits_ne_nil_iff_ne_zero.mpr h

theorem lt_of_mem_numeral (hb : 1 < b) (hd : d ∈ numeral b n) : d < b := by
  unfold numeral at hd
  split_ifs at hd with h
  · rw [List.mem_singleton] at hd
    omega
  · exact Nat.digits_lt_base hb (List.mem_reverse.mp hd)

/-- There is no superfluous zero in front. -/
theorem numeral_of_head (h : (numeral b n).head? = some 0) : numeral b n = [0] := by
  by_cases hn : n = 0
  · simp [hn]
  · have hne : Nat.digits b n ≠ [] := Nat.digits_ne_nil_iff_ne_zero.mpr hn
    rw [numeral, if_neg hn, List.head?_reverse, List.getLast?_eq_some_getLast hne,
      Option.some.injEq] at h
    exact absurd h (Nat.getLast_digit_ne_zero b hn)

/-- The recursion by which a division loop finds the digits. -/
theorem numeral_div (hb : 1 < b) (n : ℕ) :
    numeral b n = (if n / b = 0 then [] else numeral b (n / b)) ++ [n % b] := by
  by_cases hn : n = 0
  · simp [hn]
  · rw [numeral, if_neg hn, Nat.digits_def' hb (by omega), List.reverse_cons]
    split_ifs with hq
    · simp [hq]
    · simp [numeral, hq]

theorem numValue_append (b : ℕ) (ds : List ℕ) (d : ℕ) :
    numValue b (ds ++ [d]) = numValue b ds * b + d := by
  simp [numValue]

theorem numValue_numeral (hb : 1 < b) (n : ℕ) : numValue b (numeral b n) = n := by
  induction n using Nat.strong_induction_on with
  | _ n ih =>
    rw [numeral_div hb, numValue_append]
    have hdm := Nat.div_add_mod' n b
    split_ifs with hq
    · rw [hq] at hdm
      simpa [numValue] using hdm
    · have hlt : n / b < n := Nat.div_lt_self (Nat.pos_of_ne_zero fun h => hq (by simp [h])) hb
      rw [ih _ hlt, hdm]

end Lib
