import Mathlib.Data.Finset.Card
import Mathlib.Data.Finset.Range
import Mathlib.Logic.Function.Basic
import Multiplix.Lib.ByteMem

/-! Bytes kept in blocks, and blocks that are referred to once. -/
namespace Lib

namespace Mem

/-- The bytes of blocks of `B` bytes, one block after the other. -/
def ofBlocks (B : ℕ) (blk : ℕ → Mem) : Mem := fun x => blk (x / B) (x % B)

theorem copy_zero (m : Mem) (a : ℕ) (src : Mem) (b : ℕ) : m.copy a src b 0 = m := by
  funext x
  exact copy_outside m src b (by omega)

theorem copy_congr {m m' src : Mem} {a b n x : ℕ} (h : m' x = m x) :
    m'.copy a src b n x = m.copy a src b n x := by
  unfold copy
  rw [h]

theorem copy_copy (m : Mem) (a : ℕ) (src : Mem) (b n k : ℕ) :
    (m.copy a src b n).copy (a + n) src (b + n) k = m.copy a src b (n + k) := by
  funext x
  by_cases hx : a + n ≤ x ∧ x < a + n + k
  · rw [copy_inside _ _ _ hx.1 hx.2, copy_inside _ _ _ (by omega) (by omega)]
    congr 1
    omega
  · rw [copy_outside _ _ _ (by omega)]
    by_cases hx' : a ≤ x ∧ x < a + n
    · rw [copy_inside _ _ _ hx'.1 hx'.2, copy_inside _ _ _ hx'.1 (by omega)]
    · rw [copy_outside _ _ _ (by omega), copy_outside _ _ _ (by omega)]

theorem storeWords_outside {n a x : ℕ} (m : Mem) (vs : List ℕ)
    (h : x < a ∨ a + n * vs.length ≤ x) : storeWords n m a vs x = m x := by
  induction vs generalizing m a with
  | nil => rfl
  | cons v vs ih =>
    rw [List.length_cons, Nat.mul_succ] at h
    rw [storeWords, ih _ (by omega), store_outside _ _ (by omega)]

theorem load_storeWords_disjoint {n k a b : ℕ} (m : Mem) (vs : List ℕ)
    (h : a + k ≤ b ∨ b + n * vs.length ≤ a) : load k (storeWords n m b vs) a = load k m a :=
  load_congr fun _ _ _ => storeWords_outside m vs (by omega)

theorem load_storeWords {n a k : ℕ} (m : Mem) (vs : List ℕ) (hk : k < vs.length)
    (hv : vs[k] < 256 ^ n) : load n (storeWords n m a vs) (a + n * k) = vs[k] := by
  induction vs generalizing m a k with
  | nil => exact absurd hk (Nat.not_lt_zero k)
  | cons v vs ih =>
    unfold storeWords
    cases k with
    | zero =>
      rw [Nat.mul_zero, Nat.add_zero, load_storeWords_disjoint _ _ (Or.inl le_rfl)]
      exact load_store_word m a hv
    | succ k =>
      rw [Nat.mul_succ, Nat.add_comm (n * k), ← Nat.add_assoc]
      exact ih (store n m a v) (Nat.lt_of_succ_lt_succ hk) hv

/-- Bytes of one block are written. -/
theorem ofBlocks_copy {B o b n : ℕ} {blk blk' : ℕ → Mem} {src : Mem} (hB : 0 < B)
    (hn : o % B + n ≤ B)
    (hblk : ∀ x < B, blk' (o / B) x = (blk (o / B)).copy (o % B) src b n x)
    (hsame : ∀ k, k ≠ o / B → blk' k = blk k) :
    ofBlocks B blk' = (ofBlocks B blk).copy o src b n := by
  funext x
  have hx := Nat.div_add_mod x B
  have ho := Nat.div_add_mod o B
  by_cases hk : x / B = o / B
  · have hval : ofBlocks B blk' x = (blk (o / B)).copy (o % B) src b n (x % B) := by
      unfold ofBlocks
      rw [hk, hblk _ (Nat.mod_lt x hB)]
    rw [hk] at hx
    rw [hval]
    by_cases hin : o ≤ x ∧ x < o + n
    · rw [copy_inside _ _ _ hin.1 hin.2, copy_inside _ _ _ (by omega) (by omega)]
      congr 1
      omega
    · rw [copy_outside _ _ _ (by omega), copy_outside _ _ _ (by omega), ofBlocks, hk]
  · have hout : x < o ∨ o + n ≤ x := by
      by_contra hin
      apply hk
      have hlt : x < B * (o / B) + B := by omega
      apply le_antisymm
      · rw [← Nat.lt_succ_iff, Nat.div_lt_iff_lt_mul hB, Nat.succ_mul, Nat.mul_comm]
        exact hlt
      · exact Nat.div_le_div_right (by omega)
    rw [copy_outside _ _ _ hout, ofBlocks, ofBlocks, hsame _ hk]

end Mem

/-- What places refer to, 0 for nothing. No two places share one, and all are in use. -/
structure Owned {ι : Type} (ref : ι → ℕ) (used : ℕ → Prop) : Prop where
  inj : ∀ p q, ref p ≠ 0 → ref p = ref q → p = q
  used : ∀ p, ref p ≠ 0 → used (ref p)

namespace Owned

variable {ι : Type} {ref ref' : ι → ℕ} {used used' : ℕ → Prop}

theorem mono (h : Owned ref used) (hu : ∀ b, used b → used' b) : Owned ref used' :=
  ⟨h.inj, fun p hp => hu _ (h.used p hp)⟩

/-- Some places refer to nothing any more. -/
theorem weaken (h : Owned ref used) (href : ∀ p, ref' p = 0 ∨ ref' p = ref p) :
    Owned ref' used := by
  have hsame {p : ι} (hp : ref' p ≠ 0) : ref' p = ref p := (href p).resolve_left hp
  constructor
  · intro p q hp he
    have hq : ref' q ≠ 0 := he ▸ hp
    rw [hsame hp, hsame hq] at he
    exact h.inj p q (hsame hp ▸ hp) he
  · intro p hp
    rw [hsame hp]
    exact h.used p (hsame hp ▸ hp)

/-- A place that referred to nothing gets something that was not in use. -/
theorem take [DecidableEq ι] {b : ℕ} {p : ι} (h : Owned ref used) (hb : ¬used b)
    (href : ref' = Function.update ref p b) (hu : ∀ x, used x → used' x) (hb' : used' b) :
    Owned ref' used' := by
  subst href
  constructor
  · intro x y hx he
    by_cases hxp : x = p
    · subst hxp
      by_cases hyp : y = x
      · exact hyp.symm
      · rw [Function.update_self, Function.update_of_ne hyp] at *
        rw [he] at hb
        exact absurd (h.used y (by rwa [← he])) hb
    · rw [Function.update_of_ne hxp] at *
      by_cases hyp : y = p
      · subst hyp
        rw [Function.update_self] at he
        exact absurd (he ▸ h.used x hx) hb
      · rw [Function.update_of_ne hyp] at he
        exact h.inj x y hx he
  · intro x hx
    by_cases hxp : x = p
    · subst hxp
      rwa [Function.update_self]
    · rw [Function.update_of_ne hxp] at hx ⊢
      exact hu _ (h.used x hx)

end Owned

section Demand

variable {ι : Type} {ref ref' : ι → ℕ} {used used' : ℕ → Prop} [DecidablePred used]
  [DecidablePred used'] {I : Finset ι} {N b : ℕ} {p : ι}

/-- How many of the numbers below `N` are in use, or are still to be given to these places. -/
def demand (I : Finset ι) (N : ℕ) (ref : ι → ℕ) (used : ℕ → Prop) [DecidablePred used] : ℕ :=
  ((Finset.range N).filter used).card + (I.filter fun p => ref p = 0).card

theorem demand_congr (href : ∀ p ∈ I, ref' p = ref p) (hused : ∀ x < N, used' x ↔ used x) :
    demand I N ref' used' = demand I N ref used := by
  unfold demand
  congr 2
  · apply Finset.filter_congr
    intro x hx
    exact hused x (Finset.mem_range.mp hx)
  · apply Finset.filter_congr
    intro q hq
    rw [href q hq]

/-- What one place gets is in use from then on. -/
theorem demand_take [DecidableEq ι] (hp : p ∈ I) (hz : ref p = 0) (hb : ¬used b) (hlt : b < N)
    (hne : b ≠ 0) (hused : ∀ x < N, used' x ↔ used x ∨ x = b) :
    demand I N (Function.update ref p b) used' = demand I N ref used := by
  have hin : (Finset.range N).filter used' = insert b ((Finset.range N).filter used) := by
    ext x
    rw [Finset.mem_insert, Finset.mem_filter, Finset.mem_filter, Finset.mem_range]
    constructor
    · rintro ⟨hx, hu⟩
      exact ((hused x hx).mp hu).elim (fun h => Or.inr ⟨hx, h⟩) Or.inl
    · rintro (rfl | ⟨hx, hu⟩)
      · exact ⟨hlt, (hused x hlt).mpr (Or.inr rfl)⟩
      · exact ⟨hx, (hused x hx).mpr (Or.inl hu)⟩
  have hout : (I.filter fun q => Function.update ref p b q = 0) =
      (I.filter fun q => ref q = 0).erase p := by
    ext q
    rw [Finset.mem_erase, Finset.mem_filter, Finset.mem_filter]
    by_cases hq : q = p
    · subst hq
      rw [Function.update_self]
      exact ⟨fun h => absurd h.2 hne, fun h => absurd rfl h.1⟩
    · rw [Function.update_of_ne hq]
      exact ⟨fun h => ⟨hq, h⟩, fun h => h.2⟩
  have hnot : b ∉ (Finset.range N).filter used := fun h => hb (Finset.mem_filter.mp h).2
  have hmem : p ∈ I.filter fun q => ref q = 0 := Finset.mem_filter.mpr ⟨hp, hz⟩
  have hpos := Finset.card_pos.mpr ⟨p, hmem⟩
  unfold demand
  rw [hin, hout, Finset.card_insert_of_notMem hnot, Finset.card_erase_of_mem hmem]
  omega

/-- Where all places have something, no more than all is in use. -/
theorem demand_le (h : ∀ q ∈ I, ref q ≠ 0) : demand I N ref used ≤ N := by
  have hnone : (I.filter fun q => ref q = 0) = ∅ := by
    rw [Finset.filter_eq_empty_iff]
    exact fun q hq => h q hq
  have hle := Finset.card_filter_le (Finset.range N) used
  rw [Finset.card_range] at hle
  unfold demand
  rwa [hnone, Finset.card_empty, Nat.add_zero]

/-- Where all is in use, a place that has nothing asks for too much. -/
theorem lt_demand (hp : p ∈ I) (hz : ref p = 0) (h : ∀ x < N, used x) :
    N < demand I N ref used := by
  have hall : (Finset.range N).filter used = Finset.range N := by
    rw [Finset.filter_eq_self]
    exact fun x hx => h x (Finset.mem_range.mp hx)
  have hmem : p ∈ I.filter fun q => ref q = 0 := Finset.mem_filter.mpr ⟨hp, hz⟩
  have hpos := Finset.card_pos.mpr ⟨p, hmem⟩
  unfold demand
  rw [hall, Finset.card_range]
  omega

end Demand
end Lib
