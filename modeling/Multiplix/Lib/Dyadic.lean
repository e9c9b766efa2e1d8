import Mathlib.Data.Multiset.AddSub
import Mathlib.Data.Multiset.Count
import Mathlib.Data.Nat.Bitwise
import Mathlib.Tactic.Ring

/-! Aligned power-of-two blocks and the tilings they form. -/
namespace Lib

/-- The interval `[off, off + 2 ^ log)`. -/
structure Blk where
  off : ℕ
  log : ℕ
  deriving DecidableEq, Repr

namespace Blk

def size (b : Blk) : ℕ := 2 ^ b.log

def Covers (b : Blk) (x : ℕ) : Prop := b.off ≤ x ∧ x < b.off + b.size

instance (b : Blk) (x : ℕ) : Decidable (b.Covers x) := inferInstanceAs (Decidable (_ ∧ _))

def Aligned (b : Blk) : Prop := b.size ∣ b.off

def Disjoint (b c : Blk) : Prop := b.off + b.size ≤ c.off ∨ c.off + c.size ≤ b.off

theorem size_pos (b : Blk) : 0 < b.size := Nat.two_pow_pos _

theorem covers_off (b : Blk) : b.Covers b.off := ⟨le_rfl, Nat.lt_add_of_pos_right b.size_pos⟩

theorem Disjoint.symm {b c : Blk} (h : b.Disjoint c) : c.Disjoint b := Or.symm h

/-- Two blocks that share no point do not overlap. -/
theorem disjoint_of_forall {b c : Blk} (h : ∀ x, b.Covers x → ¬ c.Covers x) : b.Disjoint c := by
  have hb := h b.off b.covers_off
  have hc : ¬ b.Covers c.off := fun hc => h c.off hc c.covers_off
  have h1 := b.size_pos
  have h2 := c.size_pos
  unfold Covers at hb hc
  unfold Disjoint
  omega

/-- The other half of the block one order up. -/
def buddy (b : Blk) : Blk := ⟨b.off ^^^ b.size, b.log⟩

def lower (b : Blk) : Blk := ⟨b.off, b.log - 1⟩

def upper (b : Blk) : Blk := ⟨b.off + 2 ^ (b.log - 1), b.log - 1⟩

def merged (b : Blk) : Blk := ⟨min b.off b.buddy.off, b.log + 1⟩

theorem xor_one (q : ℕ) : q ^^^ 1 = if q % 2 = 0 then q + 1 else q - 1 := by
  split_ifs with h
  · exact Nat.xor_one_of_even (Nat.even_iff.mpr h)
  · exact Nat.xor_one_of_odd (Nat.odd_iff.mpr (by omega))

/-- An aligned block and its buddy are the two halves of an aligned block twice the size. -/
theorem buddy_cases {b : Blk} (h : b.Aligned) :
    (b.buddy.off = b.off + b.size ∧ 2 * b.size ∣ b.off) ∨
      (b.buddy.off + b.size = b.off ∧ 2 * b.size ∣ b.buddy.off) := by
  obtain ⟨q, hq⟩ := h
  have hs := b.size_pos
  have hx : b.buddy.off = b.size * (q ^^^ 1) := by
    have hd := Nat.shiftLeft_xor_distrib (a := q) (b := 1) (i := b.log)
    simp only [Nat.shiftLeft_eq] at hd
    change b.off ^^^ b.size = _
    rw [hq]
    simp only [size] at *
    rw [mul_comm (2 ^ b.log) q, mul_comm (2 ^ b.log), hd, one_mul]
  rw [hx, xor_one, hq]
  rcases Nat.mod_two_eq_zero_or_one q with he | ho
  · left
    rw [if_pos he]
    refine ⟨by ring, q / 2, ?_⟩
    rw [mul_comm 2, mul_assoc]
    congr 1
    omega
  · right
    rw [if_neg (by omega)]
    refine ⟨?_, q / 2, ?_⟩
    · rw [← Nat.mul_succ]
      congr 1
      omega
    · rw [mul_comm 2, mul_assoc]
      congr 1
      omega

theorem merged_size (b : Blk) : b.merged.size = 2 * b.size := by
  simp only [size, merged, pow_succ]
  ring

theorem merged_aligned {b : Blk} (h : b.Aligned) : b.merged.Aligned := by
  have hs := b.size_pos
  unfold Aligned
  rw [merged_size]
  rcases buddy_cases h with ⟨he, hd⟩ | ⟨he, hd⟩
  · rwa [show b.merged.off = b.off from min_eq_left (by omega)]
  · rwa [show b.merged.off = b.buddy.off from min_eq_right (by omega)]

theorem merged_covers {b : Blk} (h : b.Aligned) (x : ℕ) :
    b.merged.Covers x ↔ b.Covers x ∨ b.buddy.Covers x := by
  have hb : b.buddy.size = b.size := rfl
  have ho : b.merged.off = min b.off b.buddy.off := rfl
  unfold Covers
  rw [merged_size, hb, ho]
  rcases buddy_cases h with ⟨he, -⟩ | ⟨he, -⟩ <;> omega

theorem not_buddy_covers {b : Blk} (h : b.Aligned) {x : ℕ} (hx : b.Covers x) :
    ¬ b.buddy.Covers x := by
  have hb : b.buddy.size = b.size := rfl
  unfold Covers at hx ⊢
  rw [hb]
  rcases buddy_cases h with ⟨he, -⟩ | ⟨he, -⟩ <;> omega

theorem size_eq_halves {b : Blk} (h : 0 < b.log) :
    b.size = 2 ^ (b.log - 1) + 2 ^ (b.log - 1) := by
  rw [← two_mul, ← pow_succ', size, Nat.sub_add_cancel h]

theorem covers_iff_halves {b : Blk} (h : 0 < b.log) (x : ℕ) :
    b.Covers x ↔ b.lower.Covers x ∨ b.upper.Covers x := by
  unfold Covers
  rw [size_eq_halves h]
  simp only [size, lower, upper]
  omega

theorem not_upper_covers {b : Blk} {x : ℕ} (hx : b.lower.Covers x) : ¬ b.upper.Covers x := by
  simp only [Covers, size, lower, upper] at hx ⊢
  omega

theorem lower_aligned {b : Blk} (h : b.Aligned) : b.lower.Aligned :=
  (pow_dvd_pow 2 (Nat.sub_le _ _)).trans h

theorem upper_aligned {b : Blk} (h : b.Aligned) : b.upper.Aligned :=
  Nat.dvd_add ((pow_dvd_pow 2 (Nat.sub_le _ _)).trans h) dvd_rfl

/-- An aligned block consists of the points with one quotient. -/
theorem Aligned.covers_iff {b : Blk} (h : b.Aligned) (x : ℕ) :
    b.Covers x ↔ x / b.size = b.off / b.size := by
  obtain ⟨q, hq⟩ := h
  have hs := b.size_pos
  unfold Covers
  rw [hq, Nat.mul_div_cancel_left q hs, Nat.div_eq_iff hs]
  rw [mul_comm q]
  omega

/-- Of two aligned blocks that share a point the larger one contains the other. -/
theorem Aligned.contains {b c : Blk} (hb : b.Aligned) (hc : c.Aligned) (hle : b.log ≤ c.log)
    {x : ℕ} (hbx : b.Covers x) (hcx : c.Covers x) : ∀ y, b.Covers y → c.Covers y := by
  intro y hby
  rw [hb.covers_iff] at hbx hby
  rw [hc.covers_iff] at hcx ⊢
  have hsize : c.size = b.size * 2 ^ (c.log - b.log) := by
    unfold size
    rw [← pow_add]
    congr 1
    omega
  rw [hsize, ← Nat.div_div_eq_div_mul] at hcx ⊢
  rw [hby, ← hbx, hcx]

theorem Aligned.eq_of_covers {b c : Blk} (hb : b.Aligned) (hc : c.Aligned) (hl : b.log = c.log)
    {x : ℕ} (hbx : b.Covers x) (hcx : c.Covers x) : b = c := by
  have hsub := hb.contains hc hl.le hbx hcx b.off b.covers_off
  have hsup := hc.contains hb hl.ge hcx hbx c.off c.covers_off
  have hoff : b.off = c.off := le_antisymm hsup.1 hsub.1
  cases b
  cases c
  simp_all

theorem buddy_lower {b : Blk} (h : b.Aligned) (hb : 0 < b.log) : b.lower.buddy = b.upper := by
  have hs := size_eq_halves hb
  have hlow : b.lower.size = 2 ^ (b.log - 1) := rfl
  have hoff : b.lower.off = b.off := rfl
  have hpos := b.lower.size_pos
  rcases buddy_cases (lower_aligned h) with ⟨he, -⟩ | ⟨he, hd⟩
  · unfold upper
    rw [← hlow, ← hoff, ← he]
    rfl
  · -- two multiples of twice the size do not lie one size apart
    obtain ⟨q, hq⟩ := h
    obtain ⟨r, hr⟩ := hd
    have hsize : b.size = 2 * b.lower.size := by omega
    rw [hr, hoff, hq, hsize] at he
    have hmod : b.lower.size % (2 * b.lower.size) = 0 := by
      have hadd := congrArg (· % (2 * b.lower.size)) he
      simpa only [Nat.mul_add_mod, Nat.mul_mod_right] using hadd
    rw [Nat.mod_eq_of_lt (by omega)] at hmod
    omega

theorem buddy_buddy (b : Blk) : b.buddy.buddy = b := by
  change (⟨(b.off ^^^ b.size) ^^^ b.size, b.log⟩ : Blk) = b
  rw [Nat.xor_assoc, Nat.xor_self, Nat.xor_zero]

theorem buddy_off_ne (b : Blk) : b.buddy.off ≠ b.off := by
  intro h
  change b.off ^^^ b.size = b.off at h
  have hx := congrArg (b.off ^^^ ·) h
  simp only [← Nat.xor_assoc, Nat.xor_self, Nat.zero_xor] at hx
  exact b.size_pos.ne' hx

theorem buddy_upper {b : Blk} (h : b.Aligned) (hb : 0 < b.log) : b.upper.buddy = b.lower := by
  rw [← buddy_lower h hb, buddy_buddy]

section Coalesced

variable {L : ℕ} {F : Blk → Prop}

/-- Where no two buddies are in a set of blocks, what the set covers is covered by one block. -/
theorem exists_covers_of_coalesced (ha : ∀ c, F c → c.Aligned)
    (hco : ∀ c, F c → c.log < L → ¬F c.buddy) {b : Blk} (hb : b.Aligned) (hL : b.log ≤ L)
    (hcov : ∀ x, b.Covers x → ∃ c, F c ∧ c.Covers x) :
    ∃ c, F c ∧ b.log ≤ c.log ∧ ∀ x, b.Covers x → c.Covers x := by
  obtain ⟨n, hn⟩ : ∃ n, b.log = n := ⟨_, rfl⟩
  induction n generalizing b with
  | zero =>
    obtain ⟨c, hc, hx⟩ := hcov b.off b.covers_off
    exact ⟨c, hc, by omega, hb.contains (ha c hc) (by omega) b.covers_off hx⟩
  | succ n ih =>
    have hpos : 0 < b.log := by omega
    have hhalves := covers_iff_halves hpos
    have hl : b.lower.log = b.log - 1 := rfl
    have hu : b.upper.log = b.log - 1 := rfl
    obtain ⟨c, hc, hcl, hcx⟩ := ih (lower_aligned hb) (by omega)
      (fun x hx => hcov x ((hhalves x).mpr (Or.inl hx))) (by omega)
    obtain ⟨d, hd, hdl, hdx⟩ := ih (upper_aligned hb) (by omega)
      (fun x hx => hcov x ((hhalves x).mpr (Or.inr hx))) (by omega)
    have hlow := b.lower.covers_off
    have hupp := b.upper.covers_off
    by_cases hcb : b.log ≤ c.log
    · exact ⟨c, hc, hcb,
        hb.contains (ha c hc) hcb ((hhalves _).mpr (Or.inl hlow)) (hcx _ hlow)⟩
    by_cases hdb : b.log ≤ d.log
    · exact ⟨d, hd, hdb,
        hb.contains (ha d hd) hdb ((hhalves _).mpr (Or.inr hupp)) (hdx _ hupp)⟩
    -- otherwise both halves are in the set, and they are buddies
    have hce : c = b.lower :=
      (ha c hc).eq_of_covers (lower_aligned hb) (by omega) (hcx _ hlow) hlow
    have hde : d = b.upper :=
      (ha d hd).eq_of_covers (upper_aligned hb) (by omega) (hdx _ hupp) hupp
    refine absurd hd ?_
    rw [hde, ← buddy_lower hb hpos, ← hce]
    exact hco c hc (by omega)

end Coalesced

end Blk

/-- The blocks cover every point of `[0, 2 ^ L)` exactly once and nothing else. -/
structure Tiles (L : ℕ) (B : Multiset Blk) : Prop where
  inside : ∀ b ∈ B, b.off + b.size ≤ 2 ^ L
  aligned : ∀ b ∈ B, b.Aligned
  once : ∀ x < 2 ^ L, B.countP (·.Covers x) = 1

namespace Tiles

variable {L : ℕ} {B C : Multiset Blk} {b c : Blk}

theorem whole (L : ℕ) : Tiles L {⟨0, L⟩} where
  inside := by simp [Blk.size]
  aligned := by simp [Blk.Aligned]
  once x hx := by
    rw [← Multiset.cons_zero, Multiset.countP_cons_of_pos]
    · simp
    · exact ⟨Nat.zero_le _, by simpa [Blk.size] using hx⟩

theorem exists_covers (h : Tiles L B) {x : ℕ} (hx : x < 2 ^ L) : ∃ b ∈ B, b.Covers x :=
  Multiset.countP_pos.mp (by rw [h.once x hx]; omega)

/-- Two blocks at different places of the tiling do not overlap. -/
theorem disjoint (h : Tiles L (b ::ₘ c ::ₘ B)) : b.Disjoint c := by
  refine Blk.disjoint_of_forall fun x hb hc => ?_
  have hi := h.inside b (by simp)
  have hx := h.once x (by have := hb.2; omega)
  rw [Multiset.countP_cons, Multiset.countP_cons, if_pos hb, if_pos hc] at hx
  omega

theorem disjoint_of_mem (h : Tiles L (b ::ₘ B)) (hc : c ∈ B) : b.Disjoint c := by
  obtain ⟨B', rfl⟩ := Multiset.exists_cons_of_mem hc
  exact h.disjoint

theorem pairwise {l : List Blk} (h : Tiles L (l + B)) : l.Pairwise Blk.Disjoint := by
  induction l generalizing B with
  | nil => exact .nil
  | cons b l ih =>
    rw [← Multiset.cons_coe, Multiset.cons_add] at h
    refine List.pairwise_cons.mpr 
      ⟨fun c hc => h.disjoint_of_mem (by simp [hc]), ih (B := b ::ₘ B) ?_⟩
    rwa [Multiset.add_cons]

/-- Replacing some blocks by others that cover the same points keeps the tiling. -/
theorem replace {D E : Multiset Blk} (h : Tiles L (D + B)) (hi : ∀ b ∈ E, b.off + b.size ≤ 2 ^ L)
    (ha : ∀ b ∈ E, b.Aligned)
    (hc : ∀ x, E.countP (·.Covers x) = D.countP (·.Covers x)) : Tiles L (E + B) where
  inside b hb := (Multiset.mem_add.mp hb).elim (hi b) fun hb => h.inside b (by simp [hb])
  aligned b hb := (Multiset.mem_add.mp hb).elim (ha b) fun hb => h.aligned b (by simp [hb])
  once x hx := by
    have := h.once x hx
    rw [Multiset.countP_add] at this ⊢
    rw [hc, this]

theorem split (h : Tiles L (b ::ₘ B)) (hb : 0 < b.log) :
    Tiles L (b.lower ::ₘ b.upper ::ₘ B) := by
  have hin := h.inside b (by simp)
  have hal := h.aligned b (by simp)
  have hs := Blk.size_eq_halves hb
  have hr : Tiles L ({b.lower, b.upper} + B) := by
    refine replace (D := {b}) (by simpa using h) ?_ ?_ fun x => ?_
    · intro c hc
      rcases by simpa using hc with rfl | rfl <;> simp only [Blk.size, Blk.lower, Blk.upper] <;>
        omega
    · intro c hc
      rcases by simpa using hc with rfl | rfl
      exacts [Blk.lower_aligned hal, Blk.upper_aligned hal]
    · simp only [Multiset.insert_eq_cons, ← Multiset.cons_zero, Multiset.countP_cons,
        Multiset.countP_zero, Blk.covers_iff_halves hb x]
      by_cases hl : b.lower.Covers x
      · simp [hl, Blk.not_upper_covers hl]
      · simp [hl]
  simpa using hr

theorem merge (h : Tiles L (b ::ₘ b.buddy ::ₘ B)) : Tiles L (b.merged ::ₘ B) := by
  have hin := h.inside b (by simp)
  have hin' := h.inside b.buddy (by simp)
  have hal := h.aligned b (by simp)
  have hr : Tiles L ({b.merged} + B) := by
    refine replace (D := {b, b.buddy}) (by simpa using h) ?_ ?_ fun x => ?_
    · have hb : b.buddy.size = b.size := rfl
      have ho : b.merged.off = min b.off b.buddy.off := rfl
      intro c hc
      rw [Multiset.mem_singleton.mp hc, Blk.merged_size, ho]
      rcases Blk.buddy_cases hal with ⟨he, -⟩ | ⟨he, -⟩ <;> omega
    · intro c hc
      rw [Multiset.mem_singleton.mp hc]
      exact Blk.merged_aligned hal
    · simp only [Multiset.insert_eq_cons, ← Multiset.cons_zero, Multiset.countP_cons,
        Multiset.countP_zero, Blk.merged_covers hal x]
      by_cases hl : b.Covers x
      · simp [hl, Blk.not_buddy_covers hal hl]
      · simp [hl]
  simpa using hr

end Tiles
end Lib
