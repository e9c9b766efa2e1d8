import Mathlib.Order.Basic
import Mathlib.Order.Defs.LinearOrder
import Mathlib.Data.Set.Insert
import Mathlib.Logic.Function.Basic

/-! Links that run through a set in increasing order, and from its greatest element back to its
least. -/
namespace Lib

variable {α : Type*} [LinearOrder α]

/-- Going up from `a`, and on from the bottom, `x` comes before `b`. -/
def Between (a x b : α) : Prop := (a < x ∧ x < b) ∨ (b ≤ a ∧ (a < x ∨ x < b))

instance (a x b : α) : Decidable (Between a x b) := inferInstanceAs (Decidable (_ ∨ _))

/-- No element is between one and its link. -/
def Cyclic (S : Set α) (next : α → α) : Prop :=
  ∀ p ∈ S, next p ∈ S ∧ ∀ x ∈ S, ¬ Between p x (next p)

namespace Cyclic

variable {S : Set α} {next next' : α → α} {p q x f : α}

theorem congr (h : Cyclic S next) (he : ∀ x ∈ S, next' x = next x) : Cyclic S next' := by
  intro p hp
  rw [he p hp]
  exact h p hp

theorem singleton (a : α) (h : next a = a) : Cyclic {a} next := by
  intro p hp
  obtain rfl : p = a := hp
  rw [h]
  refine ⟨rfl, fun x hx => ?_⟩
  obtain rfl : x = p := hx
  unfold Between
  simp

/-- An element that is its own link is alone. -/
theorem eq_of_next_self (h : Cyclic S next) (hp : p ∈ S) (hn : next p = p) (hx : x ∈ S) :
    x = p := by
  have hb := (h p hp).2 x hx
  rw [hn] at hb
  unfold Between at hb
  grind

/-- Two elements have different links. -/
theorem injective (h : Cyclic S next) (hp : p ∈ S) (hq : q ∈ S) (he : next p = next q) : p = q := by
  obtain ⟨-, hp'⟩ := h p hp
  obtain ⟨-, hq'⟩ := h q hq
  have h1 := hp' q hq
  have h2 := hq' p hp
  have h3 := hp' p hp
  have h4 := hq' q hq
  rw [he] at h1 h3
  unfold Between at h1 h2 h3 h4
  grind

/-- One more element, behind the one it is found behind. -/
theorem insert (h : Cyclic S next) (hp : p ∈ S) (hx : x ∉ S) (hb : Between p x (next p)) :
    Cyclic (Insert.insert x S) (Function.update (Function.update next x (next p)) p x) := by
  obtain ⟨hnext, hp'⟩ := h p hp
  have hxp : x ≠ p := fun he => hx (he ▸ hp)
  intro r hr
  rcases hr with rfl | hr
  · rw [Function.update_of_ne hxp, Function.update_self]
    refine ⟨Or.inr hnext, fun y hy => ?_⟩
    rcases hy with rfl | hy
    · unfold Between at hb ⊢
      grind
    · have h1 := hp' y hy
      unfold Between at hb h1 ⊢
      grind
  by_cases hrp : r = p
  · rw [hrp, Function.update_self]
    refine ⟨Or.inl rfl, fun y hy => ?_⟩
    rcases hy with rfl | hy
    · unfold Between
      grind
    · have h1 := hp' y hy
      unfold Between at hb h1 ⊢
      grind
  · have hxr : r ≠ x := fun he => hx (he ▸ hr)
    rw [Function.update_of_ne hrp, Function.update_of_ne hxr]
    obtain ⟨hr', hout⟩ := h r hr
    refine ⟨Or.inr hr', fun y hy => ?_⟩
    rcases hy with rfl | hy
    · have h1 := hout p hp
      have h2 := hp' r hr
      have h3 := hout _ hnext
      have h4 := hp' _ hr'
      unfold Between at hb h1 h2 h3 h4 ⊢
      grind
    · exact hout y hy

/-- One element less. -/
theorem erase (h : Cyclic S next) (hp : p ∈ S) (hne : next p ≠ p) :
    Cyclic (S \ {next p}) (Function.update next p (next (next p))) := by
  obtain ⟨hnext, hp'⟩ := h p hp
  obtain ⟨hnext', hq'⟩ := h (next p) hnext
  intro r hr
  obtain ⟨hr, hrq⟩ := hr
  by_cases hrp : r = p
  · rw [hrp, Function.update_self]
    refine ⟨⟨hnext', fun he => hne (h.eq_of_next_self hnext he hp).symm⟩, fun y hy => ?_⟩
    have h1 := hp' y hy.1
    have h2 := hq' y hy.1
    have h3 := hq' p hp
    have h4 : y ≠ next p := hy.2
    unfold Between at h1 h2 h3 ⊢
    grind
  · rw [Function.update_of_ne hrp]
    obtain ⟨hr', hout⟩ := h r hr
    exact ⟨⟨hr', fun he => hrp (h.injective hr hp he)⟩, fun y hy => hout y hy.1⟩

/-- Between `f` and the link of `p` there is only `p` and what is between `f` and `p`. -/
theorem between_next (h : Cyclic S next) (hf : f ∈ S) (hp : p ∈ S) (hx : x ∈ S)
    (hb : Between f x (next p)) : x = p ∨ Between f x p := by
  obtain ⟨-, hp'⟩ := h p hp
  have h1 := hp' x hx
  have h2 := hp' f hf
  unfold Between at hb h1 h2 ⊢
  grind

end Cyclic
end Lib
