import Mathlib.Data.Set.Insert
import Mathlib.Logic.Function.Basic

/-! Radix trees of fixed depth whose tables live in memory. An entry above the last depth is
empty, a leaf, or a link to a table of the next depth. -/
namespace Lib

inductive Slot
  | empty
  | leaf
  | link (t : ℕ)

def Slot.child : Slot → Option ℕ
  | empty => none
  | leaf => none
  | link t => some t

theorem Slot.child_eq_some {s : Slot} {t : ℕ} : s.child = some t ↔ s = .link t := by
  cases s <;> simp [child]

/-- How entries are read and how keys select them. -/
structure Radix (E K : Type*) where
  slot : E → Slot
  index : ℕ → K → ℕ
  last : ℕ
  zero : E
  slot_zero : slot zero = .empty

namespace Radix

variable {E K : Type*} (R : Radix E K)

def write (T : ℕ → ℕ → E) (t i : ℕ) (e : E) : ℕ → ℕ → E :=
  Function.update T t (Function.update (T t) i e)

def clear (T : ℕ → ℕ → E) (t : ℕ) : ℕ → ℕ → E := Function.update T t fun _ => R.zero

/-- The table that the path of a key visits at a depth. -/
def node (T : ℕ → ℕ → E) (root : ℕ) (k : K) : ℕ → Option ℕ
  | 0 => some root
  | d + 1 => (node T root k d).bind fun t => (R.slot (T t (R.index d k))).child

/-- From a table at depth `d` and `n` levels above the last one. -/
def findFrom (T : ℕ → ℕ → E) (k : K) : ℕ → ℕ → ℕ → Option (ℕ × ℕ)
  | 0, d, t => some (d, t)
  | n + 1, d, t =>
    match R.slot (T t (R.index d k)) with
    | .leaf => some (d, t)
    | .link t' => findFrom T k n (d + 1) t'
    | .empty => none

/-- The depth and the table of the entry where the path of a key ends. -/
def find (T : ℕ → ℕ → E) (root : ℕ) (k : K) : Option (ℕ × ℕ) := R.findFrom T k R.last 0 root

/-- The depth and the value of that entry. -/
def lookup (T : ℕ → ℕ → E) (root : ℕ) (k : K) : Option (ℕ × E) :=
  (R.find T root k).map fun r => (r.1, T r.2 (R.index r.1 k))

/-- The keys have the same path down to depth `d`. -/
def Agree (k k' : K) (d : ℕ) : Prop := ∀ i < d, R.index i k = R.index i k'

instance (k k' : K) (d : ℕ) : Decidable (R.Agree k k' d) :=
  inferInstanceAs (Decidable (∀ i < d, R.index i k = R.index i k'))

/-- No table is on the paths of keys that part above it. -/
structure Tree (T : ℕ → ℕ → E) (root : ℕ) (used : Set ℕ) : Prop where
  node_mem : ∀ {k d t}, d ≤ R.last → R.node T root k d = some t → t ∈ used
  unique : ∀ {k k' d d' t}, d ≤ R.last → d' ≤ R.last → R.node T root k d = some t →
    R.node T root k' d' = some t → d = d' ∧ R.Agree k k' d

variable {R} {T T' : ℕ → ℕ → E} {root t d : ℕ} {k k' : K} {used : Set ℕ} {e : E}

theorem Agree.succ_iff : R.Agree k k' (d + 1) ↔ R.Agree k k' d ∧ R.index d k = R.index d k' := by
  constructor
  · exact fun h => ⟨fun i hi => h i (by omega), h d (by omega)⟩
  · rintro ⟨h, hd⟩ i hi
    rcases Nat.lt_succ_iff_lt_or_eq.mp hi with hi | rfl
    exacts [h i hi, hd]

theorem node_congr (h : R.Agree k k' d) : R.node T root k d = R.node T root k' d := by
  induction d with
  | zero => rfl
  | succ d ih =>
    obtain ⟨h, hd⟩ := Agree.succ_iff.mp h
    simp only [node, ih h, hd]

theorem node_succ (h : R.node T root k d = some t) :
    R.node T root k (d + 1) = (R.slot (T t (R.index d k))).child := by
  simp only [node, h, Option.bind_some]

theorem node_none_of_le (h : R.node T root k d = none) {d' : ℕ} (hd : d ≤ d') :
    R.node T root k d' = none := by
  induction d', hd using Nat.le_induction with
  | base => exact h
  | succ d' _ ih => simp only [node, ih, Option.bind_none]

private theorem findFrom_eq_some {n d' t' : ℕ} (hn : R.node T root k d = some t)
    (hd : d + n = R.last) : R.findFrom T k n d t = some (d', t') ↔
      d ≤ d' ∧ d' ≤ R.last ∧ R.node T root k d' = some t' ∧
        (d' = R.last ∨ R.slot (T t' (R.index d' k)) = .leaf) := by
  induction n generalizing d t with
  | zero =>
    simp only [findFrom, Option.some.injEq, Prod.mk.injEq]
    constructor
    · rintro ⟨rfl, rfl⟩
      exact ⟨le_rfl, by omega, hn, Or.inl (by omega)⟩
    · rintro ⟨h1, h2, h3, -⟩
      obtain rfl : d = d' := by omega
      exact ⟨rfl, Option.some.inj (hn.symm.trans h3)⟩
  | succ n ih =>
    have hs := node_succ hn
    rcases hslot : R.slot (T t (R.index d k)) with _ | _ | t₁ <;>
      simp only [findFrom, hslot, Slot.child] at hs ⊢
    · refine ⟨fun h => by simp at h, ?_⟩
      rintro ⟨h1, h2, h3, h4⟩
      rcases Nat.eq_or_lt_of_le h1 with rfl | hlt
      · obtain rfl := Option.some.inj (hn.symm.trans h3)
        rw [hslot] at h4
        rcases h4 with h4 | h4
        · omega
        · cases h4
      · rw [node_none_of_le hs hlt] at h3
        cases h3
    · rw [Option.some.injEq, Prod.mk.injEq]
      constructor
      · rintro ⟨rfl, rfl⟩
        exact ⟨le_rfl, by omega, hn, Or.inr hslot⟩
      · rintro ⟨h1, h2, h3, -⟩
        rcases Nat.eq_or_lt_of_le h1 with rfl | hlt
        · exact ⟨rfl, Option.some.inj (hn.symm.trans h3)⟩
        · rw [node_none_of_le hs hlt] at h3
          cases h3
    · rw [ih hs (by omega)]
      constructor
      · rintro ⟨h1, h2⟩
        exact ⟨by omega, h2⟩
      · rintro ⟨h1, h2, h3, h4⟩
        rcases Nat.eq_or_lt_of_le h1 with rfl | hlt
        · obtain rfl := Option.some.inj (hn.symm.trans h3)
          rw [hslot] at h4
          rcases h4 with h4 | h4
          · omega
          · cases h4
        · exact ⟨hlt, h2, h3, h4⟩

theorem find_eq_some : R.find T root k = some (d, t) ↔ d ≤ R.last ∧ R.node T root k d = some t ∧
    (d = R.last ∨ R.slot (T t (R.index d k)) = .leaf) := by
  have h : R.findFrom T k R.last 0 root = some (d, t) ↔ _ :=
    findFrom_eq_some (show R.node T root k 0 = some root from rfl) (by omega)
  simpa [find] using h

theorem find_eq_none_of_empty (hd : d < R.last) (hn : R.node T root k d = some t)
    (he : R.slot (T t (R.index d k)) = .empty) : R.find T root k = none := by
  rw [Option.eq_none_iff_forall_ne_some]
  rintro ⟨d', t'⟩ h
  obtain ⟨h1, h2, h3⟩ := find_eq_some.mp h
  have hs := node_succ hn
  rw [he] at hs
  rcases Nat.lt_or_ge d d' with hlt | hge
  · rw [node_none_of_le hs hlt] at h2
    cases h2
  · rcases Nat.eq_or_lt_of_le hge with rfl | hlt
    · obtain rfl := Option.some.inj (hn.symm.trans h2)
      rw [he] at h3
      rcases h3 with h3 | h3
      · omega
      · cases h3
    · rcases h3 with rfl | h3
      · omega
      · have hs' := node_succ h2
        rw [h3] at hs'
        rw [node_none_of_le hs' hlt] at hn
        cases hn

theorem find_agree (h : R.Agree k k' (R.last + 1)) : R.find T root k = R.find T root k' := by
  ext ⟨d, t⟩
  rw [find_eq_some, find_eq_some]
  refine and_congr_right fun hd => ?_
  rw [node_congr fun i hi => h i (by omega), h d (by omega)]

/-- Keys with the same path find the same entry. -/
theorem lookup_agree (h : R.Agree k k' (R.last + 1)) :
    R.lookup T root k = R.lookup T root k' := by
  rw [lookup, lookup, find_agree h]
  refine Option.map_congr fun r hr => ?_
  rw [h r.1 (by have := (find_eq_some.mp hr).1; omega)]

/-- Two memories that agree on what a path reads. -/
theorem find_congr (hn : ∀ d ≤ R.last, R.node T' root k d = R.node T root k d)
    (he : ∀ d ≤ R.last, ∀ t, R.node T root k d = some t →
      T' t (R.index d k) = T t (R.index d k)) : R.find T' root k = R.find T root k := by
  ext ⟨d, t⟩
  rw [find_eq_some, find_eq_some]
  constructor
  · rintro ⟨h1, h2, h3⟩
    rw [hn d h1] at h2
    rw [he d h1 t h2] at h3
    exact ⟨h1, h2, h3⟩
  · rintro ⟨h1, h2, h3⟩
    rw [← he d h1 t h2] at h3
    exact ⟨h1, (hn d h1).trans h2, h3⟩

end Radix
end Lib
