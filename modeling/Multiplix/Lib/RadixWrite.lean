import Multiplix.Lib.Radix

/-! What writing one entry of a radix tree does to all keys: a leaf changes the keys below it, a
link to a fresh table changes none, except that the entries of the last level come to exist. -/
namespace Lib.Radix

variable {E K : Type*} {R : Radix E K} {T T' : ℕ → ℕ → E} {root t t' d j : ℕ} {k k' : K}
  {used : Set ℕ} {e : E}

section Frame

/-- The tables of a tree in use are the same in both memories. -/
theorem node_frame (h : R.Tree T root used) (hT : ∀ s ∈ used, T' s = T s) (hd : d ≤ R.last) :
    R.node T' root k d = R.node T root k d := by
  induction d with
  | zero => rfl
  | succ d ih =>
    simp only [node, ih (by omega)]
    cases hn : R.node T root k d with
    | none => rfl
    | some s => simp only [Option.bind_some, hT s (h.node_mem (by omega) hn)]

theorem find_frame (h : R.Tree T root used) (hT : ∀ s ∈ used, T' s = T s) :
    R.find T' root k = R.find T root k :=
  find_congr (fun _ hd => node_frame h hT hd) fun _ hd s hs => by rw [hT s (h.node_mem hd hs)]

theorem lookup_frame (h : R.Tree T root used) (hT : ∀ s ∈ used, T' s = T s) :
    R.lookup T' root k = R.lookup T root k := by
  rw [lookup, lookup, find_frame h hT]
  cases hf : R.find T root k with
  | none => rfl
  | some r =>
    obtain ⟨h1, h2, -⟩ := find_eq_some.mp hf
    simp only [Option.map_some, hT _ (h.node_mem h1 h2)]

theorem Tree.frame (h : R.Tree T root used) (hT : ∀ s ∈ used, T' s = T s) :
    R.Tree T' root used where
  node_mem hd hn := h.node_mem hd (by rwa [node_frame h hT hd] at hn)
  unique hd hd' hn hn' := by
    rw [node_frame h hT hd] at hn
    rw [node_frame h hT hd'] at hn'
    exact h.unique hd hd' hn hn'

theorem Tree.mono {used' : Set ℕ} (h : R.Tree T root used) (hu : used ⊆ used') :
    R.Tree T root used' :=
  ⟨fun hd hn => hu (h.node_mem hd hn), h.unique⟩

end Frame

/-- An empty tree. -/
theorem Tree.init (h : ∀ i, T root i = R.zero) : R.Tree T root {root} := by
  have hone : ∀ k d, R.node T root k (d + 1) = none := fun k d => by
    refine node_none_of_le (d := 1) ?_ (by omega)
    rw [node_succ (d := 0) rfl, h, R.slot_zero, Slot.child]
  have hroot : ∀ {k d t}, R.node T root k d = some t → d = 0 ∧ t = root := fun {k d t} hn => by
    cases d with
    | zero => exact ⟨rfl, (Option.some.inj hn).symm⟩
    | succ d =>
      rw [hone] at hn
      cases hn
  refine ⟨fun _ hn => (hroot hn).2, fun _ _ hn hn' => ?_⟩
  obtain ⟨rfl, -⟩ := hroot hn
  exact ⟨(hroot hn').1.symm, fun i hi => by omega⟩

theorem find_init (h : ∀ i, T root i = R.zero) (hl : 0 < R.last) : R.find T root k = none := by
  refine find_eq_none_of_empty hl (t := root) rfl ?_
  rw [h, R.slot_zero]

section Write

/-- The writes meant here: at the entry on the path of `k` at depth `d`. -/
theorem write_apply_of_ne (h : R.Tree T root used) (hd : d ≤ R.last)
    (hn : R.node T root k d = some t) (hj : j ≤ R.last) {s : ℕ}
    (hs : R.node T root k' j = some s) (hne : ¬ (j = d ∧ R.Agree k k' (d + 1))) :
    write T t (R.index d k) e s (R.index j k') = T s (R.index j k') := by
  unfold write
  rcases eq_or_ne s t with rfl | hst
  · rw [Function.update_self, Function.update_of_ne]
    intro hi
    obtain ⟨rfl, hag⟩ := h.unique hd hj hn hs
    exact hne ⟨rfl, Agree.succ_iff.mpr ⟨hag, hi.symm⟩⟩
  · rw [Function.update_of_ne hst]

theorem write_apply_self : write T t (R.index d k) e t (R.index d k) = e := by
  simp [write]

theorem node_write (h : R.Tree T root used) (hd : d ≤ R.last)
    (hn : R.node T root k d = some t) (hj : j ≤ R.last)
    (hne : j ≤ d ∨ ¬ R.Agree k k' (d + 1)) :
    R.node (write T t (R.index d k) e) root k' j = R.node T root k' j := by
  induction j with
  | zero => rfl
  | succ j ih =>
    have hj' : j ≤ d ∨ ¬ R.Agree k k' (d + 1) := hne.imp_left (by omega)
    simp only [node, ih (by omega) hj']
    cases hs : R.node T root k' j with
    | none => rfl
    | some s =>
      rw [Option.bind_some, Option.bind_some, write_apply_of_ne h hd hn (by omega) hs]
      rintro ⟨rfl, hag⟩
      rcases hne with hle | hna
      · omega
      · exact hna hag

/-- Below the written entry everything hangs on it. -/
theorem node_write_succ (h : R.Tree T root used) (hd : d ≤ R.last)
    (hn : R.node T root k d = some t) (hag : R.Agree k k' (d + 1)) :
    R.node (write T t (R.index d k) e) root k' (d + 1) = (R.slot e).child := by
  have hk : R.node (write T t (R.index d k) e) root k d = some t := by
    rw [node_write h hd hn hd (Or.inl le_rfl), hn]
  rw [← node_congr hag, node_succ hk, write_apply_self]

theorem find_write_of_not_agree (h : R.Tree T root used) (hd : d ≤ R.last)
    (hn : R.node T root k d = some t) (hag : ¬ R.Agree k k' (d + 1)) :
    R.find (write T t (R.index d k) e) root k' = R.find T root k' :=
  find_congr (fun _ hj => node_write h hd hn hj (Or.inr hag)) fun _ hj _ hs =>
    write_apply_of_ne h hd hn hj hs fun hc => hag hc.2

theorem lookup_write_of_not_agree (h : R.Tree T root used) (hd : d ≤ R.last)
    (hn : R.node T root k d = some t) (hag : ¬ R.Agree k k' (d + 1)) :
    R.lookup (write T t (R.index d k) e) root k' = R.lookup T root k' := by
  rw [lookup, lookup, find_write_of_not_agree h hd hn hag]
  cases hf : R.find T root k' with
  | none => rfl
  | some r =>
    obtain ⟨h1, h2, -⟩ := find_eq_some.mp hf
    rw [Option.map_some, Option.map_some, write_apply_of_ne h hd hn h1 h2 fun hc => hag hc.2]

variable (hleaf : d = R.last ∨ R.slot e = .leaf)
include hleaf

theorem find_write_leaf (h : R.Tree T root used) (hd : d ≤ R.last)
    (hn : R.node T root k d = some t) (hag : R.Agree k k' (d + 1)) :
    R.find (write T t (R.index d k) e) root k' = some (d, t) := by
  have hag' := Agree.succ_iff.mp hag
  refine find_eq_some.mpr ⟨hd, ?_, hleaf.imp_right fun hs => ?_⟩
  · rw [node_write h hd hn hd (Or.inl le_rfl), ← node_congr hag'.1, hn]
  · rwa [← hag'.2, write_apply_self]

/-- The keys below a leaf find it, the other keys do not notice. -/
theorem lookup_write_leaf (h : R.Tree T root used) (hd : d ≤ R.last)
    (hn : R.node T root k d = some t) :
    R.lookup (write T t (R.index d k) e) root k' =
      if R.Agree k k' (d + 1) then some (d, e) else R.lookup T root k' := by
  split_ifs with hag
  · rw [lookup, find_write_leaf hleaf h hd hn hag, Option.map_some,
      ← (Agree.succ_iff.mp hag).2, write_apply_self]
  · exact lookup_write_of_not_agree h hd hn hag

theorem node_of_write_leaf (h : R.Tree T root used) (hd : d ≤ R.last)
    (hn : R.node T root k d = some t) (hj : j ≤ R.last) {s : ℕ}
    (hs : R.node (write T t (R.index d k) e) root k' j = some s) :
    R.node T root k' j = some s := by
  by_cases hne : j ≤ d ∨ ¬ R.Agree k k' (d + 1)
  · rwa [node_write h hd hn hj hne] at hs
  · rw [not_or, not_not] at hne
    have hnone : R.node (write T t (R.index d k) e) root k' (d + 1) = none := by
      rw [node_write_succ h hd hn hne.2]
      rcases hleaf with rfl | hl
      · omega
      · rw [hl, Slot.child]
    rw [node_none_of_le hnone (by omega)] at hs
    cases hs

theorem Tree.write_leaf (h : R.Tree T root used) (hd : d ≤ R.last)
    (hn : R.node T root k d = some t) : R.Tree (write T t (R.index d k) e) root used where
  node_mem hj hs := h.node_mem hj (node_of_write_leaf hleaf h hd hn hj hs)
  unique hj hj' hs hs' := h.unique hj hj' (node_of_write_leaf hleaf h hd hn hj hs)
    (node_of_write_leaf hleaf h hd hn hj' hs')

end Write

section Link

/-- Linking a fresh, cleared table into an empty entry. -/
structure Links (R : Radix E K) (T : ℕ → ℕ → E) (root : ℕ) (used : Set ℕ) (k : K) (d t t' : ℕ)
    (e : E) : Prop where
  tree : R.Tree T root used
  depth : d < R.last
  node : R.node T root k d = some t
  empty : R.slot (T t (R.index d k)) = .empty
  fresh : t' ∉ used
  link : R.slot e = .link t'

namespace Links

variable (h : Links R T root used k d t t' e)
include h

private theorem ne : t ≠ t' := fun he => h.fresh (he ▸ h.tree.node_mem h.depth.le h.node)

private theorem clear_same : ∀ s ∈ used, R.clear T t' s = T s := fun s hs =>
  Function.update_of_ne (fun he => h.fresh (by rwa [← he])) _ _

private theorem cleared : R.Tree (R.clear T t') root used := h.tree.frame h.clear_same

private theorem node_clear (hj : j ≤ R.last) :
    R.node (R.clear T t') root k' j = R.node T root k' j := node_frame h.tree h.clear_same hj

private theorem node' : R.node (R.clear T t') root k d = some t :=
  (h.node_clear h.depth.le).trans h.node

theorem node_succ (hag : R.Agree k k' (d + 1)) :
    R.node (write (R.clear T t') t (R.index d k) e) root k' (d + 1) = some t' := by
  rw [node_write_succ h.cleared h.depth.le h.node' hag, h.link, Slot.child]

private theorem entry_zero (i : ℕ) : write (R.clear T t') t (R.index d k) e t' i = R.zero := by
  rw [write, Function.update_of_ne h.ne.symm, clear, Function.update_self]

/-- Only the keys that agree down to the new table can visit it, and only there. -/
theorem node_cases (hj : j ≤ R.last) {s : ℕ}
    (hs : R.node (write (R.clear T t') t (R.index d k) e) root k' j = some s) :
    R.node T root k' j = some s ∨ (j = d + 1 ∧ s = t' ∧ R.Agree k k' (d + 1)) := by
  by_cases hne : j ≤ d ∨ ¬ R.Agree k k' (d + 1)
  · rw [node_write h.cleared h.depth.le h.node' hj hne, h.node_clear hj] at hs
    exact Or.inl hs
  · rw [not_or, not_not] at hne
    have hnext := h.node_succ hne.2
    rcases Nat.eq_or_lt_of_le (Nat.succ_le_of_lt (not_le.mp hne.1)) with rfl | hlt
    · exact Or.inr ⟨rfl, Option.some.inj (hs.symm.trans hnext), hne.2⟩
    · have hend := Radix.node_succ hnext
      rw [h.entry_zero, R.slot_zero, Slot.child] at hend
      rw [node_none_of_le hend hlt] at hs
      cases hs

theorem tree' : R.Tree (write (R.clear T t') t (R.index d k) e) root (insert t' used) where
  node_mem hj hs := by
    rcases h.node_cases hj hs with hs | ⟨-, hs, -⟩
    exacts [Or.inr (h.tree.node_mem hj hs), Or.inl hs]
  unique {k₁ k₂ j j' s} hj hj' hs hs' := by
    rcases h.node_cases hj hs with hs | ⟨hj, hs, hag⟩ <;>
      rcases h.node_cases hj' hs' with hs' | ⟨hj', hs', hag'⟩
    · exact h.tree.unique hj hj' hs hs'
    · exact absurd (hs' ▸ h.tree.node_mem hj hs) h.fresh
    · exact absurd (hs ▸ h.tree.node_mem hj' hs') h.fresh
    · refine ⟨hj.trans hj'.symm, fun i hi => ?_⟩
      exact (hag i (by omega)).symm.trans (hag' i (by omega))

/-- Before, the keys below had no entry. -/
theorem find_none (hag : R.Agree k k' (d + 1)) : R.find T root k' = none := by
  have hag' := Agree.succ_iff.mp hag
  refine find_eq_none_of_empty h.depth ?_ (hag'.2 ▸ h.empty)
  rw [← node_congr hag'.1, h.node]

/-- Now they have one if the new table is of the last depth. -/
theorem find_write (k' : K) :
    R.find (write (R.clear T t') t (R.index d k) e) root k' =
      if d + 1 = R.last ∧ R.Agree k k' (d + 1) then some (R.last, t') else R.find T root k' := by
  split_ifs with hc
  · refine find_eq_some.mpr ⟨le_rfl, ?_, Or.inl rfl⟩
    rw [← hc.1]
    exact h.node_succ hc.2
  · by_cases hag : R.Agree k k' (d + 1)
    · have hd : d + 1 < R.last := lt_of_le_of_ne h.depth fun he => hc ⟨he, hag⟩
      rw [h.find_none hag]
      refine find_eq_none_of_empty hd (h.node_succ hag) ?_
      rw [h.entry_zero, R.slot_zero]
    · rw [find_write_of_not_agree h.cleared h.depth.le h.node' hag,
        find_frame h.tree h.clear_same]

theorem lookup_write (k' : K) :
    R.lookup (write (R.clear T t') t (R.index d k) e) root k' =
      if d + 1 = R.last ∧ R.Agree k k' (d + 1) then some (R.last, R.zero)
      else R.lookup T root k' := by
  by_cases hag : R.Agree k k' (d + 1)
  · rw [lookup, h.find_write]
    split_ifs with hc
    · rw [Option.map_some, h.entry_zero]
    · rw [lookup, h.find_none hag]
      rfl
  · rw [if_neg fun hc => hag hc.2, lookup_write_of_not_agree h.cleared h.depth.le h.node' hag,
      lookup_frame h.tree h.clear_same]

end Links
end Link

end Lib.Radix
