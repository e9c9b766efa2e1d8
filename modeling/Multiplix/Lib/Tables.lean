import Multiplix.Lib.RadixWrite

/-! The tables of a radix tree, each linked from one entry of one other table: what linking,
unlinking and writing the other entries does to them. -/
namespace Lib.Radix

variable {E K : Type*}

/-- The tables in use in a memory, with their depths. -/
structure Tables (E : Type*) where
  mem : ℕ → ℕ → E
  used : Set ℕ
  depth : ℕ → ℕ

namespace Tables

variable (R : Radix E K) (width : ℕ)

/-- Entry `i` of `s` links the table `t`. -/
structure Edge (F : Tables E) (s i t : ℕ) : Prop where
  used : s ∈ F.used
  depth : F.depth s < R.last
  lt : i < width
  slot : R.slot (F.mem s i) = .link t

/-- A table is linked from at most one entry. The entries of a table satisfy `good` at its depth. -/
structure Linked (good : ℕ → E → Prop) (root : ℕ) (F : Tables E) : Prop where
  root_mem : root ∈ F.used
  root_depth : F.depth root = 0
  good : ∀ s ∈ F.used, ∀ i < width, good (F.depth s) (F.mem s i)
  edge : ∀ {s i t}, F.Edge R width s i t → t ∈ F.used ∧ F.depth t = F.depth s + 1
  unique : ∀ {s s' i i' t}, F.Edge R width s i t → F.Edge R width s' i' t → s = s' ∧ i = i'

/-- Every table in use is linked from some entry, except the root. -/
def Full (root : ℕ) (F : Tables E) : Prop :=
  ∀ t ∈ F.used, t ≠ root → ∃ s i, F.Edge R width s i t

/-- A table that is all zero. -/
def init (T : ℕ → ℕ → E) (root : ℕ) : Tables E := ⟨T, {root}, fun _ => 0⟩

/-- An entry is written. -/
def write (F : Tables E) (s i : ℕ) (e : E) : Tables E := { F with mem := Radix.write F.mem s i e }

/-- The table `t` is cleared and linked from the entry `e` of `s`. -/
def link (F : Tables E) (s i : ℕ) (e : E) (t : ℕ) : Tables E where
  mem := Radix.write (R.clear F.mem t) s i e
  used := insert t F.used
  depth := Function.update F.depth t (F.depth s + 1)

/-- The table `t` is given up, where the memory became `T`. -/
def release (F : Tables E) (t : ℕ) (T : ℕ → ℕ → E) : Tables E := ⟨T, F.used \ {t}, F.depth⟩

variable {R : Radix E K} {width root s i t : ℕ} {good : ℕ → E → Prop} {F : Tables E} {e : E}
  {T : ℕ → ℕ → E}

theorem write_mem_self : (F.write s i e).mem s i = e := by
  simp [Tables.write, Radix.write]

theorem write_mem_of_ne {x j : ℕ} (h : ¬ (x = s ∧ j = i)) :
    (F.write s i e).mem x j = F.mem x j := by
  rw [not_and] at h
  by_cases hx : x = s
  · simp [Tables.write, Radix.write, hx, h hx]
  · simp [Tables.write, Radix.write, hx]

theorem link_mem_self : (F.link R s i e t).mem s i = e := by
  simp [Tables.link, Radix.write]

theorem link_mem_table {j : ℕ} (h : t ≠ s) : (F.link R s i e t).mem t j = R.zero := by
  simp [Tables.link, Radix.write, clear, h]

theorem link_mem_of_ne {x j : ℕ} (hx : x ≠ t) (h : ¬ (x = s ∧ j = i)) :
    (F.link R s i e t).mem x j = F.mem x j := by
  have hw := write_mem_of_ne (F := { F with mem := R.clear F.mem t }) (e := e) h
  have hc : R.clear F.mem t x j = F.mem x j := by simp [clear, hx]
  exact hw.trans hc

theorem not_edge_of_zero (h : ∀ j < width, F.mem s j = R.zero) : ¬ F.Edge R width s i t :=
  fun he => by
    have hslot := he.slot
    rw [h i he.lt, R.slot_zero] at hslot
    cases hslot

/-- After a write of anything but a link the other links are left. -/
theorem edge_write {s' i' t' : ℕ} (hend : F.depth s < R.last → (R.slot e).child = none) :
    (F.write s i e).Edge R width s' i' t' ↔ F.Edge R width s' i' t' ∧ ¬ (s' = s ∧ i' = i) := by
  constructor
  · intro he
    have hne : ¬ (s' = s ∧ i' = i) := by
      rintro ⟨rfl, rfl⟩
      have hchild := hend he.depth
      have hslot := he.slot
      rw [write_mem_self] at hslot
      rw [hslot] at hchild
      cases hchild
    have hmem : (F.write s i e).mem s' i' = F.mem s' i' := write_mem_of_ne hne
    exact ⟨⟨he.used, he.depth, he.lt, hmem ▸ he.slot⟩, hne⟩
  · rintro ⟨he, hne⟩
    have hmem : (F.write s i e).mem s' i' = F.mem s' i' := write_mem_of_ne hne
    exact ⟨he.used, he.depth, he.lt, hmem.symm ▸ he.slot⟩

theorem link_depth_of_mem {x : ℕ} (ht : t ∉ F.used) (hx : x ∈ F.used) :
    (F.link R s i e t).depth x = F.depth x :=
  Function.update_of_ne (fun hc : x = t => ht (hc ▸ hx)) ..

/-- The links after `t` is linked. -/
theorem edge_link {s' i' t' : ℕ} (hs : s ∈ F.used) (ht : t ∉ F.used)
    (he : (F.link R s i e t).Edge R width s' i' t') :
    (s' = s ∧ i' = i ∧ R.slot e = .link t') ∨ F.Edge R width s' i' t' := by
  have hne : s' ≠ t := by
    rintro rfl
    have hslot := he.slot
    rw [link_mem_table fun hc : s' = s => ht (hc ▸ hs), R.slot_zero] at hslot
    cases hslot
  have hdepth : (F.link R s i e t).depth s' = F.depth s' := Function.update_of_ne hne ..
  by_cases hsi : s' = s ∧ i' = i
  · obtain ⟨rfl, rfl⟩ := hsi
    have hslot := he.slot
    rw [link_mem_self] at hslot
    exact Or.inl ⟨rfl, rfl, hslot⟩
  · have hmem : (F.link R s i e t).mem s' i' = F.mem s' i' := link_mem_of_ne hne hsi
    exact Or.inr ⟨he.used.resolve_left hne, hdepth ▸ he.depth, he.lt, hmem ▸ he.slot⟩

theorem init_linked (hg : good 0 R.zero) (h : ∀ i, T root i = R.zero) :
    Linked R width good root (init T root) := by
  have hmem : ∀ s ∈ (init T root).used, ∀ i, (init T root).mem s i = R.zero := fun s hs i => by
    rw [show s = root from hs]
    exact h i
  have hno : ∀ {s i t}, ¬ (init T root).Edge R width s i t := fun he =>
    not_edge_of_zero (fun j _ => hmem _ he.used j) he
  refine ⟨rfl, rfl, fun s hs i _ => ?_, fun he => absurd he hno, fun he => absurd he hno⟩
  rw [hmem s hs i]
  exact hg

theorem init_full : Full R width root (init T root) := fun _ ht hne => absurd ht hne

namespace Linked

variable (h : Linked R width good root F)
include h

theorem write (hs : s ∈ F.used) (hg : good (F.depth s) e)
    (hend : F.depth s < R.last → (R.slot e).child = none) :
    Linked R width good root (F.write s i e) where
  root_mem := h.root_mem
  root_depth := h.root_depth
  good s' hs' i' hi' := by
    by_cases hne : s' = s ∧ i' = i
    · obtain ⟨rfl, rfl⟩ := hne
      rw [write_mem_self]
      exact hg
    · rw [write_mem_of_ne hne]
      exact h.good s' hs' i' hi'
  edge he := h.edge ((edge_write hend).mp he).1
  unique he he' := h.unique ((edge_write hend).mp he).1 ((edge_write hend).mp he').1

theorem link (hs : s ∈ F.used) (ht : t ∉ F.used) (hslot : R.slot e = .link t)
    (hg : good (F.depth s) e) (hz : good (F.depth s + 1) R.zero) :
    Linked R width good root (F.link R s i e t) := by
  have hold := fun {x} => link_depth_of_mem (R := R) (s := s) (i := i) (e := e) (x := x) ht
  have hst : s ≠ t := fun hc => ht (hc ▸ hs)
  have htt : (F.link R s i e t).depth t = F.depth s + 1 := Function.update_self ..
  refine ⟨Or.inr h.root_mem, by rw [hold h.root_mem, h.root_depth], fun x hx j hj => ?_,
    fun he => ?_, fun he he' => ?_⟩
  · rcases hx with rfl | hx
    · rw [htt, link_mem_table hst.symm]
      exact hz
    · rw [hold hx]
      by_cases hsi : x = s ∧ j = i
      · obtain ⟨rfl, rfl⟩ := hsi
        rw [link_mem_self]
        exact hg
      · rw [link_mem_of_ne (fun hc : x = t => ht (hc ▸ hx)) hsi]
        exact h.good x hx j hj
  · rcases edge_link hs ht he with ⟨rfl, rfl, hl⟩ | he
    · rw [hslot, Slot.link.injEq] at hl
      rw [← hl, htt, hold hs]
      exact ⟨Or.inl rfl, rfl⟩
    · obtain ⟨hu, hd⟩ := h.edge he
      rw [hold hu, hold he.used]
      exact ⟨Or.inr hu, hd⟩
  · rcases edge_link hs ht he with ⟨rfl, rfl, hl⟩ | he₁ <;>
      rcases edge_link hs ht he' with ⟨rfl, rfl, hl'⟩ | he₂
    · exact ⟨rfl, rfl⟩
    · rw [hslot, Slot.link.injEq] at hl
      exact absurd (h.edge he₂).1 (hl ▸ ht)
    · rw [hslot, Slot.link.injEq] at hl'
      exact absurd (h.edge he₁).1 (hl' ▸ ht)
    · exact h.unique he₁ he₂

/-- The memory changed outside the tables in use. -/
theorem frame (hT : ∀ x ∈ F.used, T x = F.mem x) :
    Linked R width good root { F with mem := T } := by
  have hedge : ∀ {s i t}, Edge R width { F with mem := T } s i t → F.Edge R width s i t :=
    fun he => ⟨he.used, he.depth, he.lt, hT _ he.used ▸ he.slot⟩
  refine ⟨h.root_mem, h.root_depth, fun s hs i hi => ?_, fun he => h.edge (hedge he),
    fun he he' => h.unique (hedge he) (hedge he')⟩
  have hmem : ({ F with mem := T } : Tables E).mem s = F.mem s := hT s hs
  rw [hmem]
  exact h.good s hs i hi

/-- A table is given up, and its entry cleared. -/
theorem unlink (he : F.Edge R width s i t)
    (hT : ∀ x ∈ F.used, x ≠ t → T x = F.mem x) (hz : good (F.depth s) R.zero) :
    Linked R width good root ((F.release t T).write s i R.zero) := by
  obtain ⟨ht, hd⟩ := h.edge he
  have hrt : root ≠ t := fun hc => by
    rw [← hc, h.root_depth] at hd
    omega
  have hsub : Linked R width good root (F.write s i R.zero) :=
    h.write he.used hz fun _ => by rw [R.slot_zero, Slot.child]
  have hmem : ∀ x ∈ F.used, x ≠ t → ∀ j,
      ((F.release t T).write s i R.zero).mem x j = (F.write s i R.zero).mem x j :=
    fun x hx hxt j => by
      by_cases hsi : x = s ∧ j = i
      · obtain ⟨rfl, rfl⟩ := hsi
        rw [write_mem_self, write_mem_self]
      · rw [write_mem_of_ne hsi, write_mem_of_ne hsi, ← hT x hx hxt]
        rfl
  have hedge : ∀ {x j u}, ((F.release t T).write s i R.zero).Edge R width x j u →
      (F.write s i R.zero).Edge R width x j u := fun hx =>
    ⟨hx.used.1, hx.depth, hx.lt, hmem _ hx.used.1 hx.used.2 _ ▸ hx.slot⟩
  refine ⟨⟨h.root_mem, hrt⟩, h.root_depth, fun x hx j hj => ?_, fun hx => ?_, fun hx hx' =>
    hsub.unique (hedge hx) (hedge hx')⟩
  · rw [hmem x hx.1 hx.2]
    exact hsub.good x hx.1 j hj
  · obtain ⟨hold, hne⟩ := (edge_write fun _ => by rw [R.slot_zero, Slot.child]).mp (hedge hx)
    refine ⟨⟨(h.edge hold).1, fun hc => hne (h.unique hold (hc ▸ he))⟩, (h.edge hold).2⟩

/-- The tables on a path are in use, each at its depth. -/
theorem node_mem (hw : ∀ d k, R.index d k < width) {k : K} {d : ℕ} (hd : d ≤ R.last)
    (hn : R.node F.mem root k d = some t) : t ∈ F.used ∧ F.depth t = d := by
  induction d generalizing t with
  | zero =>
    obtain rfl : root = t := Option.some.inj hn
    exact ⟨h.root_mem, h.root_depth⟩
  | succ d ih =>
    rw [node, Option.bind_eq_some_iff] at hn
    obtain ⟨s, hs, hc⟩ := hn
    obtain ⟨hu, hds⟩ := ih (by omega) hs
    obtain ⟨ht, hdt⟩ := h.edge ⟨hu, by omega, hw d k, Slot.child_eq_some.mp hc⟩
    exact ⟨ht, by rw [hdt, hds]⟩

/-- Keys whose paths meet have the same path up to there. -/
theorem node_unique (hw : ∀ d k, R.index d k < width) {k k' : K} {d : ℕ} (hd : d ≤ R.last)
    (hn : R.node F.mem root k d = some t) (hn' : R.node F.mem root k' d = some t) :
    R.Agree k k' d := by
  induction d generalizing t with
  | zero => exact fun i hi => by omega
  | succ d ih =>
    have hedge : ∀ {k}, R.node F.mem root k (d + 1) = some t →
        ∃ s, R.node F.mem root k d = some s ∧ F.Edge R width s (R.index d k) t := fun {k} hk => by
      rw [node, Option.bind_eq_some_iff] at hk
      obtain ⟨s, hs, hc⟩ := hk
      obtain ⟨hu, hds⟩ := h.node_mem hw (by omega) hs
      exact ⟨s, hs, hu, by omega, hw d k, Slot.child_eq_some.mp hc⟩
    obtain ⟨s, hs, he⟩ := hedge hn
    obtain ⟨s', hs', he'⟩ := hedge hn'
    obtain ⟨rfl, hi⟩ := h.unique he he'
    exact Agree.succ_iff.mpr ⟨ih (by omega) hs hs', hi⟩

/-- A root without links is the only table. -/
theorem eq_root (hf : Full R width root F) (hno : ∀ i t, ¬ F.Edge R width root i t) :
    F.used = {root} := by
  have hroot : ∀ n, ∀ t ∈ F.used, F.depth t = n → t = root := fun n => by
    induction n with
    | zero =>
      intro t ht hd
      by_contra hne
      obtain ⟨s, i, he⟩ := hf t ht hne
      have := (h.edge he).2
      omega
    | succ n ih =>
      intro t ht hd
      by_contra hne
      obtain ⟨s, i, he⟩ := hf t ht hne
      have hs := ih s he.used (by have := (h.edge he).2; omega)
      exact hno i t (hs ▸ he)
  exact Set.eq_singleton_iff_unique_mem.mpr ⟨h.root_mem, fun t ht => hroot _ t ht rfl⟩

end Linked

namespace Full

variable (h : Full R width root F)
include h

/-- No table is lost by a write if the entry was no link. -/
theorem write (hend : F.depth s < R.last → (R.slot e).child = none)
    (hold : F.depth s < R.last → (R.slot (F.mem s i)).child = none) :
    Full R width root (F.write s i e) := fun t ht hne => by
  obtain ⟨x, j, he⟩ := h t ht hne
  refine ⟨x, j, (edge_write hend).mpr ⟨he, ?_⟩⟩
  rintro ⟨rfl, rfl⟩
  have hchild := hold he.depth
  rw [he.slot] at hchild
  cases hchild

theorem link (hs : s ∈ F.used) (hd : F.depth s < R.last) (hi : i < width) (ht : t ∉ F.used)
    (hslot : R.slot e = .link t) (hold : (R.slot (F.mem s i)).child = none) :
    Full R width root (F.link R s i e t) := fun u hu hne => by
  have hdepth := fun {x} => link_depth_of_mem (R := R) (s := s) (i := i) (e := e) (x := x) ht
  rcases hu with rfl | hu
  · exact ⟨s, i, Or.inr hs, by rwa [hdepth hs], hi, by rw [link_mem_self, hslot]⟩
  · obtain ⟨x, j, he⟩ := h u hu hne
    refine ⟨x, j, Or.inr he.used, by rw [hdepth he.used]; exact he.depth, he.lt, ?_⟩
    rw [link_mem_of_ne (fun hc : x = t => ht (hc ▸ he.used)), he.slot]
    rintro ⟨rfl, rfl⟩
    rw [he.slot] at hold
    cases hold

theorem frame (hT : ∀ x ∈ F.used, T x = F.mem x) : Full R width root { F with mem := T } :=
  fun t ht hne => by
    obtain ⟨x, j, he⟩ := h t ht hne
    have hslot : R.slot (T x j) = .link t := by rw [hT x he.used, he.slot]
    exact ⟨x, j, he.used, he.depth, he.lt, hslot⟩

/-- A table that links nothing is given up, and its entry cleared. -/
theorem unlink (he : F.Edge R width s i t) (hno : ∀ j u, ¬ F.Edge R width t j u)
    (hT : ∀ x ∈ F.used, x ≠ t → T x = F.mem x) :
    Full R width root ((F.release t T).write s i R.zero) := fun u hu hne => by
  obtain ⟨x, j, hx⟩ := h u hu.1 hne
  have hxt : x ≠ t := fun hc => hno j u (hc ▸ hx)
  have hsi : ¬ (x = s ∧ j = i) := by
    rintro ⟨rfl, rfl⟩
    have hslot := hx.slot
    rw [he.slot, Slot.link.injEq] at hslot
    exact hu.2 hslot.symm
  have hslot : R.slot ((F.release t T).mem x j) = .link u := by
    rw [show (F.release t T).mem x = F.mem x from hT x hx.used hxt, hx.slot]
  exact ⟨x, j, ⟨hx.used, hxt⟩, hx.depth, hx.lt, (write_mem_of_ne hsi).symm ▸ hslot⟩

end Full
end Tables
end Lib.Radix
