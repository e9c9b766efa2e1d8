import Mathlib.Data.Set.Card

/-! Copy on write. Locations refer to pages, each for reading only or for writing too, and a count
is kept for each page. -/
namespace Lib

structure Cow (L P : Type*) where
  ref : L → Option (P × Bool)
  count : P → ℕ

namespace Cow

variable {L P D K : Type*}

/-- The locations that refer to a page. -/
def refs (s : Cow L P) (p : P) : Set L := {l | ∃ w, s.ref l = some (p, w)}

/-- Counts are exact for the pages in use, a page that can be written through one location is
referred to by no other, and a page has the same key wherever it is used. -/
structure Counted (s : Cow L P) (key : L → K) : Prop where
  count : ∀ {p}, (s.refs p).Nonempty → (s.refs p).encard = s.count p
  unique : ∀ {l l' p w}, s.ref l = some (p, true) → s.ref l' = some (p, w) → l = l'
  key : ∀ {l l' p w w'}, s.ref l = some (p, w) → s.ref l' = some (p, w') → key l = key l'

/-- What is seen at a location. -/
def view (s : Cow L P) (data : P → D) (l : L) : Option D := (s.ref l).map fun r => data r.1

variable {s : Cow L P} {key : L → K} {l l' : L} {p q : P} {w : Bool}

theorem mem_refs_of (h : s.ref l = some (p, w)) : l ∈ s.refs p := ⟨w, h⟩

/-- Only the location that was last taken over or copied refers to its page. -/
theorem Counted.sole (h : s.Counted key) (hl : s.ref l = some (p, w)) (hc : s.count p = 1) :
    s.refs p = {l} := by
  have h1 := h.count ⟨l, mem_refs_of hl⟩
  rw [hc, Nat.cast_one, Set.encard_eq_one] at h1
  obtain ⟨x, hx⟩ := h1
  have : l ∈ s.refs p := mem_refs_of hl
  rw [hx] at this ⊢
  rw [Set.mem_singleton_iff.mp this]

variable [DecidableEq L]

/-- The sole reference to a page becomes writable. -/
theorem Counted.takeOver (h : s.Counted key) (hl : s.ref l = some (p, w)) (hc : s.count p = 1)
    {s' : Cow L P} (href : s'.ref = Function.update s.ref l (some (p, true)))
    (hcount : s'.count = s.count) : s'.Counted key := by
  have hsole := h.sole hl hc
  have hto : ∀ {x r v}, s'.ref x = some (r, v) → ∃ v', s.ref x = some (r, v') :=
    fun {x r v} hx => by
    rw [href, Function.update_apply] at hx
    split_ifs at hx with hxl
    · cases hx
      exact ⟨w, hxl ▸ hl⟩
    · exact ⟨v, hx⟩
  have hof : ∀ {x r v}, s.ref x = some (r, v) → ∃ v', s'.ref x = some (r, v') :=
    fun {x r v} hx => by
    rw [href, Function.update_apply]
    split_ifs with hxl
    · rw [hxl, hl] at hx
      cases hx
      exact ⟨true, rfl⟩
    · exact ⟨v, hx⟩
  have hrefs : ∀ r, s'.refs r = s.refs r := fun r =>
    Set.ext fun x => ⟨fun ⟨_, hx⟩ => hto hx, fun ⟨_, hx⟩ => hof hx⟩
  refine ⟨fun hr => ?_, fun {x y r v} hx hy => ?_, fun hx hy => ?_⟩
  · rw [hrefs] at hr ⊢
    rw [hcount]
    exact h.count hr
  · by_cases hp : r = p
    · rw [hp] at hx hy
      have hx' : x ∈ s.refs p := hto hx
      have hy' : y ∈ s.refs p := hto hy
      rw [hsole, Set.mem_singleton_iff] at hx' hy'
      rw [hx', hy']
    · obtain ⟨v', hy⟩ := hto hy
      rw [href, Function.update_apply] at hx
      split_ifs at hx with hxl
      · cases hx
        exact absurd rfl hp
      · exact h.unique hx hy
  · obtain ⟨_, hx⟩ := hto hx
    obtain ⟨_, hy⟩ := hto hy
    exact h.key hx hy

/-- A location becomes read-only. -/
theorem Counted.protect (h : s.Counted key) (hl : s.ref l = some (p, w)) {s' : Cow L P}
    (href : s'.ref = Function.update s.ref l (some (p, false))) (hcount : s'.count = s.count) :
    s'.Counted key := by
  have hto : ∀ {x r v}, s'.ref x = some (r, v) →
      ∃ v', s.ref x = some (r, v') ∧ (v = true → v' = true) := fun {x r v} hx => by
    rw [href, Function.update_apply] at hx
    split_ifs at hx with hxl
    · cases hx
      exact ⟨w, hxl ▸ hl, fun hv => by cases hv⟩
    · exact ⟨v, hx, id⟩
  have hof : ∀ {x r v}, s.ref x = some (r, v) → ∃ v', s'.ref x = some (r, v') :=
    fun {x r v} hx => by
    rw [href, Function.update_apply]
    split_ifs with hxl
    · rw [hxl, hl] at hx
      cases hx
      exact ⟨false, rfl⟩
    · exact ⟨v, hx⟩
  have hrefs : ∀ r, s'.refs r = s.refs r := fun r =>
    Set.ext fun x => ⟨fun ⟨_, hx⟩ => (hto hx).imp fun _ h => h.1, fun ⟨_, hx⟩ => hof hx⟩
  refine ⟨fun hr => ?_, fun {x y r v} hx hy => ?_, fun hx hy => ?_⟩
  · rw [hrefs] at hr ⊢
    rw [hcount]
    exact h.count hr
  · obtain ⟨v', hx, hv⟩ := hto hx
    obtain ⟨v'', hy, -⟩ := hto hy
    exact h.unique (hv rfl ▸ hx) hy
  · obtain ⟨_, hx, -⟩ := hto hx
    obtain ⟨_, hy, -⟩ := hto hy
    exact h.key hx hy

/-- A new reference to a page makes both read-only. -/
theorem Counted.share [DecidableEq P] (h : s.Counted key) (hl : s.ref l = some (p, w))
    (hl' : s.ref l' = none) (hkey : key l = key l') {s' : Cow L P}
    (href : s'.ref =
      Function.update (Function.update s.ref l (some (p, false))) l' (some (p, false)))
    (hcount : ∀ q, (s'.refs q).Nonempty → s'.count q = if q = p then s.count p + 1 else s.count q) :
    s'.Counted key := by
  have hne : l ≠ l' := fun he => by rw [he, hl'] at hl; cases hl
  have hto : ∀ {x r v}, s'.ref x = some (r, v) →
      (x = l' ∧ r = p ∧ v = false) ∨ (x ≠ l' ∧ ∃ v', s.ref x = some (r, v') ∧ (x = l → v = false) ∧
        (x ≠ l → v' = v)) := fun {x r v} hx => by
    rw [href, Function.update_apply, Function.update_apply] at hx
    split_ifs at hx with h1 h2
    · cases hx
      exact Or.inl ⟨h1, rfl, rfl⟩
    · cases hx
      exact Or.inr ⟨h1, w, h2 ▸ hl, fun _ => rfl, fun hn => absurd h2 hn⟩
    · exact Or.inr ⟨h1, v, hx, fun he => absurd he h2, fun _ => rfl⟩
  have hof : ∀ {x r v}, s.ref x = some (r, v) → ∃ v', s'.ref x = some (r, v') :=
    fun {x r v} hx => by
    rw [href, Function.update_apply, Function.update_apply]
    split_ifs with h1 h2
    · rw [h1, hl'] at hx
      cases hx
    · rw [h2, hl] at hx
      cases hx
      exact ⟨false, rfl⟩
    · exact ⟨v, hx⟩
  have hold : ∀ {x r v}, s'.ref x = some (r, v) → x ∈ s.refs r ∨ (x = l' ∧ r = p) := fun hx =>
    (hto hx).elim (fun h1 => Or.inr ⟨h1.1, h1.2.1⟩) fun h1 => Or.inl ⟨_, h1.2.choose_spec.1⟩
  have hnot : ∀ r, l' ∉ s.refs r := fun r ⟨_, hr⟩ => by rw [hl'] at hr; cases hr
  have hrefs : ∀ r, s'.refs r = if r = p then insert l' (s.refs p) else s.refs r := fun r => by
    ext x
    split_ifs with hr
    · subst hr
      constructor
      · rintro ⟨v, hx⟩
        exact (hold hx).elim Or.inr fun h1 => Or.inl h1.1
      · rintro (rfl | ⟨v, hx⟩)
        · exact ⟨false, by rw [href, Function.update_self]⟩
        · exact hof hx
    · constructor
      · rintro ⟨v, hx⟩
        exact (hold hx).resolve_right fun h1 => hr h1.2
      · rintro ⟨v, hx⟩
        exact hof hx
  refine ⟨fun {r} hr => ?_, fun {x y r v} hx hy => ?_, fun {x y r v v'} hx hy => ?_⟩
  · rw [hcount r hr]
    rw [hrefs] at hr ⊢
    split_ifs at hr ⊢ with hrp
    · rw [Set.encard_insert_of_notMem (hnot p), h.count ⟨l, mem_refs_of hl⟩]
      rfl
    · exact h.count hr
  · -- a writable location refers to another page than the shared one
    rcases hto hx with ⟨-, -, hv⟩ | ⟨hxl', v₁, hx, hxl, hxn⟩
    · cases hv
    · have hxl : x ≠ l := fun he => by cases hxl he
      rw [hxn hxl] at hx
      have hrp : r ≠ p := fun he => hxl (h.unique hx (he ▸ hl))
      rcases hto hy with ⟨-, hr, -⟩ | ⟨-, v₂, hy, -⟩
      · exact absurd hr hrp
      · exact h.unique hx hy
  · have hkeyp : ∀ {x}, x ∈ s.refs p → key x = key l := fun ⟨_, hx⟩ => h.key hx hl
    rcases hold hx with hx | ⟨rfl, rfl⟩ <;> rcases hold hy with hy | ⟨hy, hp⟩
    · exact h.key hx.choose_spec hy.choose_spec
    · subst hp hy
      rw [hkeyp hx, hkey]
    · rw [hkeyp hy, hkey]
    · rw [hy]

/-- A location moves to a page that was not in use. -/
theorem Counted.assign (h : s.Counted key) (hq : s.refs q = ∅) {s' : Cow L P}
    (href : s'.ref = Function.update s.ref l (some (q, true))) (hcq : s'.count q = 1)
    (hcount : ∀ {p l₁ w}, l₁ ≠ l → s.ref l₁ = some (p, w) →
      (l ∈ s.refs p → s'.count p = s.count p - 1) ∧ (l ∉ s.refs p → s'.count p = s.count p)) :
    s'.Counted key := by
  have hto : ∀ {x r v}, s'.ref x = some (r, v) →
      (x = l ∧ r = q ∧ v = true) ∨ (x ≠ l ∧ r ≠ q ∧ s.ref x = some (r, v)) := fun {x r v} hx => by
    rw [href, Function.update_apply] at hx
    split_ifs at hx with h1
    · cases hx
      exact Or.inl ⟨h1, rfl, rfl⟩
    · refine Or.inr ⟨h1, fun hr => ?_, hx⟩
      have : x ∈ s.refs q := ⟨v, hr ▸ hx⟩
      rw [hq] at this
      exact this
  have hrefs : ∀ {r}, r ≠ q → s'.refs r = s.refs r \ {l} := fun {r} hr => by
    ext x
    constructor
    · rintro ⟨v, hx⟩
      rcases hto hx with ⟨-, h1, -⟩ | ⟨h1, -, hx⟩
      · exact absurd h1 hr
      · exact ⟨⟨v, hx⟩, h1⟩
    · rintro ⟨⟨v, hx⟩, h1⟩
      exact ⟨v, by rw [href, Function.update_of_ne h1, hx]⟩
  have hrefsq : s'.refs q = {l} := Set.ext fun x =>
    ⟨fun ⟨v, hx⟩ => (hto hx).elim (fun h1 => h1.1) fun h1 => absurd rfl h1.2.1,
      fun h1 => ⟨true, by rw [href, Set.mem_singleton_iff.mp h1, Function.update_self]⟩⟩
  refine ⟨fun {r} hr => ?_, fun {x y r v} hx hy => ?_, fun {x y r v v'} hx hy => ?_⟩
  · by_cases hrq : r = q
    · subst hrq
      rw [hrefsq, hcq, Set.encard_singleton, Nat.cast_one]
    · rw [hrefs hrq] at hr ⊢
      obtain ⟨x, ⟨v, hx⟩, hxl⟩ := hr
      have hcard := h.count ⟨x, mem_refs_of hx⟩
      by_cases hl : l ∈ s.refs r
      · rw [(hcount hxl hx).1 hl, Set.encard_sdiff_singleton_of_mem hl, hcard]
        simp
      · rw [(hcount hxl hx).2 hl, Set.sdiff_singleton_eq_self hl, hcard]
  · rcases hto hx with ⟨rfl, rfl, -⟩ | ⟨-, hr, hx⟩
    · exact (hto hy).elim (fun h1 => h1.1.symm) fun h1 => absurd rfl h1.2.1
    · exact (hto hy).elim (fun h1 => absurd h1.2.1 hr) fun h1 => h.unique hx h1.2.2
  · rcases hto hx with ⟨rfl, rfl, -⟩ | ⟨-, hr, hx⟩
    · exact (hto hy).elim (fun h1 => by rw [h1.1]) fun h1 => absurd rfl h1.2.1
    · exact (hto hy).elim (fun h1 => absurd h1.2.1 hr) fun h1 => h.key hx h1.2.2

end Cow
end Lib
