import Mathlib.Order.Interval.Finset.Nat
import Multiplix.Proc.ShapeOps

/-! Reference counts agree with the page tables of all processes. -/
namespace Multiplix.Proc
open Lib Vm

namespace Machine

variable (P : Platform)

/-- Page tables and reference counts, seen as copy on write. -/
def cow (roots : List ℕ) (m : Machine) : Cow (ℕ × ℕ) ℕ :=
  ⟨m.ref P roots, fun p => m.refcnt (p / 4096)⟩

structure Inv (roots : List ℕ) (o : Owners) (m : Machine) : Prop where
  shape : m.Shape P roots o
  counted : (m.cow P roots).Counted Prod.snd
  zero : ∀ t, some t ∈ m.heap → m.refcnt (t / 4096) = 0

/-- The byte that a process may read at an address. -/
def seen (roots : List ℕ) (m : Machine) (r va : ℕ) : Option Byte :=
  (m.ref P roots (r, va / 4096)).map fun x => m.bytes (x.1 + va % 4096)

variable {P} {roots : List ℕ} {o : Owners} {m m' : Machine} {r k pt : ℕ}

theorem Shape.length_le (h : m.Shape P roots o) : roots.length ≤ P.npgs := by
  rw [← List.toFinset_card_of_nodup h.nodup]
  have hsub : roots.toFinset ⊆
      (Finset.Ico P.basepg (P.basepg + P.npgs)).image fun pn => pn * 4096 := fun r hr => by
    obtain ⟨pn, h1, h2, rfl⟩ := h.root r (List.mem_toFinset.mp hr)
    exact Finset.mem_image_of_mem _ (Finset.mem_Ico.mpr ⟨h1, h2⟩)
  refine (Finset.card_le_card hsub).trans (Finset.card_image_le.trans ?_)
  rw [Nat.card_Ico, Nat.add_sub_cancel_left]

/-- Different pages have different numbers. -/
theorem Shape.div_ne (h : m.Shape P roots o) {p q : ℕ} (hp : p ∈ o.pages) (hq : 4096 ∣ q)
    (hne : p ≠ q) : p / 4096 ≠ q / 4096 := by
  have := (h.page p hp).dvd
  omega

namespace Inv

variable (h : m.Inv P roots o)
include h

theorem count_pos {l : ℕ × ℕ} {p : ℕ} {w : Bool} (hl : m.ref P roots l = some (p, w)) :
    1 ≤ m.refcnt (p / 4096) := by
  have hc := h.counted.count ⟨l, Cow.mem_refs_of (s := m.cow P roots) hl⟩
  have h1 : 1 ≤ ((m.cow P roots).refs p).encard :=
    Set.one_le_encard_iff_nonempty.mpr ⟨l, Cow.mem_refs_of hl⟩
  rw [hc] at h1
  exact_mod_cast h1

/-- A page has at most one reference from each process. -/
theorem count_le {l : ℕ × ℕ} {p : ℕ} {w : Bool} (hl : m.ref P roots l = some (p, w)) :
    m.refcnt (p / 4096) ≤ P.npgs := by
  have hl' : (m.cow P roots).ref l = some (p, w) := hl
  have hc := h.counted.count ⟨l, Cow.mem_refs_of hl'⟩
  have hsub : (m.cow P roots).refs p ⊆ (fun r => (r, l.2)) '' {r | r ∈ roots} := by
    rintro ⟨r, k⟩ ⟨v, hx⟩
    have hkey : l.2 = k := h.counted.key hl' hx
    exact ⟨r, (h.shape.ref_mem_pages hx).2.1, Prod.ext rfl hkey⟩
  have hfin : ({r | r ∈ roots} : Set ℕ).encard = roots.length := by
    rw [← List.toFinset_card_of_nodup h.shape.nodup, ← Set.encard_coe_eq_coe_finsetCard]
    congr 1
    ext r
    simp
  have hle : ((m.refcnt (p / 4096) : ℕ) : ℕ∞) ≤ (roots.length : ℕ∞) := by
    rw [← hfin, show m.refcnt (p / 4096) = (m.cow P roots).count p from rfl, ← hc]
    exact (Set.encard_le_encard hsub).trans (Set.encard_image_le _ _)
  exact (Nat.cast_le.mp hle).trans h.shape.length_le

end Inv

theorem Inv.congr (h : m.Inv P roots o) (ht : m'.tables = m.tables) (hh : m'.heap = m.heap)
    (hc : m'.refcnt = m.refcnt) : m'.Inv P roots o where
  shape := h.shape.congr ht hh
  counted := by
    have : m'.cow P roots = m.cow P roots := by rw [cow, cow, ref_congr ht, hc]
    rw [this]
    exact h.counted
  zero := by
    rw [hh, hc]
    exact h.zero

/-- A page handed out counts for nothing until it is mapped. -/
theorem Inv.kalloc (h : m.Inv P roots o) {p : ℕ} (hm : m.kalloc = (some p, m')) :
    m'.Inv P roots (o.addPage p) ∧ m' = { m with heap := m'.heap } ∧ p ∉ o.used roots ∧
      m.refcnt (p / 4096) = 0 ∧ ∀ t, some t ∈ m'.heap → t ≠ p ∧ some t ∈ m.heap := by
  obtain ⟨hs, heq, hheap, hp⟩ := h.shape.kalloc hm
  have hf := h.shape.fresh
  rw [hheap] at hf
  refine ⟨⟨hs, ?_, fun t ht => ?_⟩, heq, hp, h.zero p (hheap ▸ List.mem_cons_self), fun t ht =>
    ⟨fun he => ?_, hheap ▸ List.mem_cons_of_mem _ ht⟩⟩
  · rw [heq]
    exact h.counted
  · rw [heq]
    exact h.zero t (hheap ▸ List.mem_cons_of_mem _ ht)
  · subst he
    exact hf.2.2.2.not_mem t ht (Set.mem_insert _ _)

/-- A new process takes two pages: one for its table, one for itself. -/
theorem makeEmpty_cases {a : Option ℕ} (hm : m.makeEmpty P = (a, m')) :
    (a = none ∧ m.kalloc = (none, m')) ∨ ∃ (root : ℕ) (m₁ : Machine) (b : Option ℕ),
      m.heap = some root :: m₁.heap ∧
      m₁ = { m with
        tables := P.kernelProcmap (Function.update m.tables root fun _ => 0) root
        heap := m₁.heap } ∧
      m₁.kalloc = (b, m') ∧ a = b.map fun _ => root := by
  rw [Machine.makeEmpty, knewTable] at hm
  rcases hh : m.heap with _ | ⟨_ | root, heap⟩
  · rw [hh] at hm
    obtain ⟨rfl, rfl⟩ := Prod.mk.inj hm
    have heta : ({ m with heap := [] } : Machine) = m := by rw [← hh]
    exact Or.inl ⟨rfl, by rw [heta, Machine.kalloc, hh]⟩
  · rw [hh] at hm
    obtain ⟨rfl, rfl⟩ := Prod.mk.inj hm
    exact Or.inl ⟨rfl, by rw [Machine.kalloc, hh]⟩
  rw [hh, show ptalloc m.tables (some root :: heap) =
    (some root, Function.update m.tables root fun _ => 0, heap) from rfl] at hm
  dsimp only at hm
  generalize hm₁ : ({ m with
    tables := P.kernelProcmap (Function.update m.tables root fun _ => 0) root,
    heap := heap } : Machine) = m₁ at hm
  rcases hk : m₁.kalloc with ⟨b, m₂⟩
  refine Or.inr ⟨root, m₁, b, by rw [← hm₁], by rw [← hm₁], ?_⟩
  rw [hk] at hm
  cases b <;> obtain ⟨rfl, rfl⟩ := Prod.mk.inj hm <;> exact ⟨hk, rfl⟩

theorem makeEmpty_eq (hm : m.makeEmpty P = (some pt, m')) : ∃ (m₁ : Machine) (p : ℕ),
    m.heap = some pt :: m₁.heap ∧
      m₁ = { m with
        tables := P.kernelProcmap (Function.update m.tables pt fun _ => 0) pt, heap := m₁.heap } ∧
      m₁.kalloc = (some p, m') := by
  rcases makeEmpty_cases hm with ⟨hc, -⟩ | ⟨root, m₁, b, hheap, heq, hk, ha⟩
  · cases hc
  · cases b with
    | none => cases ha
    | some p =>
      cases ha
      exact ⟨m₁, p, hheap, heq, hk⟩

theorem Shape.makeEmpty (h : m.Shape P roots o) (hm : m.makeEmpty P = (some pt, m')) :
    (∃ o', m'.Shape P (roots ++ [pt]) o') ∧ pt ∉ roots ∧
      m'.leaf P (roots ++ [pt]) = m.leaf P roots := by
  obtain ⟨m₁, p, hheap, heq, hk⟩ := makeEmpty_eq hm
  obtain ⟨hs, hnew, hleaf⟩ := h.addProc hheap heq
  obtain ⟨hs', heq', -⟩ := hs.kalloc hk
  have ht : m'.tables = m₁.tables := by rw [heq']
  exact ⟨⟨_, hs'⟩, hnew, by rw [← hleaf, leaf_congr ht]⟩

theorem Inv.makeEmpty (h : m.Inv P roots o) (hm : m.makeEmpty P = (some pt, m')) :
    ∃ o', m'.Inv P (roots ++ [pt]) o' ∧ pt ∉ roots ∧ m'.ref P (roots ++ [pt]) = m.ref P roots ∧
      m'.bytes = m.bytes := by
  obtain ⟨m₁, p, hheap, heq, hk⟩ := makeEmpty_eq hm
  obtain ⟨hs, hnew, hleaf⟩ := h.shape.addProc hheap heq
  have href := ref_of_leaf hleaf
  have hinv : m₁.Inv P (roots ++ [pt]) (o.addProc pt) := by
    refine ⟨hs, ?_, fun t ht => ?_⟩
    · have hcow : m₁.cow P (roots ++ [pt]) = m.cow P roots := by rw [cow, cow, href, heq]
      rw [hcow]
      exact h.counted
    · rw [heq]
      exact h.zero t (hheap ▸ List.mem_cons_of_mem _ ht)
  obtain ⟨hi, heq', -⟩ := hinv.kalloc hk
  have ht : m'.tables = m₁.tables := by rw [heq']
  exact ⟨_, hi, hnew, by rw [← href, ref_congr ht], by rw [heq', heq]⟩

end Machine
end Multiplix.Proc
