import Mathlib.Algebra.Group.Nat.Defs
import Mathlib.Data.Multiset.AddSub
import Mathlib.Data.List.Perm.Basic

/-! The race checker, `ConcChecker`: an access is watched between two critical sections, and may be
interrupted in between by other accesses of its core. -/
namespace Multiplix.Check

/-- `a1 < a2+sz2 && a2 < a1+sz1`, in 64 bits. -/
def overlaps (a1 sz1 a2 sz2 : ℕ) : Bool :=
  decide (a1 < (a2 + sz2) % 2 ^ 64) && decide (a2 < (a1 + sz1) % 2 ^ 64)

structure Watchpoint where
  core : ℕ
  addr : ℕ
  size : ℕ
  deriving DecidableEq

/-- `Vector.unordered_remove`: the last element takes the place of the removed one. -/
def unorderedRemove {α : Type} (data : List α) (idx : ℕ) : List α :=
  match data.getLast? with
  | some last => (data.set idx last).dropLast
  | none => data

namespace ConcChecker

/-- The first critical section of `on_access`. A race, or an append that fails, is a panic. -/
def watch (cpu addr size : ℕ) (append : Bool) (watchpoints : List Watchpoint) :
    Option (List Watchpoint) :=
  if watchpoints.any fun watched => overlaps addr size watched.addr watched.size then none
  else if append then some (watchpoints ++ [⟨cpu, addr, size⟩])
  else none

/-- The second one, behind the delay: the loop stops at the first watchpoint of the core. -/
def unwatch (cpu : ℕ) (watchpoints : List Watchpoint) : List Watchpoint :=
  match watchpoints.findIdx? fun watched => watched.core == cpu with
  | some i => unorderedRemove watchpoints i
  | none => watchpoints

end ConcChecker

/-! ### Runs -/

/-- The watchpoints with the accesses whose window is open, the last one first. -/
structure ConcState where
  watchpoints : List Watchpoint
  opened : List Watchpoint

inductive ConcStep
  | enter (w : Watchpoint) (append : Bool)
  | leave (cpu : ℕ)

namespace ConcState

/-- The access of a core that was not interrupted, or is the last to interrupt. -/
def innermost (s : ConcState) (cpu : ℕ) : Option Watchpoint := s.opened.find? fun w => w.core == cpu

/-- A critical section of a core. -/
def exec (s : ConcState) : ConcStep → Option ConcState
  | .enter w append =>
    (ConcChecker.watch w.core w.addr w.size append s.watchpoints).map fun watchpoints =>
      ⟨watchpoints, w :: s.opened⟩
  | .leave cpu => (s.innermost cpu).map fun w =>
      ⟨ConcChecker.unwatch cpu s.watchpoints, s.opened.erase w⟩

/-- The states of the runs in which no call panics, and all of whose steps meet a condition. -/
inductive Reached (cond : ConcState → ConcStep → Prop) : ConcState → Prop
  | init : Reached cond ⟨[], []⟩
  | step {s s' : ConcState} {c : ConcStep} : Reached cond s → s.exec c = some s' → cond s c →
      Reached cond s'

end ConcState

/-- The two accesses have a byte in common. -/
def Watchpoint.Meets (v w : Watchpoint) : Prop :=
  ∃ x, (v.addr ≤ x ∧ x < v.addr + v.size) ∧ w.addr ≤ x ∧ x < w.addr + w.size

/-- The list is what is watched, and no two accesses at a time share a byte. -/
structure ConcState.Watches (s : ConcState) : Prop where
  exact : (s.watchpoints : Multiset Watchpoint) = s.opened
  apart : s.opened.Pairwise fun v w => ¬ v.Meets w

/-- Of two accesses that meet none reaches the end of the address space; and the watchpoint of an
access that ends stands before those of the accesses of its core that it interrupted. -/
def ConcState.Orderly (s : ConcState) : ConcStep → Prop
  | .enter w _ => ∀ v ∈ s.opened, w.Meets v → w.addr + w.size < 2 ^ 64 ∧ v.addr + v.size < 2 ^ 64
  | .leave cpu => s.watchpoints.find? (fun w => w.core == cpu) = s.innermost cpu

/-! ### The list -/

section List

variable {α : Type} {l : List α} {i : ℕ} {p : α → Bool} {w : α}

/-- The elements but the removed one, in some order. -/
theorem unorderedRemove_perm (h : l[i]? = some w) : (w :: unorderedRemove l i).Perm l := by
  rcases List.eq_nil_or_concat l with rfl | ⟨init, last, rfl⟩
  · cases h
  rw [List.concat_eq_append] at h ⊢
  unfold unorderedRemove
  rw [List.getLast?_concat]
  dsimp only
  by_cases hi : i < init.length
  · rw [List.set_append_left _ _ hi, List.dropLast_concat]
    rw [List.getElem?_append_left hi] at h
    have hperm := List.getD_set_perm_cons init i last
    rw [h, Option.getD_some] at hperm
    exact hperm.trans (List.perm_append_singleton last init).symm
  · obtain rfl : i = init.length := by
      have hlen := (List.getElem?_eq_some_iff.mp h).1
      rw [List.length_append, List.length_singleton] at hlen
      omega
    rw [List.getElem?_concat_length, Option.some.injEq] at h
    rw [List.set_append_right _ _ le_rfl, Nat.sub_self, List.set_cons_zero, List.dropLast_concat, h]
    exact (List.perm_append_singleton w init).symm

theorem findIdx?_of_find? (h : l.find? p = some w) :
    ∃ i, l.findIdx? p = some i ∧ l[i]? = some w := by
  obtain ⟨hp, i, hi, hw, hbefore⟩ := List.find?_eq_some_iff_getElem.mp h
  refine ⟨i, List.findIdx?_eq_some_iff_getElem.mpr ⟨hi, by rw [hw]; exact hp, ?_⟩, ?_⟩
  · exact fun j hj => by simpa using hbefore j hj
  · rw [List.getElem?_eq_getElem hi, hw]

end List

/-! ### Steps -/

namespace ConcState

variable {s s' : ConcState} {c : ConcStep} {cpu : ℕ} {w : Watchpoint}

theorem overlaps_of_meets {v w : Watchpoint} (h : w.Meets v) (hw : w.addr + w.size < 2 ^ 64)
    (hv : v.addr + v.size < 2 ^ 64) : overlaps w.addr w.size v.addr v.size = true := by
  obtain ⟨x, hx, hx'⟩ := h
  unfold overlaps
  rw [Nat.mod_eq_of_lt hw, Nat.mod_eq_of_lt hv, Bool.and_eq_true, decide_eq_true_eq,
    decide_eq_true_eq]
  omega

theorem Watches.mem_iff (h : s.Watches) : w ∈ s.watchpoints ↔ w ∈ s.opened := by
  rw [← Multiset.mem_coe, h.exact, Multiset.mem_coe]

/-- An access that meets an open one is a race. -/
theorem Watches.enter_none (h : s.Watches) {append : Bool} (hc : s.Orderly (.enter w append))
    {v : Watchpoint} (hv : v ∈ s.opened) (hm : w.Meets v) : s.exec (.enter w append) = none := by
  obtain ⟨hw, hlt⟩ := hc v hv hm
  have hany : s.watchpoints.any (fun watched =>
      overlaps w.addr w.size watched.addr watched.size) = true :=
    List.any_eq_true.mpr ⟨v, h.mem_iff.mpr hv, overlaps_of_meets hm hw hlt⟩
  rw [exec, ConcChecker.watch, if_pos hany]
  rfl

/-- The watchpoint that is removed is that of the access. -/
theorem unwatch_erase (hc : s.Orderly (.leave cpu)) (hw : s.innermost cpu = some w) :
    (ConcChecker.unwatch cpu s.watchpoints : Multiset Watchpoint) =
      (s.watchpoints : Multiset Watchpoint).erase w := by
  have hfind : s.watchpoints.find? (fun w => w.core == cpu) = some w := hc.trans hw
  obtain ⟨i, hi, hget⟩ := findIdx?_of_find? hfind
  have hperm := Multiset.coe_eq_coe.mpr (unorderedRemove_perm hget)
  rw [ConcChecker.unwatch, hi, ← hperm, ← Multiset.cons_coe, Multiset.erase_cons_head]

theorem Watches.exec (h : s.Watches) (hx : s.exec c = some s') (hc : s.Orderly c) :
    s'.Watches := by
  cases c with
  | enter w append =>
    obtain ⟨watchpoints, hwatch, rfl⟩ := Option.map_eq_some_iff.mp hx
    unfold ConcChecker.watch at hwatch
    split_ifs at hwatch
    cases hwatch
    constructor
    · have hsnoc := List.perm_append_singleton w s.watchpoints
      calc ((s.watchpoints ++ [w] : List Watchpoint) : Multiset Watchpoint)
          = (w :: s.watchpoints : List Watchpoint) := Multiset.coe_eq_coe.mpr hsnoc
        _ = w ::ₘ (s.opened : Multiset Watchpoint) := by rw [← Multiset.cons_coe, h.exact]
        _ = (w :: s.opened : List Watchpoint) := Multiset.cons_coe _ _
    · refine List.pairwise_cons.mpr ⟨fun v hv hm => ?_, h.apart⟩
      rw [h.enter_none hc hv hm] at hx
      cases hx
  | leave cpu =>
    obtain ⟨w, hw, rfl⟩ := Option.map_eq_some_iff.mp hx
    constructor
    · rw [unwatch_erase hc hw, h.exact, Multiset.coe_erase]
    · exact h.apart.sublist List.erase_sublist

theorem Reached.watches (hr : Reached Orderly s) : s.Watches := by
  induction hr with
  | init => exact ⟨rfl, .nil⟩
  | step _ hx hc ih => exact ih.exec hx hc

/-- In every run of orderly steps the list is exactly the open accesses, an access that ends takes
its own watchpoint, and one that meets an open access is a panic. -/
theorem watches_of_orderly (hr : Reached Orderly s) : s.Watches ∧
    (∀ cpu w, s.innermost cpu = some w → s.Orderly (.leave cpu) →
      (ConcChecker.unwatch cpu s.watchpoints : Multiset Watchpoint) =
        (s.watchpoints : Multiset Watchpoint).erase w) ∧
    ∀ w append, s.Orderly (.enter w append) → (∃ v ∈ s.opened, w.Meets v) →
      s.exec (.enter w append) = none := by
  have h := hr.watches
  refine ⟨h, fun cpu w hw hc => unwatch_erase hc hw, ?_⟩
  rintro w append hc ⟨v, hv, hm⟩
  exact h.enter_none hc hv hm

/-- Two cores, of which the first one is done. -/
theorem watches_of_orderly_two : ∃ s, Reached Orderly s ∧ s.opened = [⟨1, 0x2000, 8⟩] ∧
    s.Watches ∧
    (∀ cpu w, s.innermost cpu = some w → s.Orderly (.leave cpu) →
      (ConcChecker.unwatch cpu s.watchpoints : Multiset Watchpoint) =
        (s.watchpoints : Multiset Watchpoint).erase w) ∧
    ∀ w append, s.Orderly (.enter w append) → (∃ v ∈ s.opened, w.Meets v) →
      s.exec (.enter w append) = none := by
  have h0 : Reached Orderly _ := .init
  have h1 := h0.step (c := .enter ⟨0, 0x1000, 8⟩ true) rfl fun v hv => absurd hv (by simp)
  have h2 := h1.step (c := .enter ⟨1, 0x2000, 8⟩ true) rfl fun v hv _ => by
    obtain rfl : v = ⟨0, 0x1000, 8⟩ := List.mem_singleton.mp hv
    decide
  have h3 := h2.step (c := .leave 0) rfl rfl
  exact ⟨_, h3, rfl, watches_of_orderly h3⟩

/-- An access that interrupted another one of its core takes that one's watchpoint. -/
theorem not_watches_nested : ∃ s, Reached (fun _ _ => True) s ∧ ¬ s.Watches := by
  have h0 : Reached (fun _ _ => True) _ := .init
  have h1 := h0.step (c := .enter ⟨0, 0x1000, 8⟩ true) rfl trivial
  have h2 := h1.step (c := .enter ⟨0, 0x2000, 8⟩ true) rfl trivial
  have h3 := h2.step (c := .leave 0) rfl trivial
  exact ⟨_, h3, fun h => absurd h.exact (by decide)⟩

end ConcState

end Multiplix.Check
