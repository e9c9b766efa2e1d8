import Mathlib.Data.List.Nodup
import Mathlib.Logic.Function.Basic

/-! Circular doubly linked lists with a head. A node points to nodes, and `none` is the head. -/
namespace Lib

/-- What the links of the nodes and of the head read. -/
structure CircLinks (A : Type*) where
  next : Option A → Option A
  prev : Option A → Option A

namespace CircLinks

variable {A : Type*}

/-- The nodes follow each other both ways, after `a` and before `e`. -/
def Path (L : CircLinks A) : Option A → List A → Option A → Prop
  | a, [], e => L.next a = e ∧ L.prev e = a
  | a, x :: xs, e => L.next a = some x ∧ L.prev (some x) = a ∧ L.Path (some x) xs e

/-- The list read backwards. -/
def flip (L : CircLinks A) : CircLinks A := ⟨L.prev, L.next⟩

variable {L L' : CircLinks A} {a e : Option A} {x p : A} {xs ys : List A}

theorem path_append :
    L.Path a (xs ++ x :: ys) e ↔ L.Path a xs (some x) ∧ L.Path (some x) ys e := by
  induction xs generalizing a with
  | nil => simp [Path, and_assoc]
  | cons y xs ih => simp only [List.cons_append, Path, ih, and_assoc]

theorem Path.frame (h : L.Path a xs e) (hn : ∀ b ∈ a :: xs.map some, L'.next b = L.next b)
    (hp : ∀ b ∈ e :: xs.map some, L'.prev b = L.prev b) : L'.Path a xs e := by
  induction xs generalizing a with
  | nil => exact ⟨by rw [hn a (by simp), h.1], by rw [hp e (by simp), h.2]⟩
  | cons x xs ih =>
    obtain ⟨h1, h2, h3⟩ := h
    refine ⟨by rw [hn a (by simp), h1], by rw [hp (some x) (by simp), h2], ?_⟩
    refine ih h3 (fun b hb => hn b (List.mem_cons_of_mem _ hb)) fun b hb => hp b ?_
    rcases List.mem_cons.mp hb with rfl | hb
    · exact List.mem_cons_self ..
    · exact List.mem_cons_of_mem _ (List.mem_cons_of_mem _ hb)

theorem Path.flip (h : L.Path a xs e) : L.flip.Path e xs.reverse a := by
  induction xs generalizing a with
  | nil => exact ⟨h.2, h.1⟩
  | cons x xs ih =>
    rw [List.reverse_cons]
    exact path_append.mpr ⟨ih h.2.2, h.2.1, h.1⟩

theorem Path.prev_mem (h : L.Path a xs e) : L.prev e ∈ a :: xs.map some := by
  induction xs generalizing a with
  | nil => simp [h.2]
  | cons x xs ih => exact List.mem_cons_of_mem _ (ih h.2.2)

theorem Path.next_mem (h : L.Path a xs e) : L.next a ∈ e :: xs.map some := by
  cases xs with
  | nil => simp [h.1]
  | cons x xs => simp [h.1]

variable [DecidableEq A]

/-- Let the neighbours of `p` point to each other. -/
def unlink (L : CircLinks A) (p : A) : CircLinks A where
  next := Function.update L.next (L.prev (some p)) (L.next (some p))
  prev := Function.update L.prev (L.next (some p)) (L.prev (some p))

/-- Insert `p` after the head. -/
def pushFront (L : CircLinks A) (p : A) : CircLinks A where
  next := Function.update (Function.update L.next (some p) (L.next none)) none (some p)
  prev := Function.update (Function.update L.prev (some p) none) (L.next none) (some p)

theorem Path.unlink (h : L.Path a (xs ++ p :: ys) e) (ha : a ∉ (xs ++ p :: ys).map some)
    (he : e ∉ (xs ++ p :: ys).map some) (hnd : (xs ++ p :: ys).Nodup) :
    (L.unlink p).Path a (xs ++ ys) e := by
  induction xs generalizing a with
  | nil =>
    obtain ⟨h1, h2, h3⟩ := h
    cases ys with
    | nil =>
      obtain ⟨h4, h5⟩ := h3
      exact ⟨by simp [CircLinks.unlink, h2, h4], by simp [CircLinks.unlink, h2, h4]⟩
    | cons y ys =>
      obtain ⟨h4, h5, h6⟩ := h3
      refine ⟨by simp [CircLinks.unlink, h2, h4], by simp [CircLinks.unlink, h2, h4],
        h6.frame (fun b hb => ?_) fun b hb => ?_⟩
      · refine Function.update_of_ne ?_ _ _
        rintro rfl
        rw [h2] at hb
        exact ha (List.mem_cons_of_mem _ hb)
      · refine Function.update_of_ne ?_ _ _
        rintro rfl
        rw [h4] at hb
        rcases List.mem_cons.mp hb with hb | hb
        · exact he (by simp [← hb])
        · have hy : y ∈ ys := by simpa using hb
          exact (List.nodup_cons.mp (List.nodup_cons.mp hnd).2).1 hy
  | cons x xs ih =>
    obtain ⟨h1, h2, h3⟩ := h
    have hx := List.nodup_cons.mp hnd
    obtain ⟨hl, hr⟩ := path_append.mp h3
    have hprev := hl.prev_mem
    have hnext := hr.next_mem
    refine ⟨?_, ?_, ih h3 (by simpa using hx.1) (fun hm => he (by simp_all)) hx.2⟩
    · refine (Function.update_of_ne ?_ _ _).trans h1
      rintro rfl
      refine ha ?_
      rw [List.cons_append, List.map_cons, List.map_append]
      rcases List.mem_cons.mp hprev with hm | hm
      · exact List.mem_cons.mpr (Or.inl hm)
      · exact List.mem_cons_of_mem _ (List.mem_append_left _ hm)
    · refine (Function.update_of_ne ?_ _ _).trans h2
      intro hc
      rw [← hc] at hnext
      rcases List.mem_cons.mp hnext with hm | hm
      · exact he (by simp [← hm])
      · have hy : x ∈ ys := by simpa using hm
        exact hx.1 (by simp [hy])

end CircLinks

/-- The list through the head has the nodes `xs`. -/
structure CircList {A : Type*} (L : CircLinks A) (xs : List A) : Prop where
  nodup : xs.Nodup
  path : L.Path none xs none

namespace CircList

variable {A : Type*} {L : CircLinks A} {xs : List A} {p : A}

theorem flip (h : CircList L xs) : CircList L.flip xs.reverse :=
  ⟨List.nodup_reverse.mpr h.nodup, h.path.flip⟩

variable [DecidableEq A]

theorem unlink (h : CircList L xs) (hp : p ∈ xs) : CircList (L.unlink p) (xs.erase p) := by
  obtain ⟨ys, zs, rfl⟩ := List.append_of_mem hp
  have hnd := h.nodup
  have hpy : p ∉ ys := fun hc => (List.nodup_append.mp hnd).2.2 p hc p (by simp) rfl
  refine ⟨hnd.erase p, ?_⟩
  rw [List.erase_append_right _ hpy, List.erase_cons_head]
  exact h.path.unlink (by simp) (by simp) hnd

theorem pushFront (h : CircList L xs) (hp : p ∉ xs) : CircList (L.pushFront p) (p :: xs) := by
  have hnext : L.next none ≠ some p := fun hc => by
    have hm := h.path.next_mem
    rw [hc] at hm
    exact hp (by simpa using hm)
  refine ⟨List.nodup_cons.mpr ⟨hp, h.nodup⟩, ?_, ?_, ?_⟩
  · simp [CircLinks.pushFront]
  · simp [CircLinks.pushFront, hnext.symm]
  · cases xs with
    | nil =>
      obtain ⟨h1, -⟩ := h.path
      constructor
      · simp [CircLinks.pushFront, h1]
      · simp [CircLinks.pushFront, h1]
    | cons x xs =>
      obtain ⟨h1, -, h3⟩ := h.path
      have hx := List.nodup_cons.mp h.nodup
      refine ⟨?_, ?_, h3.frame (fun b hb => ?_) fun b hb => ?_⟩
      · simp [CircLinks.pushFront, h1]
      · simp [CircLinks.pushFront, h1]
      · obtain ⟨y, hy, rfl⟩ := List.mem_map.mp (show b ∈ (x :: xs).map some from hb)
        have hyp : y ≠ p := fun he => hp (he ▸ hy)
        simp [CircLinks.pushFront, hyp]
      · rcases List.mem_cons.mp hb with rfl | hb
        · simp [CircLinks.pushFront, h1]
        · obtain ⟨y, hy, rfl⟩ := List.mem_map.mp hb
          have hyp : y ≠ p := fun he => hp (he ▸ List.mem_cons_of_mem _ hy)
          have hyx : y ≠ x := fun he => hx.1 (he ▸ hy)
          simp [CircLinks.pushFront, h1, hyp, hyx]

end CircList

/-- The first node from `a` on, before the head, that meets a test. The outer option is `none` when
the loop has not come to an end. -/
def scan {A : Type*} (next : Option A → Option A) (test : A → Bool) :
    ℕ → Option A → Option (Option A)
  | _, none => some none
  | 0, some _ => none
  | fuel + 1, some x => if test x then some (some x) else scan next test fuel (next (some x))

theorem CircLinks.Path.scan_next {A : Type*} {L : CircLinks A} {a : Option A} {xs : List A}
    (h : L.Path a xs none) (test : A → Bool) {fuel : ℕ} (hf : xs.length ≤ fuel) :
    scan L.next test fuel (L.next a) = some (xs.find? test) := by
  induction xs generalizing a fuel with
  | nil =>
    rw [h.1]
    cases fuel <;> rfl
  | cons x xs ih =>
    obtain ⟨fuel, rfl⟩ := Nat.exists_eq_add_one.mpr (Nat.zero_lt_of_lt hf)
    rw [h.1, scan, List.find?_cons]
    cases test x with
    | true => rfl
    | false => exact ih h.2.2 (by simpa using hf)

end Lib
