import Mathlib.Data.List.Nodup
import Mathlib.Logic.Function.Basic

/-! Doubly linked lists threaded through memory. The links are stored at the nodes, so lists with
different nodes can share one memory. -/
namespace Lib

/-- What the links of all nodes read. -/
@[ext] structure Links (A : Type*) where
  next : A → Option A
  prev : A → Option A

/-- The ends of a list. -/
structure Ends (A : Type*) where
  front : Option A
  back : Option A

variable {A : Type*}

/-- The nodes follow each other both ways, after `b` and before `e`. -/
def Links.Path (L : Links A) : Option A → List A → Option A → Prop
  | _, [], _ => True
  | b, x :: xs, e => L.prev x = b ∧ L.next x = xs.head?.or e ∧ L.Path (some x) xs e

structure Dll (L : Links A) (q : Ends A) (xs : List A) : Prop where
  nodup : xs.Nodup
  front : q.front = xs.head?
  back : q.back = xs.getLast?
  path : L.Path none xs none

namespace Links

variable {L L' : Links A} {b b' e e' : Option A} {x y : A} {xs ys : List A}

theorem Path.frame (h : L.Path b xs e) (hn : ∀ x ∈ xs, L'.next x = L.next x)
    (hp : ∀ x ∈ xs, L'.prev x = L.prev x) : L'.Path b xs e := by
  induction xs generalizing b with
  | nil => trivial
  | cons x xs ih =>
    obtain ⟨h1, h2, h3⟩ := h
    refine ⟨?_, ?_, ih h3 (fun y hy => hn y (by simp [hy])) fun y hy => hp y (by simp [hy])⟩
    · rw [hp x (by simp), h1]
    · rw [hn x (by simp), h2]

theorem path_append :
    L.Path b (xs ++ ys) e ↔ L.Path b xs (ys.head?.or e) ∧ L.Path (xs.getLast?.or b) ys e := by
  induction xs generalizing b with
  | nil => simp [Path]
  | cons x xs ih =>
    have hlast : (x :: xs).getLast?.or b = xs.getLast?.or (some x) := by
      rw [List.getLast?_cons]
      cases xs.getLast? <;> rfl
    simp only [List.cons_append, Path, ih, hlast, and_assoc]
    rw [List.head?_append, Option.or_assoc]

/-- A path whose first node is given another predecessor. -/
theorem Path.setPrev (h : L.Path b (y :: ys) e) (hn : ∀ x ∈ y :: ys, L'.next x = L.next x)
    (hy : L'.prev y = b') (hp : ∀ x ∈ ys, L'.prev x = L.prev x) : L'.Path b' (y :: ys) e := by
  obtain ⟨-, h2, h3⟩ := h
  refine ⟨hy, by rw [hn y (by simp), h2], ?_⟩
  exact h3.frame (fun x hx => hn x (by simp [hx])) hp

/-- A path whose last node is given another successor. -/
theorem Path.setNext (h : L.Path b (xs ++ [x]) e) (hn : ∀ y ∈ xs, L'.next y = L.next y)
    (hx : L'.next x = e') (hp : ∀ y ∈ xs ++ [x], L'.prev y = L.prev y) :
    L'.Path b (xs ++ [x]) e' := by
  rw [path_append] at h ⊢
  obtain ⟨h1, h2, -⟩ := h
  refine ⟨h1.frame hn fun y hy => hp y (by simp [hy]), ?_, ?_, trivial⟩
  · rw [hp x (by simp), h2]
  · rw [hx]
    rfl

variable [DecidableEq A]

/-- Insert `p` before the node `front`. -/
def pushFront (L : Links A) (front : Option A) (p : A) : Links A where
  next := Function.update L.next p front
  prev a := if front = some a then some p else if a = p then none else L.prev a

/-- Let the neighbours of `p` point to each other. -/
def unlink (L : Links A) (p : A) : Links A where
  next a := if L.prev p = some a then L.next p else L.next a
  prev a := if L.next p = some a then L.prev p else L.prev a

end Links

namespace Ends

variable [DecidableEq A]

def pushFront (q : Ends A) (p : A) : Ends A where
  front := some p
  back := if q.front = none then some p else q.back

def unlink (q : Ends A) (L : Links A) (p : A) : Ends A where
  front := if L.prev p = none then L.next p else q.front
  back := if L.next p = none then L.prev p else q.back

end Ends

namespace Dll

variable {L L' : Links A} {q : Ends A} {p a : A} {xs : List A}

theorem nil (L : Links A) : Dll L ⟨none, none⟩ [] := ⟨List.nodup_nil, rfl, rfl, trivial⟩

theorem frame (h : Dll L q xs) (hn : ∀ x ∈ xs, L'.next x = L.next x)
    (hp : ∀ x ∈ xs, L'.prev x = L.prev x) : Dll L' q xs :=
  ⟨h.nodup, h.front, h.back, h.path.frame hn hp⟩

theorem eq_nil (h : Dll L q xs) (hq : q.front = none) : xs = [] := by
  rw [h.front, List.head?_eq_none_iff] at hq
  exact hq

theorem front_mem (h : Dll L q xs) (hq : q.front = some a) : a ∈ xs := by
  rw [h.front] at hq
  exact List.mem_of_head? hq

theorem back_mem (h : Dll L q xs) (hq : q.back = some a) : a ∈ xs := by
  rw [h.back] at hq
  exact List.mem_of_getLast? hq

theorem eq_singleton (h : Dll L q xs) (hf : q.front = some a) (hb : q.back = some a) :
    xs = [a] := by
  rw [h.front] at hf
  rw [h.back] at hb
  obtain ⟨ys, rfl⟩ := List.head?_eq_some_iff.mp hf
  have hnd := h.nodup
  rcases List.eq_nil_or_concat ys with rfl | ⟨zs, y, rfl⟩
  · rfl
  · rw [List.concat_eq_append, ← List.cons_append, List.getLast?_concat] at hb
    obtain rfl : y = a := Option.some.inj hb
    rw [List.concat_eq_append, List.nodup_cons] at hnd
    exact absurd (by simp) hnd.1

/-- The links of a node, by its place in the list. -/
theorem links_eq {ys : List A} (h : Dll L q (xs ++ p :: ys)) :
    L.prev p = xs.getLast? ∧ L.next p = ys.head? := by
  obtain ⟨-, h1, h2, -⟩ := Links.path_append.mp h.path
  rw [Option.or_none] at h1 h2
  exact ⟨h1, h2⟩

theorem prev_mem (h : Dll L q xs) (hp : p ∈ xs) (ha : L.prev p = some a) : a ∈ xs := by
  obtain ⟨ys, zs, rfl⟩ := List.append_of_mem hp
  rw [h.links_eq.1] at ha
  exact List.mem_append_left _ (List.mem_of_getLast? ha)

theorem next_mem (h : Dll L q xs) (hp : p ∈ xs) (ha : L.next p = some a) : a ∈ xs := by
  obtain ⟨ys, zs, rfl⟩ := List.append_of_mem hp
  rw [h.links_eq.2] at ha
  exact List.mem_append_right _ (List.mem_cons_of_mem _ (List.mem_of_head? ha))

theorem next_ne_self (h : Dll L q xs) (hp : p ∈ xs) : L.next p ≠ some p := fun hc => by
  obtain ⟨ys, zs, rfl⟩ := List.append_of_mem hp
  rw [h.links_eq.2] at hc
  exact (List.nodup_cons.mp (List.nodup_append.mp h.nodup).2.1).1 (List.mem_of_head? hc)

variable [DecidableEq A]

theorem pushFront (h : Dll L q xs) (hp : p ∉ xs) :
    Dll (L.pushFront q.front p) (q.pushFront p) (p :: xs) := by
  refine ⟨List.nodup_cons.mpr ⟨hp, h.nodup⟩, rfl, ?_, ?_⟩
  · cases xs with
    | nil => simp [Ends.pushFront, h.front]
    | cons x xs => simp [Ends.pushFront, h.front, h.back]
  · have hne : ∀ x ∈ xs, x ≠ p := fun x hx he => hp (he ▸ hx)
    have hfp : q.front ≠ some p := fun hc => hp (h.front_mem hc)
    refine ⟨?_, ?_, ?_⟩
    · simp [Links.pushFront, hfp]
    · simp [Links.pushFront, h.front]
    · cases xs with
      | nil => trivial
      | cons x xs =>
        have hnd := List.nodup_cons.mp h.nodup
        refine h.path.setPrev (fun y hy => ?_) ?_ fun y hy => ?_
        · exact Function.update_of_ne (hne y hy) ..
        · simp [Links.pushFront, h.front]
        · have hxy : x ≠ y := fun he => hnd.1 (he ▸ hy)
          simp [Links.pushFront, h.front, hxy, hne y (by simp [hy])]

theorem unlink (h : Dll L q xs) (hp : p ∈ xs) : Dll (L.unlink p) (q.unlink L p) (xs.erase p) := by
  obtain ⟨ys, zs, rfl⟩ := List.append_of_mem hp
  obtain ⟨hprev, hnext⟩ := h.links_eq
  obtain ⟨hys, hzs, hdis⟩ := List.nodup_append.mp h.nodup
  rw [List.nodup_cons] at hzs
  have hpy : p ∉ ys := fun hc => hdis p hc p (by simp) rfl
  have hyz : ∀ y ∈ ys, y ∉ zs := fun y hy hz => hdis y hy y (by simp [hz]) rfl
  rw [List.erase_append_right _ hpy, List.erase_cons_head]
  -- each side keeps its links, except the one to `p`
  obtain ⟨hleft, -, -, hright⟩ := Links.path_append.mp h.path
  have hprevys : ∀ y ∈ ys, (L.unlink p).prev y = L.prev y := fun y hy => if_neg fun hc => by
    rw [hnext] at hc
    exact hyz y hy (List.mem_of_head? hc)
  have hnextzs : ∀ z ∈ zs, (L.unlink p).next z = L.next z := fun z hz => if_neg fun hc => by
    rw [hprev] at hc
    exact hyz z (List.mem_of_getLast? hc) hz
  refine ⟨List.nodup_append.mpr ⟨hys, hzs.2, fun a ha b hb he => hyz a ha (he ▸ hb)⟩, ?_, ?_, ?_⟩
  · rw [Ends.unlink, hprev, hnext, h.front]
    cases ys <;> simp
  · rw [Ends.unlink, hprev, hnext, h.back]
    cases zs <;> simp
  · rw [Links.path_append, Option.or_none, Option.or_none]
    constructor
    · rcases List.eq_nil_or_concat ys with rfl | ⟨ys, y, rfl⟩
      · trivial
      · rw [List.concat_eq_append] at *
        refine hleft.setNext (fun x hx => if_neg fun hc => ?_) ?_ hprevys
        · rw [hprev, List.getLast?_concat, Option.some.injEq] at hc
          exact (List.nodup_append.mp hys).2.2 x hx y (by simp) hc.symm
        · rw [← hnext]
          exact if_pos (by rw [hprev, List.getLast?_concat])
    · cases zs with
      | nil => trivial
      | cons z zs =>
        refine hright.setPrev hnextzs ?_ fun x hx => if_neg fun hc => ?_
        · rw [← hprev]
          exact if_pos hnext
        · rw [hnext, List.head?_cons, Option.some.injEq] at hc
          exact (List.nodup_cons.mp hzs.2).1 (hc ▸ hx)

/-- A list with other nodes is left as it is by an insertion. -/
theorem pushFront_frame {q' : Ends A} {ys : List A} (h : Dll L q xs) (h' : Dll L q' ys)
    (hd : ∀ x ∈ ys, x ∉ xs) (hp : p ∉ ys) : Dll (L.pushFront q.front p) q' ys :=
  have hne : ∀ x ∈ ys, x ≠ p := fun x hx he => hp (he ▸ hx)
  h'.frame (fun x hx => Function.update_of_ne (hne x hx) ..) fun x hx => by
    have hxp := hne x hx
    have hxf : q.front ≠ some x := fun hc => hd x hx (h.front_mem hc)
    simp [Links.pushFront, hxp, hxf]

/-- A list with other nodes is left as it is by a removal. -/
theorem unlink_frame {q' : Ends A} {ys : List A} (h : Dll L q xs) (h' : Dll L q' ys)
    (hd : ∀ x ∈ ys, x ∉ xs) (hp : p ∈ xs) : Dll (L.unlink p) q' ys :=
  h'.frame (fun x hx => if_neg fun hc => hd x hx (h.prev_mem hp hc)) fun x hx =>
    if_neg fun hc => hd x hx (h.next_mem hp hc)

end Dll
end Lib
