import Multiplix.Alloc.Kalloc

/-! `Vector` of `core.vector` over the kernel's allocator. -/
namespace Multiplix.Alloc
open Lib Core

/-- A struct type: its size, a 32-bit word of the compiler, and the destructor that is run on the
struct at an address, where it has one. -/
structure StructType where
  sizeof : ℕ
  sizeof_pos : 0 < sizeof
  sizeof_lt : sizeof < 2 ^ 32
  xdtor : Option (ℕ → BlockAlloc × Mem → BlockAlloc × Mem)

/-- The bytes of a value. -/
abbrev StructType.Val (T : StructType) := {v : List Byte // v.length = T.sizeof}

/-- `data.ptr`, `data.length` and `length`. -/
structure Vector where
  ptr : ℕ
  cap : ℕ
  length : ℕ

inductive AllocCall
  | kalloc (p size : ℕ)
  | free (p size : ℕ)

/-- A vector with the memory it is in. The calls that obtained memory or gave some back are listed,
the last one first. -/
structure VecState where
  alloc : BlockAlloc
  mem : Mem
  vec : Vector
  calls : List AllocCall

section Vector

variable (N : ℕ) (T : StructType)

/-- `kfree` of a pointer to a struct. -/
def kfreeStruct (ptr : ℕ) (s : VecState) : Option VecState :=
  let (alloc, mem) := match T.xdtor with
    | some xdtor => xdtor ptr (s.alloc, s.mem)
    | none => (s.alloc, s.mem)
  (alloc.free N mem ptr T.sizeof).map fun r =>
    { s with alloc := r.1, mem := r.2, calls := .free ptr T.sizeof :: s.calls }

namespace Vector

def clear (s : VecState) : Option VecState :=
  (kfreeStruct N T s.vec.ptr s).map fun s => { s with vec := ⟨0, 0, 0⟩ }

/-- `grow(newlen)` -/
def growTo (newlen : ℕ) (s : VecState) : Option (Bool × VecState) :=
  match kalloc N s.alloc s.mem (newlen * T.sizeof % 2 ^ 64) with
  | none => none
  | some (none, alloc, mem) => some (false, { s with alloc := alloc, mem := mem })
  | some (some (p, size), alloc, mem) =>
    let mem := mem.copy p mem s.vec.ptr (s.vec.cap * T.sizeof % 2 ^ 64)
    let calls := .kalloc p size :: s.calls
    (kfreeStruct N T s.vec.ptr { s with alloc := alloc, mem := mem, calls := calls }).map fun s =>
      (true, { s with vec := { s.vec with ptr := p, cap := newlen } })

/-- double in size by default -/
def nextCap (v : Vector) : ℕ := if v.cap = 0 then 8 else v.cap * 2 % 2 ^ 64

def grow (s : VecState) : Option (Bool × VecState) := growTo N T s.vec.nextCap s

/-- `!data || length >= cap` -/
def isFull (v : Vector) : Bool := v.ptr == 0 || decide (v.cap ≤ v.length)

/-- `append` behind the call of `grow`. -/
def push (value : T.Val) (s : VecState) : Option (Bool × VecState) :=
  if s.vec.length < s.vec.cap then
    let at' := s.vec.ptr + s.vec.length * T.sizeof
    some (true, { s with mem := s.mem.copy at' (fun i => value.1.getD i 0) 0 T.sizeof
                         vec := { s.vec with length := s.vec.length + 1 } })
  else none

def append (value : T.Val) (s : VecState) : Option (Bool × VecState) :=
  if s.vec.isFull then
    match grow N T s with
    | none => none
    | some (false, s) => some (false, s)
    | some (true, s) => push T value s
  else push T value s

/-- `array()` -/
def elements (m : Mem) (v : Vector) : List (List Byte) :=
  (List.range v.length).map fun i => m.slice (v.ptr + i * T.sizeof) T.sizeof

end Vector
end Vector

/-! ### Runs -/

/-- A vector among other clients of the allocator, with the values it should have. -/
structure VecSystem extends VecState where
  others : List Grant
  contents : List (List Byte)

inductive VecCall (T : StructType)
  | append (value : T.Val)
  | grow
  | growTo (newlen : ℕ)
  | clear

section Runs

variable {N : ℕ} (g : HeapGeometry N) (T : StructType)

def VecSystem.exec (N : ℕ) (s : VecSystem) : VecCall T → Option VecSystem
  | .append value => (Vector.append N T value s.toVecState).map fun (ok, t) =>
      { t with others := s.others
               contents := if ok then s.contents ++ [value.1] else s.contents }
  | .grow => (Vector.grow N T s.toVecState).map fun (_, t) =>
      { t with others := s.others, contents := s.contents }
  | .growTo newlen => (Vector.growTo N T newlen s.toVecState).map fun (_, t) =>
      { t with others := s.others, contents := s.contents }
  | .clear => (Vector.clear N T s.toVecState).map fun t =>
      { t with others := s.others, contents := [] }

/-- The states of the runs from `kallocinit` on all of whose calls meet a condition. -/
inductive VecRun (cond : VecState → VecCall T → Prop) : VecSystem → Prop
  | init (m : Mem) : VecRun cond
      { alloc := BlockAlloc.initAlloc N g.ptr (2 ^ g.log), mem := m, vec := ⟨0, 0, 0⟩, calls := []
        others := [], contents := [] }
  | call {s s' : VecSystem} {c : VecCall T} : VecRun cond s → s.exec T N c = some s' →
      cond s.toVecState c → VecRun cond s'
  | other {s : VecSystem} {t : BlockSystem} : VecRun cond s →
      Kalloc.Step N ⟨s.alloc, s.mem, s.others⟩ t →
      VecRun cond { s with alloc := t.alloc, mem := t.mem, others := t.live }

/-- The buddy order for a size. -/
def HeapGeometry.order (size : ℕ) : Option (Option ℕ) :=
  (BuddyAlloc.zero.initAlloc N g.ptr (2 ^ g.log)).allocationOrder size (alignment size)

/-- What was handed out for a size is found by another: a slot by its address, a block of the buddy
allocator by its order. -/
def HeapGeometry.SameClass (p size size' : ℕ) : Prop :=
  p % pagesize = 0 → g.order size' = g.order size

instance (p size size' : ℕ) : Decidable (g.SameClass p size size') :=
  inferInstanceAs (Decidable (_ → _))

/-- The buffers that are held after some calls, if everything given back was held, with a size of
its class. -/
inductive Held : List AllocCall → Multiset (ℕ × ℕ) → Prop
  | nil : Held [] 0
  | kalloc {p size : ℕ} {calls : List AllocCall} {held : Multiset (ℕ × ℕ)} : Held calls held →
      Held (.kalloc p size :: calls) ((p, size) ::ₘ held)
  | free {p size size' : ℕ} {calls : List AllocCall} {held : Multiset (ℕ × ℕ)} :
      Held calls ((p, size) ::ₘ held) → g.SameClass p size size' →
      Held (.free p size' :: calls) held
  | freeNull {size : ℕ} {calls : List AllocCall} {held : Multiset (ℕ × ℕ)} : Held calls held →
      Held (.free 0 size :: calls) held

def Vector.grants (v : Vector) (len : ℕ) : List Grant :=
  if v.ptr = 0 then [] else [⟨v.ptr, len, v.cap * T.sizeof⟩]

def Vector.buffer (v : Vector) : Multiset (ℕ × ℕ) :=
  if v.ptr = 0 then 0 else {(v.ptr, v.cap * T.sizeof)}

/-- Every buffer but the current one was given back, once and as what it was, so that nothing else
of the vector is in use, and the elements are those that were appended. -/
structure Releases (s : VecSystem) : Prop where
  held : Held g s.calls (s.vec.buffer T)
  available : ∃ len, BlockSystem.Inv g ⟨s.alloc, s.mem, s.vec.grants T len ++ s.others⟩
  elements : s.vec.elements T s.mem = s.contents

/-- The bytes that are handed out for a request. -/
def handedOut (size : ℕ) : Option ℕ := pow2ceil (if size < 8 then 8 else size)

/-- A buffer of `newlen` elements has a size and room for the old buffer. -/
def Holds (v : Vector) (newlen : ℕ) : Prop :=
  newlen * T.sizeof < 2 ^ 64 ∧ v.length ≤ newlen ∧
    ∀ n ∈ handedOut (newlen * T.sizeof), v.cap * T.sizeof ≤ n

/-- The buffer is found by the size of one element, and a destructor keeps to the buffer. -/
def Frees (v : Vector) : Prop :=
  (v.ptr ≠ 0 → g.SameClass v.ptr (v.cap * T.sizeof) T.sizeof) ∧
    ∀ f ∈ T.xdtor, ∀ a m, (f v.ptr (a, m)).1 = a ∧
      ∀ x, x < v.ptr ∨ v.ptr + v.cap * T.sizeof ≤ x → (f v.ptr (a, m)).2 x = m x

/-- There is memory for a new buffer, so that the old one is given back. -/
def Replaces (N : ℕ) (s : VecState) (newlen : ℕ) : Prop :=
  ∃ p r, kalloc N s.alloc s.mem (newlen * T.sizeof % 2 ^ 64) = some (some p, r)

/-- No buffer is given back that is not found, or replaced by one that does not hold it. -/
def Meets (s : VecState) : VecCall T → Prop
  | .append _ => s.vec.isFull → Replaces T N s s.vec.nextCap → Frees g T s.vec
  | .grow => Replaces T N s s.vec.nextCap → Frees g T s.vec
  | .growTo newlen => Replaces T N s newlen → Holds T s.vec newlen ∧ Frees g T s.vec
  | .clear => Frees g T s.vec

/-- The request is not one that `kalloc` never answers. -/
def VecCall.Bounded : VecCall T → Prop
  | .growTo newlen => newlen * T.sizeof % 2 ^ 64 ≤ 2 ^ 63
  | _ => True

/-- What holds between the calls: `len` bytes were handed out for the buffer. -/
structure Owns (s : VecState) (others : List Grant) (contents : List (List Byte)) (len : ℕ) :
    Prop where
  held : Held g s.calls (s.vec.buffer T)
  valid : s.alloc.Valid g s.mem (s.vec.grants T len ++ others : List Grant)
  elements : s.vec.elements T s.mem = contents
  room : s.vec.length ≤ s.vec.cap
  empty : s.vec.ptr = 0 → s.vec.cap = 0

end Runs

/-! ### The allocator's side -/

section Allocator

variable {N : ℕ} {g : HeapGeometry N} {b : BlockAlloc} {m m' : Mem} {live : Multiset Grant}

theorem BuddyInv.order_eq {a : BuddyAlloc} {free : ℕ → List ℕ} {blks : Multiset Blk}
    (h : BuddyInv g a m free blks) (size : ℕ) :
    a.allocationOrder size (alignment size) = g.order size := by
  have hi := BuddyInv.initAlloc g m
  unfold HeapGeometry.order BuddyAlloc.allocationOrder BuddyAlloc.allocationSize
  rw [h.heapLen, h.minBlockSize, h.minBlockSizeLog2, hi.heapLen, hi.minBlockSize,
    hi.minBlockSizeLog2]

/-- A size of the same class does as well. -/
theorem BlockAlloc.Valid.free_sameClass (h : b.Valid g m live) {p size size' : ℕ}
    (hs : g.SameClass p size size') : b.free N m p size' = b.free N m p size := by
  obtain ⟨free, pages, large, P, F, hinv, -⟩ := h
  have horder := hinv.memory.buddy.order_eq
  unfold BlockAlloc.free
  by_cases hp : p % pagesize = 0
  · have hfree : b.allocator.free N m p size' = b.allocator.free N m p size := by
      unfold BuddyAlloc.free BuddyAlloc.dealloc
      rw [horder, horder, hs hp]
    rw [hfree]
  · rw [if_neg hp, if_neg hp]

theorem handedOut_of_alloc {p len size : ℕ} {b' : BlockAlloc}
    (h : b.alloc N m size = some ((p, len), b', m')) (hp : p ≠ 0) : handedOut size = some len := by
  obtain ⟨n, hn, h⟩ := Option.bind_eq_some_iff.mp h
  have hlen : n = len := by
    by_cases hlarge : n ≥ blocksize
    · rw [if_pos hlarge] at h
      obtain ⟨r, -, h⟩ := Option.bind_eq_some_iff.mp h
      exact (Prod.mk.inj (Prod.mk.inj (Option.some.inj h)).1).2
    rw [if_neg hlarge] at h
    by_cases hblock : b.partialBlocks (log2ceil n) ≠ 0
    · rw [if_pos hblock] at h
      exact (Prod.mk.inj (Prod.mk.inj (Option.some.inj h)).1).2
    rw [if_neg hblock] at h
    obtain ⟨r, -, h⟩ := Option.bind_eq_some_iff.mp h
    by_cases hr : r.1 = 0
    · rw [if_pos hr] at h
      exact absurd (Prod.mk.inj (Prod.mk.inj (Option.some.inj h)).1).1.symm hp
    · rw [if_neg hr] at h
      exact (Prod.mk.inj (Prod.mk.inj (Option.some.inj h)).1).2
  rw [← hlen]
  exact hn

end Allocator

section Elements

variable {T : StructType} {v v' : Vector} {m m' : Mem}

theorem Vector.elements_congr (hl : v'.length = v.length)
    (h : ∀ i < v.length * T.sizeof, m' (v'.ptr + i) = m (v.ptr + i)) :
    v'.elements T m' = v.elements T m := by
  unfold elements
  rw [hl]
  refine List.map_congr_left fun i hi => Mem.slice_congr fun j hj => ?_
  have hle : (i + 1) * T.sizeof ≤ v.length * T.sizeof :=
    Nat.mul_le_mul_right _ (List.mem_range.mp hi)
  rw [Nat.add_assoc, Nat.add_assoc]
  exact h _ (by rw [Nat.succ_mul] at hle; omega)

/-- A value behind the last element. -/
theorem Vector.elements_push (value : T.Val) :
    Vector.elements T (m.copy (v.ptr + v.length * T.sizeof) (fun i => value.1.getD i 0) 0 T.sizeof)
      { v with length := v.length + 1 } = v.elements T m ++ [value.1] := by
  have hold : Vector.elements T (m.copy (v.ptr + v.length * T.sizeof)
      (fun i => value.1.getD i 0) 0 T.sizeof) v = v.elements T m :=
    elements_congr rfl fun i hi => Mem.copy_outside _ _ _ (Or.inl (by omega))
  have hnew : (m.copy (v.ptr + v.length * T.sizeof) (fun i => value.1.getD i 0) 0 T.sizeof).slice
      (v.ptr + v.length * T.sizeof) T.sizeof = value.1 := by
    have hval := Mem.slice_getD 0 value.1
    rw [value.2] at hval
    refine (Mem.slice_congr fun i hi => ?_).trans hval
    rw [Mem.copy_inside _ _ _ (by omega) (by omega)]
    congr 1
    omega
  rw [← hold, elements, List.range_succ, List.map_append, List.map_singleton, hnew]
  rfl

end Elements

section Calls

variable {N : ℕ} {g : HeapGeometry N} {T : StructType} {s : VecState} {v : Vector} {len : ℕ}
  {others : List Grant} {contents : List (List Byte)}

/-- Grants of one state are apart, and in the heap. -/
theorem BlockAlloc.Valid.apart {b : BlockAlloc} {m : Mem} {u : Grant} {l : List Grant}
    (h : b.Valid g m (u :: l : List Grant)) :
    u.size ≤ u.len ∧ u.len ≤ 2 ^ g.log ∧
      ∀ w ∈ l, BlockSystem.Apart u.ptr u.len w.ptr w.len := by
  have hinv : BlockSystem.Inv g ⟨b, m, u :: l⟩ := h
  obtain ⟨P, F, free, hsafe⟩ := hinv.safe
  obtain ⟨hsize, hstart, hend⟩ := hsafe.inside u List.mem_cons_self
  exact ⟨hsize, by omega, (List.pairwise_cons.mp hsafe.disjoint).1⟩

theorem Vector.grants_null (h : v.ptr = 0) : v.grants T len = [] := if_pos h

theorem Vector.grants_cons (h : v.ptr ≠ 0) (l : List Grant) :
    v.grants T len ++ l = ⟨v.ptr, len, v.cap * T.sizeof⟩ :: l := by
  rw [grants, if_neg h, List.singleton_append]

/-- A buffer is small. -/
theorem Vector.bytes_lt {b : BlockAlloc} {m : Mem} (h0 : v.ptr = 0 → v.cap = 0)
    (h : b.Valid g m (v.grants T len ++ others : List Grant)) : v.cap * T.sizeof < 2 ^ 31 := by
  by_cases hp : v.ptr = 0
  · rw [h0 hp]
    omega
  · rw [Vector.grants_cons hp] at h
    obtain ⟨hsize, hlen, -⟩ := h.apart
    have hlog : 2 ^ g.log < 2 ^ 31 := Nat.pow_lt_pow_right (by omega) g.small
    simp only at hsize hlen
    omega

/-- What is given back goes to the free memory, and nothing else changes. -/
theorem kfreeStruct_spec (hf : Frees g T v) (h0 : v.ptr = 0 → v.cap = 0)
    (h : s.alloc.Valid g s.mem (v.grants T len ++ others : List Grant)) :
    ∃ b' m', kfreeStruct N T v.ptr s = some { s with
        alloc := b', mem := m', calls := .free v.ptr T.sizeof :: s.calls } ∧
      b'.Valid g m' others ∧ ∀ w ∈ others, s.mem.SameOn m' w.ptr w.len := by
  obtain ⟨hclass, hdtor⟩ := hf
  -- the destructor
  obtain ⟨m₁, hout, hcall⟩ : ∃ m₁ : Mem,
      (∀ x, x < v.ptr ∨ v.ptr + v.cap * T.sizeof ≤ x → m₁ x = s.mem x) ∧
      kfreeStruct N T v.ptr s = (s.alloc.free N m₁ v.ptr T.sizeof).map fun r =>
        { s with alloc := r.1, mem := r.2, calls := .free v.ptr T.sizeof :: s.calls } := by
    unfold kfreeStruct
    cases hx : T.xdtor with
    | none => exact ⟨s.mem, fun _ _ => rfl, rfl⟩
    | some f =>
      obtain ⟨ha, hm⟩ := hdtor f hx s.alloc s.mem
      refine ⟨(f v.ptr (s.alloc, s.mem)).2, hm, ?_⟩
      simp only [ha]
  by_cases hp : v.ptr = 0
  · have hm₁ : m₁ = s.mem := funext fun x => hout x (by rw [h0 hp, hp]; omega)
    rw [Vector.grants_null hp, List.nil_append] at h
    refine ⟨s.alloc, s.mem, ?_, h, fun w _ => .refl _ _ _⟩
    rw [hcall, hm₁, BlockAlloc.free, if_pos hp]
    rfl
  · rw [Vector.grants_cons hp] at h
    obtain ⟨hsize, -, hapart⟩ := h.apart
    simp only at hsize hapart
    have h₁ : s.alloc.Valid g m₁ (⟨v.ptr, len, v.cap * T.sizeof⟩ :: others : List Grant) :=
      h.write (Multiset.mem_coe.mpr List.mem_cons_self) fun x hx => hout x (by
        simp only at hx
        omega)
    obtain ⟨b', m', hr, hv, hsame⟩ := h₁.free (Multiset.mem_coe.mpr List.mem_cons_self)
    rw [Multiset.coe_erase, List.erase_cons_head] at hv hsame
    rw [← h₁.free_sameClass (hclass hp)] at hr
    refine ⟨b', m', by rw [hcall, hr]; rfl, hv, fun w hw x hx hx' => ?_⟩
    have hw' := hapart w hw
    unfold BlockSystem.Apart at hw'
    rw [hsame w (Multiset.mem_coe.mpr hw) x hx hx']
    exact hout x (by omega)

theorem Held.freed {calls : List AllocCall} {held : Multiset (ℕ × ℕ)}
    (h : Held g calls (v.buffer T + held)) (hf : Frees g T v) :
    Held g (.free v.ptr T.sizeof :: calls) held := by
  unfold Vector.buffer at h
  by_cases hp : v.ptr = 0
  · rw [if_pos hp, zero_add] at h
    rw [hp]
    exact .freeNull h
  · rw [if_neg hp, Multiset.singleton_add] at h
    exact .free h (hf.1 hp)

/-- The elements are in the buffer. -/
theorem Owns.elements_kept (h : Owns g T s others contents len) {m' : Mem}
    (hsame : ∀ w ∈ s.vec.grants T len, s.mem.SameOn m' w.ptr w.len) :
    s.vec.elements T m' = contents := by
  rw [← h.elements]
  refine Vector.elements_congr rfl fun i hi => ?_
  have hle : s.vec.length * T.sizeof ≤ s.vec.cap * T.sizeof := Nat.mul_le_mul_right _ h.room
  have hp : s.vec.ptr ≠ 0 := fun hp => by
    rw [h.empty hp] at hle
    omega
  have hvalid := h.valid
  rw [Vector.grants_cons hp] at hvalid
  have hsize := hvalid.apart.1
  simp only at hsize
  have hmem : ⟨s.vec.ptr, len, s.vec.cap * T.sizeof⟩ ∈ s.vec.grants T len := by
    rw [Vector.grants, if_neg hp]
    exact List.mem_singleton_self _
  exact hsame _ hmem _ (Nat.le_add_right ..) (by simp only; omega)

/-- A request that `kalloc` answers with null, or with a grant apart from the buffer. -/
theorem Owns.kalloc (h : Owns g T s others contents len) {size : ℕ} (hs : size ≤ 2 ^ 63) :
    (∃ b' m', kalloc N s.alloc s.mem size = some (none, b', m') ∧
        Owns g T { s with alloc := b', mem := m' } others contents len) ∨
      ∃ p n b' m', kalloc N s.alloc s.mem size = some (some (p, size), b', m') ∧ p ≠ 0 ∧
        handedOut size = some n ∧
        b'.Valid g m' (⟨p, n, size⟩ :: (s.vec.grants T len ++ others) : List Grant) ∧
        s.vec.elements T m' = contents := by
  obtain ⟨p, n, b', m', hr, hv, hsame⟩ := h.valid.alloc hs
  have helems := h.elements_kept fun w hw =>
    hsame w (Multiset.mem_coe.mpr (List.mem_append_left _ hw))
  unfold Alloc.kalloc
  rw [hr]
  by_cases hp : p = 0
  · rw [if_pos hp] at hv
    refine Or.inl ⟨b', m', by rw [Option.map_some, if_pos hp], h.held, hv, helems, h.room, h.empty⟩
  · rw [if_neg hp] at hv
    refine Or.inr ⟨p, n, b', m', ?_, hp, handedOut_of_alloc hr hp, hv, helems⟩
    rw [Option.map_some, if_neg hp]

theorem growTo_spec (h : Owns g T s others contents len) {newlen : ℕ}
    (hs : newlen * T.sizeof % 2 ^ 64 ≤ 2 ^ 63)
    (hc : Replaces T N s newlen → Holds T s.vec newlen ∧ Frees g T s.vec) :
    ∃ ok t len', Vector.growTo N T newlen s = some (ok, t) ∧ Owns g T t others contents len' ∧
      t.vec.length = s.vec.length ∧ (ok = true → t.vec.cap = newlen) := by
  unfold Vector.growTo
  rcases h.kalloc hs with ⟨b', m', hr, hown⟩ | ⟨p, n, b', m', hr, hp, hn, hv, helems⟩
  · rw [hr]
    exact ⟨false, _, len, rfl, hown, rfl, by simp⟩
  · obtain ⟨⟨hlt, hlength, hholds⟩, hf⟩ := hc ⟨_, _, hr⟩
    rw [Nat.mod_eq_of_lt hlt] at hr hn hv ⊢
    have hroom := hholds n hn
    have hbytes := Vector.bytes_lt h.empty h.valid
    have hle : s.vec.length * T.sizeof ≤ s.vec.cap * T.sizeof := Nat.mul_le_mul_right _ h.room
    rw [hr, Nat.mod_eq_of_lt (a := s.vec.cap * T.sizeof) (by omega)]
    simp only
    set m₁ := m'.copy p m' s.vec.ptr (s.vec.cap * T.sizeof) with hm₁
    have h₁ : b'.Valid g m₁
        (⟨p, n, newlen * T.sizeof⟩ :: (s.vec.grants T len ++ others) : List Grant) :=
      hv.write (Multiset.mem_coe.mpr List.mem_cons_self) fun x hx => by
        simp only at hx
        exact Mem.copy_outside _ _ _ (by omega)
    have hperm : (⟨p, n, newlen * T.sizeof⟩ :: (s.vec.grants T len ++ others)).Perm
        (s.vec.grants T len ++ ⟨p, n, newlen * T.sizeof⟩ :: others) := List.perm_middle.symm
    rw [Multiset.coe_eq_coe.mpr hperm] at h₁
    obtain ⟨b₂, m₂, hcall, hv₂, hsame⟩ := kfreeStruct_spec
      (s := { s with alloc := b', mem := m₁, calls := .kalloc p (newlen * T.sizeof) :: s.calls })
      hf h.empty h₁
    have hcopied : ∀ i < s.vec.length * T.sizeof, m₂ (p + i) = m' (s.vec.ptr + i) := fun i hi => by
      have hsize := hv.apart.1
      simp only at hsize
      have hnew : m₂ (p + i) = m₁ (p + i) :=
        hsame _ List.mem_cons_self _ (Nat.le_add_right p i) (by simp only; omega)
      rw [hnew, hm₁, Mem.copy_inside _ _ _ (by omega) (by omega), Nat.add_sub_cancel_left]
    rw [hcall]
    refine ⟨true, _, n, rfl, ⟨?_, ?_, ?_, ?_, ?_⟩, rfl, fun _ => rfl⟩
    · refine Held.freed ?_ hf
      unfold Vector.buffer
      rw [if_neg hp, Multiset.add_comm, Multiset.singleton_add]
      exact .kalloc h.held
    · simp only
      rw [Vector.grants_cons hp]
      exact hv₂
    · rw [← helems]
      exact Vector.elements_congr rfl hcopied
    · exact hlength
    · exact fun h0 => absurd h0 hp

theorem Owns.nextCap (h : Owns g T s others contents len) :
    s.vec.nextCap * T.sizeof % 2 ^ 64 ≤ 2 ^ 63 ∧ Holds T s.vec s.vec.nextCap ∧
      s.vec.length < s.vec.nextCap := by
  have hbytes := Vector.bytes_lt h.empty h.valid
  have hroom := h.room
  have hlt := T.sizeof_lt
  unfold Vector.nextCap
  by_cases hcap : s.vec.cap = 0
  · rw [if_pos hcap]
    refine ⟨by omega, ⟨by omega, by omega, fun n _ => ?_⟩, by omega⟩
    rw [hcap, Nat.zero_mul]
    exact Nat.zero_le n
  · have hone : s.vec.cap ≤ s.vec.cap * T.sizeof := Nat.le_mul_of_pos_right _ T.sizeof_pos
    have htwo : s.vec.cap * 2 * T.sizeof = s.vec.cap * T.sizeof * 2 := Nat.mul_right_comm ..
    have hmod : s.vec.cap * 2 % 2 ^ 64 = s.vec.cap * 2 := Nat.mod_eq_of_lt (by omega)
    rw [if_neg hcap, hmod]
    refine ⟨by omega, ⟨by omega, by omega, fun n hn => ?_⟩, by omega⟩
    obtain ⟨-, -, -, hle⟩ := pow2ceil_spec hn
    split_ifs at hle <;> omega

theorem push_spec (h : Owns g T s others contents len) (value : T.Val)
    (hl : s.vec.length < s.vec.cap) : ∃ t, Vector.push T value s = some (true, t) ∧
      Owns g T t others (contents ++ [value.1]) len := by
  have hp : s.vec.ptr ≠ 0 := fun hp => by
    rw [h.empty hp] at hl
    omega
  have hvalid := h.valid
  rw [Vector.grants_cons hp] at hvalid
  have hsize := hvalid.apart.1
  have hle : (s.vec.length + 1) * T.sizeof ≤ s.vec.cap * T.sizeof := Nat.mul_le_mul_right _ hl
  rw [Nat.succ_mul] at hle
  simp only at hsize
  unfold Vector.push
  rw [if_pos hl]
  refine ⟨_, rfl, h.held, ?_, ?_, hl, h.empty⟩
  · have hv := hvalid.write (Multiset.mem_coe.mpr List.mem_cons_self) fun x hx =>
      Mem.copy_outside s.mem (fun i => value.1.getD i 0) 0
        (show x < s.vec.ptr + s.vec.length * T.sizeof ∨
          s.vec.ptr + s.vec.length * T.sizeof + T.sizeof ≤ x by
            simp only at hx
            omega)
    rw [← Vector.grants_cons hp] at hv
    exact hv
  · rw [← h.elements]
    exact Vector.elements_push value

theorem append_spec (h : Owns g T s others contents len) (value : T.Val)
    (hc : Meets g T s (.append value)) : ∃ ok t len', Vector.append N T value s = some (ok, t) ∧
      Owns g T t others (if ok then contents ++ [value.1] else contents) len' := by
  unfold Vector.append
  by_cases hfull : s.vec.isFull = true
  · obtain ⟨hs, hholds, hlt⟩ := h.nextCap
    obtain ⟨ok, t, len', hr, hown, hlen, hcap⟩ := growTo_spec h hs fun hrep =>
      ⟨hholds, hc hfull hrep⟩
    rw [if_pos hfull, Vector.grow, hr]
    cases ok with
    | false => exact ⟨false, t, len', rfl, hown⟩
    | true =>
      obtain ⟨t', hr', hown'⟩ := push_spec hown value (by rw [hlen, hcap rfl]; exact hlt)
      exact ⟨true, t', len', hr', hown'⟩
  · rw [if_neg hfull]
    have hroom : s.vec.length < s.vec.cap := by
      unfold Vector.isFull at hfull
      simp only [Bool.or_eq_true, decide_eq_true_eq, not_or] at hfull
      omega
    obtain ⟨t, hr, hown⟩ := push_spec h value hroom
    exact ⟨true, t, len, hr, hown⟩

theorem clear_spec (h : Owns g T s others contents len) (hf : Frees g T s.vec) :
    ∃ t, Vector.clear N T s = some t ∧ Owns g T t others [] 0 := by
  obtain ⟨b', m', hr, hv, -⟩ := kfreeStruct_spec hf h.empty h.valid
  unfold Vector.clear
  rw [hr]
  refine ⟨_, rfl, Held.freed ?_ hf, hv, rfl, le_refl _, fun _ => rfl⟩
  rw [show Vector.buffer T ⟨0, 0, 0⟩ = 0 from rfl, add_zero]
  exact h.held

end Calls

/-! ### Runs -/

section Runs

variable {N : ℕ} {g : HeapGeometry N} {T : StructType} {s s' : VecSystem} {c : VecCall T} {len : ℕ}

theorem exec_spec (h : Owns g T s.toVecState s.others s.contents len)
    (hc : Meets g T s.toVecState c) (hb : c.Bounded T) : ∃ s' len', s.exec T N c = some s' ∧
      Owns g T s'.toVecState s'.others s'.contents len' := by
  cases c with
  | append value =>
    obtain ⟨ok, t, len', hr, hown⟩ := append_spec h value hc
    exact ⟨_, len', by rw [VecSystem.exec, hr]; rfl, hown⟩
  | grow =>
    obtain ⟨hs, hholds, -⟩ := h.nextCap
    obtain ⟨ok, t, len', hr, hown, -⟩ := growTo_spec h hs fun hrep => ⟨hholds, hc hrep⟩
    exact ⟨_, len', by rw [VecSystem.exec, Vector.grow, hr]; rfl, hown⟩
  | growTo newlen =>
    obtain ⟨ok, t, len', hr, hown, -⟩ := growTo_spec h hb hc
    exact ⟨_, len', by rw [VecSystem.exec, hr]; rfl, hown⟩
  | clear =>
    obtain ⟨t, hr, hown⟩ := clear_spec h hc
    exact ⟨_, 0, by rw [VecSystem.exec, hr]; rfl, hown⟩

theorem bounded_of_exec (h : s.exec T N c = some s') : c.Bounded T := by
  cases c with
  | growTo newlen =>
    obtain ⟨r, hr, -⟩ := Option.map_eq_some_iff.mp h
    unfold Vector.growTo at hr
    cases hk : kalloc N s.alloc s.mem (newlen * T.sizeof % 2 ^ 64) with
    | none =>
      rw [hk] at hr
      cases hr
    | some k =>
      obtain ⟨a, ha, -⟩ := Option.map_eq_some_iff.mp hk
      exact BlockAlloc.le_of_alloc ha
  | append value => trivial
  | grow => trivial
  | clear => trivial

/-- The other clients leave the buffer and its elements alone. -/
theorem Owns.other (h : Owns g T s.toVecState s.others s.contents len) {t : BlockSystem}
    (hs : Kalloc.Step N ⟨s.alloc, s.mem, s.others⟩ t) :
    Owns g T { s.toVecState with alloc := t.alloc, mem := t.mem } t.live s.contents len := by
  cases hs with
  | @kalloc size p n b' m' hr =>
    obtain ⟨p', n', b'', m'', hr', hv, hsame⟩ := h.valid.alloc (BlockAlloc.le_of_alloc hr)
    cases hr.symm.trans hr'
    refine ⟨h.held, ?_, h.elements_kept fun w hw => ?_, h.room, h.empty⟩
    · by_cases hp : p = 0
      · rw [if_pos hp] at hv
        simp only [if_pos hp]
        exact hv
      · rw [if_neg hp, Multiset.cons_coe, ← Multiset.coe_eq_coe.mpr List.perm_middle] at hv
        simp only [if_neg hp]
        exact hv
    · exact hsame w (Multiset.mem_coe.mpr (List.mem_append_left _ hw))
  | @kfree u b' m' hu hr =>
    obtain ⟨b'', m'', hr', hv, hsame⟩ :=
      h.valid.free (Multiset.mem_coe.mpr (List.mem_append_right _ hu))
    cases hr.symm.trans hr'
    have herase : ((s.vec.grants T len ++ s.others : List Grant) : Multiset Grant).erase u =
        (s.vec.grants T len ++ s.others.erase u : List Grant) := by
      rw [← Multiset.coe_add, ← Multiset.coe_add, ← Multiset.coe_erase]
      exact Multiset.erase_add_right_pos _ (Multiset.mem_coe.mpr hu)
    rw [herase] at hv hsame
    exact ⟨h.held, hv, h.elements_kept fun w hw =>
      hsame w (Multiset.mem_coe.mpr (List.mem_append_left _ hw)), h.room, h.empty⟩
  | @write u x v hu hx hx' =>
    have hinv : BlockSystem.Inv g ⟨s.alloc, s.mem, s.vec.grants T len ++ s.others⟩ := h.valid
    have hsize := Kalloc.Inv.size_le hinv (List.mem_append_right _ hu)
    obtain ⟨P, F, free, hsafe⟩ := hinv.safe
    obtain ⟨-, -, hapart⟩ := List.pairwise_append.mp hsafe.disjoint
    refine ⟨h.held, h.valid.write (Multiset.mem_coe.mpr (List.mem_append_right _ hu)) fun y hy =>
      Function.update_of_ne (by omega) _ _, h.elements_kept fun w hw y hy hy' => ?_, h.room,
      h.empty⟩
    have hd := hapart w hw u hu
    unfold BlockSystem.Apart at hd
    exact Function.update_of_ne (by omega) _ _

theorem VecRun.owns (hr : VecRun g T (Meets g T) s) :
    ∃ len, Owns g T s.toVecState s.others s.contents len := by
  induction hr with
  | init m => exact ⟨0, .nil, BlockSystem.Inv.init g m, rfl, le_refl _, fun _ => rfl⟩
  | call _ hx hc ih =>
    obtain ⟨len, hown⟩ := ih
    obtain ⟨s', len', hx', hown'⟩ := exec_spec hown hc (bounded_of_exec hx)
    cases hx.symm.trans hx'
    exact ⟨len', hown'⟩
  | other _ hs ih =>
    obtain ⟨len, hown⟩ := ih
    exact ⟨len, hown.other hs⟩

/-- In every run that gives back only buffers that are found, and replaces them by ones that hold
them, nothing is lost; and the next such call returns. -/
theorem releases_of_meets (hr : VecRun g T (Meets g T) s) : Releases g T s ∧
    ∀ c, Meets g T s.toVecState c → c.Bounded T → (s.exec T N c).isSome := by
  obtain ⟨len, hown⟩ := hr.owns
  constructor
  · exact ⟨hown.held, ⟨len, hown.valid⟩, hown.elements⟩
  · intro c hc hb
    obtain ⟨s', len', hx, -⟩ := exec_spec hown hc hb
    rw [hx]
    rfl

/-- The heap of the kernel where memory is 512 megabytes. -/
def kernelHeap : HeapGeometry 17 :=
  ⟨0xffffffc084000000, 29, by decide, by decide, by decide, by decide, by decide, by decide⟩

def wordPair : StructType := ⟨16, by decide, by decide, none⟩

/-- One value, in a slot that is given back. -/
theorem releases_of_meets_one : ∃ s, VecRun kernelHeap wordPair (Meets kernelHeap wordPair) s ∧
    s.calls.length = 3 ∧ Releases kernelHeap wordPair s ∧
    ∀ c, Meets kernelHeap wordPair s.toVecState c → c.Bounded wordPair →
      (s.exec wordPair 17 c).isSome := by
  have h0 : VecRun kernelHeap wordPair (Meets kernelHeap wordPair) _ := .init fun _ => 0
  have h1 := h0.call (c := .append ⟨List.replicate 16 1, rfl⟩) rfl fun _ _ =>
    ⟨fun h => absurd rfl h, by simp [wordPair]⟩
  have h2 := h1.call (c := .clear) rfl ⟨fun _ => by decide, by simp [wordPair]⟩
  exact ⟨_, h2, rfl, releases_of_meets h2⟩

theorem Held.kalloc_mem {calls : List AllocCall} {held : Multiset (ℕ × ℕ)}
    (h : Held g calls held) : ∀ x ∈ held, AllocCall.kalloc x.1 x.2 ∈ calls := by
  induction h with
  | nil => simp
  | kalloc _ ih =>
    intro x hx
    rcases Multiset.mem_cons.mp hx with rfl | hx
    · exact List.mem_cons_self
    · exact List.mem_cons_of_mem _ (ih x hx)
  | free _ _ ih => exact fun x hx => List.mem_cons_of_mem _ (ih x (Multiset.mem_cons_of_mem hx))
  | freeNull _ ih => exact fun x hx => List.mem_cons_of_mem _ (ih x hx)

/-- Four pages are given back as what a single element would be. -/
theorem not_releases_pages : ∃ s, VecRun kernelHeap wordPair (fun _ _ => True) s ∧
    ¬ Releases kernelHeap wordPair s := by
  have h0 : VecRun kernelHeap wordPair (fun _ _ => True) _ := .init fun _ => 0
  have h1 := h0.call (c := .growTo 1024) rfl trivial
  have h2 := h1.call (c := .clear) rfl trivial
  refine ⟨_, h2, fun h => ?_⟩
  have hheld : Held kernelHeap [.free 0xffffffc084000000 16, .free 0 16,
      .kalloc 0xffffffc084000000 16384] _ := h.held
  cases hheld with
  | @free _ size _ _ _ hheld hclass =>
    have hsize := hheld.kalloc_mem _ (Multiset.mem_cons_self ..)
    obtain rfl : size = 16384 := by simpa using hsize
    exact absurd hclass (by decide)

end Runs

end Multiplix.Alloc
