import Mathlib.Data.List.Induction
import Mathlib.Data.List.Nodup
import Mathlib.Data.List.Pairwise
import Multiplix.Lib.ByteMem

/-! Straight-line code that saves registers in memory and restores them. -/
namespace Lib

abbrev Word := BitVec 64

/-- The registers and the memory of a machine. -/
structure Machine (R : Type) where
  regs : R → Word
  mem : Mem

/-- An instruction on registers, and on the doubleword at an offset from a register. -/
inductive Insn (R : Type)
  | store (r : R) (o : ℕ) (b : R)
  | load (r : R) (o : ℕ) (b : R)
  | move (d r : R)
  | swap (d r : R)
  | add (d r : R) (v : Word)

/-- Registers, and the places that they are saved at. -/
abbrev Slots (R : Type) := List (R × ℕ)

namespace Slots

variable {R : Type} (l : Slots R)

def regs : List R := l.map Prod.fst

/-- No two doublewords overlap. -/
def Apart : Prop := l.Pairwise fun p q => p.2 + 8 ≤ q.2 ∨ q.2 + 8 ≤ p.2

/-- All doublewords lie in an area of this size. -/
def Within (n : ℕ) : Prop := ∀ p ∈ l, p.2 + 8 ≤ n

instance : Decidable l.Apart := inferInstanceAs (Decidable (List.Pairwise _ _))

instance (n : ℕ) : Decidable (l.Within n) := inferInstanceAs (Decidable (∀ p ∈ l, _))

variable {l} {p q : R × ℕ}

theorem Apart.of_ne (h : l.Apart) (hp : p ∈ l) (hq : q ∈ l) (hne : p ≠ q) :
    p.2 + 8 ≤ q.2 ∨ q.2 + 8 ≤ p.2 := by
  have hsymm : Std.Symm fun p q : R × ℕ => p.2 + 8 ≤ q.2 ∨ q.2 + 8 ≤ p.2 :=
    ⟨fun _ _ => Or.symm⟩
  exact List.Pairwise.forall h hp hq hne

theorem eq_of_reg (h : l.regs.Nodup) (hp : p ∈ l) (hq : q ∈ l) (he : p.1 = q.1) : p = q :=
  List.inj_on_of_nodup_map h hp hq he

/-- Outside the area there is none of them. -/
theorem Within.beside {a n x : ℕ} (hw : l.Within n) (hx : x < a ∨ a + n ≤ x) :
    ∀ p ∈ l, x < a + p.2 ∨ a + p.2 + 8 ≤ x := by
  intro p hp
  have hin := hw p hp
  omega

variable (l)

/-- The code that saves them, in an area that a register refers to. -/
def saves (b : R) : List (Insn R) := l.map fun p => .store p.1 p.2 b

def restores (b : R) : List (Insn R) := l.map fun p => .load p.1 p.2 b

end Slots

namespace Machine

section

variable {R : Type} (s : Machine R)

/-- The doubleword at an address. -/
def word (a : ℕ) : Word := BitVec.ofNat 64 (s.mem.load 8 a)

def put (a : ℕ) (v : Word) : Machine R := { s with mem := s.mem.store 8 a v.toNat }

/-- Memory of this size is copied from `b` to `a`. -/
def copy (a b n : ℕ) : Machine R := { s with mem := s.mem.copy a s.mem b n }

theorem word_copy {a b o n : ℕ} (h : o + 8 ≤ n) :
    (s.copy a b n).word (a + o) = s.word (b + o) := by
  refine congrArg (BitVec.ofNat 64) ?_
  rw [Mem.load_slice, Mem.load_slice]
  refine congrArg leVal (Mem.slice_congr fun i hi => ?_)
  unfold copy
  dsimp only
  rw [Mem.copy_inside _ _ _ (by omega) (by omega)]
  congr 1
  omega

@[simp] theorem put_regs (a : ℕ) (v : Word) : (s.put a v).regs = s.regs := rfl

theorem put_outside {a x : ℕ} (v : Word) (h : x < a ∨ a + 8 ≤ x) :
    (s.put a v).mem x = s.mem x := Mem.store_outside _ _ h

@[simp] theorem word_put_self (a : ℕ) (v : Word) : (s.put a v).word a = v := by
  unfold word put
  have hlt : v.toNat < 256 ^ 8 := v.isLt
  rw [Mem.load_store_word _ _ hlt, BitVec.ofNat_toNat, BitVec.setWidth_eq]

theorem word_congr {s' : Machine R} {a : ℕ} (h : s.mem.SameOn s'.mem a 8) : s'.word a = s.word a :=
  congrArg (BitVec.ofNat 64) (Mem.load_congr h)

theorem word_of_mem {s' : Machine R} (h : s'.mem = s.mem) (a : ℕ) : s'.word a = s.word a := by
  unfold word
  rw [h]

theorem word_put {a b : ℕ} (v : Word) (h : a + 8 ≤ b ∨ b + 8 ≤ a) :
    (s.put b v).word a = s.word a :=
  s.word_congr fun _ _ _ => s.put_outside v (by omega)

variable {s}

theorem addr_eq {b : R} {a o n : ℕ} (hb : (s.regs b).toNat = a) (h : a + n ≤ 2 ^ 64)
    (ho : o + 8 ≤ n) : (s.regs b + BitVec.ofNat 64 o).toNat = a + o := by
  rw [BitVec.toNat_add, BitVec.toNat_ofNat, hb, Nat.add_mod_mod, Nat.mod_eq_of_lt (by omega)]

/-- The area at `a` holds these values. -/
def Holds (s : Machine R) (a : ℕ) (l : Slots R) (f : R → Word) : Prop :=
  ∀ p ∈ l, s.word (a + p.2) = f p.1

theorem Holds.append {a : ℕ} {l l' : Slots R} {f : R → Word} (h : s.Holds a l f)
    (h' : s.Holds a l' f) : s.Holds a (l ++ l') f := fun p hp =>
  (List.mem_append.mp hp).elim (h p) (h' p)

theorem Holds.congr {a : ℕ} {l : Slots R} {f g : R → Word} (h : s.Holds a l f)
    (hf : ∀ p ∈ l, f p.1 = g p.1) : s.Holds a l g := fun p hp => (h p hp).trans (hf p hp)

theorem Holds.of_mem {s' : Machine R} {a : ℕ} {l : Slots R} {f : R → Word} (h : s.Holds a l f)
    (hmem : s'.mem = s.mem) : s'.Holds a l f := fun p hp => (word_of_mem s hmem _).trans (h p hp)

/-- What is written elsewhere does not matter. -/
theorem Holds.put {a o : ℕ} {l : Slots R} {f : R → Word} (h : s.Holds a l f) (v : Word)
    (ho : ∀ p ∈ l, p.2 + 8 ≤ o ∨ o + 8 ≤ p.2) : (s.put (a + o) v).Holds a l f := fun p hp => by
  have hapart := ho p hp
  rw [s.word_put v (by omega)]
  exact h p hp

end

variable {R : Type} [DecidableEq R] (s : Machine R)

def set (r : R) (v : Word) : Machine R := { s with regs := Function.update s.regs r v }

def step : Insn R → Machine R
  | .store r o b => s.put (s.regs b + BitVec.ofNat 64 o).toNat (s.regs r)
  | .load r o b => s.set r (s.word (s.regs b + BitVec.ofNat 64 o).toNat)
  | .move d r => s.set d (s.regs r)
  | .swap d r => (s.set d (s.regs r)).set r (s.regs d)
  | .add d r v => s.set d (s.regs r + v)

def exec (code : List (Insn R)) : Machine R := code.foldl step s

@[simp] theorem set_mem (r : R) (v : Word) : (s.set r v).mem = s.mem := rfl

@[simp] theorem set_self (r : R) (v : Word) : (s.set r v).regs r = v := Function.update_self _ _ _

theorem set_ne {r r' : R} (h : r' ≠ r) (v : Word) : (s.set r v).regs r' = s.regs r' :=
  Function.update_of_ne h _ _

@[simp] theorem word_set (r : R) (v : Word) (a : ℕ) : (s.set r v).word a = s.word a := rfl

@[simp] theorem exec_nil : s.exec [] = s := rfl

@[simp] theorem exec_cons (i : Insn R) (code : List (Insn R)) :
    s.exec (i :: code) = (s.step i).exec code := rfl

theorem exec_append (c c' : List (Insn R)) : s.exec (c ++ c') = (s.exec c).exec c' :=
  List.foldl_append

variable {s}

theorem step_store {b : R} {a o n : ℕ} (r : R) (hb : (s.regs b).toNat = a) (h : a + n ≤ 2 ^ 64)
    (ho : o + 8 ≤ n) : s.step (.store r o b) = s.put (a + o) (s.regs r) :=
  congrArg (fun x => s.put x (s.regs r)) (addr_eq hb h ho)

theorem step_load {b : R} {a o n : ℕ} (r : R) (hb : (s.regs b).toNat = a) (h : a + n ≤ 2 ^ 64)
    (ho : o + 8 ≤ n) : s.step (.load r o b) = s.set r (s.word (a + o)) :=
  congrArg (fun x => s.set r (s.word x)) (addr_eq hb h ho)

theorem saves_does {l : Slots R} {b : R} {a n : ℕ} (hb : (s.regs b).toNat = a)
    (hn : a + n ≤ 2 ^ 64) (hw : l.Within n) (hl : l.Apart) :
    (s.exec (l.saves b)).regs = s.regs ∧ (s.exec (l.saves b)).Holds a l s.regs ∧
      ∀ x, (∀ p ∈ l, x < a + p.2 ∨ a + p.2 + 8 ≤ x) → (s.exec (l.saves b)).mem x = s.mem x := by
  induction l using List.reverseRecOn with
  | nil => exact ⟨rfl, fun p hp => absurd hp List.not_mem_nil, fun _ _ => rfl⟩
  | append_singleton l p ih =>
    have hwp := hw p (List.mem_append_right l List.mem_cons_self)
    obtain ⟨hl, -, happ⟩ := List.pairwise_append.mp hl
    obtain ⟨hregs, hholds, hmem⟩ := ih (fun q hq => hw q (List.mem_append_left _ hq)) hl
    have hcode : Slots.saves (l ++ [p]) b = Slots.saves l b ++ [.store p.1 p.2 b] := List.map_append
    have hexec : s.exec (Slots.saves (l ++ [p]) b) =
        (s.exec (Slots.saves l b)).put (a + p.2) (s.regs p.1) := by
      rw [hcode, exec_append, exec_cons, exec_nil, step_store p.1 (by rw [hregs, hb]) hn hwp, hregs]
    rw [hexec]
    refine ⟨hregs, ?_, fun x hx => ?_⟩
    · apply Holds.append
      · exact hholds.put _ fun q hq => happ q hq p List.mem_cons_self
      · intro q hq
        rw [List.mem_singleton.mp hq, word_put_self]
    · rw [put_outside _ _ (hx p (List.mem_append_right l List.mem_cons_self))]
      exact hmem x fun q hq => hx q (List.mem_append_left _ hq)

theorem restores_does {l : Slots R} {b : R} {a n : ℕ} (hb : (s.regs b).toNat = a)
    (hn : a + n ≤ 2 ^ 64) (hw : l.Within n) (hl : l.regs.Nodup) (hbl : b ∉ l.regs) :
    (s.exec (l.restores b)).mem = s.mem ∧
      (∀ p ∈ l, (s.exec (l.restores b)).regs p.1 = s.word (a + p.2)) ∧
      ∀ r ∉ l.regs, (s.exec (l.restores b)).regs r = s.regs r := by
  induction l generalizing s with
  | nil => exact ⟨rfl, fun p hp => absurd hp List.not_mem_nil, fun _ _ => rfl⟩
  | cons p l ih =>
    obtain ⟨hp, hl⟩ := List.nodup_cons.mp hl
    have hne : b ≠ p.1 := fun he => hbl (he ▸ List.mem_cons_self)
    have hb' : ((s.set p.1 (s.word (a + p.2))).regs b).toNat = a := by rw [set_ne _ hne, hb]
    obtain ⟨hmem, hregs, hother⟩ := ih hb' (fun q hq => hw q (List.mem_cons_of_mem p hq)) hl
      fun h => hbl (List.mem_cons_of_mem _ h)
    have hexec : s.exec (Slots.restores (p :: l) b) =
        (s.set p.1 (s.word (a + p.2))).exec (Slots.restores l b) := by
      rw [← step_load p.1 hb hn (hw p List.mem_cons_self)]
      rfl
    rw [hexec]
    refine ⟨hmem, fun q hq => ?_, fun r hr => ?_⟩
    · rcases List.mem_cons.mp hq with rfl | hq
      · rw [hother _ hp, set_self]
      · exact hregs q hq
    · rw [hother r fun h => hr (List.mem_cons_of_mem _ h)]
      refine set_ne _ (fun he => hr ?_) _
      rw [he]
      exact List.mem_cons_self

end Machine

end Lib
