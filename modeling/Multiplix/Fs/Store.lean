import Mathlib.Data.Int.ModEq
import Multiplix.Fs.System

/-! A disk whose buffer cache is coherent: a block that is read holds what was last released. -/
namespace Multiplix.Fs
open Lib

/-- The blocks of the devices, and the memory of the calling process. -/
structure Store where
  disk : Key → Mem
  user : Mem

/-- A write of `n` bytes to the memory of the process, whose addresses wrap. -/
def Store.write (t : Store) (a n : ℕ) (src : Mem) : Store :=
  { t with user := fun y =>
      if (y + addrSpace - a) % addrSpace < n then src ((y + addrSpace - a) % addrSpace)
      else t.user y }

@[simp] theorem Store.write_disk (t : Store) (a n : ℕ) (src : Mem) :
    (t.write a n src).disk = t.disk := by
  unfold Store.write
  rfl

def coherent : Outside Store
  | .data b, t => .ok (t, t.disk b)
  | .setData b d, t => .ok ({ t with disk := Function.update t.disk b d }, ())
  | .uload a _, t => .ok (t, fun x => t.user ((a + x) % addrSpace))
  | .ustore a n src, t => .ok (t.write a n src, ())
  | .rx, t => .ok (t, 0)
  | .bread _, t | .brelease _, t | .tx _ _, t => .ok (t, ())
  | _, _ => .error .fault

namespace State

variable (s : State Store)

def withInode (ip : Slot) (i : Inode) : State Store :=
  ({ s.1 with inodes := Function.update s.1.inodes ip i }, s.2)

def withBlock (b : Key) (d : Mem) : State Store :=
  (s.1, { s.2 with disk := Function.update s.2.disk b d })

variable (ip : Slot) (i : Inode) (b : Key) (d : Mem)

@[simp] theorem withInode_inodes :
    (withInode s ip i).1.inodes = Function.update s.1.inodes ip i := rfl

@[simp] theorem withInode_store : (withInode s ip i).2 = s.2 := rfl

@[simp] theorem withBlock_core : (withBlock s b d).1 = s.1 := rfl

@[simp] theorem withBlock_disk :
    (withBlock s b d).2.disk = Function.update s.2.disk b d := rfl

@[simp] theorem withBlock_user : (withBlock s b d).2.user = s.2.user := rfl

end State

/-- On a coherent disk, the program ends as `Q` says or stops as `E` lets it. -/
abbrev Does {α : Type} (E : Panic → Prop) (p : FsM α) (s : State Store)
    (Q : α → State Store → Prop) : Prop :=
  Prog.Wp (known.extend coherent) E p s Q

section Does

variable {α β : Type} {E : Panic → Prop} {s : State Store}

theorem does_bind {p : FsM α} {f : α → FsM β} {Q : β → State Store → Prop} :
    Does E (p >>= f) s Q ↔ Does E p s fun a s => Does E (f a) s Q := Prog.wp_bind

/-- A program that never stops early ends, and as it should. -/
theorem Does.ends {p : FsM α} {Q : α → State Store → Prop} (h : Does (fun _ => False) p s Q) :
    ∃ s' a, exec coherent p s = .ok (s', a) ∧ Q a s' := by
  unfold exec
  cases he : p.exec (known.extend coherent) s with
  | error x => exact absurd (h.of_error he) not_false
  | ok y => exact ⟨y.1, y.2, rfl, h.of_exec he⟩

theorem does_of_exec {p : FsM α} {a : α} {s' : State Store} (h : exec coherent p s = .ok (s', a))
    {Q : α → State Store → Prop} : Does E p s Q ↔ Q a s' := by
  unfold exec at h
  unfold Does Prog.Wp
  rw [h]

theorem does_inode {ip : Slot} {Q : Inode → State Store → Prop} :
    Does E (inode ip) s Q ↔ Q (s.1.inodes ip) s := Iff.rfl

theorem does_setInode {ip : Slot} {i : Inode} {Q : Unit → State Store → Prop} :
    Does E (setInode ip i) s Q ↔ Q () (State.withInode s ip i) := Iff.rfl

theorem does_modifyInode {ip : Slot} {f : Inode → Inode} {Q : Unit → State Store → Prop} :
    Does E (modifyInode ip f) s Q ↔ Q () (State.withInode s ip (f (s.1.inodes ip))) := Iff.rfl

theorem does_bread {dev b : ℕ} {Q : Key → State Store → Prop} :
    Does E (bread dev b) s Q ↔ Q (dev, b) s := Iff.rfl

theorem does_brelease {b : Key} {Q : Unit → State Store → Prop} :
    Does E (brelease b) s Q ↔ Q () s := Iff.rfl

theorem does_data {b : Key} {Q : Mem → State Store → Prop} :
    Does E (data b) s Q ↔ Q (s.2.disk b) s := Iff.rfl

theorem does_modify {b : Key} {f : Mem → Mem} {Q : Unit → State Store → Prop} :
    Does E (modify b f) s Q ↔ Q () (State.withBlock s b (f (s.2.disk b))) := Iff.rfl

theorem does_uload {a n : ℕ} {Q : Mem → State Store → Prop} :
    Does E (uload a n) s Q ↔ Q (fun x => s.2.user ((a + x) % addrSpace)) s := Iff.rfl

theorem does_ustore {a n : ℕ} {src : Mem} {Q : Unit → State Store → Prop} :
    Does E (Prog.perform (Op.ustore a n src)) s Q ↔ Q () (s.1, s.2.write a n src) := Iff.rfl

theorem does_pure {a : α} {Q : α → State Store → Prop} : Does E (pure a) s Q ↔ Q a s := Iff.rfl

theorem does_fail {x : Panic} {Q : α → State Store → Prop} :
    Does E (Prog.fail x) s Q ↔ E x := Iff.rfl

end Does

/-- How far `x` lies after `o`, on addresses that wrap. -/
theorem wrap_sub {A a x o : ℕ} (hx : x < A) (ho : o ≤ A) :
    ((a + x) % A + A - (a + o) % A) % A = if o ≤ x then x - o else x + A - o := by
  have hpos : 0 < A := by omega
  have ha := Nat.mod_lt (a + o) hpos
  have hmod : ((a + x) % A + A - (a + o) % A) ≡ (if o ≤ x then x - o else x + A - o) [MOD A] := by
    rw [← Int.natCast_modEq_iff]
    have hx' : (((a + x) % A : ℕ) : ℤ) ≡ a + x [ZMOD A] := by
      exact_mod_cast Int.mod_modEq (a + x) A
    have ho' : (((a + o) % A : ℕ) : ℤ) ≡ a + o [ZMOD A] := by
      exact_mod_cast Int.mod_modEq (a + o) A
    have hA : (A : ℤ) ≡ 0 [ZMOD A] := Int.modEq_zero_iff_dvd.mpr (dvd_refl _)
    have hsub : (((a + x) % A + A - (a + o) % A : ℕ) : ℤ) ≡ x - o [ZMOD A] := by
      have hall := (hx'.add hA).sub ho'
      have he : (a + x + 0 - (a + o) : ℤ) = x - o := by ring
      rw [he] at hall
      rwa [Nat.cast_sub (by omega), Nat.cast_add]
    refine hsub.trans ?_
    split_ifs with hle
    · rw [Nat.cast_sub hle]
    · have hback := (Int.ModEq.refl (n := (A : ℤ)) ((x : ℤ) - o)).add hA.symm
      have he : (x + A - o : ℤ) = x - o + A := by ring
      rwa [Nat.cast_sub (by omega), Nat.cast_add, he, ← add_zero ((x : ℤ) - o), add_assoc, zero_add]
  have hlt : (if o ≤ x then x - o else x + A - o) < A := by
    split_ifs
    · omega
    · omega
  rw [hmod, Nat.mod_eq_of_lt hlt]

namespace Buffer

/-- The bytes of the buffer. -/
def view (t : Store) : Buffer → Mem
  | user addr => fun x => t.user ((addr + x) % addrSpace)
  | kernel m => m

theorem view_congr {t t' : Store} (b : Buffer) (h : t'.user = t.user) : b.view t' = b.view t := by
  cases b with
  | user addr =>
    unfold view
    rw [h]
  | kernel m => rfl

/-- A buffer within a buffer. -/
theorem view_add (t : Store) (addr i : ℕ) :
    (user ((addr + i) % addrSpace)).view t = fun x => (user addr).view t (i + x) := by
  funext x
  unfold view
  dsimp only
  rw [Nat.mod_add_mod, Nat.add_assoc]

/-- A write reaches the bytes it is meant for. -/
theorem view_write (t : Store) (addr : ℕ) {o n x : ℕ} (src : Mem) (ho : o + n ≤ addrSpace)
    (hx : x < addrSpace) : (user addr).view (t.write ((addr + o) % addrSpace) n src) x =
      ((user addr).view t).copy o src 0 n x := by
  unfold view Store.write
  dsimp only
  generalize addrSpace = A at ho hx ⊢
  rw [wrap_sub hx (by omega)]
  by_cases hin : o ≤ x ∧ x < o + n
  · rw [Mem.copy_inside _ _ _ hin.1 hin.2, if_pos hin.1, if_pos (by omega), Nat.zero_add]
  · rw [Mem.copy_outside _ _ _ (by omega), if_neg]
    split_ifs with hle
    · omega
    · omega

variable {E : Panic → Prop} {s : State Store}

theorem get_does (src : Buffer) (o n : ℕ) {Q : Mem → State Store → Prop}
    (h : Q (fun x => src.view s.2 (o + x)) s) : Does E (src.get o n) s Q := by
  cases src with
  | user addr =>
    rw [← view_add] at h
    exact does_uload.mpr h
  | kernel m => exact h

/-- The write reaches the bytes it is meant for, and nothing but the memory of the process. -/
theorem put_does (dst : Buffer) (o : ℕ) (src : Mem) (b n : ℕ) (ho : o + n ≤ addrSpace)
    {Q : Buffer → State Store → Prop}
    (h : ∀ dst' t, t.disk = s.2.disk → (∀ x < addrSpace,
      dst'.view t x = (dst.view s.2).copy o src b n x) → Q dst' (s.1, t)) :
    Does E (dst.put o src b n) s Q := by
  cases dst with
  | user addr =>
    unfold put
    rw [does_bind, does_ustore, does_pure]
    apply h _ _ (Store.write_disk _ _ _ _)
    intro x hx
    rw [view_write _ _ _ ho hx, Mem.copy_shift]
  | kernel m => exact h (kernel (m.copy o src b n)) s.2 rfl fun x _ => rfl

theorem put_kernel {m : Mem} {o b n : ℕ} {src : Mem} {Q : Buffer → State Store → Prop} :
    Does E ((kernel m).put o src b n) s Q ↔ Q (kernel (m.copy o src b n)) s := Iff.rfl

end Buffer
end Multiplix.Fs
