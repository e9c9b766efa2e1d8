import Mathlib.Logic.Function.Basic
import Multiplix.Lib.Prog

/-! Programs that take spinlocks. One that finds a lock taken does not go on. -/
namespace Lib.Spinlock

variable {κ ω σ α β : Type}

inductive Op (κ σ : Type)
  | lock (k : κ)
  | unlock (k : κ)
  | get
  | set (s : σ)

def Op.Answer : Op κ σ → Type
  | .get => σ
  | .lock _ | .unlock _ | .set _ => Unit

/-- A program on a state of type `σ`, with locks that have names of type `κ`. It fails where it
spins. -/
abbrev LockM (κ σ α : Type) := Prog (@Op.Answer κ σ) κ α

def lock (k : κ) : LockM κ σ Unit := Prog.perform (Op.lock k)

def unlock (k : κ) : LockM κ σ Unit := Prog.perform (Op.unlock k)

def get : LockM κ σ σ := Prog.perform Op.get

/-- The state changes, and no lock is looked at. -/
def step (f : σ → α × σ) : LockM κ σ α := do
  let s ← get
  Prog.perform (Op.set (f s).2)
  pure (f s).1

def modify (f : σ → σ) : LockM κ σ Unit := step fun s => ((), f s)

/-- Who holds each lock. -/
abbrev Holders (κ ω : Type) := κ → Option ω

def free : Holders κ ω := fun _ => none

variable [DecidableEq κ]

/-- The locks, as `w` takes them. -/
def impl (w : ω) : Prog.Impl (@Op.Answer κ σ) κ (σ × Holders κ ω)
  | .lock k, s => if s.2 k = none then .ok ((s.1, Function.update s.2 k (some w)), ()) else .error k
  | .unlock k, s => .ok ((s.1, Function.update s.2 k none), ())
  | .get, s => .ok (s, s.1)
  | .set t, s => .ok ((t, s.2), ())

section Exec

variable {w : ω} {s : σ} {L : Holders κ ω} {k : κ}

theorem exec_get_bind (f : σ → LockM κ σ α) :
    (get >>= f).exec (impl w) (s, L) = (f s).exec (impl w) (s, L) := rfl

theorem exec_step_bind (g : σ → α × σ) (f : α → LockM κ σ β) :
    (step g >>= f).exec (impl w) (s, L) = (f (g s).1).exec (impl w) ((g s).2, L) := rfl

theorem exec_modify_bind (g : σ → σ) (f : Unit → LockM κ σ β) :
    (modify g >>= f).exec (impl w) (s, L) = (f ()).exec (impl w) (g s, L) := rfl

theorem exec_unlock_bind (f : Unit → LockM κ σ β) : (unlock k >>= f).exec (impl w) (s, L) =
    (f ()).exec (impl w) (s, Function.update L k none) := rfl

theorem exec_lock_bind (h : L k = none) (f : Unit → LockM κ σ β) :
    (lock k >>= f).exec (impl w) (s, L) =
      (f ()).exec (impl w) (s, Function.update L k (some w)) := by
  have himpl : impl w (Op.lock k) (s, L) = .ok ((s, Function.update L k (some w)), ()) := if_pos h
  exact Prog.exec_bind_of_ok (Prog.exec_perform.trans himpl)

/-- A lock that is taken lets nobody through. -/
theorem exec_lock_taken (h : L k ≠ none) (f : Unit → LockM κ σ β) :
    (lock k >>= f).exec (impl w) (s, L) = .error k := by
  have himpl : impl w (Op.lock k) (s, L) = .error k := if_neg h
  exact Prog.exec_bind_of_error (Prog.exec_perform.trans himpl)

/-- A lock is taken and released again. -/
theorem update_release (h : L k = none) :
    Function.update (Function.update L k (some w)) k none = L := by
  rw [Function.update_idem, ← h, Function.update_eq_self]

/-- The state is changed while a lock is held. -/
theorem exec_critical_bind (h : L k = none) (g : σ → σ) (f : Unit → LockM κ σ β) :
    (lock k >>= fun _ => modify g >>= fun _ => unlock k >>= f).exec (impl w) (s, L) =
      (f ()).exec (impl w) (g s, L) := by
  rw [exec_lock_bind h, exec_modify_bind, exec_unlock_bind, update_release h]

end Exec

/-- Where no lock is held, the program does as `f` says, and keeps none. -/
def Brief (ω : Type) (p : LockM κ σ α) (f : σ → α × σ) : Prop :=
  ∀ (w : ω) s, p.exec (impl w) (s, free) = .ok (((f s).2, free), (f s).1)

theorem Brief.step (f : σ → α × σ) : Brief ω (step f : LockM κ σ α) f := fun _ _ => rfl

theorem Brief.bind {p : LockM κ σ α} {f : σ → α × σ} {q : α → LockM κ σ β} {g : α → σ → β × σ}
    (hp : Brief ω p f) (hq : ∀ a, Brief ω (q a) (g a)) :
    Brief ω (p >>= q) fun s => g (f s).1 (f s).2 := by
  intro w s
  rw [Prog.exec_bind_of_ok (hp w s)]
  exact hq _ w _

end Lib.Spinlock
