import Mathlib.Data.List.Basic
import Mathlib.Tactic.Basic

/-! Two programs that send each other messages over two lossless queues, and the scripts that
their exchanges follow. -/
namespace Lib

/-- A program with a queue to read from and a queue to write to. -/
inductive Comm (M E A : Type)
  | ret (a : A)
  | fail (e : E)
  /-- go back to where the program starts -/
  | again
  | send (m : M) (k : Comm M E A)
  | recv (k : M → Comm M E A)
  /-- test whether there is nothing to read -/
  | empty (k : Bool → Comm M E A)

/-- What a program does to its queues. -/
inductive Act (M : Type)
  | send (m : M)
  | recv (m : M)
  | empty

namespace Act

variable {M : Type}

def sent : List (Act M) → List M
  | [] => []
  | .send m :: σ => m :: sent σ
  | _ :: σ => sent σ

def received : List (Act M) → List M
  | [] => []
  | .recv m :: σ => m :: received σ
  | _ :: σ => received σ

@[simp] theorem sent_append (σ τ : List (Act M)) : sent (σ ++ τ) = sent σ ++ sent τ := by
  induction σ with
  | nil => rfl
  | cons x σ ih => cases x <;> simp [sent, ih]

@[simp] theorem received_append (σ τ : List (Act M)) :
    received (σ ++ τ) = received σ ++ received τ := by
  induction σ with
  | nil => rfl
  | cons x σ ih => cases x <;> simp [received, ih]

@[simp] theorem sent_map_send (ms : List M) : sent (ms.map .send) = ms := by
  induction ms with
  | nil => rfl
  | cons m ms ih => simp [sent, ih]

@[simp] theorem sent_map_recv (ms : List M) : sent (ms.map .recv) = [] := by
  induction ms with
  | nil => rfl
  | cons m ms ih => simp [sent, ih]

@[simp] theorem received_map_send (ms : List M) : received (ms.map .send) = [] := by
  induction ms with
  | nil => rfl
  | cons m ms ih => simp [received, ih]

@[simp] theorem received_map_recv (ms : List M) : received (ms.map .recv) = ms := by
  induction ms with
  | nil => rfl
  | cons m ms ih => simp [received, ih]

/-- A script that ends with a message sent is done when all messages are sent. -/
theorem eq_nil_of_suffix {σ τ : List (Act M)} {m : M} (h : σ <:+ τ ++ [.send m])
    (hs : sent σ = []) : σ = [] := by
  rcases List.suffix_concat_iff.mp h with rfl | ⟨ρ, rfl, -⟩
  · rfl
  · rw [sent_append] at hs
    cases (List.append_eq_nil_iff.mp hs).2

end Act

namespace Comm

variable {M E A B : Type}

def bind : Comm M E A → (A → Comm M E B) → Comm M E B
  | .ret a, f => f a
  | .fail e, _ => .fail e
  | .again, _ => .again
  | .send m k, f => .send m (k.bind f)
  | .recv k, f => .recv fun m => (k m).bind f
  | .empty k, f => .empty fun b => (k b).bind f

instance : Monad (Comm M E) where
  pure := .ret
  bind := bind

def sendAll : List M → Comm M E Unit
  | [] => .ret ()
  | m :: ms => .send m (sendAll ms)

def recvAll : ℕ → Comm M E (List M)
  | 0 => .ret []
  | n + 1 => .recv fun m => (recvAll n).bind fun ms => .ret (m :: ms)

/-- The program takes these actions, where its tests find messages, and returns `a`. -/
inductive Follows : Comm M E A → List (Act M) → A → Prop
  | ret (a : A) : Follows (.ret a) [] a
  | send {m : M} {k : Comm M E A} {σ : List (Act M)} {a : A} :
      Follows k σ a → Follows (.send m k) (.send m :: σ) a
  | recv {m : M} {k : M → Comm M E A} {σ : List (Act M)} {a : A} :
      Follows (k m) σ a → Follows (.recv k) (.recv m :: σ) a
  | empty {k : Bool → Comm M E A} {σ : List (Act M)} {a : A} :
      Follows (k false) σ a → Follows (.empty k) (.empty :: σ) a

theorem Follows.bind {p : Comm M E A} {f : A → Comm M E B} {σ τ : List (Act M)} {a : A} {b : B}
    (hp : Follows p σ a) (hf : Follows (f a) τ b) : Follows (p >>= f) (σ ++ τ) b := by
  induction hp with
  | ret a => exact hf
  | send _ ih => exact .send (ih hf)
  | recv _ ih => exact .recv (ih hf)
  | empty _ ih => exact .empty (ih hf)

theorem Follows.eq_ret {p : Comm M E A} {a : A} (h : Follows p [] a) : p = .ret a := by
  cases h
  rfl

theorem follows_sendAll (ms : List M) :
    Follows (sendAll ms : Comm M E Unit) (ms.map .send) () := by
  induction ms with
  | nil => exact .ret ()
  | cons m ms ih => exact .send ih

theorem follows_recvAll (ms : List M) :
    Follows (recvAll ms.length : Comm M E (List M)) (ms.map .recv) ms := by
  induction ms with
  | nil => exact .ret []
  | cons m ms ih =>
    have h := ih.bind (f := fun ms => .ret (m :: ms)) (.ret (m :: ms))
    rw [List.append_nil] at h
    exact .recv h

/-- The next program, what is left to read, and what is sent. -/
def step (p start : Comm M E A) (inp : List M) : Option (Comm M E A × List M × List M) :=
  match p with
  | .ret _ | .fail _ => none
  | .again => some (start, inp, [])
  | .send m k => some (k, inp, [m])
  | .recv k =>
    match inp with
    | [] => none
    | m :: inp => some (k m, inp, [])
  | .empty k => some (k inp.isEmpty, inp, [])

/-- The program does not find the queue empty when it tests it. -/
def Finds (inp : List M) : Comm M E A → Prop
  | .empty _ => inp ≠ []
  | _ => True

/-- One step along the script. -/
theorem Follows.step {start p p' : Comm M E A} {inp inp' out rest : List M} {σ : List (Act M)}
    {a : A} (h : Follows p σ a) (hq : inp ++ rest = Act.received σ) (hf : Finds inp p)
    (hs : p.step start inp = some (p', inp', out)) :
    ∃ σ', Follows p' σ' a ∧ σ' <:+ σ ∧ inp' ++ rest = Act.received σ' ∧
      out ++ Act.sent σ' = Act.sent σ := by
  cases h with
  | ret a => cases hs
  | @send m k σ a h =>
    cases hs
    exact ⟨σ, h, List.suffix_cons .., hq, rfl⟩
  | @recv m k σ a h =>
    cases inp with
    | nil => cases hs
    | cons m' inp =>
      cases hs
      obtain ⟨hm, hrest⟩ := List.cons.inj hq
      subst hm
      exact ⟨σ, h, List.suffix_cons .., hrest, rfl⟩
  | @empty k σ a h =>
    have he : inp.isEmpty = false := by
      cases inp with
      | nil => exact absurd rfl hf
      | cons m inp => rfl
    cases hs
    rw [he]
    exact ⟨σ, h, List.suffix_cons .., hq, rfl⟩

end Comm

/-- Two programs with the queues between them. -/
structure Duplex (M E A B : Type) where
  left : Comm M E A
  right : Comm M E B
  toLeft : List M
  toRight : List M

inductive Side
  | left
  | right
  deriving DecidableEq

namespace Duplex

variable {M E A B : Type}

def step (startLeft : Comm M E A) (startRight : Comm M E B) (s : Duplex M E A B) :
    Side → Option (Duplex M E A B)
  | .left => (s.left.step startLeft s.toLeft).map fun r =>
      ⟨r.1, s.right, r.2.1, s.toRight ++ r.2.2⟩
  | .right => (s.right.step startRight s.toRight).map fun r =>
      ⟨s.left, r.1, s.toLeft ++ r.2.2, r.2.1⟩

/-- The program that is to move does not find its queue empty when it tests it. -/
def Finds (s : Duplex M E A B) : Side → Prop
  | .left => s.left.Finds s.toLeft
  | .right => s.right.Finds s.toRight

/-- The states of the runs all of whose steps meet a condition, in any interleaving. -/
inductive Traced (startLeft : Comm M E A) (startRight : Comm M E B)
    (cond : Duplex M E A B → Side → Prop) : Duplex M E A B → Prop
  | start : Traced startLeft startRight cond ⟨startLeft, startRight, [], []⟩
  | step {s s' : Duplex M E A B} {i : Side} : Traced startLeft startRight cond s → cond s i →
      s.step startLeft startRight i = some s' → Traced startLeft startRight cond s'

/-- The steps of a schedule, each of which meets a condition. -/
def run (startLeft : Comm M E A) (startRight : Comm M E B) (cond : Duplex M E A B → Side → Bool) :
    List Side → Duplex M E A B → Option (Duplex M E A B)
  | [], s => some s
  | i :: is, s =>
    if cond s i then (s.step startLeft startRight i).bind (run startLeft startRight cond is)
    else none

theorem Traced.run {startLeft : Comm M E A} {startRight : Comm M E B}
    {cond : Duplex M E A B → Side → Prop} {check : Duplex M E A B → Side → Bool}
    (hc : ∀ s i, check s i → cond s i) (is : List Side) {s s' : Duplex M E A B}
    (h : Traced startLeft startRight cond s)
    (hr : Duplex.run startLeft startRight check is s = some s') :
    Traced startLeft startRight cond s' := by
  induction is generalizing s with
  | nil =>
    cases hr
    exact h
  | cons i is ih =>
    rw [Duplex.run] at hr
    split_ifs at hr with hi
    obtain ⟨t, ht, hr⟩ := Option.bind_eq_some_iff.mp hr
    exact ih (h.step (hc s i hi) ht) hr

/-- Each program is on its script, and what one is still to send is what the other is still to
receive, less what is in the queue. -/
structure Dual (s : Duplex M E A B) (σ τ : List (Act M)) (a : A) (b : B) : Prop where
  left : s.left.Follows σ a
  right : s.right.Follows τ b
  toLeft : s.toLeft ++ Act.sent τ = Act.received σ
  toRight : s.toRight ++ Act.sent σ = Act.received τ

variable {startLeft : Comm M E A} {startRight : Comm M E B} {s s' : Duplex M E A B}
  {σ τ : List (Act M)} {a : A} {b : B}

theorem Dual.step (h : s.Dual σ τ a b) {i : Side} (hf : s.Finds i)
    (hs : s.step startLeft startRight i = some s') :
    ∃ σ' τ', s'.Dual σ' τ' a b ∧ σ' <:+ σ ∧ τ' <:+ τ := by
  cases i with
  | left =>
    obtain ⟨⟨p, inp, out⟩, hr, rfl⟩ := Option.map_eq_some_iff.mp hs
    obtain ⟨σ', hl, hsuf, hq, hout⟩ := h.left.step h.toLeft hf hr
    refine ⟨σ', τ, ⟨hl, h.right, hq, ?_⟩, hsuf, List.suffix_refl _⟩
    rw [List.append_assoc, hout, h.toRight]
  | right =>
    obtain ⟨⟨p, inp, out⟩, hr, rfl⟩ := Option.map_eq_some_iff.mp hs
    obtain ⟨τ', hl, hsuf, hq, hout⟩ := h.right.step h.toRight hf hr
    refine ⟨σ, τ', ⟨h.left, hl, ?_, hq⟩, List.suffix_refl _, hsuf⟩
    rw [List.append_assoc, hout, h.toLeft]

/-- Programs with dual scripts stay on them in every interleaving. -/
theorem Traced.dual (hl : startLeft.Follows σ a) (hr : startRight.Follows τ b)
    (hlr : Act.sent τ = Act.received σ) (hrl : Act.sent σ = Act.received τ)
    (h : Traced startLeft startRight Finds s) :
    ∃ σ' τ', s.Dual σ' τ' a b ∧ σ' <:+ σ ∧ τ' <:+ τ := by
  induction h with
  | start => exact ⟨σ, τ, ⟨hl, hr, hlr, hrl⟩, List.suffix_refl _, List.suffix_refl _⟩
  | step _ hf hs ih =>
    obtain ⟨σ₁, τ₁, hd, hσ, hτ⟩ := ih
    obtain ⟨σ₂, τ₂, hd', hσ', hτ'⟩ := hd.step hf hs
    exact ⟨σ₂, τ₂, hd', hσ'.trans hσ, hτ'.trans hτ⟩

theorem Dual.not_fail (h : s.Dual σ τ a b) :
    (∀ e, s.left ≠ .fail e) ∧ ∀ e, s.right ≠ .fail e := by
  constructor
  · intro e he
    have hl := h.left
    rw [he] at hl
    cases hl
  · intro e he
    have hr := h.right
    rw [he] at hr
    cases hr

/-- When the right program has returned, the left one has sent everything. -/
theorem Dual.of_right_ret (h : s.Dual σ τ a b) {b' : B} (he : s.right = .ret b') :
    Act.sent σ = [] ∧ b' = b := by
  have hr := h.right
  rw [he] at hr
  cases hr
  exact ⟨(List.append_eq_nil_iff.mp h.toRight).2, rfl⟩

end Duplex
end Lib
