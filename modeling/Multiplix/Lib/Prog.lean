import Multiplix.Lib.Run

/-! Programs over a set of operations. A program can be run on an implementation of its
operations, and it can be judged without one, for every answer the operations may give. -/
namespace Lib

inductive Prog {O : Type} (A : O → Type) (X α : Type) : Type where
  | ret (a : α)
  | fail (x : X)
  | op (o : O) (k : A o → Prog A X α)

namespace Prog

variable {O : Type} {A : O → Type} {X α β σ τ γ : Type}

def bind : Prog A X α → (α → Prog A X β) → Prog A X β
  | ret a, f => f a
  | fail x, _ => fail x
  | op o k, f => op o fun r => (k r).bind f

instance : Monad (Prog A X) where
  pure := ret
  bind := Prog.bind

/-- The program that performs one operation and returns its answer. -/
def perform (o : O) : Prog A X (A o) := op o ret

abbrev Impl (A : O → Type) (X σ : Type) := (o : O) → σ → Except X (σ × A o)

def exec (I : Impl A X σ) : Prog A X α → σ → Except X (σ × α)
  | ret a, s => .ok (s, a)
  | fail x, _ => .error x
  | op o k, s =>
    match I o s with
    | .error x => .error x
    | .ok (s, r) => (k r).exec I s

/-- The operations the program performs, up to its end or its failure. -/
def trace (I : Impl A X σ) : Prog A X α → σ → List O
  | ret _, _ => []
  | fail _, _ => []
  | op o k, s =>
    o :: match I o s with
      | .error _ => []
      | .ok (s, r) => (k r).trace I s

/-- All states that the program passes through are as `P` says. -/
def Always (I : Impl A X σ) (P : σ → Prop) : Prog A X α → σ → Prop
  | ret _, s => P s
  | fail _, s => P s
  | op o k, s => P s ∧
    match I o s with
    | .error _ => True
    | .ok (s, r) => (k r).Always I P s

@[simp] theorem pure_eq (a : α) : (pure a : Prog A X α) = ret a := rfl

@[simp] theorem ret_bind (a : α) (f : α → Prog A X β) : ret a >>= f = f a := rfl

@[simp] theorem fail_bind (x : X) (f : α → Prog A X β) : fail x >>= f = fail x := rfl

@[simp] theorem op_bind (o : O) (k : A o → Prog A X α) (f : α → Prog A X β) :
    op o k >>= f = op o fun r => k r >>= f := rfl

theorem bind_assoc {δ : Type} (p : Prog A X α) (f : α → Prog A X β) (g : β → Prog A X δ) :
    p >>= f >>= g = p >>= fun a => f a >>= g := by
  induction p with
  | ret a => rfl
  | fail x => rfl
  | op o k ih =>
    simp only [op_bind, op.injEq, heq_eq_eq, true_and]
    funext r
    exact ih r

/-! ### Runs on an implementation -/

section Exec

variable {I : Impl A X σ} {p : Prog A X α} {f : α → Prog A X β} {s s' : σ}

theorem exec_bind : (p >>= f).exec I s =
    match p.exec I s with
    | .error x => .error x
    | .ok (s, a) => (f a).exec I s := by
  induction p generalizing s with
  | ret a => rfl
  | fail x => rfl
  | op o k ih =>
    rw [op_bind, exec, exec]
    cases I o s with
    | error x => rfl
    | ok y => exact ih y.2

theorem exec_perform {o : O} : (perform o : Prog A X (A o)).exec I s = I o s := by
  unfold perform
  rw [exec]
  cases I o s with
  | error x => rfl
  | ok y => rfl

theorem exec_bind_of_ok {a : α} (h : p.exec I s = .ok (s', a)) :
    (p >>= f).exec I s = (f a).exec I s' := by
  rw [exec_bind, h]

theorem exec_bind_of_error {x : X} (h : p.exec I s = .error x) :
    (p >>= f).exec I s = .error x := by
  rw [exec_bind, h]

end Exec

section Wp

variable {I : Impl A X σ} {E : X → Prop} {s : σ}

/-- Run from `s`, the program ends as `Q` says or fails with an error that `E` lets pass. -/
def Wp (I : Impl A X σ) (E : X → Prop) (p : Prog A X α) (s : σ) (Q : α → σ → Prop) : Prop :=
  match p.exec I s with
  | .error x => E x
  | .ok (s, a) => Q a s

@[simp] theorem wp_ret {a : α} {Q : α → σ → Prop} : Wp I E (ret a) s Q ↔ Q a s := Iff.rfl

@[simp] theorem wp_pure {a : α} {Q : α → σ → Prop} : Wp I E (pure a) s Q ↔ Q a s := Iff.rfl

@[simp] theorem wp_fail {x : X} {Q : α → σ → Prop} : Wp I E (fail x) s Q ↔ E x := Iff.rfl

theorem wp_op {o : O} {k : A o → Prog A X α} {Q : α → σ → Prop} :
    Wp I E (op o k) s Q ↔ Wp I E (perform o) s fun r s => Wp I E (k r) s Q := by
  unfold Wp perform
  rw [exec, exec]
  cases I o s with
  | error x => exact Iff.rfl
  | ok y => exact Iff.rfl

theorem wp_bind {p : Prog A X α} {f : α → Prog A X β} {Q : β → σ → Prop} :
    Wp I E (p >>= f) s Q ↔ Wp I E p s fun a s => Wp I E (f a) s Q := by
  unfold Wp
  rw [exec_bind]
  cases p.exec I s with
  | error x => exact Iff.rfl
  | ok y => exact Iff.rfl

theorem wp_congr {p q : Prog A X α} {Q : α → σ → Prop} (h : p.exec I s = q.exec I s) :
    Wp I E p s Q ↔ Wp I E q s Q := by
  unfold Wp
  rw [h]

theorem Wp.mono {p : Prog A X α} {Q Q' : α → σ → Prop} (h : Wp I E p s Q)
    (hQ : ∀ a s, Q a s → Q' a s) : Wp I E p s Q' := by
  unfold Wp at h ⊢
  cases hp : p.exec I s with
  | error x => rwa [hp] at h
  | ok y =>
    rw [hp] at h
    exact hQ _ _ h

theorem Wp.bind {p : Prog A X α} {f : α → Prog A X β} {Q : α → σ → Prop} {Q' : β → σ → Prop}
    (h : Wp I E p s Q) (hf : ∀ a s, Q a s → Wp I E (f a) s Q') : Wp I E (p >>= f) s Q' :=
  wp_bind.mpr (h.mono hf)

theorem Wp.and {p : Prog A X α} {Q Q' : α → σ → Prop} (h : Wp I E p s Q) (h' : Wp I E p s Q') :
    Wp I E p s fun a s => Q a s ∧ Q' a s := by
  unfold Wp at h h' ⊢
  cases hp : p.exec I s with
  | error x => rwa [hp] at h
  | ok y =>
    rw [hp] at h h'
    exact ⟨h, h'⟩

theorem Wp.of_exec {p : Prog A X α} {Q : α → σ → Prop} (h : Wp I E p s Q) {a : α} {s' : σ}
    (he : p.exec I s = .ok (s', a)) : Q a s' := by
  rwa [Wp, he] at h

theorem Wp.intro {p : Prog A X α} {Q : α → σ → Prop} (hE : ∀ x, E x)
    (h : ∀ s' a, p.exec I s = .ok (s', a) → Q a s') : Wp I E p s Q := by
  unfold Wp
  cases hp : p.exec I s with
  | error x => exact hE x
  | ok y => exact h _ _ hp

theorem Wp.of_error {p : Prog A X α} {Q : α → σ → Prop} (h : Wp I E p s Q) {x : X}
    (he : p.exec I s = .error x) : E x := by
  rwa [Wp, he] at h

end Wp

/-! ### Whatever the operations answer -/

section Obeys

/-- Every operation is one that `next` lets happen, and every end is as `Q` says, as long as
the answers are as `ans` says. -/
def Obeys (next : γ → O → Option γ) (ans : (o : O) → A o → Prop) :
    Prog A X α → γ → (α → γ → Prop) → Prop
  | ret a, g, Q => Q a g
  | fail _, _, _ => True
  | op o k, g, Q => ∃ g', next g o = some g' ∧ ∀ r, ans o r → (k r).Obeys next ans g' Q

variable {next : γ → O → Option γ} {ans : (o : O) → A o → Prop} {g : γ}

@[simp] theorem obeys_ret {a : α} {Q : α → γ → Prop} :
    Obeys next ans (ret a : Prog A X α) g Q ↔ Q a g := Iff.rfl

@[simp] theorem obeys_pure {a : α} {Q : α → γ → Prop} :
    Obeys next ans (pure a : Prog A X α) g Q ↔ Q a g := Iff.rfl

@[simp] theorem obeys_fail {x : X} {Q : α → γ → Prop} :
    Obeys next ans (fail x : Prog A X α) g Q ↔ True := Iff.rfl

@[simp] theorem obeys_perform {o : O} {Q : A o → γ → Prop} :
    Obeys next ans (perform o : Prog A X (A o)) g Q ↔
      ∃ g', next g o = some g' ∧ ∀ r, ans o r → Q r g' := Iff.rfl

@[simp] theorem obeys_bind {p : Prog A X α} {f : α → Prog A X β} {Q : β → γ → Prop} :
    Obeys next ans (p >>= f) g Q ↔ Obeys next ans p g fun a g => Obeys next ans (f a) g Q := by
  induction p generalizing g with
  | ret a => exact Iff.rfl
  | fail x => exact Iff.rfl
  | op o k ih =>
    rw [op_bind, Obeys, Obeys]
    refine exists_congr fun g' => and_congr_right fun _ => ?_
    exact forall_congr' fun r => imp_congr_right fun _ => ih r

theorem Obeys.mono {p : Prog A X α} {Q Q' : α → γ → Prop} (h : Obeys next ans p g Q)
    (hQ : ∀ a g, Q a g → Q' a g) : Obeys next ans p g Q' := by
  induction p generalizing g with
  | ret a => exact hQ a g h
  | fail x => exact h
  | op o k ih =>
    obtain ⟨g', hg, hk⟩ := h
    exact ⟨g', hg, fun r hr => ih r (hk r hr)⟩

/-- On an implementation whose answers are as expected, the program ends as it should. -/
theorem Obeys.wp {I : Impl A X σ} {E : X → Prop} {R : γ → σ → Prop}
    (hop : ∀ o g g' s, R g s → next g o = some g' →
      Wp I E (perform o) s fun r s => ans o r ∧ R g' s)
    (hE : ∀ x, E x) {p : Prog A X α} {Q : α → γ → Prop} {s : σ} (h : Obeys next ans p g Q)
    (hs : R g s) : Wp I E p s fun a s => ∃ g, R g s ∧ Q a g := by
  induction p generalizing g s with
  | ret a => exact ⟨g, hs, h⟩
  | fail x => exact hE x
  | op o k ih =>
    obtain ⟨g', hg, hk⟩ := h
    exact wp_op.mpr ((hop o g g' s hs hg).mono fun r s hr => ih r (hk r hr.1) hr.2)

/-- All states that it passes through are as expected. -/
theorem Obeys.always {I : Impl A X σ} {R : γ → σ → Prop} {P : σ → Prop}
    (hop : ∀ o g g' s, R g s → next g o = some g' →
      Wp I (fun _ => True) (perform o) s fun r s => ans o r ∧ R g' s)
    (hP : ∀ g s, R g s → P s) {p : Prog A X α} {Q : α → γ → Prop} {s : σ}
    (h : Obeys next ans p g Q) (hs : R g s) : p.Always I P s := by
  induction p generalizing g s with
  | ret a => exact hP g s hs
  | fail x => exact hP g s hs
  | op o k ih =>
    obtain ⟨g', hg, hk⟩ := h
    have ho := hop o g g' s hs hg
    rw [Wp, perform, exec] at ho
    rw [Always]
    rcases hI : I o s with x | ⟨s₁, r⟩ <;> rw [hI] at ho
    · exact ⟨hP g s hs, trivial⟩
    · exact ⟨hP g s hs, ih r (hk r ho.1) ho.2⟩

/-- A simulation of the operations that are let happen is one of the program. -/
theorem Obeys.follows {I : Impl A X σ} {J : Impl A X τ} {R : σ → τ → Prop} {pass : X → Prop}
    (hop : ∀ o g s t, (next g o).isSome → R s t → Follows R pass (I o s) (J o t))
    (hans : ∀ o r, ans o r) {p : Prog A X α} {Q : α → γ → Prop} {s : σ} {t : τ}
    (h : Obeys next ans p g Q) (hs : R s t) : Follows R pass (p.exec I s) (p.exec J t) := by
  induction p generalizing g s t with
  | ret a => exact ⟨t, rfl, hs⟩
  | fail x => exact Or.inr rfl
  | op o k ih =>
    obtain ⟨g', hg, hk⟩ := h
    have ho := hop o g s t (by rw [hg]; rfl) hs
    rw [exec, exec]
    rcases hI : I o s with x | ⟨s₁, r⟩ <;> rw [hI] at ho
    · rcases ho with hx | hx
      · exact Or.inl hx
      · exact Or.inr (by rw [hx])
    · obtain ⟨t₁, ht, h₁⟩ := ho
      rw [ht]
      exact ih r (hk r (hans o r)) h₁

/-- It performs only operations that are let happen. -/
theorem Obeys.trace {I : Impl A X σ} {E : X → Prop} {R : γ → σ → Prop}
    (hop : ∀ o g g' s, R g s → next g o = some g' →
      Wp I E (perform o) s fun r s => ans o r ∧ R g' s)
    {p : Prog A X α} {Q : α → γ → Prop} {s : σ} (h : Obeys next ans p g Q)
    (hs : R g s) : ∀ o ∈ p.trace I s, ∃ g, (next g o).isSome := by
  induction p generalizing g s with
  | ret a => simp [Prog.trace]
  | fail x => simp [Prog.trace]
  | op o k ih =>
    obtain ⟨g', hg, hk⟩ := h
    have ho := hop o g g' s hs hg
    intro o' ho'
    rw [Prog.trace, List.mem_cons] at ho'
    rcases ho' with rfl | ho'
    · exact ⟨g, by rw [hg]; rfl⟩
    · rw [Wp, perform, exec] at ho
      rcases hI : I o s with x | ⟨s₁, r⟩ <;> rw [hI] at ho ho'
      · simp at ho'
      · exact ih r (hk r ho.1) ho.2 o' ho'

end Obeys

/-! ### Some operations known, and whatever the others answer -/

section Surely

/-- An implementation of some of the operations. -/
abbrev Part (A : O → Type) (X γ : Type) := (o : O) → γ → Option (Except X (γ × A o))

/-- The other operations have an implementation of their own. -/
def Part.extend (I : Part A X γ) (J : Impl A X τ) : Impl A X (γ × τ) := fun o s =>
  match I o s.1 with
  | some (.ok (g, r)) => .ok ((g, s.2), r)
  | some (.error x) => .error x
  | none =>
    match J o s.2 with
    | .ok (t, r) => .ok ((s.1, t), r)
    | .error x => .error x

/-- An operation is known, or it is one of the other implementation. -/
theorem Part.of_extend {I : Part A X γ} {J : Impl A X τ} {o : O} {s s' : γ × τ} {r : A o}
    (h : I.extend J o s = .ok (s', r)) : I o s.1 = some (.ok (s'.1, r)) ∧ s'.2 = s.2 ∨
      I o s.1 = none ∧ J o s.2 = .ok (s'.2, r) ∧ s'.1 = s.1 := by
  unfold Part.extend at h
  rcases hI : I o s.1 with _ | _ | ⟨g, r'⟩ <;> rw [hI] at h
  · rcases hJ : J o s.2 with x | ⟨t, r'⟩ <;> rw [hJ] at h
    · cases h
    · cases h
      exact Or.inr ⟨rfl, rfl, rfl⟩
  · cases h
  · cases h
    exact Or.inl ⟨rfl, rfl⟩

/-- Every end is as `Q` says, whatever the operations answer that are not known. -/
def Surely (I : Part A X γ) : Prog A X α → γ → (α → γ → Prop) → Prop
  | ret a, g, Q => Q a g
  | fail _, _, _ => True
  | op o k, g, Q =>
    match I o g with
    | some (.ok (g, r)) => (k r).Surely I g Q
    | some (.error _) => True
    | none => ∀ r, (k r).Surely I g Q

variable {I : Part A X γ} {J : Impl A X τ} {g : γ} {t : τ}

@[simp] theorem surely_ret {a : α} {Q : α → γ → Prop} :
    Surely I (ret a : Prog A X α) g Q ↔ Q a g := Iff.rfl

@[simp] theorem surely_pure {a : α} {Q : α → γ → Prop} :
    Surely I (pure a : Prog A X α) g Q ↔ Q a g := Iff.rfl

@[simp] theorem surely_fail {x : X} {Q : α → γ → Prop} :
    Surely I (fail x : Prog A X α) g Q ↔ True := Iff.rfl

theorem surely_bind {p : Prog A X α} {f : α → Prog A X β} {Q : β → γ → Prop} :
    Surely I (p >>= f) g Q ↔ Surely I p g fun a g => Surely I (f a) g Q := by
  induction p generalizing g with
  | ret a => exact Iff.rfl
  | fail x => exact Iff.rfl
  | op o k ih =>
    rw [op_bind, Surely, Surely]
    rcases I o g with _ | _ | ⟨g', r⟩
    · exact forall_congr' fun r => ih r
    · exact Iff.rfl
    · exact ih r

theorem Surely.mono {p : Prog A X α} {Q Q' : α → γ → Prop} (h : Surely I p g Q)
    (hQ : ∀ a g, Q a g → Q' a g) : Surely I p g Q' := by
  induction p generalizing g with
  | ret a => exact hQ a g h
  | fail x => trivial
  | op o k ih =>
    unfold Surely at h ⊢
    rcases hI : I o g with _ | _ | ⟨g', r⟩ <;> rw [hI] at h
    · exact fun r => ih r (h r)
    · trivial
    · exact ih r h

theorem Surely.bind {p : Prog A X α} {f : α → Prog A X β} {Q : α → γ → Prop} {Q' : β → γ → Prop}
    (h : Surely I p g Q) (hf : ∀ a g, Q a g → Surely I (f a) g Q') : Surely I (p >>= f) g Q' :=
  surely_bind.mpr (h.mono hf)

/-- On an implementation that agrees with what is known. -/
theorem Surely.wp {p : Prog A X α} {Q : α → γ → Prop} (h : Surely I p g Q) :
    Wp (I.extend J) (fun _ => True) p (g, t) fun a s => Q a s.1 := by
  induction p generalizing g t with
  | ret a => exact h
  | fail x => trivial
  | op o k ih =>
    unfold Surely at h
    unfold Wp exec Part.extend
    dsimp only
    rcases hI : I o g with _ | _ | ⟨g₁, r⟩ <;> rw [hI] at h
    · rcases J o t with x | ⟨t₁, r⟩
      · trivial
      · exact ih r (h r)
    · trivial
    · exact ih r h

end Surely

end Prog
end Lib
