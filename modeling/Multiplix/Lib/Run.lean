import Mathlib.Tactic.Basic

/-! Runs of deterministic systems that answer every event or stop, and simulations between them. -/
namespace Lib

variable {S T E O X : Type*}

/-- The state after the events, with the answers. -/
def run (exec : S → E → Except X (S × O)) (s : S) : List E → Except X (S × List O)
  | [] => .ok (s, [])
  | e :: es =>
    match exec s e with
    | .error x => .error x
    | .ok (s, o) =>
      match run exec s es with
      | .error x => .error x
      | .ok (s, os) => .ok (s, o :: os)

/-- The second system does what the first one does, up to stops that are let pass. -/
def Follows (R : S → T → Prop) (pass : X → Prop) :
    Except X (S × O) → Except X (T × O) → Prop
  | .ok (s, o), y => ∃ t, y = .ok (t, o) ∧ R s t
  | .error x, y => pass x ∨ y = .error x

/-- A simulation of single events is one of runs. -/
theorem follows_run {exec : S → E → Except X (S × O)} {exec' : T → E → Except X (T × O)}
    {R : S → T → Prop} {pass : X → Prop}
    (hstep : ∀ {s t}, R s t → ∀ e, Follows R pass (exec s e) (exec' t e)) {s : S} {t : T}
    (h : R s t) (es : List E) : Follows R pass (run exec s es) (run exec' t es) := by
  induction es generalizing s t with
  | nil => exact ⟨t, rfl, h⟩
  | cons e es ih =>
    have he := hstep h e
    rw [run, run]
    rcases hexec : exec s e with x | ⟨s₁, o⟩ <;> rw [hexec] at he
    · rcases he with hx | hx
      · exact Or.inl hx
      · exact Or.inr (by rw [hx])
    · obtain ⟨t₁, ht, h₁⟩ := he
      have hes := ih h₁
      rw [ht]
      dsimp only
      rcases hr : run exec s₁ es with x | ⟨s₂, os⟩
      · rw [hr] at hes
        rcases hes with hx | hx
        · exact Or.inl hx
        · exact Or.inr (by rw [hx])
      · rw [hr] at hes
        obtain ⟨t₂, ht₂, h₂⟩ := hes
        exact ⟨t₂, by rw [ht₂], h₂⟩

end Lib
