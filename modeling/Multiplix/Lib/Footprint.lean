import Mathlib.Data.Nat.Notation
import Mathlib.Logic.Function.Basic
import Multiplix.Lib.Prog

/-! Which operations a program performs. Some are known, and what the others answer may be
restricted. -/
namespace Lib.Prog

variable {O : Type} {A : O → Type} {X α β γ τ : Type}

/-- Every operation is as `ok` says, and every end as `Q` says, where the known operations run and
the others answer as `ans` says. -/
def Touches (I : Part A X γ) (ok : O → Prop) (ans : (o : O) → A o → Prop) :
    Prog A X α → γ → (α → γ → Prop) → Prop
  | ret a, g, Q => Q a g
  | fail _, _, _ => True
  | op o k, g, Q => ok o ∧
    match I o g with
    | some (.ok (g, r)) => (k r).Touches I ok ans g Q
    | some (.error _) => True
    | none => ∀ r, ans o r → (k r).Touches I ok ans g Q

variable {I : Part A X γ} {J : Impl A X τ} {ok ok' : O → Prop} {ans ans' : (o : O) → A o → Prop}
  {g : γ} {p : Prog A X α} {f : α → Prog A X β}

@[simp] theorem touches_ret {a : α} {Q : α → γ → Prop} :
    Touches I ok ans (ret a : Prog A X α) g Q ↔ Q a g := Iff.rfl

@[simp] theorem touches_pure {a : α} {Q : α → γ → Prop} :
    Touches I ok ans (pure a : Prog A X α) g Q ↔ Q a g := Iff.rfl

@[simp] theorem touches_fail {x : X} {Q : α → γ → Prop} :
    Touches I ok ans (fail x : Prog A X α) g Q ↔ True := Iff.rfl

theorem touches_bind {Q : β → γ → Prop} : Touches I ok ans (p >>= f) g Q ↔
    Touches I ok ans p g fun a g => Touches I ok ans (f a) g Q := by
  induction p generalizing g with
  | ret a => exact Iff.rfl
  | fail x => exact Iff.rfl
  | op o k ih =>
    rw [op_bind, Touches, Touches]
    refine and_congr_right fun _ => ?_
    rcases I o g with _ | _ | ⟨g', r⟩
    · exact forall_congr' fun r => imp_congr_right fun _ => ih r
    · exact Iff.rfl
    · exact ih r

theorem Touches.mono {Q Q' : α → γ → Prop} (h : Touches I ok ans p g Q)
    (hQ : ∀ a g, Q a g → Q' a g) : Touches I ok ans p g Q' := by
  induction p generalizing g with
  | ret a => exact hQ a g h
  | fail x => trivial
  | op o k ih =>
    unfold Touches at h ⊢
    obtain ⟨ho, hk⟩ := h
    refine ⟨ho, ?_⟩
    rcases hI : I o g with _ | _ | ⟨g', r⟩ <;> rw [hI] at hk
    · exact fun r hr => ih r (hk r hr)
    · trivial
    · exact ih r hk

theorem Touches.bind {Q : α → γ → Prop} {Q' : β → γ → Prop} (h : Touches I ok ans p g Q)
    (hf : ∀ a g, Q a g → Touches I ok ans (f a) g Q') : Touches I ok ans (p >>= f) g Q' :=
  touches_bind.mpr (h.mono hf)

/-- A smaller footprint, and fewer answers. -/
theorem Touches.weaken {Q : α → γ → Prop} (h : Touches I ok ans p g Q) (hok : ∀ o, ok o → ok' o)
    (hans : ∀ o r, ok o → ans' o r → ans o r) : Touches I ok' ans' p g Q := by
  induction p generalizing g with
  | ret a => exact h
  | fail x => trivial
  | op o k ih =>
    unfold Touches at h ⊢
    obtain ⟨ho, hk⟩ := h
    refine ⟨hok o ho, ?_⟩
    rcases hI : I o g with _ | _ | ⟨g', r⟩ <;> rw [hI] at hk
    · exact fun r hr => ih r (hk r (hans o r ho hr))
    · trivial
    · exact ih r hk

/-- Run on an implementation whose answers are as expected, the program performs only operations of
its footprint. -/
theorem Touches.trace {R : τ → Prop} {Q : α → γ → Prop}
    (hJ : ∀ o t t' r, ok o → R t → J o t = .ok (t', r) → ans o r ∧ R t')
    (h : Touches I ok ans p g Q) {t : τ} (ht : R t) : ∀ o ∈ p.trace (I.extend J) (g, t), ok o := by
  induction p generalizing g t with
  | ret a => exact fun o ho => absurd ho List.not_mem_nil
  | fail x => exact fun o ho => absurd ho List.not_mem_nil
  | op o k ih =>
    unfold Touches at h
    obtain ⟨ho, hk⟩ := h
    intro o' ho'
    unfold Prog.trace Part.extend at ho'
    dsimp only at ho'
    rcases hI : I o g with _ | _ | ⟨g', r⟩ <;> rw [hI] at hk ho'
    · rcases hJo : J o t with x | ⟨t', r⟩ <;> rw [hJo] at ho'
      · rcases List.mem_cons.mp ho' with rfl | hnil
        · exact ho
        · exact absurd hnil List.not_mem_nil
      · obtain ⟨hans, ht'⟩ := hJ o t t' r ho ht hJo
        rcases List.mem_cons.mp ho' with rfl | htail
        · exact ho
        · exact ih r (hk r hans) ht' o' htail
    · rcases List.mem_cons.mp ho' with rfl | hnil
      · exact ho
      · exact absurd hnil List.not_mem_nil
    · rcases List.mem_cons.mp ho' with rfl | htail
      · exact ho
      · exact ih r hk ht o' htail

/-! ### Runs that meet an operation -/

/-- Some run performs an operation that is as `hit` says, or ends as `Q` says. -/
def Meets (I : Part A X γ) (hit : O → Prop) (ans : (o : O) → A o → Prop) :
    Prog A X α → γ → (α → γ → Prop) → Prop
  | ret a, g, Q => Q a g
  | fail _, _, _ => False
  | op o k, g, Q => hit o ∨
    match I o g with
    | some (.ok (g, r)) => (k r).Meets I hit ans g Q
    | some (.error _) => False
    | none => ∃ r, ans o r ∧ (k r).Meets I hit ans g Q

/-- Answers to all operations, one time after the other. -/
abbrev Answers (ans : (o : O) → A o → Prop) : Type := ℕ → (o : O) → { r : A o // ans o r }

/-- Every operation is answered as it is its time. -/
def oracle (ans : (o : O) → A o → Prop) : Impl A X (Answers ans) :=
  fun o t => .ok (fun n => t (n + 1), (t 0 o).val)

theorem oracle_answers {o : O} {t t' : Answers ans} {r : A o}
    (h : oracle (X := X) ans o t = .ok (t', r)) : ans o r := by
  cases h
  exact (t 0 o).property

section Meets

variable {hit : O → Prop}

@[simp] theorem meets_ret {a : α} {Q : α → γ → Prop} :
    Meets I hit ans (ret a : Prog A X α) g Q ↔ Q a g := Iff.rfl

@[simp] theorem meets_pure {a : α} {Q : α → γ → Prop} :
    Meets I hit ans (pure a : Prog A X α) g Q ↔ Q a g := Iff.rfl

theorem meets_bind {Q : β → γ → Prop} : Meets I hit ans (p >>= f) g Q ↔
    Meets I hit ans p g fun a g => Meets I hit ans (f a) g Q := by
  induction p generalizing g with
  | ret a => exact Iff.rfl
  | fail x => exact Iff.rfl
  | op o k ih =>
    rw [op_bind, Meets, Meets]
    refine or_congr_right ?_
    rcases I o g with _ | _ | ⟨g', r⟩
    · exact exists_congr fun r => and_congr_right fun _ => ih r
    · exact Iff.rfl
    · exact ih r

theorem Meets.mono {Q Q' : α → γ → Prop} (h : Meets I hit ans p g Q)
    (hQ : ∀ a g, Q a g → Q' a g) : Meets I hit ans p g Q' := by
  induction p generalizing g with
  | ret a => exact hQ a g h
  | fail x => exact h
  | op o k ih =>
    unfold Meets at h ⊢
    refine h.imp_right fun hk => ?_
    rcases hI : I o g with _ | _ | ⟨g', r⟩ <;> rw [hI] at hk
    · obtain ⟨r, hr, hk⟩ := hk
      exact ⟨r, hr, ih r hk⟩
    · exact hk
    · exact ih r hk

theorem Meets.bind {Q : α → γ → Prop} {Q' : β → γ → Prop} (h : Meets I hit ans p g Q)
    (hf : ∀ a g, Q a g → Meets I hit ans (f a) g Q') : Meets I hit ans (p >>= f) g Q' :=
  meets_bind.mpr (h.mono hf)

/-- With the right answers the operation is performed. -/
theorem Meets.trace (hans : ∀ o, ∃ r, ans o r) (h : Meets I hit ans p g fun _ _ => False) :
    ∃ t, ∃ o ∈ p.trace (I.extend (oracle ans)) (g, t), hit o := by
  have : DecidableEq O := fun _ _ => Classical.propDecidable _
  have hany : (o : O) → { r : A o // ans o r } := fun o => ⟨(hans o).choose, (hans o).choose_spec⟩
  induction p generalizing g with
  | ret a => exact h.elim
  | fail x => exact h.elim
  | op o k ih =>
    unfold Meets at h
    rcases h with hhit | hk
    · refine ⟨fun _ => hany, o, ?_, hhit⟩
      rw [Prog.trace]
      exact List.mem_cons_self
    rcases hI : I o g with _ | _ | ⟨g', r⟩ <;> rw [hI] at hk
    · obtain ⟨r, hr, hk⟩ := hk
      obtain ⟨t, o', ho', hhit⟩ := ih r hk
      have honce : oracle (X := X) ans o
          (fun n => Nat.casesOn n (Function.update hany o ⟨r, hr⟩) t) =
          .ok (t, (Function.update hany o ⟨r, hr⟩ o).val) := rfl
      refine ⟨fun n => Nat.casesOn n (Function.update hany o ⟨r, hr⟩) t, o', ?_, hhit⟩
      rw [Prog.trace, Part.extend, hI]
      dsimp only
      rw [honce, Function.update_self]
      exact List.mem_cons_of_mem _ ho'
    · exact hk.elim
    · obtain ⟨t, o', ho', hhit⟩ := ih r hk
      refine ⟨t, o', ?_, hhit⟩
      rw [Prog.trace, Part.extend, hI]
      exact List.mem_cons_of_mem _ ho'

end Meets

end Lib.Prog
