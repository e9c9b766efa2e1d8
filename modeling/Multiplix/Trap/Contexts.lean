import Multiplix.Lib.SaveArea

/-! The registers of user programs and of kernel threads: those of one of them are in the core, the
others are in memory. -/
namespace Multiplix.Trap
open Lib

/-- The registers of a user program once a trap is taken: a system call continues after the
instruction, other programs where they were. -/
def advance {R : Type} [DecidableEq R] (pc : R) (call cause : Word) (f : R → Word) : R → Word :=
  if cause = call then Function.update f pc (f pc + 4) else f

section

variable {R : Type} [DecidableEq R] {pc : R} {call c : Word} {f g : R → Word}

theorem advance_of_ne {r : R} (h : r ≠ pc) : advance pc call c f r = f r := by
  unfold advance
  split_ifs
  · exact Function.update_of_ne h _ _
  · rfl

theorem advance_congr {l : Slots R} {o : ℕ} (hpc : (pc, o) ∈ l) (h : ∀ q ∈ l, f q.1 = g q.1)
    {q : R × ℕ} (hq : q ∈ l) : advance pc call c f q.1 = advance pc call c g q.1 := by
  by_cases hne : q.1 = pc
  · have hsame : f pc = g pc := h _ hpc
    unfold advance
    split_ifs
    · rw [hne, Function.update_self, Function.update_self, hsame]
    · exact h q hq
  · rw [advance_of_ne hne, advance_of_ne hne, h q hq]

end

/-- What the code of an architecture does to save and to restore registers. -/
structure Arch (R : Type) [DecidableEq R] where
  /-- The registers of a user program, in its trapframe of this size. -/
  user : Slots R
  frame : ℕ
  /-- Other registers that a user program can change. -/
  others : List R
  /-- The registers of a kernel thread, in its `Context` of this size. -/
  kernel : Slots R
  context : ℕ
  /-- The register with the result of a system call. -/
  retval : R × ℕ
  /-- The registers with the arguments of `kswitch`. -/
  old : R
  new : R
  /-- The register with the next instruction, and the cause of system calls. -/
  pc : R × ℕ
  call : Word
  /-- A trap is taken, up to the code that does not depend on the architecture. -/
  trap : Word → Machine R → Machine R
  /-- The return to the process at this address, with its kernel stack and its page table. -/
  usertrapret : ℕ → Word → Word → Machine R → Machine R
  kswitch : Machine R → Machine R
  /-- The next trap finds the process at this address. -/
  Ready : ℕ → Machine R → Prop
  user_apart : user.Apart
  user_nodup : user.regs.Nodup
  user_within : user.Within frame
  kernel_within : kernel.Within context
  retval_mem : retval ∈ user
  pc_mem : pc ∈ user
  ready_congr : ∀ {p s s'}, Ready p s →
    (∀ r ∉ user.regs, r ∉ others → s'.regs r = s.regs r) → Ready p s'
  trap_holds : ∀ {p s c}, Ready p s → p + frame ≤ 2 ^ 64 →
    (trap c s).Holds p user (advance pc.1 call c s.regs)
  trap_outside : ∀ {p s c x}, Ready p s → p + frame ≤ 2 ^ 64 → x < p ∨ p + frame ≤ x →
    (trap c s).mem x = s.mem x
  ret_regs : ∀ {p k t s}, p + frame ≤ 2 ^ 64 → ∀ r ∈ user,
    (usertrapret p k t s).regs r.1 = s.word (p + r.2)
  ret_outside : ∀ {p k t s x}, p + frame ≤ 2 ^ 64 → x < p ∨ p + frame ≤ x →
    (usertrapret p k t s).mem x = s.mem x
  ret_ready : ∀ {p k t s}, p + frame ≤ 2 ^ 64 → Ready p (usertrapret p k t s)
  kswitch_holds : ∀ {a b s}, (s.regs old).toNat = a → (s.regs new).toNat = b →
    a + context ≤ 2 ^ 64 → b + context ≤ 2 ^ 64 → (kswitch s).Holds a kernel s.regs
  kswitch_outside : ∀ {a b s x}, (s.regs old).toNat = a → (s.regs new).toNat = b →
    a + context ≤ 2 ^ 64 → b + context ≤ 2 ^ 64 → x < a ∨ a + context ≤ x →
    (kswitch s).mem x = s.mem x
  kswitch_regs : ∀ {a b s}, (s.regs old).toNat = a → (s.regs new).toNat = b →
    a + context ≤ 2 ^ 64 → b + context ≤ 2 ^ 64 → ∀ r ∈ kernel,
    (kswitch s).regs r.1 = (kswitch s).word (b + r.2)

/-- What the core runs: the program of a process, or a thread of the kernel, which is that of a
process or the scheduler. -/
inductive Mode (P : Type)
  | user (p : P)
  | kernel (t : Option P)
  deriving DecidableEq

/-- What is done, by the program or the thread that runs. -/
inductive Act (P R : Type)
  | compute (p : P) (f : R → Word)
  | trap (p : P) (cause : Word)
  | result (p : P) (v : Word)
  | fork (p q : P)
  | spawn (q : P)
  | work (t : Option P)
  | switch (t u : Option P)
  | ret (p : P)

variable {P R : Type} [DecidableEq R] (A : Arch R) (proc : P → ℕ) (sched : ℕ)

theorem user_ne {p q : P} (h : q ≠ p) : Mode.user p ≠ .user q := fun he =>
  h (Mode.user.inj he).symm

theorem kernel_ne (t : Option P) (q : P) : Mode.kernel t ≠ .user q := by
  intro he
  cases he

theorem thread_ne {t u : Option P} (h : t ≠ u) : Mode.kernel u ≠ .kernel t := fun he =>
  h (Mode.kernel.inj he).symm

namespace Arch

/-! ### Trapframes and contexts -/

/-- The `Context` of a thread, which in a process follows the trapframe. -/
def ctx : Option P → ℕ
  | some p => proc p + A.frame
  | none => sched

/-- The processes and the context of the scheduler lie apart in memory. -/
structure Placed : Prop where
  apart : ∀ p q, p ≠ q → proc p + (A.frame + A.context) ≤ proc q ∨
    proc q + (A.frame + A.context) ≤ proc p
  scheduler : ∀ p, proc p + (A.frame + A.context) ≤ sched ∨ sched + A.context ≤ proc p
  fits : ∀ p, proc p + (A.frame + A.context) ≤ 2 ^ 64
  scheduler_fits : sched + A.context ≤ 2 ^ 64

/-- The trapframes are left as they are. -/
def KeepsUsers (s s' : Machine R) : Prop :=
  ∀ q, ∀ r ∈ A.user, s'.word (proc q + r.2) = s.word (proc q + r.2)

/-- The context of a thread is left as it is. -/
def KeepsThread (t : Option P) (s s' : Machine R) : Prop :=
  ∀ r ∈ A.kernel, s'.word (A.ctx proc sched t + r.2) = s.word (A.ctx proc sched t + r.2)

namespace Placed

variable {A proc sched} (hp : A.Placed proc sched) {s s' : Machine R}

include hp

theorem frame_fits (p : P) : proc p + A.frame ≤ 2 ^ 64 := by
  have hfits := hp.fits p
  omega

theorem ctx_fits (t : Option P) : A.ctx proc sched t + A.context ≤ 2 ^ 64 := by
  cases t with
  | none => exact hp.scheduler_fits
  | some p =>
    have hfits := hp.fits p
    unfold ctx
    dsimp only
    omega

theorem frame_ctx (p : P) (t : Option P) : proc p + A.frame ≤ A.ctx proc sched t ∨
    A.ctx proc sched t + A.context ≤ proc p := by
  unfold ctx
  cases t with
  | none =>
    have hapart := hp.scheduler p
    dsimp only
    omega
  | some q =>
    by_cases hq : p = q
    · subst hq
      exact Or.inl le_rfl
    · have hapart := hp.apart p q hq
      dsimp only
      omega

theorem ctx_ctx {t u : Option P} (htu : t ≠ u) :
    A.ctx proc sched t + A.context ≤ A.ctx proc sched u ∨
      A.ctx proc sched u + A.context ≤ A.ctx proc sched t := by
  unfold ctx
  cases t with
  | none =>
    cases u with
    | none => exact absurd rfl htu
    | some q =>
      have hapart := hp.scheduler q
      dsimp only
      omega
  | some p =>
    cases u with
    | none =>
      have hapart := hp.scheduler p
      dsimp only
      omega
    | some q =>
      have hapart := hp.apart p q fun he => htu (congrArg some he)
      dsimp only
      omega

/-- What changes one context leaves the trapframes. -/
theorem keepsUsers {t : Option P} (h : ∀ x, x < A.ctx proc sched t ∨
    A.ctx proc sched t + A.context ≤ x → s'.mem x = s.mem x) : A.KeepsUsers proc s s' := by
  intro q r hr
  have hin := A.user_within r hr
  have hapart := hp.frame_ctx q t
  exact s.word_congr fun x hx hx' => h x (by omega)

/-- What changes one trapframe leaves the contexts. -/
theorem keepsThread {p : P} (h : ∀ x, x < proc p ∨ proc p + A.frame ≤ x →
    s'.mem x = s.mem x) (t : Option P) : A.KeepsThread proc sched t s s' := by
  intro r hr
  have hin := A.kernel_within r hr
  have hapart := hp.frame_ctx p t
  exact s.word_congr fun x hx hx' => h x (by omega)

/-- What changes one context leaves the others. -/
theorem keepsThread_ctx {t u : Option P} (htu : u ≠ t) (h : ∀ x, x < A.ctx proc sched t ∨
    A.ctx proc sched t + A.context ≤ x → s'.mem x = s.mem x) : A.KeepsThread proc sched u s s' := by
  intro r hr
  have hin := A.kernel_within r hr
  have hapart := hp.ctx_ctx htu
  exact s.word_congr fun x hx hx' => h x (by omega)

/-- What changes one trapframe leaves the others. -/
theorem word_frame {p q : P} (hne : q ≠ p) (h : ∀ x, x < proc p ∨ proc p + A.frame ≤ x →
    s'.mem x = s.mem x) {r : R × ℕ} (hr : r ∈ A.user) :
    s'.word (proc q + r.2) = s.word (proc q + r.2) := by
  have hin := A.user_within r hr
  have hapart := hp.apart p q hne.symm
  exact s.word_congr fun x hx hx' => h x (by omega)

end Placed

/-! ### Runs -/

/-- The programs compute, without access to the memory of the kernel and to the other registers;
the threads of the kernel do not write to registers that are saved for another one. -/
inductive Step : Act P R → Mode P × Machine R → Mode P × Machine R → Prop
  | compute {p : P} {s s' : Machine R}
      (hregs : ∀ r ∉ A.user.regs, r ∉ A.others → s'.regs r = s.regs r)
      (huser : A.KeepsUsers proc s s') (hkernel : ∀ t, A.KeepsThread proc sched t s s') :
      Step (.compute p s'.regs) (.user p, s) (.user p, s')
  | trap {p : P} {s : Machine R} (c : Word) :
      Step (.trap p c) (.user p, s) (.kernel (some p), A.trap c s)
  | result {t : Option P} {s : Machine R} (q : P) (v : Word) :
      Step (.result q v) (.kernel t, s) (.kernel t, s.put (proc q + A.retval.2) v)
  | fork {t : Option P} {s : Machine R} (p q : P) : Step (.fork p q) (.kernel t, s)
      (.kernel t, s.copy (proc q) (proc p) A.frame)
  | spawn {t : Option P} {s s' : Machine R} (q : P) (hregs : s'.regs = s.regs)
      (huser : A.KeepsUsers proc s s') (hkernel : ∀ u ≠ some q, A.KeepsThread proc sched u s s') :
      Step (.spawn q) (.kernel t, s) (.kernel t, s')
  | work {t : Option P} {s s' : Machine R} (huser : A.KeepsUsers proc s s')
      (hkernel : ∀ u ≠ t, A.KeepsThread proc sched u s s') :
      Step (.work t) (.kernel t, s) (.kernel t, s')
  | switch {t u : Option P} {s : Machine R} (hold : (s.regs A.old).toNat = A.ctx proc sched t)
      (hnew : (s.regs A.new).toNat = A.ctx proc sched u) :
      Step (.switch t u) (.kernel t, s) (.kernel u, A.kswitch s)
  | ret {p : P} {s : Machine R} (k pt : Word) : Step (.ret p) (.kernel (some p), s)
      (.user p, A.usertrapret (proc p) k pt s)

inductive Run : List (Act P R) → Mode P × Machine R → Mode P × Machine R → Prop
  | nil {x : Mode P × Machine R} : Run [] x x
  | cons {a : Act P R} {as : List (Act P R)} {x y z : Mode P × Machine R}
      (h : Step A proc sched a x y) (hr : Run as y z) : Run (a :: as) x z

theorem Run.last {A : Arch R} {proc : P → ℕ} {sched : ℕ} {as : List (Act P R)} {a : Act P R}
    {x y : Mode P × Machine R} (hr : A.Run proc sched (as ++ [a]) x y) :
    ∃ z, A.Run proc sched as x z ∧ A.Step proc sched a z y := by
  induction as generalizing x with
  | nil =>
    obtain _ | ⟨h, hr⟩ := hr
    cases hr
    exact ⟨x, .nil, h⟩
  | cons b as ih =>
    obtain _ | ⟨h, hr⟩ := hr
    obtain ⟨z, hz, hlast⟩ := ih hr
    exact ⟨z, .cons h hz, hlast⟩

/-- Where a program runs, a trap will find its process. -/
def Inv (x : Mode P × Machine R) : Prop := ∀ p, x.1 = .user p → A.Ready (proc p) x.2

theorem inv_kernel (t : Option P) (s : Machine R) : A.Inv proc (.kernel t, s) := by
  intro q hq
  cases hq

theorem Step.inv {A : Arch R} {proc : P → ℕ} {sched : ℕ} {a : Act P R} {x y : Mode P × Machine R}
    (hp : A.Placed proc sched) (h : A.Step proc sched a x y) (hi : A.Inv proc x) :
    A.Inv proc y := by
  cases h with
  | compute hregs huser hkernel => exact fun q hq => A.ready_congr (hi q hq) hregs
  | ret k pt =>
    intro q hq
    cases hq
    exact A.ret_ready (hp.frame_fits _)
  | _ => exact A.inv_kernel proc _ _

variable [DecidableEq P]

/-- A register of a program, which is in the core or in the trapframe. -/
def userReg (x : Mode P × Machine R) (p : P) (r : R × ℕ) : Word :=
  if x.1 = .user p then x.2.regs r.1 else x.2.word (proc p + r.2)

/-- A register of a thread, which is in the core or in its `Context`. -/
def threadReg (x : Mode P × Machine R) (t : Option P) (r : R × ℕ) : Word :=
  if x.1 = .kernel t then x.2.regs r.1 else x.2.word (A.ctx proc sched t + r.2)

/-- The programs have these registers. -/
def Has (x : Mode P × Machine R) (F : P → R → Word) : Prop :=
  ∀ q, ∀ r ∈ A.user, userReg proc x q r = F q r.1

end Arch

/-- What an act does to the registers of the programs, as if each of them had its own. -/
def Act.effect [DecidableEq P] : Act P R → (P → R → Word) → P → R → Word
  | .compute p f, F => Function.update F p f
  | .trap p c, F => Function.update F p (advance A.pc.1 A.call c (F p))
  | .result p v, F => Function.update F p (Function.update (F p) A.retval.1 v)
  | .fork p q, F => Function.update F q (F p)
  | _, F => F

/-- The act ends or begins the work of a thread, or is its work. -/
def Act.Uses (t : Option P) : Act P R → Prop
  | .trap p _ => t = some p
  | .ret p => t = some p
  | .spawn q => t = some q
  | .work u => t = u
  | _ => False

namespace Arch

variable {A proc sched} [DecidableEq P] {s s' : Machine R} {F : P → R → Word}
  {x y : Mode P × Machine R} {a : Act P R} {as : List (Act P R)}

/-! ### Programs -/

theorem Has.of_keepsUsers {t u : Option P} (hF : A.Has proc (.kernel t, s) F)
    (h : A.KeepsUsers proc s s') : A.Has proc (.kernel u, s') F := fun q r hr =>
  (h q r hr).trans (hF q r hr)

theorem Has.update {p : P} {f : R → Word} (hF : A.Has proc x F)
    (hself : ∀ r ∈ A.user, userReg proc y p r = f r.1)
    (hother : ∀ q ≠ p, ∀ r ∈ A.user, userReg proc y q r = userReg proc x q r) :
    A.Has proc y (Function.update F p f) := by
  intro q r hr
  by_cases hq : q = p
  · subst hq
    rw [Function.update_self]
    exact hself r hr
  · rw [Function.update_of_ne hq, hother q hq r hr]
    exact hF q r hr

omit [DecidableEq R] in
/-- Of a program that does not run, the registers are in the trapframe. -/
theorem userReg_away {m : Mode P} {q : P} (h : m ≠ .user q) (r : R × ℕ) :
    userReg proc (m, s) q r = s.word (proc q + r.2) := if_neg h

/-- What changes one trapframe changes the registers of one program. -/
theorem Placed.has_update (hp : A.Placed proc sched) {m m' : Mode P} {p : P} {f : R → Word}
    (hF : A.Has proc (m, s) F) (hm : ∀ q ≠ p, m ≠ .user q) (hm' : ∀ q ≠ p, m' ≠ .user q)
    (hmem : ∀ x, x < proc p ∨ proc p + A.frame ≤ x → s'.mem x = s.mem x)
    (hself : ∀ r ∈ A.user, userReg proc (m', s') p r = f r.1) :
    A.Has proc (m', s') (Function.update F p f) := by
  refine hF.update hself fun q hq r hr => ?_
  rw [userReg_away (hm q hq), userReg_away (hm' q hq)]
  exact hp.word_frame hq hmem hr

theorem has_retval {t : Option P} {p : P} {v : Word} (hF : A.Has proc (.kernel t, s) F) {r : R × ℕ}
    (hr : r ∈ A.user) : (s.put (proc p + A.retval.2) v).word (proc p + r.2) =
      Function.update (F p) A.retval.1 v r.1 := by
  by_cases he : r = A.retval
  · subst he
    rw [s.word_put_self, Function.update_self]
  · have hne : r.1 ≠ A.retval.1 := fun h => he (Slots.eq_of_reg A.user_nodup hr A.retval_mem h)
    have hapart := A.user_apart.of_ne hr A.retval_mem he
    rw [s.word_put v (by omega), Function.update_of_ne hne]
    exact hF p r hr

theorem Step.has (hp : A.Placed proc sched) (h : A.Step proc sched a x y) (hi : A.Inv proc x)
    (hF : A.Has proc x F) : A.Has proc y (a.effect A F) := by
  cases h with
  | @compute p s s' hregs huser hkernel =>
    refine hF.update (fun r _ => if_pos rfl) fun q hq r hr => ?_
    rw [userReg_away (user_ne hq), userReg_away (user_ne hq)]
    exact huser q r hr
  | @trap p s c =>
    have hready := hi p rfl
    have hfits := hp.frame_fits p
    refine hp.has_update hF (fun q hq => user_ne hq)
      (fun q' _ => kernel_ne _ q') (fun x hx => A.trap_outside hready hfits hx) fun r hr => ?_
    have hregs (r' : R × ℕ) (hr' : r' ∈ A.user) : s.regs r'.1 = F p r'.1 := by
      rw [← hF p r' hr']
      exact (if_pos rfl).symm
    exact (A.trap_holds hready hfits r hr).trans (advance_congr A.pc_mem hregs hr)
  | @result t s q v =>
    have hin := A.user_within _ A.retval_mem
    exact hp.has_update hF (fun q' _ => kernel_ne _ q')
      (fun q' _ => kernel_ne _ q') (fun x hx => s.put_outside v (by omega)) fun r hr =>
        has_retval hF hr
  | @fork t s p q =>
    refine hp.has_update hF (fun q' _ => kernel_ne _ q')
      (fun q' _ => kernel_ne _ q') (fun x hx => Mem.copy_outside _ _ _ hx) fun r hr => ?_
    rw [← hF p r hr, userReg_away (kernel_ne t q), userReg_away (kernel_ne t p)]
    exact s.word_copy (A.user_within r hr)
  | spawn q hregs huser hkernel => exact hF.of_keepsUsers huser
  | work huser hkernel => exact hF.of_keepsUsers huser
  | @switch t u s hold hnew =>
    exact hF.of_keepsUsers (hp.keepsUsers fun x =>
      A.kswitch_outside hold hnew (hp.ctx_fits t) (hp.ctx_fits u))
  | @ret p s k pt =>
    have hfits := hp.frame_fits p
    intro q r hr
    rw [show Act.effect A (.ret p) F = F from rfl, ← hF q r hr]
    by_cases hq : q = p
    · subst hq
      exact (if_pos rfl).trans (A.ret_regs hfits r hr)
    · rw [userReg_away (user_ne hq)]
      exact hp.word_frame hq (fun x hx => A.ret_outside hfits hx) hr

/-- Each program has the registers that it would have if it ran alone. -/
theorem Run.has (hp : A.Placed proc sched) (hr : A.Run proc sched as x y) (hi : A.Inv proc x)
    (hF : A.Has proc x F) :
    A.Inv proc y ∧ A.Has proc y (as.foldl (fun F a => a.effect A F) F) := by
  induction hr generalizing F with
  | nil => exact ⟨hi, hF⟩
  | cons h hr ih =>
    exact ih (h.inv hp hi) (h.has hp hi hF)

/-! ### Threads of the kernel -/

theorem threadReg_live (t : Option P) (r : R × ℕ) :
    A.threadReg proc sched (.kernel t, s) t r = s.regs r.1 := if_pos rfl

/-- Of a thread that does not run, the registers are in its context. -/
theorem threadReg_away {m : Mode P} {t : Option P} (h : m ≠ .kernel t) (r : R × ℕ) :
    A.threadReg proc sched (m, s) t r = s.word (A.ctx proc sched t + r.2) := if_neg h

/-- A thread in memory, whose context is left as it is. -/
theorem KeepsThread.away {m m' : Mode P} {t : Option P} (h : A.KeepsThread proc sched t s s')
    (hm : m ≠ .kernel t) (hm' : m' ≠ .kernel t) {r : R × ℕ} (hr : r ∈ A.kernel) :
    A.threadReg proc sched (m', s') t r = A.threadReg proc sched (m, s) t r := by
  rw [threadReg_away hm, threadReg_away hm']
  exact h r hr

/-- The registers of the core and the context are left as they are. -/
theorem KeepsThread.same {m : Mode P} {t : Option P} (h : A.KeepsThread proc sched t s s')
    (hregs : s'.regs = s.regs) {r : R × ℕ} (hr : r ∈ A.kernel) :
    A.threadReg proc sched (m, s') t r = A.threadReg proc sched (m, s) t r := by
  unfold threadReg
  rw [hregs, h r hr]

theorem Step.thread (hp : A.Placed proc sched) (h : A.Step proc sched a x y) (hi : A.Inv proc x)
    {t : Option P} (ha : ¬a.Uses t) {r : R × ℕ} (hr : r ∈ A.kernel) :
    A.threadReg proc sched y t r = A.threadReg proc sched x t r := by
  cases h with
  | @compute p s s' hregs huser hkernel =>
    exact (hkernel t).away (fun he => kernel_ne t p he.symm) (fun he => kernel_ne t p he.symm) hr
  | @trap p s c =>
    have hkeep : A.KeepsThread proc sched t s (A.trap c s) :=
      hp.keepsThread (fun x => A.trap_outside (hi p rfl) (hp.frame_fits p)) t
    exact hkeep.away (fun he => kernel_ne t p he.symm) (thread_ne ha) hr
  | @result u s q v =>
    have hin := A.user_within _ A.retval_mem
    have hkeep : A.KeepsThread proc sched t s (s.put (proc q + A.retval.2) v) :=
      hp.keepsThread (fun x (hx : x < proc q ∨ _) => s.put_outside v (by omega)) t
    exact hkeep.same rfl hr
  | @fork u s p q =>
    have hkeep : A.KeepsThread proc sched t s (s.copy (proc q) (proc p) A.frame) :=
      hp.keepsThread (fun x hx => Mem.copy_outside _ _ _ hx) t
    exact hkeep.same rfl hr
  | @spawn u s s' q hregs huser hkernel => exact (hkernel t ha).same hregs hr
  | @work u s s' huser hkernel => exact (hkernel t ha).away (thread_ne ha) (thread_ne ha) hr
  | @switch u v s hold hnew =>
    have hu := hp.ctx_fits u
    have hv := hp.ctx_fits v
    have hregs := A.kswitch_regs hold hnew hu hv r hr
    have hword : (A.kswitch s).word (A.ctx proc sched t + r.2) =
        A.threadReg proc sched (.kernel u, s) t r := by
      by_cases htu : t = u
      · subst htu
        exact (A.kswitch_holds hold hnew hu hv r hr).trans (threadReg_live t r).symm
      · rw [threadReg_away (thread_ne htu)]
        exact hp.keepsThread_ctx htu (fun x => A.kswitch_outside hold hnew hu hv) r hr
    by_cases htv : t = v
    · subst htv
      rw [threadReg_live, hregs, hword]
    · rw [threadReg_away (thread_ne htv), hword]
  | @ret p s k pt =>
    have hkeep : A.KeepsThread proc sched t s (A.usertrapret (proc p) k pt s) :=
      hp.keepsThread (fun x => A.ret_outside (hp.frame_fits p)) t
    exact hkeep.away (thread_ne ha) (fun he => kernel_ne t p he.symm) hr

/-- A thread finds the registers that it left, whatever others do in the meantime. -/
theorem Run.thread (hp : A.Placed proc sched) (hr : A.Run proc sched as x y) (hi : A.Inv proc x)
    {t : Option P} (has : ∀ a ∈ as, ¬a.Uses t) {r : R × ℕ} (hmem : r ∈ A.kernel) :
    A.threadReg proc sched y t r = A.threadReg proc sched x t r := by
  induction hr with
  | nil => rfl
  | @cons a as x y z h hr ih =>
    rw [ih (h.inv hp hi) fun b hb => has b (List.mem_cons_of_mem a hb)]
    exact h.thread hp hi (has a List.mem_cons_self) hmem

end Arch

end Multiplix.Trap
