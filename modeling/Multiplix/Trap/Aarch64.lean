import Multiplix.Trap.Contexts

/-! Traps from user programs and context switches on AArch64. -/
namespace Multiplix.Trap.Aarch64
open Lib

/-- The stack pointer of the kernel is `sp`, that of a program is `spEl0`. -/
inductive Reg
  | x (n : Fin 31)
  | sp | spEl0 | pc | nzcv | daif | spsr | elr | tpidr | ttbr0
  deriving DecidableEq

/-- The registers of one `stp` or `ldp`. -/
def pair (r r' : Reg) (o : ℕ) : Slots Reg := [(r, o), (r', o + 8)]

/-! ### The code -/

/-- `x2` to `x29`. -/
def body : Slots Reg :=
  pair (.x 2) (.x 3) (40 + 16 * 0) ++ pair (.x 4) (.x 5) (40 + 16 * 1) ++
    pair (.x 6) (.x 7) (40 + 16 * 2) ++ pair (.x 8) (.x 9) (40 + 16 * 3) ++
    pair (.x 10) (.x 11) (40 + 16 * 4) ++ pair (.x 12) (.x 13) (40 + 16 * 5) ++
    pair (.x 14) (.x 15) (40 + 16 * 6) ++ pair (.x 16) (.x 17) (40 + 16 * 7) ++
    pair (.x 18) (.x 19) (40 + 16 * 8) ++ pair (.x 20) (.x 21) (40 + 16 * 9) ++
    pair (.x 22) (.x 23) (40 + 16 * 10) ++ pair (.x 24) (.x 25) (40 + 16 * 11) ++
    pair (.x 26) (.x 27) (40 + 16 * 12) ++ pair (.x 28) (.x 29) (40 + 16 * 13)

/-- The end of the vectors for traps from a program. -/
def uservecEnd : List (Insn Reg) :=
  .move (.x 1) .spEl0 :: (Slots.saves (pair (.x 30) (.x 1) (40 + 16 * 14)) (.x 0) ++
    [.move (.x 1) .sp, .store (.x 1) 24 (.x 0), .move (.x 1) .elr, .store (.x 1) 8 (.x 0),
      .load (.x 1) 16 (.x 0), .move .tpidr (.x 1), .load (.x 1) 0 (.x 0), .move .sp (.x 1)])

/-- `uservec_exception` and `uservec_interrupt`, which differ in where they go on. -/
def uservec : List (Insn Reg) :=
  .move .sp (.x 0) :: .move (.x 0) .tpidr :: .store (.x 1) 32 (.x 0) ::
    (body.saves (.x 0) ++ uservecEnd)

/-- What `userret` restores first, with the stack pointer in `x1`. -/
def restored : Slots Reg := body ++ pair (.x 30) (.x 1) (40 + 16 * 14)

def userret : List (Insn Reg) :=
  .move .tpidr (.x 0) :: (restored.restores (.x 0) ++
    [.move .spEl0 (.x 1), .load (.x 1) 32 (.x 0), .load (.x 0) 24 (.x 0)])

/-- `x19` to `x28`. -/
def callee : Slots Reg :=
  pair (.x 19) (.x 20) (16 * 1) ++ pair (.x 21) (.x 22) (16 * 2) ++
    pair (.x 23) (.x 24) (16 * 3) ++ pair (.x 25) (.x 26) (16 * 4) ++
    pair (.x 27) (.x 28) (16 * 5)

/-- What `kswitch` saves and restores, with the stack pointer in `x9`. -/
def switched : Slots Reg := pair (.x 30) (.x 9) (16 * 0) ++ callee

def kswitch : List (Insn Reg) :=
  .move (.x 9) .sp :: (switched.saves (.x 1) ++
    (switched.restores (.x 2) ++ [.move .sp (.x 9), .move .pc (.x 30)]))

/-! ### The core and the handlers -/

/-- The class of the exceptions that are system calls. -/
def svc : Word := 0b010101

def Spsr.el0 : Word := 0b0000

/-- The bits of `daif`. -/
def masks : Word := 0x3c0

/-- The core takes a trap of this class from a user program. After a system call it will return to
the next instruction. -/
def takeTrap (cls : Word) (s : Machine Reg) : Machine Reg :=
  let s := s.set .elr (if cls = svc then s.regs .pc + 4 else s.regs .pc)
  let s := s.set .spsr (Spsr.el0 ||| (s.regs .nzcv <<< 28) ||| s.regs .daif)
  s.set .daif masks

def eret (s : Machine Reg) : Machine Reg :=
  let s := s.set .nzcv ((s.regs .spsr >>> 28) &&& 0xf)
  let s := s.set .daif (s.regs .spsr &&& masks)
  s.set .pc (s.regs .elr)

def trap (cls : Word) (s : Machine Reg) : Machine Reg := (takeTrap cls s).exec uservec

/-- `usertrapret`, before it calls `userret`. -/
def prepare (p : ℕ) (kstackp ttbr0 : Word) (s : Machine Reg) : Machine Reg :=
  let s := s.set .daif (s.regs .daif ||| masks)
  let s := s.set .spsr Spsr.el0
  let s := s.put p kstackp
  let s := s.put (p + 16) (s.regs .tpidr)
  let s := s.set .elr (s.word (p + 8))
  s.set .ttbr0 ttbr0

def usertrapret (p : ℕ) (kstackp ttbr0 : Word) (s : Machine Reg) : Machine Reg :=
  let s := prepare p kstackp ttbr0 s
  eret ((s.set (.x 0) (BitVec.ofNat 64 p)).exec userret)

/-- The next trap finds the process, and no interrupt is masked. -/
structure Ready (p : ℕ) (s : Machine Reg) : Prop where
  tpidr : (s.regs .tpidr).toNat = p
  daif : s.regs .daif = 0

/-- Where the registers of a user program are in its trapframe. -/
def user : Slots Reg :=
  body ++ [(.x 30, 264), (.spEl0, 272), (.x 1, 32), (.x 0, 24), (.pc, 8)]

/-- Where the registers of a thread are in its `Context`. -/
def kernel : Slots Reg := callee ++ [(.x 30, 0), (.sp, 8)]

/-! ### What the code does -/

variable {s : Machine Reg} {p : ℕ} {c : Word}

theorem user_apart : user.Apart := by decide

theorem user_nodup : user.regs.Nodup := by decide

theorem user_within : user.Within 280 := by decide

theorem kernel_within : kernel.Within 96 := by decide

theorem retval_mem : (Reg.x 0, 24) ∈ user := by decide

theorem pc_mem : (Reg.pc, 8) ∈ user := by decide

theorem body_within : body.Within 280 := by decide

theorem body_apart : body.Apart := by decide

theorem body_general : ∀ q ∈ body, q.1 ≠ .x 0 ∧ q.1 ≠ .x 1 ∧ q.1 ≠ .sp ∧ q.1 ≠ .spEl0 ∧
    q.1 ≠ .elr ∧ q.1 ≠ .spsr ∧ q.1 ≠ .daif ∧ q.1 ≠ .pc ∧ 40 ≤ q.2 := by decide

theorem uservecEnd_does (hs : (s.regs (.x 0)).toNat = p) (hp : p + 280 ≤ 2 ^ 64) :
    (s.exec uservecEnd).mem = ((((s.put (p + 264) (s.regs (.x 30))).put (p + 272)
      (s.regs .spEl0)).put (p + 24) (s.regs .sp)).put (p + 8) (s.regs .elr)).mem := by
  rw [← Machine.addr_eq hs hp (by decide), ← Machine.addr_eq hs hp (by decide),
    ← Machine.addr_eq hs hp (by decide), ← Machine.addr_eq hs hp (by decide)]
  rfl

theorem uservec_does (hs : (s.regs .tpidr).toNat = p) (hp : p + 280 ≤ 2 ^ 64) :
    (s.exec uservec).Holds p body s.regs ∧ (s.exec uservec).word (p + 264) = s.regs (.x 30) ∧
      (s.exec uservec).word (p + 272) = s.regs .spEl0 ∧
      (s.exec uservec).word (p + 32) = s.regs (.x 1) ∧
      (s.exec uservec).word (p + 24) = s.regs (.x 0) ∧
      (s.exec uservec).word (p + 8) = s.regs .elr ∧
      ∀ x, x < p ∨ p + 280 ≤ x → (s.exec uservec).mem x = s.mem x := by
  have hx0 : (((s.step (.move .sp (.x 0))).step (.move (.x 0) .tpidr)).regs (.x 0)).toNat = p := by
    rw [← hs]
    rfl
  have hsp : ((s.step (.move .sp (.x 0))).step (.move (.x 0) .tpidr)).regs .sp = s.regs (.x 0) :=
    rfl
  have huser (r : Reg) (h : r ≠ .x 0) (h' : r ≠ .sp) :
      ((s.step (.move .sp (.x 0))).step (.move (.x 0) .tpidr)).regs r = s.regs r :=
    (Machine.set_ne _ h _).trans (Machine.set_ne _ h' _)
  have hmem₁ : ((s.step (.move .sp (.x 0))).step (.move (.x 0) .tpidr)).mem = s.mem := rfl
  rw [uservec, Machine.exec_cons, Machine.exec_cons, Machine.exec_cons, Machine.exec_append]
  generalize (s.step (.move .sp (.x 0))).step (.move (.x 0) .tpidr) = s₁ at hx0 hsp huser hmem₁ ⊢
  rw [Machine.step_store _ hx0 hp (by decide)]
  have hx0' : ((s₁.put (p + 32) (s₁.regs (.x 1))).regs (.x 0)).toNat = p := hx0
  obtain ⟨hregs, hholds, hmem⟩ := Machine.saves_does hx0' hp body_within body_apart
  have h32 : ((s₁.put (p + 32) (s₁.regs (.x 1))).exec (body.saves (.x 0))).word (p + 32) =
      s.regs (.x 1) := by
    rw [Machine.word_congr _ fun x hx hx' => hmem x fun q hq => ?_, Machine.word_put_self,
      huser _ (by decide) (by decide)]
    obtain ⟨-, -, -, -, -, -, -, -, hfrom⟩ := body_general q hq
    omega
  have hout (x : ℕ) (hx : x < p ∨ p + 280 ≤ x) :
      ((s₁.put (p + 32) (s₁.regs (.x 1))).exec (body.saves (.x 0))).mem x = s.mem x := by
    rw [hmem x (body_within.beside hx), Machine.put_outside _ _ (by omega), hmem₁]
  generalize (s₁.put (p + 32) (s₁.regs (.x 1))).exec (body.saves (.x 0)) = s₂ at *
  rw [Machine.put_regs] at hregs hholds
  rw [← hregs] at hx0
  have hend := uservecEnd_does hx0 hp
  have hword (a : ℕ) := Machine.word_of_mem _ hend a
  have hkept (q : Reg × ℕ) (hq : q ∈ body) : s₁.regs q.1 = s.regs q.1 := by
    obtain ⟨hne, -, hne', -⟩ := body_general q hq
    exact huser _ hne hne'
  rw [hregs] at hend hword
  rw [huser (.x 30) (by decide) (by decide), huser .spEl0 (by decide) (by decide), hsp,
    huser .elr (by decide) (by decide)] at hend hword
  refine ⟨?_, ?_, ?_, ?_, ?_, ?_, fun x hx => ?_⟩
  · exact (((((hholds.congr hkept).put _ (by decide)).put _ (by decide)).put _ (by decide)).put _
      (by decide)).of_mem hend
  · rw [hword, Machine.word_put _ _ (by omega), Machine.word_put _ _ (by omega),
      Machine.word_put _ _ (by omega), Machine.word_put_self]
  · rw [hword, Machine.word_put _ _ (by omega), Machine.word_put _ _ (by omega),
      Machine.word_put_self]
  · rw [hword, Machine.word_put _ _ (by omega), Machine.word_put _ _ (by omega),
      Machine.word_put _ _ (by omega), Machine.word_put _ _ (by omega), h32]
  · rw [hword, Machine.word_put _ _ (by omega), Machine.word_put_self]
  · rw [hword, Machine.word_put_self]
  · rw [hend, Machine.put_outside _ _ (by omega), Machine.put_outside _ _ (by omega),
      Machine.put_outside _ _ (by omega), Machine.put_outside _ _ (by omega), hout x hx]

theorem takeTrap_regs {r : Reg} (helr : r ≠ .elr) (hspsr : r ≠ .spsr) (hdaif : r ≠ .daif) :
    (takeTrap c s).regs r = s.regs r := by
  unfold takeTrap
  rw [Machine.set_ne _ hdaif, Machine.set_ne _ hspsr, Machine.set_ne _ helr]

theorem takeTrap_elr : (takeTrap c s).regs .elr = advance .pc svc c s.regs .pc := by
  unfold takeTrap advance
  rw [Machine.set_ne _ (by decide), Machine.set_ne _ (by decide), Machine.set_self]
  split_ifs
  · rw [Function.update_self]
  · rfl

theorem trap_does (h : Ready p s) (hp : p + 280 ≤ 2 ^ 64) :
    (trap c s).Holds p user (advance .pc svc c s.regs) ∧
      ∀ x, x < p ∨ p + 280 ≤ x → (trap c s).mem x = s.mem x := by
  have hs : ((takeTrap c s).regs .tpidr).toNat = p := by
    rw [takeTrap_regs (by decide) (by decide) (by decide), h.tpidr]
  obtain ⟨hholds, h264, h272, h32, h24, h8, hmem⟩ := uservec_does hs hp
  refine ⟨fun q hq => ?_, fun x hx => hmem x hx⟩
  rcases List.mem_append.mp hq with hq | hq
  · obtain ⟨-, -, -, -, helr, hspsr, hdaif, hpc, -⟩ := body_general q hq
    rw [advance_of_ne hpc, ← takeTrap_regs helr hspsr hdaif]
    exact hholds q hq
  · have hregs (r : Reg) (hpc : r ≠ .pc) (helr : r ≠ .elr) (hspsr : r ≠ .spsr) (hdaif : r ≠ .daif) :
        (takeTrap c s).regs r = advance .pc svc c s.regs r := by
      rw [advance_of_ne hpc, takeTrap_regs helr hspsr hdaif]
    simp only [List.mem_cons, List.not_mem_nil, or_false] at hq
    rcases hq with rfl | rfl | rfl | rfl | rfl
    · exact h264.trans (hregs _ (by decide) (by decide) (by decide) (by decide))
    · exact h272.trans (hregs _ (by decide) (by decide) (by decide) (by decide))
    · exact h32.trans (hregs _ (by decide) (by decide) (by decide) (by decide))
    · exact h24.trans (hregs _ (by decide) (by decide) (by decide) (by decide))
    · exact h8.trans takeTrap_elr

/-! ### The way back -/

theorem restored_within : restored.Within 280 := by decide

theorem restored_nodup : restored.regs.Nodup := by decide

theorem not_restored : Reg.x 0 ∉ restored.regs ∧ Reg.tpidr ∉ restored.regs ∧
    Reg.elr ∉ restored.regs ∧ Reg.spsr ∉ restored.regs := by decide

theorem mem_restored : (Reg.x 30, 264) ∈ restored ∧ (Reg.x 1, 272) ∈ restored := by decide

theorem userret_does (hs : (s.regs (.x 0)).toNat = p) (hp : p + 280 ≤ 2 ^ 64) :
    (s.exec userret).mem = s.mem ∧
      (∀ q ∈ user, q.1 ≠ .pc → (s.exec userret).regs q.1 = s.word (p + q.2)) ∧
      (s.exec userret).regs .tpidr = s.regs (.x 0) ∧
      (s.exec userret).regs .elr = s.regs .elr ∧ (s.exec userret).regs .spsr = s.regs .spsr := by
  have hx0 : ((s.step (.move .tpidr (.x 0))).regs (.x 0)).toNat = p := by
    rw [← hs]
    rfl
  have htpidr : (s.step (.move .tpidr (.x 0))).regs .tpidr = s.regs (.x 0) := Machine.set_self _ _ _
  have helr : (s.step (.move .tpidr (.x 0))).regs .elr = s.regs .elr :=
    Machine.set_ne _ (by decide) _
  have hspsr : (s.step (.move .tpidr (.x 0))).regs .spsr = s.regs .spsr :=
    Machine.set_ne _ (by decide) _
  have hmem₁ : (s.step (.move .tpidr (.x 0))).mem = s.mem := rfl
  rw [userret, Machine.exec_cons, Machine.exec_append]
  generalize s.step (.move .tpidr (.x 0)) = s₁ at hx0 htpidr helr hspsr hmem₁ ⊢
  obtain ⟨hnx0, hntpidr, hnelr, hnspsr⟩ := not_restored
  obtain ⟨hmem, hregs, hother⟩ := Machine.restores_does hx0 hp restored_within restored_nodup hnx0
  generalize s₁.exec (restored.restores (.x 0)) = s₂ at hmem hregs hother ⊢
  rw [← hother _ hnx0] at hx0
  have hend : s₂.exec [.move .spEl0 (.x 1), .load (.x 1) 32 (.x 0), .load (.x 0) 24 (.x 0)] =
      ((s₂.set .spEl0 (s₂.regs (.x 1))).set (.x 1) (s₂.word (p + 32))).set (.x 0)
        (s₂.word (p + 24)) := by
    have hx0' : ((s₂.set .spEl0 (s₂.regs (.x 1))).regs (.x 0)).toNat = p := by
      rw [Machine.set_ne _ (by decide), hx0]
    have hx0'' : (((s₂.set .spEl0 (s₂.regs (.x 1))).set (.x 1) (s₂.word (p + 32))).regs
        (.x 0)).toNat = p := by
      rw [Machine.set_ne _ (by decide), hx0']
    have hmove : s₂.step (.move .spEl0 (.x 1)) = s₂.set .spEl0 (s₂.regs (.x 1)) := rfl
    rw [Machine.exec_cons, Machine.exec_cons, hmove, Machine.step_load _ hx0' hp (by decide),
      Machine.exec_cons, Machine.word_set, Machine.step_load _ hx0'' hp (by decide),
      Machine.word_set, Machine.word_set, Machine.exec_nil]
  have hword (a : ℕ) : s₂.word a = s.word a := Machine.word_of_mem _ (hmem.trans hmem₁) a
  rw [hend]
  refine ⟨hmem.trans hmem₁, fun q hq hpc => ?_, ?_, ?_, ?_⟩
  · rcases List.mem_append.mp hq with hq | hq
    · obtain ⟨hx0, hx1, -, hsp, -⟩ := body_general q hq
      rw [Machine.set_ne _ hx0, Machine.set_ne _ hx1, Machine.set_ne _ hsp,
        hregs q (List.mem_append_left _ hq), ← hword, Machine.word_of_mem _ hmem]
    · simp only [List.mem_cons, List.not_mem_nil, or_false] at hq
      rcases hq with rfl | rfl | rfl | rfl | rfl
      · rw [Machine.set_ne _ (by decide), Machine.set_ne _ (by decide),
          Machine.set_ne _ (by decide), hregs _ mem_restored.1, ← hword,
          Machine.word_of_mem _ hmem]
      · rw [Machine.set_ne _ (by decide), Machine.set_ne _ (by decide), Machine.set_self,
          hregs _ mem_restored.2, ← hword, Machine.word_of_mem _ hmem]
      · rw [Machine.set_ne _ (by decide), Machine.set_self, hword]
      · rw [Machine.set_self, hword]
      · exact absurd rfl hpc
  · rw [Machine.set_ne _ (by decide), Machine.set_ne _ (by decide), Machine.set_ne _ (by decide),
      hother _ hntpidr, htpidr]
  · rw [Machine.set_ne _ (by decide), Machine.set_ne _ (by decide), Machine.set_ne _ (by decide),
      hother _ hnelr, helr]
  · rw [Machine.set_ne _ (by decide), Machine.set_ne _ (by decide), Machine.set_ne _ (by decide),
      hother _ hnspsr, hspsr]

theorem prepare_mem (k t : Word) : (prepare p k t s).mem =
    ((s.put p k).put (p + 16) (s.regs .tpidr)).mem := rfl

/-- Only the stack and the `tp` of the kernel are written. -/
theorem prepare_outside (k t : Word) {x : ℕ} (h : x < p ∨ p + 8 ≤ x)
    (h' : x < p + 16 ∨ p + 24 ≤ x) :
    (prepare p k t s).mem x = s.mem x := by
  rw [prepare_mem, Machine.put_outside _ _ (by omega), Machine.put_outside _ _ (by omega)]

theorem prepare_word (k t : Word) {o : ℕ} (h : o = 8 ∨ 24 ≤ o) :
    (prepare p k t s).word (p + o) = s.word (p + o) :=
  Machine.word_congr _ fun _ _ _ => prepare_outside k t (by omega) (by omega)

theorem prepare_regs (k t : Word) : (prepare p k t s).regs .elr = s.word (p + 8) ∧
    (prepare p k t s).regs .spsr = Spsr.el0 := ⟨prepare_word k t (Or.inl rfl), rfl⟩

theorem user_from : ∀ q ∈ user, q.2 = 8 ∨ 24 ≤ q.2 := by decide

theorem user_general : ∀ q ∈ user, q.1 ≠ .daif ∧ q.1 ≠ .nzcv := by decide

theorem eret_pc (s : Machine Reg) : (eret s).regs .pc = s.regs .elr := by
  unfold eret
  rw [Machine.set_self, Machine.set_ne _ (by decide), Machine.set_ne _ (by decide)]

theorem eret_of_ne {r : Reg} (hpc : r ≠ .pc) (hdaif : r ≠ .daif) (hnzcv : r ≠ .nzcv)
    (s : Machine Reg) : (eret s).regs r = s.regs r := by
  unfold eret
  rw [Machine.set_ne _ hpc, Machine.set_ne _ hdaif, Machine.set_ne _ hnzcv]

/-- The flags and the masks are those that `spsr` holds. -/
theorem eret_spsr {s : Machine Reg} (h : s.regs .spsr = Spsr.el0) :
    (eret s).regs .daif = 0 ∧ (eret s).regs .nzcv = 0 := by
  have hzero : Spsr.el0 &&& masks = 0 ∧ (Spsr.el0 >>> 28) &&& 0xf = 0 := by decide
  unfold eret
  constructor
  · rw [Machine.set_ne _ (by decide), Machine.set_self, Machine.set_ne _ (by decide), h, hzero.1]
  · rw [Machine.set_ne _ (by decide), Machine.set_ne _ (by decide), Machine.set_self, h, hzero.2]

theorem usertrapret_does (k t : Word) (hp : p + 280 ≤ 2 ^ 64) :
    (∀ q ∈ user, (usertrapret p k t s).regs q.1 = s.word (p + q.2)) ∧
      (∀ x, x < p ∨ p + 280 ≤ x → (usertrapret p k t s).mem x = s.mem x) ∧
      Ready p (usertrapret p k t s) ∧ (usertrapret p k t s).regs .nzcv = 0 := by
  obtain ⟨helr, hspsr⟩ := prepare_regs (p := p) (s := s) k t
  have hword (o : ℕ) (ho : o = 8 ∨ 24 ≤ o) := prepare_word (p := p) (s := s) k t ho
  have hmem (x : ℕ) (hx : x < p ∨ p + 280 ≤ x) :=
    prepare_outside (p := p) (s := s) k t (by omega : x < p ∨ p + 8 ≤ x) (by omega)
  unfold usertrapret
  dsimp only
  generalize prepare p k t s = s₁ at helr hspsr hword hmem ⊢
  have hs : ((s₁.set (.x 0) (BitVec.ofNat 64 p)).regs (.x 0)).toNat = p := by
    rw [Machine.set_self, BitVec.toNat_ofNat, Nat.mod_eq_of_lt (by omega)]
  have helr₁ : (s₁.set (.x 0) (BitVec.ofNat 64 p)).regs .elr = s.word (p + 8) := by
    rw [Machine.set_ne _ (by decide), helr]
  have hspsr₁ : (s₁.set (.x 0) (BitVec.ofNat 64 p)).regs .spsr = Spsr.el0 := by
    rw [Machine.set_ne _ (by decide), hspsr]
  obtain ⟨hmem₂, hregs₂, htpidr₂, helr₂, hspsr₂⟩ := userret_does hs hp
  rw [helr₁] at helr₂
  rw [hspsr₁] at hspsr₂
  generalize (s₁.set (.x 0) (BitVec.ofNat 64 p)).exec userret = s₂ at *
  obtain ⟨hdaif, hnzcv⟩ := eret_spsr hspsr₂
  refine ⟨fun q hq => ?_, fun x hx => ?_, ⟨?_, hdaif⟩, hnzcv⟩
  · have hfrom := user_from q hq
    obtain ⟨hd, hn⟩ := user_general q hq
    by_cases hpc : q.1 = .pc
    · have he : q = (.pc, 8) := Slots.eq_of_reg user_nodup hq pc_mem hpc
      rw [he, eret_pc, helr₂]
    · rw [eret_of_ne hpc hd hn, hregs₂ q hq hpc, Machine.word_set, hword _ hfrom]
  · have hsame : (eret s₂).mem = s₁.mem := hmem₂
    rw [hsame, hmem x hx]
  · rw [eret_of_ne (by decide) (by decide) (by decide), htpidr₂, hs]

/-! ### Switches -/

theorem switched_within : switched.Within 96 := by decide

theorem switched_apart : switched.Apart := by decide

theorem switched_nodup : switched.regs.Nodup := by decide

theorem callee_general : ∀ q ∈ callee, q.1 ≠ .x 9 ∧ q.1 ≠ .sp ∧ q.1 ≠ .pc := by decide

theorem not_switched : Reg.x 1 ∉ switched.regs ∧ Reg.x 2 ∉ switched.regs ∧
    Reg.x 29 ∉ switched.regs := by decide

theorem mem_switched : (Reg.x 30, 0) ∈ switched ∧ (Reg.x 9, 8) ∈ switched := by decide

theorem kswitch_does {a b : ℕ} (ha : (s.regs (.x 1)).toNat = a) (hb : (s.regs (.x 2)).toNat = b)
    (ha' : a + 96 ≤ 2 ^ 64) (hb' : b + 96 ≤ 2 ^ 64) :
    (s.exec kswitch).Holds a kernel s.regs ∧
      (∀ x, x < a ∨ a + 96 ≤ x → (s.exec kswitch).mem x = s.mem x) ∧
      (∀ q ∈ kernel, (s.exec kswitch).regs q.1 = (s.exec kswitch).word (b + q.2)) ∧
      (s.exec kswitch).regs .pc = (s.exec kswitch).regs (.x 30) ∧
      (s.exec kswitch).regs (.x 29) = s.regs (.x 29) := by
  have hmove : s.step (.move (.x 9) .sp) = s.set (.x 9) (s.regs .sp) := rfl
  have ha₁ : ((s.set (.x 9) (s.regs .sp)).regs (.x 1)).toNat = a := by
    rw [Machine.set_ne _ (by decide), ha]
  have huser (r : Reg) (h : r ≠ .x 9) : (s.set (.x 9) (s.regs .sp)).regs r = s.regs r :=
    Machine.set_ne _ h _
  have hsp : (s.set (.x 9) (s.regs .sp)).regs (.x 9) = s.regs .sp := Machine.set_self _ _ _
  have hmem₁ : (s.set (.x 9) (s.regs .sp)).mem = s.mem := rfl
  rw [kswitch, Machine.exec_cons, Machine.exec_append, Machine.exec_append, hmove]
  generalize s.set (.x 9) (s.regs .sp) = s₁ at ha₁ huser hsp hmem₁ ⊢
  obtain ⟨hregs, hholds, hmem⟩ := Machine.saves_does ha₁ ha' switched_within switched_apart
  generalize s₁.exec (switched.saves (.x 1)) = s₂ at hregs hholds hmem ⊢
  obtain ⟨-, hn2, hn29⟩ := not_switched
  have hb₂ : (s₂.regs (.x 2)).toNat = b := by rw [hregs, huser _ (by decide), hb]
  obtain ⟨hmem₃, hregs₃, hother₃⟩ :=
    Machine.restores_does hb₂ hb' switched_within switched_nodup hn2
  generalize s₂.exec (switched.restores (.x 2)) = s₃ at hmem₃ hregs₃ hother₃ ⊢
  have hend : s₃.exec [.move .sp (.x 9), .move .pc (.x 30)] =
      (s₃.set .sp (s₃.regs (.x 9))).set .pc (s₃.regs (.x 30)) := by
    rw [← Machine.set_ne s₃ (by decide : Reg.x 30 ≠ .sp) (s₃.regs (.x 9))]
    rfl
  rw [hend]
  have hword (a : ℕ) : ((s₃.set .sp (s₃.regs (.x 9))).set .pc (s₃.regs (.x 30))).word a =
      s₂.word a := Machine.word_of_mem _ hmem₃ a
  refine ⟨fun q hq => ?_, fun x hx => ?_, fun q hq => ?_, ?_, ?_⟩
  · rw [hword]
    rcases List.mem_append.mp hq with hq | hq
    · rw [hholds q (List.mem_append_right _ hq), huser _ (callee_general q hq).1]
    · simp only [List.mem_cons, List.not_mem_nil, or_false] at hq
      rcases hq with rfl | rfl
      · rw [hholds _ mem_switched.1, huser _ (by decide)]
      · rw [← hsp]
        exact hholds _ mem_switched.2
  · rw [← hmem₁, ← hmem x (switched_within.beside hx), ← hmem₃]
    rfl
  · rw [hword]
    rcases List.mem_append.mp hq with hq | hq
    · obtain ⟨-, hsp, hpc⟩ := callee_general q hq
      rw [Machine.set_ne _ hpc, Machine.set_ne _ hsp, hregs₃ q (List.mem_append_right _ hq)]
    · simp only [List.mem_cons, List.not_mem_nil, or_false] at hq
      rcases hq with rfl | rfl
      · rw [Machine.set_ne _ (by decide), Machine.set_ne _ (by decide), hregs₃ _ mem_switched.1]
      · rw [Machine.set_ne _ (by decide), Machine.set_self, hregs₃ _ mem_switched.2]
  · rw [Machine.set_self, Machine.set_ne _ (by decide), Machine.set_ne _ (by decide)]
  · rw [Machine.set_ne _ (by decide), Machine.set_ne _ (by decide), hother₃ _ hn29, hregs,
      huser _ (by decide)]

/-! ### All of it -/

theorem x7_mem : (Reg.x 7, 80) ∈ user := by decide

theorem not_user : Reg.tpidr ∉ user.regs ∧ Reg.daif ∉ user.regs := by decide

theorem Ready.congr {s' : Machine Reg} (h : Ready p s)
    (hregs : ∀ r ∉ user.regs, r ∉ [Reg.nzcv] → s'.regs r = s.regs r) : Ready p s' := by
  obtain ⟨htpidr, hdaif⟩ := not_user
  constructor
  · rw [hregs _ htpidr (by decide), h.tpidr]
  · rw [hregs _ hdaif (by decide), h.daif]

/-- The code for AArch64. -/
def arch : Arch Reg where
  user := user
  frame := 280
  others := [.nzcv]
  kernel := kernel
  context := 96
  retval := (.x 0, 24)
  old := .x 1
  new := .x 2
  pc := (.pc, 8)
  call := svc
  trap := trap
  usertrapret := usertrapret
  kswitch s := s.exec kswitch
  Ready := Ready
  user_apart := user_apart
  user_nodup := user_nodup
  user_within := user_within
  kernel_within := kernel_within
  retval_mem := retval_mem
  pc_mem := pc_mem
  ready_congr := Ready.congr
  trap_holds h hp := (trap_does h hp).1
  trap_outside h hp := (trap_does h hp).2 _
  ret_regs hp := (usertrapret_does _ _ hp).1
  ret_outside hp := (usertrapret_does _ _ hp).2.1 _
  ret_ready hp := (usertrapret_does _ _ hp).2.2.1
  kswitch_holds ha hb ha' hb' := (kswitch_does ha hb ha' hb').1
  kswitch_outside ha hb ha' hb' := (kswitch_does ha hb ha' hb').2.1 _
  kswitch_regs ha hb ha' hb' := (kswitch_does ha hb ha' hb').2.2.1

variable {P : Type} [DecidableEq P] {proc : P → ℕ} {sched : ℕ} {as : List (Act P Reg)}
  {y : Mode P × Machine Reg}

/-- In every run of programs, traps, system calls, threads and switches, each program has the
registers that its own computations and system calls give it, but its flags are clear after each
return to it; each thread finds the registers that it left, and goes on where it left, but with the
frame pointer of the thread before it. -/
theorem run_general_registers {x : Mode P × Machine Reg} (hp : arch.Placed proc sched)
    (hr : arch.Run proc sched as x y) (hi : arch.Inv proc x) {F : P → Reg → Word}
    (hF : arch.Has proc x F) :
    arch.Inv proc y ∧ arch.Has proc y (as.foldl (fun F a => a.effect arch F) F) ∧
      (∀ bs p, as = bs ++ [.ret p] → y.2.regs .nzcv = 0) ∧
      (∀ t, (∀ a ∈ as, ¬a.Uses t) → ∀ r ∈ kernel,
        arch.threadReg proc sched y t r = arch.threadReg proc sched x t r) ∧
      ∀ bs t u, as = bs ++ [.switch t u] → y.2.regs .pc = y.2.regs (.x 30) ∧
        ∃ z, arch.Run proc sched bs x z ∧ y.2.regs (.x 29) = z.2.regs (.x 29) := by
  obtain ⟨hi', hF'⟩ := hr.has hp hi hF
  refine ⟨hi', hF', fun bs p hbs => ?_, fun t ht r hr' => hr.thread hp hi ht hr',
    fun bs t u hbs => ?_⟩
  · subst hbs
    obtain ⟨z, hz, h⟩ := hr.last
    cases h with
    | ret k pt => exact (usertrapret_does k pt (hp.frame_fits p)).2.2.2
  · subst hbs
    obtain ⟨z, hz, h⟩ := hr.last
    cases h with
    | switch hold hnew =>
      have hdoes := kswitch_does hold hnew (hp.ctx_fits t) (hp.ctx_fits u)
      exact ⟨hdoes.2.2.2.1, _, hz, hdoes.2.2.2.2⟩

/-- A program that is interrupted between a comparison and a branch. -/
theorem run_general_registers_flags : ∃ (s : Machine Reg) (y : Mode Unit × Machine Reg),
    arch.Run (fun _ => 4096) 0 [.trap () 0, .ret ()] (.user (), s) y ∧ s.regs .pc = 100 ∧
      s.regs (.x 7) = 42 ∧ s.regs .nzcv = 4 ∧ y.2.regs .pc = 100 ∧ y.2.regs (.x 7) = 42 ∧
      y.2.regs .nzcv = 0 := by
  have hplaced : arch.Placed (fun _ : Unit => 4096) 0 :=
    ⟨fun p q h => absurd rfl h, fun _ => Or.inr (by decide), fun _ => by decide, by decide⟩
  obtain ⟨s, hs⟩ : ∃ s : Machine Reg, s = ⟨fun r => if r = .tpidr then 4096 else
    if r = .nzcv then 4 else if r = .pc then 100 else if r = .x 7 then 42 else 0, fun _ => 0⟩ :=
    ⟨_, rfl⟩
  have hready : Ready 4096 s := by
    subst hs
    exact ⟨rfl, rfl⟩
  have hpc : s.regs .pc = 100 := hs ▸ rfl
  have hx7 : s.regs (.x 7) = 42 := hs ▸ rfl
  have hnzcv : s.regs .nzcv = 4 := hs ▸ rfl
  obtain ⟨y, hr, hy⟩ : ∃ y, arch.Run (fun _ => 4096) 0 [.trap () 0, .ret ()] (.user (), s) y ∧
      y.1 = .user () := ⟨_, .cons (.trap _) (.cons (.ret 0 0) .nil), rfl⟩
  have hF : arch.Has (fun _ => 4096) (.user (), s) fun _ => s.regs := fun _ _ _ => if_pos rfl
  obtain ⟨-, hhas, hflags, -⟩ := run_general_registers hplaced hr (fun _ _ => hready) hF
  have hend (q : Reg × ℕ) (hq : q ∈ user) := (if_pos hy).symm.trans (hhas () q hq)
  refine ⟨s, y, hr, hpc, hx7, hnzcv, ?_, ?_, hflags [.trap () 0] () rfl⟩
  · exact (hend _ pc_mem).trans hpc
  · exact (hend (.x 7, 80) x7_mem).trans hx7

end Multiplix.Trap.Aarch64
