import Multiplix.Trap.Contexts

/-! Traps from user programs and context switches on RISC-V. -/
namespace Multiplix.Trap.Riscv64
open Lib

inductive Reg
  | ra | sp | gp | tp | t0 | t1 | t2 | s0 | s1 | a0 | a1 | a2 | a3 | a4 | a5 | a6 | a7
  | s2 | s3 | s4 | s5 | s6 | s7 | s8 | s9 | s10 | s11 | t3 | t4 | t5 | t6
  | pc | sepc | scause | stval | stvec | sscratch | sstatus | satp
  deriving DecidableEq

/-! ### The code -/

/-- What `uservec` saves first, and `userret` restores first. -/
def saved : Slots Reg :=
  [(.ra, 32), (.sp, 40), (.gp, 48), (.tp, 56), (.t0, 64), (.t1, 72), (.t2, 80), (.s0, 88),
    (.s1, 96), (.a1, 112), (.a2, 120), (.a3, 128), (.a4, 136), (.a5, 144), (.a6, 152), (.a7, 160),
    (.s2, 168), (.s3, 176), (.s4, 184), (.s5, 192), (.s6, 200), (.s7, 208), (.s8, 216), (.s9, 224),
    (.s10, 232), (.s11, 240), (.t3, 248), (.t4, 256), (.t5, 264), (.t6, 272)]

/-- The end of `uservec`. -/
def uservecEnd : List (Insn Reg) :=
  [.move .t0 .sscratch, .store .t0 104 .a0, .load .tp 0 .a0, .load .sp 8 .a0, .load .gp 16 .a0,
    .move .t0 .sepc, .store .t0 24 .a0]

def uservec : List (Insn Reg) := .swap .a0 .sscratch :: (saved.saves .a0 ++ uservecEnd)

def userret : List (Insn Reg) := saved.restores .a0 ++ [.load .a0 104 .a0]

/-- The registers in a `Context` that are saved and restored as they are. -/
def callee : Slots Reg :=
  [(.ra, 0), (.sp, 8), (.s0, 16), (.s1, 24), (.s2, 32), (.s3, 40), (.s4, 48), (.s5, 56), (.s6, 64),
    (.s7, 72), (.s8, 80), (.s9, 88), (.s10, 96), (.s11, 104)]

def kswitch : List (Insn Reg) :=
  callee.saves .a1 ++ [.move .t0 .satp, .store .t0 112 .a1] ++
    (callee.restores .a2 ++ [.load .t0 112 .a2, .move .satp .t0, .move .pc .ra])

/-! ### The core and the handlers -/

def sie : ℕ := 1
def spie : ℕ := 5
def spp : ℕ := 8

def clear (x : Word) (bit : ℕ) : Word := x &&& ~~~(1#64 <<< bit)

def setBit (x : Word) (bit : ℕ) : Word := x ||| 1#64 <<< bit

/-- One bit of a word is as another one. -/
def moveBit (x : Word) (d r : ℕ) : Word := if x.getLsbD r then setBit x d else clear x d

def ecallU : Word := 8

/-- Where the vectors lie. -/
structure Vectors where
  uservec : Word
  kernelvec : Word

/-- The core takes a trap from a user program. -/
def takeTrap (cause : Word) (s : Machine Reg) : Machine Reg :=
  let s := s.set .sepc (s.regs .pc)
  let s := s.set .scause cause
  let s := s.set .sstatus (clear (clear (moveBit (s.regs .sstatus) spie sie) sie) spp)
  s.set .pc (s.regs .stvec)

/-- The core returns from a trap. -/
def sret (s : Machine Reg) : Machine Reg :=
  let s := s.set .sstatus (clear (setBit (moveBit (s.regs .sstatus) sie spie) spie) spp)
  s.set .pc (s.regs .sepc)

variable (v : Vectors)

/-- `usertrap`, before the handler of the trap is called. -/
def usertrap (s : Machine Reg) : Machine Reg :=
  let p := (s.regs .a0).toNat
  let s := s.set .stvec v.kernelvec
  if s.regs .scause = ecallU then s.put (p + 24) (s.regs .sepc + 4) else s

def trap (cause : Word) (s : Machine Reg) : Machine Reg :=
  let s := takeTrap cause s
  if s.regs .pc = v.uservec then usertrap v (s.exec uservec) else s

/-- `usertrapret`, before it calls `userret`. -/
def prepare (p : ℕ) (kstackp satp : Word) (s : Machine Reg) : Machine Reg :=
  let s := s.set .sstatus (clear (s.regs .sstatus) sie)
  let s := s.set .stvec v.uservec
  let s := s.put p (s.regs .tp)
  let s := s.put (p + 8) kstackp
  let s := s.put (p + 16) (s.regs .gp)
  let s := s.set .sscratch (BitVec.ofNat 64 p)
  let s := s.set .sstatus (clear (s.regs .sstatus) spp)
  let s := s.set .sstatus (setBit (s.regs .sstatus) spie)
  let s := s.set .sepc (s.word (p + 24))
  s.set .satp satp

def usertrapret (p : ℕ) (kstackp satp : Word) (s : Machine Reg) : Machine Reg :=
  let s := prepare v p kstackp satp s
  sret ((s.set .a0 (BitVec.ofNat 64 p)).exec userret)

/-- The next trap is taken by `uservec`, which finds the process, and interrupts are enabled. -/
structure Ready (p : ℕ) (s : Machine Reg) : Prop where
  sscratch : (s.regs .sscratch).toNat = p
  stvec : s.regs .stvec = v.uservec
  sie : (s.regs .sstatus).getLsbD sie = true

/-- Where the registers of a user program are in its trapframe. -/
def user : Slots Reg := saved ++ [(.a0, 104), (.pc, 24)]

/-- Where the registers of a thread are in its `Context`. -/
def kernel : Slots Reg := callee ++ [(.satp, 112)]

/-! ### What the code does -/

variable {v} {s : Machine Reg} {p : ℕ}

theorem saved_within : saved.Within 280 := by decide

theorem saved_apart : saved.Apart := by decide

theorem saved_nodup : saved.regs.Nodup := by decide

theorem a0_not_saved : Reg.a0 ∉ saved.regs := by decide

/-- What is saved is not among the other registers that are used. -/
theorem saved_general : ∀ q ∈ saved, q.1 ≠ .a0 ∧ q.1 ≠ .sscratch ∧ q.1 ≠ .sepc ∧ q.1 ≠ .scause ∧
    q.1 ≠ .sstatus ∧ q.1 ≠ .pc ∧ q.1 ≠ .stvec ∧ q.1 ≠ .satp := by decide

theorem not_saved : Reg.sepc ∉ saved.regs ∧ Reg.sscratch ∉ saved.regs ∧ Reg.stvec ∉ saved.regs ∧
    Reg.sstatus ∉ saved.regs := by decide

theorem saved_from : ∀ q ∈ saved, 32 ≤ q.2 := by decide

theorem uservecEnd_does (hs : (s.regs .a0).toNat = p) (hp : p + 280 ≤ 2 ^ 64) :
    (s.exec uservecEnd).regs .a0 = s.regs .a0 ∧ (s.exec uservecEnd).regs .sepc = s.regs .sepc ∧
      (s.exec uservecEnd).regs .scause = s.regs .scause ∧ (s.exec uservecEnd).mem =
        ((s.put (p + 104) (s.regs .sscratch)).put (p + 24) (s.regs .sepc)).mem := by
  rw [← Machine.addr_eq hs hp (by decide), ← Machine.addr_eq hs hp (by decide)]
  exact ⟨rfl, rfl, rfl, rfl⟩

theorem uservec_does (hs : (s.regs .sscratch).toNat = p) (hp : p + 280 ≤ 2 ^ 64) :
    ((s.exec uservec).regs .a0).toNat = p ∧ (s.exec uservec).regs .sepc = s.regs .sepc ∧
      (s.exec uservec).regs .scause = s.regs .scause ∧
      (s.exec uservec).Holds p saved s.regs ∧ (s.exec uservec).word (p + 104) = s.regs .a0 ∧
      (s.exec uservec).word (p + 24) = s.regs .sepc ∧
      ∀ x, x < p ∨ p + 280 ≤ x → (s.exec uservec).mem x = s.mem x := by
  have hb : ((s.step (.swap .a0 .sscratch)).regs .a0).toNat = p := hs
  have huser (r : Reg) (h : r ≠ .a0) (h' : r ≠ .sscratch) :
      (s.step (.swap .a0 .sscratch)).regs r = s.regs r :=
    (Machine.set_ne _ h' _).trans (Machine.set_ne _ h _)
  have ha0 : (s.step (.swap .a0 .sscratch)).regs .sscratch = s.regs .a0 := Machine.set_self _ _ _
  have hmem₁ : (s.step (.swap .a0 .sscratch)).mem = s.mem := rfl
  rw [uservec, Machine.exec_cons, Machine.exec_append]
  generalize s.step (.swap .a0 .sscratch) = s₁ at hb huser ha0 hmem₁ ⊢
  obtain ⟨hregs, hholds, hmem⟩ := Machine.saves_does hb hp saved_within saved_apart
  generalize s₁.exec (saved.saves .a0) = s₂ at hregs hholds hmem ⊢
  rw [← hregs] at hb
  obtain ⟨h₁, h₂, h₃, hend⟩ := uservecEnd_does hb hp
  have hword (a : ℕ) := Machine.word_of_mem _ hend a
  refine ⟨h₁ ▸ hb, ?_, ?_, ?_, ?_, ?_, fun x hx => ?_⟩
  · rw [h₂, hregs]
    exact huser _ (by decide) (by decide)
  · rw [h₃, hregs]
    exact huser _ (by decide) (by decide)
  · have hkept (q : Reg × ℕ) (hq : q ∈ saved) : s₂.regs q.1 = s.regs q.1 := by
      obtain ⟨hne, hne', -⟩ := saved_general q hq
      rw [hregs]
      exact huser _ hne hne'
    rw [← hregs] at hholds
    exact (((hholds.congr hkept).put _ (by decide)).put _ (by decide)).of_mem hend
  · rw [hword, Machine.word_put _ _ (by omega), Machine.word_put_self, hregs, ha0]
  · rw [hword, Machine.word_put_self, hregs]
    exact huser _ (by decide) (by decide)
  · rw [hend, Machine.put_outside _ _ (by omega), Machine.put_outside _ _ (by omega),
      hmem x (saved_within.beside hx), hmem₁]

variable {c : Word}

theorem takeTrap_saved {q : Reg × ℕ} (hq : q ∈ saved) :
    (takeTrap c s).regs q.1 = s.regs q.1 := by
  obtain ⟨-, -, hsepc, hscause, hsstatus, hpc, -, -⟩ := saved_general q hq
  unfold takeTrap
  rw [Machine.set_ne _ hpc, Machine.set_ne _ hsstatus, Machine.set_ne _ hscause,
    Machine.set_ne _ hsepc]

/-- The memory once the trap is known. -/
theorem usertrap_mem (hs : (s.regs .a0).toNat = p) : (usertrap v s).mem =
    (if s.regs .scause = ecallU then s.put (p + 24) (s.regs .sepc + 4) else s).mem := by
  subst hs
  unfold usertrap
  dsimp only
  have hset : (s.set .stvec v.kernelvec).regs .scause = s.regs .scause :=
    Machine.set_ne _ (by decide) _
  rw [hset]
  split_ifs
  · rfl
  · rfl

theorem trap_does (h : Ready v p s) (hp : p + 280 ≤ 2 ^ 64) :
    (trap v c s).Holds p user (advance .pc ecallU c s.regs) ∧
      ∀ x, x < p ∨ p + 280 ≤ x → (trap v c s).mem x = s.mem x := by
  have hpc : (takeTrap c s).regs .pc = v.uservec := h.stvec
  have hs : ((takeTrap c s).regs .sscratch).toNat = p := h.sscratch
  have hcause : (takeTrap c s).regs .scause = c := rfl
  have hfrom : (takeTrap c s).regs .sepc = s.regs .pc := rfl
  obtain ⟨ha, hsepc, hscause, hholds, ha0, h24, hmem⟩ := uservec_does hs hp
  have hout := usertrap_mem (v := v) ha
  rw [hsepc, hscause, hcause, hfrom] at hout
  rw [hfrom] at h24
  have hword (a : ℕ) := Machine.word_of_mem _ hout a
  have htrap : trap v c s = usertrap v ((takeTrap c s).exec uservec) := if_pos hpc
  rw [htrap]
  generalize (takeTrap c s).exec uservec = s₁ at hout hword hholds ha0 h24 hmem ⊢
  have hrest (o : ℕ) (ho : 32 ≤ o) : (usertrap v s₁).word (p + o) = s₁.word (p + o) := by
    rw [hword]
    split_ifs
    · exact Machine.word_put _ _ (by omega)
    · rfl
  have hepc : (usertrap v s₁).word (p + 24) = advance .pc ecallU c s.regs .pc := by
    unfold advance
    rw [hword]
    split_ifs
    · rw [Machine.word_put_self, Function.update_self]
    · exact h24
  refine ⟨fun q hq => ?_, fun x hx => ?_⟩
  · rcases List.mem_append.mp hq with hq | hq
    · obtain ⟨-, -, -, -, -, hne, -, -⟩ := saved_general q hq
      rw [hrest _ (saved_from q hq), hholds q hq, takeTrap_saved hq, advance_of_ne hne]
    · rcases List.mem_cons.mp hq with rfl | hq
      · rw [hrest _ (by decide), ha0, advance_of_ne (by decide)]
        rfl
      · rw [List.mem_singleton.mp hq, hepc]
  · have hsame : (takeTrap c s).mem x = s.mem x := rfl
    rw [hout, ← hsame, ← hmem x hx]
    split_ifs
    · exact Machine.put_outside _ _ (by omega)
    · rfl

/-! ### The way back -/

theorem userret_does {p : ℕ} (hs : (s.regs .a0).toNat = p) (hp : p + 280 ≤ 2 ^ 64) :
    (s.exec userret).mem = s.mem ∧ (∀ q ∈ saved, (s.exec userret).regs q.1 = s.word (p + q.2)) ∧
      (s.exec userret).regs .a0 = s.word (p + 104) ∧
      ∀ r ∉ saved.regs, r ≠ .a0 → (s.exec userret).regs r = s.regs r := by
  obtain ⟨hmem, hregs, hother⟩ := Machine.restores_does hs hp saved_within saved_nodup a0_not_saved
  have ha : ((s.exec (saved.restores .a0)).regs .a0).toNat = p := by
    rw [hother _ a0_not_saved, hs]
  have hexec : s.exec userret =
      (s.exec (saved.restores .a0)).set .a0 ((s.exec (saved.restores .a0)).word (p + 104)) := by
    rw [userret, Machine.exec_append, Machine.exec_cons, Machine.exec_nil,
      Machine.step_load _ ha hp (by decide)]
  rw [hexec]
  refine ⟨hmem, fun q hq => ?_, ?_, fun r hr hne => ?_⟩
  · rw [Machine.set_ne _ (saved_general q hq).1, hregs q hq]
  · rw [Machine.set_self, Machine.word_of_mem _ hmem]
  · rw [Machine.set_ne _ hne, hother r hr]

theorem prepare_mem (k t : Word) : (prepare v p k t s).mem =
    (((s.put p (s.regs .tp)).put (p + 8) k).put (p + 16) (s.regs .gp)).mem := rfl

theorem prepare_outside (k t : Word) {x : ℕ} (h : x < p ∨ p + 24 ≤ x) :
    (prepare v p k t s).mem x = s.mem x := by
  rw [prepare_mem, Machine.put_outside _ _ (by omega), Machine.put_outside _ _ (by omega),
    Machine.put_outside _ _ (by omega)]

theorem prepare_word (k t : Word) {o : ℕ} (h : 24 ≤ o) :
    (prepare v p k t s).word (p + o) = s.word (p + o) :=
  Machine.word_congr _ fun _ _ _ => prepare_outside k t (by omega)

theorem prepare_sepc (k t : Word) : (prepare v p k t s).regs .sepc = s.word (p + 24) :=
  prepare_word (v := v) k t le_rfl

theorem prepare_regs (k t : Word) : (prepare v p k t s).regs .sscratch = BitVec.ofNat 64 p ∧
    (prepare v p k t s).regs .stvec = v.uservec ∧ (prepare v p k t s).regs .sstatus =
      setBit (clear (clear (s.regs .sstatus) sie) spp) spie := ⟨rfl, rfl, rfl⟩

theorem toNat_addr (hp : p + 280 ≤ 2 ^ 64) : (BitVec.ofNat 64 p).toNat = p := by
  rw [BitVec.toNat_ofNat, Nat.mod_eq_of_lt (by omega)]

theorem getLsbD_sstatus (x : Word) :
    (clear (setBit (moveBit (setBit x spie) sie spie) spie) spp).getLsbD sie = true := by
  unfold moveBit
  have hset : (setBit x spie).getLsbD spie = true := by simp [setBit, spie]
  rw [if_pos hset]
  simp [clear, setBit, sie, spie, spp]

theorem sret_sstatus (s : Machine Reg) : (sret s).regs .sstatus =
    clear (setBit (moveBit (s.regs .sstatus) sie spie) spie) spp := rfl

theorem sret_pc (s : Machine Reg) : (sret s).regs .pc = s.regs .sepc :=
  (Machine.set_self _ _ _).trans (Machine.set_ne _ (by decide) _)

theorem sret_of_ne {r : Reg} (hpc : r ≠ .pc) (hst : r ≠ .sstatus) (s : Machine Reg) :
    (sret s).regs r = s.regs r := (Machine.set_ne _ hpc _).trans (Machine.set_ne _ hst _)

theorem usertrapret_does (k t : Word) (hp : p + 280 ≤ 2 ^ 64) :
    (∀ q ∈ user, (usertrapret v p k t s).regs q.1 = s.word (p + q.2)) ∧
      (∀ x, x < p ∨ p + 280 ≤ x → (usertrapret v p k t s).mem x = s.mem x) ∧
      Ready v p (usertrapret v p k t s) := by
  have hsepc := prepare_sepc (v := v) (p := p) (s := s) k t
  obtain ⟨hscratch, hstvec, hsstatus⟩ := prepare_regs (v := v) (p := p) (s := s) k t
  obtain ⟨hsepc', hscratch', hstvec', hsstatus'⟩ := not_saved
  have hword (o : ℕ) (ho : 24 ≤ o) := prepare_word (v := v) (p := p) (s := s) k t ho
  have hmem (x : ℕ) (hx : x < p ∨ p + 24 ≤ x) := prepare_outside (v := v) (p := p) (s := s) k t hx
  unfold usertrapret
  dsimp only
  generalize prepare v p k t s = s₁ at hsepc hscratch hstvec hsstatus hword hmem ⊢
  have hs : ((s₁.set .a0 (BitVec.ofNat 64 p)).regs .a0).toNat = p := by
    rw [Machine.set_self, toNat_addr hp]
  obtain ⟨hmem₂, hregs₂, ha0₂, hother₂⟩ := userret_does hs hp
  have hkept (r : Reg) (hr : r ∉ saved.regs) (hne : r ≠ .a0) :
      ((s₁.set .a0 (BitVec.ofNat 64 p)).exec userret).regs r = s₁.regs r := by
    rw [hother₂ r hr hne, Machine.set_ne _ hne]
  generalize (s₁.set .a0 (BitVec.ofNat 64 p)).exec userret = s₂ at hmem₂ hregs₂ ha0₂ hkept ⊢
  refine ⟨fun q hq => ?_, fun x hx => ?_, ?_, ?_, ?_⟩
  · rcases List.mem_append.mp hq with hq | hq
    · obtain ⟨-, -, -, -, hst, hpc, -, -⟩ := saved_general q hq
      have hfrom := saved_from q hq
      rw [sret_of_ne hpc hst, hregs₂ q hq, Machine.word_set, hword _ (by omega)]
    · rcases List.mem_cons.mp hq with rfl | hq
      · rw [sret_of_ne (by decide) (by decide), ha0₂, Machine.word_set, hword _ (by decide)]
      · rw [List.mem_singleton.mp hq, sret_pc, hkept _ hsepc' (by decide), hsepc]
  · have hsame : (sret s₂).mem = s₁.mem := hmem₂
    rw [hsame, hmem x (by omega)]
  · rw [sret_of_ne (by decide) (by decide), hkept _ hscratch' (by decide), hscratch,
      toNat_addr hp]
  · rw [sret_of_ne (by decide) (by decide), hkept _ hstvec' (by decide), hstvec]
  · rw [sret_sstatus, hkept _ hsstatus' (by decide), hsstatus, getLsbD_sstatus]

/-! ### Switches -/

theorem callee_within : callee.Within 120 := by decide

theorem callee_apart : callee.Apart := by decide

theorem callee_nodup : callee.regs.Nodup := by decide

theorem callee_general : ∀ q ∈ callee, q.1 ≠ .t0 ∧ q.1 ≠ .satp ∧ q.1 ≠ .pc ∧ q.2 + 8 ≤ 112 := by
  decide

theorem kswitch_does {a b : ℕ} (ha : (s.regs .a1).toNat = a) (hb : (s.regs .a2).toNat = b)
    (ha' : a + 120 ≤ 2 ^ 64) (hb' : b + 120 ≤ 2 ^ 64) :
    (s.exec kswitch).Holds a kernel s.regs ∧
      (∀ x, x < a ∨ a + 120 ≤ x → (s.exec kswitch).mem x = s.mem x) ∧
      (∀ q ∈ kernel, (s.exec kswitch).regs q.1 = (s.exec kswitch).word (b + q.2)) ∧
      (s.exec kswitch).regs .pc = (s.exec kswitch).regs .ra := by
  obtain ⟨hregs, hholds, hmem⟩ := Machine.saves_does ha ha' callee_within callee_apart
  unfold kswitch
  rw [Machine.exec_append, Machine.exec_append, Machine.exec_append]
  generalize s.exec (callee.saves .a1) = s₁ at hregs hholds hmem ⊢
  have hput : s₁.exec [.move .t0 .satp, .store .t0 112 .a1] =
      (s₁.set .t0 (s.regs .satp)).put (a + 112) (s.regs .satp) := by
    rw [← hregs] at ha ⊢
    exact Machine.step_store _ ha ha' (by decide)
  rw [hput]
  have hb₂ : (((s₁.set .t0 (s.regs .satp)).put (a + 112) (s.regs .satp)).regs .a2).toNat = b := by
    rw [Machine.put_regs, Machine.set_ne _ (by decide), hregs, hb]
  have ha₂ : ((s₁.set .t0 (s.regs .satp)).put (a + 112) (s.regs .satp)).Holds a kernel s.regs := by
    apply Machine.Holds.append
    · exact Machine.Holds.put (hholds.of_mem rfl) _ fun q hq => Or.inl (callee_general q hq).2.2.2
    · intro q hq
      rw [List.mem_singleton.mp hq, Machine.word_put_self]
  have hmem₂ (x : ℕ) (hx : x < a ∨ a + 120 ≤ x) :
      ((s₁.set .t0 (s.regs .satp)).put (a + 112) (s.regs .satp)).mem x = s.mem x := by
    rw [Machine.put_outside _ _ (by omega), ← hmem x (callee_within.beside hx)]
    rfl
  generalize (s₁.set .t0 (s.regs .satp)).put (a + 112) (s.regs .satp) = s₂ at hb₂ ha₂ hmem₂ ⊢
  obtain ⟨hmem₃, hregs₃, hother₃⟩ :=
    Machine.restores_does hb₂ hb' callee_within callee_nodup (by decide)
  generalize s₂.exec (callee.restores .a2) = s₃ at hmem₃ hregs₃ hother₃ ⊢
  have hb₃ : (s₃.regs .a2).toNat = b := by rw [hother₃ _ (by decide), hb₂]
  have hend : s₃.exec [.load .t0 112 .a2, .move .satp .t0, .move .pc .ra] =
      ((s₃.set .t0 (s₃.word (b + 112))).set .satp (s₃.word (b + 112))).set .pc (s₃.regs .ra) := by
    rw [Machine.exec_cons, Machine.step_load _ hb₃ hb' (by decide)]
    rfl
  rw [hend]
  refine ⟨ha₂.of_mem hmem₃, fun x hx => ?_, fun q hq => ?_, ?_⟩
  · rw [← hmem₂ x hx, ← hmem₃]
    rfl
  · have hword : (((s₃.set .t0 (s₃.word (b + 112))).set .satp (s₃.word (b + 112))).set .pc
        (s₃.regs .ra)).word (b + q.2) = s₃.word (b + q.2) := rfl
    rw [hword]
    rcases List.mem_append.mp hq with hq | hq
    · obtain ⟨ht, hsatp, hpc, -⟩ := callee_general q hq
      rw [Machine.set_ne _ hpc, Machine.set_ne _ hsatp, Machine.set_ne _ ht, hregs₃ q hq,
        Machine.word_of_mem _ hmem₃]
    · rw [List.mem_singleton.mp hq, Machine.set_ne _ (by decide), Machine.set_self]
  · rw [Machine.set_self, Machine.set_ne _ (by decide), Machine.set_ne _ (by decide),
      Machine.set_ne _ (by decide)]

/-! ### All of it -/

theorem user_apart : user.Apart := by decide

theorem user_nodup : user.regs.Nodup := by decide

theorem user_within : user.Within 280 := by decide

theorem kernel_within : kernel.Within 120 := by decide

theorem retval_mem : (Reg.a0, 104) ∈ user := by decide

theorem pc_mem : (Reg.pc, 24) ∈ user := by decide

theorem s0_mem : (Reg.s0, 88) ∈ user := by decide

theorem not_user : Reg.sscratch ∉ user.regs ∧ Reg.stvec ∉ user.regs ∧ Reg.sstatus ∉ user.regs := by
  decide

theorem Ready.congr {s' : Machine Reg} (h : Ready v p s)
    (hregs : ∀ r ∉ user.regs, r ∉ [] → s'.regs r = s.regs r) : Ready v p s' := by
  obtain ⟨hscratch, hstvec, hsstatus⟩ := not_user
  refine ⟨?_, ?_, ?_⟩
  · rw [hregs _ hscratch List.not_mem_nil, h.sscratch]
  · rw [hregs _ hstvec List.not_mem_nil, h.stvec]
  · rw [hregs _ hsstatus List.not_mem_nil, h.sie]

variable (v) in
/-- The code for RISC-V. -/
def arch : Arch Reg where
  user := user
  frame := 280
  others := []
  kernel := kernel
  context := 120
  retval := (.a0, 104)
  old := .a1
  new := .a2
  pc := (.pc, 24)
  call := ecallU
  trap := trap v
  usertrapret := usertrapret v
  kswitch s := s.exec kswitch
  Ready := Ready v
  user_apart := user_apart
  user_nodup := user_nodup
  user_within := user_within
  kernel_within := kernel_within
  retval_mem := retval_mem
  pc_mem := pc_mem
  ready_congr := Ready.congr
  trap_holds h hp := (trap_does h hp).1
  trap_outside h hp := (trap_does h hp).2 _
  ret_regs hp := (usertrapret_does _ _ hp).1
  ret_outside hp := (usertrapret_does _ _ hp).2.1 _
  ret_ready hp := (usertrapret_does _ _ hp).2.2
  kswitch_holds ha hb ha' hb' := (kswitch_does ha hb ha' hb').1
  kswitch_outside ha hb ha' hb' := (kswitch_does ha hb ha' hb').2.1 _
  kswitch_regs ha hb ha' hb' := (kswitch_does ha hb ha' hb').2.2.1

variable {P : Type} [DecidableEq P] {proc : P → ℕ} {sched : ℕ} {as : List (Act P Reg)}
  {x y : Mode P × Machine Reg}

/-- In every run of programs, traps, system calls, threads and switches, each program has the
registers that its own computations and system calls give it; each thread finds the registers that
it left, and goes on where it left. -/
theorem run_registers (hp : (arch v).Placed proc sched) (hr : (arch v).Run proc sched as x y)
    (hi : (arch v).Inv proc x) {F : P → Reg → Word} (hF : (arch v).Has proc x F) :
    (arch v).Inv proc y ∧ (arch v).Has proc y (as.foldl (fun F a => a.effect (arch v) F) F) ∧
      (∀ t, (∀ a ∈ as, ¬a.Uses t) → ∀ r ∈ kernel,
        (arch v).threadReg proc sched y t r = (arch v).threadReg proc sched x t r) ∧
      ∀ bs t u, as = bs ++ [.switch t u] → y.2.regs .pc = y.2.regs .ra := by
  obtain ⟨hi', hF'⟩ := hr.has hp hi hF
  refine ⟨hi', hF', fun t ht r hr' => hr.thread hp hi ht hr', fun bs t u hbs => ?_⟩
  subst hbs
  obtain ⟨z, hz, h⟩ := hr.last
  cases h with
  | switch hold hnew => exact (kswitch_does hold hnew (hp.ctx_fits t) (hp.ctx_fits u)).2.2.2

/-- A program whose system call gives 7. -/
theorem run_registers_call : ∃ (s : Machine Reg) (y : Mode Unit × Machine Reg),
    (arch ⟨1, 2⟩).Run (fun _ => 4096) 0 [.trap () ecallU, .result () 7, .ret ()] (.user (), s) y ∧
      s.regs .pc = 100 ∧ s.regs .s0 = 42 ∧ y.2.regs .a0 = 7 ∧ y.2.regs .pc = 104 ∧
      y.2.regs .s0 = 42 := by
  have hplaced : (arch ⟨1, 2⟩).Placed (fun _ : Unit => 4096) 0 :=
    ⟨fun p q h => absurd rfl h, fun _ => Or.inr (by decide), fun _ => by decide, by decide⟩
  obtain ⟨s, hs⟩ : ∃ s : Machine Reg, s = ⟨fun r => if r = .sscratch then 4096 else
    if r = .stvec then 1 else if r = .sstatus then 2 else if r = .pc then 100 else
    if r = .s0 then 42 else 0, fun _ => 0⟩ := ⟨_, rfl⟩
  have hready : Ready ⟨1, 2⟩ 4096 s := by
    subst hs
    exact ⟨rfl, rfl, rfl⟩
  have hpc : s.regs .pc = 100 := hs ▸ rfl
  have hs0 : s.regs .s0 = 42 := hs ▸ rfl
  obtain ⟨y, hr, hy⟩ : ∃ y, (arch ⟨1, 2⟩).Run (fun _ => 4096) 0
      [.trap () ecallU, .result () 7, .ret ()] (.user (), s) y ∧ y.1 = .user () :=
    ⟨_, .cons (.trap _) (.cons (.result _ _) (.cons (.ret 0 0) .nil)), rfl⟩
  have hF : (arch ⟨1, 2⟩).Has (fun _ => 4096) (.user (), s) fun _ => s.regs :=
    fun _ _ _ => if_pos rfl
  obtain ⟨-, hhas, -⟩ := run_registers hplaced hr (fun _ _ => hready) hF
  have hend (q : Reg × ℕ) (hq : q ∈ user) := (if_pos hy).symm.trans (hhas () q hq)
  refine ⟨s, y, hr, hpc, hs0, ?_, ?_, ?_⟩
  · exact hend _ retval_mem
  · exact (hend _ pc_mem).trans (congrArg (· + 4) hpc)
  · exact (hend (.s0, 88) s0_mem).trans hs0

end Multiplix.Trap.Riscv64
