import Multiplix.Proc.PageLocks
import Multiplix.Sched.Effects

/-! Processes that are scheduled, on the machine with the locks of its pages. A process that waits
for memory in the fault handler keeps the lock of the page that it is about to copy. -/
namespace Multiplix.Sched
open Lib.Spinlock Vm
open Multiplix.Proc (Machine Platform FaultType Handled PageM pagesize)
open Multiplix.Proc.Locking (Apart Copies Outcome copyPage destroy makeFromParent pgfltHandler)

/-- Why the kernel does not go on. -/
inductive Halt
  | stop (x : Stop)
  /-- With interrupts off, process `p` waits for the lock of a page. -/
  | spins (p : Addr) (pn : ℕ)
  deriving DecidableEq

/-- `waiting` has the local variables of a process that waits in the fault handler: the mapping and
the number of the page. -/
structure PagedSystem where
  system : System
  machine : Machine
  pt : Addr → ℕ
  waiting : Addr → VaMapping × ℕ
  holders : Holders ℕ Addr

/-- What happens next. A fork makes the child at the address `a`, if there is memory for it. -/
inductive PagedEvent
  | pick (now : BitVec 64)
  | tick
  | fork (a : Addr)
  | wait
  | usleep (us start now : BitVec 64)
  | exit
  | fault (addr : ℕ) (kind : FaultType)

/-! ### Processes that wait for memory -/

/-- No process waits for memory. -/
def Kernel.Calm (k : Kernel) : Prop := ∀ a, (k.core a).context ≠ .memory

namespace Kernel.Calm

variable {k k' : Kernel} {n : QueueName} {p : Addr}

theorem congr (h : k.Calm) (hk : k'.core = k.core) : k'.Calm := by
  unfold Calm
  rw [hk]
  exact h

theorem update (h : k.Calm) {y : Proc} (hk : k'.core = Function.update k.core p y)
    (hy : y.context ≠ .memory) : k'.Calm := by
  intro a
  rw [hk]
  by_cases ha : a = p
  · rw [ha, Function.update_self]
    exact hy
  · rw [Function.update_of_ne ha]
    exact h a

theorem setProc (h : k.Calm) {f : Proc → Proc} (hf : ∀ x, (f x).context = x.context) :
    (k.setProc p f).Calm := by
  apply h.update core_setProc
  have hctx : (f (k.proc p)).core.context = (k.core p).context := hf (k.proc p)
  rw [hctx]
  exact h p

theorem rests (h : k.Calm) (hk : ∀ a, Rests (k.core a) (k'.core a)) : k'.Calm := by
  intro a
  rw [(hk a).context]
  exact h a

end Kernel.Calm

namespace System

variable {b : Board} {s s' : System} {p : Addr} {n : QueueName} {r : Resume} {e : Event}
  (h : s.kernel.Calm)

include h

theorem calm_ret (v : BitVec 64) : (s.ret p v).kernel.Calm := h.update (core_ret v) (h p)

theorem calm_suspend (hr : r ≠ .memory) : (s.suspend p n r).kernel.Calm :=
  h.update core_suspend hr

theorem calm_waitLoop : (s.waitLoop p).kernel.Calm := by
  unfold waitLoop
  cases s.kernel.findZombie p (addrSpace + 1) (s.kernel.queue .exitQueue).front with
  | none => exact calm_suspend h (by decide)
  | some z =>
    apply calm_ret
    have hremove : (s.kernel.remove .exitQueue z).Calm := h.congr Kernel.core_remove
    have hcount := hremove.setProc (p := p) (f := fun x => { x with children := x.children - 1 })
      fun _ => rfl
    exact hcount

theorem calm_makeEmpty (a : Addr) : (s.makeEmpty a).kernel.Calm := by
  have hcore : (s.makeEmpty a).kernel.core =
      Function.update s.kernel.core a ({ Proc.init with pid := s.nextPid } : Proc).core :=
    Kernel.core_setProc (f := fun _ => { Proc.init with pid := s.nextPid })
  exact h.update hcore Resume.noConfusion

theorem calm_sysFork (o : Option Addr) (mapped : Bool) : (s.sysFork p o mapped).kernel.Calm := by
  cases o with
  | none => exact calm_ret h _
  | some a =>
    have hmade := calm_makeEmpty h a
    unfold sysFork
    dsimp only
    split_ifs
    · exact calm_ret hmade _
    · apply calm_ret
      have hparent : ((s.makeEmpty a).makeFromParent p a).kernel.Calm :=
        hmade.setProc (f := fun x =>
          { x with parent := some p, retval := ((s.makeEmpty a).kernel.proc p).retval })
        fun _ => rfl
      have hchild := hparent.setProc (p := a) (f := fun x => { x with retval := 0 }) fun _ => rfl
      have hcount := hchild.setProc (p := p) (f := fun x => { x with children := x.children + 1 })
        fun _ => rfl
      exact hcount.congr Kernel.core_pushFront

theorem calm_sysExit (he : s.sysExit p = .ok s') : s'.kernel.Calm := by
  unfold sysExit at he
  cases hk : s.wakeParent p with
  | error x =>
    rw [hk] at he
    cases he
  | ok k =>
    rw [hk] at he
    cases he
    have hrests := h.rests (wakeParent_rests hk)
    have hexit : (k.exit p .exitQueue).Calm := hrests.update Kernel.core_wait (hrests p)
    exact hexit.update (core_yield (s := { s with kernel := k.exit p .exitQueue }))
      Resume.noConfusion

theorem calm_usleepLoop (freq start us now : BitVec 64) :
    (s.usleepLoop p freq start us now).kernel.Calm := by
  unfold usleepLoop
  split_ifs
  · exact calm_ret h _
  · exact calm_suspend h (by simp)

theorem calm_resume {freq now : BitVec 64} {mem : Bool} (he : s.resume p freq now mem = .ok s') :
    s'.kernel.Calm := by
  have hp : (s.kernel.proc p).context ≠ .memory := h p
  unfold resume at he
  cases hc : (s.kernel.proc p).context with
  | memory => exact absurd hc hp
  | exit =>
    rw [hc] at he
    cases he
  | user =>
    rw [hc] at he
    cases he
    exact h
  | wait =>
    rw [hc] at he
    cases he
    exact calm_waitLoop h
  | usleep start us =>
    rw [hc] at he
    cases he
    exact calm_usleepLoop h _ _ _ _

/-- No process comes to wait for memory, unless there is none for a copy. -/
theorem calm_exec (hcopy : e ≠ .copy false) (he : s.exec b e = .ok s') : s'.kernel.Calm := by
  unfold System.exec at he
  cases hc : s.control with
  | scheduler =>
    rw [hc] at he
    cases e with
    | pick now mem =>
      change s.pick b.mtimeFreq now mem = .ok s' at he
      unfold pick Kernel.popBack at he
      cases hback : (s.kernel.queue .runq).back with
      | none =>
        rw [hback] at he
        cases he
        exact h
      | some p =>
        rw [hback] at he
        exact calm_resume (s := { s with kernel := s.kernel.remove .runq p, control := .user p })
          (h.congr Kernel.core_remove) he
    | tick =>
      unfold schedule at he
      dsimp only at he
      split_ifs at he
      cases hk : s.kernel.irqHandler with
      | error x =>
        rw [hk] at he
        cases he
      | ok k =>
        rw [hk] at he
        cases he
        exact h.rests (Kernel.irqHandler_rests hk)
    | _ => cases he
  | user p =>
    rw [hc] at he
    cases e with
    | tick =>
      unfold user at he
      dsimp only at he
      cases hk : s.kernel.irqHandler with
      | error x =>
        rw [hk] at he
        cases he
      | ok k =>
        rw [hk] at he
        cases he
        have hrests := h.rests (Kernel.irqHandler_rests hk)
        exact hrests.update (core_yield (s := { s with kernel := k })) Resume.noConfusion
    | fork a mapped =>
      unfold user at he
      dsimp only at he
      split_ifs at he
      cases he
      exact calm_sysFork h a mapped
    | wait =>
      unfold user at he
      cases he
      unfold sysWait
      split_ifs
      · exact calm_ret h _
      · exact calm_waitLoop h
    | usleep us start now =>
      unfold user at he
      cases he
      exact calm_usleepLoop h _ _ _ _
    | exit => exact calm_sysExit h he
    | kill => exact calm_sysExit h he
    | copy mem =>
      cases mem with
      | false => exact absurd rfl hcopy
      | true =>
        unfold user at he
        cases he
        exact h
    | pick now mem => cases he

end System

namespace PagedSystem

/-- The first process, which `kmain` makes. -/
def boot (a : Addr) (pt : ℕ) (m : Machine) : PagedSystem where
  system := .boot a
  machine := m
  pt _ := pt
  waiting _ := (⟨(0, 0), 0, 0⟩, 0)
  holders := free

variable (P : Platform) (b : Board)

def advance (s : PagedSystem) (e : Event) : Except Halt PagedSystem :=
  match s.system.exec b e with
  | .error x => .error (.stop x)
  | .ok system => .ok { s with system := system }

/-- Process `p` runs a program. -/
def call {α : Type} (s : PagedSystem) (p : Addr) (prog : PageM α) :
    Except Halt (PagedSystem × α) :=
  match prog.exec (impl p) (s.machine, s.holders) with
  | .error pn => .error (.spins p pn)
  | .ok ((m, holders), x) => .ok ({ s with machine := m, holders := holders }, x)

/-- Process `p` goes on with `e`, where it may free a process that has ended. -/
def reap (s : PagedSystem) (p : Addr) (e : Event) : Except Halt PagedSystem :=
  match s.system.freed e with
  | none => s.advance b e
  | some z =>
    match s.call p (destroy P (s.pt z)) with
    | .error x => .error x
    | .ok (s, _) => s.advance b e

def fork (s : PagedSystem) (p a : Addr) : Except Halt PagedSystem :=
  match s.call p (makeFromParent P (s.pt p)) with
  | .error x => .error x
  | .ok (s, none) => s.advance b (.fork none false)
  | .ok (s, some (pt, complete)) =>
    { s with pt := Function.update s.pt a pt }.advance b (.fork (some a) complete)

def fault (s : PagedSystem) (p : Addr) (addr : ℕ) (kind : FaultType) : Except Halt PagedSystem :=
  match s.call p (pgfltHandler P (s.pt p) addr kind) with
  | .error x => .error x
  | .ok (s, .killed) => s.advance b .kill
  | .ok (s, .resumed) => s.advance b (.copy true)
  | .ok (s, .blocked map pg) =>
    { s with waiting := Function.update s.waiting p (map, pg) }.advance b (.copy false)

def pick (s : PagedSystem) (now : BitVec 64) : Except Halt PagedSystem :=
  match (s.system.kernel.popBack .runq).1 with
  | none => s.advance b (.pick now true)
  | some p =>
    if (s.system.kernel.proc p).context = .memory then
      match s.call p (copyPage P (s.waiting p).1 (s.waiting p).2) with
      | .error x => .error x
      | .ok (s, o) => s.advance b (.pick now (o.handled = .resumed))
    else s.reap P b p (.pick now true)

def exec (s : PagedSystem) (e : PagedEvent) : Except Halt PagedSystem :=
  match s.system.control, e with
  | _, .tick => s.advance b .tick
  | .scheduler, .pick now => s.pick P b now
  | .user p, .fork a => s.fork P b p a
  | .user p, .wait => s.reap P b p .wait
  | .user _, .usleep us start now => s.advance b (.usleep us start now)
  | .user _, .exit => s.advance b .exit
  | .user p, .fault addr kind => s.fault P b p addr kind
  | _, _ => .error (.stop .disabled)

/-- What `kalloc` may answer: pages that no process has mapped for itself. -/
structure Answers (s : PagedSystem) (as : Supply) : Prop where
  mem : ∀ t, some t ∈ as → P.InMem t
  apart : ∀ t, some t ∈ as → ∀ p ∈ s.system.live, Apart P (s.pt p) s.machine t

def restock (s : PagedSystem) (as : Supply) : PagedSystem :=
  { s with machine := { s.machine with heap := as } }

/-- Runs all of whose steps are as `ok` says. -/
inductive Reachable (ok : PagedSystem → PagedEvent → Prop) : PagedSystem → Prop
  | boot {m₀ m : Machine} {bin : Lib.Mem} {pt : ℕ} {a : Addr} : b.InHeap a →
      (∀ pn, m₀.refcnt pn = 0) → m₀.makeFromElf P bin = (some pt, m) → Reachable ok (boot a pt m)
  | step {s s' : PagedSystem} {as : Supply} {e : PagedEvent} : Reachable ok s → s.Answers P as →
      ok (s.restock as) e → (s.restock as).exec P b e = .ok s' → Reachable ok s'

/-- There is memory for the copy of a page. -/
def Supplied (s : PagedSystem) : PagedEvent → Prop
  | .fault addr kind => ∀ p, s.system.control = .user p →
      Copies P s.machine (s.pt p) addr kind → s.machine.kalloc.1 ≠ none
  | _ => True

variable {P} {b} {s s' : PagedSystem} {p : Addr} {as : Supply} {e : PagedEvent}

theorem call_brief {α : Type} {prog : PageM α} {f : Machine → α × Machine}
    (hf : Brief Addr prog f) (hfree : s.holders = free) :
    s.call p prog = .ok ({ s with machine := (f s.machine).2 }, (f s.machine).1) := by
  unfold call
  rw [hfree, hf p s.machine, ← hfree]

variable (P) (b) in
/-- The event is one of the scheduler's system, and a lock is held only where there is no memory for
a copy. -/
def Turns (s : PagedSystem) (e : PagedEvent) (x : Except Halt PagedSystem) : Prop :=
  x = .error (.stop .disabled) ∨ ∃ (s₁ : PagedSystem) (e' : Event), x = s₁.advance b e' ∧
    s₁.system = s.system ∧ (s₁.holders = free ↔ Supplied P s e) ∧
      (Supplied P s e → e' ≠ .copy false)

theorem Turns.of_free {s₁ : PagedSystem} {e' : Event} (hs : s₁.system = s.system)
    (hfree : s₁.holders = free) (hok : Supplied P s e) (he : e' ≠ .copy false) :
    Turns P b s e (s₁.advance b e') :=
  Or.inr ⟨s₁, e', rfl, hs, iff_of_true hfree hok, fun _ => he⟩

theorem Turns.reap {e' : Event} (hfree : s.holders = free) (hok : Supplied P s e)
    (he : e' ≠ .copy false) : Turns P b s e (s.reap P b p e') := by
  unfold PagedSystem.reap
  cases s.system.freed e' with
  | none => exact .of_free rfl hfree hok he
  | some z =>
    dsimp only
    rw [call_brief (Proc.Locking.brief_destroy _) hfree]
    exact .of_free rfl hfree hok he

theorem Turns.fork {a : Addr} (hfree : s.holders = free) :
    Turns P b s (.fork a) (s.fork P b p a) := by
  unfold PagedSystem.fork
  rw [call_brief (Proc.Locking.brief_makeFromParent _) hfree]
  dsimp only
  rcases (s.machine.makeEmpty P).1 with _ | pt
  · exact .of_free rfl hfree trivial Event.noConfusion
  · exact .of_free rfl hfree trivial Event.noConfusion

theorem Turns.fault {addr : ℕ} {kind : FaultType} (hfree : s.holders = free)
    (hc : s.system.control = .user p)
    (hmem : ∀ mem, s.machine.kalloc.1 = some mem → P.InMem mem ∧ Apart P (s.pt p) s.machine mem) :
    Turns P b s (.fault addr kind) (s.fault P b p addr kind) := by
  have hexec : ∃ o m, (pgfltHandler P (s.pt p) addr kind).exec (impl p) (s.machine, free) =
      .ok ((m, o.holders p), o) ∧ s.machine.pgfltHandler P (s.pt p) addr kind = (o.handled, m) :=
    Proc.Locking.pgfltHandler_exec p hmem
  obtain ⟨o, m, hexec, hplain⟩ := hexec
  have hblocked : (s.machine.pgfltHandler P (s.pt p) addr kind).1 = .blocked ↔
      Copies P s.machine (s.pt p) addr kind ∧ s.machine.kalloc.1 = none :=
    Proc.Locking.pgfltHandler_blocked
  rw [hplain] at hblocked
  have hcall : s.call p (pgfltHandler P (s.pt p) addr kind) =
      .ok ({ s with machine := m, holders := o.holders p }, o) := by
    unfold call
    rw [hfree, hexec]
  have hok : o.handled ≠ .blocked → Supplied P s (.fault addr kind) := by
    intro hne p' hp' hcopies hnone
    obtain rfl : p = p' := Control.user.inj (hc.symm.trans hp')
    exact hne (hblocked.mpr ⟨hcopies, hnone⟩)
  unfold PagedSystem.fault
  rw [hcall]
  cases o with
  | killed => exact .of_free rfl rfl (hok Handled.noConfusion) Event.noConfusion
  | resumed => exact .of_free rfl rfl (hok Handled.noConfusion) (by simp)
  | blocked map pg =>
    obtain ⟨hcopies, hnone⟩ := hblocked.mp rfl
    have hshort : ¬Supplied P s (.fault addr kind) := fun h => h p hc hcopies hnone
    refine Or.inr ⟨_, _, rfl, rfl, iff_of_false ?_ hshort, fun h => absurd h hshort⟩
    intro hheld
    have hself : (Outcome.blocked map pg).holders p pg = some p := Function.update_self _ _ _
    exact Option.some_ne_none p (hself.symm.trans (congrFun hheld pg))

theorem exec_turns (hfree : s.holders = free) (hcalm : s.system.kernel.Calm)
    (hmem : ∀ p, s.system.control = .user p → ∀ mem, s.machine.kalloc.1 = some mem →
      P.InMem mem ∧ Apart P (s.pt p) s.machine mem) : Turns P b s e (s.exec P b e) := by
  unfold exec
  cases hc : s.system.control with
  | scheduler =>
    cases e with
    | tick => exact .of_free rfl hfree trivial Event.noConfusion
    | pick now =>
      change Turns P b s _ (s.pick P b now)
      unfold pick
      rcases (s.system.kernel.popBack .runq).1 with _ | p
      · exact .of_free rfl hfree trivial Event.noConfusion
      · have hp : (s.system.kernel.proc p).context ≠ .memory := hcalm p
        dsimp only
        rw [if_neg hp]
        exact .reap hfree trivial Event.noConfusion
    | _ => exact Or.inl rfl
  | user p =>
    cases e with
    | pick now => exact Or.inl rfl
    | tick => exact .of_free rfl hfree trivial Event.noConfusion
    | wait => exact .reap hfree trivial Event.noConfusion
    | usleep us start now => exact .of_free rfl hfree trivial Event.noConfusion
    | exit => exact .of_free rfl hfree trivial Event.noConfusion
    | fork a => exact .fork hfree
    | fault addr kind => exact .fault hfree hc (hmem p hc)

/-! ### Runs -/

/-- No lock is held, and no process waits for memory. -/
structure Unlocked (b : Board) (s : PagedSystem) : Prop where
  reachable : System.Reachable b s.system
  unheld : s.holders = free
  calm : s.system.kernel.Calm

theorem Unlocked.turns (h : s.Unlocked b) (ha : s.Answers P as) :
    Turns P b (s.restock as) e ((s.restock as).exec P b e) := by
  apply exec_turns (s := s.restock as) h.unheld h.calm
  intro p hc mem hmem
  obtain ⟨q, hq⟩ := h.reachable.inv
  have hlive : p ∈ s.system.live := (hq.live p).mpr (Or.inr hc)
  have has : some mem ∈ as := by
    unfold restock Machine.kalloc at hmem
    dsimp only at hmem
    rcases as with _ | ⟨a, as⟩
    · cases hmem
    · exact List.mem_cons.mpr (Or.inl hmem.symm)
  exact ⟨ha.mem mem has, ha.apart mem has p hlive⟩

theorem advance_eq_ok {e' : Event} (h : s.advance b e' = .ok s') :
    s.system.exec b e' = .ok s'.system ∧ s'.holders = s.holders := by
  unfold advance at h
  cases he : s.system.exec b e' with
  | error x =>
    rw [he] at h
    cases h
  | ok system =>
    rw [he] at h
    cases h
    exact ⟨rfl, rfl⟩

/-- A step leaves a lock only where there is no memory for a copy. -/
theorem Unlocked.exec (h : s.Unlocked b) (ha : s.Answers P as)
    (he : (s.restock as).exec P b e = .ok s') :
    (s'.holders = free ↔ Supplied P (s.restock as) e) ∧
      (Supplied P (s.restock as) e → s'.Unlocked b) := by
  rcases h.turns ha (e := e) (b := b) with hstop | ⟨s₁, e', hadv, hsys, hheld, hcopy⟩
  · rw [hstop] at he
    cases he
  · rw [hadv] at he
    obtain ⟨hexec, hsame⟩ := advance_eq_ok he
    rw [hsys] at hexec
    rw [hsame]
    refine ⟨hheld, fun hok => ⟨h.reachable.step hexec, ?_, ?_⟩⟩
    · rw [hsame]
      exact hheld.mpr hok
    · exact System.calm_exec h.calm (hcopy hok) hexec

theorem Reachable.unlocked (h : Reachable P b (Supplied P) s) : s.Unlocked b := by
  induction h with
  | @boot m₀ m bin pt a ha hzero hm =>
    refine ⟨.boot ha, rfl, ?_⟩
    have hnone : System.init.kernel.Calm := fun _ => Resume.noConfusion
    have hcore : (System.boot a).kernel.core = (System.init.makeEmpty a).kernel.core :=
      Kernel.core_pushFront (k := (System.init.makeEmpty a).kernel)
    exact (System.calm_makeEmpty hnone a).congr hcore
  | step hr ha hok he ih => exact (ih.exec ha he).2 hok

/-- As long as there is memory for copies, no lock is held when a process gives up the processor,
and none spins. -/
theorem no_lock_across_switch (h : Reachable P b (Supplied P) s) (ha : s.Answers P as)
    (e : PagedEvent) : (∀ pn, s.holders pn = none) ∧
      (∀ p pn, (s.restock as).exec P b e ≠ .error (.spins p pn)) ∧
      ∀ s', (s.restock as).exec P b e = .ok s' →
        ((∀ pn, s'.holders pn = none) ↔ Supplied P (s.restock as) e) := by
  have hu := h.unlocked
  refine ⟨fun pn => congrFun hu.unheld pn, ?_, ?_⟩
  · intro p pn hspin
    rcases hu.turns ha (e := e) (b := b) with hstop | ⟨s₁, e', hadv, -⟩
    · rw [hstop] at hspin
      cases hspin
    · rw [hadv] at hspin
      unfold advance at hspin
      cases he : s₁.system.exec b e' with
      | error x =>
        rw [he] at hspin
        cases hspin
      | ok system =>
        rw [he] at hspin
        cases hspin
  · intro s' he
    rw [← (hu.exec ha he).1]
    exact funext_iff.symm

theorem fork_ok {a : Addr} {pt : ℕ} {m n : Machine} (hfree : s.holders = free)
    (he : s.machine.makeEmpty P = (some pt, n))
    (hm : s.machine.makeFromParent P (s.pt p) = (some pt, m)) :
    s.fork P b p a =
      { s with machine := m, pt := Function.update s.pt a pt }.advance b (.fork (some a) true) := by
  unfold fork
  rw [call_brief (Proc.Locking.brief_makeFromParent _) hfree]
  dsimp only
  rw [he, hm]
  rfl

theorem call_of_exec {α : Type} {prog : PageM α} {m : Machine} {L : Holders ℕ Addr} {x : α}
    (h : prog.exec (impl p) (s.machine, s.holders) = .ok ((m, L), x)) :
    s.call p prog = .ok ({ s with machine := m, holders := L }, x) := by
  unfold call
  rw [h]

theorem fault_waits {addr : ℕ} {kind : FaultType} {s₁ : PagedSystem} {map : VaMapping} {pg : ℕ}
    (h : s.call p (pgfltHandler P (s.pt p) addr kind) = .ok (s₁, .blocked map pg)) :
    s.fault P b p addr kind =
      { s₁ with waiting := Function.update s₁.waiting p (map, pg) }.advance b (.copy false) := by
  unfold fault
  rw [h]

theorem fault_spins {addr pn : ℕ} {kind : FaultType}
    (h : (pgfltHandler P (s.pt p) addr kind).exec (impl p) (s.machine, s.holders) = .error pn) :
    s.fault P b p addr kind = .error (.spins p pn) := by
  unfold fault call
  rw [h]

theorem Reachable.mono {ok ok' : PagedSystem → PagedEvent → Prop} (hok : ∀ s e, ok s e → ok' s e)
    (h : Reachable P b ok s) : Reachable P b ok' s := by
  induction h with
  | boot ha hzero hm => exact .boot ha hzero hm
  | step _ ha h he ih => exact .step ih ha (hok _ _ h) he

/-- The processes once the first one has run, and forked. -/
def forkedSystem (b : Board) : System :=
  match (System.boot 0x80600000).exec b (.pick 0 true) with
  | .error _ => .init
  | .ok s =>
    match s.exec b (.fork (some 0x80601000) true) with
    | .error _ => s
    | .ok s => s

/-- A process has forked, and shares its stack with its child. -/
theorem reachable_sharing {P : Platform} (hP : Proc.Riscv64.platform Proc.Riscv64.virt = P) :
    ∃ (s : PagedSystem) (p : ℕ) (map map' : VaMapping),
      Reachable P ⟨10000000, 0x80600000⟩ (Supplied P) s ∧
      s.system = forkedSystem ⟨10000000, 0x80600000⟩ ∧
      Proc.Locking.SharesAt P s.machine (s.pt 0x80600000) Proc.stackVa map ∧
      map.pa P.ops s.machine.tables = p ∧
      Proc.Locking.SharesAt P s.machine (s.pt 0x80601000) Proc.stackVa map' ∧
      map'.pa P.ops s.machine.tables = p ∧ s.machine.refcnt (p / 4096) ≠ 1 := by
  obtain ⟨m₁, m₂, pt, ptc, p, hm₁, hx₁, -, ⟨n, he⟩, hm₂, hx₂, hparent, hchild⟩ :=
    Proc.Kernel.exists_forked hP
  have hboot : Reachable P ⟨10000000, 0x80600000⟩ (Supplied P) (boot 0x80600000 pt m₁) :=
    .boot (by decide) (fun _ => rfl) hm₁
  have hnone (s : PagedSystem) : s.Answers P [] := ⟨nofun, nofun⟩
  have hpick := hboot.step (e := .pick 0) (hnone _) trivial rfl
  have hfork := hpick.step (e := .fork 0x80601000) (@Answers.mk P _ m₁.heap ?_ ?_) trivial
    ((fork_ok rfl he hm₂).trans rfl)
  · have hshares (r : ℕ) (hl : m₂.ref P [pt, ptc] (r, Proc.stackVa / 4096) = some (p, false)) :
        ∃ map, Proc.Locking.SharesAt P m₂ r Proc.stackVa map ∧ map.pa P.ops m₂.tables = p :=
      Proc.Locking.exists_sharesAt hx₂ hl
    obtain ⟨map, hs, hpa⟩ := hshares pt hparent
    obtain ⟨map', hs', hpa'⟩ := hshares ptc hchild
    refine ⟨_, p, map, map', hfork, rfl, hs, hpa, hs', hpa', ?_⟩
    apply Proc.Locking.refcnt_ne_one hx₂ hparent hchild
    intro hsame
    obtain ⟨o, hi⟩ := hx₂.inv
    have hnodup : [pt, ptc].Nodup := hi.shape.nodup
    have hpt : pt = ptc := congrArg Prod.fst hsame
    rw [hpt] at hnodup
    simp at hnodup
  · intro t ht
    obtain ⟨o, hi⟩ := hx₁.inv
    exact hi.shape.avail t ht
  · intro t ht _ _
    have hapart : Apart P pt m₁ t := Proc.Locking.exact_apart hx₁ (List.mem_singleton_self pt) ht
    exact hapart

/-- A process that waits for the memory of a copy leaves its page locked. Another process that
shares the page does not come back from its fault. -/
theorem lock_kept_across_switch : ∃ (s s' : PagedSystem) (pn : ℕ),
    Reachable (Proc.Riscv64.platform Proc.Riscv64.virt) ⟨10000000, 0x80600000⟩ (fun _ _ => True) s ∧
    s.system.control = .scheduler ∧ (s.system.kernel.proc 0x80600000).context = .memory ∧
    s.holders pn = some 0x80600000 ∧
    s.exec (Proc.Riscv64.platform Proc.Riscv64.virt) ⟨10000000, 0x80600000⟩ (.pick 0) = .ok s' ∧
    s'.exec (Proc.Riscv64.platform Proc.Riscv64.virt) ⟨10000000, 0x80600000⟩
      (.fault Proc.stackVa .write) = .error (.spins 0x80601000 pn) := by
  generalize hP : Proc.Riscv64.platform Proc.Riscv64.virt = P
  obtain ⟨⟨sys, m, pt, waiting, holders⟩, p, map, map', hr, rfl, hs, hpa, hs', hpa', hshared⟩ :=
    reachable_sharing hP
  have hfree : holders = free := hr.unlocked.unheld
  subst hfree
  have hs₀ : Proc.Locking.SharesAt P { m with heap := [] } (pt 0x80600000) Proc.stackVa map :=
    hs.congr rfl
  obtain ⟨m', hwait, htables⟩ := hs₀.waits (by rwa [← hpa] at hshared) rfl (0x80600000 : Addr)
  have hs₁ := hs'.congr htables
  have hnone (s : PagedSystem) : s.Answers P [] := ⟨nofun, nofun⟩
  have hr₁ := (hr.mono fun _ _ _ => trivial).step (e := .fault Proc.stackVa .write) (hnone _)
    trivial ((fault_waits (call_of_exec hwait)).trans rfl)
  refine ⟨_, _, map.pa P.ops m.tables / Proc.pagesize, hr₁, rfl, rfl, ?_, rfl, ?_⟩
  · exact Function.update_self _ _ _
  · have hpg : map'.pa P.ops m'.tables / Proc.pagesize = map.pa P.ops m.tables / Proc.pagesize := by
      rw [htables]
      exact congrArg (· / Proc.pagesize) (hpa'.trans hpa.symm)
    have hheld : Function.update (free : Holders ℕ Addr) (map.pa P.ops m.tables / Proc.pagesize)
        (some 0x80600000) (map'.pa P.ops m'.tables / Proc.pagesize) ≠ none := by
      rw [hpg, Function.update_self]
      exact Option.some_ne_none _
    have hspin := hs₁.spins (w := (0x80601000 : Addr)) hheld
    rw [hpg] at hspin
    exact fault_spins hspin

/-- While there is memory, the processes that share a page go on. -/
theorem no_lock_across_switch_sharing : ∃ s : PagedSystem,
    s.system = forkedSystem ⟨10000000, 0x80600000⟩ ∧ (∀ pn, s.holders pn = none) ∧
    ∀ e p pn,
      (s.restock []).exec (Proc.Riscv64.platform Proc.Riscv64.virt) ⟨10000000, 0x80600000⟩ e ≠
        .error (.spins p pn) := by
  obtain ⟨s, -, -, -, hr, hsys, -⟩ := reachable_sharing rfl
  have hnone : s.Answers (Proc.Riscv64.platform Proc.Riscv64.virt) [] := ⟨nofun, nofun⟩
  have hlaw (e : PagedEvent) := no_lock_across_switch hr hnone e
  exact ⟨s, hsys, (hlaw .tick).1, fun e => (hlaw e).2.1⟩

end PagedSystem
end Multiplix.Sched
