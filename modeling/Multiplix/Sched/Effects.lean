import Multiplix.Sched.Placement

/-! What one event can do to the processes: which one acts, which one is made, and which one is
freed. -/
namespace Multiplix.Sched

/-- A process that does not act may be woken. -/
def Rests (x y : Proc) : Prop := y = x ∨ x.state = .blocked ∧ y = x.awake

structure SameFamily (x y : Proc) : Prop where
  pid : y.pid = x.pid
  parent : y.parent = x.parent
  children : y.children = x.children

theorem SameFamily.refl (x : Proc) : SameFamily x x := ⟨rfl, rfl, rfl⟩

theorem Rests.sameFamily {x y : Proc} (h : Rests x y) : SameFamily x y := by
  rcases h with rfl | ⟨-, rfl⟩
  · exact .refl _
  · exact ⟨rfl, rfl, rfl⟩

theorem Rests.context {x y : Proc} (h : Rests x y) : y.context = x.context := by
  rcases h with rfl | ⟨-, rfl⟩ <;> rfl

namespace Kernel

variable {k k' : Kernel} {n : QueueName} {p : Addr}

theorem wake_rests (h : k.wake n p = .ok k') (a : Addr) : Rests (k.core a) (k'.core a) := by
  obtain ⟨hs, hk⟩ := core_wake h
  rw [hk, Function.update_apply]
  split_ifs with ha
  · subst ha
    exact Or.inr ⟨hs, rfl⟩
  · exact Or.inl rfl

theorem wakeAllLoop_rests {fuel : ℕ} (h : wakeAllLoop n fuel k = .ok k') (a : Addr) :
    Rests (k.core a) (k'.core a) := by
  induction fuel generalizing k with
  | zero => cases h
  | succ fuel ih =>
    rw [wakeAllLoop] at h
    split at h
    · cases h
      exact Or.inl rfl
    · split at h
      · cases h
      · next k₁ hk =>
        rcases wake_rests hk a with h1 | ⟨hb, h1⟩
        · exact h1 ▸ ih h
        · -- a process that is awake is not woken again
          rcases ih h with h2 | ⟨hb', -⟩
          · exact Or.inr ⟨hb, h2.trans h1⟩
          · rw [h1] at hb'
            cases hb'

theorem irqHandler_rests (h : k.irqHandler = .ok k') (a : Addr) :
    Rests (k.core a) (k'.core a) := wakeAllLoop_rests h a

end Kernel

namespace System

variable {b : Board} {s s' : System} {q : QueueName → List Addr} {p a z : Addr} {n : QueueName}
  {r : Resume} {e : Event}

theorem core_ret (v : BitVec 64) : (s.ret p v).kernel.core =
    Function.update s.kernel.core p { s.kernel.core p with retval := v } :=
  Kernel.core_setProc_of (f := fun x => { x with retval := v })

theorem core_yield : (s.yield p r).kernel.core =
    Function.update s.kernel.core p { s.kernel.core p with context := r } := by
  have hk : (s.kernel.setProc p fun x => { x with context := r }).core =
      Function.update s.kernel.core p { s.kernel.core p with context := r } :=
    Kernel.core_setProc_of
  rw [yield]
  dsimp only
  split_ifs
  · rw [Kernel.core_pushFront, hk]
  · exact hk

theorem core_suspend : (s.suspend p n r).kernel.core = Function.update s.kernel.core p
    { s.kernel.core p with state := .blocked, wq := some n, context := r } := by
  rw [suspend, core_yield, Kernel.block, Kernel.core_wait, Function.update_idem,
    Function.update_self]

theorem wakeParent_rests {k : Kernel} (h : s.wakeParent p = .ok k) (a : Addr) :
    Rests (s.kernel.core a) (k.core a) := by
  rw [wakeParent] at h
  split at h
  · cases h
    exact Or.inl rfl
  · split_ifs at h
    · exact Kernel.wake_rests h a
    · cases h
      exact Or.inl rfl

/-- Process `p`, if any, acts. It may make a process, or free one that has ended. -/
inductive Effect (b : Board) (s : System) (p : Option Addr) :
    (made freed : Option Addr) → (s' : System) → Prop
  | keep {s' : System} (live : s'.live = s.live)
      (self : ∀ a ∈ p, SameFamily (s.kernel.core a) (s'.kernel.core a))
      (rests : ∀ a ∈ s.live, some a ≠ p → Rests (s.kernel.core a) (s'.kernel.core a)) :
      Effect b s p none none s'
  | fork {s' : System} {a c : Addr} (actor : p = some a) (alloc : s.Allocates b c)
      (live : s'.live = insert c s.live)
      (parent : (s'.kernel.core c).parent = some a) (children : (s'.kernel.core c).children = 0)
      (self : SameFamily { s.kernel.core a with children := (s.kernel.core a).children + 1 }
        (s'.kernel.core a))
      (rests : ∀ a ∈ s.live, some a ≠ p → Rests (s.kernel.core a) (s'.kernel.core a)) :
      Effect b s p (some c) none s'
  | reap {s' : System} {a z : Addr} (actor : p = some a) (zombie : z ∈ s.live)
      (exited : (s.kernel.core z).state = .exited) (parent : (s.kernel.core z).parent = some a)
      (live : s'.live = s.live.erase z)
      (retval : (s'.kernel.core a).retval = (s.kernel.core z).pid.signExtend 64)
      (self : SameFamily { s.kernel.core a with children := (s.kernel.core a).children - 1 }
        (s'.kernel.core a))
      (rests : ∀ a ∈ s.live, some a ≠ p → Rests (s.kernel.core a) (s'.kernel.core a)) :
      Effect b s p none (some z) s'

/-- Who acts when an event happens. -/
def actor (s : System) (e : Event) : Option Addr :=
  match s.control, e with
  | .user p, _ => some p
  | .scheduler, .pick _ _ => (s.kernel.queue .runq).back
  | .scheduler, _ => none

/-- The process that a `sys_fork` makes. -/
def made (s : System) (e : Event) : Option Addr :=
  match s.control, e with
  | .user _, .fork a true => a
  | _, _ => none

/-- What the loop of `sys_wait` of process `p` finds. -/
def zombie (s : System) (p : Addr) : Option Addr :=
  s.kernel.findZombie p (addrSpace + 1) (s.kernel.queue .exitQueue).front

/-- The process that a `sys_wait` frees, at its start or when it goes on. -/
def freed (s : System) (e : Event) : Option Addr :=
  match s.control, e with
  | .user p, .wait => if (s.kernel.proc p).children = 0 then none else s.zombie p
  | .scheduler, .pick _ _ => (s.kernel.queue .runq).back.bind fun p =>
      if (s.kernel.proc p).context = .wait then s.zombie p else none
  | _, _ => none

namespace Effect

/-- Only the core of the processes, and which there are, matters at the start. -/
theorem congr {s₁ : System} {o m f : Option Addr} (h : Effect b s₁ o m f s')
    (hk : s₁.kernel.core = s.kernel.core) (hl : s₁.live = s.live) : Effect b s o m f s' := by
  cases h with
  | keep live self rests =>
    exact .keep (hl ▸ live) (hk ▸ self) (hl ▸ hk ▸ rests)
  | fork actor alloc live parent children self rests =>
    refine .fork actor ?_ (hl ▸ live) parent children (hk ▸ self) (hl ▸ hk ▸ rests)
    rw [Allocates, ← hl]
    exact alloc
  | reap actor zombie exited parent live retval self rests =>
    exact .reap actor (hl ▸ zombie) (hk ▸ exited) (hk ▸ parent) (hl ▸ live) (hk ▸ retval)
      (hk ▸ self) (hl ▸ hk ▸ rests)

theorem of_update {y : Proc} (hl : s'.live = s.live)
    (hk : s'.kernel.core = Function.update s.kernel.core p y)
    (hy : SameFamily (s.kernel.core p) y) :
    Effect b s (some p) none none s' := by
  refine .keep hl (fun a ha => ?_) fun a _ ha => ?_
  · obtain rfl : p = a := Option.some.inj ha
    rw [hk, Function.update_self]
    exact hy
  · have hne : a ≠ p := fun he => ha (congrArg some he)
    rw [hk, Function.update_of_ne hne]
    exact Or.inl rfl

theorem ret (v : BitVec 64) : Effect b s (some p) none none (s.ret p v) :=
  of_update rfl (core_ret v) ⟨rfl, rfl, rfl⟩

theorem suspend : Effect b s (some p) none none (s.suspend p n r) :=
  of_update rfl core_suspend ⟨rfl, rfl, rfl⟩

theorem waitLoop (h : s.Inv q) : Effect b s (some p) none (s.zombie p) (s.waitLoop p) := by
  rw [System.waitLoop, System.zombie, h.queued.findZombie]
  cases hf : (q .exitQueue).find? fun z => (s.kernel.core z).parent = some p with
  | none => exact suspend
  | some z =>
    have hz := List.mem_of_find?_eq_some hf
    have hpar : (s.kernel.core z).parent = some p := by simpa using List.find?_some hf
    have hk : ((s.kernel.remove .exitQueue z).setProc p fun x =>
        { x with children := x.children - 1 }).core = Function.update s.kernel.core p
          { s.kernel.core p with children := (s.kernel.core p).children - 1 } := by
      rw [← Kernel.core_remove (k := s.kernel) (n := .exitQueue) (p := z)]
      exact Kernel.core_setProc_of (f := fun x => { x with children := x.children - 1 })
    have hcore :
        ((({ s with kernel := s.kernel.remove .exitQueue z } : System).free z).kernel.setProc p
          fun x => { x with children := x.children - 1 }).core = _ := hk
    refine .reap rfl ((h.live z).mpr (Or.inl ⟨_, hz⟩)) (h.placed hz).1 hpar rfl ?_ ?_
      fun a _ ha => ?_
    all_goals rw [core_ret, hcore]
    · rw [Function.update_self]
      rfl
    · rw [Function.update_self, Function.update_self]
      exact ⟨rfl, rfl, rfl⟩
    · have hne : a ≠ p := fun he => ha (congrArg some he)
      rw [Function.update_of_ne hne, Function.update_of_ne hne]
      exact Or.inl rfl

theorem usleepLoop (freq start us now : BitVec 64) :
    Effect b s (some p) none none (s.usleepLoop p freq start us now) := by
  rw [System.usleepLoop]
  split_ifs
  · exact ret _
  · exact suspend

theorem memoryLoop (mem : Bool) : Effect b s (some p) none none (s.memoryLoop p mem) := by
  rw [System.memoryLoop]
  split_ifs
  · exact .keep rfl (fun a _ => .refl _) fun a _ _ => Or.inl rfl
  · exact suspend

theorem sysFork (hp : p ∈ s.live) {o : Option Addr} (mapped : Bool)
    (ha : ∀ c ∈ o, s.Allocates b c) :
    Effect b s (some p) (if mapped then o else none) none (s.sysFork p o mapped) := by
  cases o with
  | none =>
    rw [ite_self]
    exact ret _
  | some c =>
    have ha : s.Allocates b c := ha c rfl
    have hcl : ∀ {a}, a ∈ s.live → a ≠ c := fun hal he => ha.1 (he ▸ hal)
    have hpc := hcl hp
    rw [System.sysFork]
    dsimp only
    cases mapped
    · -- the child is freed again
      rw [if_pos rfl, if_neg Bool.false_ne_true]
      have hlive : (insert c s.live).erase c = s.live := Finset.erase_insert ha.1
      have hk : ∀ {a}, a ≠ c → ((s.makeEmpty c).free c).kernel.core a = s.kernel.core a :=
        fun hne => by
          rw [System.free, System.makeEmpty, Kernel.core_setProc, Function.update_of_ne hne]
      refine .keep hlive (fun a hin => ?_) fun a hal hne => Or.inl ?_ <;> rw [core_ret]
      · obtain rfl : p = a := Option.some.inj hin
        rw [Function.update_self, hk hpc]
        exact ⟨rfl, rfl, rfl⟩
      · have hap : a ≠ p := fun he => hne (congrArg some he)
        rw [Function.update_of_ne hap, hk (hcl hal)]
    · rw [if_pos rfl, if_neg (by decide)]
      have hk : (((s.makeEmpty c).makeFromParent p c).addChild p c).kernel.core =
          Function.update (Function.update s.kernel.core c
            { Proc.init with pid := s.nextPid, parent := some p })
            p { s.kernel.core p with children := (s.kernel.core p).children + 1 } := by
        rw [System.addChild, Kernel.core_pushFront]
        funext a
        simp only [Kernel.core, Kernel.setProc, System.makeEmpty, System.makeFromParent,
          Function.update_apply]
        split_ifs <;> simp_all [Proc.core, Proc.init]
      refine .fork rfl ha rfl ?_ ?_ ?_ fun a hal hne => ?_
      all_goals rw [core_ret, hk]
      · rw [Function.update_of_ne hpc.symm, Function.update_of_ne hpc.symm, Function.update_self]
      · rw [Function.update_of_ne hpc.symm, Function.update_of_ne hpc.symm, Function.update_self]
        rfl
      · rw [Function.update_self, Function.update_self]
        exact ⟨rfl, rfl, rfl⟩
      · have hap : a ≠ p := fun he => hne (congrArg some he)
        rw [Function.update_of_ne hap, Function.update_of_ne hap, Function.update_of_ne (hcl hal)]
        exact Or.inl rfl

theorem sysExit (h : s.sysExit p = .ok s') : Effect b s (some p) none none s' := by
  rw [System.sysExit] at h
  split at h
  · cases h
  · next k hk =>
    cases h
    have hrests := wakeParent_rests hk
    have hcore : ({ s with kernel := k.exit p .exitQueue }.yield p .exit).kernel.core =
        Function.update k.core p
          { k.core p with state := .exited, wq := some .exitQueue, context := .exit } := by
      rw [core_yield, Kernel.exit, Kernel.core_wait, Function.update_idem, Function.update_self]
    refine .keep rfl (fun a ha => ?_) fun a _ ha => ?_ <;> rw [hcore]
    · obtain rfl : p = a := Option.some.inj ha
      rw [Function.update_self]
      obtain ⟨h1, h2, h3⟩ := (hrests p).sameFamily
      exact ⟨h1, h2, h3⟩
    · have hne : a ≠ p := fun he => ha (congrArg some he)
      rw [Function.update_of_ne hne]
      exact hrests a

theorem resume (h : s.Inv q) {freq now : BitVec 64} {mem : Bool}
    (he : s.resume p freq now mem = .ok s') : Effect b s (some p) none
      (if (s.kernel.proc p).context = .wait then s.zombie p else none) s' := by
  rw [System.resume] at he
  cases hr : (s.kernel.proc p).context <;> rw [hr] at he <;> cases he
  · exact .keep rfl (fun a _ => .refl _) fun a _ _ => Or.inl rfl
  · exact waitLoop h
  · exact usleepLoop ..
  · exact memoryLoop _

end Effect

/-- A process that acts is runnable. -/
theorem Inv.actor_runnable (h : s.Inv q) (ha : s.actor e = some p) :
    p ∈ s.live ∧ (s.kernel.core p).state = .runnable := by
  unfold actor at ha
  cases hc : s.control with
  | scheduler =>
    rw [hc] at ha
    cases e with
    | pick now mem =>
      have hp := (h.queued.holds .runq).dll.back_mem ha
      exact ⟨(h.live p).mpr (Or.inl ⟨_, hp⟩), (h.placed hp).1⟩
    | _ => cases ha
  | user x =>
    rw [hc] at ha
    cases ha
    exact ⟨(h.live p).mpr (Or.inr hc), (h.running hc).2⟩

/-- What an event does to the processes. -/
theorem Inv.effect (h : s.Inv q) (he : s.exec b e = .ok s') :
    Effect b s (s.actor e) (s.made e) (s.freed e) s' := by
  rw [System.exec] at he
  unfold actor made freed
  cases hc : s.control with
  | scheduler =>
    rw [hc] at he
    have hquiet : ∀ {o : Option Addr} {k : Kernel}, (∀ a, Rests (s.kernel.core a) (k.core a)) →
        Effect b s o none none { s with kernel := k } := fun {o k} hk =>
      .keep rfl (fun a _ => (hk a).sameFamily) fun a _ _ => hk a
    cases e with
    | pick now mem =>
      change s.pick b.mtimeFreq now mem = .ok s' at he
      rw [System.pick] at he
      rcases List.eq_nil_or_concat (q .runq) with hq | ⟨xs, p, hq⟩
      · have hback : (s.kernel.queue .runq).back = none := by
          rw [show (s.kernel.queue .runq).back = _ from (h.queued.holds .runq).dll.back, hq]
          rfl
        rw [h.queued.popBack_nil hq] at he
        cases he
        rw [hback]
        exact hquiet fun a => Or.inl rfl
      · rw [List.concat_eq_append] at hq
        obtain ⟨hpop, hi⟩ := h.dispatch hc hq
        have hback : (s.kernel.queue .runq).back = some p := by
          rw [show (s.kernel.queue .runq).back = _ from (h.queued.holds .runq).dll.back, hq]
          simp
        have hcore : (s.kernel.remove .runq p).core = s.kernel.core := Kernel.core_remove
        have hctx : ((s.kernel.remove .runq p).proc p).context = (s.kernel.proc p).context := by
          change ((s.kernel.remove .runq p).core p).context = (s.kernel.core p).context
          rw [hcore]
        -- the exit queue is the same before and after the switch
        have hz : ({ s with kernel := s.kernel.remove .runq p, control := .user p } : System).zombie
            p = s.zombie p := by
          rw [System.zombie, hi.queued.findZombie, System.zombie, h.queued.findZombie,
            Function.update_of_ne (by decide)]
          dsimp only
          rw [hcore]
        rw [hpop] at he
        have hr := (Effect.resume (b := b) hi he).congr hcore rfl
        dsimp only at hr
        rw [hctx, hz] at hr
        dsimp only
        rw [hback]
        exact hr
    | tick =>
      simp only [schedule] at he
      split_ifs at he
      split at he
      · cases he
      · next k hk =>
        cases he
        exact hquiet (Kernel.irqHandler_rests hk)
    | _ => cases he
  | user p =>
    rw [hc] at he
    have hp : p ∈ s.live := (h.live p).mpr (Or.inr hc)
    cases e with
    | pick now mem => cases he
    | tick =>
      simp only [user] at he
      split at he
      · cases he
      · next k hk =>
        cases he
        have hrests := Kernel.irqHandler_rests hk
        refine .keep rfl (fun a ha => ?_) fun a _ ha => ?_ <;> rw [core_yield]
        · obtain rfl : p = a := Option.some.inj ha
          rw [Function.update_self]
          obtain ⟨h1, h2, h3⟩ := (hrests p).sameFamily
          exact ⟨h1, h2, h3⟩
        · have hne : a ≠ p := fun he => ha (congrArg some he)
          rw [Function.update_of_ne hne]
          exact hrests a
    | fork c mapped =>
      simp only [user] at he
      split_ifs at he with ha
      cases he
      have hf := Effect.sysFork (b := b) (o := c) hp mapped fun x hx => by
        rw [Option.mem_def.mp hx] at ha
        exact of_decide_eq_true ha
      cases mapped
      · exact hf
      · exact hf
    | wait =>
      cases he
      rw [System.sysWait]
      dsimp only
      split_ifs
      · exact .ret _
      · exact .waitLoop h
    | usleep us start now =>
      cases he
      exact .usleepLoop ..
    | exit => exact .sysExit he
    | kill => exact .sysExit he
    | copy mem =>
      cases he
      exact .memoryLoop mem

end System
end Multiplix.Sched
