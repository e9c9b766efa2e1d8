import Mathlib.Logic.Relation
import Multiplix.Sched.Effects

/-! A process that waits for a child that has ended is on the run queue until it looks again, and
then it finds one. -/
namespace Multiplix.Sched.System

variable {b : Board} {s s' : System} {q : QueueName → List Addr} {p x z : Addr} {n : QueueName}
  {r : Resume} {e : Event}

/-! ### Who is in control after an event -/

/-- The scheduler is in control, or `p`. -/
def Within (p : Addr) (s : System) : Prop := s.control = .scheduler ∨ s.control = .user p

theorem Within.suspend : (s.suspend p n r).Within p := Or.inl rfl

theorem Within.ret {v : BitVec 64} : (s.ret p v).Within p := Or.inr rfl

theorem Within.waitLoop : (s.waitLoop p).Within p := by
  rw [System.waitLoop]
  split
  · exact .ret
  · exact .suspend

theorem Within.usleepLoop {freq start us now : BitVec 64} :
    (s.usleepLoop p freq start us now).Within p := by
  rw [System.usleepLoop]
  split_ifs
  · exact .ret
  · exact .suspend

theorem Within.memoryLoop {mem : Bool} : (s.memoryLoop p mem).Within p := by
  rw [System.memoryLoop]
  split_ifs
  · exact Or.inr rfl
  · exact .suspend

theorem Within.sysFork {o : Option Addr} {mapped : Bool} : (s.sysFork p o mapped).Within p := by
  cases o with
  | none => exact .ret
  | some a =>
    rw [System.sysFork]
    dsimp only
    split_ifs
    · exact .ret
    · exact .ret

theorem Within.sysExit (h : s.sysExit p = .ok s') : s'.Within p := by
  rw [System.sysExit] at h
  split at h
  · cases h
  · cases h
    exact Or.inl rfl

theorem Within.resume {freq now : BitVec 64} {mem : Bool}
    (h : s.resume p freq now mem = .ok s') : s'.Within p := by
  rw [System.resume] at h
  split at h <;> cases h
  · exact Or.inr rfl
  · exact .waitLoop
  · exact .usleepLoop
  · exact .memoryLoop

/-- After an event, the scheduler is in control or the process that has acted. -/
theorem control_exec (h : s.exec b e = .ok s') (hc : s'.control = .user p) :
    s.actor e = some p := by
  have hof : ∀ {x}, s'.Within x → some x = some p := fun hx => by
    rcases hx with hx | hx <;> rw [hc] at hx <;> cases hx
    rfl
  unfold System.exec at h
  unfold actor
  cases hctl : s.control with
  | scheduler =>
    rw [hctl] at h
    cases e with
    | pick now mem =>
      simp only [schedule, System.pick, Kernel.popBack] at h
      cases hb : (s.kernel.queue .runq).back with
      | none =>
        rw [hb] at h
        cases h
        rw [hctl] at hc
        cases hc
      | some x =>
        rw [hb] at h
        exact hof (.resume h)
    | tick =>
      simp only [schedule] at h
      split_ifs at h
      split at h
      · cases h
      · cases h
        rw [hctl] at hc
        cases hc
    | _ => cases h
  | user x =>
    rw [hctl] at h
    refine hof ?_
    cases e with
    | pick now mem => cases h
    | tick =>
      simp only [user] at h
      split at h
      · cases h
      · cases h
        exact Or.inl rfl
    | fork c mapped =>
      simp only [user] at h
      split_ifs at h
      cases h
      exact .sysFork
    | wait =>
      cases h
      rw [System.sysWait]
      split_ifs
      · exact .ret
      · exact .waitLoop
    | usleep us start now =>
      cases h
      exact .usleepLoop
    | exit => exact .sysExit h
    | kill => exact .sysExit h
    | copy mem =>
      cases h
      exact .memoryLoop

/-! ### Waiting for a child that has ended -/

/-- `p` goes on in the loop of `sys_wait`, and its child `z` has ended. -/
structure Awaits (s : System) (p z : Addr) : Prop where
  live : p ∈ s.live
  context : (s.kernel.core p).context = .wait
  suspended : s.control ≠ .user p
  zombie : z ∈ s.live
  exited : (s.kernel.core z).state = .exited
  parent : (s.kernel.core z).parent = some p

/-- Something happens, and it is not `p` that acts. -/
def Idle (b : Board) (p : Addr) (s s' : System) : Prop :=
  ∃ e, s.actor e ≠ some p ∧ s.exec b e = .ok s'

/-- `p` finds `z`, the first of its children among `zs`, frees it and returns its number. -/
structure Collects (s : System) (zs : List Addr) (p z : Addr) (s' : System) : Prop where
  first : zs.find? (fun z => (s.kernel.proc z).parent = some p) = some z
  live : s'.live = s.live.erase z
  control : s'.control = .user p
  retval : (s'.kernel.proc p).retval = (s.kernel.proc z).pid.signExtend 64

theorem Inv.waitLoop_collects (h : s.Inv q)
    (hz : (q .exitQueue).find? (fun z => (s.kernel.core z).parent = some p) = some z) :
    Collects s (q .exitQueue) p z (s.waitLoop p) := by
  refine ⟨hz, ?_, ?_, ?_⟩ <;> rw [System.waitLoop, h.queued.findZombie, hz]
  · rfl
  · rfl
  · dsimp only
    rw [System.ret, Kernel.setProc_self]

namespace Awaits

variable (ha : s.Awaits p z) (h : s.Inv q)
include ha h

theorem zombie_mem : z ∈ q .exitQueue := by
  rcases (h.live z).mp ha.zombie with ⟨n, hn⟩ | hc
  · have hst := ha.exited
    have hpl := h.placed hn
    cases n with
    | exitQueue => exact hn
    | _ => cases hst.symm.trans hpl.1
  · cases ha.exited.symm.trans (h.running hc).2

/-- A process on the wait queue has no such child, so `p` has been woken. -/
theorem parent_mem : p ∈ q .runq := by
  rcases (h.live p).mp ha.live with ⟨n, hn⟩ | hc
  · have hpl := h.placed hn
    cases n with
    | runq => exact hn
    | exitQueue => cases ha.context.symm.trans hpl.2
    | ticksQueue => exact absurd ha.context hpl.2.2.2
    | waitQueue => exact absurd ha.parent (h.waiting hn (ha.zombie_mem h))
  · exact absurd hc ha.suspended

/-- What others do changes nothing about it. -/
theorem step (hact : s.actor e ≠ some p) (he : s.exec b e = .ok s') : s'.Awaits p z := by
  have hz : s.actor e ≠ some z := fun hz => by
    cases ha.exited.symm.trans (h.actor_runnable hz).2
  have hpz : p ≠ z := fun heq => by
    have hpl := h.placed (ha.zombie_mem h)
    cases ha.context.symm.trans (heq ▸ hpl.2)
  have hrest : (∀ a ∈ s.live, some a ≠ s.actor e → Rests (s.kernel.core a) (s'.kernel.core a)) →
      p ∈ s'.live → z ∈ s'.live → s'.Awaits p z := fun hr hp hzl => by
    have hzr : s'.kernel.core z = s.kernel.core z := by
      rcases hr z ha.zombie hz.symm with hr | ⟨hb, -⟩
      · exact hr
      · cases ha.exited.symm.trans hb
    refine ⟨hp, ?_, fun hc => hact (control_exec he hc), hzl, ?_, ?_⟩
    · rw [(hr p ha.live hact.symm).context, ha.context]
    · rw [hzr, ha.exited]
    · rw [hzr, ha.parent]
  have hf := h.effect he
  generalize s.made e = m, s.freed e = f at hf
  cases hf with
  | keep live self rests => exact hrest rests (live ▸ ha.live) (live ▸ ha.zombie)
  | fork actor alloc live parent children self rests =>
    rw [live] at hrest
    exact hrest rests (Finset.mem_insert_of_mem ha.live) (Finset.mem_insert_of_mem ha.zombie)
  | @reap _ a y actor zombie exited parent live retval self rests =>
    have hpy : p ≠ y := fun heq => by
      have hst := (h.placed (ha.parent_mem h)).1
      cases exited.symm.trans (heq ▸ hst)
    have hzy : z ≠ y := fun heq => by
      rw [← heq, ha.parent] at parent
      exact hact (actor.trans parent.symm)
    rw [live] at hrest
    exact hrest rests (Finset.mem_erase.mpr ⟨hpy, ha.live⟩) (Finset.mem_erase.mpr ⟨hzy, ha.zombie⟩)

/-- The next time that `p` acts, it goes through the exit queue and finds a child. -/
theorem collects (hact : s.actor e = some p) (he : s.exec b e = .ok s') :
    ∃ y, Collects s (q .exitQueue) p y s' := by
  have hq := ha.parent_mem h
  unfold actor at hact
  cases hc : s.control with
  | user x =>
    rw [hc] at hact
    cases hact
    exact absurd hc ha.suspended
  | scheduler =>
    rw [hc] at hact
    cases e with
    | pick now mem =>
      have hback : (q .runq).getLast? = some p := by
        rw [← (h.queued.holds .runq).dll.back]
        exact hact
      obtain ⟨xs, hxs⟩ := List.getLast?_eq_some_iff.mp hback
      obtain ⟨hpop, hi⟩ := h.dispatch hc hxs
      have hcore : (s.kernel.remove .runq p).core = s.kernel.core := Kernel.core_remove
      have hctx : ((s.kernel.remove .runq p).proc p).context = .wait := by
        change ((s.kernel.remove .runq p).core p).context = .wait
        rw [hcore, ha.context]
      unfold System.exec at he
      rw [hc] at he
      change s.pick b.mtimeFreq now mem = .ok s' at he
      rw [System.pick, hpop] at he
      simp only [System.resume, hctx] at he
      cases he
      obtain ⟨y, hy⟩ : ∃ y, (q .exitQueue).find? (fun z => (s.kernel.core z).parent = some p) =
          some y := by
        refine Option.isSome_iff_exists.mp (List.find?_isSome.mpr ⟨z, ha.zombie_mem h, ?_⟩)
        simpa using ha.parent
      have hw := hi.waitLoop_collects (p := p) (z := y) (by
        rw [Function.update_of_ne (by decide)]
        dsimp only
        rw [hcore, hy])
      refine ⟨y, hy, hw.live, hw.control, hw.retval.trans ?_⟩
      change ((s.kernel.remove .runq p).core y).pid.signExtend 64 = _
      rw [hcore]
      rfl
    | _ => cases hact

end Awaits

/-- While `p` does not act, nothing changes about it. -/
theorem Awaits.run (ha : s.Awaits p z) (h : Reachable b s)
    (hr : Relation.ReflTransGen (Idle b p) s s') : Reachable b s' ∧ s'.Awaits p z := by
  induction hr with
  | refl => exact ⟨h, ha⟩
  | tail _ hstep ih =>
    obtain ⟨e, hact, he⟩ := hstep
    obtain ⟨q, hi⟩ := ih.1.inv
    exact ⟨.step ih.1 he, ih.2.step hi hact he⟩

/-- Whenever the scheduler is in control, no process on the wait queue has a child on the exit
queue. A process that waits for such a child is on the run queue, and the next time it acts it
finds one. -/
theorem no_lost_wakeup (h : Reachable b s) (hc : s.control = .scheduler) :
    ∃ q, s.Placement q ∧
      (∀ p ∈ q .waitQueue, ∀ z ∈ q .exitQueue, (s.kernel.proc z).parent ≠ some p) ∧
      ∀ p ∈ s.live, (s.kernel.proc p).context = .wait →
        ∀ z ∈ q .exitQueue, (s.kernel.proc z).parent = some p →
          p ∈ q .runq ∧ ∀ s', Relation.ReflTransGen (Idle b p) s s' →
            ∃ q' : QueueName → List Addr,
              s'.kernel.Holds .exitQueue (q' .exitQueue) ∧ z ∈ q' .exitQueue ∧
              ∀ e s'', s'.actor e = some p → s'.exec b e = .ok s'' →
                ∃ y, Collects s' (q' .exitQueue) p y s'' := by
  obtain ⟨q, hi⟩ := h.inv
  refine ⟨q, hi.placement hc, fun p hp z hz => hi.waiting hp hz, fun p hp hctx z hz hpar => ?_⟩
  have ha : s.Awaits p z := by
    refine ⟨hp, hctx, fun hu => ?_, (hi.live z).mpr (Or.inl ⟨_, hz⟩), (hi.placed hz).1, hpar⟩
    rw [hc] at hu
    cases hu
  refine ⟨ha.parent_mem hi, fun s' hr => ?_⟩
  obtain ⟨h', ha'⟩ := ha.run h hr
  obtain ⟨q', hi'⟩ := h'.inv
  exact ⟨q', hi'.queued.holds .exitQueue, ha'.zombie_mem hi', fun e s'' hact he =>
    ha'.collects hi' hact he⟩

/-- A process that waits for its child, which ends. -/
theorem no_lost_wakeup_exit : ∃ (s : System) (q : QueueName → List Addr), s.Placement q ∧
    s.control = .scheduler ∧ (s.kernel.proc 0x80600000).context = .wait ∧
    (s.kernel.proc 0x80601000).state = .exited ∧
    ∀ p ∈ q .waitQueue, ∀ z ∈ q .exitQueue, (s.kernel.proc z).parent ≠ some p :=
  have hr : Reachable ⟨10000000, 0x80600000⟩ _ :=
    .step (e := .exit) (.step (e := .pick 0 true) (.step (e := .wait)
      (.step (e := .fork (some 0x80601000) true)
        (.step (e := .pick 0 true) (.boot (a := 0x80600000) (by decide)) rfl) rfl) rfl) rfl) rfl
  have hq := (no_lost_wakeup hr rfl).choose_spec
  ⟨_, _, hq.1, rfl, by decide, by decide, hq.2.1⟩

end Multiplix.Sched.System
