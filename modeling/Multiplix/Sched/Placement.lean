import Multiplix.Sched.System

/-! Every process is on one queue, the one that its state says, or runs. -/
namespace Multiplix.Sched

/-- What is known of the processes on a queue. -/
def Placed : QueueName → Proc → Prop
  | .runq, x => x.state = .runnable ∧ x.context ≠ .exit
  | .exitQueue, x => x.state = .exited ∧ x.context = .exit
  | .ticksQueue, x => x.state = .blocked ∧ x.wq = some .ticksQueue ∧ x.context ≠ .exit ∧
      x.context ≠ .wait
  | .waitQueue, x => x.state = .blocked ∧ x.wq = some .waitQueue ∧ x.context = .wait

namespace System

/-- The queues hold `q`. -/
structure Inv (s : System) (q : QueueName → List Addr) : Prop where
  queued : s.kernel.Queued q
  placed : ∀ {n a}, a ∈ q n → Placed n (s.kernel.core a)
  live : ∀ a, a ∈ s.live ↔ (∃ n, a ∈ q n) ∨ s.control = .user a
  running : ∀ {p}, s.control = .user p → (∀ n, p ∉ q n) ∧ (s.kernel.core p).state = .runnable
  waiting : ∀ {p z}, p ∈ q .waitQueue → z ∈ q .exitQueue → (s.kernel.core z).parent ≠ some p

variable {s s' : System} {q : QueueName → List Addr} {p a z : Addr} {n : QueueName} {r : Resume}

namespace Inv

/-- A change of the running process, or of one that does not exist yet, which leaves its state and
its links as they are. -/
theorem setProc (h : s.Inv q) {f : Proc → Proc}
    (hf : ∀ x, (f x).next = x.next ∧ (f x).prev = x.prev)
    (hs : ∀ x, (f x).state = x.state) (ha : ∀ n, a ∉ q n) :
    { s with kernel := s.kernel.setProc a f }.Inv q := by
  have hcore : ∀ {n b}, b ∈ q n → (s.kernel.setProc a f).core b = s.kernel.core b :=
    fun {n b} hb => by
      have hba : b ≠ a := fun he => ha n (he ▸ hb)
      rw [Kernel.core_setProc, Function.update_of_ne hba]
  refine ⟨h.queued.setProc hf, fun hb => ?_, h.live, fun hc => ⟨(h.running hc).1, ?_⟩,
    fun hp hz => ?_⟩
  · dsimp only
    rw [hcore hb]
    exact h.placed hb
  · have hst := (h.running hc).2
    dsimp only
    rw [Kernel.core_setProc, Function.update_apply]
    split_ifs with he
    · rw [he] at hst
      exact (hs _).trans hst
    · exact hst
  · dsimp only
    rw [hcore hz]
    exact h.waiting hp hz

theorem ret (h : s.Inv q) (hc : s.control = .user p) (v : BitVec 64) : (s.ret p v).Inv q := by
  have hr := h.setProc (a := p) (f := fun x => { x with retval := v }) (fun _ => ⟨rfl, rfl⟩)
    (fun _ => rfl) (h.running hc).1
  rwa [System.ret, ← hc]

/-- A process that is on no queue is put on queue `n`. -/
theorem push (h : s.Inv q) (hout : ∀ m, p ∉ q m) {x : Proc}
    (hq : s'.kernel.Queued (Function.update q n (p :: q n)))
    (hk : s'.kernel.core = Function.update s.kernel.core p x) (hx : Placed n x)
    (hlive : ∀ a, a ∈ s'.live ↔ a = p ∨ (∃ m, a ∈ q m) ∨ s'.control = .user a)
    (hrun : ∀ a, s'.control = .user a → a ≠ p ∧ s.control = .user a)
    (hw : n = .waitQueue → ∀ z ∈ q .exitQueue, (s.kernel.core z).parent ≠ some p)
    (he : n = .exitQueue → ∀ a ∈ q .waitQueue, x.parent ≠ some a) :
    s'.Inv (Function.update q n (p :: q n)) := by
  have hcore : ∀ {a}, a ≠ p → s'.kernel.core a = s.kernel.core a := fun ha => by
    rw [hk, Function.update_of_ne ha]
  have hne : ∀ {m a}, a ∈ q m → a ≠ p := fun {m a} ha he => hout m (he ▸ ha)
  have hself : s'.kernel.core p = x := by rw [hk, Function.update_self]
  refine ⟨hq, fun {m a} ha => ?_, fun a => ?_, fun {a} hc => ?_, fun {a z} ha hz => ?_⟩
  · rcases Kernel.Queued.mem_push.mp ha with ⟨rfl, rfl⟩ | ha
    · rwa [hself]
    · rw [hcore (hne ha)]
      exact h.placed ha
  · rw [hlive, ← or_assoc]
    refine or_congr_left ⟨?_, ?_⟩
    · rintro (rfl | ⟨m, hm⟩)
      · exact ⟨n, Kernel.Queued.mem_push.mpr (Or.inl ⟨rfl, rfl⟩)⟩
      · exact ⟨m, Kernel.Queued.mem_push.mpr (Or.inr hm)⟩
    · rintro ⟨m, hm⟩
      exact (Kernel.Queued.mem_push.mp hm).imp (·.1) (⟨m, ·⟩)
  · obtain ⟨hap, hc⟩ := hrun a hc
    obtain ⟨hno, hst⟩ := h.running hc
    refine ⟨fun m hm => ?_, by rwa [hcore hap]⟩
    exact (Kernel.Queued.mem_push.mp hm).elim (fun hm => hap hm.1) (hno m)
  · rcases Kernel.Queued.mem_push.mp hz with ⟨rfl, rfl⟩ | hz
    · rw [hself]
      rcases Kernel.Queued.mem_push.mp ha with ⟨-, hn⟩ | ha
      · cases hn
      · exact he rfl a ha
    · rw [hcore (hne hz)]
      rcases Kernel.Queued.mem_push.mp ha with ⟨rfl, rfl⟩ | ha
      · exact hw rfl z hz
      · exact h.waiting ha hz

/-- The running process is put on queue `n`, and the scheduler takes over. -/
theorem switch (h : s.Inv q) (hc : s.control = .user p) {k : Kernel} {x : Proc}
    (hq : k.Queued (Function.update q n (p :: q n)))
    (hk : k.core = Function.update s.kernel.core p x) (hx : Placed n x)
    (hw : n = .waitQueue → ∀ z ∈ q .exitQueue, (s.kernel.core z).parent ≠ some p)
    (he : n = .exitQueue → ∀ a ∈ q .waitQueue, x.parent ≠ some a) :
    { s with kernel := k, control := .scheduler }.Inv (Function.update q n (p :: q n)) := by
  refine h.push (h.running hc).1 hq hk hx (fun a => ?_) (fun a hc => by cases hc) hw he
  rw [h.live, hc, Control.user.injEq, eq_comm (a := p), or_comm]
  simp

/-- The running process puts itself on a queue and does not run on. -/
theorem wait (h : s.Inv q) (hc : s.control = .user p) {st : ProcState} (hst : st ≠ .runnable)
    (hp : ∀ x : Proc, Placed n { x with state := st, wq := some n, context := r })
    (hw : n = .waitQueue → ∀ z ∈ q .exitQueue, (s.kernel.core z).parent ≠ some p)
    (he : n = .exitQueue → ∀ a ∈ q .waitQueue, (s.kernel.core p).parent ≠ some a) :
    ({ s with kernel := s.kernel.wait p n st }.yield p r).Inv
      (Function.update q n (p :: q n)) := by
  have hq := ((h.queued.setProc (p := p) (f := fun x => { x with state := st, wq := some n })
    fun _ => ⟨rfl, rfl⟩).pushFront (n := n) (h.running hc).1).setProc (p := p)
    (f := fun x => { x with context := r }) fun _ => ⟨rfl, rfl⟩
  have hk : ((s.kernel.wait p n st).setProc p fun x => { x with context := r }).core =
      Function.update s.kernel.core p
        { s.kernel.core p with state := st, wq := some n, context := r } := by
    refine (Kernel.core_setProc_of (f := fun x => { x with context := r })).trans ?_
    rw [Kernel.core_wait, Function.update_self, Function.update_idem]
  have hstate : (((s.kernel.wait p n st).setProc p fun x =>
      { x with context := r }).core p).state = st := by
    rw [hk, Function.update_self]
  have hif : ¬ (((s.kernel.wait p n st).setProc p fun x => { x with context := r }).proc p).state =
      .runnable := fun hc => hst (hstate.symm.trans hc)
  rw [System.yield]
  dsimp only
  rw [if_neg hif]
  exact h.switch hc hq hk (hp _) hw he

/-- The running process gives way to others. -/
theorem preempt (h : s.Inv q) (hc : s.control = .user p) :
    (s.yield p .user).Inv (Function.update q .runq (p :: q .runq)) := by
  obtain ⟨hout, hst⟩ := h.running hc
  have hk : (s.kernel.setProc p fun x => { x with context := .user }).core =
      Function.update s.kernel.core p { s.kernel.core p with context := .user } :=
    Kernel.core_setProc_of
  have hif : ((s.kernel.setProc p fun x => { x with context := .user }).proc p).state =
      .runnable := by
    rw [Kernel.setProc_self]
    exact hst
  have hq := (h.queued.setProc (p := p) (f := fun x => { x with context := .user })
    fun _ => ⟨rfl, rfl⟩).pushFront (n := .runq) hout
  rw [System.yield, if_pos hif]
  refine h.switch hc hq (Kernel.core_pushFront.trans hk) ⟨hst, by simp⟩ (fun he => ?_) fun he => ?_
  · cases he
  · cases he

/-- Processes that were blocked are woken. -/
theorem woken (h : s.Inv q) {k : Kernel} {q' : QueueName → List Addr} {w : Addr → Prop}
    [DecidablePred w] (hq : k.Queued q')
    (hw : ∀ a, w a → a ∈ q .ticksQueue ∨ a ∈ q .waitQueue)
    (hmem : ∀ n a, a ∈ q' n ↔ w a ∧ n = .runq ∨ ¬ w a ∧ a ∈ q n)
    (hk : ∀ a, k.core a = if w a then (s.kernel.core a).awake else s.kernel.core a) :
    { s with kernel := k }.Inv q' := by
  have hsame : ∀ {a}, ¬ w a → k.core a = s.kernel.core a := fun ha => by rw [hk, if_neg ha]
  refine ⟨hq, fun {n a} ha => ?_, fun a => ?_, fun {p} hc => ?_, fun {p z} hp hz => ?_⟩
  · rcases (hmem n a).mp ha with ⟨hwa, rfl⟩ | ⟨hwa, ha⟩
    · dsimp only
      rw [hk, if_pos hwa]
      refine ⟨rfl, ?_⟩
      rcases hw a hwa with hin | hin
      · exact (h.placed hin).2.2.1
      · have hcx : (s.kernel.core a).context = .wait := (h.placed hin).2.2
        rw [Proc.awake, hcx]
        exact Resume.noConfusion
    · dsimp only
      rw [hsame hwa]
      exact h.placed ha
  · rw [h.live]
    refine or_congr_left ⟨fun ⟨n, ha⟩ => ?_, fun ⟨n, ha⟩ => ?_⟩
    · by_cases hwa : w a
      · exact ⟨.runq, (hmem _ a).mpr (Or.inl ⟨hwa, rfl⟩)⟩
      · exact ⟨n, (hmem _ a).mpr (Or.inr ⟨hwa, ha⟩)⟩
    · rcases (hmem n a).mp ha with ⟨hwa, -⟩ | ⟨-, ha⟩
      · exact (hw a hwa).elim (⟨_, ·⟩) (⟨_, ·⟩)
      · exact ⟨n, ha⟩
  · obtain ⟨hout, hst⟩ := h.running hc
    have hwp : ¬ w p := fun hwp => (hw p hwp).elim (hout _) (hout _)
    refine ⟨fun n hn => ?_, ?_⟩
    · rcases (hmem n p).mp hn with ⟨hwp', -⟩ | ⟨-, hn⟩
      · exact hwp hwp'
      · exact hout n hn
    · dsimp only
      rw [hsame hwp]
      exact hst
  · rcases (hmem _ p).mp hp with ⟨-, hn⟩ | ⟨-, hp⟩
    · cases hn
    rcases (hmem _ z).mp hz with ⟨-, hn⟩ | ⟨hwz, hz⟩
    · cases hn
    dsimp only
    rw [hsame hwz]
    exact h.waiting hp hz

/-- A timer interrupt wakes the processes that wait for time to pass. -/
theorem irqHandler (h : s.Inv q) : ∃ k q', s.kernel.irqHandler = .ok k ∧
    { s with kernel := k }.Inv q' := by
  obtain ⟨k, hok, hq, hk⟩ := h.queued.wakeAll (n := .ticksQueue) (by decide)
    fun a ha => (h.placed ha).1
  refine ⟨k, _, hok, h.woken (w := (· ∈ q .ticksQueue)) hq (fun a ha => Or.inl ha)
    (fun n a => ?_) (congrFun hk)⟩
  simp only [Function.update_apply]
  split_ifs with h1 h2
  · subst h1
    by_cases ha : a ∈ q .ticksQueue <;> simp [ha]
  · subst h2
    simp
  · have hdis : a ∈ q n → a ∉ q .ticksQueue := fun ha ha' => h2 (h.queued.disjoint ha ha')
    simp only [h1, and_false, false_or, iff_and_self]
    exact hdis

/-- A process that ends wakes its parent if it waits. -/
theorem wakeParent (h : s.Inv q) (hc : s.control = .user p) :
    s.wakeParent p = .error .dangling ∨ ∃ k q', s.wakeParent p = .ok k ∧
      { s with kernel := k }.Inv q' ∧ ∀ a ∈ q' .waitQueue, (k.core p).parent ≠ some a := by
  have hcore : ∀ {o}, (s.kernel.proc p).parent = o → (s.kernel.core p).parent = o := id
  rw [System.wakeParent]
  cases hpar : (s.kernel.proc p).parent with
  | none =>
    refine Or.inr ⟨s.kernel, q, rfl, h, fun a _ ha => ?_⟩
    rw [hcore hpar] at ha
    cases ha
  | some x =>
    dsimp only
    by_cases hlive : x ∈ s.live
    swap
    · exact Or.inl (if_pos hlive)
    rw [if_neg (not_not.mpr hlive)]
    split_ifs with hblk
    · obtain ⟨hst, hwq⟩ : (s.kernel.core x).state = .blocked ∧
        (s.kernel.core x).wq = some .waitQueue := hblk
      have hx : x ∈ q .waitQueue := by
        rcases (h.live x).mp hlive with ⟨n, hn⟩ | hcx
        · have hpl := h.placed hn
          cases n with
          | runq => exact absurd (hst.symm.trans hpl.1) (by decide)
          | exitQueue => exact absurd (hst.symm.trans hpl.1) (by decide)
          | ticksQueue => exact absurd (hwq.symm.trans hpl.2.1) (by decide)
          | waitQueue => exact hn
        · exact absurd (hst.symm.trans (h.running hcx).2) (by decide)
      obtain ⟨k, hok, hq, hk⟩ := h.queued.wake hx (by decide) hst
      have hmem : ∀ n a, a ∈ Function.update (Function.update q .waitQueue
          ((q .waitQueue).erase x)) .runq (x :: q .runq) n ↔
          a = x ∧ n = .runq ∨ a ≠ x ∧ a ∈ q n := fun n a => by
        simp only [Function.update_apply]
        split_ifs with h1 h2
        · subst h1
          by_cases ha : a = x <;> simp [ha]
        · subst h2
          simp [(h.queued.holds .waitQueue).dll.nodup.mem_erase_iff]
        · have hne : a ∈ q n → a ≠ x := fun ha he => h2 (h.queued.disjoint ha (he ▸ hx))
          simp only [h1, and_false, false_or, iff_and_self]
          exact hne
      have hpx : p ≠ x := fun he => (h.running hc).1 _ (he ▸ hx)
      refine Or.inr ⟨k, _, hok, h.woken (w := (· = x)) hq (fun a ha => Or.inr (ha ▸ hx)) hmem
        (fun a => by rw [hk, Function.update_apply]; split_ifs with ha <;> simp [ha]),
        fun a ha hpa => ?_⟩
      rcases (hmem _ a).mp ha with ⟨-, hn⟩ | ⟨hax, -⟩
      · cases hn
      · rw [hk, Function.update_of_ne hpx, hcore hpar, Option.some.injEq] at hpa
        exact hax hpa.symm
    · refine Or.inr ⟨s.kernel, q, rfl, h, fun a ha hpa => hblk ?_⟩
      rw [hcore hpar, Option.some.injEq] at hpa
      exact ⟨hpa ▸ (h.placed ha).1, hpa ▸ (h.placed ha).2.1⟩

/-- A process that has ended is taken from its queue and freed. -/
theorem reap (h : s.Inv q) (hz : z ∈ q .exitQueue) :
    ({ s with kernel := s.kernel.remove .exitQueue z }.free z).Inv
      (Function.update q .exitQueue ((q .exitQueue).erase z)) := by
  have hnd := (h.queued.holds .exitQueue).dll.nodup
  have hcore : (s.kernel.remove .exitQueue z).core = s.kernel.core := Kernel.core_remove
  have hsub : ∀ {n a}, a ∈ Function.update q .exitQueue ((q .exitQueue).erase z) n → a ∈ q n :=
    Kernel.Queued.mem_of_mem_erase
  refine ⟨h.queued.remove hz, fun {n a} ha => ?_, fun a => ?_, fun hc => ⟨fun n hn => ?_, ?_⟩,
    fun {p y} hp hy => ?_⟩
  · rw [System.free, hcore]
    exact h.placed (hsub ha)
  · rw [System.free, Finset.mem_erase, h.live]
    have hctl : s.control = .user a → a ≠ z := fun hc he => (h.running hc).1 _ (he ▸ hz)
    constructor
    · rintro ⟨hne, ⟨n, hn⟩ | hc⟩
      · refine Or.inl ⟨n, ?_⟩
        rw [Function.update_apply]
        split_ifs with he
        · exact (List.mem_erase_of_ne hne).mpr (he ▸ hn)
        · exact hn
      · exact Or.inr hc
    · rintro (⟨n, hn⟩ | hc)
      · refine ⟨fun he => ?_, Or.inl ⟨n, hsub hn⟩⟩
        subst he
        rw [h.queued.disjoint (hsub hn) hz, Function.update_self] at hn
        exact hnd.not_mem_erase hn
      · exact ⟨hctl hc, Or.inr hc⟩
  · exact (h.running hc).1 n (hsub hn)
  · rw [System.free, hcore]
    exact (h.running hc).2
  · rw [System.free, hcore]
    exact h.waiting (hsub hp) (hsub hy)

theorem waitLoop (h : s.Inv q) (hc : s.control = .user p) : ∃ q', (s.waitLoop p).Inv q' := by
  rw [System.waitLoop, h.queued.findZombie]
  cases hf : (q .exitQueue).find? fun z => (s.kernel.core z).parent = some p with
  | none =>
    refine ⟨_, h.wait (n := .waitQueue) hc (by decide) (fun _ => ⟨rfl, rfl, rfl⟩) (fun _ z hz => ?_)
      fun he => by cases he⟩
    simpa using List.find?_eq_none.mp hf z hz
  | some z =>
    have hz := List.mem_of_find?_eq_some hf
    have hr := h.reap hz
    have hset := hr.setProc (f := fun x => { x with children := x.children - 1 })
      (fun _ => ⟨rfl, rfl⟩) (fun _ => rfl) (hr.running hc).1
    exact ⟨_, hset.ret hc _⟩

theorem sysWait (h : s.Inv q) (hc : s.control = .user p) : ∃ q', (s.sysWait p).Inv q' := by
  rw [System.sysWait]
  split_ifs
  · exact ⟨q, h.ret hc _⟩
  · exact h.waitLoop hc

theorem suspendTicks (h : s.Inv q) (hc : s.control = .user p) (hr : r ≠ .exit) (hr' : r ≠ .wait) :
    ∃ q', (s.suspend p .ticksQueue r).Inv q' :=
  ⟨_, h.wait (n := .ticksQueue) hc (by decide) (fun _ => ⟨rfl, rfl, hr, hr'⟩)
    (fun he => by cases he) fun he => by cases he⟩

theorem usleepLoop (h : s.Inv q) (hc : s.control = .user p) (freq start us now : BitVec 64) :
    ∃ q', (s.usleepLoop p freq start us now).Inv q' := by
  rw [System.usleepLoop]
  split_ifs
  · exact ⟨q, h.ret hc _⟩
  · exact h.suspendTicks hc Resume.noConfusion Resume.noConfusion

theorem memoryLoop (h : s.Inv q) (hc : s.control = .user p) (mem : Bool) :
    ∃ q', (s.memoryLoop p mem).Inv q' := by
  rw [System.memoryLoop]
  split_ifs
  · rw [← hc]
    exact ⟨q, h⟩
  · exact h.suspendTicks hc Resume.noConfusion Resume.noConfusion

theorem notMem (h : s.Inv q) (ha : a ∉ s.live) (n : QueueName) : a ∉ q n := fun hn =>
  ha ((h.live a).mpr (Or.inl ⟨n, hn⟩))

/-- Memory that is in no use may change. -/
theorem setFresh (h : s.Inv q) (ha : a ∉ s.live) (f : Proc → Proc) (pid : BitVec 32) :
    { s with kernel := s.kernel.setProc a f, nextPid := pid }.Inv q := by
  have hcore : ∀ {b}, b ≠ a → (s.kernel.setProc a f).core b = s.kernel.core b := fun hb => by
    rw [Kernel.core_setProc, Function.update_of_ne hb]
  have hne : ∀ {b}, b ∈ s.live → b ≠ a := fun hb he => ha (he ▸ hb)
  have hin : ∀ {n b}, b ∈ q n → b ≠ a := fun {n b} hb => hne ((h.live b).mpr (Or.inl ⟨n, hb⟩))
  refine ⟨h.queued.setFresh (h.notMem ha), fun hb => ?_, h.live, fun {p} hc => ?_, fun hp hz => ?_⟩
  · dsimp only
    rw [hcore (hin hb)]
    exact h.placed hb
  · dsimp only
    rw [hcore (hne ((h.live p).mpr (Or.inr hc)))]
    exact h.running hc
  · dsimp only
    rw [hcore (hin hz)]
    exact h.waiting hp hz

/-- The parent counts the child, and the child is put on the run queue. -/
theorem addChild (h : s.Inv q) (hc : s.control = .user p) (ha : a ∉ s.live) :
    (((s.makeEmpty a).makeFromParent p a).addChild p a).Inv
      (Function.update q .runq (a :: q .runq)) := by
  have hpa : p ≠ a := fun he => ha (he ▸ (h.live p).mpr (Or.inr hc))
  have hout := h.notMem ha
  have hp := h.setProc (f := fun x => { x with children := x.children + 1 })
    (fun _ => ⟨rfl, rfl⟩) (fun _ => rfl) (h.running hc).1
  refine hp.push (n := .runq) (x := { Proc.init with pid := s.nextPid, parent := some p }) hout
    ?_ ?_ ⟨rfl, by simp [Proc.init]⟩ (fun b => ?_) (fun b hb => ⟨fun he => ?_, hb⟩)
    (fun he => by cases he) fun he => by cases he
  · refine Kernel.Queued.pushFront ?_ hout
    refine Kernel.Queued.setProc (Kernel.Queued.setProc ?_ fun _ => ⟨rfl, rfl⟩) fun _ => ⟨rfl, rfl⟩
    exact (h.queued.setFresh hout).setProc (p := a)
      (f := fun x => { x with parent := some p, retval := _ }) fun _ => ⟨rfl, rfl⟩
  · rw [System.addChild, Kernel.core_pushFront]
    funext b
    simp only [Kernel.core, Kernel.setProc, System.makeEmpty, System.makeFromParent,
      Function.update_apply]
    split_ifs <;> simp_all [Proc.core, Proc.init]
  · change b ∈ insert a s.live ↔ _
    rw [Finset.mem_insert, h.live]
    rfl
  · change s.control = .user b at hb
    rw [hc, Control.user.injEq] at hb
    exact hpa (hb.trans he)

theorem sysFork (h : s.Inv q) (hc : s.control = .user p) {o : Option Addr} (mapped : Bool)
    (ha : ∀ a ∈ o, a ∉ s.live) : ∃ q', (s.sysFork p o mapped).Inv q' := by
  cases o with
  | none => exact ⟨q, h.ret hc _⟩
  | some a =>
    have ha : a ∉ s.live := ha a rfl
    rw [System.sysFork]
    dsimp only
    split_ifs
    · have hf := h.setFresh ha (fun _ => { Proc.init with pid := s.nextPid }) (s.nextPid + 1)
      have hlive : (insert a s.live).erase a = s.live := Finset.erase_insert ha
      rw [System.free, System.makeEmpty, hlive]
      exact ⟨q, hf.ret hc _⟩
    · exact ⟨_, (h.addChild hc ha).ret hc _⟩

theorem sysExit (h : s.Inv q) (hc : s.control = .user p) :
    s.sysExit p = .error .dangling ∨ ∃ s' q', s.sysExit p = .ok s' ∧ s'.Inv q' := by
  rcases h.wakeParent hc with hd | ⟨k, q', hok, hi, hpar⟩ <;> rw [System.sysExit]
  · rw [hd]
    exact Or.inl rfl
  · rw [hok]
    exact Or.inr ⟨_, _, rfl, hi.wait (n := .exitQueue) hc (by decide) (fun _ => ⟨rfl, rfl⟩)
      (fun he => by cases he) fun _ => hpar⟩

/-- After the switch to a process, it goes on as it says. -/
theorem resume (h : s.Inv q) (hc : s.control = .user p) (hx : (s.kernel.core p).context ≠ .exit)
    (freq now : BitVec 64) (mem : Bool) :
    ∃ s' q', s.resume p freq now mem = .ok s' ∧ s'.Inv q' := by
  have hctx : ∀ {r}, (s.kernel.proc p).context = r → (s.kernel.core p).context = r := id
  rw [System.resume]
  cases hr : (s.kernel.proc p).context with
  | user =>
    rw [← hc]
    exact ⟨s, q, rfl, h⟩
  | wait => exact (h.waitLoop hc).elim fun q' hi => ⟨_, q', rfl, hi⟩
  | usleep start us => exact (h.usleepLoop hc freq start us now).elim fun q' hi => ⟨_, q', rfl, hi⟩
  | memory => exact (h.memoryLoop hc mem).elim fun q' hi => ⟨_, q', rfl, hi⟩
  | exit => exact absurd (hctx hr) hx

/-- The scheduler switches to the process at the back of the run queue. -/
theorem dispatch (h : s.Inv q) (hc : s.control = .scheduler) {xs : List Addr}
    (hq : q .runq = xs ++ [p]) :
    s.kernel.popBack .runq = (some p, s.kernel.remove .runq p) ∧
      { s with kernel := s.kernel.remove .runq p, control := .user p }.Inv
        (Function.update q .runq xs) := by
  obtain ⟨hpop, hrem⟩ := h.queued.popBack hq
  have hcore : (s.kernel.remove .runq p).core = s.kernel.core := Kernel.core_remove
  have hp : p ∈ q .runq := by simp [hq]
  have hnd := (h.queued.holds .runq).dll.nodup
  rw [hq, List.nodup_append] at hnd
  have hpx : p ∉ xs := fun hx => hnd.2.2 p hx p (by simp) rfl
  have hsub : ∀ {n a}, a ∈ Function.update q .runq xs n ↔ a ∈ q n ∧ a ≠ p := fun {n a} => by
    rw [Function.update_apply]
    split_ifs with hn
    · subst hn
      rw [hq]
      constructor
      · exact fun ha => ⟨List.mem_append_left _ ha, fun he => hpx (he ▸ ha)⟩
      · rintro ⟨ha, hne⟩
        simpa [hne] using ha
    · exact iff_self_and.mpr fun ha he => hn (h.queued.disjoint (he ▸ ha) hp)
  refine ⟨hpop, hrem, fun ha => ?_, fun a => ?_, fun {b} hb => ?_, fun {b z} hb hz => ?_⟩
  · dsimp only
    rw [hcore]
    exact h.placed (hsub.mp ha).1
  · rw [h.live, hc]
    simp only [hsub, Control.user.injEq, reduceCtorEq, or_false]
    constructor
    · rintro ⟨n, hn⟩
      by_cases he : a = p
      · exact Or.inr he.symm
      · exact Or.inl ⟨n, hn, he⟩
    · rintro (⟨n, hn, -⟩ | rfl)
      · exact ⟨n, hn⟩
      · exact ⟨.runq, hp⟩
  · obtain rfl : p = b := Control.user.inj hb
    refine ⟨fun n hn => (hsub.mp hn).2 rfl, ?_⟩
    dsimp only
    rw [hcore]
    exact (h.placed hp).1
  · dsimp only
    rw [hcore]
    exact h.waiting (hsub.mp hb).1 (hsub.mp hz).1

theorem pick (h : s.Inv q) (hc : s.control = .scheduler) (freq now : BitVec 64) (mem : Bool) :
    ∃ s' q', s.pick freq now mem = .ok s' ∧ s'.Inv q' := by
  rw [System.pick]
  rcases List.eq_nil_or_concat (q .runq) with hq | ⟨xs, p, hq⟩
  · rw [h.queued.popBack_nil hq]
    exact ⟨s, q, rfl, h⟩
  · rw [List.concat_eq_append] at hq
    obtain ⟨hpop, hi⟩ := h.dispatch hc hq
    rw [hpop]
    refine hi.resume rfl ?_ freq now mem
    dsimp only
    rw [Kernel.core_remove]
    exact (h.placed (by simp [hq] : p ∈ q .runq)).2

end Inv

/-- What an event leads to: the process places stay as they should, and no assertion fails. -/
def Fine : Except Stop System → Prop
  | .ok s => ∃ q, s.Inv q
  | .error x => x = .dangling ∨ x = .disabled

theorem Inv.exec (h : s.Inv q) (b : Board) (e : Event) : Fine (s.exec b e) := by
  have hdis : Fine (.error .disabled) := Or.inr rfl
  have hok : ∀ {y : Except Stop System}, (∃ s' q', y = .ok s' ∧ s'.Inv q') → Fine y :=
    fun ⟨_, q', he, hi⟩ => he ▸ ⟨q', hi⟩
  have hexit : ∀ {p}, s.control = .user p → Fine (s.sysExit p) := fun {p} hc =>
    (h.sysExit hc).elim (fun hd => hd ▸ Or.inl rfl) hok
  obtain ⟨k, q', hk, hi⟩ := h.irqHandler
  rw [System.exec]
  cases hc : s.control with
  | scheduler =>
    cases e with
    | pick now mem => exact hok (h.pick hc b.mtimeFreq now mem)
    | tick =>
      simp only [schedule]
      split_ifs
      · exact hdis
      · rw [hk]
        exact ⟨q', hi⟩
    | _ => exact hdis
  | user p =>
    cases e with
    | pick now mem => exact hdis
    | tick =>
      simp only [user, hk]
      exact ⟨_, hi.preempt hc⟩
    | fork a mapped =>
      simp only [user]
      split_ifs with ha
      · refine h.sysFork hc _ fun x hx => ?_
        rw [Option.mem_def.mp hx] at ha
        exact (of_decide_eq_true ha).1
      · exact hdis
    | wait => exact h.sysWait hc
    | usleep us start now => exact h.usleepLoop hc b.mtimeFreq start us now
    | exit => exact hexit hc
    | kill => exact hexit hc
    | copy mem => exact h.memoryLoop hc mem

theorem inv_init : init.Inv fun _ => [] :=
  ⟨⟨fun _ => ⟨.nil _, rfl⟩, fun ha => by cases ha⟩, fun ha => (by cases ha), fun a => by
    simp [init], fun hc => (by cases hc), fun hp => (by cases hp)⟩

theorem inv_boot (a : Addr) : ∃ q, (boot a).Inv q := by
  have hout : ∀ n : QueueName, a ∉ (fun _ => [] : QueueName → List Addr) n := fun _ h => by cases h
  refine ⟨_, inv_init.push (n := .runq) (x := { Proc.init with pid := 0 }) hout ?_ ?_
    ⟨rfl, by simp [Proc.init]⟩ (fun b => ?_) (fun b hc => by cases hc) (fun he => by cases he)
    fun he => by cases he⟩
  · exact (inv_init.queued.setFresh hout).pushFront hout
  · rw [boot, Kernel.core_pushFront]
    exact Kernel.core_setProc (f := fun _ => { Proc.init with pid := 0 })
  · simp [boot, makeEmpty, init]

theorem Reachable.inv {b : Board} (h : Reachable b s) : ∃ q, s.Inv q := by
  induction h with
  | boot _ => exact inv_boot _
  | @step s s' e _ he ih =>
    obtain ⟨q, hi⟩ := ih
    have hf := hi.exec b e
    rwa [he] at hf

/-- Every process is on one queue, once, and its state says on which. -/
structure Placement (s : System) (q : QueueName → List Addr) : Prop where
  holds : ∀ n, s.kernel.Holds n (q n)
  live : ∀ n, ∀ p ∈ q n, p ∈ s.live
  one : ∀ p ∈ s.live, ∃! n, p ∈ q n
  once : ∀ p ∈ s.live, ∀ n, p ∈ q n → (q n).count p = 1
  runnable : ∀ p ∈ s.live, (s.kernel.proc p).state = .runnable ↔ p ∈ q .runq
  blocked : ∀ p ∈ s.live, (s.kernel.proc p).state = .blocked ↔
    p ∈ q .ticksQueue ∨ p ∈ q .waitQueue
  ticks : ∀ p ∈ q .ticksQueue, (s.kernel.proc p).wq = some .ticksQueue
  wait : ∀ p ∈ q .waitQueue, (s.kernel.proc p).wq = some .waitQueue
  exited : ∀ p ∈ s.live, (s.kernel.proc p).state = .exited ↔ p ∈ q .exitQueue

theorem Inv.placement (h : s.Inv q) (hc : s.control = .scheduler) : s.Placement q := by
  have hin : ∀ p ∈ s.live, ∃ n, p ∈ q n := fun p hp =>
    ((h.live p).mp hp).resolve_right fun hu => by rw [hc] at hu; cases hu
  have hst : ∀ {n p}, p ∈ q n → Placed n (s.kernel.core p) := h.placed
  have hone : ∀ {n m p}, p ∈ q n → p ∈ q m → n = m := h.queued.disjoint
  refine ⟨h.queued.holds, fun n p hp => (h.live p).mpr (Or.inl ⟨n, hp⟩), fun p hp => ?_,
    fun p _ n hn => List.count_eq_one_of_mem (h.queued.holds n).dll.nodup hn, fun p hp => ?_,
    fun p hp => ?_, fun p hp => (hst hp).2.1, fun p hp => (hst hp).2.1, fun p hp => ?_⟩ <;>
    obtain ⟨n, hn⟩ := hin p hp
  · exact ⟨n, hn, fun m hm => hone hm hn⟩
  all_goals
    change (s.kernel.core p).state = _ ↔ _
    have hpl := hst hn
    have hmem : ∀ m, p ∈ q m ↔ m = n := fun m => ⟨fun hm => hone hm hn, fun he => he ▸ hn⟩
    cases n <;> simp [hmem, hpl.1]

/-- Whenever the scheduler picks a process, all processes are where their states say, and neither
`Queue.wake` nor `sys_exit` fails an assertion. -/
theorem process_placement {b : Board} (h : Reachable b s) :
    (s.control = .scheduler → ∃ q, s.Placement q) ∧
      ∀ e, s.exec b e ≠ .error .notBlocked ∧ s.exec b e ≠ .error .exitedResumed := by
  obtain ⟨q, hi⟩ := h.inv
  refine ⟨fun hc => ⟨q, hi.placement hc⟩, fun e => ?_⟩
  have hf := hi.exec b e
  constructor <;>
  · intro hx
    rw [hx] at hf
    rcases hf with hf | hf <;> cases hf

/-- A parent that waits for its child. -/
theorem process_placement_wait :
    ∃ (s : System) (q : QueueName → List Addr), s.Placement q ∧
      s.live = {0x80600000, 0x80601000} ∧ (s.kernel.proc 0x80600000).state = .blocked :=
  have hr : Reachable ⟨10000000, 0x80600000⟩ _ :=
    .step (e := .wait) (.step (e := .fork (some 0x80601000) true)
      (.step (e := .pick 0 true) (.boot (a := 0x80600000) (by decide)) rfl) rfl) rfl
  ⟨_, _, ((process_placement hr).1 rfl).choose_spec, by decide, by decide⟩

end System
end Multiplix.Sched
