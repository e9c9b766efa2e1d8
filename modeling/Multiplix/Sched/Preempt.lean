import Multiplix.Sched.Placement

/-! `runnable_proc` takes a process from the run queue while interrupts are on: a timer interrupt
may come between any two statements of `pop_back` and `remove`. -/
namespace Multiplix.Sched

/-- The statements of `Queue.pop_back` and `Queue.remove`. -/
inductive Point
  /-- `if (back == null)` -/
  | testBack
  /-- `return null` -/
  | retNull
  /-- `Proc* b = back` -/
  | readBack
  /-- `if (p.next != null)` -/
  | testNext
  /-- `p.next.prev = p.prev` -/
  | setNextPrev
  /-- `back = p.prev` -/
  | setBack
  /-- `if (p.prev != null)` -/
  | testPrev
  /-- `p.prev.next = p.next` -/
  | setPrevNext
  /-- `front = p.next` -/
  | setFront
  /-- `size--` -/
  | decSize
  /-- `return b` -/
  | ret

namespace Kernel

/-- A timer interrupt, if there is one. -/
def interrupt (t : Bool) (k : Kernel) : Except Stop Kernel := if t then k.irqHandler else .ok k

/-- The first `if` of `Queue.remove`. -/
def relinkPrev (t : Point → Bool) (k : Kernel) (n : QueueName) (p : Addr) : Except Stop Kernel :=
  if (k.proc p).next ≠ none then do
    let k ← k.interrupt (t .setNextPrev)
    match (k.proc p).next with
    | some y => .ok (k.setPrev y (k.proc p).prev)
    | none => .error .null
  else do
    let k ← k.interrupt (t .setBack)
    .ok (k.setQueue n fun q => { q with back := (k.proc p).prev })

/-- The second `if` of `Queue.remove`. -/
def relinkNext (t : Point → Bool) (k : Kernel) (n : QueueName) (p : Addr) : Except Stop Kernel :=
  if (k.proc p).prev ≠ none then do
    let k ← k.interrupt (t .setPrevNext)
    match (k.proc p).prev with
    | some y => .ok (k.setNext y (k.proc p).next)
    | none => .error .null
  else do
    let k ← k.interrupt (t .setFront)
    .ok (k.setQueue n fun q => { q with front := (k.proc p).next })

/-- `Queue.remove` with timer interrupts before the statements in `t`. -/
def removeAmid (t : Point → Bool) (k : Kernel) (n : QueueName) (p : Addr) :
    Except Stop Kernel := do
  let k ← k.interrupt (t .testNext)
  let k ← k.relinkPrev t n p
  let k ← k.interrupt (t .testPrev)
  let k ← k.relinkNext t n p
  let k ← k.interrupt (t .decSize)
  .ok (k.setQueue n fun q => { q with size := q.size - 1 })

/-- `Queue.pop_back` with timer interrupts before the statements in `t`. -/
def popBackAmid (t : Point → Bool) (k : Kernel) (n : QueueName) :
    Except Stop (Option Addr × Kernel) := do
  let k ← k.interrupt (t .testBack)
  if (k.queue n).back = none then do
    let k ← k.interrupt (t .retNull)
    .ok (none, k)
  else do
    let k ← k.interrupt (t .readBack)
    match (k.queue n).back with
    | none => .error .null
    | some b => do
      let k ← k.removeAmid t n b
      let k ← k.interrupt (t .ret)
      .ok (some b, k)

/-- Repeated calls of `pop_back`. -/
def popAll (n : QueueName) : ℕ → Kernel → List Addr
  | 0, _ => []
  | fuel + 1, k =>
    match k.popBack n with
    | (none, _) => []
    | (some p, k) => p :: popAll n fuel k

variable {k k' : Kernel} {n : QueueName} {p : Addr} {q : QueueName → List Addr} {t : Bool}
  {f : Queue → Queue}

theorem ok_bind {A B : Type} {a : A} {g : A → Except Stop B} : (Except.ok a >>= g) = g a := rfl

theorem relinkPrev_never : k.relinkPrev (fun _ => false) n p = .ok (match (k.proc p).next with
    | some y => k.setPrev y (k.proc p).prev
    | none => k.setQueue n fun q => { q with back := (k.proc p).prev }) := by
  rw [relinkPrev]
  cases hn : (k.proc p).next <;> simp [hn, interrupt, ok_bind]

theorem relinkNext_never : k.relinkNext (fun _ => false) n p = .ok (match (k.proc p).prev with
    | some y => k.setNext y (k.proc p).next
    | none => k.setQueue n fun q => { q with front := (k.proc p).next }) := by
  rw [relinkNext]
  cases hp : (k.proc p).prev <;> simp [hp, interrupt, ok_bind]

/-- Without interrupts, this is `pop_back`. -/
theorem popBackAmid_never : k.popBackAmid (fun _ => false) n = .ok (k.popBack n) := by
  have hrem : ∀ p, k.removeAmid (fun _ => false) n p = .ok (k.remove n p) := fun p => by
    rw [removeAmid]
    simp only [relinkPrev_never, relinkNext_never, interrupt, ok_bind, Bool.false_eq_true, if_false]
    rfl
  rw [popBackAmid]
  simp only [hrem, interrupt, ok_bind, Bool.false_eq_true, if_false]
  rw [popBack]
  cases hb : (k.queue n).back <;> rfl

/-! ### An interrupt and a change of the run queue's other fields -/

/-- A change `f` of the run queue that an insertion does not see. -/
structure Blind (f : Queue → Queue) (k : Kernel) : Prop where
  front : ∀ q, (f q).front = q.front
  push : ∀ q p, f { q with front := some p, size := q.size + 1 } =
    { f q with front := some p, size := (f q).size + 1 }
  back : (k.queue .runq).front ≠ none ∨ ∀ q p, f { q with back := some p } =
    { f q with back := some p }

theorem pushFront_setQueue (h : Blind f k) :
    (k.setQueue .runq f).pushFront .runq p = (k.pushFront .runq p).setQueue .runq f := by
  have hq : ((k.setQueue .runq f).queue .runq).front = (k.queue .runq).front := by
    rw [setQueue_self, h.front]
  rw [pushFront, pushFront, hq]
  cases hn : (k.queue .runq).front with
  | none =>
    have hback := h.push { k.queue .runq with back := some p } p
    rw [h.back.resolve_left (not_not.mpr hn)] at hback
    simp only [setQueue, setNext, setPrev, setProc, Function.update_self, Function.update_idem]
    rw [hback]
  | some y =>
    have hpush := h.push (k.queue .runq) p
    simp only [setQueue, setNext, setPrev, setProc, Function.update_self, Function.update_idem]
    rw [hpush]

theorem remove_setQueue (hn : n ≠ .runq) :
    (k.setQueue .runq f).remove n p = (k.remove n p).setQueue .runq f := by
  have hcomm : ∀ (k : Kernel) g, (k.setQueue .runq f).setQueue n g =
      (k.setQueue n g).setQueue .runq f := fun k g => by
    simp only [setQueue, Function.update_of_ne hn, Function.update_of_ne hn.symm,
      Function.update_comm hn]
  have hnext : ∀ (k : Kernel) y o, (k.setQueue .runq f).setNext y o =
      (k.setNext y o).setQueue .runq f := fun _ _ _ => rfl
  have hprev : ∀ (k : Kernel) y o, (k.setQueue .runq f).setPrev y o =
      (k.setPrev y o).setQueue .runq f := fun _ _ _ => rfl
  rw [remove, remove, setQueue_proc]
  cases (k.proc p).next with
  | none =>
    simp only [hcomm, setQueue_proc]
    cases (k.proc p).prev <;> simp only [hcomm, hnext]
  | some y =>
    simp only [hprev, setQueue_proc]
    cases ((k.setPrev y (k.proc p).prev).proc p).prev <;> simp only [hcomm, hnext]

theorem Blind.congr (h : Blind f k) (hk : (k'.queue .runq).front = (k.queue .runq).front) :
    Blind f k' := ⟨h.front, h.push, h.back.imp_left fun hb => hk ▸ hb⟩

theorem Blind.pushFront (h : Blind f k) : Blind f (k.pushFront .runq p) := by
  refine ⟨h.front, h.push, Or.inl ?_⟩
  have hf : ((k.pushFront .runq p).ends .runq).front = some p := by
    rw [ends_pushFront]
    rfl
  exact fun hn => by cases hf.symm.trans hn

theorem wake_setQueue (h : Blind f k) (hn : n ≠ .runq) :
    (k.setQueue .runq f).wake n p = (k.wake n p).map (·.setQueue .runq f) := by
  have hset : ∀ (k : Kernel) g, (k.setQueue .runq f).setProc p g =
      (k.setProc p g).setQueue .runq f := fun _ _ => rfl
  have hb : Blind f ((k.remove n p).setProc p fun x => { x with state := .runnable }) :=
    h.congr (by rw [setProc_queue, queue_remove_of_ne hn.symm])
  rw [wake, wake, setQueue_proc]
  split_ifs
  · rfl
  · rw [remove_setQueue hn]
    dsimp only
    rw [hset, pushFront_setQueue hb]
    rfl

theorem wakeAllLoop_setQueue (h : Blind f k) (hn : n ≠ .runq) (fuel : ℕ) :
    wakeAllLoop n fuel (k.setQueue .runq f) =
      (wakeAllLoop n fuel k).map (·.setQueue .runq f) := by
  induction fuel generalizing k with
  | zero => rfl
  | succ fuel ih =>
    rw [wakeAllLoop, wakeAllLoop, setQueue_of_ne hn]
    cases (k.queue n).front with
    | none => rfl
    | some p =>
      dsimp only
      rw [wake_setQueue h hn]
      cases hk : k.wake n p with
      | error x => rfl
      | ok k₁ =>
        refine ih ?_
        rw [wake] at hk
        split_ifs at hk
        cases hk
        refine Blind.pushFront (h.congr ?_)
        rw [setProc_queue, queue_remove_of_ne hn.symm]

theorem interrupt_setQueue (h : Blind f k) :
    (k.setQueue .runq f).interrupt t = (k.interrupt t).map (·.setQueue .runq f) := by
  cases t
  · rfl
  · exact wakeAllLoop_setQueue h (by decide) _

/-! ### What is on the queues after an interrupt -/

/-- The queues after an interrupt, if there is one. -/
def woken (t : Bool) (q : QueueName → List Addr) : QueueName → List Addr :=
  if t then Function.update (Function.update q .ticksQueue []) .runq
    ((q .ticksQueue).reverse ++ q .runq)
  else q

@[simp] theorem woken_false : woken false q = q := rfl

theorem woken_runq : woken t q .runq = (if t then (q .ticksQueue).reverse else []) ++ q .runq := by
  cases t <;> rfl

theorem woken_ticks : woken t q .ticksQueue = if t then [] else q .ticksQueue := by
  cases t <;> rfl

theorem woken_of_ne (h1 : n ≠ .runq) (h2 : n ≠ .ticksQueue) : woken t q n = q n := by
  cases t with
  | false => rfl
  | true =>
    rw [woken, if_pos rfl, Function.update_of_ne h1, Function.update_of_ne h2]

theorem woken_nil (h : q .ticksQueue = []) : woken t q = q := by
  cases t with
  | false => rfl
  | true =>
    rw [woken, if_pos rfl, h, List.reverse_nil, List.nil_append, ← h, Function.update_eq_self,
      Function.update_eq_self]

theorem woken_woken {t' : Bool} : woken t (woken t' q) = woken (t || t') q := by
  cases t' with
  | false => rw [woken_false, Bool.or_false]
  | true => rw [Bool.or_true, woken_nil woken_ticks]

/-- The queues are well formed. Each process of `ts` still waits for time to pass and can be woken,
or has been woken. -/
structure Ready (k : Kernel) (q : QueueName → List Addr) (ts : List Addr) : Prop where
  queued : k.Queued q
  blocked : ∀ p ∈ q .ticksQueue, (k.core p).state = .blocked
  runnable : ∀ p ∈ ts, p ∈ q .ticksQueue ∨ (k.core p).state = .runnable

namespace Ready

variable {ts xs : List Addr} (h : Ready k q ts)
include h

theorem interrupt (t : Bool) : ∃ k', k.interrupt t = .ok k' ∧ Ready k' (woken t q) ts := by
  cases t with
  | false => exact ⟨k, rfl, h⟩
  | true =>
    obtain ⟨k', hk, hq, hc⟩ := h.queued.wakeAll (n := .ticksQueue) (by decide) h.blocked
    refine ⟨k', hk, hq, fun p hp => by simp [woken] at hp, fun p hp => Or.inr ?_⟩
    rw [hc]
    dsimp only
    split_ifs with hin
    · rfl
    · exact (h.runnable p hp).resolve_left hin

theorem front_ticks (hq : q .ticksQueue = []) : (k.queue .ticksQueue).front = none := by
  rw [show (k.queue .ticksQueue).front = _ from (h.queued.holds .ticksQueue).dll.front, hq]
  rfl

theorem back_runq : (k.queue .runq).back = (q .runq).getLast? := (h.queued.holds .runq).dll.back

theorem front_runq (hq : q .runq = xs ++ [p]) : (k.queue .runq).front ≠ none := by
  rw [show (k.queue .runq).front = _ from (h.queued.holds .runq).dll.front, hq]
  simp

theorem next_last (hq : q .runq = xs ++ [p]) : (k.proc p).next = none :=
  (Lib.Dll.links_eq (hq ▸ (h.queued.holds .runq).dll)).2

theorem prev_last (hq : q .runq = xs ++ [p]) : (k.proc p).prev = xs.getLast? :=
  (Lib.Dll.links_eq (hq ▸ (h.queued.holds .runq).dll)).1

theorem remove (hq : q .runq = xs ++ [p]) :
    Ready (k.remove .runq p) (Function.update q .runq xs) ts := by
  have hcore : (k.remove .runq p).core = k.core := core_remove
  refine ⟨(h.queued.popBack hq).2, fun p hp => ?_, fun p hp => ?_⟩ <;> rw [hcore]
  · exact h.blocked p hp
  · exact h.runnable p hp

end Ready

/-! ### An interrupt while a process is removed -/

/-- `Queue.remove` up to its last statement. -/
def unlink (k : Kernel) (n : QueueName) (p : Addr) : Kernel :=
  let k := match (k.proc p).next with
    | some y => k.setPrev y (k.proc p).prev
    | none => k.setQueue n fun q => { q with back := (k.proc p).prev }
  match (k.proc p).prev with
  | some y => k.setNext y (k.proc p).next
  | none => k.setQueue n fun q => { q with front := (k.proc p).next }

/-- The last process is taken off in two steps. -/
theorem unlink_last (hn : (k.proc p).next = none) : k.unlink n p =
    match (k.proc p).prev with
    | some y => (k.setQueue n fun q => { q with back := (k.proc p).prev }).setNext y none
    | none => (k.setQueue n fun q => { q with back := (k.proc p).prev }).setQueue n
        fun q => { q with front := none } := by
  rw [unlink, hn]
  dsimp only
  rw [setQueue_proc, hn]

/-- The processes that have been woken are on no queue any more. -/
def Lost (k : Kernel) : Prop :=
  (k.queue .runq).back = none ∧ (k.queue .ticksQueue).front = none

theorem Lost.interrupt (h : k.Lost) (t : Bool) : k.interrupt t = .ok k := by
  cases t with
  | false => rfl
  | true =>
    rw [Kernel.interrupt, if_pos rfl, irqHandler, wakeAll, wakeAllLoop, h.2]

section
variable {ts xs : List Addr} {t : Point → Bool}

/-- The second half of `remove`, for the last process on the queue. -/
def finish (t : Point → Bool) (k : Kernel) (p : Addr) : Except Stop Kernel := do
  let k ← k.interrupt (t .testPrev)
  k.relinkNext t .runq p

/-- The change of the first half. -/
def setBack (o : Option Addr) (q : Queue) : Queue := { q with back := o }

theorem Ready.blind (h : Ready k q ts) (hq : q .runq = xs ++ [p]) (o : Option Addr) :
    Blind (setBack o) k := ⟨fun _ => rfl, fun _ _ => rfl, Or.inl (h.front_runq hq)⟩

/-- If another process is before it, it does not matter when the interrupts come. -/
theorem Ready.finish_some (h : Ready k q ts) (hq : q .runq = xs ++ [p]) (hxs : xs ≠ []) :
    ∃ k' s, finish t (k.setQueue .runq (setBack xs.getLast?)) p = .ok (k'.unlink .runq p) ∧
      Ready k' (woken s q) ts := by
  have hrunq : ∀ s, woken s q .runq =
      ((if s then (q .ticksQueue).reverse else []) ++ xs) ++ [p] := fun s => by
    rw [woken_runq, hq, List.append_assoc]
  obtain ⟨y, hy⟩ := Option.isSome_iff_exists.mp (List.getLast?_isSome.mpr hxs)
  have hlast : ∀ zs, (zs ++ xs).getLast? = some y := fun zs => by
    rw [List.getLast?_append, hy]
    rfl
  obtain ⟨k₁, hk₁, h₁⟩ := h.interrupt (t .testPrev)
  obtain ⟨k₂, hk₂, h₂⟩ := h₁.interrupt (t .setPrevNext)
  rw [woken_woken] at h₂
  have hp₁ := h₁.prev_last (hrunq _)
  have hp₂ := h₂.prev_last (hrunq _)
  rw [hlast] at hp₁ hp₂
  refine ⟨k₂, _, ?_, h₂⟩
  rw [finish, interrupt_setQueue (h.blind hq _), hk₁]
  change relinkNext t (k₁.setQueue .runq _) .runq p = _
  rw [relinkNext, setQueue_proc, if_pos (by rw [hp₁]; simp),
    interrupt_setQueue (h₁.blind (hrunq _) _), hk₂, unlink_last (h₂.next_last (hrunq _)), hp₂]
  change (match (k₂.proc p).prev with | some y => _ | none => _) = _
  rw [hp₂, hy]
  dsimp only
  rw [setQueue_proc, h₂.next_last (hrunq _)]
  rfl

/-- The only process on the queue, if nothing is put before it meanwhile. -/
theorem Ready.finish_nil (h : Ready k q ts) (hq : q .runq = [p])
    (ht : q .ticksQueue = [] ∨ t .testPrev = false ∧ t .setFront = false) :
    ∃ k', finish t (k.setQueue .runq (setBack none)) p = .ok (k'.unlink .runq p) ∧
      Ready k' q ts := by
  have hquiet : ∀ x ∈ [t .testPrev, t .setFront], woken x q = q := fun x hx => by
    rcases ht with ht | ⟨h1, h2⟩
    · exact woken_nil ht
    · simp only [h1, h2, List.mem_cons, List.not_mem_nil, or_false, or_self] at hx
      rw [hx, woken_false]
  obtain ⟨k₁, hk₁, h₁⟩ := h.interrupt (t .testPrev)
  rw [hquiet _ (by simp)] at h₁
  obtain ⟨k₂, hk₂, h₂⟩ := h₁.interrupt (t .setFront)
  rw [hquiet _ (by simp)] at h₂
  have hq' : q .runq = [] ++ [p] := hq
  have hp₁ := h₁.prev_last hq'
  have hp₂ := h₂.prev_last hq'
  refine ⟨k₂, ?_, h₂⟩
  rw [finish, interrupt_setQueue (h.blind hq' _), hk₁]
  change relinkNext t (k₁.setQueue .runq _) .runq p = _
  rw [relinkNext, setQueue_proc, if_neg (by rw [hp₁]; simp),
    interrupt_setQueue (h₁.blind hq' _), hk₂, unlink_last (h₂.next_last hq'), hp₂]
  change Except.ok (setQueue _ _ fun q => { q with front := (k₂.proc p).next }) = _
  rw [h₂.next_last hq']
  rfl

/-- The only process on the queue, and others put before it: they are lost. -/
theorem Ready.finish_lost (h : Ready k q ts) (hq : q .runq = [p]) (hts : q .ticksQueue ≠ [])
    (ht : t .testPrev = true ∨ t .setFront = true) :
    ∃ k', finish t (k.setQueue .runq (setBack none)) p = .ok k' ∧ k'.Lost := by
  have hq' : q .runq = [] ++ [p] := hq
  have hlost : ∀ {k' : Kernel} {q'}, Ready k' q' ts → q' .ticksQueue = [] →
      (k'.setQueue .runq (setBack none)).Lost := fun {k' q'} hr hn => by
    refine ⟨?_, ?_⟩
    · rw [setQueue_self]
      rfl
    · rw [setQueue_of_ne (by decide)]
      exact hr.front_ticks hn
  obtain ⟨k₁, hk₁, h₁⟩ := h.interrupt (t .testPrev)
  rw [finish, interrupt_setQueue (h.blind hq' _), hk₁]
  change ∃ k', relinkNext t (k₁.setQueue .runq _) .runq p = .ok k' ∧ _
  cases ht1 : t .testPrev with
  | true =>
    rw [ht1] at h₁
    have hrunq : woken true q .runq = (q .ticksQueue).reverse ++ [p] := by
      rw [woken_runq, hq]
      rfl
    obtain ⟨y, hy⟩ := Option.isSome_iff_exists.mp
      (List.getLast?_isSome.mpr (List.reverse_ne_nil_iff.mpr hts))
    have hticks : woken true q .ticksQueue = [] := woken_ticks
    obtain ⟨k₂, hk₂, h₂⟩ := h₁.interrupt (t .setPrevNext)
    rw [woken_nil hticks] at h₂
    have hp₁ := h₁.prev_last hrunq
    have hp₂ := h₂.prev_last hrunq
    rw [hy] at hp₁ hp₂
    rw [relinkNext, setQueue_proc, if_pos (by rw [hp₁]; simp),
      interrupt_setQueue (h₁.blind hrunq _), hk₂]
    refine ⟨(k₂.setQueue .runq (setBack none)).setNext y (k₂.proc p).next, ?_, hlost h₂ hticks⟩
    change (match (k₂.proc p).prev with | some y => _ | none => _) = _
    rw [hp₂]
    rfl
  | false =>
    rw [ht1, woken_false] at h₁
    rw [ht1] at ht
    have ht2 := ht.resolve_left (by decide)
    obtain ⟨k₂, hk₂, h₂⟩ := h₁.interrupt (t .setFront)
    rw [ht2] at h₂
    have hp₁ := h₁.prev_last hq'
    rw [relinkNext, setQueue_proc, if_neg (by rw [hp₁]; simp),
      interrupt_setQueue (h₁.blind hq' _), hk₂]
    refine ⟨_, rfl, ?_⟩
    have hl := hlost h₂ woken_ticks
    refine ⟨?_, ?_⟩
    · rw [setQueue_self]
      exact hl.1
    · rw [setQueue_of_ne (by decide)]
      exact hl.2

theorem setQueue_setQueue {g : Queue → Queue} (h : ∀ q, g (f q) = q) :
    (k.setQueue n f).setQueue n g = k := by
  simp only [setQueue, Function.update_self, Function.update_idem, h]
  rw [Function.update_eq_self]

/-- After the process has been taken off, an interrupt does not see the wrong size. -/
theorem Ready.decSize (h : Ready k q ts) (hq : q .runq = xs ++ [p]) (s : Bool) :
    ∃ k' k'', (k.unlink .runq p).interrupt s = .ok k' ∧
      (k'.setQueue .runq fun q => { q with size := q.size - 1 }) = k'' ∧
      Ready k'' (woken s (Function.update q .runq xs)) ts := by
  let inc : Queue → Queue := fun q => { q with size := q.size + 1 }
  let dec : Queue → Queue := fun q => { q with size := q.size - 1 }
  have hdec : ∀ q, inc (dec q) = q := fun q => congrArg (Queue.mk q.front q.back)
    (BitVec.sub_add_cancel ..)
  have hinc : ∀ q, dec (inc q) = q := fun q => congrArg (Queue.mk q.front q.back)
    (BitVec.add_sub_cancel ..)
  have hunlink : k.unlink .runq p = (k.remove .runq p).setQueue .runq inc :=
    (setQueue_setQueue hdec).symm
  obtain ⟨k', hk', h'⟩ := (h.remove hq).interrupt s
  refine ⟨k'.setQueue .runq inc, k', ?_, setQueue_setQueue hinc, h'⟩
  have hblind : Blind inc (k.remove .runq p) :=
    ⟨fun _ => rfl, fun _ _ => rfl, Or.inr fun _ _ => rfl⟩
  rw [hunlink, interrupt_setQueue hblind, hk']
  rfl

/-- The processes of `ts` come while the only process on the queue is half taken off. -/
def Loses (t : Point → Bool) : Prop :=
  t .testNext = false ∧ t .setBack = false ∧ (t .testPrev = true ∨ t .setFront = true)

theorem removeAmid_eq : removeAmid t k .runq p = (do
    let k ← k.interrupt (t .testNext)
    let k ← k.relinkPrev t .runq p
    let k ← finish t k p
    let k ← k.interrupt (t .decSize)
    .ok (k.setQueue .runq fun q => { q with size := q.size - 1 })) := by
  simp only [removeAmid, finish, bind_assoc]

/-- The queues after `remove` of the last process. -/
theorem Ready.removeAmid (h : Ready k q ts) (hq : q .runq = xs ++ [p])
    (hok : ¬ (xs = [] ∧ q .ticksQueue ≠ [] ∧ Loses t)) :
    ∃ k' s s' ys, Kernel.removeAmid t k .runq p = .ok k' ∧ woken s q .runq = ys ++ [p] ∧
      Ready k' (woken s' (Function.update (woken s q) .runq ys)) ts := by
  obtain ⟨k₁, hk₁, h₁⟩ := h.interrupt (t .testNext)
  obtain ⟨k₂, hk₂, h₂⟩ := h₁.interrupt (t .setBack)
  rw [woken_woken] at h₂
  have hrunq : ∀ s, woken s q .runq =
      ((if s then (q .ticksQueue).reverse else []) ++ xs) ++ [p] := fun s => by
    rw [woken_runq, hq, List.append_assoc]
  have hquiet : xs = [] → woken (t .setBack || t .testNext) q .ticksQueue = [] ∨
      t .testPrev = false ∧ t .setFront = false := fun hxs => by
    rw [woken_ticks]
    cases h1 : t .testNext with
    | true => exact Or.inl (if_pos (Bool.or_true _))
    | false =>
      cases h2 : t .setBack with
      | true => exact Or.inl rfl
      | false =>
        by_cases hts : q .ticksQueue = []
        · exact Or.inl hts
        · have hno : ¬ (t .testPrev = true ∨ t .setFront = true) := fun hc =>
            hok ⟨hxs, hts, h1, h2, hc⟩
          exact Or.inr (by simpa using hno)
  have hfin : ∃ k₃ s, finish t (k₂.setQueue .runq (setBack (k₂.proc p).prev)) p =
      .ok (k₃.unlink .runq p) ∧ Ready k₃ (woken s q) ts := by
    rw [h₂.prev_last (hrunq _)]
    by_cases hys : (if (t .setBack || t .testNext) then (q .ticksQueue).reverse else []) ++ xs = []
    · rw [hys]
      have hxs : xs = [] := (List.append_eq_nil_iff.mp hys).2
      have hr := hrunq (t .setBack || t .testNext)
      rw [hys, List.nil_append] at hr
      obtain ⟨k₃, hk₃, h₃⟩ := h₂.finish_nil (t := t) hr (hquiet hxs)
      exact ⟨k₃, _, hk₃, h₃⟩
    · obtain ⟨k₃, s, hk₃, h₃⟩ := h₂.finish_some (t := t) (hrunq _) hys
      rw [woken_woken] at h₃
      exact ⟨k₃, _, hk₃, h₃⟩
  obtain ⟨k₃, s, hk₃, h₃⟩ := hfin
  obtain ⟨k₄, k₅, hk₄, hk₅, h₅⟩ := h₃.decSize (hrunq s) (t .decSize)
  refine ⟨k₅, s, _, _, ?_, hrunq s, h₅⟩
  rw [removeAmid_eq, hk₁, ok_bind, relinkPrev, if_neg (by rw [h₁.next_last (hrunq _)]; simp),
    hk₂, ok_bind, ok_bind]
  change (finish t (k₂.setQueue .runq (setBack (k₂.proc p).prev)) p >>= _) = _
  rw [hk₃, ok_bind, hk₄, ok_bind, hk₅]

/-- The loss is for good. -/
theorem Ready.removeAmid_lost (h : Ready k q ts) (hq : q .runq = [p]) (hts : q .ticksQueue ≠ [])
    (ht : Loses t) : ∃ k', Kernel.removeAmid t k .runq p = .ok k' ∧ k'.Lost := by
  obtain ⟨h1, h2, h3⟩ := ht
  have hq' : q .runq = [] ++ [p] := hq
  obtain ⟨k', hk', hl⟩ := h.finish_lost hq hts h3
  rw [← List.getLast?_nil, ← h.prev_last hq'] at hk'
  refine ⟨k'.setQueue .runq fun q => { q with size := q.size - 1 }, ?_, ?_⟩
  · have hno : Kernel.interrupt false k = .ok k := rfl
    rw [removeAmid_eq, h1, hno, ok_bind, relinkPrev, if_neg (by rw [h.next_last hq']; simp), h2,
      hno, ok_bind, ok_bind]
    change (finish t (k.setQueue .runq (setBack (k.proc p).prev)) p >>= _) = _
    rw [hk', ok_bind, hl.interrupt, ok_bind]
  · refine ⟨?_, ?_⟩
    · rw [setQueue_self]
      exact hl.1
    · rw [setQueue_of_ne (by decide)]
      exact hl.2

/-! ### Taking a process from the run queue -/

/-- The queues after a process has been taken from the run queue, if there was one, and `ws` have
been woken: the other processes of the run queue and `ws` will be returned. -/
structure Intact (q : QueueName → List Addr) (o : Option Addr) (k' : Kernel)
    (q' : QueueName → List Addr) (ws : List Addr) : Prop where
  queued : k'.Queued q'
  ticks : q' .ticksQueue ++ ws = q .ticksQueue
  others : ∀ n, n ≠ .runq → n ≠ .ticksQueue → q' n = q n
  runq : (o.toList ++ q' .runq).Perm (q .runq ++ ws)
  runnable : ∀ w ∈ ws, (k'.core w).state = .runnable
  returned : k'.popAll .runq (q' .runq).length = (q' .runq).reverse


theorem Queued.popAll (h : k.Queued q) : k.popAll n (q n).length = (q n).reverse := by
  generalize hl : (q n).length = l
  induction l generalizing k q with
  | zero =>
    rw [List.length_eq_zero_iff.mp hl]
    rfl
  | succ l ih =>
    rcases List.eq_nil_or_concat (q n) with hq | ⟨xs, p, hq⟩ <;> rw [hq] at hl
    · cases hl
    · rw [List.concat_eq_append] at hq
      rw [List.length_concat, Nat.succ_inj] at hl
      obtain ⟨hpop, hr⟩ := h.popBack hq
      have hxs := ih hr (by rwa [Function.update_self])
      rw [Function.update_self] at hxs
      rw [Kernel.popAll, hpop, hq, List.reverse_append]
      dsimp only
      rw [hxs]
      rfl

/-- Processes are taken from the end of the run queue, and put at its front. -/
theorem Ready.intact {o : Option Addr} {s s' : Bool} {ys : List Addr}
    (h : Ready k (woken s' (Function.update (woken s q) .runq ys)) (q .ticksQueue))
    (hys : woken s q .runq = ys ++ o.toList) : ∃ q' ws, Intact q o k q' ws := by
  have hticks : woken s' (Function.update (woken s q) .runq ys) .ticksQueue =
      if s' || s then [] else q .ticksQueue := by
    rw [woken_ticks, Function.update_of_ne (by decide), woken_ticks]
    cases s' <;> rfl
  refine ⟨_, if s' || s then q .ticksQueue else [], h.queued, ?_, fun n h1 h2 => ?_, ?_,
    fun w hw => ?_, h.queued.popAll⟩
  · rw [hticks]
    cases s' || s <;> simp
  · rw [woken_of_ne h1 h2, Function.update_of_ne h1, woken_of_ne h1 h2]
  · rw [List.perm_iff_count]
    intro a
    have hcount := congrArg (List.count a) hys
    rw [woken_runq] at hcount
    rw [woken_runq, Function.update_self, Function.update_of_ne (by decide), woken_ticks]
    cases s <;> cases s' <;> simp at hcount ⊢ <;> omega
  · rcases hs : s' || s <;> rw [hs] at hw hticks
    · cases hw
    · refine (h.runnable w hw).resolve_left fun hin => ?_
      rw [hticks] at hin
      cases hin

/-- A timer interrupt comes while the only process on the run queue is half taken off. -/
def Loss (q : QueueName → List Addr) (t : Point → Bool) : Prop :=
  (q .runq).length = 1 ∧ q .ticksQueue ≠ [] ∧ t .testBack = false ∧ t .readBack = false ∧ Loses t

theorem Ready.popBackAmid (h : Ready k q (q .ticksQueue)) (hok : ¬ Loss q t) :
    ∃ o k', Kernel.popBackAmid t k .runq = .ok (o, k') ∧ ∃ q' ws, Intact q o k' q' ws := by
  obtain ⟨k₁, hk₁, h₁⟩ := h.interrupt (t .testBack)
  rw [Kernel.popBackAmid, hk₁, ok_bind]
  rcases List.eq_nil_or_concat (woken (t .testBack) q .runq) with hq | ⟨xs, p, hq⟩
  · obtain ⟨k₂, hk₂, h₂⟩ := h₁.interrupt (t .retNull)
    rw [if_pos (by rw [h₁.back_runq, hq]; rfl), hk₂]
    rw [← Function.update_eq_self .runq (woken (t .testBack) q), hq] at h₂
    exact ⟨none, k₂, rfl, Ready.intact h₂ hq⟩
  · rw [List.concat_eq_append] at hq
    obtain ⟨k₂, hk₂, h₂⟩ := h₁.interrupt (t .readBack)
    have hq₂ : woken (t .readBack) (woken (t .testBack) q) .runq =
        ((if t .readBack then (woken (t .testBack) q .ticksQueue).reverse else []) ++ xs) ++
          [p] := by
      rw [woken_runq, hq, List.append_assoc]
    have hback : (k₂.queue .runq).back = some p := by
      rw [h₂.back_runq, hq₂, List.getLast?_concat]
    obtain ⟨k₃, s, s', ys, hk₃, hys, h₃⟩ := h₂.removeAmid (t := t) hq₂ fun ⟨hxs, hts, hl⟩ => by
      rw [woken_woken, woken_ticks] at hts
      have hearly : (t .readBack || t .testBack) = false := by
        cases hb : t .readBack || t .testBack with
        | false => rfl
        | true => exact absurd (if_pos hb) hts
      rw [hearly] at hts
      obtain ⟨h1, h2⟩ := Bool.or_eq_false_iff.mp hearly
      rw [h2, woken_false, (List.append_eq_nil_iff.mp hxs).2] at hq
      exact hok ⟨by rw [hq]; rfl, hts, h2, h1, hl⟩
    obtain ⟨k₄, hk₄, h₄⟩ := h₃.interrupt (t .ret)
    rw [if_neg (by rw [h₁.back_runq, hq]; simp), hk₂, ok_bind, hback]
    dsimp only
    rw [hk₃, ok_bind, hk₄]
    rw [woken_woken, woken_woken, woken_woken] at h₄
    rw [woken_woken, woken_woken] at hys
    exact ⟨some p, k₄, rfl, Ready.intact h₄ hys⟩

theorem Ready.popBackAmid_lost (h : Ready k q (q .ticksQueue)) (hl : Loss q t) :
    ∃ o k', Kernel.popBackAmid t k .runq = .ok (o, k') ∧ ¬ ∃ q' ws, Intact q o k' q' ws := by
  obtain ⟨hlen, hts, h1, h2, hl⟩ := hl
  obtain ⟨p, hq⟩ := List.length_eq_one_iff.mp hlen
  have hno : Kernel.interrupt false k = .ok k := rfl
  have hback : (k.queue .runq).back = some p := by
    rw [h.back_runq, hq]
    rfl
  obtain ⟨k', hk', hlost⟩ := h.removeAmid_lost hq hts hl
  refine ⟨some p, k', ?_, fun ⟨q', ws, hi⟩ => ?_⟩
  · rw [Kernel.popBackAmid, h1, hno, ok_bind, if_neg (by rw [hback]; simp), h2, hno, ok_bind, hback]
    dsimp only
    rw [hk', ok_bind, hlost.interrupt, ok_bind]
  · -- both queues look empty, so all but `p` are missing
    have hrunq : q' .runq = [] := by
      have hb := (hi.queued.holds .runq).dll.back
      rw [show (k'.ends .runq).back = none from hlost.1] at hb
      exact List.getLast?_eq_none_iff.mp hb.symm
    have hticks : q' .ticksQueue = [] := (hi.queued.holds .ticksQueue).dll.eq_nil hlost.2
    have hws := hi.ticks
    have hperm := hi.runq.length_eq
    rw [hticks, List.nil_append] at hws
    rw [hrunq, hq, hws] at hperm
    simp at hperm
    exact hts hperm

/-- The run queue survives interrupts while a process is taken from it, unless the process is the
only one, and the others are put before it when `back` has been set but `front` has not. -/
theorem popBackAmid_intact_iff (h : k.Queued q)
    (hb : ∀ p ∈ q .ticksQueue, (k.proc p).state = .blocked) (t : Point → Bool) :
    ∃ o k', k.popBackAmid t .runq = .ok (o, k') ∧
      ((∃ q' ws, Intact q o k' q' ws) ↔ ¬ Loss q t) := by
  have hr : Ready k q (q .ticksQueue) := ⟨h, hb, fun p hp => Or.inl hp⟩
  by_cases hl : Loss q t
  · obtain ⟨o, k', hk', hno⟩ := hr.popBackAmid_lost hl
    exact ⟨o, k', hk', iff_of_false hno (not_not.mpr hl)⟩
  · obtain ⟨o, k', hk', hyes⟩ := hr.popBackAmid hl
    exact ⟨o, k', hk', iff_of_true hyes hl⟩

end

end Kernel

namespace System
open Kernel

variable {s : System} {q : QueueName → List Addr}

theorem Inv.blocked (h : s.Inv q) : ∀ p ∈ q .ticksQueue, (s.kernel.proc p).state = .blocked :=
  fun _ hp => (h.placed hp).1

/-- A process sleeps, and its child is the only one on the run queue. -/
theorem sleeping : ∃ s q, Reachable ⟨10000000, 0x80600000⟩ s ∧ s.control = .scheduler ∧ s.Inv q ∧
    q .runq = [0x80601000] ∧ q .ticksQueue = [0x80600000] := by
  have hr : Reachable ⟨10000000, 0x80600000⟩ _ :=
    .step (e := .usleep 1000000 0 0) (.step (e := .fork (some 0x80601000) true)
      (.step (e := .pick 0 true) (.boot (a := 0x80600000) (by decide)) rfl) rfl) rfl
  obtain ⟨q, hi⟩ := hr.inv
  refine ⟨_, q, hr, rfl, hi, ?_, ?_⟩
  · exact (hi.queued.holds .runq).dll.eq_singleton (by decide) (by decide)
  · exact (hi.queued.holds .ticksQueue).dll.eq_singleton (by decide) (by decide)

end System

namespace Kernel

/-- An interrupt between the test of `back` and its use. -/
theorem popBackAmid_intact_readBack : ∃ (s : System) (q : QueueName → List Addr) (o : Option Addr)
    (k' : Kernel), s.control = .scheduler ∧ q .runq = [0x80601000] ∧
      q .ticksQueue = [0x80600000] ∧
      s.kernel.popBackAmid (fun | .readBack => true | _ => false) .runq = .ok (o, k') ∧
      ∃ q' ws, Intact q o k' q' ws := by
  obtain ⟨s, q, -, hc, hi, hrunq, hticks⟩ := System.sleeping
  obtain ⟨o, k', hk', hiff⟩ := popBackAmid_intact_iff hi.queued hi.blocked
    fun | .readBack => true | _ => false
  exact ⟨s, q, o, k', hc, hrunq, hticks, hk', hiff.mpr fun hl => by cases hl.2.2.2.1⟩

/-- An interrupt between `back = p.prev` and `if (p.prev != null)`. -/
theorem popBackAmid_not_intact : ∃ (s : System) (q : QueueName → List Addr) (o : Option Addr)
    (k' : Kernel), System.Reachable ⟨10000000, 0x80600000⟩ s ∧ s.control = .scheduler ∧
      q .runq = [0x80601000] ∧ q .ticksQueue = [0x80600000] ∧ s.kernel.Queued q ∧
      s.kernel.popBackAmid (fun | .testPrev => true | _ => false) .runq = .ok (o, k') ∧
      ¬ ∃ q' ws, Intact q o k' q' ws := by
  obtain ⟨s, q, hr, hc, hi, hrunq, hticks⟩ := System.sleeping
  have hready : Ready s.kernel q (q .ticksQueue) :=
    ⟨hi.queued, hi.blocked, fun p hp => Or.inl hp⟩
  have hloss : Loss q fun | .testPrev => true | _ => false :=
    ⟨by rw [hrunq]; rfl, by rw [hticks]; simp, rfl, rfl, rfl, rfl, Or.inl rfl⟩
  obtain ⟨o, k', hk', hno⟩ := hready.popBackAmid_lost hloss
  exact ⟨s, q, o, k', hr, hc, hrunq, hticks, hi.queued, hk', hno⟩

end Kernel
end Multiplix.Sched
