import Mathlib.Algebra.Group.Nat.Defs
import Mathlib.Data.Finset.Card
import Multiplix.Lib.Dll

/-! The queues of `plix.schedule` and the fields of `plix.proc.Proc` that they use. -/
namespace Multiplix.Sched
open Lib

/-- The address of a process. A pointer is `none` when it is null. -/
abbrev Addr := BitVec 64

/-- The number of addresses: no queue is longer. -/
def addrSpace : ℕ := 2 ^ 64

inductive ProcState
  | runnable
  | blocked
  | exited
  deriving DecidableEq

inductive QueueName
  | runq
  | exitQueue
  | ticksQueue
  | waitQueue
  deriving DecidableEq

/-- Where a process goes on once it is switched to. -/
inductive Resume
  /-- Back in user mode, by `usertrapret`. -/
  | user
  /-- In the loop of `sys_wait`. -/
  | wait
  /-- In the loop of `sys_usleep`. -/
  | usleep (start us : BitVec 64)
  /-- In the loop of `pgflt_handler` that waits for memory. -/
  | memory
  /-- Behind the call of `yield` in `sys_exit`. -/
  | exit
  deriving DecidableEq

structure Proc where
  pid : BitVec 32
  parent : Option Addr
  children : BitVec 32
  state : ProcState
  wq : Option QueueName
  next : Option Addr
  prev : Option Addr
  context : Resume
  retval : BitVec 64

/-- What `knew!Proc` starts from. -/
def Proc.init : Proc where
  pid := 0
  parent := none
  children := 0
  state := .runnable
  wq := none
  next := none
  prev := none
  context := .user
  retval := 0

structure Queue where
  front : Option Addr
  back : Option Addr
  size : BitVec 64

def Queue.init : Queue := ⟨none, none, 0⟩

/-- The memory of all processes, and the queues. -/
structure Kernel where
  proc : Addr → Proc
  queue : QueueName → Queue

/-- Why the kernel does not go on. -/
inductive Stop
  /-- The assertion in `Queue.wake`. -/
  | notBlocked
  /-- The assertion behind the last `yield` of a process. -/
  | exitedResumed
  /-- The memory of a process is read after it has been freed. -/
  | dangling
  /-- A null pointer is followed. -/
  | null
  /-- A list that goes in a circle. -/
  | loop
  /-- The event does not happen here. -/
  | disabled
  deriving DecidableEq

namespace Kernel

def setProc (k : Kernel) (p : Addr) (f : Proc → Proc) : Kernel :=
  { k with proc := Function.update k.proc p (f (k.proc p)) }

def setQueue (k : Kernel) (n : QueueName) (f : Queue → Queue) : Kernel :=
  { k with queue := Function.update k.queue n (f (k.queue n)) }

def setNext (k : Kernel) (p : Addr) (next : Option Addr) : Kernel :=
  k.setProc p fun x => { x with next := next }

def setPrev (k : Kernel) (p : Addr) (prev : Option Addr) : Kernel :=
  k.setProc p fun x => { x with prev := prev }

def pushFront (k : Kernel) (n : QueueName) (p : Addr) : Kernel :=
  let front := (k.queue n).front
  let k := k.setNext p front
  let k := k.setPrev p none
  let k := match front with
    | some f => k.setPrev f (some p)
    | none => k.setQueue n fun q => { q with back := some p }
  k.setQueue n fun q => { q with front := some p, size := q.size + 1 }

def remove (k : Kernel) (n : QueueName) (p : Addr) : Kernel :=
  let k := match (k.proc p).next with
    | some y => k.setPrev y (k.proc p).prev
    | none => k.setQueue n fun q => { q with back := (k.proc p).prev }
  let k := match (k.proc p).prev with
    | some y => k.setNext y (k.proc p).next
    | none => k.setQueue n fun q => { q with front := (k.proc p).next }
  k.setQueue n fun q => { q with size := q.size - 1 }

def popBack (k : Kernel) (n : QueueName) : Option Addr × Kernel :=
  match (k.queue n).back with
  | none => (none, k)
  | some b => (some b, k.remove n b)

def wake (k : Kernel) (n : QueueName) (p : Addr) : Except Stop Kernel :=
  if (k.proc p).state ≠ .blocked then .error .notBlocked
  else
    let k := k.remove n p
    let k := k.setProc p fun x => { x with state := .runnable }
    .ok (k.pushFront .runq p)

def wakeAllLoop (n : QueueName) : ℕ → Kernel → Except Stop Kernel
  | 0, _ => .error .loop
  | fuel + 1, k =>
    match (k.queue n).front with
    | none => .ok k
    | some p =>
      match k.wake n p with
      | .error x => .error x
      | .ok k => wakeAllLoop n fuel k

def wakeAll (k : Kernel) (n : QueueName) : Except Stop Kernel := wakeAllLoop n (addrSpace + 1) k

/-- The loop of `opApply` from `z` on. The delegate `dg` keeps what it collects in `s`. -/
def opApplyLoop {σ : Type} (k : Kernel) (dg : Addr → σ → BitVec 32 × σ) :
    ℕ → Option Addr → σ → Except Stop (BitVec 32 × σ)
  | 0, _, _ => .error .loop
  | _ + 1, none, s => .ok (0, s)
  | fuel + 1, some z, s =>
    let (r, s) := dg z s
    if r ≠ 0 then .ok (r, s) else opApplyLoop k dg fuel (k.proc z).next s

def opApply {σ : Type} (k : Kernel) (n : QueueName) (dg : Addr → σ → BitVec 32 × σ) (s : σ) :
    Except Stop (BitVec 32 × σ) := opApplyLoop k dg (addrSpace + 1) (k.queue n).front s

/-- `Proc.wait`, which `block` and `exit` call. -/
def wait (k : Kernel) (p : Addr) (n : QueueName) (state : ProcState) : Kernel :=
  let k := k.setProc p fun x => { x with state := state, wq := some n }
  k.pushFront n p

def block (k : Kernel) (p : Addr) (n : QueueName) : Kernel := k.wait p n .blocked

def exit (k : Kernel) (p : Addr) (n : QueueName) : Kernel := k.wait p n .exited

/-- The loop over `exit_queue` in `sys_wait`: the first process from `z` on whose parent is `p`. -/
def findZombie (k : Kernel) (p : Addr) : ℕ → Option Addr → Option Addr
  | 0, _ => none
  | _, none => none
  | fuel + 1, some z =>
    if (k.proc z).parent = some p then some z else findZombie k p fuel (k.proc z).next

/-- The timer's part of `irq_handler`. Re-arming the timer changes no memory. -/
def irqHandler (k : Kernel) : Except Stop Kernel := k.wakeAll .ticksQueue

end Kernel

/-! ### What the queues hold -/

namespace Kernel

variable {k : Kernel} {n n' : QueueName} {p a : Addr} {xs ys : List Addr} {f : Proc → Proc}

def links (k : Kernel) : Links Addr := ⟨fun a => (k.proc a).next, fun a => (k.proc a).prev⟩

def ends (k : Kernel) (n : QueueName) : Ends Addr := ⟨(k.queue n).front, (k.queue n).back⟩

/-- Queue `n` is well formed and holds `xs`, from its front on. -/
structure Holds (k : Kernel) (n : QueueName) (xs : List Addr) : Prop where
  dll : Dll k.links (k.ends n) xs
  size : (k.queue n).size = BitVec.ofNat 64 xs.length

@[simp] theorem setProc_self : (k.setProc p f).proc p = f (k.proc p) := Function.update_self ..

theorem setProc_of_ne (h : a ≠ p) : (k.setProc p f).proc a = k.proc a := Function.update_of_ne h ..

@[simp] theorem setProc_queue : (k.setProc p f).queue = k.queue := rfl

@[simp] theorem setQueue_proc {g : Queue → Queue} : (k.setQueue n g).proc = k.proc := rfl

@[simp] theorem setQueue_self {g : Queue → Queue} : (k.setQueue n g).queue n = g (k.queue n) :=
  Function.update_self ..

theorem setQueue_of_ne {g : Queue → Queue} (h : n' ≠ n) :
    (k.setQueue n g).queue n' = k.queue n' := Function.update_of_ne h ..

end Kernel
end Multiplix.Sched
