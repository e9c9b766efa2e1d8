import Multiplix.Sched.QueueOps

/-! The scheduler of `plix.schedule`, and what processes do between two switches: the system calls
of `plix.syscall` that make, suspend or end processes, interrupts, and page faults. Interrupts are
off in the kernel, except while the scheduler waits. -/
namespace Multiplix.Sched

namespace Err

def child : BitVec 64 := BitVec.ofInt 64 (-10)
def nomem : BitVec 64 := BitVec.ofInt 64 (-12)

end Err

/-- Who runs: the scheduler, which is about to pick a process, or a process in user mode. -/
inductive Control
  | scheduler
  | user (p : Addr)
  deriving DecidableEq

/-- What the board provides: the frequency of the timer, and the heap. -/
structure Board where
  mtimeFreq : BitVec 64
  heapStart : ℕ

/-- `kmain` gives 512 MiB to the allocator. -/
def Board.InHeap (b : Board) (a : Addr) : Prop :=
  b.heapStart ≤ a.toNat ∧ a.toNat < b.heapStart + 512 * 2 ^ 20

instance (b : Board) : DecidablePred b.InHeap := fun a =>
  inferInstanceAs (Decidable (b.heapStart ≤ a.toNat ∧ a.toNat < b.heapStart + 512 * 2 ^ 20))

/-- `live` has the processes whose memory has not been freed. -/
structure System where
  kernel : Kernel
  nextPid : BitVec 32
  live : Finset Addr
  control : Control

namespace System

def init : System where
  kernel := ⟨fun _ => .init, fun _ => .init⟩
  nextPid := 0
  live := ∅
  control := .scheduler

/-- `Proc.make_empty` at a fresh address: a process with a number. -/
def makeEmpty (s : System) (a : Addr) : System :=
  { s with
    kernel := s.kernel.setProc a fun _ => { Proc.init with pid := s.nextPid }
    nextPid := s.nextPid + 1
    live := insert a s.live }

/-- The process that `kmain` makes by `make_from_elf`. -/
def boot (a : Addr) : System :=
  let s := init.makeEmpty a
  { s with kernel := s.kernel.pushFront .runq a }

/-- Back to user mode, from a system call with its result. -/
def ret (s : System) (p : Addr) (v : BitVec 64) : System :=
  { s with
    kernel := s.kernel.setProc p fun x => { x with retval := v }
    control := .user p }

/-- `Proc.yield` up to the end of the turn of `schedule`. -/
def yield (s : System) (p : Addr) (r : Resume) : System :=
  let k := s.kernel.setProc p fun x => { x with context := r }
  let k := if (k.proc p).state = .runnable then k.pushFront .runq p else k
  { s with kernel := k, control := .scheduler }

/-- The process puts itself on a queue and yields. -/
def suspend (s : System) (p : Addr) (n : QueueName) (r : Resume) : System :=
  { s with kernel := s.kernel.block p n }.yield p r

/-- `kfree(zombie)` -/
def free (s : System) (z : Addr) : System := { s with live := s.live.erase z }

/-- The loop of `sys_wait`. -/
def waitLoop (s : System) (p : Addr) : System :=
  match s.kernel.findZombie p (addrSpace + 1) (s.kernel.queue .exitQueue).front with
  | some z =>
    let pid := (s.kernel.proc z).pid
    let s := { s with kernel := s.kernel.remove .exitQueue z }.free z
    let s := { s with kernel := s.kernel.setProc p fun x => { x with children := x.children - 1 } }
    s.ret p (pid.signExtend 64)
  | none => s.suspend p .waitQueue .wait

def sysWait (s : System) (p : Addr) : System :=
  if (s.kernel.proc p).children = 0 then s.ret p Err.child else s.waitLoop p

/-- `Timer.us_since`, for a timer that reads `now`. -/
def usSince (freq now prev : BitVec 64) : BitVec 64 := (now - prev) * 1000000 / freq

/-- The loop of `sys_usleep`. -/
def usleepLoop (s : System) (p : Addr) (freq start us now : BitVec 64) : System :=
  if us ≤ usSince freq now start then s.ret p 0
  else s.suspend p .ticksQueue (.usleep start us)

/-- The loop of `pgflt_handler` around `kalloc`, which answers memory or not. -/
def memoryLoop (s : System) (p : Addr) (mem : Bool) : System :=
  if mem then { s with control := .user p } else s.suspend p .ticksQueue .memory

/-- The part of `make_from_parent` behind the mapping of pages. -/
def makeFromParent (s : System) (p a : Addr) : System :=
  let retval := (s.kernel.proc p).retval
  { s with kernel := s.kernel.setProc a fun x => { x with parent := some p, retval := retval } }

/-- The part of `sys_fork` behind the making of the child. -/
def addChild (s : System) (p a : Addr) : System :=
  let k := s.kernel.setProc a fun x => { x with retval := 0 }
  let k := k.setProc p fun x => { x with children := x.children + 1 }
  { s with kernel := k.pushFront .runq a }

/-- The child is made at address `a`, unless there is no memory for it, and `mapped` says whether
its pages can be mapped; if they cannot, it is freed again. -/
def sysFork (s : System) (p : Addr) (a : Option Addr) (mapped : Bool) : System :=
  match a with
  | none => s.ret p Err.nomem
  | some a =>
    let s := s.makeEmpty a
    if mapped = false then (s.free a).ret p Err.nomem
    else
      let s := (s.makeFromParent p a).addChild p a
      s.ret p ((s.kernel.proc a).pid.signExtend 64)

/-- The parent is woken if it waits for a child. -/
def wakeParent (s : System) (p : Addr) : Except Stop Kernel :=
  match (s.kernel.proc p).parent with
  | none => .ok s.kernel
  | some q =>
    if q ∉ s.live then .error .dangling
    else if (s.kernel.proc q).state = .blocked ∧ (s.kernel.proc q).wq = some .waitQueue then
      s.kernel.wake .waitQueue q
    else .ok s.kernel

def sysExit (s : System) (p : Addr) : Except Stop System :=
  match s.wakeParent p with
  | .error x => .error x
  | .ok k => .ok ({ s with kernel := k.exit p .exitQueue }.yield p .exit)

/-- Where a process goes on after the switch to it. -/
def resume (s : System) (p : Addr) (freq now : BitVec 64) (mem : Bool) : Except Stop System :=
  match (s.kernel.proc p).context with
  | .user => .ok { s with control := .user p }
  | .wait => .ok (s.waitLoop p)
  | .usleep start us => .ok (s.usleepLoop p freq start us now)
  | .memory => .ok (s.memoryLoop p mem)
  | .exit => .error .exitedResumed

end System

/-- What happens next, with what the kernel reads from the timer and gets from `kalloc`. -/
inductive Event
  /-- The scheduler picks a process, or waits if there is none. -/
  | pick (now : BitVec 64) (mem : Bool)
  /-- A timer interrupt, of a process in user mode or of the waiting scheduler. -/
  | tick
  | fork (a : Option Addr) (mapped : Bool)
  | wait
  | usleep (us start now : BitVec 64)
  | exit
  /-- A fault that kills the process. -/
  | kill
  /-- A write fault at a page that has to be copied. -/
  | copy (mem : Bool)

namespace System

/-- The scheduler has `p` from its run queue. -/
def pick (s : System) (freq now : BitVec 64) (mem : Bool) : Except Stop System :=
  match s.kernel.popBack .runq with
  | (none, _) => .ok s
  | (some p, k) => { s with kernel := k, control := .user p }.resume p freq now mem

variable (b : Board)

/-- What happens while the scheduler is in control. -/
def schedule (s : System) : Event → Except Stop System
  | .pick now mem => s.pick b.mtimeFreq now mem
  | .tick =>
    -- elsewhere in `runnable_proc` an interrupt may come between the steps of `pop_back`
    if (s.kernel.queue .runq).back ≠ none then .error .disabled
    else
      match s.kernel.irqHandler with
      | .error x => .error x
      | .ok k => .ok { s with kernel := k }
  | _ => .error .disabled

/-- `kalloc` hands out memory of the heap that is not in use. -/
def Allocates (s : System) (a : Addr) : Prop := a ∉ s.live ∧ b.InHeap a

instance (s : System) : DecidablePred (s.Allocates b) := fun a =>
  inferInstanceAs (Decidable (a ∉ s.live ∧ b.InHeap a))

/-- What a process in user mode does. -/
def user (s : System) (p : Addr) : Event → Except Stop System
  | .tick =>
    match s.kernel.irqHandler with
    | .error x => .error x
    | .ok k => .ok ({ s with kernel := k }.yield p .user)
  | .fork a mapped =>
    if a.all (s.Allocates b ·) then .ok (s.sysFork p a mapped) else .error .disabled
  | .wait => .ok (s.sysWait p)
  | .usleep us start now => .ok (s.usleepLoop p b.mtimeFreq start us now)
  | .exit => s.sysExit p
  | .kill => s.sysExit p
  | .copy mem => .ok (s.memoryLoop p mem)
  | .pick _ _ => .error .disabled

def exec (s : System) (e : Event) : Except Stop System :=
  match s.control with
  | .scheduler => s.schedule b e
  | .user p => s.user b p e

/-- The states that a system reaches from the start of the scheduler. The processes outlive their
children in so far as a run ends where a process looks for a parent that has been freed. -/
inductive Reachable : System → Prop
  | boot {a : Addr} : b.InHeap a → Reachable (boot a)
  | step {s s' : System} {e : Event} : Reachable s → s.exec b e = .ok s' → Reachable s'

end System
end Multiplix.Sched
