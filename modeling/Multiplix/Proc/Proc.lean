import Multiplix.Proc.Elf

/-! The address spaces of `plix.proc`, the fault handler of `plix.trap`, and the memory accesses
of user programs. Of a process only its page table is kept: files and contexts play no part. -/
namespace Multiplix.Proc
open Lib Vm

namespace Machine

variable (P : Platform)

/-- `Proc.make_empty`: the page table of a process without user pages. -/
def makeEmpty (m : Machine) : Option ℕ × Machine :=
  match m.knewTable with
  | (none, m) => (none, m)
  | (some pgtbl, m) =>
    let m := { m with tables := P.kernelProcmap m.tables pgtbl }
    -- the process itself
    match m.kalloc with
    | (none, m) => (none, m)
    | (some _, m) => (some pgtbl, m)

def makeFromElf (bin : Mem) (m : Machine) : Option ℕ × Machine :=
  match m.makeEmpty P with
  | (none, m) => (none, m)
  | (some pt, m) =>
    match m.loadelf P bin pt with
    | (none, m) => (none, m)
    | (some _, m) =>
      match m.kzalloc stackSize with
      | (none, m) => (none, m)
      | (some ustack, m) =>
        match m.mappg P pt stackVa ustack .urw with
        | (false, m) => (none, m)
        | (true, m) => (some pt, m)

/-- One turn of the loop over the parent's mappings. -/
def sharePage (pt : ℕ) (map : VaMapping) (m : Machine) : Bool × Machine :=
  if map.user P.ops m.tables then
    let perm := map.perm P.ops m.tables &&& ~~~Perm.w ||| Perm.cow
    let m := m.setPte map.pte (P.ops.setPerm · perm)
    m.mappg P pt map.va (map.pa P.ops m.tables) (Perm.urx ||| Perm.cow)
  else (true, m)

def makeFromParent (parent : ℕ) (m : Machine) : Option ℕ × Machine :=
  match m.makeEmpty P with
  | (none, m) => (none, m)
  | (some pt, m) =>
    match PtIter.opApply P.ops (sharePage P pt) PtIter.fuel (.get parent) m with
    | (false, m) => (none, m)
    | (true, m) => (some pt, m)

end Machine

inductive FaultType
  | read
  | write
  | exec
  deriving DecidableEq

/-- How the fault handler leaves: the access is tried again, or the process is killed, or it
waits for memory. -/
inductive Handled
  | resumed
  | killed
  | blocked
  deriving DecidableEq

namespace Machine

variable (P : Platform)

def pgfltHandler (pt addr : ℕ) (fault : FaultType) (m : Machine) : Handled × Machine :=
  let pgaddr := addr - addr % 4096
  match P.ops.lookup m.tables pt pgaddr with
  | none => (.killed, m)
  | some map =>
    if map.user P.ops m.tables = false ∨ map.size ≠ pagesize then (.killed, m)
    else if fault = .write ∧ map.cow P.ops m.tables = true ∧ map.read P.ops m.tables = true then
      let perm := map.perm P.ops m.tables &&& ~~~Perm.cow ||| Perm.w
      let pa := map.pa P.ops m.tables
      -- the only one with a reference takes over the page
      if m.refcnt (pa / pagesize) = 1 then (.resumed, m.setPte map.pte (P.ops.setPerm · perm))
      else
        let m := m.dropRef pa
        match m.kalloc with
        | (none, m) => (.blocked, m)
        | (some mem, m) =>
          let m := { m with bytes := m.bytes.copy mem m.bytes pa pagesize }
          let m := m.setPte map.pte (P.ops.setPerm · perm)
          let m := m.setPte map.pte (P.ops.setPa · mem)
          (.resumed, m.addRef (map.pa P.ops m.tables))
    else (.killed, m)

end Machine

namespace FaultType

/-- The permission that an access needs. -/
def flag : FaultType → Perm
  | read => .r
  | write => .w
  | exec => .x

end FaultType

namespace Machine

variable (P : Platform)

/-- Address translation for a user program, as the hardware does it. -/
def translate (pt va : ℕ) (kind : FaultType) (m : Machine) : Option ℕ :=
  match P.ops.lookup m.tables pt va with
  | none => none
  | some map =>
    if P.ops.valid (m.tables map.pte.1 map.pte.2) ∧ map.user P.ops m.tables = true ∧
        (map.perm P.ops m.tables).has kind.flag = true then
      some (map.pa P.ops m.tables + va % map.size)
    else none

end Machine

/-- Why a run stops. -/
inductive Stop
  | nomem
  | killed
  | noproc
  deriving DecidableEq

/-- The physical address of an access, which is tried again after a fault that was handled. -/
def Machine.access (P : Platform) (pt va : ℕ) (kind : FaultType) (m : Machine) :
    Except Stop (ℕ × Machine) :=
  match m.translate P pt va kind with
  | some a => .ok (a, m)
  | none =>
    match m.pgfltHandler P pt va kind with
    | (.killed, _) => .error .killed
    | (.blocked, _) => .error .nomem
    | (.resumed, m) =>
      match m.translate P pt va kind with
      | some a => .ok (a, m)
      | none => .error .killed

abbrev UserAddr := Fin maxVa

/-- What processes do, by their numbers. -/
inductive Event
  | fork (i : ℕ)
  | load (i : ℕ) (va : UserAddr)
  | store (i : ℕ) (va : UserAddr) (b : Byte)

/-- The processes, by their page tables. -/
structure System where
  machine : Machine
  procs : List ℕ

namespace System

variable (P : Platform)

def exec (s : System) : Event → Except Stop (System × Option Byte)
  | .fork i =>
    match s.procs[i]? with
    | none => .error .noproc
    | some pt =>
      match s.machine.makeFromParent P pt with
      | (none, _) => .error .nomem
      | (some child, m) => .ok (⟨m, s.procs ++ [child]⟩, none)
  | .load i va =>
    match s.procs[i]? with
    | none => .error .noproc
    | some pt =>
      match s.machine.access P pt va .read with
      | .error x => .error x
      | .ok (a, m) => .ok (⟨m, s.procs⟩, some (m.bytes a))
  | .store i va b =>
    match s.procs[i]? with
    | none => .error .noproc
    | some pt =>
      match s.machine.access P pt va .write with
      | .error x => .error x
      | .ok (a, m) => .ok (⟨{ m with bytes := Function.update m.bytes a b }, s.procs⟩, none)

end System
end Multiplix.Proc
