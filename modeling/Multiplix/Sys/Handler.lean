import Mathlib.Data.Fin.VecNotation
import Multiplix.Fs.PathReach
import Multiplix.Sys.ReadBuffer

/-! `plix.syscall`: the system calls, and the memory that they use for their caller. Only `read` and
`write` check where a pointer goes. -/
namespace Multiplix.Sys
open Lib Vm Proc Fs

/-- The numbers of the system calls, of which some have no handler. -/
inductive Sysno
  | write
  | getpid
  | exit
  | fork
  | wait
  | sbrk
  | usleep
  | read
  | open_
  | dup
  | close
  | fstat
  | link
  | exec
  | chdir
  | mknod
  | mkdir
  | unlink
  deriving DecidableEq

def Sysno.all : List Sysno :=
  [.write, .getpid, .exit, .fork, .wait, .sbrk, .usleep, .read, .open_, .dup, .close, .fstat, .link,
    .exec, .chdir, .mknod, .mkdir, .unlink]

def Sysno.decode (sysno : BitVec 64) : Option Sysno := Sysno.all[sysno.toNat]?

def Err.child : ℤ := -10
def Err.nomem : ℤ := -12
def Err.nosys : ℤ := -38

/-- What the rest of the kernel has for a call: the process numbers of the caller and of its child,
the memory for a child, and a child that has exited. -/
structure Rest where
  pid : ℤ
  child : Option ℕ
  mapped : Bool
  childPid : ℤ
  children : ℕ
  zombie : Option (ℕ × ℤ)

/-- `cast(int)` -/
def int (arg : BitVec 64) : ℤ := (arg.setWidth 32).toInt

/-- What a handler returns is extended to a register. -/
def returns (r : ℤ) : Option (BitVec 64) := some (BitVec.ofInt 64 r)

section Handler

variable (sb : Superblock)

def sysFork (rest : Rest) (p : ℕ) : FsM ℤ :=
  match rest.child with
  | none => pure Err.nomem
  | some child => do
    let done ← Fs.makeFromParent p child rest.mapped
    pure (if done then rest.childPid else Err.nomem)

/-- A process waits as long as it has children of which none has exited. -/
def sysWait (rest : Rest) : FsM (Option (BitVec 64)) :=
  if rest.children = 0 then pure (returns Err.child)
  else
    match rest.zombie with
    | none => pure none
    | some (z, pid) => do
      freeProc z
      pure (returns pid)

/-- `syscall_handler`, where `valid` is what `checkaddr` says of the buffer in the second and the
third argument. There is no answer where the call does not return. -/
def syscallHandler (rest : Rest) (valid : Bool) (p : ℕ) (sysno : BitVec 64)
    (args : Fin 7 → BitVec 64) : FsM (Option (BitVec 64)) :=
  match Sysno.decode sysno with
  | some .open_ => do
    let r ← sysOpen sb p (args 0).toNat ((args 1).setWidth 32).toNat
    pure (returns r)
  | some .fstat => do
    let r ← sysFstat sb p (int (args 0)) (args 1).toNat
    pure (returns r)
  | some .dup => do
    let r ← sysDup p (int (args 0))
    pure (returns r)
  | some .chdir => do
    let r ← sysChdir sb p (args 0).toNat
    pure (returns r)
  | some .close => do
    let r ← sysClose sb p (int (args 0))
    pure (returns r)
  | some .write => do
    let r ← sysWrite sb p (int (args 0)) (args 1).toNat (args 2).toNat valid
    pure (returns r)
  | some .read => do
    let r ← sysRead sb p (int (args 0)) (args 1).toNat (args 2).toNat valid
    pure (returns r)
  | some .getpid => pure (returns rest.pid)
  | some .exit => do
    modifyProc p fun x => { x with exited := true }
    pure none
  | some .fork => do
    let r ← sysFork rest p
    pure (returns r)
  | some .wait => sysWait rest
  | some .sbrk => pure (returns (-1))
  | some .usleep => pure (returns 0)
  | _ => pure (returns Err.nosys)

end Handler

/-- The bytes that a call may use of its caller, whose memory is `u`. -/
def uses (u : Mem) (valid : Bool) (sysno : BitVec 64) (args : Fin 7 → BitVec 64) (a : ℕ) : Prop :=
  match Sysno.decode sysno with
  | some .open_ | some .chdir => InString u (args 0).toNat a
  | some .fstat => InRange (int (args 0)) ∧ InStat (args 1).toNat a
  | some .read => (InRange (int (args 0)) ∧ valid = true) ∧
    InBuffer (args 1).toNat (reach (args 2)) a
  | some .write => (InRange (int (args 0)) ∧ valid = true) ∧
    InBuffer (args 1).toNat (int (args 2) % addrSpace).toNat a
  | _ => False

section Uses

variable {sb : Superblock} {u : Mem} {W : ℕ → Prop} {rest : Rest} {valid : Bool} {p : ℕ}
  {sysno : BitVec 64} {args : Fin 7 → BitVec 64} {c : Core}

theorem aside_sysFork : Aside (sysFork rest p) := by
  unfold sysFork
  cases rest.child with
  | none => exact .pure _
  | some child => exact (aside_makeFromParent p child rest.mapped).bind fun _ => .pure _

theorem aside_sysWait : Aside (sysWait rest) := by
  unfold sysWait
  split_ifs
  · exact .pure _
  · cases rest.zombie with
    | none => exact .pure _
    | some z => exact (aside_perform (o := .freeProc z.1) trivial).bind fun _ => .pure _

/-- A call uses no other bytes. -/
theorem syscallHandler_touches (hW : ∀ a, uses u valid sysno args a → W a) :
    Prog.Touches known (Op.Within W) (Op.Reads u) (syscallHandler sb rest valid p sysno args) c
      fun _ _ => True := by
  have haside {q : FsM ℤ} (h : Aside q) (c : Core) : Prog.Touches known (Op.Within W) (Op.Reads u)
      (do let r ← q; pure (returns r)) c fun _ _ => True :=
    h.then (fun o ho => ho.within W) fun _ _ => trivial
  have hloads {q : FsM ℤ} {c : Core} (h : Prog.Touches known (Op.Loads W) (Op.Reads u) q c
      fun _ _ => True) : Prog.Touches known (Op.Within W) (Op.Reads u)
        (do let r ← q; pure (returns r)) c fun _ _ => True :=
    (h.weaken (fun o ho => ho.within) fun _ _ _ hr => hr).bind fun _ _ _ => trivial
  have hstores {q : FsM ℤ} {c : Core} (h : Prog.Touches known (Op.Stores W) (fun _ _ => True) q c
      fun _ _ => True) : Prog.Touches known (Op.Within W) (Op.Reads u)
        (do let r ← q; pure (returns r)) c fun _ _ => True :=
    (h.weaken (fun o ho => ho.within) fun _ _ _ _ => trivial).bind fun _ _ _ => trivial
  unfold uses at hW
  unfold syscallHandler
  generalize Sysno.decode sysno = call at hW ⊢
  rcases call with _ | no
  · exact trivial
  cases no with
  | open_ => exact hloads (sysOpen_walks sb hW p _ c)
  | chdir => exact hloads (sysChdir_walks sb hW p c)
  | fstat => exact hstores (sysFstat_touches fun hfd a ha => hW a ⟨hfd, ha⟩)
  | read => exact hstores (sysRead_touches fun hvalid hfd a ha => hW a ⟨⟨hfd, hvalid⟩, ha⟩)
  | write =>
    refine hloads ((sysWrite_touches fun hvalid hfd a ha => hW a ⟨⟨hfd, hvalid⟩, ha⟩).weaken
      (fun _ ho => ho) fun _ _ _ _ => trivial)
  | dup => exact haside (aside_sysDup p _) c
  | close => exact haside (aside_sysClose sb p _) c
  | fork => exact haside aside_sysFork c
  | wait => exact aside_sysWait.touches fun o ho => ho.within W
  | exit =>
    refine Aside.then ?_ (fun o ho => ho.within W) fun _ _ => trivial
    exact (aside_proc p).bind fun x => aside_setProc p _
  | _ => exact trivial

/-- A call may use all of them. -/
theorem syscallHandler_reaches {a : ℕ} (ha : uses u valid sysno args a) :
    ∃ c, MayUse u a (syscallHandler sb rest valid 0 sysno args) c fun _ _ => False := by
  have hthen {q : FsM ℤ} (h : ∃ c, MayUse u a q c fun _ _ => False) :
      ∃ c, MayUse u a (do let r ← q; pure (returns r)) c fun _ _ => False := by
    obtain ⟨c, h⟩ := h
    exact ⟨c, h.bind fun _ _ hfalse => hfalse.elim⟩
  unfold uses at ha
  unfold syscallHandler
  generalize Sysno.decode sysno = call at ha ⊢
  rcases call with _ | no
  · exact ha.elim
  cases no with
  | open_ => exact hthen (sysOpen_reaches ha _)
  | chdir => exact hthen (sysChdir_reaches ha)
  | fstat => exact hthen (sysFstat_reaches ha.1 ha.2)
  | read =>
    obtain ⟨⟨hfd, rfl⟩, k, hk, rfl⟩ := ha
    exact hthen (sysRead_reaches hfd hk rfl)
  | write =>
    obtain ⟨⟨hfd, rfl⟩, k, hk, rfl⟩ := ha
    exact hthen (sysWrite_reaches hfd hk rfl)
  | _ => exact ha.elim

end Uses

/-- A call uses bytes of its caller only where `W` says, whatever the files are, and whatever the
rest of the kernel has. -/
def Confined (W : ℕ → Prop) (u : Mem) (valid : Bool) (sysno : BitVec 64)
    (args : Fin 7 → BitVec 64) : Prop :=
  ∀ (τ : Type) (J : Outside τ), (∀ o t t' r, J o t = .ok (t', r) → o.Reads u r) →
    ∀ (sb : Superblock) (rest : Rest) (t : State τ) (p : ℕ),
      ∀ o ∈ (syscallHandler sb rest valid p sysno args).trace (known.extend J) t, o.Within W

theorem confined_iff_uses {W : ℕ → Prop} {u : Mem} {valid : Bool} {sysno : BitVec 64}
    {args : Fin 7 → BitVec 64} :
    Confined W u valid sysno args ↔ ∀ a, uses u valid sysno args a → W a := by
  constructor
  · intro hconfined a ha
    obtain ⟨c, hreach⟩ := @syscallHandler_reaches smallSb u ⟨0, none, false, 0, 0, none⟩ _ _ _ a ha
    obtain ⟨τ, J, t, hJ, o, ho, huses⟩ := hreach.exists_trace
    exact huses.within (hconfined τ J hJ smallSb _ (c, t) 0 o ho)
  · intro hW τ J hJ sb rest t p o ho
    have htouches := @syscallHandler_touches sb u W rest valid p sysno args t.1 hW
    exact htouches.trace (R := fun _ => True)
      (fun o t t' r _ _ h => ⟨hJ o t t' r h, trivial⟩) trivial o ho

/-- What a call needs of its pointers beyond what it checks: a string and a `Stat` are mapped, and a
buffer has no holes. For a negative number `write` needs all addresses but the last ones. -/
def Safe (P : Platform) (T : PtMem) (r : ℕ) (u : Mem) (valid : Bool) (sysno : BitVec 64)
    (args : Fin 7 → BitVec 64) : Prop :=
  match Sysno.decode sysno with
  | some .open_ | some .chdir => ∀ a, InString u (args 0).toNat a → UserByte P T r a
  | some .fstat => InRange (int (args 0)) → ∀ a, InStat (args 1).toNat a → UserByte P T r a
  | some .read => InRange (int (args 0)) ∧ valid = true →
    ∀ k < reach (args 2), ¬Hole P T r ((args 1).toNat + k)
  | some .write => InRange (int (args 0)) ∧ valid = true →
    if 0 ≤ int (args 2) then ∀ k < (int (args 2)).toNat, ¬Hole P T r ((args 1).toNat + k)
    else ∀ a, InBuffer (args 1).toNat (int (args 2) % addrSpace).toNat a → UserByte P T r a
  | _ => True

section Pointers

variable {P : Platform} {s : Kernel} {r n k : ℕ} {addr sz : BitVec 64} {u : Mem} {valid : Bool}
  {sysno : BitVec 64} {args : Fin 7 → BitVec 64}

/-- The bytes of a buffer that is accepted are mapped, but for its holes. -/
theorem buffer_iff (h : s.Reached P) (hr : r ∈ s.roots)
    (hc : checkaddr P.ops s.machine.tables r n addr sz = some true) (hk : k ≤ reach sz) :
    (∀ a, InBuffer addr.toNat k a → UserByte P s.machine.tables r a) ↔
      ∀ j < k, ¬Hole P s.machine.tables r (addr.toNat + j) := by
  have hbyte : ∀ j < k, UserByte P s.machine.tables r ((addr.toNat + j) % addrSpace) ↔
      ¬Hole P s.machine.tables r (addr.toNat + j) := fun j hj => by
    obtain ⟨hlow, hmod, hacc⟩ := accepted_reach hc (hj.trans_le hk)
    rw [hmod]
    exact userByte_iff h.formed hr hlow hacc
  constructor
  · intro hall j hj
    exact (hbyte j hj).mp (hall _ ⟨j, hj, rfl⟩)
  · rintro hno a ⟨j, hj, rfl⟩
    exact (hbyte j hj).mpr (hno j hj)

/-- The pointers of a call go only to bytes that its caller has mapped if and only if they are as
the call needs them. -/
theorem syscall_pointers_mapped_iff (h : s.Reached P) (hr : r ∈ s.roots)
    (hc : valid = true → ∃ n,
      checkaddr P.ops s.machine.tables r n (args 1) (args 2) = some true) :
    Confined (UserByte P s.machine.tables r) u valid sysno args ↔
      Safe P s.machine.tables r u valid sysno args := by
  rw [confined_iff_uses]
  unfold uses Safe
  have hnone : (∀ a, False → UserByte P s.machine.tables r a) ↔ True :=
    iff_of_true (fun _ hfalse => hfalse.elim) trivial
  have hsplit {A : Prop} {B C : ℕ → Prop} {D : Prop} (h : A → ((∀ a, B a → C a) ↔ D)) :
      (∀ a, A ∧ B a → C a) ↔ (A → D) :=
    ⟨fun hall hA => (h hA).mp fun a hB => hall a ⟨hA, hB⟩,
      fun hD a hAB => (h hAB.1).mpr (hD hAB.1) a hAB.2⟩
  generalize Sysno.decode sysno = call
  rcases call with _ | no
  · exact hnone
  cases no with
  | open_ | chdir => exact Iff.rfl
  | fstat => exact hsplit fun _ => Iff.rfl
  | read =>
    refine hsplit fun hin => ?_
    obtain ⟨n, hn⟩ := hc hin.2
    exact buffer_iff h hr hn le_rfl
  | write =>
    refine hsplit fun hin => ?_
    obtain ⟨n, hn⟩ := hc hin.2
    split_ifs with hpos
    · have hlt := (toInt_bounds (args 2).toNat).2
      have hspace : (addrSpace : ℤ) = 2 ^ 64 := rfl
      have hmod : int (args 2) % addrSpace = int (args 2) := by
        rw [hspace]
        exact Int.emod_eq_of_lt hpos (hlt.trans (by decide))
      have hreach : reach (args 2) = (int (args 2)).toNat := if_pos hpos
      rw [hmod]
      exact buffer_iff h hr hn hreach.ge
    · exact Iff.rfl
  | _ => exact hnone

end Pointers

/-- A byte of the kernel. -/
def kernelByte : ℕ := 0xFFFFFFC080000000

/-- The kernel's memory is mapped in the first process, for the kernel. -/
theorem first_kernel {P : Platform} (hP : Riscv64.platform Riscv64.virt = P) {m : Machine} {a : ℕ}
    (hm : (P.boot 9).makeFromElf P System.emptyProgram = (some a, m)) :
    (P.ops.lookup m.tables a kernelByte).map (fun map => (map.view P.ops m.tables).perm.has .w) =
      some true ∧ userPage P m.tables a kernelByte = none := by
  have ha : ((P.boot 9).makeFromElf P System.emptyProgram).1 = some 0x80000000 := by
    subst hP
    decide +kernel
  have hw : (P.ops.lookup ((P.boot 9).makeFromElf P System.emptyProgram).2.tables 0x80000000
      kernelByte).map (fun map => (map.view P.ops
        ((P.boot 9).makeFromElf P System.emptyProgram).2.tables).perm.has .w) = some true := by
    subst hP
    decide +kernel
  have hu : userPage P ((P.boot 9).makeFromElf P System.emptyProgram).2.tables 0x80000000
      kernelByte = none := by
    subst hP
    decide +kernel
  rw [hm] at ha hw hu
  cases ha
  exact ⟨hw, hu⟩

/-- The first process reads a byte to its stack, after it has forked. -/
theorem syscall_pointers_mapped_iff_read : ∃ (s : Kernel) (r : ℕ),
    Confined (UserByte (Riscv64.platform Riscv64.virt) s.machine.tables r) (fun _ => 0) true 7
        ![0, 0x7fff0000, 1, 0, 0, 0, 0] ↔
      Safe (Riscv64.platform Riscv64.virt) s.machine.tables r (fun _ => 0) true 7
        ![0, 0x7fff0000, 1, 0, 0, 0, 0] := by
  obtain ⟨s, r, -, hreached, hr, -, -, hacc, -⟩ := exists_shared
  exact ⟨s, r, syscall_pointers_mapped_iff hreached hr.mem_roots fun _ =>
    ⟨2, checkaddr_stack hacc⟩⟩

/-- The first process asks for the status of an open file, at an address of the kernel. It is
written there. -/
theorem fstat_writes_kernel : ∃ (s : Kernel) (r : ℕ),
    s.Reached (Riscv64.platform Riscv64.virt) ∧ s.Is r .running ∧
    ((Riscv64.platform Riscv64.virt).ops.lookup s.machine.tables r kernelByte).map
      (fun map => (map.view (Riscv64.platform Riscv64.virt).ops s.machine.tables).perm.has .w) =
        some true ∧
    ∃ o ∈ (syscallHandler smallSb ⟨0, none, false, 0, 0, none⟩ false 0 11
        ![0, 0xFFFFFFC080000000, 0, 0, 0, 0, 0]).trace (known.extend silent)
          (holding 0 wholeFile wholeInode, ()),
      o.Uses kernelByte ∧
        ¬o.Within (UserByte (Riscv64.platform Riscv64.virt) s.machine.tables r) := by
  generalize hP : Riscv64.platform Riscv64.virt = P
  obtain ⟨m₁, m₂, a, c, p, hm₁, -, ⟨n₁, he₁⟩, -⟩ := Kernel.exists_forked hP
  have hr := Kernel.reachable_first hP hm₁ he₁
  obtain ⟨hw, hnone⟩ := first_kernel hP hm₁
  refine ⟨⟨m₁, [⟨a, none, .running⟩]⟩, a, hr.mono fun _ _ _ => trivial,
    ⟨_, List.mem_singleton_self _, rfl, rfl⟩, hw, ?_⟩
  refine ⟨.ustore kernelByte 4 (Mem.store 4 (fun _ => 0) 0 0), List.mem_of_getElem? (i := 4) rfl,
    ⟨0, by decide, rfl⟩, fun hwithin => ?_⟩
  obtain ⟨x, hx⟩ := hwithin 0 (by decide)
  exact Option.some_ne_none x (hx.symm.trans hnone)

end Multiplix.Sys
