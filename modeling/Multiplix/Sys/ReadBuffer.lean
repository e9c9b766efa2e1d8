import Multiplix.Fs.UserReach
import Multiplix.Sys.UserMemory

/-! Where `read` stores: `checkaddr` asks whether a page is the user's, and not whether it may be
written. -/
namespace Multiplix.Sys
open Lib Vm Proc Fs

/-- Every byte that a call of `read` stores is where `W` says, whatever the files are. -/
def ReadStores (W : ℕ → Prop) (addr sz : ℕ) : Prop :=
  ∀ (τ : Type) (J : Outside τ) (sb : Superblock) (t : State τ) (p : ℕ) (fd : ℤ),
    ∀ o ∈ (sysRead sb p fd addr sz true).trace (known.extend J) t, o.Stores W

/-- The most bytes that a call of `read` with a size stores. -/
def reach (sz : BitVec 64) : ℕ := readReach (BitVec.ofNat 32 sz.toNat).toInt

variable {P : Platform} {s : Kernel} {r n k : ℕ} {addr sz : BitVec 64}

theorem reach_lt (sz : BitVec 64) : reach sz < 2 ^ 31 := by
  have hmax : MAXFILE * BSIZE < 2 ^ 31 := by decide
  obtain ⟨-, hlt⟩ := toInt_bounds sz.toNat
  unfold reach readReach
  split_ifs
  · omega
  · exact hmax

/-- The bytes that are stored in a buffer that is accepted. -/
theorem accepted_reach (hc : checkaddr P.ops s.machine.tables r n addr sz = some true)
    (hk : k < reach sz) : (addr.toNat + k).testBit 38 = false ∧
      (addr.toNat + k) % addrSpace = addr.toNat + k ∧
      Accepted P s.machine.tables r (addr.toNat + k) := by
  obtain ⟨hmax, -, hacc⟩ := accepted_of_checkaddr hc
  obtain ⟨hlow, hmod⟩ := buffer_low hmax (hk.trans (reach_lt sz))
  exact ⟨hlow, hmod, hacc k (hk.trans_le (readReach_le sz.toNat))⟩

/-- A read whose buffer is accepted stores only where the process may write if and only if no byte
that it can store is in a page that is still to be copied, or in a hole. -/
theorem read_stores_writable_iff (h : s.Reached P) (hr : r ∈ s.roots)
    (hc : checkaddr P.ops s.machine.tables r n addr sz = some true) :
    ReadStores (Writable P s.machine.tables r) addr.toNat sz.toNat ↔ ∀ k < reach sz,
      ¬Shared P s.machine.tables r (addr.toNat + k) ∧
        ¬Hole P s.machine.tables r (addr.toNat + k) := by
  have hbyte : ∀ k < reach sz, Writable P s.machine.tables r (addr.toNat + k) ↔
      ¬Shared P s.machine.tables r (addr.toNat + k) ∧
        ¬Hole P s.machine.tables r (addr.toNat + k) := fun k hk => by
    obtain ⟨hlow, -, hacc⟩ := accepted_reach hc hk
    exact writable_iff h.formed hr hlow hacc
  constructor
  · intro hstores k hk
    have hfd : InRange 0 := ⟨le_rfl, by decide⟩
    obtain ⟨c, hreach⟩ :=
      @sysRead_reaches smallSb (fun _ => 0) _ addr.toNat sz.toNat k 0 hfd hk rfl _
    obtain ⟨τ, J, t, -, o, ho, huses⟩ := hreach.exists_trace
    have hwritable := huses.within (hstores τ J smallSb (c, t) 0 0 o ho).within
    rw [(accepted_reach hc hk).2.1] at hwritable
    exact (hbyte k hk).mp hwritable
  · intro hcond τ J sb t p fd o ho
    have htouches : Prog.Touches known (Op.Stores (Writable P s.machine.tables r)) (fun _ _ => True)
        (sysRead sb p fd addr.toNat sz.toNat true) t.1 fun _ _ => True := by
      refine sysRead_touches fun _ _ => ?_
      rintro a ⟨k, hk, rfl⟩
      rw [(accepted_reach hc hk).2.1]
      exact (hbyte k hk).mpr (hcond k hk)
    exact htouches.trace (R := fun _ => True) (fun _ _ _ _ _ _ _ => ⟨trivial, trivial⟩) trivial o ho

/-! ### After a fork -/

theorem checkaddr_stack {T : PtMem} (h : Accepted P T r stackVa) :
    checkaddr P.ops T r 2 0x7fff0000 1 = some true := by
  obtain ⟨map, hmap, huser⟩ := h
  have hfirst : P.ops.lookup T r (0x7fff0000 : BitVec 64).toNat = some map := hmap
  have hstart : (0x7fff0000 : BitVec 64) - (0x7fff0000 &&& 0xFFF) = 0x7fff0000 := by decide
  have hok : ¬((0x7fff0000 : BitVec 64) + 1 < 0x7fff0000 ∨
      maxVa ≤ (0x7fff0000 : BitVec 64).toNat) := by decide
  have hlt : (0x7fff0000 : BitVec 64) < 0x7fff0000 + 1 := by decide
  have hend : ¬(0x7fff0000 : BitVec 64) + BitVec.ofNat 64 pagesize < 0x7fff0000 + 1 := by decide
  unfold checkaddr
  rw [if_neg hok, hstart, checkaddrLoop, if_pos hlt, hfirst]
  dsimp only
  rw [huser, if_neg fun hc => Bool.noConfusion hc, checkaddrLoop, if_neg hend]

/-- A process has forked. Its stack is accepted as a buffer, and is its child's as well. -/
theorem exists_shared : ∃ (s : Kernel) (r child : ℕ),
    s.Reached (Riscv64.platform Riscv64.virt) ∧ s.Is r .running ∧ s.Is child .running ∧
    child ≠ r ∧ Accepted (Riscv64.platform Riscv64.virt) s.machine.tables r stackVa ∧
    (userPage (Riscv64.platform Riscv64.virt) s.machine.tables r stackVa).map Mapping.pa =
      (userPage (Riscv64.platform Riscv64.virt) s.machine.tables child stackVa).map Mapping.pa ∧
    Shared (Riscv64.platform Riscv64.virt) s.machine.tables r stackVa := by
  generalize hP : Riscv64.platform Riscv64.virt = P
  obtain ⟨m₁, m₂, a, c, p, hm₁, -, ⟨n₁, he₁⟩, ⟨n₂, he₂⟩, hm₂, -, ha, hc⟩ := Kernel.exists_forked hP
  have hr₁ := Kernel.reachable_first hP hm₁ he₁
  have hreached : Kernel.Reached P ⟨m₂, [⟨a, none, .running⟩, ⟨c, some a, .running⟩]⟩ :=
    .step (e := .fork a) (hr₁.mono fun _ _ _ => trivial) hr₁.inv.answers trivial
      (Kernel.exec_fork_single hm₂ he₂)
  have hformed := hreached.formed
  have hlow : stackVa.testBit 38 = false := by decide
  have hmem : a ∈ [a, c] := List.mem_cons_self
  have hmem' : c ∈ [a, c] := List.mem_cons_of_mem _ (List.mem_singleton_self c)
  obtain ⟨hacc, x, hx, hxp, -, hcow⟩ := accepted_of_ref hformed hmem hlow ha
  obtain ⟨-, y, hy, hyp, -, -⟩ := accepted_of_ref hformed hmem' hlow hc
  refine ⟨_, a, c, hreached, ⟨_, List.mem_cons_self, rfl, rfl⟩,
    ⟨_, List.mem_cons_of_mem _ (List.mem_singleton_self _), rfl, rfl⟩, ?_, hacc, ?_, x, hx, hcow⟩
  · rintro rfl
    exact absurd hformed.nodup (by simp [Kernel.roots])
  · have hpa : (some x).map Mapping.pa = (some y).map Mapping.pa :=
      congrArg some (hxp.trans hyp.symm)
    exact (congrArg _ hx).trans (hpa.trans (congrArg _ hy).symm)

/-- The first process reads a byte to its stack, after it has forked. -/
theorem read_stores_writable_iff_forked : ∃ (s : Kernel) (r : ℕ),
    ReadStores (Writable (Riscv64.platform Riscv64.virt) s.machine.tables r) 0x7fff0000 1 ↔
      ∀ k < reach 1,
        ¬Shared (Riscv64.platform Riscv64.virt) s.machine.tables r (0x7fff0000 + k) ∧
          ¬Hole (Riscv64.platform Riscv64.virt) s.machine.tables r (0x7fff0000 + k) := by
  obtain ⟨s, r, -, hreached, hr, -, -, hacc, -⟩ := exists_shared
  exact ⟨s, r, read_stores_writable_iff hreached hr.mem_roots (checkaddr_stack hacc)⟩

/-- A process that has forked reads a byte from the terminal to its stack. The byte is stored in a
page that it shares with its child. -/
theorem read_stores_shared : ∃ (s : Kernel) (r child : ℕ),
    s.Reached (Riscv64.platform Riscv64.virt) ∧ s.Is r .running ∧ s.Is child .running ∧
    child ≠ r ∧
    checkaddr (Riscv64.platform Riscv64.virt).ops s.machine.tables r 2 0x7fff0000 1 = some true ∧
    (userPage (Riscv64.platform Riscv64.virt) s.machine.tables r stackVa).map Mapping.pa =
      (userPage (Riscv64.platform Riscv64.virt) s.machine.tables child stackVa).map Mapping.pa ∧
    ∃ o ∈ (sysRead smallSb 0 0 0x7fff0000 1 true).trace (known.extend silent)
      (holding 0 deviceFile Inode.init, ()),
      o.Uses stackVa ∧ ¬o.Stores (Writable (Riscv64.platform Riscv64.virt) s.machine.tables r) := by
  obtain ⟨s, r, child, hreached, hr, hchild, hne, hacc, hpa, hshared⟩ := exists_shared
  have hlow : stackVa.testBit 38 = false := by decide
  refine ⟨s, r, child, hreached, hr, hchild, hne, checkaddr_stack hacc, hpa,
    .ustore 0x7fff0000 1 fun _ => 0, List.mem_of_getElem? (i := 3) rfl, ⟨0, Nat.one_pos, rfl⟩,
    fun hstores => ?_⟩
  have hwritable := (writable_iff hreached.formed hr.mem_roots hlow hacc).mp
    (hstores 0 Nat.one_pos)
  exact hwritable.1 hshared

end Multiplix.Sys
