import Multiplix.Lib.Spinlock
import Multiplix.Proc.Lifecycle

/-! The locks of pages, in the functions of `plix.vm`, `plix.proc` and `plix.trap` that take
them. -/
namespace Multiplix.Proc
open Lib Lib.Spinlock Vm

/-- A program that takes the locks of pages, by their numbers. -/
abbrev PageM (α : Type) := LockM ℕ Machine α

namespace Locking

variable (P : Platform)

def mappg (pt va pa : ℕ) (perm : Perm) : PageM Bool := do
  let mapped ← step fun m =>
    match P.ops.map m.tables pt va pa .normal perm m.heap with
    | (mapped, T, as) => (mapped, { m with tables := T, heap := as })
  if mapped then do
    lock (pa / pagesize)
    modify fun m => m.addRef pa
    unlock (pa / pagesize)
    pure true
  else pure false

/-- The loop over the mappings of a page table, whose body answers whether to go on. -/
def opApply (body : VaMapping → PageM Bool) : ℕ → PtIter → PageM Bool
  | 0, _ => pure true
  | n + 1, it => do
    let m ← get
    match it.next P.ops m.tables PtIter.fuel with
    | none => pure true
    | some (map, it) =>
      if ← body map then opApply body n it else pure false

/-- `~this` of `Proc`: the lock of every page is taken. What is given back to `kalloc` may be
answered later. -/
def destroy (pt : ℕ) : PageM Unit := do
  let _ ← opApply P (fun map => do
    let m ← get
    let pn := map.pa P.ops m.tables / pagesize
    lock pn
    unlock pn
    pure true) PtIter.fuel (.get pt)
  pure ()

/-- One turn of the loop over the parent's mappings. -/
def sharePage (pt : ℕ) (map : VaMapping) : PageM Bool := do
  let m ← get
  if map.user P.ops m.tables then do
    let perm := map.perm P.ops m.tables &&& ~~~Perm.w ||| Perm.cow
    modify fun m => m.setPte map.pte (P.ops.setPerm · perm)
    let m ← get
    mappg P pt map.va (map.pa P.ops m.tables) (Perm.urx ||| Perm.cow)
  else pure true

/-- The address spaces of `make_from_parent`: that of the child, unless there was no memory for
it, and whether the child is complete. -/
def makeFromParent (parent : ℕ) : PageM (Option (ℕ × Bool)) := do
  match ← step (Machine.makeEmpty P) with
  | none => pure none
  | some pt => do
    let shared ← opApply P (sharePage P pt) PtIter.fuel (.get parent)
    if shared then pure (some (pt, true))
    else do
      destroy P pt
      pure (some (pt, false))

/-- How the fault handler leaves. While it waits for memory, it keeps the mapping and the number
of the page that it has locked. -/
inductive Outcome
  | resumed
  | killed
  | blocked (map : VaMapping) (pg : ℕ)

/-- A turn of the loop of `pgflt_handler` around `kalloc`, and what is behind the loop. -/
def copyPage (map : VaMapping) (pg : ℕ) : PageM Outcome := do
  match ← step Machine.kalloc with
  | none => pure (.blocked map pg)
  | some mem => do
    modify fun m => { m with bytes := m.bytes.copy mem m.bytes (map.pa P.ops m.tables) pagesize }
    let m ← get
    let perm := map.perm P.ops m.tables &&& ~~~Perm.cow ||| Perm.w
    modify fun m => m.setPte map.pte (P.ops.setPerm · perm)
    modify fun m => m.setPte map.pte (P.ops.setPa · mem)
    let m ← get
    let pa := map.pa P.ops m.tables
    lock (pa / pagesize)
    modify fun m => m.addRef pa
    unlock (pa / pagesize)
    unlock pg
    pure .resumed

def pgfltHandler (pt addr : ℕ) (fault : FaultType) : PageM Outcome := do
  let m ← get
  match P.ops.lookup m.tables pt (addr - addr % 4096) with
  | none => pure .killed
  | some map =>
    if map.user P.ops m.tables = false ∨ map.size ≠ pagesize then pure .killed
    else if fault = .write ∧ map.cow P.ops m.tables = true ∧ map.read P.ops m.tables = true then do
      let pa := map.pa P.ops m.tables
      let pg := pa / pagesize
      lock pg
      let m ← get
      if m.refcnt pg = 1 then do
        let perm := map.perm P.ops m.tables &&& ~~~Perm.cow ||| Perm.w
        modify fun m => m.setPte map.pte (P.ops.setPerm · perm)
        unlock pg
        pure .resumed
      else do
        modify fun m => m.dropRef pa
        copyPage P map pg
    else pure .killed

/-! ### Where no page is locked -/

variable {P} {ω : Type} {pt : ℕ}

theorem brief_mappg (pt va pa : ℕ) (perm : Perm) :
    Brief ω (mappg P pt va pa perm) fun m => m.mappg P pt va pa perm := by
  intro w m
  unfold mappg Machine.mappg
  rw [exec_step_bind]
  dsimp only
  rcases P.ops.map m.tables pt va pa .normal perm m.heap with ⟨_ | _, T, as⟩
  · rfl
  · rw [if_pos rfl, exec_critical_bind rfl]
    rfl

theorem brief_opApply {body : VaMapping → PageM Bool} {body' : VaMapping → Machine → Bool × Machine}
    (h : ∀ map, Brief ω (body map) (body' map)) (n : ℕ) (it : PtIter) :
    Brief ω (opApply P body n it) (PtIter.opApply P.ops body' n it) := by
  induction n generalizing it with
  | zero => exact fun _ _ => rfl
  | succ n ih =>
    intro w m
    unfold opApply PtIter.opApply
    rw [exec_get_bind]
    rcases it.next P.ops m.tables PtIter.fuel with _ | ⟨map, it'⟩
    · rfl
    · dsimp only
      rw [Prog.exec_bind_of_ok (h map w m)]
      rcases body' map m with ⟨_ | _, m'⟩
      · rfl
      · exact ih it' w m'

theorem opApply_skip (ops : PteOps) (n : ℕ) (it : PtIter) (m : Machine) :
    PtIter.opApply ops (fun _ m => (true, m)) n it m = (true, m) := by
  induction n generalizing it with
  | zero => rfl
  | succ n ih =>
    unfold PtIter.opApply
    rcases it.next ops m.tables PtIter.fuel with _ | ⟨map, it'⟩
    · rfl
    · exact ih it'

theorem brief_destroy (pt : ℕ) : Brief ω (destroy P pt) fun m => ((), m) := by
  intro w m
  have hbody (map : VaMapping) : Brief ω (do
      let m ← get
      let pn := map.pa P.ops m.tables / pagesize
      lock pn
      unlock pn
      pure true : PageM Bool) fun m => (true, m) := by
    intro w m
    rw [exec_get_bind, exec_lock_bind rfl, exec_unlock_bind, update_release rfl]
    rfl
  unfold destroy
  rw [Prog.exec_bind_of_ok (brief_opApply hbody PtIter.fuel (.get pt) w m), opApply_skip]
  rfl

theorem brief_sharePage (pt : ℕ) (map : VaMapping) :
    Brief ω (sharePage P pt map) (Machine.sharePage P pt map) := by
  intro w m
  unfold sharePage Machine.sharePage
  rw [exec_get_bind]
  split_ifs with huser
  · exact brief_mappg _ _ _ _ w _
  · rfl

/-- The child is what it is without locks. -/
theorem brief_makeFromParent (parent : ℕ) : Brief ω (makeFromParent P parent) fun m =>
    ((m.makeEmpty P).1.map fun pt => (pt, (m.makeFromParent P parent).1.isSome),
      (m.makeFromParent P parent).2) := by
  intro w m
  unfold makeFromParent Machine.makeFromParent
  rw [exec_step_bind]
  dsimp only
  rcases m.makeEmpty P with ⟨_ | pt, m₁⟩
  · rfl
  · dsimp only
    rw [Prog.exec_bind_of_ok (brief_opApply (brief_sharePage pt) PtIter.fuel (.get parent) w m₁)]
    rcases PtIter.opApply P.ops (Machine.sharePage P pt) PtIter.fuel (.get parent) m₁ with
      ⟨_ | _, m₂⟩
    · dsimp only
      rw [if_neg Bool.false_ne_true, Prog.exec_bind_of_ok (brief_destroy pt w m₂)]
      rfl
    · rfl

namespace Outcome

def handled : Outcome → Handled
  | resumed => .resumed
  | killed => .killed
  | blocked _ _ => .blocked

/-- The lock that is kept. -/
def holders (w : ω) : Outcome → Holders ℕ ω
  | blocked _ pg => Function.update free pg (some w)
  | _ => free

end Outcome

/-- The page of `mem` is not one that the process shares with others. -/
def Apart (P : Platform) (pt : ℕ) (m : Machine) (mem : ℕ) : Prop :=
  ∀ va map, P.ops.lookup m.tables pt va = some map → map.size = pagesize →
    map.cow P.ops m.tables = true → map.pa P.ops m.tables / pagesize ≠ mem / pagesize

theorem pa_setPa {m : Machine} {map : VaMapping} {mem : ℕ} (hin : P.InMem mem) :
    map.pa P.ops (m.setPte map.pte (P.ops.setPa · mem)).tables = mem := by
  unfold VaMapping.pa Machine.setPte Radix.write
  dsimp only
  rw [Function.update_self, Function.update_self]
  exact (P.ops.setPa_spec hin.lt hin.dvd).2.2.1

/-- What is behind `kalloc` locks the new page, which is another one. -/
theorem copyPage_exec {m : Machine} {map : VaMapping} {pg : ℕ} (w : ω)
    (hmem : ∀ mem, m.kalloc.1 = some mem → P.InMem mem ∧ pg ≠ mem / pagesize) :
    ∃ o m', (copyPage P map pg).exec (impl w) (m, Function.update free pg (some w)) =
        .ok ((m', o.holders w), o) ∧
      m.finishCopy P map = (o.handled, m') := by
  unfold copyPage Machine.finishCopy
  rw [exec_step_bind]
  generalize m.kalloc = x at hmem ⊢
  rcases x with ⟨_ | mem, m₁⟩
  · exact ⟨.blocked map pg, m₁, rfl, rfl⟩
  · obtain ⟨hin, hne⟩ := hmem mem rfl
    dsimp only
    rw [exec_modify_bind, exec_get_bind, exec_modify_bind, exec_modify_bind, exec_get_bind,
      pa_setPa hin, exec_critical_bind (Function.update_of_ne hne.symm _ _), exec_unlock_bind,
      update_release rfl]
    exact ⟨.resumed, _, rfl, rfl⟩

theorem kalloc_dropRef (m : Machine) (pa : ℕ) : (m.dropRef pa).kalloc.1 = m.kalloc.1 := by
  unfold Machine.kalloc Machine.dropRef
  dsimp only
  rcases m.heap with _ | ⟨mem, as⟩
  · rfl
  · rfl

/-- The handler does what it does without locks, and keeps a lock only where it waits. -/
theorem pgfltHandler_exec {m : Machine} {pt addr : ℕ} {fault : FaultType} (w : ω)
    (hmem : ∀ mem, m.kalloc.1 = some mem → P.InMem mem ∧ Apart P pt m mem) :
    ∃ o m', (pgfltHandler P pt addr fault).exec (impl w) (m, free) = .ok ((m', o.holders w), o) ∧
      m.pgfltHandler P pt addr fault = (o.handled, m') := by
  unfold pgfltHandler Machine.pgfltHandler
  rw [exec_get_bind]
  dsimp only
  cases hlook : P.ops.lookup m.tables pt (addr - addr % 4096) with
  | none => exact ⟨.killed, m, rfl, rfl⟩
  | some map =>
    dsimp only
    split_ifs with hbad hcow hone
    · exact ⟨.killed, m, rfl, rfl⟩
    · refine ⟨.resumed, _, ?_, rfl⟩
      rw [exec_lock_bind rfl, exec_get_bind, if_pos hone, exec_modify_bind, exec_unlock_bind,
        update_release rfl]
      rfl
    · have hnext : ∀ mem, (m.dropRef (map.pa P.ops m.tables)).kalloc.1 = some mem →
          P.InMem mem ∧ map.pa P.ops m.tables / pagesize ≠ mem / pagesize := by
        intro mem h
        rw [kalloc_dropRef] at h
        obtain ⟨hin, hapart⟩ := hmem mem h
        exact ⟨hin, hapart _ _ hlook (not_not.mp (not_or.mp hbad).2) hcow.2.1⟩
      obtain ⟨o, m', hexec, hfinish⟩ := copyPage_exec w hnext
      refine ⟨o, m', ?_, ?_⟩
      · rw [exec_lock_bind rfl, exec_get_bind, if_neg hone, exec_modify_bind]
        exact hexec
      · rw [← hfinish]
        unfold Machine.finishCopy Machine.kalloc Machine.dropRef
        dsimp only
        rcases m.heap with _ | ⟨_ | mem, as⟩
        · rfl
        · rfl
        · rfl
    · exact ⟨.killed, m, rfl, rfl⟩

/-- The process has this mapping of a page that is to be copied before it is written. -/
structure SharesAt (P : Platform) (m : Machine) (pt addr : ℕ) (map : VaMapping) : Prop where
  look : P.ops.lookup m.tables pt (addr - addr % 4096) = some map
  user : map.user P.ops m.tables = true
  size : map.size = pagesize
  cow : map.cow P.ops m.tables = true
  read : map.read P.ops m.tables = true

/-- A write fault at a page that the process shares with others. -/
def Copies (P : Platform) (m : Machine) (pt addr : ℕ) (fault : FaultType) : Prop :=
  fault = .write ∧ ∃ map, SharesAt P m pt addr map ∧
    m.refcnt (map.pa P.ops m.tables / pagesize) ≠ 1

section SharesAt

variable {m : Machine} {pt addr : ℕ} {map : VaMapping} (h : SharesAt P m pt addr map)

include h

theorem SharesAt.not_bad : ¬(map.user P.ops m.tables = false ∨ map.size ≠ pagesize) := by
  rw [h.user, h.size]
  exact not_or.mpr ⟨Bool.noConfusion, fun h => h rfl⟩

theorem SharesAt.pgfltHandler_eq : m.pgfltHandler P pt addr .write =
    if m.refcnt (map.pa P.ops m.tables / pagesize) = 1 then
      (.resumed, m.setPte map.pte
        (P.ops.setPerm · (map.perm P.ops m.tables &&& ~~~Perm.cow ||| Perm.w)))
    else (m.dropRef (map.pa P.ops m.tables)).finishCopy P map := by
  unfold Machine.pgfltHandler
  dsimp only
  rw [h.look]
  dsimp only
  refine (if_neg h.not_bad).trans ((if_pos ⟨rfl, h.cow, h.read⟩).trans ?_)
  by_cases hone : m.refcnt (map.pa P.ops m.tables / pagesize) = 1
  · rw [if_pos hone, if_pos hone]
  · rw [if_neg hone, if_neg hone]
    exact (Machine.dropRef_finishCopy rfl).symm

/-- The lock of the page is not free. -/
theorem SharesAt.spins {w : ω} {L : Holders ℕ ω}
    (hheld : L (map.pa P.ops m.tables / pagesize) ≠ none) :
    (pgfltHandler P pt addr .write).exec (impl w) (m, L) =
      .error (map.pa P.ops m.tables / pagesize) := by
  unfold pgfltHandler
  rw [exec_get_bind, h.look]
  dsimp only
  rw [if_neg h.not_bad, if_pos ⟨rfl, h.cow, h.read⟩, exec_lock_taken hheld]

/-- The page is locked, and there is no memory for the copy. -/
theorem SharesAt.waits (hshared : m.refcnt (map.pa P.ops m.tables / pagesize) ≠ 1)
    (hnone : m.kalloc.1 = none) (w : ω) :
    ∃ m', (pgfltHandler P pt addr .write).exec (impl w) (m, free) =
        .ok ((m', Function.update free (map.pa P.ops m.tables / pagesize) (some w)),
          .blocked map (map.pa P.ops m.tables / pagesize)) ∧
      m'.tables = m.tables := by
  unfold pgfltHandler
  rw [exec_get_bind, h.look]
  dsimp only
  rw [if_neg h.not_bad, if_pos ⟨rfl, h.cow, h.read⟩, exec_lock_bind rfl, exec_get_bind,
    if_neg hshared, exec_modify_bind]
  unfold copyPage
  rw [exec_step_bind, kalloc_dropRef, hnone]
  refine ⟨_, rfl, ?_⟩
  unfold Machine.kalloc Machine.dropRef
  rcases m.heap with _ | ⟨mem, as⟩
  · rfl
  · rfl

end SharesAt

/-- The handler waits only where there is no memory for a copy. -/
theorem pgfltHandler_blocked {m : Machine} {pt addr : ℕ} {fault : FaultType} :
    (m.pgfltHandler P pt addr fault).1 = .blocked ↔
      Copies P m pt addr fault ∧ m.kalloc.1 = none := by
  constructor
  · intro hblocked
    unfold Machine.pgfltHandler at hblocked
    dsimp only at hblocked
    cases hlook : P.ops.lookup m.tables pt (addr - addr % 4096) with
    | none =>
      rw [hlook] at hblocked
      cases hblocked
    | some map =>
      rw [hlook] at hblocked
      dsimp only at hblocked
      split_ifs at hblocked with hbad hcow hone
      obtain ⟨huser, hsize⟩ := not_or.mp hbad
      refine ⟨⟨hcow.1, map, ⟨hlook, eq_true_of_ne_false huser, not_not.mp hsize, hcow.2.1,
        hcow.2.2⟩, hone⟩, ?_⟩
      rw [← kalloc_dropRef m (map.pa P.ops m.tables)]
      rcases hk : (m.dropRef (map.pa P.ops m.tables)).kalloc with ⟨_ | mem, m₁⟩
      · rfl
      · rw [hk] at hblocked
        cases hblocked
  · rintro ⟨⟨rfl, map, hs, hone⟩, hnone⟩
    rw [hs.pgfltHandler_eq, if_neg hone]
    rw [← kalloc_dropRef m (map.pa P.ops m.tables)] at hnone
    unfold Machine.finishCopy
    rcases hk : (m.dropRef (map.pa P.ops m.tables)).kalloc with ⟨_ | mem, m₁⟩
    · rfl
    · rw [hk] at hnone
      cases hnone

/-- A page that a process may not write is one that it shares. -/
theorem exists_sharesAt {m : Machine} {roots : List ℕ} {r p addr : ℕ}
    (h : m.Exact P roots) (hl : m.ref P roots (r, addr / 4096) = some (p, false)) :
    ∃ map, SharesAt P m r addr map ∧ map.pa P.ops m.tables = p := by
  obtain ⟨o, hi⟩ := h.inv
  obtain ⟨pte, -, he, hpa, hw, hlook⟩ := hi.shape.exists_pteAt hl
  have hpg : (addr - addr % 4096) / 4096 = addr / 4096 := by omega
  refine ⟨⟨pte, addr - addr % 4096, 4096⟩, ⟨hlook _ hpg, he.user, rfl, ?_, he.read⟩, hpa⟩
  exact he.cow.trans (by rw [hw]; rfl)

theorem SharesAt.congr {m m' : Machine} {pt addr : ℕ} {map : VaMapping}
    (h : SharesAt P m pt addr map) (ht : m'.tables = m.tables) : SharesAt P m' pt addr map := by
  constructor
  · rw [ht]
    exact h.look
  · rw [ht]
    exact h.user
  · exact h.size
  · rw [ht]
    exact h.cow
  · rw [ht]
    exact h.read

/-- A page that is mapped twice has more than one reference. -/
theorem refcnt_ne_one {m : Machine} {roots : List ℕ} {l l' : ℕ × ℕ} {p : ℕ} {w w' : Bool}
    (h : m.Exact P roots) (hl : m.ref P roots l = some (p, w))
    (hl' : m.ref P roots l' = some (p, w')) (hne : l ≠ l') : m.refcnt (p / 4096) ≠ 1 := by
  obtain ⟨o, hi⟩ := h.inv
  have hmem := hi.shape.mem_userEntries hl (hi.shape.ref_mem_pages hl).2.1
  have hmem' := hi.shape.mem_userEntries hl' (hi.shape.ref_mem_pages hl').2.1
  have hcount := h.counts (p / 4096)
  have hlt := Set.one_lt_encard_iff.mpr ⟨l, l', hmem, hmem', hne⟩
  intro hone
  rw [hcount, hone] at hlt
  exact absurd hlt (lt_irrefl _)

/-- Pages that are handed out are not mapped. -/
theorem exact_apart {m : Machine} {roots : List ℕ} {r t : ℕ} (h : m.Exact P roots)
    (hr : r ∈ roots) (ht : some t ∈ m.heap) : Apart P r m t := by
  obtain ⟨o, hi⟩ := h.inv
  intro va map hlook hsize hcow
  rw [Machine.lookup_mod, Option.map_eq_some_iff] at hlook
  obtain ⟨map', hlook, rfl⟩ := hlook
  have hlow : (va % 2 ^ 39).testBit 38 = false := by
    by_contra hup
    exact h.upper.size_ne hr (eq_true_of_ne_false hup) hlook hsize
  have hva := Machine.mod_lt_of_testBit hlow
  rw [Nat.mod_mod] at hva
  have hvalid : P.ops.valid (m.tables map'.pte.1 map'.pte.2) = true := by
    cases hl : m.ref P roots (r, va % 2 ^ 39 / 4096) with
    | none =>
      have hzero := hi.shape.lookup_unmapped hr hva hl hlook
      have hno : (P.ops.perm (m.tables map'.pte.1 map'.pte.2)).has .cow = true := hcow
      rw [hzero, P.ops.cow_zero] at hno
      cases hno
    | some x =>
      obtain ⟨pte, -, he, -, -, hpte⟩ := hi.shape.exists_pteAt hl
      rw [hpte _ rfl, Option.some.injEq] at hlook
      rw [← hlook]
      exact he.valid
  have href := hi.shape.ref_of_lookup hr hva hlook hvalid
  have hpage := (hi.shape.ref_mem_pages href).1
  apply hi.shape.div_ne hpage (hi.shape.avail t ht).dvd
  intro he
  exact hi.shape.fresh.not_mem t ht (Or.inr (he ▸ hpage))

end Locking
end Multiplix.Proc
