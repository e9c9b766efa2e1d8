import Multiplix.Proc.CountOps

/-! The life of processes: they are made, fork, fault, exit, and are freed by their parents. -/
namespace Multiplix.Proc
open Lib Vm

namespace Machine

/-- The fault handler, when it asks for memory again. -/
def finishCopy (P : Platform) (map : VaMapping) (m : Machine) : Handled × Machine :=
  match m.kalloc with
  | (none, m) => (.blocked, m)
  | (some mem, m) =>
    let m := { m with bytes := m.bytes.copy mem m.bytes (map.pa P.ops m.tables) pagesize }
    let perm := map.perm P.ops m.tables &&& ~~~Perm.cow ||| Perm.w
    let m := m.setPte map.pte (P.ops.setPerm · perm)
    let m := m.setPte map.pte (P.ops.setPa · mem)
    (.resumed, m.addRef (map.pa P.ops m.tables))

/-- What the fault handler does after it has dropped the shared page. -/
theorem dropRef_finishCopy {P : Platform} {map : VaMapping} {m : Machine} {p : ℕ}
    (hp : map.pa P.ops m.tables = p) : (m.dropRef p).finishCopy P map =
      match (m.dropRef p).kalloc with
      | (none, m) => (.blocked, m)
      | (some mem, m₁) =>
        let m₂ := { m₁ with bytes := m₁.bytes.copy mem m₁.bytes p pagesize }
        let m₂ := m₂.setPte map.pte
          (P.ops.setPerm · (map.perm P.ops m.tables &&& ~~~Perm.cow ||| Perm.w))
        let m₂ := m₂.setPte map.pte (P.ops.setPa · mem)
        (.resumed, m₂.addRef (map.pa P.ops m₂.tables)) := by
  subst hp
  unfold finishCopy kalloc dropRef
  dsimp only
  rcases m.heap with _ | ⟨_ | mem, as⟩
  · rfl
  · rfl
  · rfl

end Machine

inductive ProcState
  | running
  /-- In the fault handler, waiting for memory. -/
  | copying (map : VaMapping)
  | exited
  /-- Made only in part, and about to be freed. -/
  | failed
  deriving DecidableEq

/-- Processes are named by their page tables. -/
structure Process where
  pt : ℕ
  parent : Option ℕ
  state : ProcState

structure Kernel where
  machine : Machine
  procs : List Process

namespace Kernel

inductive Event
  | make (bin : Mem)
  | fork (r : ℕ)
  | fault (r addr : ℕ) (kind : FaultType)
  | retry (r : ℕ) (map : VaMapping)
  | exit (r : ℕ)
  | wait (r child : ℕ)
  | kfree (r : ℕ)

def roots (s : Kernel) : List ℕ := s.procs.map Process.pt

def Is (s : Kernel) (r : ℕ) (state : ProcState) : Prop :=
  ∃ p ∈ s.procs, p.pt = r ∧ p.state = state

instance (s : Kernel) (r : ℕ) (state : ProcState) : Decidable (s.Is r state) :=
  inferInstanceAs (Decidable (∃ p ∈ s.procs, p.pt = r ∧ p.state = state))

/-- A process that its parent waits for. -/
def Zombie (s : Kernel) (r child : ℕ) : Prop :=
  ∃ p ∈ s.procs, p.pt = child ∧ p.parent = some r ∧ p.state = .exited

instance (s : Kernel) (r child : ℕ) : Decidable (s.Zombie r child) :=
  inferInstanceAs (Decidable (∃ p ∈ s.procs, p.pt = child ∧ p.parent = some r ∧ p.state = .exited))

def set (s : Kernel) (r : ℕ) (state : ProcState) : Kernel :=
  { s with procs := s.procs.map fun p => if p.pt = r then { p with state := state } else p }

/-- `~this` of `Proc` gives pages without references back, and changes neither counts nor tables. -/
def free (s : Kernel) (r : ℕ) : Kernel := { s with procs := s.procs.filter (·.pt ≠ r) }

variable (P : Platform)

/-- A new process, which is still to be freed if it could not be completed. -/
def spawn (s : Kernel) (parent : Option ℕ) (made : Option ℕ × Machine) : Kernel :=
  match (s.machine.makeEmpty P).1 with
  | none => { s with machine := made.2 }
  | some pt =>
    match made.1 with
    | none => ⟨made.2, s.procs ++ [⟨pt, none, .failed⟩]⟩
    | some _ => ⟨made.2, s.procs ++ [⟨pt, parent, .running⟩]⟩

def exec (s : Kernel) : Event → Option Kernel
  | .make bin => some (s.spawn P none (s.machine.makeFromElf P bin))
  | .fork r =>
    if s.Is r .running then some (s.spawn P (some r) (s.machine.makeFromParent P r)) else none
  | .fault r addr kind =>
    if s.Is r .running then
      match s.machine.pgfltHandler P r addr kind with
      | (.resumed, m) => some { s with machine := m }
      | (.killed, m) => some ({ s with machine := m }.set r .exited)
      | (.blocked, m) =>
        (P.ops.lookup s.machine.tables r (addr - addr % 4096)).map fun map =>
          { s with machine := m }.set r (.copying map)
    else none
  | .retry r map =>
    if s.Is r (.copying map) then
      match s.machine.finishCopy P map with
      | (.resumed, m) => some ({ s with machine := m }.set r .running)
      | (_, m) => some { s with machine := m }
    else none
  | .exit r => if s.Is r .running then some (s.set r .exited) else none
  | .wait r child => if s.Is r .running ∧ s.Zombie r child then some (s.free child) else none
  | .kfree r => if s.Is r .failed then some (s.free r) else none

/-- What `kalloc` may answer: memory that no process maps and no page table is made of. -/
structure Answers (s : Kernel) (as : Supply) : Prop where
  mem : ∀ t, some t ∈ as → P.InMem t
  fresh : P.ops.Fresh ((s.machine.owners P s.roots).used s.roots) as

def restock (s : Kernel) (as : Supply) : Kernel :=
  { s with machine := { s.machine with heap := as } }

/-- Runs all of whose steps are as `ok` says. -/
inductive Reachable (ok : Kernel → Event → Prop) : Kernel → Prop
  | boot {m : Machine} : m.heap = [] → (∀ pn, m.refcnt pn = 0) → Reachable ok ⟨m, []⟩
  | step {s s' : Kernel} {as : Supply} {e : Event} : Reachable ok s → s.Answers P as →
      ok (s.restock as) e → (s.restock as).exec P e = some s' → Reachable ok s'

/-- A process that maps no user pages. -/
def Unmapped (s : Kernel) (r : ℕ) : Prop := ∀ pn, s.machine.userEntries P [r] pn = ∅

/-- Programs map every page once, in the user's half and apart from the stack; there is memory for
copies of shared pages; and only processes without user pages are freed. -/
def Regular (s : Kernel) : Event → Prop
  | .make bin => s.machine.Loadable P bin
  | .fault r addr .write => ∀ map, P.ops.lookup s.machine.tables r (addr - addr % 4096) = some map →
      map.cow P.ops s.machine.tables = true →
      s.machine.refcnt (map.pa P.ops s.machine.tables / pagesize) ≠ 1 → s.machine.kalloc.1 ≠ none
  | .wait _ child => s.Unmapped P child
  | .kfree r => s.Unmapped P r
  | _ => True

/-- Exact counts, and no process in the middle of a copy. -/
structure Inv (s : Kernel) : Prop where
  counts : s.machine.Exact P s.roots
  settled : ∀ p ∈ s.procs, ∀ map, p.state ≠ .copying map

variable {P} {s s' : Kernel} {r child : ℕ} {state : ProcState} {as : Supply} {e : Event}

@[simp] theorem set_machine : (s.set r state).machine = s.machine := rfl

@[simp] theorem set_roots : (s.set r state).roots = s.roots := by
  rw [roots, set, roots, List.map_map]
  refine List.map_congr_left fun p _ => ?_
  rw [Function.comp_apply]
  split_ifs <;> rfl

theorem Inv.set (h : s.Inv P) (hstate : ∀ map, state ≠ .copying map) : (s.set r state).Inv P where
  counts := by
    rw [set_roots]
    exact h.counts
  settled p hp map := by
    obtain ⟨q, hq, rfl⟩ := List.mem_map.mp hp
    split_ifs
    · exact hstate map
    · exact h.settled q hq map

theorem Is.mem_roots (h : s.Is r state) : r ∈ s.roots := by
  obtain ⟨p, hp, rfl, -⟩ := h
  exact List.mem_map_of_mem hp

/-- A process is made, whether or not it can be completed. -/
theorem Inv.spawn (h : s.Inv P) {parent : Option ℕ} {made : Option ℕ × Machine}
    (hm : match (s.machine.makeEmpty P).1 with
      | none => made.2.Exact P s.roots
      | some pt => pt ∉ s.roots ∧ made.2.Exact P (s.roots ++ [pt])) :
    (s.spawn P parent made).Inv P := by
  have hroots : ∀ p : Process, (s.procs ++ [p]).map Process.pt = s.roots ++ [p.pt] := fun p => by
    rw [List.map_append]
    rfl
  have hsettled : ∀ p : Process, (∀ map, p.state ≠ .copying map) →
      ∀ q ∈ s.procs ++ [p], ∀ map, q.state ≠ .copying map := fun p hp q hq => by
    rcases List.mem_append.mp hq with hq | hq
    · exact h.settled q hq
    · rw [List.mem_singleton.mp hq]
      exact hp
  rw [Kernel.spawn]
  generalize (s.machine.makeEmpty P).1 = pt at hm ⊢
  cases pt with
  | none => exact ⟨hm, h.settled⟩
  | some pt =>
    rcases made with ⟨_ | _, m⟩
    · refine ⟨?_, hsettled _ fun map hc => by cases hc⟩
      rw [roots, hroots]
      exact hm.2
    · refine ⟨?_, hsettled _ fun map hc => by cases hc⟩
      rw [roots, hroots]
      exact hm.2

theorem free_roots : (s.free r).roots = s.roots.filter (· ≠ r) := by
  rw [roots, free, roots, List.filter_map]
  rfl

/-- A process without user pages is freed. -/
theorem Inv.free (h : s.Inv P) (hr : s.Unmapped P r) : (s.free r).Inv P where
  counts := by
    rw [free_roots]
    obtain ⟨o, hi⟩ := h.counts.inv
    refine h.counts.sub (List.filter_subset_self _) (hi.shape.nodup.filter _) fun ⟨r', k⟩ hl => ?_
    by_contra hc
    obtain ⟨⟨p, w⟩, hl'⟩ := Option.ne_none_iff_exists'.mp hc
    obtain ⟨-, hr', -⟩ := hi.shape.ref_mem_pages hl'
    have he : r' = r := by_contra fun hne => hl (List.mem_filter.mpr ⟨hr', by simpa using hne⟩)
    have hmem := hi.shape.mem_userEntries hl' (List.mem_singleton.mpr he)
    rw [hr] at hmem
    exact hmem
  settled p hp := h.settled p (List.mem_of_mem_filter hp)

theorem Inv.restock (h : s.Inv P) (ha : s.Answers P as) : (s.restock as).Inv P :=
  ⟨h.counts.restock ha.mem ha.fresh, h.settled⟩

theorem Inv.exec (h : s.Inv P) (hok : s.Regular P e) (he : s.exec P e = some s') : s'.Inv P := by
  cases e with
  | make bin =>
    cases he
    exact h.spawn (h.counts.makeFromElf hok)
  | fork r =>
    rw [Kernel.exec] at he
    split_ifs at he with hr
    cases he
    exact h.spawn (h.counts.makeFromParent hr.mem_roots)
  | fault r addr kind =>
    rw [Kernel.exec] at he
    split_ifs at he with hr
    have hserved := h.counts.pgfltHandler hr.mem_roots addr kind
    rcases hm : s.machine.pgfltHandler P r addr kind with ⟨x, m⟩
    rw [hm] at hserved he
    cases hserved with
    | killed =>
      cases he
      exact h.set fun map hc => by cases hc
    | resumed hx =>
      cases he
      exact ⟨hx, h.settled⟩
    | blocked hlook hcow hone hmem => exact absurd hmem (hok _ hlook hcow hone)
  | retry r map =>
    rw [Kernel.exec] at he
    split_ifs at he with hr
    obtain ⟨p, hp, -, hst⟩ := hr
    exact absurd hst (h.settled p hp map)
  | exit r =>
    rw [Kernel.exec] at he
    split_ifs at he
    cases he
    exact h.set fun map hc => by cases hc
  | wait r child =>
    rw [Kernel.exec] at he
    split_ifs at he
    cases he
    exact h.free hok
  | kfree r =>
    rw [Kernel.exec] at he
    split_ifs at he
    cases he
    exact h.free hok

theorem Reachable.inv (h : Reachable P (Regular P) s) : s.Inv P := by
  induction h with
  | @boot m hheap hzero =>
    have hans : P.Answers m.heap := by
      rw [hheap]
      exact ⟨fun t ht => absurd ht List.not_mem_nil, trivial⟩
    exact ⟨hans.exact hzero, fun p hp => absurd hp List.not_mem_nil⟩
  | step _ ha hok he ih => exact (ih.restock ha).exec hok he

/-- In every run of regular steps, the count of every page is the number of the entries that map
it. -/
theorem refcnt_exact (h : Reachable P (Regular P) s) (pn : ℕ) :
    (s.machine.userEntries P s.roots pn).encard = s.machine.refcnt pn := h.inv.counts.counts pn

/-- The counts of a process that is freed with its pages are too high from then on. -/
theorem Inv.drift (h : s.Inv P) {k p : ℕ} {w : Bool}
    (hl : s.machine.ref P s.roots (r, k) = some (p, w)) :
    ((s.free r).machine.userEntries P (s.free r).roots (p / 4096)).encard <
      (s.free r).machine.refcnt (p / 4096) := by
  obtain ⟨o, hi⟩ := h.counts.inv
  have hmem := hi.shape.mem_userEntries hl (hi.shape.ref_mem_pages hl).2.1
  have hcount := h.counts.counts (p / 4096)
  change _ < ((s.machine.refcnt (p / 4096) : ℕ) : ℕ∞)
  rw [← hcount, free_roots]
  have hsub : s.machine.userEntries P (s.roots.filter (· ≠ r)) (p / 4096) ⊆
      s.machine.userEntries P s.roots (p / 4096) := fun l hl => ⟨List.mem_of_mem_filter hl.1, hl.2⟩
  refine ((Set.finite_of_encard_eq_coe hcount).subset hsub).encard_lt_encard ⟨hsub, fun hback => ?_⟩
  have hr := (List.mem_filter.mp (hback hmem).1).2
  exact of_decide_eq_true hr rfl

theorem Reachable.mono {ok ok' : Kernel → Event → Prop} (hok : ∀ s e, ok s e → ok' s e)
    (h : Reachable P ok s) : Reachable P ok' s := by
  induction h with
  | boot hheap hzero => exact .boot hheap hzero
  | step _ ha h he ih => exact .step ih ha (hok _ _ h) he

/-- What is left of the answers may be answered later. -/
theorem Inv.answers (h : s.Inv P) : s.Answers P s.machine.heap := by
  obtain ⟨o, hi⟩ := h.counts.inv
  refine ⟨hi.shape.avail, hi.shape.fresh.anti ?_⟩
  rintro t (⟨r, hr, va, d, hd, hn⟩ | ⟨l, w, hl⟩)
  · exact Or.inl ⟨r, hr, (hi.shape.tree r hr).node_mem hd hn⟩
  · exact Or.inr (hi.shape.ref_mem_pages hl).1

/-- The first process and its child, which share the stack. -/
theorem exists_forked {P : Platform} (hP : Riscv64.platform Riscv64.virt = P) :
    ∃ (m₁ m₂ : Machine) (a c p : ℕ),
      (P.boot 9).makeFromElf P System.emptyProgram = (some a, m₁) ∧ m₁.Exact P [a] ∧
      (∃ n, (P.boot 9).makeEmpty P = (some a, n)) ∧ (∃ n, m₁.makeEmpty P = (some c, n)) ∧
      m₁.makeFromParent P a = (some c, m₂) ∧ m₂.Exact P [a, c] ∧
      m₂.ref P [a, c] (a, Machine.page stackVa) = some (p, false) ∧
      m₂.ref P [a, c] (c, Machine.page stackVa) = some (p, false) := by
  have hn : 9 ≤ P.npgs := by
    subst hP
    decide
  have hmagic : (FileHeader.read System.emptyProgram).magic = magic := by decide +kernel
  have hbare : (FileHeader.read System.emptyProgram).phnum = 0 := by decide +kernel
  have hrest : ((P.boot 9).makeFromElf P System.emptyProgram).2.heap =
      [some 0x80005000, some 0x80006000, some 0x80007000, some 0x80008000] := by
    subst hP
    decide +kernel
  obtain ⟨a, _, c, _, _, _, hheap⟩ : ∃ a b c t u rest, (P.boot 9).heap =
    some a :: some b :: some c :: some t :: some u :: rest := ⟨_, _, _, _, _, _, rfl⟩
  have h₀ : (P.boot 9).Exact P [] := (P.answers_boot hn).exact fun _ => rfl
  obtain ⟨m₁, hm₁, hx₁, href₁⟩ := h₀.makeFromElf_bare hmagic hbare hheap
  rw [List.nil_append] at hx₁ href₁
  rw [hm₁] at hrest
  have hk : ∀ k' ≠ Machine.page stackVa, m₁.ref P [a] (a, k') = none := fun k' hk' => by
    rw [href₁, Function.update_of_ne fun he => hk' (by cases he; rfl)]
    exact if_neg fun hc => absurd hc.1 List.not_mem_nil
  have hself : m₁.ref P [a] (a, Machine.page stackVa) = some (c, true) := by
    rw [href₁, Function.update_self]
  obtain ⟨m₂, hm₂, hx₂, hparent, hchild⟩ := Machine.Exact.makeFromParent_single hx₁
    (List.mem_singleton_self a) hk hself (by decide) hrest
  obtain ⟨n₁, he₁, -⟩ := Machine.makeEmpty_of_heap (P := P) hheap
  obtain ⟨n₂, he₂, -⟩ := Machine.makeEmpty_of_heap (P := P) hrest
  exact ⟨m₁, m₂, a, _, c, hm₁, hx₁, ⟨n₁, he₁⟩, ⟨n₂, he₂⟩, hm₂, hx₂, hparent, hchild⟩

/-- The first process. -/
theorem reachable_first {P : Platform} (hP : Riscv64.platform Riscv64.virt = P) {m n : Machine}
    {a : ℕ} (hm : (P.boot 9).makeFromElf P System.emptyProgram = (some a, m))
    (he : (P.boot 9).makeEmpty P = (some a, n)) :
    Reachable P (Regular P) ⟨m, [⟨a, none, .running⟩]⟩ := by
  have hn : 9 ≤ P.npgs := by
    subst hP
    decide
  have hmagic : (FileHeader.read System.emptyProgram).magic = magic := by decide +kernel
  have hbare : (FileHeader.read System.emptyProgram).phnum = 0 := by decide +kernel
  have hans := P.answers_boot hn
  have hboot : Reachable P (Regular P) ⟨P.boot 0, []⟩ := .boot rfl fun _ => rfl
  have hans₀ : Kernel.Answers P ⟨P.boot 0, []⟩ (P.boot 9).heap := by
    refine ⟨hans.1, hans.2.anti ?_⟩
    rintro t (⟨r, hr, -⟩ | ⟨l, w, hl⟩)
    · exact absurd hr List.not_mem_nil
    · exact absurd (hl.symm.trans (if_neg fun hc => absurd hc.1 List.not_mem_nil)) (by simp)
  refine .step (e := .make System.emptyProgram) hboot hans₀ (Machine.loadable_bare hmagic hbare) ?_
  change some (Kernel.spawn P ⟨P.boot 9, []⟩ none ((P.boot 9).makeFromElf P _)) = _
  rw [hm, Kernel.spawn]
  dsimp only
  rw [he]
  rfl

theorem exec_fork_single {P : Platform} {m m' n : Machine} {a c : ℕ}
    (hm : m.makeFromParent P a = (some c, m')) (he : m.makeEmpty P = (some c, n)) :
    Kernel.exec P ⟨m, [⟨a, none, .running⟩]⟩ (.fork a) =
      some ⟨m', [⟨a, none, .running⟩, ⟨c, some a, .running⟩]⟩ := by
  rw [Kernel.exec, if_pos ⟨_, List.mem_singleton_self _, rfl, rfl⟩, hm, Kernel.spawn]
  dsimp only
  rw [he]
  rfl

/-- A process and its child, which share a page. -/
theorem reachable_forked : ∃ (m : Machine) (a b k p : ℕ) (w : Bool),
    Reachable (Riscv64.platform Riscv64.virt) (Regular (Riscv64.platform Riscv64.virt))
      ⟨m, [⟨a, none, .running⟩, ⟨b, some a, .running⟩]⟩ ∧
    m.ref (Riscv64.platform Riscv64.virt) [a, b] (b, k) = some (p, w) := by
  generalize hP : Riscv64.platform Riscv64.virt = P
  obtain ⟨m₁, m₂, a, c, p, hm₁, -, ⟨n₁, he₁⟩, ⟨n₂, he₂⟩, hm₂, -, -, hl⟩ := exists_forked hP
  have hr₁ := reachable_first hP hm₁ he₁
  exact ⟨m₂, a, c, _, p, false,
    .step (e := .fork a) hr₁ hr₁.inv.answers trivial (exec_fork_single hm₂ he₂), hl⟩

/-- Two processes that share a page, which counts twice. -/
theorem refcnt_exact_forked : ∃ s : Kernel, s.procs.length = 2 ∧
    ∀ pn, (s.machine.userEntries (Riscv64.platform Riscv64.virt) s.roots pn).encard =
      s.machine.refcnt pn := by
  obtain ⟨m, a, b, -, -, -, hr, -⟩ := reachable_forked
  exact ⟨_, rfl, fun pn => refcnt_exact hr pn⟩

/-- The child has exited. -/
theorem reachable_exited : ∃ (m : Machine) (a b k p : ℕ) (w : Bool),
    Reachable (Riscv64.platform Riscv64.virt) (Regular (Riscv64.platform Riscv64.virt))
      ⟨m, [⟨a, none, .running⟩, ⟨b, some a, .exited⟩]⟩ ∧
    m.ref (Riscv64.platform Riscv64.virt) [a, b] (b, k) = some (p, w) := by
  obtain ⟨m, a, b, k, p, w, hr, hl⟩ := reachable_forked
  generalize Riscv64.platform Riscv64.virt = P at hr hl
  have hba : a ≠ b := fun he => by
    obtain ⟨o, hi⟩ := hr.inv.counts.inv
    have hnd : [a, b].Nodup := hi.shape.nodup
    simp [he] at hnd
  refine ⟨m, a, b, k, p, w, .step (e := .exit b) hr hr.inv.answers trivial ?_, hl⟩
  change Kernel.exec P ⟨m, _⟩ (.exit b) = _
  rw [Kernel.exec, if_pos ⟨_, List.mem_cons_of_mem _ (List.mem_singleton_self _), rfl, rfl⟩]
  simp [Kernel.set, hba]

theorem exists_zombie : ∃ (s : Kernel) (r child : ℕ),
    Reachable (Riscv64.platform Riscv64.virt) (Regular (Riscv64.platform Riscv64.virt)) s ∧
      s.Zombie r child := by
  obtain ⟨m, a, b, -, -, -, hr, -⟩ := reachable_exited
  exact ⟨_, a, b, hr, _, List.mem_cons_of_mem _ (List.mem_singleton_self _), rfl, rfl, rfl⟩

/-- A child that exits and is waited for leaves its count behind. -/
theorem refcnt_drifts : ∃ (s : Kernel) (pn : ℕ),
    Reachable (Riscv64.platform Riscv64.virt) (fun _ _ => True) s ∧
    (s.machine.userEntries (Riscv64.platform Riscv64.virt) s.roots pn).encard <
      s.machine.refcnt pn := by
  obtain ⟨m, a, b, k, p, w, hexit, hl⟩ := reachable_exited
  generalize Riscv64.platform Riscv64.virt = P at hexit hl
  refine ⟨_, _,
    .step (e := .wait a b) (hexit.mono fun _ _ _ => trivial) hexit.inv.answers trivial ?_,
    hexit.inv.drift (r := b) (k := k) (p := p) (w := w) hl⟩
  change Kernel.exec P ⟨m, _⟩ (.wait a b) = _
  rw [Kernel.exec, if_pos ⟨⟨_, List.mem_cons_self, rfl, rfl⟩,
    ⟨_, List.mem_cons_of_mem _ (List.mem_singleton_self _), rfl, rfl, rfl⟩⟩]

end Kernel
end Multiplix.Proc
