import Multiplix.Proc.Runs

/-! What `fork` does to permissions: the child may execute every page that it shares. -/
namespace Multiplix.Proc
open Lib Vm

variable (P : Platform)

/-- What a page table maps for users at an address. -/
def userPage (T : PtMem) (pt va : ℕ) : Option Mapping :=
  (P.ops.lookup T pt va).bind fun map =>
    if P.ops.valid (T map.pte.1 map.pte.2) = true ∧ map.user P.ops T = true then
      some (map.view P.ops T)
    else none

/-- `kernel_procmap` maps nothing for users. -/
def Platform.Supervised : Prop :=
  ∀ (T : PtMem) (root va : ℕ), (∀ i, T root i = 0) →
    userPage P (P.kernelProcmap T root) root va = none

/-- The flags that a fork is to keep. -/
def Perm.access : Perm := Perm.r ||| Perm.x ||| Perm.u

namespace Kernel

/-- What a fork is to keep of the permissions of the parent: the child maps the same pages, both
have the parent's access, and what was writable is copied on a write, after which the process has
the parent's permissions again. -/
structure KeepsPerms (s : Kernel) (r child : ℕ) (s' : Kernel) : Prop where
  pages : ∀ va, (userPage P s'.machine.tables child va).map Mapping.pa =
    (userPage P s.machine.tables r va).map Mapping.pa
  access : ∀ pt, pt = r ∨ pt = child → ∀ va, ∀ x ∈ userPage P s.machine.tables r va,
    ∃ y ∈ userPage P s'.machine.tables pt va, y.perm &&& Perm.access = x.perm &&& Perm.access ∧
      (x.perm.has .w = true → y.perm.has .w = false ∧ y.perm.has .cow = true)
  resolved : ∀ pt, pt = r ∨ pt = child → ∀ t as, Later P pt s' t → t.Answers P as →
    ∀ addr m, (t.restock as).Resolves P pt addr m → ∀ x ∈ userPage P s.machine.tables r addr,
      ∃ y ∈ userPage P m.tables pt addr, y.perm = Perm.owned x.perm
  exec : ∀ t, Later P child s' t → ∀ va, ∀ x ∈ userPage P s.machine.tables r va,
    ∀ y ∈ userPage P t.machine.tables child va, y.perm.has .x = true → x.perm.has .x = true

/-- All user pages of a process are within the reach of a fork, and executable. -/
def AllExecutable (s : Kernel) (r : ℕ) : Prop :=
  ∀ va, ∀ x ∈ userPage P s.machine.tables r va, va % 2 ^ 39 < maxVa ∧ x.perm.has .x = true

end Kernel

namespace Machine

variable {P} {roots : List ℕ} {m m' : Machine} {r r' va : ℕ}

/-- What is mapped for users at an address is what its lookup says. -/
theorem userPage_eq (T : PtMem) (r va : ℕ) : userPage P T r va =
    (P.ops.radix.lookup T r va).bind fun x =>
      if P.ops.leaf x.2 (.ofHeight (2 - x.1)) = true ∧ P.ops.valid x.2 = true ∧
          (P.ops.perm x.2).has .u = true then
        some ⟨P.ops.pa x.2, P.ops.perm x.2, level2size (.ofHeight (2 - x.1))⟩
      else none := by
  unfold userPage
  rw [PteOps.lookup_eq, Radix.lookup]
  cases P.ops.radix.find T r va with
  | none => rfl
  | some x =>
    have hidx : P.ops.radix.index x.1 va = vpn (2 - x.1) va := rfl
    rw [Option.bind_some, Option.map_some, Option.bind_some, hidx]
    dsimp only
    by_cases hleaf : P.ops.leaf (T x.2 (vpn (2 - x.1) va)) (.ofHeight (2 - x.1)) = true
    · rw [if_pos hleaf, Option.bind_some]
      by_cases hv : P.ops.valid (T x.2 (vpn (2 - x.1) va)) = true ∧
          (P.ops.perm (T x.2 (vpn (2 - x.1) va))).has .u = true
      · exact (if_pos hv).trans (if_pos ⟨hleaf, hv⟩).symm
      · exact (if_neg hv).trans (if_neg fun hc => hv hc.2).symm
    · rw [if_neg hleaf, Option.bind_none]
      exact (if_neg fun hc => hleaf hc.1).symm

theorem userPage_congr {T T' : PtMem} {r r' : ℕ}
    (h : P.ops.radix.lookup T' r' va = P.ops.radix.lookup T r va) :
    userPage P T' r' va = userPage P T r va := by
  rw [userPage_eq, userPage_eq, h]

theorem lookup_page_mod (T : PtMem) (r va : ℕ) :
    P.ops.radix.lookup T r va = P.ops.radix.lookup T r (page va * 4096) := by
  have hmod : P.ops.radix.Agree va (va % 2 ^ 39) 3 := fun i _ => vpn_mod (2 - i) (by omega)
  rw [Radix.lookup_agree hmod, lookup_page]
  rfl

/-- In the lower half these are the pages that the process maps. -/
theorem Formed.userPage (h : m.Formed P roots) (hr : r ∈ roots) (hva : va.testBit 38 = false) :
    userPage P m.tables r va =
      (m.maps P roots (r, page va)).map fun x => ⟨x.1, x.2, 4096⟩ := by
  obtain ⟨o, hs⟩ := h.shape
  have hk : page va < 2 ^ 26 := by
    have hlt := mod_lt_of_testBit hva
    unfold page
    omega
  rw [userPage_eq, lookup_page_mod]
  unfold maps
  rw [leaf_eq hr hk]
  rcases hs.ref_cases hr hk with ⟨-, hn | hz⟩ | ⟨e, he, -, hl, -⟩
  · rw [hn]
    rfl
  · rw [hz, Option.bind_some, Option.bind_some, if_neg, if_neg]
    · rfl
    · rw [P.ops.valid_zero]
      exact Bool.false_ne_true
    · rintro ⟨-, hv, -⟩
      rw [P.ops.valid_zero] at hv
      cases hv
  · rw [hl, Option.bind_some, Option.bind_some, if_pos ⟨he.leaf, he.valid, he.user⟩,
      if_pos he.valid]
    rfl

end Machine

namespace Kernel

variable {P} {s s' t : Kernel} {r child k va : ℕ} {as : Supply}

/-- A fork that succeeds. -/
theorem Formed.forked (h : s.Formed P) (hr : s.Is r .running)
    (hc : (s.machine.makeFromParent P r).1 = some child) (he : s.exec P (.fork r) = some s') :
    Machine.Forked P s.roots r child true s.machine s'.machine ∧ s'.roots = s.roots ++ [child] := by
  have hfork := h.machine.makeFromParent hr.mem_roots
  rcases hpt : (s.machine.makeEmpty P).1 with _ | pt
  · rw [hpt] at hfork
    rw [hfork.2.1] at hc
    cases hc
  · rw [hpt] at hfork
    obtain ⟨ok, hres, hfork⟩ := hfork
    rw [hc] at hres
    cases ok with
    | false => cases hres
    | true =>
      cases hres
      rw [Kernel.exec, if_pos hr] at he
      cases he
      obtain ⟨hmach, hroots⟩ := @spawn_some P s (some r) (s.machine.makeFromParent P r) child hpt
      exact ⟨by rwa [hmach], hroots⟩

section Forked

variable (h : s.Formed P) (hr : r ∈ s.roots)
  (hf : Machine.Forked P s.roots r child true s.machine s'.machine)
  (hroots : s'.roots = s.roots ++ [child])
include h hr hf hroots

omit h hr hroots in
theorem forked_child (hP : P.Supervised) (va : ℕ) : userPage P s'.machine.tables child va =
    if va.testBit 38 = false ∧ Machine.page va < userPages then
      (s.machine.maps P s.roots (r, Machine.page va)).map fun x =>
        ⟨x.1, Perm.urx ||| Perm.cow, 4096⟩
    else none := by
  have hmem : child ∈ s.roots ++ [child] := List.mem_append_right _ (List.mem_singleton_self child)
  by_cases hbit : va.testBit 38 = true
  · obtain ⟨T, hzero, hT⟩ := hf.kernel
    rw [if_neg fun hc => Bool.false_ne_true (hc.1.symm.trans hbit),
      Machine.userPage_congr (hT va hbit)]
    exact hP T child va hzero
  · rw [Bool.not_eq_true] at hbit
    rw [hf.formed.userPage hmem hbit, hf.child rfl]
    by_cases hk : Machine.page va < userPages
    · rw [if_pos hk, if_pos ⟨hbit, hk⟩, Option.map_map]
      rfl
    · rw [if_neg hk, if_neg fun hc => hk hc.2]
      rfl

omit hroots in
theorem forked_parent (hlow : va.testBit 38 = false) (hk : Machine.page va < userPages) :
    userPage P s'.machine.tables r va =
      (userPage P s.machine.tables r va).map fun x => { x with perm := Perm.shared x.perm } := by
  have hmem : r ∈ s.roots ++ [child] := List.mem_append_left _ hr
  rw [hf.formed.userPage hmem hlow, h.machine.userPage hr hlow, hf.shared rfl _ hk, Option.map_map,
    Option.map_map]
  rfl

/-- What the pages of parent and child are once they are their own. -/
theorem forked_owned {pt p : ℕ} {q : Perm} (hpt : pt = r ∨ pt = child) (hk : k < userPages)
    (hl : s.machine.maps P s.roots (r, k) = some (p, q)) (hx : q.has .x = true) :
    s'.owned P pt k = some (Perm.owned q) := by
  obtain ⟨hread, huser, hcow, hshared⟩ := h.user_perm hl
  unfold owned
  rw [hroots]
  rcases hpt with rfl | rfl
  · rw [hf.shared rfl k hk, hl]
    exact congrArg some hshared
  · rw [hf.child rfl, if_pos hk, hl]
    have hall : ∀ q : Perm, q.has .r = true → q.has .u = true → q.has .x = true →
        q.has .cow = !q.has .w → Perm.owned (Perm.urx ||| Perm.cow) = Perm.owned q := by decide
    exact congrArg some (hall q hread huser hx hcow)

end Forked

/-- A page that is mapped for users below the limit. -/
theorem page_lt (hlt : va % 2 ^ 39 < maxVa) :
    va.testBit 38 = false ∧ Machine.page va < userPages := by
  have hmax := maxVa_eq
  have hpages := userPages_lt
  refine ⟨?_, by unfold Machine.page; omega⟩
  rw [Nat.testBit_eq_decide_div_mod_eq, decide_eq_false_iff_not]
  omega

/-- A page that the child maps has come from below the limit, and is executable there. -/
theorem KeepsPerms.allExecutable (hkeep : KeepsPerms P s r child s')
    (hf : Machine.Forked P s.roots r child true s.machine s'.machine)
    (hP : P.Supervised) : AllExecutable P s r := by
  have hchild := forked_child hf hP
  intro va x hx
  have hpage := hkeep.pages va
  rw [Option.mem_def.mp hx, Option.map_some, Option.map_eq_some_iff] at hpage
  obtain ⟨y, hy, -⟩ := hpage
  have hcond : va.testBit 38 = false ∧ Machine.page va < userPages := by
    by_contra hno
    rw [hchild, if_neg hno] at hy
    cases hy
  obtain ⟨y', hy', haccess, -⟩ := hkeep.access child (Or.inr rfl) va x hx
  obtain rfl : y = y' := Option.some.inj (hy.symm.trans hy')
  rw [hchild, if_pos hcond, Option.map_eq_some_iff] at hy
  obtain ⟨z, -, rfl⟩ := hy
  constructor
  · have hmax := maxVa_eq
    have hlt := hcond.2
    unfold Machine.page at hlt
    omega
  · have hall : ∀ q : Perm, (Perm.urx ||| Perm.cow) &&& Perm.access = q &&& Perm.access →
        q.has .x = true := by decide
    exact hall _ haccess

/-- A fork keeps the permissions of the parent's pages if and only if all of them are executable:
the child maps every page with `urx`. -/
theorem fork_keeps_perms_iff (hP : P.Supervised) (h : s.Reached P) (ha : s.Answers P as)
    (hr : s.Is r .running) (hc : ((s.restock as).machine.makeFromParent P r).1 = some child)
    (he : (s.restock as).exec P (.fork r) = some s') :
    KeepsPerms P s r child s' ↔ AllExecutable P s r := by
  have hs : (s.restock as).Formed P := h.formed.restock ha
  obtain ⟨hf, hroots⟩ := hs.forked hr hc he
  have hmem : r ∈ s.roots := hr.mem_roots
  have hs' : s'.Formed P := (hs.exec he).1
  have hchild := forked_child hf hP
  constructor
  · intro hkeep
    have hkeep' : KeepsPerms P (s.restock as) r child s' :=
      ⟨hkeep.pages, hkeep.access, hkeep.resolved, hkeep.exec⟩
    exact hkeep'.allExecutable hf hP
  · intro hexec
    -- a user page of the parent, as the parent maps it
    have hpage : ∀ va, ∀ x ∈ userPage P s.machine.tables r va, va.testBit 38 = false ∧
        Machine.page va < userPages ∧ x.perm.has .x = true ∧
        s.machine.maps P s.roots (r, Machine.page va) = some (x.pa, x.perm) := by
      intro va x hx
      obtain ⟨hlt, hxx⟩ := hexec va x hx
      obtain ⟨hbit, hk⟩ := page_lt hlt
      rw [h.formed.machine.userPage hmem hbit, Option.mem_def, Option.map_eq_some_iff] at hx
      obtain ⟨z, hz, rfl⟩ := hx
      exact ⟨hbit, hk, hxx, hz⟩
    constructor
    · intro va
      rw [hchild]
      rcases hx : userPage P s.machine.tables r va with _ | x
      · split_ifs with hcond
        · rw [h.formed.machine.userPage hmem hcond.1, Option.map_eq_none_iff] at hx
          have hnone : (s.restock as).machine.maps P (s.restock as).roots (r, Machine.page va) =
            none := hx
          rw [hnone]
          rfl
        · rfl
      · obtain ⟨hbit, hk, -, hmaps⟩ := hpage va x hx
        have hsome : (s.restock as).machine.maps P (s.restock as).roots (r, Machine.page va) =
          some (x.pa, x.perm) := hmaps
        rw [if_pos ⟨hbit, hk⟩, hsome]
        rfl
    · intro pt hpt va x hx
      obtain ⟨hbit, hk, hxx, hmaps⟩ := hpage va x hx
      obtain ⟨hread, huser, -⟩ := h.formed.user_perm hmaps
      rcases hpt with rfl | rfl
      · have hall : ∀ q : Perm, Perm.shared q &&& Perm.access = q &&& Perm.access ∧
            (Perm.shared q).has .w = false ∧ (Perm.shared q).has .cow = true := by decide
        refine ⟨{ x with perm := Perm.shared x.perm }, ?_, (hall x.perm).1, fun _ =>
          (hall x.perm).2⟩
        rw [Option.mem_def, forked_parent hs hmem hf hbit hk]
        exact congrArg _ hx
      · have hall : ∀ q : Perm, q.has .r = true → q.has .u = true → q.has .x = true →
            (Perm.urx ||| Perm.cow) &&& Perm.access = q &&& Perm.access := by decide
        have hflags : (Perm.urx ||| Perm.cow).has .w = false ∧
            (Perm.urx ||| Perm.cow).has .cow = true := by decide
        refine ⟨⟨x.pa, Perm.urx ||| Perm.cow, 4096⟩, ?_, hall _ hread huser hxx, fun _ => hflags⟩
        have hsome : (s.restock as).machine.maps P (s.restock as).roots (r, Machine.page va) =
          some (x.pa, x.perm) := hmaps
        rw [Option.mem_def, hchild, if_pos ⟨hbit, hk⟩, hsome]
        rfl
    · intro pt hpt t as' hlater ha' addr m hm x hx
      obtain ⟨hbit, hk, hxx, hmaps⟩ := hpage addr x hx
      have hmem' : pt ∈ s'.roots := by
        rw [hroots]
        rcases hpt with rfl | rfl
        · exact List.mem_append_left _ hmem
        · exact List.mem_append_right _ (List.mem_singleton_self pt)
      have howned := ((hlater.formed hs').restock ha').resolves (hlater.mem hmem') hm
      obtain ⟨p, q, p', hold, -, hnew⟩ := howned.page
      have hq : t.owned P pt (Machine.page addr) = some (Perm.owned q) := congrArg _ hold
      rw [hlater.owned_eq hs' hmem', forked_owned hs hmem hf hroots hpt hk hmaps hxx] at hq
      refine ⟨⟨p', Perm.owned q, 4096⟩, ?_, (Option.some.inj hq).symm⟩
      rw [Option.mem_def, howned.formed.userPage (hlater.mem hmem') hbit, hnew,
        Function.update_self]
      rfl
    · intro t _ va x hx y _ _
      exact (hpage va x hx).2.2.1

end Kernel

theorem Riscv64.supervised (b : Board) :
    (Riscv64.platform b).Supervised := fun T root va hzero => by
  unfold userPage
  rcases hl : Vm.Riscv64.pteOps.lookup (Riscv64.kernelProcmap b T root) root va with _ | map
  · exact congrArg (Option.bind · _) hl
  · refine (congrArg (Option.bind · _) hl).trans (if_neg fun hu => ?_)
    have hview : Riscv64.view (Riscv64.kernelProcmap b T root) root va =
        some (map.view Vm.Riscv64.pteOps (Riscv64.kernelProcmap b T root)) := by
      unfold Riscv64.view
      rw [hl]
      rfl
    have hno := (Riscv64.prepared_kernelProcmap b hzero).kernel va _ hview
    exact Bool.false_ne_true (hno.symm.trans hu.2)

theorem Aarch64.supervised (b : Board) (memType : ℕ → BitVec 64) :
    (Aarch64.platform b memType).Supervised := fun T root va hzero => by
  have hfind : (Vm.Aarch64.pteOps memType).radix.find T root va = none :=
    Radix.find_init hzero (by decide : 0 < 2)
  have hlook : (Vm.Aarch64.pteOps memType).radix.lookup T root va = none := by
    rw [Radix.lookup, hfind]
    rfl
  rw [Machine.userPage_eq]
  exact congrArg (Option.bind · _) hlook

namespace Kernel

/-- The stack of the first process. -/
theorem first_stack {P : Platform} (hP : Riscv64.platform Riscv64.virt = P) {m : Machine} {a : ℕ}
    (hm : (P.boot 9).makeFromElf P System.emptyProgram = (some a, m)) :
    ∃ x ∈ userPage P m.tables a stackVa, x.perm.has .x = false := by
  have ha : ((P.boot 9).makeFromElf P System.emptyProgram).1 = some 0x80000000 := by
    subst hP
    decide +kernel
  have hx : (userPage P ((P.boot 9).makeFromElf P System.emptyProgram).2.tables 0x80000000
      stackVa).map (·.perm.has .x) = some false := by
    subst hP
    decide +kernel
  rw [hm] at ha hx
  cases ha
  exact Option.map_eq_some_iff.mp hx

/-- The first process forks, and its child may execute the stack. -/
theorem fork_keeps_perms_first : ∃ (s s' : Kernel) (r child : ℕ),
    KeepsPerms (Riscv64.platform Riscv64.virt) s r child s' ↔
      AllExecutable (Riscv64.platform Riscv64.virt) s r := by
  generalize hP : Riscv64.platform Riscv64.virt = P
  obtain ⟨m₁, m₂, a, c, p, hm₁, -, ⟨n₁, he₁⟩, ⟨n₂, he₂⟩, hm₂, -, -, -⟩ := exists_forked hP
  have hr := reachable_first hP hm₁ he₁
  have hc : (m₁.makeFromParent P a).1 = some c := by rw [hm₂]
  exact ⟨_, _, a, c, fork_keeps_perms_iff (hP ▸ Riscv64.supervised Riscv64.virt)
    (hr.mono fun _ _ _ => trivial) hr.inv.answers ⟨_, List.mem_singleton_self _, rfl, rfl⟩ hc
    (exec_fork_single hm₂ he₂)⟩

/-- A stack that is not executable becomes executable in the child. -/
theorem not_keeps_perms : ∃ (s s' : Kernel) (as : Supply) (r child : ℕ),
    s.Reached (Riscv64.platform Riscv64.virt) ∧ s.Answers (Riscv64.platform Riscv64.virt) as ∧
    ((s.restock as).machine.makeFromParent (Riscv64.platform Riscv64.virt) r).1 = some child ∧
    (s.restock as).exec (Riscv64.platform Riscv64.virt) (.fork r) = some s' ∧
    ¬ KeepsPerms (Riscv64.platform Riscv64.virt) s r child s' := by
  generalize hP : Riscv64.platform Riscv64.virt = P
  obtain ⟨m₁, m₂, a, c, p, hm₁, -, ⟨n₁, he₁⟩, ⟨n₂, he₂⟩, hm₂, -, -, -⟩ := exists_forked hP
  have hr := reachable_first hP hm₁ he₁
  have hreached : Kernel.Reached P ⟨m₁, [⟨a, none, .running⟩]⟩ := hr.mono fun _ _ _ => trivial
  have hrun : Kernel.Is ⟨m₁, [⟨a, none, .running⟩]⟩ a .running :=
    ⟨_, List.mem_singleton_self _, rfl, rfl⟩
  have hc : (m₁.makeFromParent P a).1 = some c := by rw [hm₂]
  have hfork := exec_fork_single hm₂ he₂
  refine ⟨_, _, m₁.heap, a, c, hreached, hr.inv.answers, hc, hfork, fun hkeep => ?_⟩
  obtain ⟨hf, hroots⟩ := hreached.formed.forked hrun hc hfork
  obtain ⟨x, hx, hno⟩ := first_stack hP hm₁
  have hall := hkeep.allExecutable hf (hP ▸ Riscv64.supervised Riscv64.virt)
  exact Bool.false_ne_true (hno.symm.trans (hall stackVa x hx).2)

end Kernel
end Multiplix.Proc
