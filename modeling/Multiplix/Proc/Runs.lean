import Multiplix.Proc.Maps

/-! Runs of the kernel in which programs may be anything, processes are freed with their pages, and
copies wait for memory. -/
namespace Multiplix.Proc
open Lib Vm

namespace Kernel

variable (P : Platform)

/-- Tables are apart, and a process that waits for memory is at a page that is to be copied. -/
structure Formed (s : Kernel) : Prop where
  machine : s.machine.Formed P s.roots
  copying : ∀ p ∈ s.procs, ∀ map, p.state = .copying map →
    Machine.AtCopy P p.pt (Machine.page map.va) map.pte s.machine

/-- Runs without conditions. -/
abbrev Reached (s : Kernel) : Prop := Reachable P (fun _ _ => True) s

/-- A run in which a process is not freed. -/
inductive Later (r : ℕ) (s : Kernel) : Kernel → Prop
  | refl : Later r s s
  | step {t u : Kernel} {as : Supply} {e : Event} : Later r s t → t.Answers P as →
      (t.restock as).exec P e = some u → r ∈ u.roots → Later r s u

/-- A write fault of a process at a page is resolved. -/
def Resolves (s : Kernel) (r addr : ℕ) (m : Machine) : Prop :=
  s.machine.pgfltHandler P r addr .write = (.resumed, m) ∨
    ∃ map, s.Is r (.copying map) ∧ Machine.page map.va = Machine.page addr ∧
      s.machine.finishCopy P map = (.resumed, m)

/-- The permissions of a page once it is its process's own. -/
def owned (s : Kernel) (r k : ℕ) : Option Perm :=
  (s.machine.maps P s.roots (r, k)).map fun x => Perm.owned x.2

variable {P} {s s' t u : Kernel} {r child k : ℕ} {state : ProcState} {as : Supply} {e : Event}
  {m : Machine}

theorem Formed.set (h : s.Formed P) (hstate : ∀ map, state = .copying map →
    Machine.AtCopy P r (Machine.page map.va) map.pte s.machine) : (s.set r state).Formed P where
  machine := by
    rw [set_roots]
    exact h.machine
  copying p hp map hc := by
    obtain ⟨q, hq, rfl⟩ := List.mem_map.mp hp
    split_ifs at hc with hr
    · rw [if_pos hr, hr]
      exact hstate map hc
    · rw [if_neg hr]
      exact h.copying q hq map hc

theorem Formed.nodup (h : s.Formed P) : s.roots.Nodup := by
  obtain ⟨o, hs⟩ := h.machine.shape
  exact hs.nodup

/-- A root names one process. -/
theorem Formed.state_eq (h : s.Formed P) {p q : Process} (hp : p ∈ s.procs) (hq : q ∈ s.procs)
    (he : p.pt = q.pt) : p = q := List.inj_on_of_nodup_map h.nodup hp hq he

theorem Formed.at_copy (h : s.Formed P) {map : VaMapping} (hr : s.Is r (.copying map)) :
    Machine.AtCopy P r (Machine.page map.va) map.pte s.machine := by
  obtain ⟨p, hp, rfl, hc⟩ := hr
  exact h.copying p hp map hc

/-- The tables of one process change, which was not waiting. -/
theorem Formed.machineStep (h : s.Formed P) (hr : s.Is r .running) (hm : m.Formed P s.roots)
    (hothers : ∀ r' ∈ s.roots, r' ≠ r → s.machine.SameTree P m r') :
    Formed P { s with machine := m } where
  machine := hm
  copying p hp map hc := by
    refine (h.copying p hp map hc).frame (hothers p.pt (List.mem_map_of_mem hp) ?_)
    rintro rfl
    obtain ⟨q, hq, he, hrun⟩ := hr
    rw [h.state_eq hq hp he, hc] at hrun
    cases hrun

/-- A process is made, whether or not it can be completed. -/
theorem Formed.spawn (h : s.Formed P) {parent : Option ℕ} {made : Option ℕ × Machine}
    (hm : match (s.machine.makeEmpty P).1 with
      | none => made.2.Formed P s.roots
      | some pt => made.2.Formed P (s.roots ++ [pt]))
    (hsame : ∀ p ∈ s.procs, ∀ map, p.state = .copying map → s.machine.SameTree P made.2 p.pt) :
    (s.spawn P parent made).Formed P := by
  have hroots : ∀ p : Process, (s.procs ++ [p]).map Process.pt = s.roots ++ [p.pt] := fun p => by
    rw [List.map_append]
    rfl
  have hcopying : ∀ p : Process, (∀ map, p.state ≠ .copying map) → ∀ q ∈ s.procs ++ [p], ∀ map,
      q.state = .copying map →
        Machine.AtCopy P q.pt (Machine.page map.va) map.pte made.2 := fun p hp q hq map hc => by
    rcases List.mem_append.mp hq with hq | hq
    · exact (h.copying q hq map hc).frame (hsame q hq map hc)
    · rw [List.mem_singleton.mp hq] at hc
      exact absurd hc (hp map)
  unfold Kernel.spawn
  generalize (s.machine.makeEmpty P).1 = pt at hm ⊢
  cases pt with
  | none => exact ⟨hm, fun p hp map hc => (h.copying p hp map hc).frame (hsame p hp map hc)⟩
  | some pt =>
    rcases made with ⟨_ | _, m⟩
    · refine ⟨?_, hcopying _ nofun⟩
      unfold roots
      rw [hroots]
      exact hm
    · refine ⟨?_, hcopying _ nofun⟩
      unfold roots
      rw [hroots]
      exact hm

theorem Formed.free (h : s.Formed P) : (s.free r).Formed P where
  machine := by
    rw [free_roots]
    exact h.machine.sub (List.filter_subset_self _) (h.nodup.filter _)
  copying p hp := h.copying p (List.mem_of_mem_filter hp)

theorem Formed.restock (h : s.Formed P) (ha : s.Answers P as) : (s.restock as).Formed P where
  machine := by
    obtain ⟨o, hs⟩ := h.machine.shape
    exact ⟨⟨_, hs.restock ha.mem ha.fresh⟩, h.machine.plain⟩
  copying p hp map hc := by
    have hsame : s.machine.SameTree P (s.restock as).machine p.pt := .of_eq rfl _
    exact (h.copying p hp map hc).frame hsame

/-- Every process that is not freed in a step keeps its tables, or is the one that forks or
faults. -/
inductive Stepped (P : Platform) (s s' : Kernel) : Prop
  | same : (∀ r ∈ s.roots, s.machine.SameTree P s'.machine r) → Stepped P s s'
  | forked {r c : ℕ} {ok : Bool} : s.Is r .running →
      Machine.Forked P s.roots r c ok s.machine s'.machine → s'.roots = s.roots ++ [c] →
      Stepped P s s'
  | owned {r k : ℕ} : r ∈ s.roots → Machine.Owned P s.roots r k s.machine s'.machine →
      s'.roots = s.roots → Stepped P s s'

theorem spawn_none {parent : Option ℕ} {made : Option ℕ × Machine}
    (he : (s.machine.makeEmpty P).1 = none) :
    s.spawn P parent made = { s with machine := made.2 } := by
  unfold Kernel.spawn
  rw [he]

theorem spawn_some {parent : Option ℕ} {made : Option ℕ × Machine} {pt : ℕ}
    (he : (s.machine.makeEmpty P).1 = some pt) : (s.spawn P parent made).machine = made.2 ∧
      (s.spawn P parent made).roots = s.roots ++ [pt] := by
  unfold Kernel.spawn
  rw [he]
  dsimp only
  rcases made with ⟨_ | _, m⟩
  · exact ⟨rfl, List.map_append⟩
  · exact ⟨rfl, List.map_append⟩

theorem Formed.exec (h : s.Formed P) (he : s.exec P e = some s') :
    s'.Formed P ∧ Stepped P s s' := by
  cases e with
  | make bin =>
    cases he
    obtain ⟨hsame, hf⟩ := h.machine.makeFromElf bin
    refine ⟨h.spawn ?_ fun p hp _ _ => hsame p.pt (List.mem_map_of_mem hp), .same ?_⟩
    · generalize (s.machine.makeEmpty P).1 = pt at hf ⊢
      cases pt with
      | none => exact hf
      | some pt => exact hf.2
    · rcases hpt : (s.machine.makeEmpty P).1 with _ | pt
      · rw [spawn_none hpt]
        exact hsame
      · rw [(spawn_some hpt).1]
        exact hsame
  | fork r =>
    rw [Kernel.exec] at he
    split_ifs at he with hr
    cases he
    have hfork := h.machine.makeFromParent hr.mem_roots
    rcases hpt : (s.machine.makeEmpty P).1 with _ | pt
    · rw [hpt] at hfork
      obtain ⟨hf, -, hsame⟩ := hfork
      refine ⟨h.spawn (by rw [hpt]; exact hf) fun p hp _ _ => hsame p.pt (List.mem_map_of_mem hp),
        .same ?_⟩
      rw [spawn_none hpt]
      exact hsame
    · rw [hpt] at hfork
      obtain ⟨ok, -, hfork⟩ := hfork
      obtain ⟨hmach, hroots⟩ := @spawn_some P s (some r) (s.machine.makeFromParent P r) pt hpt
      refine ⟨h.spawn (by rw [hpt]; exact hfork.formed) fun p hp map hc => ?_,
        .forked hr (by rwa [hmach]) hroots⟩
      refine hfork.others p.pt (List.mem_map_of_mem hp) ?_
      rintro rfl
      obtain ⟨q, hq, heq, hrun⟩ := hr
      rw [h.state_eq hq hp heq, hc] at hrun
      cases hrun
  | fault r addr kind =>
    rw [Kernel.exec] at he
    split_ifs at he with hr
    have hfault := h.machine.pgfltHandler hr.mem_roots addr kind
    rcases hm : s.machine.pgfltHandler P r addr kind with ⟨x, m⟩
    rw [hm] at hfault he
    cases hfault with
    | killed =>
      cases he
      exact ⟨h.set fun map hc => ProcState.noConfusion hc, .same fun r' _ => .refl _ r'⟩
    | resumed howned =>
      cases he
      exact ⟨h.machineStep hr howned.formed howned.others, .owned hr.mem_roots howned rfl⟩
    | blocked hf ht hlook hpage hat =>
      dsimp only at he
      rw [hlook] at he
      cases he
      have hsame : ∀ r', s.machine.SameTree P m r' := fun r' => .of_eq ht r'
      have hs := h.machineStep hr hf fun r' _ _ => hsame r'
      refine ⟨hs.set fun map' hc => ?_, .same fun r' _ => hsame r'⟩
      cases hc
      rw [hpage]
      exact hat.frame (hsame r)
  | retry r map =>
    rw [Kernel.exec] at he
    split_ifs at he with hr
    have hat := h.at_copy hr
    rcases hm : s.machine.finishCopy P map with ⟨x, m⟩
    rw [hm] at he
    rcases h.machine.finishCopy hr.mem_roots hat hm with ⟨rfl, hf, ht⟩ | ⟨rfl, howned⟩
    · cases he
      have hsame : ∀ r', s.machine.SameTree P m r' := fun r' => .of_eq ht r'
      exact ⟨⟨hf, fun p hp map' hc => (h.copying p hp map' hc).frame (hsame p.pt)⟩,
        .same fun r' _ => hsame r'⟩
    · cases he
      refine ⟨⟨?_, fun p hp map' hc => ?_⟩, .owned hr.mem_roots howned set_roots⟩
      · rw [set_roots]
        exact howned.formed
      · obtain ⟨q, hq, rfl⟩ := List.mem_map.mp hp
        split_ifs at hc with hqr
        rw [if_neg hqr]
        exact (h.copying q hq map' hc).frame (howned.others q.pt (List.mem_map_of_mem hq) hqr)
  | exit r =>
    rw [Kernel.exec] at he
    split_ifs at he
    cases he
    exact ⟨h.set fun map hc => ProcState.noConfusion hc, .same fun r' _ => .refl _ r'⟩
  | wait r child =>
    rw [Kernel.exec] at he
    split_ifs at he
    cases he
    exact ⟨h.free, .same fun r' _ => .refl _ r'⟩
  | kfree r =>
    rw [Kernel.exec] at he
    split_ifs at he
    cases he
    exact ⟨h.free, .same fun r' _ => .refl _ r'⟩

theorem Reached.formed (h : s.Reached P) : s.Formed P := by
  induction h with
  | @boot m hheap hzero =>
    have hans : P.Answers m.heap := by
      rw [hheap]
      exact ⟨fun t ht => absurd ht List.not_mem_nil, trivial⟩
    exact ⟨⟨⟨_, hans.shape⟩, fun r hr => absurd hr List.not_mem_nil⟩,
      fun p hp => absurd hp List.not_mem_nil⟩
  | step _ ha _ he ih => exact ((ih.restock ha).exec he).1

theorem Formed.user_perm (h : s.Formed P) {p : ℕ} {q : Perm}
    (hl : s.machine.maps P s.roots (r, k) = some (p, q)) : q.has .r = true ∧ q.has .u = true ∧
      q.has .cow = !q.has .w ∧ Perm.owned (Perm.shared q) = Perm.owned q := by
  obtain ⟨o, hs⟩ := h.machine.shape
  obtain ⟨e, hle, hx⟩ := Option.map_eq_some_iff.mp hl
  obtain ⟨he, -⟩ := hs.leaf_spec hle
  cases hx
  exact ⟨he.read, he.user, he.cow, he.owned.2⟩

theorem owned_congr (h : s.machine.SameTree P s'.machine r) (hr : r ∈ s.roots)
    (hr' : r ∈ s'.roots) :
    s'.owned P r k = s.owned P r k :=
  congrArg (Option.map fun x : ℕ × Perm => Perm.owned x.2) (Machine.maps_of_leaf (h.leaf hr hr'))

private theorem owned_owned : ∀ q : Perm, Perm.owned (Perm.owned q) = Perm.owned q := by decide

/-- No step changes the permissions that a process has at a page of its own. -/
theorem Formed.owned_eq (h : s.Formed P) (he : s.exec P e = some s') (hr : r ∈ s.roots)
    (hr' : r ∈ s'.roots) : s'.owned P r k = s.owned P r k := by
  cases (h.exec he).2 with
  | same hsame => exact owned_congr (hsame r hr) hr hr'
  | @forked r₀ c ok hrun hfork hroots =>
    by_cases hne : r = r₀
    · subst hne
      unfold owned
      rw [hroots]
      rcases hfork.parent k with hsame | hshared
      · rw [hsame]
      · rw [hshared, Option.map_map]
        rcases hl : s.machine.maps P s.roots (r, k) with _ | ⟨p, q⟩
        · rfl
        · exact congrArg some (h.user_perm hl).2.2.2
    · exact owned_congr (hfork.others r hr hne) hr hr'
  | @owned r₀ k₀ hr₀ howned hroots =>
    by_cases hne : r = r₀
    · subst hne
      obtain ⟨p, q, p', hold, -, hnew⟩ := howned.page
      unfold owned
      rw [hroots, hnew]
      by_cases hk : k = k₀
      · rw [hk, Function.update_self, hold]
        exact congrArg some (owned_owned q)
      · rw [Function.update_of_ne fun hc => hk (Prod.mk.inj hc).2]
    · exact owned_congr (howned.others r hr hne) hr hr'

theorem Later.formed (h : Later P r s t) (hs : s.Formed P) : t.Formed P := by
  induction h with
  | refl => exact hs
  | step _ ha he _ ih => exact ((ih.restock ha).exec he).1

theorem Later.mem (h : Later P r s t) (hr : r ∈ s.roots) : r ∈ t.roots := by
  cases h with
  | refl => exact hr
  | step _ _ _ hr' => exact hr'

/-- As long as a process is not freed, the permissions of its own pages stay. -/
theorem Later.owned_eq (h : Later P r s t) (hs : s.Formed P) (hr : r ∈ s.roots) :
    t.owned P r k = s.owned P r k := by
  induction h with
  | refl => rfl
  | step hl ha he hr' ih =>
    rw [((hl.formed hs).restock ha).owned_eq he (hl.mem hr) hr']
    exact ih

/-- A fault that is resolved leaves a page of the process's own. -/
theorem Formed.resolves (h : s.Formed P) (hr : r ∈ s.roots) {addr : ℕ}
    (hm : s.Resolves P r addr m) : Machine.Owned P s.roots r (Machine.page addr) s.machine m := by
  rcases hm with hm | ⟨map, hc, hpage, hm⟩
  · have hfault := h.machine.pgfltHandler hr addr .write
    rw [hm] at hfault
    cases hfault with
    | resumed howned => exact howned
  · rcases h.machine.finishCopy hr (h.at_copy hc) hm with ⟨hx, -⟩ | ⟨-, howned⟩
    · cases hx
    · exact hpage ▸ howned

end Kernel
end Multiplix.Proc
