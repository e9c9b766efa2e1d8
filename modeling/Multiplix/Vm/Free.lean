import Multiplix.Vm.Built

/-! `Pagetable.free`, with the order in which it gives tables back and clears entries. -/
namespace Multiplix.Vm
open Core Lib

inductive FreeEvent
  /-- The table is passed to `kfree`. -/
  | kfree (t : ℕ)
  /-- Entry `i` of the table becomes zero. -/
  | clear (t i : ℕ)
  deriving DecidableEq

/-- The memory, and what has been done up to now. -/
structure FreeState where
  mem : PtMem
  events : List FreeEvent

/-- What calls of `kfree` leave in memory: only pages that were given back change among `used`. -/
structure Kfree (used : Set ℕ) where
  mem : List FreeEvent → PtMem → PtMem
  frame : ∀ {es T t}, t ∈ used → .kfree t ∉ es → mem es T t = T t

namespace FreeState

variable {used : Set ℕ} (K : Kfree used)

def clear (s : FreeState) (t i : ℕ) : FreeState :=
  ⟨Radix.write s.mem t i 0, s.events ++ [.clear t i]⟩

def kfree (s : FreeState) (t : ℕ) : FreeState :=
  ⟨K.mem (s.events ++ [.kfree t]) s.mem, s.events ++ [.kfree t]⟩

end FreeState

namespace Arch

variable (A : Arch) {used : Set ℕ} (K : Kfree used)

/-- One turn of the loop in `free`, where `child` is the call for the table below. -/
def freeEntry (child : ℕ → FreeState → Option FreeState) (level : PtLevel) (pt : ℕ)
    (s : FreeState) (i : ℕ) : Option FreeState :=
  let pte := s.mem pt i
  if A.valid pte && A.leaf pte level then some (s.clear pt i)
  else if A.valid pte then
    (child (A.pa pte) s).map fun s => (s.kfree K (A.pa pte)).clear pt i
  else some s

def freeEntries (child : ℕ → FreeState → Option FreeState) (level : PtLevel) (pt : ℕ) :
    List ℕ → FreeState → Option FreeState
  | [], s => some s
  | i :: is, s => (freeEntry A K child level pt s i).bind (freeEntries child level pt is)

/-- `Pagetable.free` at a level. Below the last level there is none: what lies there is no table. -/
def free : ℕ → ℕ → FreeState → Option FreeState
  | 0, pt, s => freeEntries A K (fun _ _ => none) .normal pt (List.range 512) s
  | level + 1, pt, s =>
    freeEntries A K (free level) (.ofHeight (level + 1)) pt (List.range 512) s

end Arch

/-- The tables passed to `kfree`. -/
def released (es : List FreeEvent) : List ℕ :=
  es.filterMap fun
    | .kfree t => some t
    | .clear _ _ => none

/-- Entry `i` of the table `p` links the table `t`, on the path of some address. -/
def Parent (A : Arch) (T : PtMem) (root p i t : ℕ) : Prop :=
  ∃ va d, d < 2 ∧ A.radix.node T root va d = some p ∧ A.radix.node T root va (d + 1) = some t ∧
    i = vpn (2 - d) va

/-- The tables `ts` are released, each once, and nothing else. An entry that leads to a table is
cleared after this has been released, and the root is left empty. -/
structure Releases (A : Arch) (T : PtMem) (root : ℕ) (ts : List ℕ) (s : FreeState) : Prop where
  once : (released s.events).Perm ts
  order : ∀ pre p i post, s.events = pre ++ .clear p i :: post → ∀ t, Parent A T root p i t →
    .kfree t ∈ pre
  empty : ∀ i < 512, s.mem root i = 0

/-! ### What is left after some tables have been released -/

variable {A : Arch} {root : ℕ} {F F' F'' : Radix.Tables Pte} {es es' : List FreeEvent}
  {s i t p : ℕ} {e : Pte}

theorem slot_zero : A.radix.slot 0 = .empty := A.radix.slot_zero

theorem mem_released : t ∈ released es ↔ .kfree t ∈ es := by
  rw [released, List.mem_filterMap]
  constructor
  · rintro ⟨x, hx, ht⟩
    cases x <;> simp at ht
    exact ht ▸ hx
  · exact fun h => ⟨_, h, rfl⟩

@[simp] theorem released_append : released (es ++ es') = released es ++ released es' :=
  List.filterMap_append

/-- The events `es` lead from the tables `F` to the tables `F'`. -/
structure Freed (A : Arch) (root : ℕ) (F F' : Radix.Tables Pte) (es : List FreeEvent) : Prop where
  linked : A.Linked False root F'
  full : A.Full root F'
  depth : F'.depth = F.depth
  used : ∀ t, t ∈ F'.used ↔ t ∈ F.used ∧ .kfree t ∉ es
  mem : ∀ t, .kfree t ∈ es → t ∈ F.used
  once : (released es).Nodup
  edge : ∀ {p i t}, F'.Edge A.radix 512 p i t → F.Edge A.radix 512 p i t
  order : ∀ pre p i post, es = pre ++ .clear p i :: post →
    ∀ t, F.Edge A.radix 512 p i t → .kfree t ∈ pre

namespace Freed

theorem refl (hl : A.Linked False root F) (hf : A.Full root F) : Freed A root F F [] where
  linked := hl
  full := hf
  depth := rfl
  used := by simp
  mem := by simp
  once := List.nodup_nil
  edge := id
  order := by simp

/-- A link is left, or its table was released. -/
theorem edge_or (h : Freed A root F F' es) (hl : A.Linked False root F)
    (he : F.Edge A.radix 512 p i t) : F'.Edge A.radix 512 p i t ∨ .kfree t ∈ es := by
  by_cases ht : .kfree t ∈ es
  · exact Or.inr ht
  · obtain ⟨hu, hd⟩ := hl.edge he
    have hne : t ≠ root := fun hc => by
      rw [hc, hl.root_depth] at hd
      omega
    obtain ⟨x, j, hx⟩ := h.full t ((h.used t).mpr ⟨hu, ht⟩) hne
    obtain ⟨rfl, rfl⟩ := hl.unique (h.edge hx) he
    exact Or.inl hx

theorem trans (h : Freed A root F F' es) (hl : A.Linked False root F)
    (h' : Freed A root F' F'' es') : Freed A root F F'' (es ++ es') where
  linked := h'.linked
  full := h'.full
  depth := h'.depth.trans h.depth
  used t := by
    rw [h'.used, h.used, List.mem_append, not_or, and_assoc]
  mem t ht := by
    rcases List.mem_append.mp ht with ht | ht
    · exact h.mem t ht
    · exact ((h.used t).mp (h'.mem t ht)).1
  once := by
    rw [released_append, List.nodup_append]
    refine ⟨h.once, h'.once, fun t ht t' ht' he => ?_⟩
    have hleft := (h.used t').mp (h'.mem t' (mem_released.mp ht'))
    exact hleft.2 (he ▸ mem_released.mp ht)
  edge he := h.edge (h'.edge he)
  order pre p i post heq t he := by
    rcases List.append_eq_append_iff.mp heq with ⟨mid, rfl, hmid⟩ | ⟨mid, hes, hmid⟩
    · rcases h.edge_or hl he with he | ht
      · exact List.mem_append_right _ (h'.order mid p i post hmid t he)
      · exact List.mem_append_left _ ht
    · cases mid with
      | nil =>
        rw [List.append_nil] at hes
        rcases h.edge_or hl he with he | ht
        · exact absurd (h'.order [] p i post hmid.symm t he) List.not_mem_nil
        · exact hes ▸ ht
      | cons x mid =>
        rw [List.cons_append, List.cons.injEq] at hmid
        obtain ⟨rfl, -⟩ := hmid
        exact h.order pre p i mid hes t he

/-- An entry that links nothing is cleared. -/
theorem clear (hl : A.Linked False root F) (hf : A.Full root F) (hs : s ∈ F.used)
    (hno : ∀ t, ¬ F.Edge A.radix 512 s i t) (hi : i < 512) :
    Freed A root F (F.write s i 0) [.clear s i] := by
  have hzero : F.depth s < A.radix.last → (A.radix.slot 0).child = none := fun _ => by
    rw [slot_zero, Slot.child]
  have hold : F.depth s < A.radix.last → (A.radix.slot (F.mem s i)).child = none := fun hd => by
    by_contra hc
    obtain ⟨t, ht⟩ := Option.ne_none_iff_exists'.mp hc
    exact hno t ⟨hs, hd, hi, Slot.child_eq_some.mp ht⟩
  refine ⟨hl.write hs Arch.good_zero hzero, hf.write hzero hold, rfl, ?_, by simp,
    by simp [released], fun he => ((Radix.Tables.edge_write hzero).mp he).1,
    fun pre p j post heq t he => ?_⟩
  · simp [Radix.Tables.write]
  · cases pre with
    | nil =>
      simp only [List.nil_append, List.cons.injEq, FreeEvent.clear.injEq] at heq
      obtain ⟨⟨rfl, rfl⟩, -⟩ := heq
      exact absurd he (hno t)
    | cons x pre => simp at heq

/-- A table without links is released, and its entry cleared. -/
theorem unlink {T : PtMem} (hl : A.Linked False root F) (hf : A.Full root F)
    (he : F.Edge A.radix 512 s i t) (hno : ∀ j u, ¬ F.Edge A.radix 512 t j u)
    (hT : ∀ x ∈ F.used, x ≠ t → T x = F.mem x) :
    Freed A root F ((F.release t T).write s i 0) [.kfree t, .clear s i] := by
  have hl' := hl.unlink he hT Arch.good_zero
  have hf' := hf.unlink he hno hT
  refine ⟨hl', hf', rfl, ?_, ?_, by simp [released], fun {p j u} hx => ?_,
    fun pre p j post heq u hx => ?_⟩
  · simp [Radix.Tables.write, Radix.Tables.release]
  · simpa using (hl.edge he).1
  · have hmem : F.mem p j = ((F.release t T).write s i 0).mem p j := by
      have hne : ¬ (p = s ∧ j = i) := by
        rintro ⟨rfl, rfl⟩
        have hslot := hx.slot
        rw [Radix.Tables.write_mem_self, slot_zero] at hslot
        cases hslot
      rw [Radix.Tables.write_mem_of_ne hne]
      exact congrFun (hT p hx.used.1 hx.used.2).symm j
    exact ⟨hx.used.1, hx.depth, hx.lt, hmem ▸ hx.slot⟩
  · rcases pre with _ | ⟨x, _ | ⟨y, pre⟩⟩ <;> simp at heq
    obtain ⟨rfl, ⟨rfl, rfl⟩, -⟩ := heq
    have hslot := hx.slot
    rw [he.slot, Slot.link.injEq] at hslot
    simp [hslot]

end Freed

/-! ### The loop and the recursion -/

namespace Arch

variable {used : Set ℕ} {K : Kfree used} {level : PtLevel} {pt n : ℕ}

/-- What a call of `free` for the table `pt` does. -/
structure FreeSpec (A : Arch) (root pt : ℕ) (F : Radix.Tables Pte) (es : List FreeEvent)
    (is : List ℕ) (r : Option FreeState) (F' : Radix.Tables Pte) (new : List FreeEvent) :
    Prop where
  result : r = some ⟨F'.mem, es ++ new⟩
  freed : Freed A root F F' new
  below : ∀ t, .kfree t ∈ new → F.depth pt < F.depth t
  above : ∀ x ∈ F.used, F.depth x < F.depth pt → F'.mem x = F.mem x
  cleared : ∀ i < 512, F'.mem pt i =
    if i ∈ is ∧ A.valid (F.mem pt i) = true then 0 else F.mem pt i

/-- The tables before a call: no table in use has been released. -/
structure Ready (A : Arch) (root : ℕ) (used : Set ℕ) (F : Radix.Tables Pte)
    (es : List FreeEvent) : Prop where
  linked : A.Linked False root F
  full : A.Full root F
  live : ∀ x ∈ F.used, x ∈ used ∧ .kfree x ∉ es

variable {child : ℕ → FreeState → Option FreeState} {is : List ℕ} {new : List FreeEvent}
  {r : Option FreeState}

theorem Ready.next (h : Ready A root used F es) (hf : Freed A root F F' new) :
    Ready A root used F' (es ++ new) := by
  refine ⟨hf.linked, hf.full, fun x hx => ?_⟩
  obtain ⟨hx, hnew⟩ := (hf.used x).mp hx
  obtain ⟨hu, hes⟩ := h.live x hx
  exact ⟨hu, by simp [hes, hnew]⟩

theorem FreeSpec.mem_used (h : FreeSpec A root pt F es is r F' new) {x : ℕ} (hx : x ∈ F.used)
    (hd : F.depth x ≤ F.depth pt) : x ∈ F'.used :=
  (h.freed.used x).mpr ⟨hx, fun hc => absurd (h.below x hc) (by omega)⟩

/-- The table of an entry is released together with all tables below it. -/
theorem unlink_spec (h : Ready A root used F es) {c : ℕ} (he : F.Edge A.radix 512 pt i c)
    (hs : FreeSpec A root c F es (List.range 512) r F' new) :
    ∃ T, FreeSpec A root pt F es [i]
      (r.map fun s => (s.kfree K c).clear pt i) ((F'.release c T).write pt i 0)
      (new ++ [.kfree c, .clear pt i]) := by
  obtain ⟨hc, hd⟩ := h.linked.edge he
  have hpt' := hs.mem_used he.used (by omega)
  have hc' := hs.mem_used hc le_rfl
  have hmem : F'.mem pt = F.mem pt := hs.above pt he.used (by omega)
  have hcpt : pt ≠ c := fun hc => by
    rw [hc] at hd
    omega
  have hdepth := hs.freed.depth
  have hedge : F'.Edge A.radix 512 pt i c :=
    ⟨hpt', hdepth ▸ he.depth, he.lt, by rw [hmem, he.slot]⟩
  -- all entries of `c` were cleared
  have hzero : ∀ j < 512, F'.mem c j = 0 := fun j hj => by
    have hgood := (h.linked.good c hc j hj).valid (Or.inl (by omega))
    rw [hs.cleared j hj]
    split_ifs with hif
    · rfl
    · exact hgood.resolve_right fun hv => hif ⟨List.mem_range.mpr hj, hv⟩
  have hno : ∀ j u, ¬ F'.Edge A.radix 512 c j u := fun j u =>
    Radix.Tables.not_edge_of_zero hzero
  have hlive := (h.next hs.freed).live
  refine ⟨K.mem (es ++ new ++ [.kfree c]) F'.mem, ?_⟩
  have hT : ∀ x ∈ F'.used, x ≠ c → K.mem (es ++ new ++ [.kfree c]) F'.mem x = F'.mem x :=
    fun x hx hxc => K.frame (hlive x hx).1 (by simpa [hxc] using (hlive x hx).2)
  have hun := hs.freed.trans h.linked (Freed.unlink hs.freed.linked hs.freed.full hedge hno hT)
  refine ⟨?_, hun, fun t ht => ?_, fun x hx hlt => ?_, fun j hj => ?_⟩
  · rw [hs.result]
    simp [FreeState.kfree, FreeState.clear, Radix.Tables.write, Radix.Tables.release]
  · rcases List.mem_append.mp ht with ht | ht
    · have := hs.below t ht
      omega
    · obtain rfl : t = c := by simpa using ht
      omega
  · have hxpt : x ≠ pt := fun hc => by
      rw [hc] at hlt
      omega
    have hxc : x ≠ c := fun hc => by
      rw [hc] at hlt
      omega
    funext j
    rw [Radix.Tables.write_mem_of_ne fun hc => hxpt hc.1]
    have hx' := hT x (hs.mem_used hx (by omega)) hxc
    rw [show (F'.release c _).mem x = F'.mem x from hx', hs.above x hx (by omega)]
  · by_cases hji : j = i
    · subst hji
      have hv : A.valid (F.mem pt j) = true := by
        by_contra hv
        rw [Bool.not_eq_true] at hv
        have hslot := he.slot
        by_cases hstop : A.stops (F.mem pt j) = true
        · rw [PteOps.slot_leaf hstop] at hslot
          cases hslot
        · rw [PteOps.slot_empty (by simpa using hstop) hv] at hslot
          cases hslot
      rw [Radix.Tables.write_mem_self, if_pos ⟨List.mem_singleton_self j, hv⟩]
    · rw [Radix.Tables.write_mem_of_ne fun hc => hji hc.2, if_neg (by simp [hji])]
      have hx' := hT pt hpt' hcpt
      rw [show (F'.release c _).mem pt = F'.mem pt from hx', hmem]

/-- The calls of `free` for the tables at a depth do what they should. -/
def Frees (A : Arch) (root : ℕ) (used : Set ℕ) (d : ℕ)
    (child : ℕ → FreeState → Option FreeState) : Prop :=
  ∀ F es c, Ready A root used F es → c ∈ F.used → F.depth c = d →
    ∃ F' new, FreeSpec A root c F es (List.range 512) (child c ⟨F.mem, es⟩) F' new

theorem freeEntry_spec (hchild : level ≠ .normal → Frees A root used (F.depth pt + 1) child)
    (h : Ready A root used F es) (hpt : pt ∈ F.used) (hd : F.depth pt + level.toNat = 2)
    (hi : i < 512) :
    ∃ F' new, FreeSpec A root pt F es [i] (freeEntry A K child level pt ⟨F.mem, es⟩ i) F' new := by
  rw [freeEntry]
  dsimp only
  cases hv : A.valid (F.mem pt i) with
  | false =>
    refine ⟨F, [], by simp, .refl h.linked h.full, by simp, fun _ _ _ => rfl, fun j _ => ?_⟩
    by_cases hj : j = i <;> simp [hj, hv]
  | true =>
    cases hl : A.leaf (F.mem pt i) level with
    | true =>
      have hno : ∀ t, ¬ F.Edge A.radix 512 pt i t := fun t he => by
        have hlt : F.depth pt < 2 := he.depth
        have hne : level ≠ .normal := fun hc => by
          rw [hc] at hd
          exact absurd hd (by simpa [PtLevel.toNat] using hlt.ne)
        have hslot := he.slot
        rw [slot_of_valid hne hv, if_pos hl] at hslot
        cases hslot
      refine ⟨F.write pt i 0, [.clear pt i], rfl, .clear h.linked h.full hpt hno hi, by simp,
        fun x _ hlt => ?_, fun j _ => ?_⟩
      · funext j
        exact Radix.Tables.write_mem_of_ne fun hc => absurd hlt (by rw [hc.1]; omega)
      · by_cases hj : j = i
        · subst hj
          rw [Radix.Tables.write_mem_self, if_pos ⟨List.mem_singleton_self j, hv⟩]
        · rw [Radix.Tables.write_mem_of_ne fun hc => hj hc.2, if_neg (by simp [hj])]
    | false =>
      have hne : level ≠ .normal := fun hc => by
        rw [hc] at hd hl
        rw [(h.linked.good pt hpt i hi).leaf hd hv] at hl
        cases hl
      have hlt : F.depth pt < A.radix.last := show F.depth pt < 2 by
        cases level <;> simp_all [PtLevel.toNat]
      have he : F.Edge A.radix 512 pt i (A.pa (F.mem pt i)) :=
        ⟨hpt, hlt, hi, by rw [slot_of_valid hne hv, if_neg (by simp [hl])]⟩
      obtain ⟨hc, hdc⟩ := h.linked.edge he
      obtain ⟨F', new, hs⟩ := hchild hne F es _ h hc hdc
      obtain ⟨T, hT⟩ := unlink_spec (K := K) h he hs
      exact ⟨_, _, hT⟩

theorem freeEntries_spec (hchild : level ≠ .normal → Frees A root used (F.depth pt + 1) child)
    (h : Ready A root used F es) (hpt : pt ∈ F.used) (hd : F.depth pt + level.toNat = 2)
    (his : ∀ i ∈ is, i < 512) :
    ∃ F' new, FreeSpec A root pt F es is
      (freeEntries A K child level pt is ⟨F.mem, es⟩) F' new := by
  induction is generalizing F es with
  | nil => exact ⟨F, [], by simp [freeEntries], .refl h.linked h.full, by simp, fun _ _ _ => rfl,
      by simp⟩
  | cons i is ih =>
    obtain ⟨F₁, new₁, h₁⟩ := freeEntry_spec (K := K) hchild h hpt hd (his i (by simp))
    have hdepth : F₁.depth pt = F.depth pt := congrFun h₁.freed.depth pt
    obtain ⟨F₂, new₂, h₂⟩ := ih (by rwa [hdepth]) (h.next h₁.freed) (h₁.mem_used hpt le_rfl)
      (by rwa [hdepth]) fun j hj => his j (by simp [hj])
    refine ⟨F₂, new₁ ++ new₂, ?_, h₁.freed.trans h.linked h₂.freed, fun t ht => ?_,
      fun x hx hlt => ?_, fun j hj => ?_⟩
    · rw [freeEntries, h₁.result, Option.bind_some, h₂.result, List.append_assoc]
    · rcases List.mem_append.mp ht with ht | ht
      · exact h₁.below t ht
      · have := h₂.below t ht
        rwa [h₁.freed.depth] at this
    · have hx₁ := h₁.mem_used hx hlt.le
      rw [h₂.above x hx₁ (by rwa [h₁.freed.depth]), h₁.above x hx hlt]
    · rw [h₂.cleared j hj, h₁.cleared j hj]
      by_cases hji : j = i
      · subst hji
        cases hv : A.valid (F.mem pt j) <;> simp [hv]
      · cases hv : A.valid (F.mem pt j) <;> simp [hji, hv]

theorem free_spec (n : ℕ) (hn : n ≤ 2) : Frees A root used (2 - n) (free A K n) := by
  induction n with
  | zero =>
    intro F es c h hc hd
    rw [free]
    exact freeEntries_spec (fun hne => absurd rfl hne) h hc (by rw [hd]; rfl)
      fun i hi => List.mem_range.mp hi
  | succ n ih =>
    intro F es c h hc hd
    have hlevel : (PtLevel.ofHeight (n + 1)).toNat = n + 1 := PtLevel.toNat_ofHeight hn
    rw [free]
    refine freeEntries_spec (fun _ => ?_) h hc (by rw [hlevel]; omega)
      fun i hi => List.mem_range.mp hi
    rw [hd, show 2 - (n + 1) + 1 = 2 - n by omega]
    exact ih (by omega)

variable {T : PtMem} {ts : List ℕ} {P : PtMem → Call → Prop}

/-- What is written into the root by the calls that are meant: no table entry is lost. -/
def Keeps (A : Arch) (root : ℕ) (T : PtMem) (c : Call) : Prop := ¬ A.Overwrites root T c

/-- `map_giga` is called with flags under which it leaves a valid entry. -/
def Validates (A : Arch) : Call → Prop
  | .map _ _ => True
  | .mapGiga _ _ perm => A.gigaValid perm = true

/-- The root has no entry that is neither zero nor valid. -/
def RootValid (A : Arch) (T : PtMem) (root : ℕ) : Prop :=
  ∀ i < 512, T root i = 0 ∨ A.valid (T root i) = true

theorem Parent.edge (h : A.Linked False root F) (hp : Parent A F.mem root p i t) :
    F.Edge A.radix 512 p i t := by
  obtain ⟨va, d, hd, hn, hn', rfl⟩ := hp
  have hlast : d < A.radix.last := hd
  have hw : ∀ d k, A.radix.index d k < 512 := fun d k => vpn_lt (2 - d) k
  obtain ⟨hu, hdepth⟩ := h.node_mem hw hlast.le hn
  rw [Radix.node_succ hn, Slot.child_eq_some] at hn'
  exact ⟨hu, hdepth ▸ hd, hw d va, hn'⟩

/-- Whatever was called, the tables are released; the root is left empty if its entries are zero or
valid. -/
theorem releases_iff (h : A.Built root P T ts) (hP : ∀ {T c}, P T c → Keeps A root T c)
    (K : Kfree (insert root {t | t ∈ ts})) :
    (∃ s, free A K 2 root ⟨T, []⟩ = some s ∧ Releases A T root ts s) ↔ RootValid A T root := by
  obtain ⟨F, rfl, hu, hl, hf⟩ := h.tables fun hs : False => hs.elim
  obtain ⟨hnd, hroot⟩ := h.nodup
  have hready : Ready A root (insert root {t | t ∈ ts}) F [] :=
    ⟨hl, hf fun hc => hP hc, fun x hx => ⟨by rwa [hu] at hx, List.not_mem_nil⟩⟩
  obtain ⟨F', new, hs⟩ := free_spec (K := K) 2 le_rfl F [] root hready hl.root_mem hl.root_depth
  have hentry : ∀ i < 512, F'.mem root i =
      if A.valid (F.mem root i) = true then 0 else F.mem root i := fun i hi => by
    rw [hs.cleared i hi]
    simp [List.mem_range, hi]
  -- what is left links nothing, so only the root is left
  have hno : ∀ i t, ¬ F'.Edge A.radix 512 root i t := fun i t he => by
    have hslot := he.slot
    rw [hentry i he.lt] at hslot
    split_ifs at hslot with hv
    · rw [slot_zero] at hslot
      cases hslot
    · rw [Bool.not_eq_true] at hv
      by_cases hstop : A.stops (F.mem root i) = true
      · rw [PteOps.slot_leaf hstop] at hslot
        cases hslot
      · rw [PteOps.slot_empty (by simpa using hstop) hv] at hslot
        cases hslot
  have hleft := hs.freed.linked.eq_root hs.freed.full hno
  have honce : (released new).Perm ts := by
    refine (List.perm_ext_iff_of_nodup hs.freed.once hnd).mpr fun t => ?_
    rw [mem_released]
    constructor
    · intro ht
      have hmem := hs.freed.mem t ht
      rw [hu] at hmem
      refine hmem.resolve_left fun hc => ?_
      exact absurd (hs.below t ht) (by rw [hc]; omega)
    · intro ht
      by_contra hno
      have hmem := (hs.freed.used t).mpr ⟨by rw [hu]; exact Or.inr ht, hno⟩
      rw [hleft] at hmem
      exact hroot (Set.mem_singleton_iff.mp hmem ▸ ht)
  have hresult : free A K 2 root ⟨F.mem, []⟩ = some ⟨F'.mem, new⟩ := hs.result
  constructor
  · rintro ⟨s, hfree, hrel⟩ i hi
    rw [hresult, Option.some.injEq] at hfree
    have hz := hrel.empty i hi
    rw [← hfree, show (⟨F'.mem, new⟩ : FreeState).mem = F'.mem from rfl, hentry i hi] at hz
    split_ifs at hz with hv
    · exact Or.inr hv
    · exact Or.inl hz
  · intro hvalid
    refine ⟨_, hresult, honce, fun pre p i post heq t hp => ?_, fun i hi => ?_⟩
    · exact hs.freed.order pre p i post heq t (Parent.edge hl hp)
    · change F'.mem root i = 0
      rw [hentry i hi]
      split_ifs with hv
      · rfl
      · exact (hvalid i hi).resolve_right hv

/-- Calls that leave valid entries leave a root of valid entries. -/
theorem rootValid_of_validates (h : A.Built root P T ts) (hP : ∀ {T c}, P T c → Validates A c) :
    RootValid A T root := by
  obtain ⟨F, rfl, -, hl, -⟩ := h.tables fun (_ : True) {_ _ _ _} hc => hP hc
  intro i hi
  have hgood := hl.good root hl.root_mem i hi
  rw [hl.root_depth] at hgood
  exact hgood.valid (Or.inr trivial)

/-- `free` releases exactly the tables and leaves the root empty if and only if the entries of the
root are zero or valid. They are if `map_giga` only leaves valid entries, which on RISC-V it does
for all flags, and on AArch64 for those with `Perm.r`. -/
theorem free_releases_iff (A : Arch) (root : ℕ) (T : PtMem) (ts : List ℕ)
    (K : Kfree (insert root {t | t ∈ ts})) :
    (A.Built root (Keeps A root) T ts →
      ((∃ s, free A K 2 root ⟨T, []⟩ = some s ∧ Releases A T root ts s) ↔ RootValid A T root)) ∧
    (A.Built root (fun T c => Keeps A root T c ∧ Validates A c) T ts →
      ∃ s, free A K 2 root ⟨T, []⟩ = some s ∧ Releases A T root ts s) ∧
    (∀ c, Validates Riscv64.arch c) ∧
    (∀ memType va pa perm, Validates (Aarch64.arch memType) (.mapGiga va pa perm) ↔
      perm.has .r = true) := by
  refine ⟨fun h => releases_iff h id K, fun h => ?_, fun c => ?_, fun _ _ _ _ => Iff.rfl⟩
  · exact (releases_iff h And.left K).mpr (rootValid_of_validates h And.right)
  · cases c with
    | map => trivial
    | mapGiga => rfl

/-- One page mapped on AArch64: both tables are released. -/
theorem free_releases_page : ∃ T, ∀ K : Kfree (insert 4096 {t | t ∈ [8192, 12288]}),
    ∃ s, free (Aarch64.arch fun _ => 0) K 2 4096 ⟨T, []⟩ = some s ∧
      Releases (Aarch64.arch fun _ => 0) T 4096 [8192, 12288] s := by
  have hlt : (12288 : ℕ) < 2 ^ (Aarch64.arch fun _ => 0).paBits := by decide
  have hkeeps : Keeps (Aarch64.arch fun _ => 0) 4096 (fun _ _ => 0)
      (.map ⟨4096, 0, .normal, .r⟩ [some 8192, some 12288]) := by
    rintro ⟨x, hx, -, hl⟩
    obtain rfl := Option.some.inj hx
    exact absurd hl (by decide)
  have hb := @Built.map (Aarch64.arch fun _ => 0) 4096
    (fun T c => Keeps (Aarch64.arch fun _ => 0) 4096 T c ∧ Validates (Aarch64.arch fun _ => 0) c)
    (fun _ _ => 0) _ [] ⟨4096, 0, .normal, .r⟩ [some 8192, some 12288] [some 8192, some 12288] []
    true (.init fun _ => rfl) ⟨hkeeps, trivial⟩ (by decide)
    ⟨by simp, by omega, by decide, by simp, hlt, by decide, trivial⟩ rfl rfl
  exact ⟨_, fun K => (free_releases_iff _ _ _ _ K).2.1 hb⟩

/-- A region mapped on AArch64 for execution only leaves an entry in the root. -/
theorem not_releases_giga : ∃ T, (Aarch64.arch fun _ => 0).Built 4096
    (Keeps (Aarch64.arch fun _ => 0) 4096) T [] ∧
      T = Aarch64.mapGiga (fun _ => 0) (fun _ _ => 0) 4096 0 0 .x ∧
      ∀ K : Kfree (insert 4096 {t | t ∈ []}),
        ¬ ∃ s, free (Aarch64.arch fun _ => 0) K 2 4096 ⟨T, []⟩ = some s ∧
          Releases (Aarch64.arch fun _ => 0) T 4096 [] s := by
  have hb : (Aarch64.arch fun _ => 0).Built 4096 (Keeps (Aarch64.arch fun _ => 0) 4096)
      (Aarch64.mapGiga (fun _ => 0) (fun _ _ => 0) 4096 0 0 .x) [] :=
    .mapGiga (.init fun _ => rfl) (fun hc => absurd hc.1 (by decide)) (by decide)
  refine ⟨_, hb, rfl, fun K h => ?_⟩
  rcases (releases_iff hb id K).mp h 0 (by decide) with hz | hv
  · exact absurd hz (by decide)
  · exact absurd hv (by decide)

end Arch
end Multiplix.Vm
