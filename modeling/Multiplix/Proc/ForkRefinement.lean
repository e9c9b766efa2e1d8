import Multiplix.Lib.Run
import Multiplix.Proc.Fork
import Multiplix.Proc.Load
import Multiplix.Proc.Platforms

/-! Processes that share pages copy-on-write behave like processes that own copies. -/
namespace Multiplix.Proc
open Lib Vm

namespace Machine

variable {P : Platform} {roots : List ℕ} {o : Owners} {m m' : Machine} {r k p pt va : ℕ}
  {w : Bool} {kind : FaultType}

theorem lookup_eq_none_or {T : PtMem} (root va : ℕ) :
    P.ops.lookup T root va = none ∨ ∃ map, P.ops.lookup T root va = some map := by
  cases P.ops.lookup T root va with
  | none => exact Or.inl rfl
  | some map => exact Or.inr ⟨map, rfl⟩

namespace Shape

variable (h : m.Shape P roots o)
include h

theorem translate_mapped (hl : m.ref P roots (r, va / 4096) = some (p, w))
    (hkind : kind = .read ∨ kind = .write) :
    m.translate P r va kind = if kind = .read ∨ w = true then some (p + va % 4096) else none := by
  obtain ⟨pte, -, he, hpa, hw, hlook⟩ := h.exists_pteAt hl
  have huser : (VaMapping.mk pte va 4096).user P.ops m.tables = true := he.user
  have hperm : ((VaMapping.mk pte va 4096).perm P.ops m.tables).has kind.flag = true ↔
      kind = .read ∨ w = true := by
    rcases hkind with rfl | rfl
    · exact iff_of_true he.read (Or.inl rfl)
    · rw [← hw]
      exact ⟨Or.inr, fun hc => hc.resolve_left (by decide)⟩
  rw [translate, hlook va rfl]
  dsimp only
  simp only [he.valid, huser, hperm, true_and]
  rw [show (VaMapping.mk pte va 4096).pa P.ops m.tables = p from hpa]

theorem translate_unmapped (hr : r ∈ roots) (hva : va < 2 ^ 38)
    (hl : m.ref P roots (r, va / 4096) = none) : m.translate P r va kind = none := by
  rw [translate]
  rcases lookup_eq_none_or (P := P) (T := m.tables) r va with hn | ⟨map, hm⟩
  · rw [hn]
  · rw [hm]
    dsimp only
    rw [if_neg fun hc => ?_]
    have := hc.1
    rw [h.lookup_unmapped hr hva hl hm, P.ops.valid_zero] at this
    cases this

/-- A process that touches an address without a page is killed. -/
theorem pgfltHandler_unmapped (hr : r ∈ roots) (hva : va < 2 ^ 38)
    (hl : m.ref P roots (r, va / 4096) = none) :
    m.pgfltHandler P r va kind = (.killed, m) := by
  rw [Machine.pgfltHandler]
  dsimp only
  have hpg : (va - va % 4096) / 4096 = va / 4096 := by omega
  rcases lookup_eq_none_or (P := P) (T := m.tables) r (va - va % 4096) with hn | ⟨map, hm⟩
  · rw [hn]
  · have h0 := h.lookup_unmapped hr (by omega) (hpg ▸ hl) hm
    have hcow : map.cow P.ops m.tables = false := by
      rw [VaMapping.cow, VaMapping.perm, h0, P.ops.cow_zero]
    rw [hm]
    dsimp only
    rw [hcow, if_neg (c := kind = .write ∧ _) fun hc => Bool.false_ne_true hc.2.1, ite_self]

/-- A valid entry that `lookup` finds is the entry of a page. -/
theorem ref_of_lookup (hr : r ∈ roots) (hva : va < 2 ^ 38) {map : VaMapping}
    (hm : P.ops.lookup m.tables r va = some map)
    (hv : P.ops.valid (m.tables map.pte.1 map.pte.2) = true) :
    m.ref P roots (r, va / 4096) = some (map.pa P.ops m.tables, map.write P.ops m.tables) := by
  cases hl : m.ref P roots (r, va / 4096) with
  | none =>
    rw [h.lookup_unmapped hr hva hl hm, P.ops.valid_zero] at hv
    cases hv
  | some x =>
    obtain ⟨pte, -, -, hpa, hw, hlook⟩ := h.exists_pteAt (p := x.1) (w := x.2) hl
    obtain rfl : VaMapping.mk pte va 4096 = map := Option.some.inj ((hlook va rfl).symm.trans hm)
    exact congrArg some (Prod.ext hpa.symm hw.symm)

end Shape

/-- A byte written to a page that the process owns is seen by nobody else. -/
theorem Inv.seen_write (h : m.Inv P roots o) (hl : m.ref P roots (r, va / 4096) = some (p, true))
    (b : Byte) (r' va' : ℕ) :
    Machine.seen P roots { m with bytes := Function.update m.bytes (p + va % 4096) b } r' va' =
      if r' = r ∧ va' = va then some b else m.seen P roots r' va' := by
  rw [seen, seen]
  change (m.ref P roots (r', va' / 4096)).map (fun x =>
    Function.update m.bytes (p + va % 4096) b (x.1 + va' % 4096)) = _
  split_ifs with hc
  · rw [hc.1, hc.2, hl, Option.map_some, Function.update_self]
  · refine Option.map_congr fun x hx => Function.update_of_ne (fun heq => hc ?_) ..
    have hxp := (h.shape.page _ (h.shape.ref_mem_pages (p := x.1) (w := x.2) hx).1).dvd
    have hp := (h.shape.page _ (h.shape.ref_mem_pages hl).1).dvd
    have hxe : x.1 = p := by omega
    have hx' : m.ref P roots (r', va' / 4096) = some (p, x.2) := hxe ▸ hx
    have hsame := h.counted.unique hl hx'
    obtain ⟨hr, hk⟩ := Prod.mk.inj hsame
    exact ⟨hr.symm, by omega⟩

/-- An access of a process to its own memory. -/
inductive Accessed (P : Platform) (roots : List ℕ) (m : Machine) (r va : ℕ) (kind : FaultType) :
    Except Stop (ℕ × Machine) → Prop
  | nomem : Accessed P roots m r va kind (.error .nomem)
  | killed : m.ref P roots (r, va / 4096) = none →
      Accessed P roots m r va kind (.error .killed)
  | ok {m' : Machine} {o : Owners} {p : ℕ} {w : Bool} : m'.Inv P roots o →
      m'.ref P roots (r, va / 4096) = some (p, w) → (kind = .write → w = true) →
      (∀ r' va', m'.seen P roots r' va' = m.seen P roots r' va') →
      Accessed P roots m r va kind (.ok (p + va % 4096, m'))

theorem Inv.access (h : m.Inv P roots o) (kind : FaultType) (hr : r ∈ roots) (hva : va < maxVa)
    (hkind : kind = .read ∨ kind = .write) :
    Accessed P roots m r va kind (m.access P r va kind) := by
  have hva' : va < 2 ^ 38 := hva.trans (by decide)
  rw [Machine.access]
  cases hl : m.ref P roots (r, va / 4096) with
  | none =>
    rw [h.shape.translate_unmapped hr hva' hl, h.shape.pgfltHandler_unmapped hr hva' hl]
    exact .killed hl
  | some x =>
    obtain ⟨p, w⟩ := x
    rw [h.shape.translate_mapped hl hkind]
    split_ifs with hc
    · exact .ok h hl (fun hw => hc.resolve_left (by rw [hw]; decide)) fun _ _ => rfl
    · rw [not_or, Bool.not_eq_true] at hc
      obtain rfl : kind = .write := hkind.resolve_left hc.1
      obtain rfl := hc.2
      dsimp only
      rcases h.pgfltHandler hl with hb | ⟨m', o', q, heq, hi, href, hseen⟩
      · rcases hp : m.pgfltHandler P r va .write with ⟨_ | _ | _, m₁⟩ <;> rw [hp] at hb
        · cases hb
        · cases hb
        · exact .nomem
      · have hl' : m'.ref P roots (r, va / 4096) = some (q, true) := by
          rw [href, Function.update_self]
        rw [heq]
        dsimp only
        rw [hi.shape.translate_mapped hl' (Or.inr rfl), if_pos (Or.inr rfl)]
        exact .ok hi hl' (fun _ => rfl) hseen

end Machine

/-- The memory of one process. -/
abbrev Space := UserAddr → Option Byte

namespace Reference

/-- Processes that own their memory: `fork` copies all of it. -/
def exec (spaces : List Space) : Event → Except Stop (List Space × Option Byte)
  | .fork i =>
    match spaces[i]? with
    | none => .error .noproc
    | some sp => .ok (spaces ++ [sp], none)
  | .load i va =>
    match spaces[i]? with
    | none => .error .noproc
    | some sp =>
      match sp va with
      | none => .error .killed
      | some b => .ok (spaces, some b)
  | .store i va b =>
    match spaces[i]? with
    | none => .error .noproc
    | some sp =>
      match sp va with
      | none => .error .killed
      | some _ => .ok (spaces.set i (Function.update sp va (some b)), none)

end Reference

namespace System

variable (P : Platform)

/-- What each process sees of its memory. -/
def view (s : System) : List Space :=
  s.procs.map fun r va => s.machine.seen P s.procs r va

/-- A page that one process may write is mapped by no other process. -/
def Exclusive (s : System) : Prop :=
  ∀ (i j r r' : ℕ), s.procs[i]? = some r → s.procs[j]? = some r' → i ≠ j →
    ∀ (va va' : UserAddr) (map map' : VaMapping),
      P.ops.lookup s.machine.tables r va = some map →
      P.ops.lookup s.machine.tables r' va' = some map' →
      P.ops.valid (s.machine.tables map.pte.1 map.pte.2) = true →
      P.ops.valid (s.machine.tables map'.pte.1 map'.pte.2) = true →
      map.write P.ops s.machine.tables = true →
      map.pa P.ops s.machine.tables ≠ map'.pa P.ops s.machine.tables

variable {P} {s : System} {o : Owners}

theorem exclusive (h : s.machine.Inv P s.procs o) : s.Exclusive P := by
  intro i j r r' hi hj hij va va' map map' hm hm' hv hv' hw hpa
  have hmax : maxVa < 2 ^ 38 := by decide
  have hl := h.shape.ref_of_lookup (List.mem_of_getElem? hi) (va.isLt.trans hmax) hm hv
  have hl' := h.shape.ref_of_lookup (List.mem_of_getElem? hj) (va'.isLt.trans hmax) hm' hv'
  rw [hw, hpa] at hl
  have hr : r = r' := congrArg Prod.fst (h.counted.unique hl hl')
  obtain ⟨hi, rfl⟩ := List.getElem?_eq_some_iff.mp hi
  obtain ⟨hj, rfl⟩ := List.getElem?_eq_some_iff.mp hj
  exact hij ((h.shape.nodup.getElem_inj_iff).mp hr)

private theorem view_get (i : ℕ) : (s.view P)[i]? =
    s.procs[i]?.map fun r (va : UserAddr) => s.machine.seen P s.procs r va := by
  rw [view, List.getElem?_map]

theorem view_congr {m : Machine} (h : ∀ r ∈ s.procs, ∀ va,
    m.seen P s.procs r va = s.machine.seen P s.procs r va) :
    (System.mk m s.procs).view P = s.view P :=
  List.map_congr_left fun r hr => funext fun va => h r hr va

/-- One event, on shared pages and on copies. -/
theorem exec_follows (h : s.machine.Inv P s.procs o) (e : Event) :
    Follows (fun (s : System) spaces => (∃ o, s.machine.Inv P s.procs o) ∧ spaces = s.view P)
      (· = .nomem) (s.exec P e) (Reference.exec (s.view P) e) := by
  cases e with
  | fork i =>
    rw [exec, Reference.exec, view_get]
    rcases hi : s.procs[i]? with _ | r
    · exact Or.inr rfl
    · dsimp only
      rcases hf : s.machine.makeFromParent P r with ⟨_ | child, m⟩
      · exact Or.inl rfl
      · obtain ⟨-, hinv, hold, hnew⟩ := h.makeFromParent (List.mem_of_getElem? hi) hf
        refine ⟨_, rfl, hinv, ?_⟩
        rw [view, view, List.map_append]
        exact congrArg₂ _ (List.map_congr_left fun r' hr' => funext fun va => (hold r' hr' va).symm)
          (congrArg (· :: []) (funext fun va => (hnew va va.isLt).symm))
  | load i va =>
    rw [exec, Reference.exec, view_get]
    rcases hi : s.procs[i]? with _ | r
    · exact Or.inr rfl
    · dsimp only [Option.map_some]
      have ha := h.access .read (List.mem_of_getElem? hi) va.isLt (Or.inl rfl)
      revert ha
      generalize s.machine.access P r va .read = x
      intro ha
      cases ha with
      | nomem => exact Or.inl rfl
      | killed hl =>
        right
        rw [Machine.seen, hl]
        rfl
      | @ok m' o' p w hinv hl _ hseen =>
        dsimp only
        rw [← hseen, Machine.seen, hl]
        exact ⟨_, rfl, ⟨_, hinv⟩, (view_congr fun r' _ va' => hseen r' va').symm⟩
  | store i va b =>
    rw [exec, Reference.exec, view_get]
    rcases hi : s.procs[i]? with _ | r
    · exact Or.inr rfl
    · dsimp only [Option.map_some]
      have ha := h.access .write (List.mem_of_getElem? hi) va.isLt (Or.inr rfl)
      revert ha
      generalize s.machine.access P r va .write = x
      intro ha
      cases ha with
      | nomem => exact Or.inl rfl
      | killed hl =>
        right
        rw [Machine.seen, hl]
        rfl
      | @ok m' o' p w hinv hl hw hseen =>
        rw [hw rfl] at hl
        dsimp only
        rw [← hseen, Machine.seen, hl]
        refine ⟨_, rfl, ⟨_, hinv.congr rfl rfl rfl⟩, ?_⟩
        obtain ⟨hlt, rfl⟩ := List.getElem?_eq_some_iff.mp hi
        refine List.ext_getElem (by simp [view]) fun j hj hj' => ?_
        have hjp : j < s.procs.length := by simpa [view] using hj'
        simp only [view, List.getElem_map, List.getElem_set]
        funext va'
        rw [hinv.seen_write hl, hseen]
        by_cases hij : i = j
        · subst hij
          rw [if_pos rfl, Function.update_apply]
          simp only [true_and, Fin.val_inj]
        · have hne : s.procs[j] ≠ s.procs[i] := fun he =>
            hij ((h.shape.nodup.getElem_inj_iff).mp he).symm
          rw [if_neg hij, if_neg fun hc => hne hc.1]

/-- A program without segments: its process has a stack. -/
def emptyProgram : Mem := Mem.store 4 (fun _ => 0) 0 magic

private def bootMachine : Machine where
  tables _ _ := 0
  bytes _ := 0
  refcnt _ := 0
  heap := (List.range 5).map fun i => some (0x80000000 + i * 4096)

private def stackTop : UserAddr := ⟨stackVa, by decide⟩

end System
end Multiplix.Proc
