import Multiplix.Lib.RadixWrite
import Multiplix.Vm.Pte

/-! The page table of `plix.arch.*.vm` and the `lookup` of `plix.vm`. Tables are named by their
physical addresses; a pointer to an entry is a table with an index. -/
namespace Multiplix.Vm
open Core Lib

abbrev PtMem := ℕ → ℕ → Pte

namespace PtLevel

def toNat : PtLevel → ℕ
  | normal => 0
  | mega => 1
  | giga => 2

def ofHeight : ℕ → PtLevel
  | 0 => normal
  | 1 => mega
  | _ => giga

@[simp] theorem ofHeight_toNat (l : PtLevel) : ofHeight l.toNat = l := by cases l <;> rfl

theorem toNat_ofHeight {h : ℕ} (hh : h ≤ 2) : (ofHeight h).toNat = h := by
  rcases (by omega : h = 0 ∨ h = 1 ∨ h = 2) with rfl | rfl | rfl <;> rfl

theorem toNat_le (l : PtLevel) : l.toNat ≤ 2 := by cases l <;> decide

end PtLevel

def level2size : PtLevel → ℕ
  | .normal => 4096
  | .mega => 2 * 1024 * 1024
  | .giga => 1024 * 1024 * 1024

theorem toNat_le_of_level2size_le {l l' : PtLevel} (h : level2size l ≤ level2size l') :
    l.toNat ≤ l'.toNat := by
  cases l <;> cases l' <;> revert h <;> decide

def vpn (level va : ℕ) : ℕ := (va >>> (12 + 9 * level)) &&& (2 ^ 9 - 1)

theorem vpn_eq (level va : ℕ) : vpn level va = va / 2 ^ (12 + 9 * level) % 512 := by
  rw [vpn, Nat.and_two_pow_sub_one_eq_mod, Nat.shiftRight_eq_div_pow]

/-- The answers of an allocator to its next calls: null, or a table that it has zeroed. -/
abbrev Supply := List (Option ℕ)

def ptalloc (T : PtMem) : Supply → Option ℕ × PtMem × Supply
  | [] => (none, T, [])
  | none :: as => (none, T, as)
  | some t :: as => (some t, Function.update T t fun _ => 0, as)

/-- What a walk returns, with the memory and the answers that it leaves. -/
structure Walk where
  pte : Option (ℕ × ℕ)
  endlevel : PtLevel
  mem : PtMem
  rest : Supply

structure VaMapping where
  pte : ℕ × ℕ
  va : ℕ
  size : ℕ
  deriving DecidableEq

namespace PteOps

variable (ops : PteOps)

/-- The levels left to go down, from the table `pt`. -/
def walkLoop (va : ℕ) (endlevel : PtLevel) : ℕ → ℕ → PtMem → Supply → Walk
  | 0, pt, T, as => ⟨some (pt, vpn endlevel.toNat va), endlevel, T, as⟩
  | level + 1, pt, T, as =>
    if level + 1 > endlevel.toNat then
      let i := vpn (level + 1) va
      if ops.stops (T pt i) then ⟨some (pt, i), .ofHeight (level + 1), T, as⟩
      else if ops.valid (T pt i) then walkLoop va endlevel level (ops.pa (T pt i)) T as
      else
        match ptalloc T as with
        | (none, T, as) => ⟨none, .ofHeight (level + 1), T, as⟩
        | (some t, T, as) =>
          walkLoop va endlevel level t (Radix.write T pt i (ops.link (T pt i) t)) as
    else ⟨some (pt, vpn endlevel.toNat va), endlevel, T, as⟩

def walk (T : PtMem) (root va : ℕ) (endlevel : PtLevel) (as : Supply) : Walk :=
  ops.walkLoop va endlevel PtLevel.giga.toNat root T as

/-- The level is passed by reference: what is written depends on where the walk ended. -/
def map (T : PtMem) (root va pa : ℕ) (pgtyp : PtLevel) (perm : Perm) (as : Supply) :
    Bool × PtMem × Supply :=
  let w := ops.walk T root va pgtyp as
  match w.pte with
  | none => (false, w.mem, w.rest)
  | some (t, i) =>
    (true, Radix.write w.mem t i (ops.mapped (w.mem t i) pa w.endlevel perm), w.rest)

/-- A walk without an allocator changes nothing. -/
def lookup (T : PtMem) (root va : ℕ) : Option VaMapping :=
  let w := ops.walk T root va .normal []
  match w.pte with
  | none => none
  | some (t, i) =>
    if ops.leaf (T t i) w.endlevel then some ⟨(t, i), va, level2size w.endlevel⟩ else none

end PteOps

/-- What a mapping says of its address. -/
structure Mapping where
  pa : ℕ
  perm : Perm
  size : ℕ
  deriving DecidableEq

namespace VaMapping

variable (ops : PteOps) (T : PtMem) (m : VaMapping)

def pa : ℕ := ops.pa (T m.pte.1 m.pte.2)
def perm : Perm := ops.perm (T m.pte.1 m.pte.2)
def read : Bool := (m.perm ops T).has .r
def write : Bool := (m.perm ops T).has .w
def exec : Bool := (m.perm ops T).has .x
def user : Bool := (m.perm ops T).has .u
def cow : Bool := (m.perm ops T).has .cow
def view : Mapping := ⟨m.pa ops T, m.perm ops T, m.size⟩

end VaMapping

namespace PteOps

variable (ops : PteOps)

/-- The radix tree that a page table is. -/
def radix : Radix Pte ℕ where
  slot e := if ops.stops e then .leaf else if ops.valid e then .link (ops.pa e) else .empty
  index d va := vpn (2 - d) va
  last := 2
  zero := 0
  slot_zero := by
    rw [ops.stops_zero, ops.valid_zero]
    rfl

variable {ops} {T : PtMem} {root va : ℕ}

theorem slot_eq_leaf {e : Pte} : ops.radix.slot e = .leaf ↔ ops.stops e = true := by
  simp only [radix]
  split_ifs with h <;> simp [h]

theorem slot_leaf {e : Pte} (h : ops.stops e = true) : ops.radix.slot e = .leaf := by
  simp [radix, h]

theorem slot_link {e : Pte} (h : ops.stops e = false) (h' : ops.valid e = true) :
    ops.radix.slot e = .link (ops.pa e) := by
  simp [radix, h, h']

theorem slot_empty {e : Pte} (h : ops.stops e = false) (h' : ops.valid e = false) :
    ops.radix.slot e = .empty := by
  simp [radix, h, h']

private theorem walkLoop_find (ops : PteOps) (T : PtMem) (va n d pt : ℕ) (hn : d + n = 2) :
    (ops.walkLoop va .normal n pt T []).pte =
        (ops.radix.findFrom T va n d pt).map (fun r => (r.2, vpn (2 - r.1) va)) ∧
      ∀ r ∈ ops.radix.findFrom T va n d pt,
        (ops.walkLoop va .normal n pt T []).endlevel = .ofHeight (2 - r.1) := by
  induction n generalizing d pt with
  | zero =>
    obtain rfl : d = 2 := by omega
    exact ⟨rfl, fun r hr => by cases hr; rfl⟩
  | succ n ih =>
    have hd : 2 - d = n + 1 := by omega
    have hi : ops.radix.index d va = vpn (n + 1) va := by rw [← hd]; rfl
    rw [walkLoop, if_pos (by simp [PtLevel.toNat]), Radix.findFrom, hi]
    dsimp only
    by_cases hs : ops.stops (T pt (vpn (n + 1) va)) = true
    · rw [if_pos hs, slot_leaf hs]
      simp [hd]
    · rw [if_neg hs]
      rw [Bool.not_eq_true] at hs
      by_cases hv : ops.valid (T pt (vpn (n + 1) va)) = true
      · rw [if_pos hv, slot_link hs hv]
        exact ih (d + 1) _ (by omega)
      · rw [if_neg hv, slot_empty hs (by simpa using hv)]
        simp [ptalloc]

theorem walk_of_find_none (h : ops.radix.find T root va = none) :
    (ops.walk T root va .normal []).pte = none := by
  have hp := (walkLoop_find ops T va 2 0 root rfl).1
  rw [walk, show PtLevel.giga.toNat = 2 from rfl, hp]
  rw [Radix.find, show ops.radix.last = 2 from rfl] at h
  rw [h]
  rfl

theorem walk_of_find {d t : ℕ} (h : ops.radix.find T root va = some (d, t)) :
    (ops.walk T root va .normal []).pte = some (t, vpn (2 - d) va) ∧
      (ops.walk T root va .normal []).endlevel = .ofHeight (2 - d) := by
  obtain ⟨hp, hl⟩ := walkLoop_find ops T va 2 0 root rfl
  rw [Radix.find, show ops.radix.last = 2 from rfl] at h
  rw [walk, show PtLevel.giga.toNat = 2 from rfl, hp, h]
  exact ⟨rfl, hl _ h⟩

/-- A lookup reads the entry where the path of its address ends. -/
theorem lookup_eq : ops.lookup T root va = (ops.radix.find T root va).bind fun r =>
    if ops.leaf (T r.2 (vpn (2 - r.1) va)) (.ofHeight (2 - r.1)) then
      some ⟨(r.2, vpn (2 - r.1) va), va, level2size (.ofHeight (2 - r.1))⟩
    else none := by
  obtain ⟨hp, hl⟩ := walkLoop_find ops T va 2 0 root rfl
  unfold lookup walk Radix.find
  dsimp only [PtLevel.toNat]
  rw [show ops.radix.last = 2 from rfl, hp]
  cases hf : ops.radix.findFrom T va 2 0 root with
  | none => rfl
  | some r =>
    rw [hl r hf]
    rfl

/-- A walk gives no answer back. -/
theorem walkLoop_rest_le (ops : PteOps) (va : ℕ) (lev : PtLevel) (n pt : ℕ) (T : PtMem)
    (as : Supply) : (ops.walkLoop va lev n pt T as).rest.length ≤ as.length := by
  induction n generalizing pt T as with
  | zero => exact le_rfl
  | succ n ih =>
    rw [walkLoop]
    dsimp only
    split_ifs
    · exact le_rfl
    · exact ih _ _ _
    · rcases as with _ | ⟨_ | t, as⟩
      · exact le_rfl
      · simp [ptalloc]
      · exact (ih _ _ _).trans (by simp)
    · exact le_rfl

/-- The mapping that an entry at a depth gives. -/
def viewAt (ops : PteOps) (r : ℕ × Pte) : Option Mapping :=
  if ops.leaf r.2 (.ofHeight (2 - r.1)) then
    some ⟨ops.pa r.2, ops.perm r.2, level2size (.ofHeight (2 - r.1))⟩
  else none

theorem view_lookup : (ops.lookup T root va).map (VaMapping.view ops T) =
    (ops.radix.lookup T root va).bind ops.viewAt := by
  rw [lookup_eq, Radix.lookup]
  cases ops.radix.find T root va with
  | none => rfl
  | some r =>
    simp only [Option.bind_some, Option.map_some, viewAt, radix]
    split_ifs <;> rfl

end PteOps
end Multiplix.Vm
