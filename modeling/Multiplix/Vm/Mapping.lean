import Multiplix.Vm.Pagetable

/-! What one call of `map` does to the lookups of all addresses. -/
namespace Multiplix.Vm
open Lib

/-- The tables among the answers. -/
def supplied (as : Supply) : Set ℕ := {t | some t ∈ as}

/-- An allocator hands out tables that are not in use. -/
def PteOps.Fresh (ops : PteOps) (used : Set ℕ) : Supply → Prop
  | [] => True
  | none :: as => ops.Fresh used as
  | some t :: as => t ∉ used ∧ t < 2 ^ ops.paBits ∧ 4096 ∣ t ∧ ops.Fresh (insert t used) as

@[simp] theorem supplied_nil : supplied [] = ∅ := by simp [supplied]

@[simp] theorem supplied_none (as : Supply) : supplied (none :: as) = supplied as := by
  simp [supplied]

theorem union_supplied_some (used : Set ℕ) (t : ℕ) (as : Supply) :
    used ∪ supplied (some t :: as) = insert t used ∪ supplied as := by
  ext s
  simp only [supplied, Set.mem_union, Set.mem_insert_iff, Set.mem_ofPred_eq, List.mem_cons,
    Option.some.injEq]
  tauto

theorem supplied_append (as bs : Supply) : supplied (as ++ bs) = supplied as ∪ supplied bs := by
  ext s
  simp [supplied]

theorem union_supplied_subset {used : Set ℕ} {as bs : Supply} :
    used ∪ supplied as ⊆ used ∪ supplied (as ++ bs) := by
  rw [supplied_append, ← Set.union_assoc]
  exact Set.subset_union_left

namespace PteOps

theorem fresh_append {ops : PteOps} {used : Set ℕ} {as bs : Supply} :
    ops.Fresh used (as ++ bs) ↔ ops.Fresh used as ∧ ops.Fresh (used ∪ supplied as) bs := by
  induction as generalizing used with
  | nil => simp [Fresh]
  | cons a as ih =>
    cases a with
    | none => simpa [Fresh] using ih
    | some t =>
      rw [List.cons_append, Fresh, Fresh, ih, union_supplied_some]
      tauto

variable {ops : PteOps} {T T' : PtMem} {root va va' : ℕ} {used : Set ℕ} {as : Supply}
  {lev : PtLevel}

theorem lookup_congr (hf : ops.radix.find T' root va = ops.radix.find T root va)
    (hl : ops.radix.lookup T' root va = ops.radix.lookup T root va) :
    ops.lookup T' root va = ops.lookup T root va := by
  rw [lookup_eq, lookup_eq, hf]
  rw [Radix.lookup, Radix.lookup, hf] at hl
  cases hr : ops.radix.find T root va with
  | none => rfl
  | some r =>
    rw [hr, Option.map_some, Option.map_some, Option.some.injEq, Prod.mk.injEq] at hl
    have he : T' r.2 (vpn (2 - r.1) va) = T r.2 (vpn (2 - r.1) va) := hl.2
    rw [Option.bind_some, Option.bind_some, he]

/-- No superpage above the level covers the address. -/
def Open (ops : PteOps) (T : PtMem) (root va : ℕ) (lev : PtLevel) : Prop :=
  ∀ r ∈ ops.radix.find T root va, 2 - lev.toNat ≤ r.1

/-- The walk of `map` found or made the tables on the path; of the lookups it changed at most
those of the last level under a new table. -/
def Reached (ops : PteOps) (T : PtMem) (root va : ℕ) (lev : PtLevel) (w : Walk) : Prop :=
  ∃ t, w.pte = some (t, vpn lev.toNat va) ∧ w.endlevel = lev ∧
    ops.radix.node w.mem root va (2 - lev.toNat) = some t ∧
    ∀ va', ops.radix.lookup w.mem root va' =
      if lev = .normal ∧ ops.radix.Agree va va' 2 ∧ ops.radix.lookup T root va' = none then
        some (2, 0)
      else ops.radix.lookup T root va'

/-- The walk ran out of tables and changed no lookup. -/
def Failed (ops : PteOps) (T : PtMem) (root : ℕ) (w : Walk) : Prop :=
  w.pte = none ∧ ∀ va', ops.radix.find w.mem root va' = ops.radix.find T root va' ∧
    ops.radix.lookup w.mem root va' = ops.radix.lookup T root va'

theorem lookup_ne_none {t : ℕ} (hn : ops.radix.node T root va 2 = some t)
    (hag : ops.radix.Agree va va' 2) : ops.radix.lookup T root va' ≠ none := by
  have hf : ops.radix.find T root va' = some (2, t) :=
    Radix.find_eq_some.mpr ⟨le_rfl, by rw [← Radix.node_congr hag, hn], Or.inl rfl⟩
  simp [Radix.lookup, hf]

/-- The walk already is at its level. -/
private theorem reached_here {pt : ℕ}
    (hn : ops.radix.node T root va (2 - lev.toNat) = some pt) :
    ops.Reached T root va lev ⟨some (pt, vpn lev.toNat va), lev, T, as⟩ := by
  refine ⟨pt, rfl, rfl, hn, fun va' => (if_neg ?_).symm⟩
  rintro ⟨rfl, hag, hnone⟩
  exact lookup_ne_none hn hag hnone

theorem walkLoop_spec (n : ℕ) {pt : ℕ} (h : ops.radix.Tree T root used) (hn : n ≤ 2)
    (hlev : lev.toNat ≤ n) (hnode : ops.radix.node T root va (2 - n) = some pt)
    (hopen : ops.Open T root va lev) (hf : ops.Fresh used as) :
    (∃ c, as = c ++ (ops.walkLoop va lev n pt T as).rest ∧
      ops.radix.Tree (ops.walkLoop va lev n pt T as).mem root (used ∪ supplied c) ∧
      ∀ s ∉ used ∪ supplied c, (ops.walkLoop va lev n pt T as).mem s = T s) ∧
      (ops.Failed T root (ops.walkLoop va lev n pt T as) ∨
        ops.Reached T root va lev (ops.walkLoop va lev n pt T as)) := by
  induction n generalizing T used pt as with
  | zero =>
    refine ⟨⟨[], rfl, by simpa [walkLoop] using h, fun _ _ => rfl⟩, Or.inr (reached_here ?_)⟩
    rwa [show lev.toNat = 0 by omega]
  | succ n ih =>
    have hd : 2 - (n + 1) + 1 = 2 - n := by omega
    have hdn : 2 - (2 - (n + 1)) = n + 1 := by omega
    have hi : ops.radix.index (2 - (n + 1)) va = vpn (n + 1) va := congrArg (vpn · va) hdn
    have hdepth : 2 - (n + 1) < ops.radix.last := by
      change 2 - (n + 1) < 2
      omega
    rw [walkLoop]
    dsimp only
    by_cases hgt : n + 1 > lev.toNat
    swap
    · rw [if_neg hgt]
      refine ⟨⟨[], rfl, by simpa using h, fun _ _ => rfl⟩, Or.inr (reached_here ?_)⟩
      rwa [show lev.toNat = n + 1 by omega]
    rw [if_pos hgt]
    by_cases hs : ops.stops (T pt (vpn (n + 1) va)) = true
    · have hfind : ops.radix.find T root va = some (2 - (n + 1), pt) :=
        Radix.find_eq_some.mpr ⟨hdepth.le, hnode, Or.inr (by rw [hi, slot_leaf hs])⟩
      have := hopen _ hfind
      dsimp only at this
      omega
    rw [if_neg hs]
    rw [Bool.not_eq_true] at hs
    by_cases hv : ops.valid (T pt (vpn (n + 1) va)) = true
    · rw [if_pos hv]
      refine ih h (by omega) (by omega) ?_ hopen hf
      rw [← hd, Radix.node_succ hnode, hi, slot_link hs hv, Slot.child]
    rw [if_neg hv]
    rw [Bool.not_eq_true] at hv
    -- a table is missing
    rcases as with _ | ⟨_ | t, as⟩
    · exact ⟨⟨[], rfl, by simpa [ptalloc] using h, fun _ _ => rfl⟩,
        Or.inl ⟨rfl, fun _ => ⟨rfl, rfl⟩⟩⟩
    · exact ⟨⟨[none], rfl, by simpa [ptalloc] using h, fun _ _ => rfl⟩,
        Or.inl ⟨rfl, fun _ => ⟨rfl, rfl⟩⟩⟩
    · obtain ⟨hfresh, hpa, hal, hf⟩ := hf
      have hsame : Function.update T t (fun _ => 0) pt (vpn (n + 1) va) =
          T pt (vpn (n + 1) va) := by
        rw [Function.update_of_ne]
        rintro rfl
        exact hfresh (h.node_mem hdepth.le hnode)
      obtain ⟨hstop, hvalid, hpa'⟩ := ops.link_spec hv hs hpa hal
      have hl : Radix.Links ops.radix T root used va (2 - (n + 1)) pt t
          (ops.link (T pt (vpn (n + 1) va)) t) := by
        refine ⟨h, hdepth, hnode, by rw [hi, slot_empty hs hv], hfresh, ?_⟩
        rw [slot_link hstop hvalid, hpa']
      have htree := hl.tree'
      have hother : ∀ s ∉ insert t used, Radix.write (ops.radix.clear T t) pt
          (ops.radix.index (2 - (n + 1)) va) (ops.link (T pt (vpn (n + 1) va)) t) s = T s :=
        fun s hnot => by
          rw [Radix.write, Function.update_of_ne, Radix.clear, Function.update_of_ne]
          · rintro rfl
            exact hnot (Set.mem_insert _ _)
          · rintro rfl
            exact hnot (Set.mem_insert_of_mem _ (h.node_mem hdepth.le hnode))
      have hnext := hl.node_succ (show ops.radix.Agree va va _ from fun _ _ => rfl)
      rw [hd] at hnext
      have hwalk : ptalloc T (some t :: as) = (some t, ops.radix.clear T t, as) := rfl
      rw [hwalk]
      dsimp only
      rw [show ops.radix.clear T t pt (vpn (n + 1) va) = T pt (vpn (n + 1) va) from hsame, ← hi]
      rw [← hi] at hl htree hnext hother
      rcases Nat.eq_zero_or_pos n with rfl | hpos
      · have hlev0 : lev = .normal := by cases lev <;> simp [PtLevel.toNat] at hgt ⊢
        subst hlev0
        refine ⟨⟨[some t], rfl, by simpa [union_supplied_some, walkLoop] using htree,
            by simpa only [union_supplied_some, supplied_nil, Set.union_empty, walkLoop]
              using hother⟩,
          Or.inr ⟨t, rfl, rfl, hnext, fun va' => ?_⟩⟩
        have hlook := hl.lookup_write va'
        by_cases hag : ops.radix.Agree va va' 2
        · have hnone : ops.radix.lookup T root va' = none := by
            rw [Radix.lookup, hl.find_none hag, Option.map_none]
          rw [if_pos ⟨rfl, hag⟩] at hlook
          rw [if_pos ⟨rfl, hag, hnone⟩]
          exact hlook
        · rw [if_neg fun hc => hag hc.2] at hlook
          rw [if_neg fun hc => hag hc.2.1]
          exact hlook
      · have hne : ¬ (2 - (n + 1) + 1 = ops.radix.last) := fun hc => by
          have : 2 - (n + 1) + 1 = 2 := hc
          omega
        have hfind := hl.find_write
        have hlook := hl.lookup_write
        simp only [hne, false_and, if_false] at hfind hlook
        obtain ⟨⟨c, hc, hT, hframe⟩, hw⟩ := ih htree (by omega) (by omega) hnext
          (fun r hr => hopen r (by rwa [hfind] at hr)) hf
        refine ⟨⟨some t :: c, by rw [List.cons_append, ← hc], ?_, fun s hs => ?_⟩, ?_⟩
        · rwa [union_supplied_some]
        · rw [union_supplied_some] at hs
          rw [hframe s hs, hother s fun hc => hs (Or.inl hc)]
        · simpa only [Failed, Reached, hfind, hlook] using hw

/-- The entry that `map` leaves for its arguments. -/
structure IsEntry (ops : PteOps) (lev : PtLevel) (pa : ℕ) (perm : Perm) (e : Pte) : Prop where
  valid : ops.valid e = true
  leaf : ops.leaf e lev = true
  pa_eq : ops.pa e = pa
  perm_eq : ops.perm e = perm ||| Perm.r

variable {pa : ℕ} {perm : Perm}

/-- Addresses with the same indices have the same walk. -/
theorem walk_congr (h : ∀ i ≤ 2, vpn i va = vpn i va') :
    ops.walk T root va lev as = ops.walk T root va' lev as := by
  have hloop : ∀ n ≤ 2, ∀ pt T as,
      ops.walkLoop va lev n pt T as = ops.walkLoop va' lev n pt T as := fun n => by
    induction n with
    | zero => exact fun _ pt T as => by rw [walkLoop, walkLoop, h _ lev.toNat_le]
    | succ n ih =>
      intro hn pt T as
      rw [walkLoop, walkLoop, h _ lev.toNat_le, h _ hn]
      simp only [ih (by omega)]
  exact hloop 2 le_rfl root T as

/-- A call of `map` keeps the tree. If it fails, no lookup changes; if not, the addresses of its
region find the new entry. -/
theorem map_spec (h : ops.radix.Tree T root used) (hopen : ops.Open T root va lev)
    (hf : ops.Fresh used as) (hpa : pa < 2 ^ ops.paBits) (hal : 4096 ∣ pa)
    (hp : perm &&& Perm.rwx ≠ 0) {ok : Bool} {rest : Supply}
    (hm : ops.map T root va pa lev perm as = (ok, T', rest)) :
    (∃ c, as = c ++ rest ∧ ops.radix.Tree T' root (used ∪ supplied c) ∧
      ∀ s ∉ used ∪ supplied c, T' s = T s) ∧
      ((ok = false ∧ ∀ va', ops.lookup T' root va' = ops.lookup T root va' ∧
          ops.radix.lookup T' root va' = ops.radix.lookup T root va') ∨
        (ok = true ∧ ∃ e, ops.IsEntry lev pa perm e ∧ ∀ va', ops.radix.lookup T' root va' =
          if ops.radix.Agree va va' (2 - lev.toNat + 1) then some (2 - lev.toNat, e)
          else if lev = .normal ∧ ops.radix.Agree va va' 2 ∧
              ops.radix.lookup T root va' = none then some (2, 0)
          else ops.radix.lookup T root va')) := by
  have hnode : ops.radix.node T root va (2 - 2) = some root := rfl
  have hw := walkLoop_spec 2 h le_rfl lev.toNat_le hnode hopen hf
  have hlev := lev.toNat_le
  have hidx : ops.radix.index (2 - lev.toNat) va = vpn lev.toNat va :=
    congrArg (vpn · va) (by omega)
  unfold map walk at hm
  rw [show PtLevel.giga.toNat = 2 from rfl] at hm
  rcases hw with ⟨htree, hfail | ⟨t, hpte, hend, hnode, hlook⟩⟩
  · simp only [hfail.1, Prod.mk.injEq] at hm
    obtain ⟨rfl, rfl, rfl⟩ := hm
    exact ⟨htree, Or.inl ⟨rfl, fun va' => ⟨lookup_congr (hfail.2 va').1 (hfail.2 va').2,
      (hfail.2 va').2⟩⟩⟩
  · simp only [hpte, hend, Prod.mk.injEq] at hm
    obtain ⟨rfl, rfl, rfl⟩ := hm
    rw [← hidx]
    generalize (ops.walkLoop va lev 2 root T as).mem t (ops.radix.index (2 - lev.toNat) va) = e
    obtain ⟨hleaf, hpa', hperm, hstop⟩ := ops.mapped_spec (e := e) (l := lev) hpa hal hp
    have hslot : 2 - lev.toNat = ops.radix.last ∨
        ops.radix.slot (ops.mapped e pa lev perm) = .leaf := by
      by_cases hl : lev = .normal
      · exact Or.inl (by rw [hl]; rfl)
      · exact Or.inr (slot_leaf (hstop hl))
    have hd : 2 - lev.toNat ≤ ops.radix.last := Nat.sub_le _ _
    obtain ⟨c, hc, htree, hframe⟩ := htree
    refine ⟨⟨c, hc, htree.write_leaf hslot hd hnode, fun s hs => ?_⟩,
      Or.inr ⟨rfl, _, ⟨ops.valid_mapped, hleaf, hpa', hperm⟩, fun va' => ?_⟩⟩
    · rw [Radix.write, Function.update_of_ne, hframe s hs]
      rintro rfl
      exact hs (htree.node_mem hd hnode)
    · rw [Radix.lookup_write_leaf hslot htree hd hnode, hlook]

private theorem walkLoop_stops {n d t pt d' : ℕ} (hn : d + n = 2)
    (hf : ops.radix.findFrom T va n d pt = some (d', t)) :
    ops.walkLoop va .normal n pt T as = ⟨some (t, vpn (2 - d') va), .ofHeight (2 - d'), T, as⟩ := by
  induction n generalizing d pt with
  | zero =>
    obtain rfl : d = 2 := by omega
    cases hf
    rfl
  | succ n ih =>
    have hd : 2 - d = n + 1 := by omega
    have hi : ops.radix.index d va = vpn (n + 1) va := by rw [← hd]; rfl
    rw [Radix.findFrom, hi] at hf
    rw [walkLoop, if_pos (by simp [PtLevel.toNat])]
    dsimp only
    by_cases hs : ops.stops (T pt (vpn (n + 1) va)) = true
    · rw [slot_leaf hs] at hf
      cases hf
      rw [if_pos hs, hd]
    · rw [if_neg hs]
      rw [Bool.not_eq_true] at hs
      by_cases hv : ops.valid (T pt (vpn (n + 1) va)) = true
      · rw [slot_link hs hv] at hf
        rw [if_pos hv]
        exact ih (by omega) hf
      · rw [slot_empty hs (by simpa using hv)] at hf
        cases hf

/-- A walk whose path ends at an entry needs no table. -/
theorem walk_of_find_supply {d t : ℕ} (hf : ops.radix.find T root va = some (d, t)) :
    ops.walk T root va .normal as = ⟨some (t, vpn (2 - d) va), .ofHeight (2 - d), T, as⟩ :=
  walkLoop_stops rfl hf

/-- A page is mapped wherever it is asked for: in the way of a superpage, it takes the place of the
superpage. -/
theorem map_page_spec (h : ops.radix.Tree T root used) (hf : ops.Fresh used as)
    (hpa : pa < 2 ^ ops.paBits) (hal : 4096 ∣ pa) (hp : perm &&& Perm.rwx ≠ 0) {ok : Bool}
    {rest : Supply} (hm : ops.map T root va pa .normal perm as = (ok, T', rest)) :
    (∃ c, as = c ++ rest ∧ ops.radix.Tree T' root (used ∪ supplied c) ∧
      ∀ s ∉ used ∪ supplied c, T' s = T s) ∧
      ((ok = false ∧ ∀ va', ops.radix.lookup T' root va' = ops.radix.lookup T root va') ∨
        (ok = true ∧ ∃ d ≤ 2, ∃ e, ops.IsEntry (.ofHeight (2 - d)) pa perm e ∧
          ∀ va', ops.radix.lookup T' root va' =
            if ops.radix.Agree va va' (d + 1) then some (d, e)
            else if ops.radix.Agree va va' 2 ∧ ops.radix.lookup T root va' = none then some (2, 0)
            else ops.radix.lookup T root va')) := by
  by_cases hopen : ops.Open T root va .normal
  · obtain ⟨hmem, hres⟩ := map_spec h hopen hf hpa hal hp hm
    refine ⟨hmem, hres.imp (fun hres => ⟨hres.1, fun va' => (hres.2 va').2⟩)
      fun ⟨hok, e, he, hlook⟩ => ⟨hok, 2, le_rfl, e, he, fun va' => ?_⟩⟩
    simpa [PtLevel.toNat] using hlook va'
  · -- the walk stops at a superpage
    unfold Open at hopen
    push Not at hopen
    obtain ⟨⟨d, t⟩, hfind, hd⟩ := hopen
    replace hd : d < 2 := hd
    obtain ⟨hlast, hnode, -⟩ := Radix.find_eq_some.mp hfind
    have hidx : vpn (2 - d) va = ops.radix.index d va := rfl
    rw [map, walk_of_find_supply hfind, hidx] at hm
    dsimp only at hm
    generalize T t (ops.radix.index d va) = e at hm
    obtain ⟨rfl, rfl, rfl⟩ : true = ok ∧ Radix.write T t (ops.radix.index d va)
        (ops.mapped e pa (.ofHeight (2 - d)) perm) = T' ∧ as = rest := by simpa using hm
    obtain ⟨hleaf, hpa', hperm, hstop⟩ :=
      ops.mapped_spec (e := e) (l := .ofHeight (2 - d)) hpa hal hp
    have hlev : PtLevel.ofHeight (2 - d) ≠ .normal := by
      rcases (by omega : d = 0 ∨ d = 1) with rfl | rfl <;> decide
    have hslot := slot_leaf (hstop hlev)
    refine ⟨⟨[], rfl, ?_, fun s hs => ?_⟩, Or.inr ⟨rfl, d, hd.le, _,
      ⟨ops.valid_mapped, hleaf, hpa', hperm⟩, fun va' => ?_⟩⟩
    · rw [supplied_nil, Set.union_empty]
      exact h.write_leaf (Or.inr hslot) hlast hnode
    · rw [Radix.write, Function.update_of_ne]
      rintro rfl
      exact hs (Or.inl (h.node_mem hlast hnode))
    · rw [Radix.lookup_write_leaf (Or.inr hslot) h hlast hnode]
      split_ifs with h1 h2
      · rfl
      · exact absurd (fun i hi => h2.1 i (by omega)) h1
      · rfl

end PteOps

/-- Fewer tables in use. -/
theorem PteOps.Fresh.anti {ops : PteOps} {used used' : Set ℕ} {as : Supply}
    (h : ops.Fresh used as) (hu : used' ⊆ used) : ops.Fresh used' as := by
  induction as generalizing used used' with
  | nil => trivial
  | cons a as ih =>
    cases a with
    | none => exact ih h hu
    | some t =>
      exact ⟨fun ht => h.1 (hu ht), h.2.1, h.2.2.1, ih h.2.2.2 (Set.insert_subset_insert hu)⟩

theorem PteOps.Fresh.not_mem {ops : PteOps} {used : Set ℕ} {as : Supply} (h : ops.Fresh used as) :
    ∀ t ∈ supplied as, t ∉ used := by
  induction as generalizing used with
  | nil => simp
  | cons a as ih =>
    cases a with
    | none => simpa using ih h
    | some t =>
      intro s hs
      rcases List.mem_cons.mp hs with hs | hs
      · cases hs
        exact h.1
      · exact fun hu => ih h.2.2.2 s hs (Set.mem_insert_of_mem _ hu)

/-- The addresses of a page share their path. -/
theorem agree_page (ops : PteOps) (va : ℕ) :
    ops.radix.Agree va (va / 4096 * 4096) 3 := fun i _ => by
  change vpn (2 - i) va = vpn (2 - i) (va / 4096 * 4096)
  rw [vpn_eq, vpn_eq, pow_add, ← Nat.div_div_eq_div_mul, ← Nat.div_div_eq_div_mul,
    show (2 : ℕ) ^ 12 = 4096 by decide, Nat.mul_div_cancel _ (by decide)]

/-- Two addresses share their path down to a level if they lie in one region of its size. -/
theorem agree_iff (ops : PteOps) {va va' : ℕ} (h : va < 2 ^ 39) (h' : va' < 2 ^ 39)
    (l : PtLevel) : ops.radix.Agree va va' (2 - l.toNat + 1) ↔
      va / level2size l = va' / level2size l := by
  have h0 : ops.radix.Agree va va' 1 ↔ va / 2 ^ 30 % 512 = va' / 2 ^ 30 % 512 := by
    rw [Radix.Agree.succ_iff, ← vpn_eq 2, ← vpn_eq 2]
    exact ⟨fun h => h.2, fun h => ⟨fun i hi => by omega, h⟩⟩
  have h1 : ops.radix.Agree va va' 2 ↔ ops.radix.Agree va va' 1 ∧
      va / 2 ^ 21 % 512 = va' / 2 ^ 21 % 512 := by
    rw [Radix.Agree.succ_iff, ← vpn_eq 1, ← vpn_eq 1]
    rfl
  have h2 : ops.radix.Agree va va' 3 ↔ ops.radix.Agree va va' 2 ∧
      va / 2 ^ 12 % 512 = va' / 2 ^ 12 % 512 := by
    rw [Radix.Agree.succ_iff, ← vpn_eq 0, ← vpn_eq 0]
    rfl
  cases l <;> simp only [level2size, PtLevel.toNat]
  · rw [h2, h1, h0]
    omega
  · rw [h1, h0]
    omega
  · rw [h0]
    omega

end Multiplix.Vm
