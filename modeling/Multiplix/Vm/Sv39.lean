import Multiplix.Vm.Refinement

/-! What the hardware makes of the page tables of `plix.arch.riscv64.vm`. -/
namespace Multiplix.Vm.Riscv64
open Lib

/-- The entry for an address, with the tables of a level and the levels below it. -/
def sv39 (T : PtMem) (va : ℕ) : ℕ → ℕ → Option Pte
  | 0, pt =>
    let pte := T pt (vpn 0 va)
    if Pte.valid pte = true ∧ Pte.leaf pte = true then some pte else none
  | level + 1, pt =>
    let pte := T pt (vpn (level + 1) va)
    if Pte.valid pte = false then none
    else if Pte.leaf pte = true then some pte
    else sv39 T va level (Pte.pa pte)

/-- The address lies in a page that is mapped for users. -/
def UserMapped (T : PtMem) (root va : ℕ) : Prop := ∃ pte ∈ sv39 T va 2 root, Pte.user pte = true

/-- Page tables made by any calls, of which some may have found no memory, where the allocator
answers pages. -/
inductive Built (root : ℕ) : PtMem → Prop
  | init {T : PtMem} : (∀ i, T root i = 0) → Built root T
  | map {T T' : PtMem} {va pa : ℕ} {pgtyp : PtLevel} {perm : Perm} {as rest : Supply} {ok : Bool} :
      Built root T → perm &&& Perm.rwx ≠ 0 → (∀ t, some t ∈ as → t < 2 ^ 56 ∧ 4096 ∣ t) →
      pteOps.map T root va pa pgtyp perm as = (ok, T', rest) → Built root T'
  | mapGiga {T : PtMem} {va pa : ℕ} {perm : Perm} : Built root T → perm &&& Perm.rwx ≠ 0 →
      Built root (mapGiga T root va pa perm)

/-- What is written in a table is an entry that is valid, and a leaf or a link. -/
def Sound (T : PtMem) (used : Set ℕ) : Prop :=
  ∀ t ∈ used, ∀ i, T t i = 0 ∨
    Pte.valid (T t i) = true ∧ (Pte.leaf (T t i) = true ∨ Pte.pa (T t i) ∈ used)

variable {T T' : PtMem} {used : Set ℕ} {root va va' pt t i level : ℕ} {e : Pte}

theorem vpn_page (h : va / 4096 = va' / 4096) : vpn level va = vpn level va' := by
  have hdiv (a : ℕ) : a / 2 ^ (12 + 9 * level) = a / 4096 / 2 ^ (9 * level) := by
    rw [Nat.pow_add, Nat.div_div_eq_div_mul]
  rw [vpn_eq, vpn_eq, hdiv, hdiv, h]

/-- The addresses of a page have the same entry. -/
theorem sv39_page (h : va / 4096 = va' / 4096) : sv39 T va level pt = sv39 T va' level pt := by
  induction level generalizing pt with
  | zero => rw [sv39, sv39, vpn_page h]
  | succ level ih => rw [sv39, sv39, vpn_page h, ih]

theorem userMapped_page (h : va / 4096 = va' / 4096) :
    UserMapped T root va ↔ UserMapped T root va' := by
  unfold UserMapped
  rw [sv39_page h]

theorem perm_user (e : Pte) : (Pte.perm e).has .u = Pte.user e := by
  have hall : ∀ r w x u c : Bool, (((((Perm.init.addIf .r r).addIf .w w).addIf .x x).addIf .u
      u).addIf .cow c).has .u = u := by decide
  exact hall _ _ _ _ _

namespace Sound

theorem write (h : Sound T used) (hv : Pte.valid e = true)
    (he : Pte.leaf e = true ∨ Pte.pa e ∈ used) : Sound (Radix.write T t i e) used := by
  intro t' ht' i'
  unfold Radix.write
  by_cases htt : t' = t
  · subst htt
    rw [Function.update_self]
    by_cases hii : i' = i
    · rw [hii, Function.update_self]
      exact Or.inr ⟨hv, he⟩
    · rw [Function.update_of_ne hii]
      exact h t' ht' i'
  · rw [Function.update_of_ne htt]
    exact h t' ht' i'

theorem valid_of_leaf (h : Sound T used) (ht : t ∈ used) (hl : Pte.leaf (T t i) = true) :
    Pte.valid (T t i) = true := by
  rcases h t ht i with hzero | ⟨hv, -⟩
  · rw [hzero] at hl
    exact absurd hl (by decide)
  · exact hv

theorem pa_mem (h : Sound T used) (ht : t ∈ used) (hv : Pte.valid (T t i) = true)
    (hl : Pte.leaf (T t i) = false) : Pte.pa (T t i) ∈ used := by
  rcases h t ht i with hzero | ⟨-, hc⟩
  · rw [hzero] at hv
    exact absurd hv (by decide)
  · exact hc.resolve_left (Bool.eq_false_iff.mp hl)

/-- A new table is empty. -/
theorem clear (h : Sound T used) (t : ℕ) :
    Sound (Function.update T t fun _ => 0) (insert t used) := by
  intro t' ht' i'
  by_cases htt : t' = t
  · rw [htt, Function.update_self]
    exact Or.inl rfl
  · rw [Function.update_of_ne htt]
    have hused : t' ∈ used := ht'.resolve_left htt
    exact (h t' hused i').imp_right fun ⟨hv, hl⟩ => ⟨hv, hl.imp_right (Set.mem_insert_of_mem t)⟩

/-- A walk ends at a table that is in use, or that it has made. -/
theorem walkLoop (va : ℕ) (endlevel : PtLevel) (level : ℕ) (h : Sound T used) (hpt : pt ∈ used)
    {as : Supply} (has : ∀ t, some t ∈ as → t < 2 ^ 56 ∧ 4096 ∣ t) :
    ∃ used', used ⊆ used' ∧ Sound (pteOps.walkLoop va endlevel level pt T as).mem used' ∧
      ∀ x ∈ (pteOps.walkLoop va endlevel level pt T as).pte, x.1 ∈ used' := by
  induction level generalizing pt T as used with
  | zero =>
    refine ⟨used, subset_rfl, h, fun x hx => ?_⟩
    cases hx
    exact hpt
  | succ level ih =>
    rw [PteOps.walkLoop]
    dsimp only
    split_ifs with hlevel hstops hvalid
    · refine ⟨used, subset_rfl, h, fun x hx => ?_⟩
      cases hx
      exact hpt
    · exact ih h (h.pa_mem hpt hvalid (Bool.eq_false_iff.mpr hstops)) has
    · rcases as with _ | ⟨_ | t, as⟩
      · exact ⟨used, subset_rfl, h, fun x hx => absurd hx (Option.not_mem_none x)⟩
      · exact ⟨used, subset_rfl, h, fun x hx => absurd hx (Option.not_mem_none x)⟩
      · obtain ⟨hlt, hal⟩ := has t List.mem_cons_self
        have hclear := h.clear t
        have hold :
            Pte.leaf (Function.update T t (fun _ => 0) pt (vpn (level + 1) va)) = false := by
          by_cases htt : pt = t
          · rw [htt, Function.update_self]
            decide
          · rw [Function.update_of_ne htt]
            exact Bool.eq_false_iff.mpr hstops
        obtain ⟨-, hv, hpa⟩ := Riscv64.link_spec hold hlt hal
        have hmem : t ∈ insert t used := Set.mem_insert t used
        have hlink : Sound (Radix.write (Function.update T t fun _ => 0) pt (vpn (level + 1) va)
            (Pte.link (Function.update T t (fun _ => 0) pt (vpn (level + 1) va)) t))
            (insert t used) :=
          hclear.write hv (Or.inr (by rwa [hpa]))
        obtain ⟨used', hsub, hrest⟩ := ih hlink hmem
          fun t' ht' => has t' (List.mem_cons_of_mem _ ht')
        exact ⟨used', (Set.subset_insert t used).trans hsub, hrest⟩
    · refine ⟨used, subset_rfl, h, fun x hx => ?_⟩
      cases hx
      exact hpt

theorem map (h : Sound T used) (hroot : root ∈ used) {pa : ℕ} {pgtyp : PtLevel} {perm : Perm}
    (hp : perm &&& Perm.rwx ≠ 0) {as rest : Supply}
    (has : ∀ t, some t ∈ as → t < 2 ^ 56 ∧ 4096 ∣ t) {ok : Bool}
    (hm : pteOps.map T root va pa pgtyp perm as = (ok, T', rest)) :
    ∃ used', root ∈ used' ∧ Sound T' used' := by
  obtain ⟨used', hsub, hs, hmem⟩ := h.walkLoop va pgtyp PtLevel.giga.toNat hroot has
  unfold PteOps.map PteOps.walk at hm
  dsimp only at hm
  refine ⟨used', hsub hroot, ?_⟩
  rcases hpte : (pteOps.walkLoop va pgtyp PtLevel.giga.toNat root T as).pte with _ | ⟨t, i⟩ <;>
    rw [hpte] at hm <;> cases hm
  · exact hs
  · exact hs.write Riscv64.valid_mapped (Or.inl (Riscv64.leaf_mapped hp))

theorem walkLoop_entry (h : Sound T used) (hpt : pt ∈ used) :
    ((pteOps.walkLoop va .normal level pt T []).pte.bind fun x =>
      if Pte.leaf (T x.1 x.2) = true then some (T x.1 x.2) else none) = sv39 T va level pt := by
  induction level generalizing pt with
  | zero =>
    rw [PteOps.walkLoop, sv39]
    change (if Pte.leaf (T pt (vpn 0 va)) = true then some (T pt (vpn 0 va)) else none) = _
    by_cases hl : Pte.leaf (T pt (vpn 0 va)) = true
    · rw [if_pos hl, if_pos ⟨h.valid_of_leaf hpt hl, hl⟩]
    · rw [if_neg hl, if_neg fun hc => hl hc.2]
  | succ level ih =>
    have hdown : level + 1 > PtLevel.normal.toNat := Nat.succ_pos level
    rw [PteOps.walkLoop, sv39, if_pos hdown]
    dsimp only
    cases hl : Pte.leaf (T pt (vpn (level + 1) va)) with
    | true =>
      have hstops : pteOps.stops (T pt (vpn (level + 1) va)) = true := hl
      rw [if_pos hstops, h.valid_of_leaf hpt hl]
      exact if_pos hl
    | false =>
      have hstops : pteOps.stops (T pt (vpn (level + 1) va)) = false := hl
      cases hv : Pte.valid (T pt (vpn (level + 1) va)) with
      | true =>
        have hops : pteOps.valid (T pt (vpn (level + 1) va)) = true := hv
        rw [hstops, hops]
        exact ih (h.pa_mem hpt hv hl)
      | false =>
        have hops : pteOps.valid (T pt (vpn (level + 1) va)) = false := hv
        rw [hstops, hops]
        rfl

/-- The hardware finds the entry that `lookup` finds. -/
theorem lookup_entry (h : Sound T used) (hroot : root ∈ used) (va : ℕ) :
    (pteOps.lookup T root va).map (fun m => T m.pte.1 m.pte.2) = sv39 T va 2 root := by
  rw [← h.walkLoop_entry hroot]
  unfold PteOps.lookup PteOps.walk
  dsimp only [PtLevel.toNat]
  rcases (pteOps.walkLoop va .normal 2 root T []).pte with _ | ⟨t, i⟩
  · rfl
  · rw [Option.bind_some]
    dsimp only
    by_cases hl : Pte.leaf (T t i) = true
    · rw [if_pos hl]
      exact congrArg (Option.map _) (if_pos hl)
    · rw [if_neg hl]
      exact congrArg (Option.map _) (if_neg hl)

theorem lookup_user (h : Sound T used) (hroot : root ∈ used) (va : ℕ) :
    (∃ m ∈ pteOps.lookup T root va, m.user pteOps T = true) ↔ UserMapped T root va := by
  unfold UserMapped
  rw [← h.lookup_entry hroot]
  constructor
  · rintro ⟨m, hm, hu⟩
    exact ⟨_, Option.mem_map_of_mem _ hm, (perm_user _).symm.trans hu⟩
  · rintro ⟨pte, hpte, hu⟩
    obtain ⟨m, hm, rfl⟩ := Option.mem_map.mp hpte
    exact ⟨m, hm, (perm_user _).trans hu⟩

end Sound

/-- Every page table is sound. -/
theorem Built.sound (h : Built root T) : ∃ used, root ∈ used ∧ Sound T used := by
  induction h with
  | init hzero =>
    refine ⟨{root}, rfl, fun t ht i => Or.inl ?_⟩
    rw [Set.mem_singleton_iff.mp ht]
    exact hzero i
  | map _ hp has hm ih =>
    obtain ⟨used, hroot, hs⟩ := ih
    exact hs.map hroot hp has hm
  | mapGiga _ hp ih =>
    obtain ⟨used, hroot, hs⟩ := ih
    exact hs.map hroot hp (fun t ht => absurd ht List.not_mem_nil) (mapGiga_eq _ _ _ _ _ [])

end Multiplix.Vm.Riscv64
