import Multiplix.Proc.Inv

/-! `make_from_parent`: the iteration over the pages of the parent, and what it shares. -/
namespace Multiplix.Proc
open Lib Vm

/-- The pages that a user process can access. -/
def userPages : ℕ := maxVa / pagesize

theorem maxVa_eq : maxVa = userPages * 4096 := by decide

theorem userPages_lt : userPages < 2 ^ 26 := by decide

namespace Machine

variable {P : Platform} {roots : List ℕ} {o : Owners} {m m' : Machine} {r k p n j child : ℕ}
  {w : Bool} {x : Option (ℕ × ℕ)}

namespace Shape

variable (h : m.Shape P roots o) (hr : r ∈ roots)
include h hr

theorem advance_none (hk : k < userPages) (hl : m.ref P roots (r, k) = none) :
    PtIter.advance P.ops m.tables ⟨k * 4096, x, r⟩ = some ⟨(k + 1) * 4096, none, r⟩ := by
  have hm := maxVa_eq
  have hlt := userPages_lt
  have hnext : k * 4096 + 4096 = (k + 1) * 4096 := by omega
  have hkva : k * 4096 < maxVa := by omega
  rw [PtIter.advance, if_neg hkva.not_ge]
  dsimp only
  rcases h.ref_cases hr (k := k) (by omega) with ⟨-, hlook⟩ | ⟨e, -, -, -, href⟩
  · rw [Radix.lookup] at hlook
    cases hf : P.ops.radix.find m.tables r (k * 4096) with
    | none =>
      rw [PteOps.walk_of_find_none hf]
      exact congrArg some (by rw [← hnext]; rfl)
    | some y =>
      obtain ⟨d, t⟩ := y
      rw [hf] at hlook
      simp only [Option.map_some, reduceCtorEq, Option.some.injEq, Prod.mk.injEq,
        false_or] at hlook
      obtain ⟨rfl, h0⟩ := hlook
      replace h0 : m.tables t (vpn (2 - 2) (k * 4096)) = 0 := h0
      obtain ⟨hw, hlev⟩ := PteOps.walk_of_find hf
      rw [hw, hlev]
      dsimp only
      rw [if_pos (Or.inr (by rw [h0, P.ops.valid_zero]))]
      exact congrArg some (by rw [← hnext]; rfl)
  · rw [href] at hl
    cases hl

omit hr in
theorem advance_some (hk : k < userPages) (hl : m.ref P roots (r, k) = some (p, w)) :
    ∃ pte, m.PteAt P r k pte ∧
      PtIter.advance P.ops m.tables ⟨k * 4096, x, r⟩ = some ⟨(k + 1) * 4096, some pte, r⟩ := by
  have hm := maxVa_eq
  have hnext : k * 4096 + 4096 = (k + 1) * 4096 := by omega
  have hkva : k * 4096 < maxVa := by omega
  obtain ⟨⟨t, i⟩, hat, he, -⟩ := h.exists_pteAt hl
  have ⟨hf, hi⟩ : P.ops.radix.find m.tables r (k * 4096) = some (2, t) ∧
    i = vpn 0 (k * 4096) := hat
  obtain ⟨hw, hlev⟩ := PteOps.walk_of_find hf
  refine ⟨(t, i), hat, ?_⟩
  rw [PtIter.advance, if_neg hkva.not_ge]
  dsimp only
  rw [hw, hlev]
  dsimp only
  rw [show 2 - 2 = 0 from rfl, ← hi, if_neg (by simp [he.valid, PtLevel.ofHeight])]
  exact congrArg some (by rw [← hnext]; rfl)

/-- The iterator goes on to the next page that is mapped. -/
theorem next_eq (hj : j ≤ userPages) (hn : userPages - j < n) :
    (PtIter.next P.ops m.tables n ⟨j * 4096, x, r⟩ = none ∧
      ∀ i, j ≤ i → i < userPages → m.ref P roots (r, i) = none) ∨
    ∃ k pte, j ≤ k ∧ k < userPages ∧ (∀ i, j ≤ i → i < k → m.ref P roots (r, i) = none) ∧
      (∃ p w, m.ref P roots (r, k) = some (p, w)) ∧ m.PteAt P r k pte ∧
      PtIter.next P.ops m.tables n ⟨j * 4096, x, r⟩ =
        some (⟨pte, k * 4096, 4096⟩, ⟨(k + 1) * 4096, some pte, r⟩) := by
  induction n generalizing j x with
  | zero => omega
  | succ n ih =>
    have hm := maxVa_eq
    rw [PtIter.next]
    rcases Nat.eq_or_lt_of_le hj with rfl | hlt
    · rw [PtIter.advance, if_pos (by simp only [hm, ge_iff_le, le_refl])]
      exact Or.inl ⟨rfl, fun i h1 h2 => by omega⟩
    cases hl : m.ref P roots (r, j) with
    | none =>
      rw [h.advance_none hr hlt hl]
      dsimp only
      have hcons : ∀ {k}, (∀ i, j + 1 ≤ i → i < k → m.ref P roots (r, i) = none) →
          ∀ i, j ≤ i → i < k → m.ref P roots (r, i) = none := fun hrest i h1 h2 => by
        rcases Nat.eq_or_lt_of_le h1 with rfl | h1
        · exact hl
        · exact hrest i h1 h2
      rcases ih (x := none) (by omega : j + 1 ≤ userPages) (by omega) with
        ⟨heq, hrest⟩ | ⟨k, pte, h1, h2, hrest, hp, hat, heq⟩
      · exact Or.inl ⟨heq, hcons hrest⟩
      · exact Or.inr ⟨k, pte, by omega, h2, hcons hrest, hp, hat, heq⟩
    | some y =>
      obtain ⟨pte, hat, hadv⟩ := h.advance_some (x := x) (p := y.1) (w := y.2) hlt hl
      rw [hadv]
      exact Or.inr ⟨j, pte, le_rfl, hlt, fun i h1 h2 => by omega, ⟨y.1, y.2, hl⟩, hat, rfl⟩

end Shape

/-- A loop over the mapped pages of a process: `J k` holds before page `k`, and `F` after a page at
which the body stops the loop. -/
structure LoopRule (P : Platform) (roots : List ℕ) (r : ℕ)
    (body : VaMapping → Machine → Bool × Machine) (J : ℕ → Machine → Prop) (F : Machine → Prop) :
    Prop where
  shape : ∀ {k m}, J k m → ∃ o, m.Shape P roots o
  skip : ∀ {k m}, J k m → k < userPages → m.ref P roots (r, k) = none → J (k + 1) m
  turn : ∀ {k m p w pte}, J k m → k < userPages → m.ref P roots (r, k) = some (p, w) →
    m.PteAt P r k pte → ∀ {ok m'}, body ⟨pte, k * 4096, 4096⟩ m = (ok, m') →
    if ok then J (k + 1) m' else F m'

namespace LoopRule

variable {body : VaMapping → Machine → Bool × Machine} {J : ℕ → Machine → Prop}
  {F : Machine → Prop}

private theorem skips (h : LoopRule P roots r body J F) (hJ : J j m) (hjk : j ≤ k)
    (hk : k ≤ userPages) (hno : ∀ i, j ≤ i → i < k → m.ref P roots (r, i) = none) : J k m := by
  induction k, hjk using Nat.le_induction with
  | base => exact hJ
  | succ k hjk ih =>
    exact h.skip (ih (by omega) fun a h1 h2 => hno a h1 (by omega)) (by omega)
      (hno k hjk (by omega))

private theorem run (h : LoopRule P roots r body J F) (hr : r ∈ roots) (hj : j ≤ userPages)
    (hn : userPages - j < n) (hJ : J j m) {ok : Bool}
    (hm : PtIter.opApply P.ops body n ⟨j * 4096, x, r⟩ m = (ok, m')) :
    if ok then J userPages m' else F m' := by
  induction n generalizing j x m with
  | zero => omega
  | succ n ih =>
    obtain ⟨o, hs⟩ := h.shape hJ
    rw [PtIter.opApply] at hm
    have hfuel : userPages - j < PtIter.fuel := by
      rw [PtIter.fuel, ← userPages]
      omega
    rcases hs.next_eq hr (x := x) hj hfuel with
      ⟨heq, hno⟩ | ⟨k, pte, h1, h2, hno, ⟨p, w, hl⟩, hat, heq⟩
    · rw [heq] at hm
      cases hm
      exact h.skips hJ hj le_rfl hno
    · rw [heq] at hm
      dsimp only at hm
      rcases hb : body ⟨pte, k * 4096, 4096⟩ m with ⟨b, m₁⟩
      have hnext := h.turn (h.skips hJ h1 h2.le hno) h2 hl hat hb
      rw [hb] at hm
      cases b with
      | false =>
        cases hm
        exact hnext
      | true => exact ih (by omega : k + 1 ≤ userPages) (by omega) hnext hm

theorem opApply (h : LoopRule P roots r body J F) (hr : r ∈ roots) (hJ : J 0 m) {ok : Bool}
    (hm : PtIter.opApply P.ops body PtIter.fuel (.get r) m = (ok, m')) :
    if ok then J userPages m' else F m' := by
  refine h.run (j := 0) (x := none) (n := PtIter.fuel) hr (Nat.zero_le _) ?_ hJ ?_
  · rw [PtIter.fuel, ← userPages]
    omega
  · rw [Nat.zero_mul]
    exact hm

end LoopRule

/-- The parent's page becomes read-only before the child maps it. -/
theorem Shape.sharePage_eq (h : m.Shape P roots o) (hl : m.ref P roots (r, k) = some (p, w))
    {pte : ℕ × ℕ} (hat : m.PteAt P r k pte) (child : ℕ) : ∃ perm,
      m.sharePage P child ⟨pte, k * 4096, 4096⟩ =
        (m.setPte pte (P.ops.setPerm · perm)).mappg P child (k * 4096) p (Perm.urx ||| Perm.cow) ∧
      (m.setPte pte (P.ops.setPerm · perm)).Shape P roots o ∧
      (m.setPte pte (P.ops.setPerm · perm)).ref P roots =
        Function.update (m.ref P roots) (r, k) (some (p, false)) := by
  obtain ⟨hpage, hr, hk⟩ := h.ref_mem_pages hl
  obtain ⟨he, hpa⟩ := h.pteAt_spec hl hat
  obtain ⟨hsh, hpash, hwsh⟩ := he.shared
  have huser : (VaMapping.mk pte (k * 4096) 4096).user P.ops m.tables = true := he.user
  refine ⟨P.ops.perm (m.tables pte.1 pte.2) &&& ~~~Perm.w ||| Perm.cow, ?_⟩
  obtain ⟨hs, -, hleaf⟩ := h.setPte hr hk hat
    (f := (P.ops.setPerm · (P.ops.perm (m.tables pte.1 pte.2) &&& ~~~Perm.w ||| Perm.cow))) hsh
    (by rwa [hpash, hpa])
  have href := ref_update hleaf
  rw [hpash, hpa, hwsh] at href
  refine ⟨?_, hs, href⟩
  have hentry : (VaMapping.mk pte (k * 4096) 4096).pa P.ops (m.setPte pte
      (P.ops.setPerm · (P.ops.perm (m.tables pte.1 pte.2) &&& ~~~Perm.w ||| Perm.cow))).tables =
        p := by
    simp [VaMapping.pa, Machine.setPte, Radix.write, hpash, hpa]
  rw [Machine.sharePage, if_pos huser]
  change Machine.mappg P (m.setPte pte _) child (k * 4096)
    ((VaMapping.mk pte (k * 4096) 4096).pa P.ops (m.setPte pte _).tables) _ = _
  rw [← hentry]
  rfl

/-- One page of the parent is shared with the child. -/
theorem Inv.sharePage (h : m.Inv P roots o) (hl : m.ref P roots (r, k) = some (p, w))
    {pte : ℕ × ℕ} (hat : m.PteAt P r k pte) (hc : child ∈ roots)
    (hl' : m.ref P roots (child, k) = none)
    (hm : m.sharePage P child ⟨pte, k * 4096, 4096⟩ = (true, m')) :
    (∃ o', m'.Inv P roots o') ∧ m'.bytes = m.bytes ∧
      m'.refcnt = Function.update m.refcnt (p / 4096) (m.refcnt (p / 4096) + 1) ∧
      m'.ref P roots = Function.update (Function.update (m.ref P roots) (r, k) (some (p, false)))
        (child, k) (some (p, false)) := by
  obtain ⟨hpage, hr, hk⟩ := h.shape.ref_mem_pages hl
  obtain ⟨perm, heq, hs₁, href₁⟩ := h.shape.sharePage_eq hl hat child
  rw [heq] at hm
  obtain ⟨c, hs, hheap, hbytes, hcnt, e, hpa, hpe, hleaf⟩ := hs₁.mappg hc (by omega) hpage
    (by decide : (Perm.urx ||| Perm.cow).has .r = true) (by decide) (by decide) hm
  have href := ref_update hleaf
  rw [hpa, hpe, Nat.mul_div_cancel _ (by decide), href₁,
    show (Perm.urx ||| Perm.cow).has .w = false by decide] at href
  have hle := h.count_le hl
  have hnpgs := P.npgs_lt
  have hcnt' : m'.refcnt = Function.update m.refcnt (p / 4096) (m.refcnt (p / 4096) + 1) := by
    have hmod : (m.refcnt (p / 4096) + 1) % 2 ^ 32 = m.refcnt (p / 4096) + 1 :=
      Nat.mod_eq_of_lt (by omega)
    rw [hcnt, ← hmod]
    rfl
  refine ⟨⟨_, hs, h.counted.share hl hl' rfl href fun q hq => ?_, fun t ht => ?_⟩, hbytes, hcnt',
    href⟩
  · change m'.refcnt (q / 4096) = if q = p then m.refcnt (p / 4096) + 1 else m.refcnt (q / 4096)
    obtain ⟨l, _, hlq⟩ := hq
    have hqp := (hs.ref_mem_pages hlq).1
    rw [hcnt']
    split_ifs with he
    · rw [he, Function.update_self]
    · exact Function.update_of_ne (hs.div_ne hqp (h.shape.page p hpage).dvd he) ..
  · have hht : some t ∈ m.heap := by
      rw [show m.heap = c ++ m'.heap from hheap]
      exact List.mem_append_right _ ht
    have htp : t ≠ p := fun he => h.shape.fresh.not_mem t hht (Or.inr (he ▸ hpage))
    have := (h.shape.avail t hht).dvd
    have := (h.shape.page p hpage).dvd
    rw [hcnt', Function.update_of_ne (by omega)]
    exact h.zero t hht

/-- The child sees the pages of its parent, and every other process sees what it saw. -/
theorem Inv.makeFromParent (h : m.Inv P roots o) (hr : r ∈ roots)
    (hm : m.makeFromParent P r = (some child, m')) :
    child ∉ roots ∧ (∃ o', m'.Inv P (roots ++ [child]) o') ∧
      (∀ r' ∈ roots, ∀ va, m'.seen P (roots ++ [child]) r' va = m.seen P roots r' va) ∧
      ∀ va < maxVa, m'.seen P (roots ++ [child]) child va = m.seen P roots r va := by
  rw [Machine.makeFromParent] at hm
  rcases hme : m.makeEmpty P with ⟨_ | pt, m₀⟩
  · rw [hme] at hm
    cases hm
  rw [hme] at hm
  dsimp only at hm
  obtain ⟨o₀, hi₀, hnew, href₀, hb₀⟩ := h.makeEmpty hme
  rcases hop : PtIter.opApply P.ops (Machine.sharePage P pt) PtIter.fuel (.get r) m₀ with
    ⟨_ | _, m₁⟩
  · rw [hop] at hm
    cases hm
  rw [hop] at hm
  obtain ⟨rfl, rfl⟩ : pt = child ∧ m₁ = m' := by simpa using hm
  have hne : ∀ {k k' : ℕ}, (r, k) ≠ (pt, k') := fun he => hnew (by cases he; exact hr)
  have hchild : ∀ k, m₀.ref P (roots ++ [pt]) (pt, k) = none := fun k => by
    rw [href₀]
    exact if_neg fun hc => hnew hc.1
  -- which pages the child has so far; the parent's may have become read-only
  let J : ℕ → Machine → Prop := fun k m₂ => (∃ o', m₂.Inv P (roots ++ [pt]) o') ∧
    m₂.bytes = m.bytes ∧ (∀ l : ℕ × ℕ, l.1 ≠ pt →
      (m₂.ref P (roots ++ [pt]) l).map Prod.fst = (m.ref P roots l).map Prod.fst) ∧
    (∀ k', k ≤ k' → m₂.ref P (roots ++ [pt]) (pt, k') = none) ∧
    ∀ k' < k, (m₂.ref P (roots ++ [pt]) (pt, k')).map Prod.fst =
      (m.ref P roots (r, k')).map Prod.fst
  have hstart : J 0 m₀ := ⟨⟨_, hi₀⟩, hb₀, fun l _ => by rw [href₀], fun k _ => hchild k,
    fun k hk => by omega⟩
  have hrule : LoopRule P (roots ++ [pt]) r (Machine.sharePage P pt) J fun _ => True := by
    refine ⟨fun hJ => ⟨_, hJ.1.choose_spec.shape⟩, ?_, ?_⟩
    · rintro k m₂ ⟨hi, hb, hold, hnone, hdone⟩ hk hl
      refine ⟨hi, hb, hold, fun k' hk' => hnone k' (by omega), fun k' hk' => ?_⟩
      rcases Nat.lt_succ_iff_lt_or_eq.mp hk' with hk' | rfl
      · exact hdone k' hk'
      · rw [hnone k' le_rfl, ← hold (r, k') fun he => hnew (he ▸ hr), hl]
    · rintro k m₂ p w pte ⟨⟨o', hi⟩, hb, hold, hnone, hdone⟩ hk hl hat (_ | _) m₃ hbody
      · trivial
      obtain ⟨hi', hb', -, href⟩ := hi.sharePage hl hat
        (List.mem_append_right _ (List.mem_singleton_self _)) (hnone k le_rfl) hbody
      have hlold := hold (r, k) fun he => hnew (he ▸ hr)
      rw [hl] at hlold
      refine ⟨hi', hb'.trans hb, fun l hlpt => ?_, fun k' hk' => ?_, fun k' hk' => ?_⟩
      · rw [href, Function.update_of_ne fun he => hlpt (by rw [he])]
        rw [← hold l hlpt]
        by_cases hlr : l = (r, k)
        · rw [hlr, Function.update_self, hl]
          rfl
        · rw [Function.update_of_ne hlr]
      · rw [href, Function.update_of_ne fun he => by cases he; omega,
          Function.update_of_ne fun he => hne he.symm]
        exact hnone k' (by omega)
      · rw [href]
        by_cases hkk : k' = k
        · rw [hkk, Function.update_self, ← hlold]
          rfl
        · rw [Function.update_of_ne fun he => hkk (by cases he; rfl),
            Function.update_of_ne fun he => hne he.symm]
          exact hdone k' (by omega)
  have hend : J userPages m₁ := hrule.opApply (List.mem_append_left _ hr) hstart hop
  obtain ⟨hi, hb, hold, -, hdone⟩ := hend
  have hseen : ∀ {r₁ r₂ va}, (m₁.ref P (roots ++ [pt]) (r₁, va / 4096)).map Prod.fst =
      (m.ref P roots (r₂, va / 4096)).map Prod.fst →
      m₁.seen P (roots ++ [pt]) r₁ va = m.seen P roots r₂ va := fun {r₁ r₂ va} he => by
    have hmap : ∀ y : Option (ℕ × Bool), y.map (fun x => m.bytes (x.1 + va % 4096)) =
        (y.map Prod.fst).map fun p => m.bytes (p + va % 4096) := fun y => by cases y <;> rfl
    rw [seen, seen, hb, hmap, hmap, he]
  refine ⟨hnew, hi, fun r' hr' va => hseen (hold _ fun he => hnew (he ▸ hr')), fun va hva =>
    hseen (hdone _ ?_)⟩
  have := maxVa_eq
  omega

end Machine
end Multiplix.Proc
