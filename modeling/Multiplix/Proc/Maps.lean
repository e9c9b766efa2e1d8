import Multiplix.Proc.Formed

/-! What forks and faults do to the pages that processes map, over any run. -/
namespace Multiplix.Proc
open Lib Vm

namespace Machine

variable (P : Platform)

/-- What a process maps at a page: its physical address and permissions. -/
def maps (roots : List ℕ) (m : Machine) (l : ℕ × ℕ) : Option (ℕ × Perm) :=
  (m.leaf P roots l).map fun e => (P.ops.pa e, P.ops.perm e)

variable {P} {roots : List ℕ} {o : Owners} {m m' m₀ : Machine} {r r' k p pt child va : ℕ}
  {perm : Perm} {e : Pte} {w : Bool}

theorem maps_of_leaf {roots' : List ℕ} {l l' : ℕ × ℕ} (h : m'.leaf P roots' l' = m.leaf P roots l) :
    m'.maps P roots' l' = m.maps P roots l := congrArg _ h

theorem maps_update {l : ℕ × ℕ}
    (h : m'.leaf P roots = Function.update (m.leaf P roots) l (some e)) :
    m'.maps P roots = Function.update (m.maps P roots) l (some (P.ops.pa e, P.ops.perm e)) := by
  funext l'
  unfold maps
  rw [h]
  by_cases he : l' = l
  · rw [he, Function.update_self, Function.update_self, Option.map_some]
  · rw [Function.update_of_ne he, Function.update_of_ne he]

theorem Shape.leaf_spec (h : m.Shape P roots o) (hl : m.leaf P roots (r, k) = some e) :
    UserEntry P.ops e ∧ P.ops.pa e ∈ o.pages ∧ r ∈ roots ∧ k < 2 ^ 26 ∧
      P.ops.radix.lookup m.tables r (k * 4096) = some (2, e) := by
  have href : m.ref P roots (r, k) = some (P.ops.pa e, (P.ops.perm e).has .w) := by
    rw [ref_eq_leaf, hl, Option.map_some]
  obtain ⟨hp, hr, hk⟩ := h.ref_mem_pages href
  rw [leaf_eq hr hk] at hl
  rcases h.ref_cases hr hk with ⟨hn, -⟩ | ⟨e', he, hp', hlook, -⟩
  · rw [href] at hn
    cases hn
  · rw [hlook, Option.bind_some, if_pos he.valid] at hl
    obtain rfl : e' = e := Option.some.inj hl
    exact ⟨he, hp', hr, hk, hlook⟩

/-- The parent's page is shared with the child, or only becomes read-only. -/
structure Shared (P : Platform) (roots : List ℕ) (r child k : ℕ) (ok : Bool) (m m' : Machine) :
    Prop where
  formed : m'.Formed P roots
  others : ∀ r' ∈ roots, r' ≠ r → r' ≠ child → m.SameTree P m' r'
  high : ∀ r' ∈ roots, ∀ va, va.testBit 38 = true →
    P.ops.radix.lookup m'.tables r' va = P.ops.radix.lookup m.tables r' va
  parent : m'.maps P roots (r, k) = (m.maps P roots (r, k)).map fun x => (x.1, Perm.shared x.2)
  child : m'.maps P roots (child, k) =
    if ok then (m.maps P roots (r, k)).map fun x => (x.1, Perm.urx ||| Perm.cow)
    else m.maps P roots (child, k)
  rest : ∀ k' ≠ k, ∀ r' ∈ roots, m'.maps P roots (r', k') = m.maps P roots (r', k')

theorem Formed.sharePage (h : m.Formed P roots) (hl : m.ref P roots (r, k) = some (p, w))
    {pte : ℕ × ℕ} (hat : m.PteAt P r k pte) (hc : child ∈ roots) (hne : r ≠ child) {ok : Bool}
    (hm : m.sharePage P child ⟨pte, k * 4096, 4096⟩ = (ok, m')) :
    Shared P roots r child k ok m m' := by
  obtain ⟨o, hs⟩ := h.shape
  obtain ⟨e, hle⟩ : ∃ e, m.leaf P roots (r, k) = some e := by
    rw [ref_eq_leaf] at hl
    obtain ⟨e, he, -⟩ := Option.map_eq_some_iff.mp hl
    exact ⟨e, he⟩
  obtain ⟨he, hpage, hr, hk, hlook⟩ := hs.leaf_spec hle
  have hpte : m.tables pte.1 pte.2 = e := by
    rw [hat.lookup, Option.some.injEq, Prod.mk.injEq] at hlook
    exact hlook.2
  obtain ⟨he₁, hpa₁, -⟩ := he.shared
  have hset := (P.ops.setPerm_spec (p := Perm.shared (P.ops.perm e)) he.valid (by
    have hall : ∀ q : Perm, q.has .r = true → (Perm.shared q).has .r = true := by decide
    exact hall _ he.read)).2.2.2
  replace hset : P.ops.perm (P.ops.setPerm e (Perm.shared (P.ops.perm e))) =
    Perm.shared (P.ops.perm e) := hset
  -- first the parent's entry
  let f : Pte → Pte := (P.ops.setPerm · (Perm.shared (P.ops.perm e)))
  obtain ⟨hs₁, hp₁, hsame₁, hat₁, hleaf₁⟩ := hs.setPte_formed h.plain hr hk hat (f := f)
    (by rw [hpte]; exact he₁) (by rw [hpte]; exact hpa₁ ▸ hpage)
  rw [hpte] at hleaf₁
  have hmaps₁ : (m.setPte pte f).maps P roots = Function.update (m.maps P roots) (r, k)
      (some (P.ops.pa e, Perm.shared (P.ops.perm e))) := by
    rw [maps_update hleaf₁, hset]
    exact congrArg (fun q => Function.update (m.maps P roots) (r, k)
      (some (q, Perm.shared (P.ops.perm e)))) hpa₁
  have hself : m.maps P roots (r, k) = some (P.ops.pa e, P.ops.perm e) := by
    unfold maps
    rw [hle, Option.map_some]
  -- then the child's page
  have heq : m.sharePage P child ⟨pte, k * 4096, 4096⟩ =
      (m.setPte pte f).mappg P child (k * 4096) (P.ops.pa e) (Perm.urx ||| Perm.cow) := by
    have huser : (VaMapping.mk pte (k * 4096) 4096).user P.ops m.tables = true := by
      unfold VaMapping.user VaMapping.perm
      dsimp only
      rw [hpte]
      exact he.user
    have hperm : (VaMapping.mk pte (k * 4096) 4096).perm P.ops m.tables = P.ops.perm e := by
      unfold VaMapping.perm
      dsimp only
      rw [hpte]
    have hpa :
        (VaMapping.mk pte (k * 4096) 4096).pa P.ops (m.setPte pte f).tables = P.ops.pa e := by
      have hentry : (m.setPte pte f).tables pte.1 pte.2 = f (m.tables pte.1 pte.2) := by
        simp [Machine.setPte, Radix.write]
      unfold VaMapping.pa
      rw [hentry, hpte]
      exact hpa₁
    rw [Machine.sharePage, if_pos huser]
    dsimp only
    rw [hperm]
    exact congrArg
      (fun q => (m.setPte pte f).mappg P child (k * 4096) q (Perm.urx ||| Perm.cow)) hpa
  rw [heq] at hm
  have hlow : (k * 4096).testBit 38 = false := testBit_of_lt (by omega)
  obtain ⟨hf', hsame'⟩ := hs₁.mappg_formed hp₁ hc hpage (by decide) (by decide) (by decide)
    (fun hb => absurd (hlow.symm.trans hb) Bool.false_ne_true) hm
  have hchild : m'.maps P roots = if ok then Function.update ((m.setPte pte f).maps P roots)
      (child, k) (some (P.ops.pa e, Perm.urx ||| Perm.cow)) else (m.setPte pte f).maps P roots := by
    cases ok with
    | false =>
      obtain ⟨-, -, -, -, -, hleaf⟩ := hs₁.mappg_fail hc hpage (by decide) hm
      funext l
      exact maps_of_leaf (congrFun hleaf l)
    | true =>
      obtain ⟨-, -, -, -, -, e₂, hpa₂, hpe₂, hleaf⟩ := hs₁.mappg hc (by omega) hpage (by decide)
        (by decide) (by decide) hm
      rw [Nat.mul_div_cancel _ (by decide)] at hleaf
      rw [maps_update hleaf, hpa₂, hpe₂]
      rfl
  refine ⟨hf', fun r' hr' hne' hne'' => (hsame₁ r' hr' hne').trans (hsame' r' hr' hne''),
    fun r' hr' va hva => ?_, ?_, ?_, fun k' hk' r' _ => ?_⟩
  · rw [hs₁.mappg_high hc hpage (by decide) (fun _ => hlow) hm hr' hva,
      hs.setPte_high hr hk hat f hr' hva]
  · rw [hchild, hself, Option.map_some]
    split_ifs
    · rw [Function.update_of_ne fun hc => hne (Prod.mk.inj hc).1, hmaps₁, Function.update_self]
    · rw [hmaps₁, Function.update_self]
  · rw [hchild, hself, Option.map_some]
    split_ifs
    · rw [Function.update_self]
    · rw [hmaps₁, Function.update_of_ne fun hc => hne (Prod.mk.inj hc).1.symm]
  · rw [hchild]
    split_ifs
    · rw [Function.update_of_ne fun hc => hk' (Prod.mk.inj hc).2, hmaps₁,
        Function.update_of_ne fun hc => hk' (Prod.mk.inj hc).2]
    · rw [hmaps₁, Function.update_of_ne fun hc => hk' (Prod.mk.inj hc).2]

/-- A process and the child that it made, or that could not be completed. -/
structure Forked (P : Platform) (roots : List ℕ) (r child : ℕ) (ok : Bool) (m m' : Machine) :
    Prop where
  new : child ∉ roots
  formed : m'.Formed P (roots ++ [child])
  others : ∀ r' ∈ roots, r' ≠ r → m.SameTree P m' r'
  high : ∀ va, va.testBit 38 = true →
    P.ops.radix.lookup m'.tables r va = P.ops.radix.lookup m.tables r va
  kernel : ∃ T : PtMem, (∀ i, T child i = 0) ∧ ∀ va, va.testBit 38 = true →
    P.ops.radix.lookup m'.tables child va = P.ops.radix.lookup (P.kernelProcmap T child) child va
  parent : ∀ k, m'.maps P (roots ++ [child]) (r, k) = m.maps P roots (r, k) ∨
    m'.maps P (roots ++ [child]) (r, k) =
      (m.maps P roots (r, k)).map fun x => (x.1, Perm.shared x.2)
  shared : ok = true → ∀ k < userPages, m'.maps P (roots ++ [child]) (r, k) =
    (m.maps P roots (r, k)).map fun x => (x.1, Perm.shared x.2)
  unshared : ok = true → ∀ k, userPages ≤ k →
    m'.maps P (roots ++ [child]) (r, k) = m.maps P roots (r, k)
  child : ok = true → ∀ k, m'.maps P (roots ++ [child]) (child, k) = if k < userPages then
    (m.maps P roots (r, k)).map fun x => (x.1, Perm.urx ||| Perm.cow) else none

theorem Formed.makeFromParent (h : m.Formed P roots) (hr : r ∈ roots) :
    match (m.makeEmpty P).1 with
    | none => (m.makeFromParent P r).2.Formed P roots ∧ (m.makeFromParent P r).1 = none ∧
      ∀ r' ∈ roots, m.SameTree P (m.makeFromParent P r).2 r'
    | some pt => ∃ ok, (m.makeFromParent P r).1 = (if ok then some pt else none) ∧
      Forked P roots r pt ok m (m.makeFromParent P r).2 := by
  unfold Machine.makeFromParent
  rcases he : m.makeEmpty P with ⟨_ | pt, m₀⟩
  · obtain ⟨hsame, hf⟩ := h.makeEmpty he
    exact ⟨hf, rfl, hsame⟩
  obtain ⟨hsame₀, hnew, h₀, hleaf₀, T, hzero, hT⟩ := h.makeEmpty he
  have hr' : r ∈ roots ++ [pt] := List.mem_append_left _ hr
  have hpt : pt ∈ roots ++ [pt] := List.mem_append_right _ (List.mem_singleton_self pt)
  have hne : r ≠ pt := fun he => hnew (he ▸ hr)
  have hmaps₀ (k : ℕ) : m₀.maps P (roots ++ [pt]) (r, k) = m.maps P roots (r, k) :=
    maps_of_leaf ((hsame₀ r hr).leaf hr hr')
  -- the pages below `k` are shared
  let J : ℕ → Machine → Prop := fun k m₂ => m₂.Formed P (roots ++ [pt]) ∧
    (∀ r' ∈ roots ++ [pt], r' ≠ r → r' ≠ pt → m₀.SameTree P m₂ r') ∧
    (∀ r' ∈ roots ++ [pt], ∀ va, va.testBit 38 = true →
      P.ops.radix.lookup m₂.tables r' va = P.ops.radix.lookup m₀.tables r' va) ∧
    (∀ k', m₂.maps P (roots ++ [pt]) (r, k') = if k' < k then
      (m.maps P roots (r, k')).map fun x => (x.1, Perm.shared x.2) else m.maps P roots (r, k')) ∧
    ∀ k', m₂.maps P (roots ++ [pt]) (pt, k') = if k' < k then
      (m.maps P roots (r, k')).map fun x => (x.1, Perm.urx ||| Perm.cow) else none
  let F : Machine → Prop := fun m₂ => m₂.Formed P (roots ++ [pt]) ∧
    (∀ r' ∈ roots ++ [pt], r' ≠ r → r' ≠ pt → m₀.SameTree P m₂ r') ∧
    (∀ r' ∈ roots ++ [pt], ∀ va, va.testBit 38 = true →
      P.ops.radix.lookup m₂.tables r' va = P.ops.radix.lookup m₀.tables r' va) ∧
    ∀ k', m₂.maps P (roots ++ [pt]) (r, k') = m.maps P roots (r, k') ∨
      m₂.maps P (roots ++ [pt]) (r, k') =
        (m.maps P roots (r, k')).map fun x => (x.1, Perm.shared x.2)
  have hrule : LoopRule P (roots ++ [pt]) r (Machine.sharePage P pt) J F := by
    refine ⟨fun hJ => hJ.1.shape, ?_, ?_⟩
    · rintro k m₂ ⟨hf, hothers, hhigh, hparent, hchild⟩ - hl
      have hnone : m.maps P roots (r, k) = none := by
        have hk := hparent k
        rw [if_neg (lt_irrefl k)] at hk
        rw [← hk]
        rw [ref_eq_leaf, Option.map_eq_none_iff] at hl
        unfold maps
        rw [hl, Option.map_none]
      refine ⟨hf, hothers, hhigh, fun k' => ?_, fun k' => ?_⟩
      · rw [hparent]
        rcases Nat.lt_trichotomy k' k with hlt | rfl | hgt
        · rw [if_pos hlt, if_pos (by omega)]
        · rw [hnone, Option.map_none, ite_self, ite_self]
        · rw [if_neg (by omega), if_neg (by omega)]
      · rw [hchild]
        rcases Nat.lt_trichotomy k' k with hlt | rfl | hgt
        · rw [if_pos hlt, if_pos (by omega)]
        · rw [hnone, Option.map_none, ite_self, ite_self]
        · rw [if_neg (by omega), if_neg (by omega)]
    · rintro k m₂ p w pte ⟨hf, hothers, hhigh, hparent, hchild⟩ - hl hat ok m₃ hbody
      have hshare := hf.sharePage hl hat hpt hne hbody
      have hall : ∀ r' ∈ roots ++ [pt], r' ≠ r → r' ≠ pt → m₀.SameTree P m₃ r' :=
        fun r' hr' h1 h2 => (hothers r' hr' h1 h2).trans (hshare.others r' hr' h1 h2)
      have hallhigh : ∀ r' ∈ roots ++ [pt], ∀ va, va.testBit 38 = true →
          P.ops.radix.lookup m₃.tables r' va = P.ops.radix.lookup m₀.tables r' va :=
        fun r' hr' va hva => (hshare.high r' hr' va hva).trans (hhigh r' hr' va hva)
      have hself := hparent k
      rw [if_neg (lt_irrefl k)] at hself
      have hparent' := hshare.parent
      have hchild' := hshare.child
      rw [hself] at hparent' hchild'
      cases ok with
      | false =>
        refine ⟨hshare.formed, hall, hallhigh, fun k' => ?_⟩
        by_cases hk' : k' = k
        · rw [hk']
          exact Or.inr hparent'
        · rw [hshare.rest k' hk' r hr', hparent]
          split_ifs
          · exact Or.inr rfl
          · exact Or.inl rfl
      | true =>
        refine ⟨hshare.formed, hall, hallhigh, fun k' => ?_, fun k' => ?_⟩
        · rcases Nat.lt_trichotomy k' k with hlt | rfl | hgt
          · rw [hshare.rest k' (by omega) r hr', hparent, if_pos hlt, if_pos (by omega)]
          · rw [hparent', if_pos (by omega)]
          · rw [hshare.rest k' (by omega) r hr', hparent, if_neg (by omega), if_neg (by omega)]
        · rcases Nat.lt_trichotomy k' k with hlt | rfl | hgt
          · rw [hshare.rest k' (by omega) pt hpt, hchild, if_pos hlt, if_pos (by omega)]
          · rw [hchild', if_pos rfl, if_pos (by omega)]
          · rw [hshare.rest k' (by omega) pt hpt, hchild, if_neg (by omega), if_neg (by omega)]
  have hstart : J 0 m₀ := by
    refine ⟨h₀, fun r' _ _ _ => .refl m₀ r', fun r' _ va _ => rfl, hmaps₀, fun k' => ?_⟩
    unfold maps
    rw [hleaf₀ k', if_neg (Nat.not_lt_zero k'), Option.map_none]
  have hothers {m₂ : Machine}
      (hs : ∀ r' ∈ roots ++ [pt], r' ≠ r → r' ≠ pt → m₀.SameTree P m₂ r') :
      ∀ r' ∈ roots, r' ≠ r → m.SameTree P m₂ r' := fun r' hr'' hne' =>
    (hsame₀ r' hr'').trans
      (hs r' (List.mem_append_left _ hr'') hne' fun he => hnew (he ▸ hr''))
  dsimp only
  rcases hop : PtIter.opApply P.ops (Machine.sharePage P pt) PtIter.fuel (.get r) m₀ with ⟨ok, m₁⟩
  have hend := hrule.opApply hr' hstart hop
  cases ok with
  | false =>
    obtain ⟨hf, hs, hhigh, hparent⟩ := hend
    refine ⟨false, rfl, hnew, hf, hothers hs, fun va hva => ?_, ⟨T, hzero, fun va hva => ?_⟩,
      hparent, nofun, nofun, nofun⟩
    · rw [hhigh r hr' va hva, (hsame₀ r hr).lookup]
    · rw [hhigh pt hpt va hva, hT]
  | true =>
    obtain ⟨hf, hs, hhigh, hparent, hchild⟩ := hend
    refine ⟨true, rfl, hnew, hf, hothers hs, fun va hva => ?_, ⟨T, hzero, fun va hva => ?_⟩,
      fun k => ?_, fun _ k hk => ?_, fun _ k hk => ?_, fun _ => hchild⟩
    · rw [hhigh r hr' va hva, (hsame₀ r hr).lookup]
    · rw [hhigh pt hpt va hva, hT]
    · rw [hparent]
      split_ifs
      · exact Or.inr rfl
      · exact Or.inl rfl
    · rw [hparent, if_pos hk]
    · rw [hparent, if_neg (by omega)]

/-- A page has become its process's own. -/
structure Owned (P : Platform) (roots : List ℕ) (r k : ℕ) (m m' : Machine) : Prop where
  formed : m'.Formed P roots
  others : ∀ r' ∈ roots, r' ≠ r → m.SameTree P m' r'
  high : ∀ r' ∈ roots, ∀ va, va.testBit 38 = true →
    P.ops.radix.lookup m'.tables r' va = P.ops.radix.lookup m.tables r' va
  page : ∃ p q p', m.maps P roots (r, k) = some (p, q) ∧ q.has .cow = true ∧
    m'.maps P roots = Function.update (m.maps P roots) (r, k) (some (p', Perm.owned q))

/-- The place of a page that is to be copied. -/
structure AtCopy (P : Platform) (r k : ℕ) (pte : ℕ × ℕ) (m : Machine) : Prop where
  lower : k < 2 ^ 26
  place : m.PteAt P r k pte
  entry : UserEntry P.ops (m.tables pte.1 pte.2)
  cow : (P.ops.perm (m.tables pte.1 pte.2)).has .cow = true

theorem AtCopy.frame {pte : ℕ × ℕ} (h : AtCopy P r k pte m) (hs : m.SameTree P m' r) :
    AtCopy P r k pte m' := by
  obtain ⟨hd, hn, -⟩ := Radix.find_eq_some.mp h.place.1
  have ht : m'.tables pte.1 = m.tables pte.1 := hs _ _ _ hd hn
  refine ⟨h.lower, ⟨(hs.find _).trans h.place.1, h.place.2⟩, ?_, ?_⟩
  · rw [ht]
    exact h.entry
  · rw [ht]
    exact h.cow

theorem AtCopy.leaf {pte : ℕ × ℕ} (h : AtCopy P r k pte m) (hr : r ∈ roots) :
    m.leaf P roots (r, k) = some (m.tables pte.1 pte.2) := by
  rw [leaf_eq hr h.lower, h.place.lookup, Option.bind_some, if_pos h.entry.valid]

private theorem has_read : ∀ q : Perm, q.has .r = true →
    (q &&& ~~~Perm.cow ||| Perm.w).has .r = true := by decide

/-- The entry of the page is written at its place. -/
theorem Shape.own (h : m.Shape P roots o) (hp : m.Plain P roots) (hr : r ∈ roots) {pte : ℕ × ℕ}
    (hat : AtCopy P r k pte m) {f : Pte → Pte} {q : ℕ}
    (he : UserEntry P.ops (f (m.tables pte.1 pte.2))) (hq : q ∈ o.pages)
    (hpa : P.ops.pa (f (m.tables pte.1 pte.2)) = q)
    (hperm : P.ops.perm (f (m.tables pte.1 pte.2)) =
      P.ops.perm (m.tables pte.1 pte.2) &&& ~~~Perm.cow ||| Perm.w) :
    Owned P roots r k m (m.setPte pte f) := by
  obtain ⟨hs, hplain, hothers, -, hleaf⟩ := h.setPte_formed hp hr hat.lower hat.place he (hpa ▸ hq)
  refine ⟨⟨⟨o, hs⟩, hplain⟩, hothers,
    fun r' hr' va hva => h.setPte_high hr hat.lower hat.place f hr' hva,
    _, _, q, congrArg _ (hat.leaf hr), hat.cow, ?_⟩
  rw [maps_update hleaf, hpa, hperm, Perm.owned, if_pos hat.cow]

/-- The sole owner of a page takes it over. -/
theorem Formed.takeOver (h : m.Formed P roots) (hr : r ∈ roots) {pte : ℕ × ℕ}
    (hat : AtCopy P r k pte m) : Owned P roots r k m (m.setPte pte
      (P.ops.setPerm · (P.ops.perm (m.tables pte.1 pte.2) &&& ~~~Perm.cow ||| Perm.w))) := by
  obtain ⟨o, hs⟩ := h.shape
  obtain ⟨-, hpage, -⟩ := hs.leaf_spec (hat.leaf hr)
  obtain ⟨he, hpa, -⟩ := hat.entry.writable
  exact hs.own h.plain hr hat he hpage hpa
    (P.ops.setPerm_spec hat.entry.valid (has_read _ hat.entry.read)).2.2.2

/-- A process gets its own copy of a page, unless there is no memory for it. -/
theorem Formed.finishCopy (h : m.Formed P roots) (hr : r ∈ roots) {map : VaMapping}
    (hat : AtCopy P r k map.pte m) {x : Handled} (hm : m.finishCopy P map = (x, m')) :
    (x = .blocked ∧ m'.Formed P roots ∧ m'.tables = m.tables) ∨
      x = .resumed ∧ Owned P roots r k m m' := by
  obtain ⟨o, hs⟩ := h.shape
  unfold Machine.finishCopy at hm
  rcases hk : m.kalloc with ⟨_ | q, m₁⟩
  · rw [hk] at hm
    cases hm
    obtain ⟨⟨o', hs', -⟩, hp', ht⟩ := hs.kalloc_formed h.plain hk
    exact Or.inl ⟨rfl, ⟨⟨o', hs'⟩, hp'⟩, ht⟩
  rw [hk] at hm
  dsimp only at hm
  rw [setPte_setPte] at hm
  cases hm
  obtain ⟨⟨o', hs', hq⟩, hp', ht⟩ := hs.kalloc_formed h.plain hk
  have hqin := hs'.page q (hq q rfl)
  let m₂ : Machine :=
    { m₁ with bytes := m₁.bytes.copy q m₁.bytes (map.pa P.ops m₁.tables) pagesize }
  have hs₂ : m₂.Shape P roots o' := hs'.congr rfl rfl
  have hp₂ : m₂.Plain P roots := hp'
  have hsame : ∀ r', m.SameTree P m₂ r' := fun r' => .of_eq ht r'
  have hat₂ : AtCopy P r k map.pte m₂ := hat.frame (hsame r)
  obtain ⟨he, -, -⟩ := hat₂.entry.writable
  obtain ⟨he', hpa', hperm'⟩ := he.setPa hqin.lt hqin.dvd
  have howned := hs₂.own hp₂ hr hat₂ (f := fun e => P.ops.setPa (P.ops.setPerm e
    (P.ops.perm (m₂.tables map.pte.1 map.pte.2) &&& ~~~Perm.cow ||| Perm.w)) q) he' (hq q rfl) hpa'
    (hperm'.trans (P.ops.setPerm_spec hat₂.entry.valid (has_read _ hat₂.entry.read)).2.2.2)
  have hmaps : m₂.maps P roots = m.maps P roots := funext fun l => maps_of_leaf
    (congrFun (leaf_congr ht) l)
  obtain ⟨p, q', p', hold, hcow, hnew⟩ := howned.page
  refine Or.inr ⟨rfl, howned.formed.congr rfl rfl, fun r' hr' hne => ?_, fun r' hr' va hva => ?_, p,
    q', p', ?_, hcow, ?_⟩
  · have hsame' := (hsame r').trans (howned.others r' hr' hne)
    exact hsame'
  · exact (howned.high r' hr' va hva).trans ((hsame r').lookup va)
  · rw [← hmaps]
    exact hold
  · rw [← hmaps, ← hnew]
    exact funext fun l => maps_of_leaf rfl

/-- What the fault handler does over any run. -/
inductive Faulted (P : Platform) (roots : List ℕ) (r addr : ℕ) (m : Machine) :
    FaultType → Handled × Machine → Prop
  | killed {kind : FaultType} : Faulted P roots r addr m kind (.killed, m)
  | resumed {m' : Machine} : Owned P roots r (page addr) m m' →
      Faulted P roots r addr m .write (.resumed, m')
  | blocked {m' : Machine} {map : VaMapping} : m'.Formed P roots → m'.tables = m.tables →
      P.ops.lookup m.tables r (addr - addr % 4096) = some map → page map.va = page addr →
      AtCopy P r (page addr) map.pte m → Faulted P roots r addr m .write (.blocked, m')

theorem Formed.pgfltHandler (h : m.Formed P roots) (hr : r ∈ roots) (addr : ℕ) (kind : FaultType) :
    Faulted P roots r addr m kind (m.pgfltHandler P r addr kind) := by
  obtain ⟨o, hs⟩ := h.shape
  by_cases hbit : addr.testBit 38 = true
  · -- a page of the kernel's half is never copied
    have hbit' : (addr - addr % 4096).testBit 38 = true := by
      rw [Nat.testBit_eq_decide_div_mod_eq, decide_eq_true_iff] at hbit ⊢
      omega
    unfold Machine.pgfltHandler
    dsimp only
    rcases hlook : P.ops.lookup m.tables r (addr - addr % 4096) with _ | map
    · exact .killed
    dsimp only
    by_cases hbad : map.user P.ops m.tables = false ∨ map.size ≠ pagesize
    · rw [if_pos hbad]
      exact .killed
    rw [if_neg hbad, if_neg]
    · exact .killed
    rintro ⟨-, hcow, -⟩
    rw [PteOps.lookup_eq] at hlook
    obtain ⟨⟨d, t⟩, hfind, hif⟩ := Option.bind_eq_some_iff.mp hlook
    split_ifs at hif
    cases hif
    have hle : d ≤ 2 := (Radix.find_eq_some.mp hfind).1
    obtain rfl : d = 2 := by
      by_contra hd
      refine hbad (Or.inr ?_)
      change level2size (.ofHeight (2 - d)) ≠ _
      rcases (by omega : d = 0 ∨ d = 1) with rfl | rfl <;> decide
    have hno := h.plain r hr _ hbit' (2, m.tables t (P.ops.radix.index 2 (addr - addr % 4096)))
      (by rw [Radix.lookup, hfind]; exact rfl) rfl
    exact absurd (hno.symm.trans hcow) Bool.false_ne_true
  have hlow : addr % 2 ^ 39 < 2 ^ 38 := mod_lt_of_testBit (Bool.not_eq_true _ ▸ hbit)
  rw [pgfltHandler_mod]
  rcases hl : m.ref P roots (r, addr % 2 ^ 39 / 4096) with _ | ⟨p, w⟩
  · rw [hs.pgfltHandler_unmapped hr hlow hl]
    exact .killed
  by_cases hw : kind = .write ∧ w = false
  swap
  · rw [hs.pgfltHandler_killed hl fun hk => Bool.not_eq_false _ ▸ fun hwf => hw ⟨hk, hwf⟩]
    exact .killed
  obtain ⟨rfl, rfl⟩ := hw
  obtain ⟨pte, hat, he, hpa, hwr, hlook⟩ := hs.exists_pteAt hl
  have hcow : AtCopy P r (page addr) pte m := ⟨by unfold page; omega, hat, he, by
    rw [he.cow, hwr]
    rfl⟩
  obtain ⟨pte', perm, hat', -, -, rfl, heq⟩ := hs.pgfltHandler_eq hl
  obtain rfl : pte' = pte := by
    have h1 := hat'.1.symm.trans hat.1
    exact Prod.ext (Prod.mk.inj (Option.some.inj h1)).2 (hat'.2.trans hat.2.symm)
  rw [heq]
  split_ifs with hone
  · exact .resumed (h.takeOver hr hcow)
  have hdrop : (m.dropRef p).Formed P roots := h.congr rfl rfl
  have hdropAt : AtCopy P r (page addr) pte' (m.dropRef p) := hcow.frame (.of_eq rfl r)
  have hcase := @dropRef_finishCopy P ⟨pte', addr - addr % 4096, 4096⟩ m p hpa
  refine (congrArg (Faulted P roots r addr m .write) hcase).mp ?_
  rcases hm : (m.dropRef p).finishCopy P ⟨pte', addr - addr % 4096, 4096⟩ with ⟨x, m'⟩
  rcases hdrop.finishCopy hr hdropAt hm with ⟨rfl, hf, ht⟩ | ⟨rfl, howned⟩
  · refine @Faulted.blocked P roots r addr m m' ⟨pte', addr - addr % 4096, 4096⟩ hf ht ?_ ?_ hcow
    · have hpage : (addr - addr % 4096) % 2 ^ 39 / 4096 = addr % 2 ^ 39 / 4096 := by omega
      exact (lookup_mod _ _ _).trans (congrArg _ (hlook _ hpage))
    · unfold page
      dsimp only
      omega
  · refine .resumed ⟨howned.formed, fun r' hr' hne => ?_, howned.high, ?_⟩
    · have hsame : m.SameTree P (m.dropRef p) r' := .of_eq rfl r'
      exact hsame.trans (howned.others r' hr' hne)
    · obtain ⟨p₁, q, p', hold, hcow', hnew⟩ := howned.page
      exact ⟨p₁, q, p', hold, hcow', hnew⟩

end Machine
end Multiplix.Proc
