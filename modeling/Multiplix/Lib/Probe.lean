import Mathlib.Data.Finset.Max
import Mathlib.Data.Set.Card

/-! Tables with linear probing: a key is in the first free slot from its home on, with wrap-around.
When a key is removed, the rest of its cluster has to be put again. -/
namespace Lib

variable {K V : Type*}

/-- On the way from slot `h` to slot `i`, round the end of the table if need be, comes `x`. -/
def Before (h x i : ℕ) : Prop := h ≤ x ∧ x < i ∨ i < h ∧ (h ≤ x ∨ x < i)

/-- How far it is from slot `i` to slot `e` in a table of size `n`. -/
def slotsTo (n i e : ℕ) : ℕ := if i ≤ e then e - i else e + n - i

def nextSlot (n i : ℕ) : ℕ := if n ≤ i + 1 then 0 else i + 1

/-- No key is there twice, and the slots from the home of a key to its slot are taken. -/
structure Probed (n : ℕ) (home : K → ℕ) (T : ℕ → Option (K × V)) : Prop where
  path : ∀ {i k v x}, i < n → T i = some (k, v) → x < n → Before (home k) x i → T x ≠ none
  inj : ∀ {i j k v w}, i < n → j < n → T i = some (k, v) → T j = some (k, w) → i = j

def content (n : ℕ) (T : ℕ → Option (K × V)) : Set (K × V) := {e | ∃ i < n, T i = some e}

/-- How many slots are taken. -/
def taken (n : ℕ) (T : ℕ → Option (K × V)) : ℕ :=
  ((Finset.range n).filter fun i => (T i).isSome).card

/-- On the way from `h` to `i` there are only other keys. -/
def Walked (n : ℕ) (T : ℕ → Option (K × V)) (h : ℕ) (k : K) (i : ℕ) : Prop :=
  i < n ∧ ∀ x < n, Before h x i → ∃ e, T x = some e ∧ e.1 ≠ k

section slots

variable {n h i e x : ℕ}

theorem nextSlot_lt (hi : i < n) : nextSlot n i < n := by
  rw [nextSlot]
  split_ifs <;> omega

theorem slotsTo_next (hi : i < n) (he : e < n) (hne : i ≠ e) :
    slotsTo n (nextSlot n i) e + 1 = slotsTo n i e := by
  unfold slotsTo nextSlot
  split_ifs <;> omega

theorem slotsTo_lt (hi : i < n) (he : e < n) : slotsTo n i e < n := by
  unfold slotsTo
  split_ifs <;> omega

theorem before_next (hx : x < n) (hb : Before h x (nextSlot n i)) : Before h x i ∨ x = i := by
  unfold Before nextSlot at *
  split_ifs at hb <;> omega

end slots

variable {n : ℕ} {home : K → ℕ} {T T' : ℕ → Option (K × V)} {h i e j y : ℕ} {k : K} {v w : V}

theorem Walked.start (hh : h < n) : Walked n T h k h :=
  ⟨hh, fun x _ hb => absurd hb (by unfold Before; omega)⟩

theorem Walked.next (hw : Walked n T h k i) {a : K × V} (ha : T i = some a) (hk : a.1 ≠ k) :
    Walked n T h k (nextSlot n i) := by
  refine ⟨nextSlot_lt hw.1, fun x hx hb => ?_⟩
  rcases before_next hx hb with hb | rfl
  · exact hw.2 x hx hb
  · exact ⟨a, ha, hk⟩

/-! ### Counting -/

theorem taken_lt (he : e < n) (hT : T e = none) : taken n T < n := by
  have hsub : (Finset.range n).filter (fun i => (T i).isSome) ⊂ Finset.range n := by
    refine Finset.filter_ssubset.mpr ⟨e, Finset.mem_range.mpr he, ?_⟩
    rw [hT]
    simp
  exact (Finset.card_lt_card hsub).trans_eq (Finset.card_range n)

theorem exists_free (hT : taken n T < n) : ∃ e < n, T e = none := by
  by_contra! hc
  have hall : (Finset.range n).filter (fun i => (T i).isSome) = Finset.range n :=
    Finset.filter_true_of_mem fun i hi =>
      Option.isSome_iff_ne_none.mpr (hc i (Finset.mem_range.mp hi))
  rw [taken, hall, Finset.card_range] at hT
  exact lt_irrefl n hT

@[simp] theorem taken_zero : taken 0 T = 0 := rfl

@[simp] theorem taken_none : taken n (fun _ => (none : Option (K × V))) = 0 := by
  simp [taken]

theorem taken_mono {m : ℕ} (hm : m ≤ n) : taken m T ≤ taken n T :=
  Finset.card_le_card (Finset.filter_subset_filter _ (Finset.range_subset_range.mpr hm))

theorem taken_succ_none (hT : T n = none) : taken (n + 1) T = taken n T := by
  rw [taken, Finset.range_add_one, Finset.filter_insert, hT, if_neg (by simp), taken]

theorem taken_succ_some {a : K × V} (hT : T n = some a) : taken (n + 1) T = taken n T + 1 := by
  rw [taken, Finset.range_add_one, Finset.filter_insert, hT, if_pos (by simp),
    Finset.card_insert_of_notMem (by simp), taken]

theorem taken_put (hi : i < n) (hT : T i = none) {a : K × V} :
    taken n (Function.update T i (some a)) = taken n T + 1 := by
  have hins : (Finset.range n).filter (fun j => (Function.update T i (some a) j).isSome) =
      insert i ((Finset.range n).filter fun j => (T j).isSome) := by
    ext j
    by_cases hj : j = i
    · subst hj
      simp [hi]
    · simp [hj]
  rw [taken, hins, Finset.card_insert_of_notMem (by simp [hT]), taken]

theorem taken_clear (hi : i < n) {a : K × V} (hT : T i = some a) :
    taken n (Function.update T i none) + 1 = taken n T := by
  have hput := taken_put (T := Function.update T i none) (a := a) hi (Function.update_self ..)
  rw [Function.update_idem, ← hT, Function.update_eq_self] at hput
  exact hput.symm

theorem taken_replace (hi : i < n) {a a' : K × V} (hT : T i = some a) :
    taken n (Function.update T i (some a')) = taken n T := by
  have hput := taken_put (T := Function.update T i none) (a := a') hi (Function.update_self ..)
  rw [Function.update_idem] at hput
  rw [hput, taken_clear hi hT]

/-- The keys in the table. -/
def keys (n : ℕ) (T : ℕ → Option (K × V)) : Set K := Prod.fst '' content n T

/-- Each key is counted once. -/
theorem Probed.ncard_keys (hT : Probed n home T) :
    (keys n T).Finite ∧ (keys n T).ncard = taken n T := by
  let slots := (Finset.range n).filter fun i => (T i).isSome
  have hslots : ∀ i ∈ (slots : Set ℕ), i < n ∧ ∃ a, T i = some a := fun i hi => by
    obtain ⟨h1, h2⟩ := Finset.mem_filter.mp hi
    exact ⟨Finset.mem_range.mp h1, Option.isSome_iff_exists.mp h2⟩
  have himg : some '' keys n T = (fun i => (T i).map Prod.fst) '' (slots : Set ℕ) := by
    ext o
    constructor
    · rintro ⟨-, ⟨a, ⟨i, hi, ha⟩, rfl⟩, rfl⟩
      refine ⟨i, Finset.mem_filter.mpr ⟨Finset.mem_range.mpr hi, ?_⟩, ?_⟩
      · rw [ha]
        rfl
      · dsimp only
        rw [ha]
        rfl
    · rintro ⟨i, hi, rfl⟩
      obtain ⟨hin, a, ha⟩ := hslots i hi
      dsimp only
      rw [ha]
      exact ⟨a.1, ⟨a, ⟨i, hin, ha⟩, rfl⟩, rfl⟩
  have hinj : Set.InjOn (fun i => (T i).map Prod.fst) (slots : Set ℕ) := fun i hi j hj hij => by
    obtain ⟨hin, a, ha⟩ := hslots i hi
    obtain ⟨hjn, c, hc⟩ := hslots j hj
    dsimp only at hij
    rw [ha, hc] at hij
    have hac : a.1 = c.1 := Option.some.inj hij
    exact hT.inj hin hjn (k := a.1) ha (hc.trans (by rw [hac]))
  have hfin : (some '' keys n T).Finite := himg ▸ (Finset.finite_toSet slots).image _
  refine ⟨hfin.of_finite_image (Option.some_injective K).injOn, ?_⟩
  rw [← Set.ncard_image_of_injective _ (Option.some_injective K), himg,
    hinj.ncard_image, Set.ncard_coe_finset, taken]

/-! ### Content -/

theorem content_put (hi : i < n) (hT : T i = none) {a : K × V} :
    content n (Function.update T i (some a)) = insert a (content n T) := by
  ext b
  constructor
  · rintro ⟨j, hj, hb⟩
    by_cases hji : j = i
    · rw [hji, Function.update_self] at hb
      exact Or.inl (Option.some.inj hb).symm
    · rw [Function.update_of_ne hji] at hb
      exact Or.inr ⟨j, hj, hb⟩
  · rintro (rfl | ⟨j, hj, hb⟩)
    · exact ⟨i, hi, Function.update_self ..⟩
    · have hji : j ≠ i := fun he => by
        rw [he, hT] at hb
        cases hb
      exact ⟨j, hj, by rwa [Function.update_of_ne hji]⟩

@[simp] theorem content_zero : content 0 T = ∅ := by
  simp [content]

@[simp] theorem content_none : content n (fun _ => (none : Option (K × V))) = ∅ := by
  simp [content]

theorem content_succ_none (hT : T n = none) : content (n + 1) T = content n T := by
  ext b
  refine ⟨fun ⟨j, hj, hb⟩ => ⟨j, ?_, hb⟩, fun ⟨j, hj, hb⟩ => ⟨j, by omega, hb⟩⟩
  have hjn : j ≠ n := fun he => by
    rw [he, hT] at hb
    cases hb
  omega

theorem content_succ_some {a : K × V} (hT : T n = some a) :
    content (n + 1) T = insert a (content n T) := by
  ext b
  constructor
  · rintro ⟨j, hj, hb⟩
    by_cases hjn : j = n
    · rw [hjn, hT] at hb
      exact Or.inl (Option.some.inj hb).symm
    · exact Or.inr ⟨j, by omega, hb⟩
  · rintro (rfl | ⟨j, hj, hb⟩)
    · exact ⟨n, by omega, hT⟩
    · exact ⟨j, by omega, hb⟩

/-- A slot is freed, the only one with its entry. -/
theorem content_clear {a : K × V} (hT : T i = some a)
    (hinj : ∀ j < n, T j = some a → j = i) :
    content n (Function.update T i none) = content n T \ {a} := by
  ext b
  constructor
  · rintro ⟨j, hj, hb⟩
    by_cases hji : j = i
    · rw [hji, Function.update_self] at hb
      cases hb
    · rw [Function.update_of_ne hji] at hb
      exact ⟨⟨j, hj, hb⟩, fun hba => hji (hinj j hj (hb.trans (congrArg some hba)))⟩
  · rintro ⟨⟨j, hj, hb⟩, hba⟩
    have hji : j ≠ i := fun he => by
      rw [he, hT] at hb
      exact hba (Option.some.inj hb).symm
    exact ⟨j, hj, by rwa [Function.update_of_ne hji]⟩

/-! ### Looking for a key -/

theorem before_total (h i j : ℕ) : Before h i j ∨ Before h j i ∨ i = j := by
  unfold Before
  omega

/-- The way to a key that is there does not end before. -/
theorem Probed.walked_eq (hT : Probed n home T) (hw : Walked n T (home k) k i)
    (hstop : ∀ e, T i = some e → e.1 = k) (hj : j < n) (hv : T j = some (k, v)) : i = j := by
  rcases before_total (home k) i j with hb | hb | rfl
  · cases hi : T i with
    | none => exact absurd hi (hT.path hj hv hw.1 hb)
    | some e =>
      have he : T i = some (k, e.2) := by
        rw [hi, ← hstop e hi]
      exact hT.inj hw.1 hj he hv
  · obtain ⟨e, he, hne⟩ := hw.2 j hj hb
    rw [hv] at he
    exact absurd (congrArg Prod.fst (Option.some.inj he)).symm hne
  · rfl

theorem Probed.not_mem_keys (hT : Probed n home T) (hw : Walked n T (home k) k i)
    (hi : T i = none) : k ∉ keys n T := by
  rintro ⟨⟨k, v⟩, ⟨j, hj, hv⟩, rfl⟩
  have hij := hT.walked_eq hw (fun e he => by rw [hi] at he; cases he) hj hv
  rw [hij, hv] at hi
  cases hi

/-- A new key is put in the free slot at the end of its way. -/
theorem Probed.put (hT : Probed n home T) (hw : Walked n T (home k) k i) (hi : T i = none) :
    Probed n home (Function.update T i (some (k, v))) := by
  have hnew := hT.not_mem_keys hw hi
  have hold : ∀ {j l w}, j < n → Function.update T i (some (k, v)) j = some (l, w) →
      j = i ∧ l = k ∨ j ≠ i ∧ l ≠ k ∧ T j = some (l, w) := fun {j l w} hj hl => by
    by_cases hji : j = i
    · rw [hji, Function.update_self] at hl
      exact Or.inl ⟨hji, (congrArg Prod.fst (Option.some.inj hl)).symm⟩
    · rw [Function.update_of_ne hji] at hl
      exact Or.inr ⟨hji, fun hlk => hnew ⟨(l, w), ⟨j, hj, hl⟩, hlk⟩, hl⟩
  constructor
  · intro j l w x hj hl hx hb
    rw [Function.update_apply]
    split_ifs with hxi
    · simp
    · rcases hold hj hl with ⟨rfl, rfl⟩ | ⟨-, -, hl⟩
      · obtain ⟨e, he, -⟩ := hw.2 x hx hb
        rw [he]
        simp
      · exact hT.path hj hl hx hb
  · intro j j' l w w' hj hj' hl hl'
    rcases hold hj hl with ⟨rfl, rfl⟩ | ⟨-, hne, hl⟩ <;>
      rcases hold hj' hl' with ⟨rfl, heq⟩ | ⟨-, hne', hl'⟩
    · rfl
    · exact absurd rfl hne'
    · exact absurd heq hne
    · exact hT.inj hj hj' hl hl'

/-- The content without key `k`. -/
theorem Probed.content_clear (hT : Probed n home T) (hi : i < n) (hv : T i = some (k, v)) :
    content n (Function.update T i none) = {a ∈ content n T | a.1 ≠ k} := by
  rw [Lib.content_clear hv fun j hj hj' => hT.inj hj hi hj' hv]
  ext ⟨l, w⟩
  refine and_congr_right fun hl => not_congr ⟨congrArg Prod.fst, fun hlk => ?_⟩
  obtain ⟨j, hj, hw⟩ := hl
  have hlk : l = k := hlk
  subst hlk
  have hij := hT.inj hj hi hw hv
  rw [hij, hv] at hw
  exact (Option.some.inj hw).symm

theorem Probed.content_replace (hT : Probed n home T) (hi : i < n) (hw : T i = some (k, w)) :
    content n (Function.update T i (some (k, v))) =
      insert (k, v) {a ∈ content n T | a.1 ≠ k} := by
  have hput := content_put (T := Function.update T i none) (a := (k, v)) hi
    (Function.update_self ..)
  rwa [Function.update_idem, hT.content_clear hi hw] at hput

/-- Nothing else has a new key. -/
theorem content_ne (hk : k ∉ keys n T) : {a ∈ content n T | a.1 ≠ k} = content n T :=
  Set.sep_eq_self_iff_mem_true.mpr fun a ha hak => hk ⟨a, ha, hak⟩

/-- Another value for a key that is there. -/
theorem Probed.replace (hT : Probed n home T) (hi : T i = some (k, w)) :
    Probed n home (Function.update T i (some (k, v))) := by
  have hold : ∀ {j l u}, Function.update T i (some (k, v)) j = some (l, u) →
      ∃ u, T j = some (l, u) := fun {j l u} hl => by
    by_cases hji : j = i
    · rw [hji, Function.update_self] at hl
      have hkl : k = l := congrArg Prod.fst (Option.some.inj hl)
      exact ⟨w, by rw [hji, hi, hkl]⟩
    · rw [Function.update_of_ne hji] at hl
      exact ⟨u, hl⟩
  constructor
  · intro j l u x hj hl hx hb
    obtain ⟨u, hl⟩ := hold hl
    rw [Function.update_apply]
    split_ifs with hxi
    · simp
    · exact hT.path hj hl hx hb
  · intro j j' l u u' hj hj' hl hl'
    obtain ⟨u, hl⟩ := hold hl
    obtain ⟨u', hl'⟩ := hold hl'
    exact hT.inj hj hj' hl hl'

/-! ### Taking a key out -/

/-- The first free slot from `i` on. -/
theorem exists_first_free (hi : i < n) (hf : ∃ e < n, T e = none) :
    ∃ e < n, T e = none ∧ ∀ x < n, Before i x e → T x ≠ none := by
  obtain ⟨e₀, he₀, hfree⟩ := hf
  obtain ⟨e, he, hmin⟩ := Finset.exists_min_image ((Finset.range n).filter fun e => (T e).isNone)
    (slotsTo n i) ⟨e₀, by simp [he₀, hfree]⟩
  simp only [Finset.mem_filter, Finset.mem_range, Option.isNone_iff_eq_none] at he hmin
  refine ⟨e, he.1, he.2, fun x hx hb hn => ?_⟩
  have hle := hmin x ⟨hx, hn⟩
  unfold slotsTo Before at *
  split_ifs at hle <;> omega

/-- The key at `s` has been taken out, and the slots from there up to `j` have been put again. What
is from `j` up to the free slot `e` may have lost the way. -/
structure Pending (n : ℕ) (home : K → ℕ) (T : ℕ → Option (K × V)) (s j e : ℕ) : Prop where
  path : ∀ {i k v x}, i < n → T i = some (k, v) → x < n → Before (home k) x i →
    T x ≠ none ∨ Before s x j ∧ Before j i e
  inj : ∀ {i j k v w}, i < n → j < n → T i = some (k, v) → T j = some (k, w) → i = j
  free : T e = none
  rest : ∀ x < n, Before j x e → T x ≠ none
  slots : s < n ∧ j < n ∧ e < n ∧ j ≠ s ∧ e ≠ s
  order : Before s j e ∨ j = e

theorem Pending.start {s : ℕ} (hT : Probed n home T) (hs : s < n) {a : K × V} (ha : T s = some a)
    (he : e < n) (hfree : T e = none) (hfirst : ∀ x < n, Before (nextSlot n s) x e → T x ≠ none) :
    Pending n home (Function.update T s none) s (nextSlot n s) e := by
  have hes : e ≠ s := fun hc => by
    rw [hc, ha] at hfree
    cases hfree
  have hold : ∀ {j b}, Function.update T s none j = some b → j ≠ s ∧ T j = some b :=
    fun {j b} hb => by
      by_cases hj : j = s
      · rw [hj, Function.update_self] at hb
        cases hb
      · rw [Function.update_of_ne hj] at hb
        exact ⟨hj, hb⟩
  refine ⟨fun {i k v x} hi hv hx hb => ?_, fun hi hj hv hw => hT.inj hi hj (hold hv).2 (hold hw).2,
    by rwa [Function.update_of_ne hes], fun x hx hb => ?_, ⟨hs, nextSlot_lt hs, he, ?_, hes⟩, ?_⟩
  · obtain ⟨his, hi'⟩ := hold hv
    by_cases hxs : x = s
    · subst hxs
      by_contra hc
      rw [not_or, not_and] at hc
      -- the way would lead over `e`
      have hie : i ≠ e := fun hc => by
        rw [hc, hfree] at hi'
        cases hi'
      have hnext : Before x x (nextSlot n x) := by
        unfold Before nextSlot
        split_ifs <;> omega
      have hbe : Before (home k) e i := by
        have hno := hc.2 hnext
        unfold Before nextSlot at *
        split_ifs at hno <;> omega
      exact hT.path hi hi' he hbe hfree
    · rw [Function.update_of_ne hxs]
      exact Or.inl (hT.path hi hi' hx hb)
  · have hxs : x ≠ s := by
      unfold Before nextSlot at hb
      split_ifs at hb <;> omega
    rw [Function.update_of_ne hxs]
    exact hfirst x hx hb
  · unfold nextSlot
    split_ifs <;> omega
  · unfold Before nextSlot
    split_ifs <;> omega

/-- The key at slot `j` is put again: it stays there, or goes to a slot that has been freed. -/
theorem Pending.target {s : ℕ} (hT : Pending n home T s j e) (hj : T j = some (k, v))
    (hw : Walked n (Function.update T j none) (home k) k y)
    (hy : Function.update T j none y = none) : y = j ∨ Before s y j ∧ T y = none := by
  by_cases hyj : y = j
  · exact Or.inl hyj
  · rw [Function.update_of_ne hyj] at hy
    rcases before_total (home k) y j with hb | hb | hb
    · exact Or.inr ⟨((hT.path hT.slots.2.1 hj hw.1 hb).resolve_left (not_not.mpr hy)).1, hy⟩
    · obtain ⟨a, ha, -⟩ := hw.2 j hT.slots.2.1 hb
      rw [Function.update_self] at ha
      cases ha
    · exact absurd hb hyj

theorem Pending.step {s : ℕ} (hT : Pending n home T s j e) (hj : T j = some (k, v))
    (hw : Walked n (Function.update T j none) (home k) k y)
    (hy : Function.update T j none y = none) :
    Pending n home (Function.update (Function.update T j none) y (some (k, v))) s (nextSlot n j)
      e := by
  have htarget := hT.target hj hw hy
  obtain ⟨hs, hjn, he, hjs, hes⟩ := hT.slots
  have hje : j ≠ e := fun hc => by
    rw [hc, hT.free] at hj
    cases hj
  have horder := hT.order.resolve_right hje
  have hye : y ≠ e := by
    unfold Before at *
    omega
  -- the key that is put, or one that has been there
  have hold : ∀ {i l w}, i < n →
      Function.update (Function.update T j none) y (some (k, v)) i = some (l, w) →
      i = y ∧ l = k ∨ i ≠ y ∧ i ≠ j ∧ l ≠ k ∧ T i = some (l, w) := fun {i l w} hi hl => by
    by_cases hiy : i = y
    · rw [hiy, Function.update_self] at hl
      exact Or.inl ⟨hiy, (congrArg Prod.fst (Option.some.inj hl)).symm⟩
    · rw [Function.update_of_ne hiy] at hl
      by_cases hij : i = j
      · rw [hij, Function.update_self] at hl
        cases hl
      · rw [Function.update_of_ne hij] at hl
        exact Or.inr ⟨hiy, hij, fun hlk => hij (hT.inj hi hjn (hlk ▸ hl) hj), hl⟩
  refine ⟨fun {i l w x} hi hl hx hb => ?_, fun {i i' l w w'} hi hi' hl hl' => ?_, ?_,
    fun x hx hb => ?_, ⟨hs, nextSlot_lt hjn, he, ?_, hes⟩, ?_⟩
  · by_cases hxy : x = y
    · rw [hxy, Function.update_self]
      exact Or.inl (by simp)
    rw [Function.update_of_ne hxy]
    rcases hold hi hl with ⟨rfl, rfl⟩ | ⟨hiy, hij, -, hti⟩
    · obtain ⟨a, ha, -⟩ := hw.2 x hx hb
      exact Or.inl (by rw [ha]; simp)
    have hie : i ≠ e := fun hc => by
      rw [hc, hT.free] at hti
      cases hti
    by_cases hxj : x = j
    · -- slot `j` is free now: the way to `i` leads over `e` unless `i` is still to come
      subst hxj
      refine Or.inr ⟨by unfold Before nextSlot at *; split_ifs <;> omega, ?_⟩
      by_contra hno
      have hbe : Before (home l) e i := by
        unfold Before nextSlot at *
        split_ifs at hno <;> omega
      rcases hT.path hi hti he hbe with hc | ⟨hc, -⟩
      · exact hc hT.free
      · unfold Before at *
        omega
    · rw [Function.update_of_ne hxj]
      refine (hT.path hi hti hx hb).imp_right fun ⟨h1, h2⟩ => ⟨?_, ?_⟩
      · unfold Before nextSlot at *
        split_ifs <;> omega
      · unfold Before nextSlot at *
        split_ifs <;> omega
  · rcases hold hi hl with ⟨rfl, rfl⟩ | ⟨-, -, hne, hti⟩ <;>
      rcases hold hi' hl' with ⟨rfl, heq⟩ | ⟨-, -, hne', hti'⟩
    · rfl
    · exact absurd rfl hne'
    · exact absurd heq hne
    · exact hT.inj hi hi' hti hti'
  · rw [Function.update_of_ne hye.symm, Function.update_of_ne hje.symm]
    exact hT.free
  · rw [Function.update_apply]
    split_ifs with hxy
    · simp
    · have hxj : x ≠ j := by
        unfold Before nextSlot at *
        split_ifs at hb <;> omega
      rw [Function.update_of_ne hxj]
      refine hT.rest x hx ?_
      unfold Before nextSlot at *
      split_ifs at hb <;> omega
  · unfold Before nextSlot at *
    split_ifs <;> omega
  · unfold Before nextSlot at *
    split_ifs <;> omega

theorem Pending.finish {s : ℕ} (hT : Pending n home T s e e) : Probed n home T :=
  ⟨fun hi hv hx hb => (hT.path hi hv hx hb).resolve_right fun hc => by
    unfold Before at hc
    omega, hT.inj⟩

end Lib
