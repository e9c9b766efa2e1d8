import Multiplix.Core.Hashmap

/-! What the operations of the hash map do to the table. -/
namespace Multiplix.Core.Hashmap
open Lib

variable {K V : Type}

/-- What the entries hold. -/
def slots (m : Hashmap K V) (i : ℕ) : Option (K × V) :=
  if (m.entries i).filled then some ((m.entries i).key, (m.entries i).val) else none

/-- The capacities of arrays that fit into memory. -/
def IsCap (n : ℕ) : Prop := ∃ j ≤ 62, n = 2 ^ j

/-- Where a key is looked for first. -/
def start (hashfn : K → BitVec 64) (n : ℕ) (key : K) : ℕ := (hashfn key).toNat % n

variable {hashfn : K → BitVec 64} {m m' : Hashmap K V} {key : K} {val : V} {i idx n : ℕ}
  {size : EntrySize} {mem : ℕ → Bool}

theorem slots_of_filled (h : (m.entries i).filled = true) :
    m.slots i = some ((m.entries i).key, (m.entries i).val) := if_pos h

theorem slots_of_empty (h : (m.entries i).filled = false) : m.slots i = none :=
  if_neg (by rw [h]; exact Bool.false_ne_true)

theorem slots_setEntry {e : Entry K V} : (m.setEntry i e).slots =
    Function.update m.slots i (if e.filled then some (e.key, e.val) else none) := by
  funext j
  by_cases hj : j = i
  · subst hj
    simp [slots, setEntry]
  · simp [slots, setEntry, hj]

theorem slots_congr (h : m'.entries = m.entries) : m'.slots = m.slots := by
  unfold slots
  rw [h]

theorem slots_rmidx : (m.rmidx i).slots = Function.update m.slots i none := by
  have hset : (m.rmidx i).slots = (m.setEntry i { m.entries i with filled := false }).slots :=
    slots_congr rfl
  rw [hset, slots_setEntry]
  rfl

theorem cap_rmidx : (m.rmidx i).cap = m.cap := rfl

theorem length_rmidx (hl : 0 < m.length) (hlt : m.length < 2 ^ 64) :
    (m.rmidx i).length = m.length - 1 := by
  change (m.length + (2 ^ 64 - 1)) % 2 ^ 64 = _
  omega

theorem isCap_of_fits (k : ℕ) (hfit : 2 ^ k * size.bytes < 2 ^ 64) : IsCap (2 ^ k) := by
  refine ⟨k, ?_, rfl⟩
  by_contra hc
  have hpow : 2 ^ 63 ≤ 2 ^ k := Nat.pow_le_pow_right (by omega) (by omega)
  have hmul := Nat.mul_le_mul hpow size.three_le
  omega

namespace IsCap

theorem pos (h : IsCap n) : 0 < n := by
  obtain ⟨j, -, rfl⟩ := h
  exact Nat.two_pow_pos j

theorem le (h : IsCap n) : n ≤ 2 ^ 62 := by
  obtain ⟨j, hj, rfl⟩ := h
  exact Nat.pow_le_pow_right (by omega) hj

theorem mask_eq (h : IsCap m.cap) : m.mask = m.cap - 1 := by
  have hpos := h.pos
  have hle := h.le
  rw [mask]
  omega

theorem and_mask (h : IsCap n) (x : ℕ) : x &&& (n - 1) = x % n := by
  obtain ⟨j, -, rfl⟩ := h
  exact Nat.and_two_pow_sub_one_eq_mod x j

theorem home_eq (h : IsCap m.cap) : m.home hashfn key = start hashfn m.cap key := by
  rw [home, h.mask_eq, h.and_mask, start]

theorem start_lt (h : IsCap n) : start hashfn n key < n := Nat.mod_lt _ h.pos

theorem maskNext_eq (h : IsCap m.cap) (hi : i < m.cap) : m.maskNext i = nextSlot m.cap i := by
  rw [maskNext, h.mask_eq, h.and_mask, nextSlot]
  split_ifs with hc
  · rw [show i + 1 = m.cap by omega, Nat.mod_self]
  · exact Nat.mod_eq_of_lt (by omega)

end IsCap

/-- The entries form a table of the capacity. -/
structure Table (hashfn : K → BitVec 64) (m : Hashmap K V) : Prop where
  cap : IsCap m.cap
  probed : Probed m.cap (start hashfn m.cap) m.slots

def pairs (m : Hashmap K V) : Set (K × V) := content m.cap m.slots

/-- How many entries are filled. -/
def count (m : Hashmap K V) : ℕ := taken m.cap m.slots

/-- The map between two calls. -/
structure Ok (hashfn : K → BitVec 64) (m : Hashmap K V) : Prop extends Table hashfn m where
  length : m.length = m.count
  half : m.length ≤ m.cap / 2

theorem Ok.room (h : Ok hashfn m) : m.count < m.cap := by
  have hpos := h.cap.pos
  have hhalf := h.half
  rw [h.length] at hhalf
  omega

section zeros

variable [Inhabited K] [Inhabited V]

theorem Table.zeros (hcap : IsCap n) : Table hashfn (⟨n, zeros, i⟩ : Hashmap K V) :=
  ⟨hcap, fun _ h => (by cases h), fun _ _ h => by cases h⟩

theorem Ok.zeros (hcap : IsCap n) : Ok hashfn (⟨n, Hashmap.zeros, 0⟩ : Hashmap K V) :=
  ⟨.zeros hcap, taken_none.symm, Nat.zero_le _⟩

theorem pairs_zeros : (⟨n, zeros, i⟩ : Hashmap K V).pairs = ∅ := content_none

theorem alloc_spec (hashfn : K → BitVec 64) {caphint : ℕ}
    (h : alloc size mem caphint = some (true, m)) :
    Ok hashfn m ∧ m.pairs = ∅ := by
  rw [alloc] at h
  cases hp : pow2ceil caphint with
  | none =>
    rw [hp] at h
    cases h
  | some cap =>
    obtain ⟨k, -, rfl, -⟩ := pow2ceil_spec hp
    rw [hp] at h
    dsimp only at h
    split_ifs at h with hmem
    · cases h
      rw [kallocarray, Bool.and_eq_true, decide_eq_true_eq] at hmem
      exact ⟨.zeros (isCap_of_fits k hmem.2), pairs_zeros⟩
    · cases h

end zeros

variable [DecidableEq K]

/-- A search ends at the key, or at a free entry. -/
theorem search_spec {next : ℕ → ℕ} (hnext : ∀ i < m.cap, next i = nextSlot m.cap i) {e h : ℕ}
    (he : e < m.cap) (hfree : m.slots e = none) {fuel : ℕ} (hf : slotsTo m.cap idx e < fuel)
    (hw : Walked m.cap m.slots h key idx) : ∃ i, m.search next key fuel idx = some i ∧
      Walked m.cap m.slots h key i ∧ ∀ a, m.slots i = some a → a.1 = key := by
  induction fuel generalizing idx with
  | zero => omega
  | succ fuel ih =>
    rw [search]
    split_ifs with hc
    · have hslot := slots_of_filled hc.1
      have hne : idx ≠ e := fun hc => by
        rw [hc, hfree] at hslot
        cases hslot
      have hstep := slotsTo_next hw.1 he hne
      rw [hnext idx hw.1]
      exact ih (by omega) (hw.next hslot hc.2)
    · refine ⟨idx, rfl, hw, fun a ha => ?_⟩
      rw [not_and] at hc
      rcases hb : (m.entries idx).filled
      · rw [slots_of_empty hb] at ha
        cases ha
      · rw [slots_of_filled hb] at ha
        cases ha
        exact not_not.mp (hc hb)

/-- The search of `get` and `put`. -/
theorem search_wrap (hashfn : K → BitVec 64) (key : K) (hcap : IsCap m.cap)
    (hT : taken m.cap m.slots < m.cap) :
    ∃ i, m.search m.wrap key m.cap (m.home hashfn key) = some i ∧
      Walked m.cap m.slots (start hashfn m.cap key) key i ∧
        ∀ a, m.slots i = some a → a.1 = key := by
  obtain ⟨e, he, hfree⟩ := exists_free hT
  rw [hcap.home_eq]
  exact search_spec (fun _ _ => rfl) he hfree (slotsTo_lt hcap.start_lt he) (.start hcap.start_lt)

/-- The search of `remove`. -/
theorem search_mask (hashfn : K → BitVec 64) (key : K) (hcap : IsCap m.cap)
    (hT : taken m.cap m.slots < m.cap) :
    ∃ i, m.search m.maskNext key m.cap (m.home hashfn key) = some i ∧
      Walked m.cap m.slots (start hashfn m.cap key) key i ∧
        ∀ a, m.slots i = some a → a.1 = key := by
  obtain ⟨e, he, hfree⟩ := exists_free hT
  rw [hcap.home_eq]
  exact search_spec (fun _ => hcap.maskNext_eq) he hfree (slotsTo_lt hcap.start_lt he)
    (.start hcap.start_lt)

/-- `put` writes at the end of the search. -/
theorem store_eq (hashfn : K → BitVec 64) (key : K) (val : V) (hcap : IsCap m.cap)
    (hT : taken m.cap m.slots < m.cap) :
    ∃ m' i, m.store hashfn key val = some m' ∧ m'.cap = m.cap ∧
      Walked m.cap m.slots (start hashfn m.cap key) key i ∧
      m'.slots = Function.update m.slots i (some (key, val)) ∧
      (m.slots i = none ∧ m'.length = (m.length + 1) % 2 ^ 64 ∨
        ∃ w, m.slots i = some (key, w) ∧ m'.length = m.length) := by
  obtain ⟨i, hi, hw, hstop⟩ := search_wrap hashfn key hcap hT
  rw [store, hi]
  dsimp only
  rcases hb : (m.entries i).filled
  · refine ⟨_, i, rfl, rfl, hw, slots_setEntry, Or.inl ⟨slots_of_empty hb, rfl⟩⟩
  · have hslot := slots_of_filled hb
    have hkey := hstop _ hslot
    dsimp only at hkey
    rw [hkey] at hslot
    refine ⟨_, i, rfl, rfl, hw, ?_, Or.inr ⟨_, hslot, rfl⟩⟩
    rw [slots_setEntry]
    dsimp only
    rw [hkey, if_pos rfl]

/-- `put` in a table with room: the key is new, or its value is replaced. -/
theorem Table.store (h : Table hashfn m) (hT : m.count < m.cap) (key : K) (val : V) :
    ∃ m', m.store hashfn key val = some m' ∧ m'.cap = m.cap ∧ Table hashfn m' ∧
      m'.pairs = insert (key, val) {a ∈ m.pairs | a.1 ≠ key} ∧
      (key ∉ keys m.cap m.slots ∧ m'.count = m.count + 1 ∧
          m'.length = (m.length + 1) % 2 ^ 64 ∨
        key ∈ keys m.cap m.slots ∧ m'.count = m.count ∧ m'.length = m.length) := by
  obtain ⟨m', i, hm, hcap, hw, hslots, hcase⟩ :=
    store_eq hashfn key val h.cap hT
  refine ⟨m', hm, hcap, ?_, ?_, ?_⟩
  · refine ⟨hcap ▸ h.cap, ?_⟩
    rw [hcap, hslots]
    rcases hcase with ⟨hi, -⟩ | ⟨w, hi, -⟩
    · exact h.probed.put hw hi
    · exact h.probed.replace hi
  · rw [pairs, pairs, hcap, hslots]
    rcases hcase with ⟨hi, -⟩ | ⟨w, hi, -⟩
    · rw [content_put hw.1 hi, content_ne (h.probed.not_mem_keys hw hi)]
    · exact h.probed.content_replace hw.1 hi
  · rw [count, count, hcap, hslots]
    rcases hcase with ⟨hi, hl⟩ | ⟨w, hi, hl⟩
    · exact Or.inl ⟨h.probed.not_mem_keys hw hi, taken_put hw.1 hi, hl⟩
    · exact Or.inr ⟨⟨_, ⟨i, hw.1, hi⟩, rfl⟩, taken_replace hw.1 hi, hl⟩

/-- `put` when there is room. -/
theorem Table.storeOk (h : Table hashfn m) (hl : m.length = m.count)
    (hhalf : m.length + 1 ≤ m.cap / 2) (key : K) (val : V) :
    ∃ m', m.store hashfn key val = some m' ∧ Ok hashfn m' ∧
      m'.pairs = insert (key, val) {a ∈ m.pairs | a.1 ≠ key} := by
  have hle := h.cap.le
  have hpos := h.cap.pos
  obtain ⟨m', hm, hcap, ht, hp, hcase⟩ := h.store (by omega) key val
  refine ⟨m', hm, ⟨ht, ?_, ?_⟩, hp⟩
  · rcases hcase with ⟨-, hct, hlen⟩ | ⟨-, hct, hlen⟩ <;> omega
  · rw [hcap]
    rcases hcase with ⟨-, -, hlen⟩ | ⟨-, -, hlen⟩ <;> omega

variable [Inhabited K] [Inhabited V]

/-- A `put` that need not resize. -/
theorem put_small (hl : m.length < m.cap / 2) (depth : ℕ) :
    put hashfn size mem (depth + 1) m key val = (m.store hashfn key val).map (true, ·) := by
  rw [put, if_neg (by omega)]

/-- The loop of `resize` has come to entry `i`. -/
structure Copied (hashfn : K → BitVec 64) (m newmap : Hashmap K V) (i : ℕ) : Prop where
  table : Table hashfn newmap
  pairs : newmap.pairs = content i m.slots
  count : newmap.count = taken i m.slots
  length : newmap.length = m.length + taken i m.slots

/-- The entries are put in the new array, which is not resized meanwhile. -/
theorem copyLoop_spec (size : EntrySize) (mem : ℕ → Bool) (h : Table hashfn m)
    (hl : m.length = m.count) {newmap : Hashmap K V}
    (hn : m.length * 2 ≤ newmap.cap / 2) {fuel : ℕ} (hi : i + fuel = m.cap)
    (hc : Copied hashfn m newmap i) :
    ∃ new, (∀ depth, copyLoop (put hashfn size mem (depth + 1)) m fuel i newmap = some new) ∧
      new.cap = newmap.cap ∧ Copied hashfn m new m.cap := by
  induction fuel generalizing i newmap with
  | zero =>
    rw [Nat.add_zero] at hi
    subst hi
    exact ⟨newmap, fun _ => rfl, rfl, hc⟩
  | succ fuel ih =>
    have hcap := hc.table.cap.le
    rcases hb : (m.entries i).filled
    · have hs := slots_of_empty hb
      have hc' : Copied hashfn m newmap (i + 1) := by
        refine ⟨hc.table, ?_, ?_, ?_⟩
        · rw [content_succ_none hs, hc.pairs]
        · rw [taken_succ_none hs, hc.count]
        · rw [taken_succ_none hs, hc.length]
      obtain ⟨new, hnew, h1, h2⟩ := ih hn (by omega) hc'
      refine ⟨new, fun depth => ?_, h1, h2⟩
      rw [copyLoop, if_neg (by rw [hb]; exact Bool.false_ne_true)]
      exact hnew depth
    · have hs := slots_of_filled hb
      have hlt : taken i m.slots < m.length := by
        have hsucc := taken_succ_some hs
        have hmono : taken (i + 1) m.slots ≤ m.count := taken_mono (by omega)
        omega
      have hsmall : newmap.length < newmap.cap / 2 := by
        rw [hc.length]
        omega
      have hroom : newmap.count < newmap.cap := by
        rw [hc.count]
        omega
      obtain ⟨new₁, hst, hcap₁, ht₁, hp₁, hcase⟩ := hc.table.store hroom (m.entries i).key
        (m.entries i).val
      have hnew : (m.entries i).key ∉ keys newmap.cap newmap.slots := by
        rintro ⟨⟨k, w⟩, hmem, hk⟩
        change (k, w) ∈ newmap.pairs at hmem
        rw [hc.pairs] at hmem
        obtain ⟨j, hj, hw⟩ := hmem
        have hk : k = (m.entries i).key := hk
        rw [hk] at hw
        have hji := h.probed.inj (by omega) (by omega) hw hs
        omega
      obtain ⟨-, hct, hlen⟩ := hcase.resolve_right fun hc => hnew hc.1
      have hc' : Copied hashfn m new₁ (i + 1) := by
        refine ⟨ht₁, ?_, ?_, ?_⟩
        · rw [hp₁, content_succ_some hs]
          change insert _ {a ∈ content newmap.cap newmap.slots | _} = _
          rw [content_ne hnew]
          exact congrArg _ hc.pairs
        · rw [taken_succ_some hs, hct, hc.count]
        · rw [taken_succ_some hs, hlen, hc.length, Nat.mod_eq_of_lt]
          · rfl
          · have hle := hc.length
            omega
      have hn₁ : m.length * 2 ≤ new₁.cap / 2 := hcap₁ ▸ hn
      obtain ⟨new, hfin, h1, h2⟩ := ih hn₁ (by omega) hc'
      refine ⟨new, fun depth => ?_, h1.trans hcap₁, h2⟩
      rw [copyLoop, if_pos hb, put_small hsmall, hst]
      exact hfin depth

/-- `resize` keeps the content; it may find no memory. -/
theorem resize_spec (n : ℕ) (size : EntrySize) (mem : ℕ → Bool) (h : Table hashfn m)
    (hl : m.length = m.count)
    (hcap : n * size.bytes < 2 ^ 64 → IsCap n) (hn : m.length * 2 ≤ n / 2) :
    ∃ b m', (∀ depth, resize size mem (put hashfn size mem (depth + 1)) m n = some (b, m')) ∧
      Table hashfn m' ∧ m'.pairs = m.pairs ∧ m'.count = m.count ∧ m'.length = m.length ∧
      m'.cap = if b then n else m.cap := by
  by_cases hmem : kallocarray size mem n = true
  · have hsize := hmem
    rw [kallocarray, Bool.and_eq_true, decide_eq_true_eq] at hsize
    have hstart : Copied hashfn m ⟨n, Hashmap.zeros, m.length⟩ 0 :=
      ⟨.zeros (hcap hsize.2), content_none.trans content_zero.symm, taken_none, rfl⟩
    obtain ⟨new, hnew, hc, hcopied⟩ := copyLoop_spec size mem h hl hn
      (Nat.zero_add _) hstart
    refine ⟨true, { m with cap := new.cap, entries := new.entries }, fun depth => ?_,
      ⟨hcopied.table.cap, hcopied.table.probed⟩, hcopied.pairs, hcopied.count, rfl, hc⟩
    rw [resize, if_pos hmem, hnew depth]
  · refine ⟨false, m, fun depth => ?_, h, rfl, rfl, rfl, rfl⟩
    rw [resize, if_neg hmem]

/-- `put` adds the pair, or finds no memory and changes nothing. -/
theorem Ok.put (h : Ok hashfn m) (size : EntrySize) (mem : ℕ → Bool) (key : K) (val : V) : ∃ b m',
    (∀ depth, put hashfn size mem (depth + 2) m key val = some (b, m')) ∧ Ok hashfn m' ∧
      m'.pairs = if b then insert (key, val) {a ∈ m.pairs | a.1 ≠ key} else m.pairs := by
  have hle := h.cap.le
  by_cases hfull : m.cap / 2 ≤ m.length
  · have hdouble : m.cap * 2 % 2 ^ 64 = m.cap * 2 := Nat.mod_eq_of_lt (by omega)
    have hcap : m.cap * 2 * size.bytes < 2 ^ 64 → IsCap (m.cap * 2) := fun hlt => by
      obtain ⟨j, -, hcap⟩ := h.cap
      rw [hcap, ← pow_succ] at hlt ⊢
      exact isCap_of_fits _ hlt
    obtain ⟨b, m₁, hm₁, ht₁, hp₁, hct₁, hl₁, hc₁⟩ := resize_spec (m.cap * 2) size mem
      h.toTable h.length hcap (by have := h.half; omega)
    cases b with
    | false =>
      refine ⟨false, m₁, fun depth => ?_, ⟨ht₁, by rw [hl₁, hct₁, h.length], ?_⟩, hp₁⟩
      swap
      · rw [hl₁, hc₁]
        exact h.half
      rw [Hashmap.put, if_pos hfull, hdouble, hm₁]
    | true =>
      rw [if_pos rfl] at hc₁
      obtain ⟨m₂, hm₂, hok, hp₂⟩ := ht₁.storeOk (by rw [hl₁, hct₁, h.length])
        (by have := h.half; have := h.cap.pos; omega) key val
      refine ⟨true, m₂, fun depth => ?_, hok, by rw [hp₂, hp₁]; rfl⟩
      rw [Hashmap.put, if_pos hfull, hdouble, hm₁]
      dsimp only
      rw [hm₂]
      rfl
  · obtain ⟨m', hm, hok, hp⟩ := h.storeOk h.length (by omega) key val
    refine ⟨true, m', fun depth => ?_, hok, hp⟩
    rw [put_small (by omega), hm]
    rfl

omit [Inhabited K] [Inhabited V] in
theorem cap_store (h : m.store hashfn key val = some m') : m'.cap = m.cap := by
  unfold store at h
  split at h
  · cases h
  · split_ifs at h <;> cases h <;> rfl

omit [DecidableEq K] in
theorem resize_false {put : Hashmap K V → K → V → Option (Bool × Hashmap K V)}
    (h : resize size mem put m n = some (false, m')) : kallocarray size mem n = false := by
  unfold resize at h
  split_ifs at h with hmem
  · split at h <;> cases h
  · exact Bool.eq_false_of_not_eq_true hmem

/-- `put` fails only for lack of memory, and doubles the capacity only when half of it is in use. -/
theorem Ok.put_grow {depth : ℕ} {b : Bool} (h : Ok hashfn m)
    (hm : Hashmap.put hashfn size mem (depth + 2) m key val = some (b, m')) :
    (b = false → m.cap / 2 ≤ m.length ∧ kallocarray size mem (m.cap * 2) = false) ∧
      (m'.cap = m.cap ∨ m.cap / 2 ≤ m.length ∧ m'.cap = m.cap * 2) := by
  have hle := h.cap.le
  by_cases hfull : m.cap / 2 ≤ m.length
  · have hdouble : m.cap * 2 % 2 ^ 64 = m.cap * 2 := Nat.mod_eq_of_lt (by omega)
    have hcap : m.cap * 2 * size.bytes < 2 ^ 64 → IsCap (m.cap * 2) := fun hlt => by
      obtain ⟨j, -, hcap⟩ := h.cap
      rw [hcap, ← pow_succ] at hlt ⊢
      exact isCap_of_fits _ hlt
    obtain ⟨b₁, m₁, hm₁, -, -, -, -, hc₁⟩ := resize_spec (m.cap * 2) size mem
      h.toTable h.length hcap (by have := h.half; omega)
    rw [Hashmap.put, if_pos hfull, hdouble, hm₁ depth] at hm
    cases b₁ with
    | false =>
      cases hm
      exact ⟨fun _ => ⟨hfull, resize_false (hm₁ depth)⟩, Or.inl hc₁⟩
    | true =>
      dsimp only at hm
      obtain ⟨m₂, hm₂, heq⟩ := Option.map_eq_some_iff.mp hm
      obtain ⟨rfl, rfl⟩ := Prod.mk.inj heq
      exact ⟨fun hb => (by cases hb), Or.inr ⟨hfull, (cap_store hm₂).trans hc₁⟩⟩
  · rw [put_small (by omega)] at hm
    obtain ⟨m₂, hm₂, heq⟩ := Option.map_eq_some_iff.mp hm
    obtain ⟨rfl, rfl⟩ := Prod.mk.inj heq
    exact ⟨fun hb => (by cases hb), Or.inl (cap_store hm₂)⟩

/-- The rest of the cluster is put again, and nothing is resized meanwhile. -/
theorem rehashLoop_spec (size : EntrySize) (mem : ℕ → Bool) {s j e : ℕ} (hcap : IsCap m.cap)
    (hT : Pending m.cap (start hashfn m.cap) m.slots s j e) (hl : m.length = m.count)
    (hhalf : m.length ≤ m.cap / 2) {fuel : ℕ} (hf : slotsTo m.cap j e < fuel) :
    ∃ m', (∀ depth, rehashLoop (put hashfn size mem (depth + 1)) fuel m j = some m') ∧
      m'.cap = m.cap ∧ Ok hashfn m' ∧ m'.pairs = m.pairs := by
  induction fuel generalizing m j with
  | zero => omega
  | succ fuel ih =>
    obtain ⟨hs, hj, he, -, -⟩ := hT.slots
    have hle := hcap.le
    rcases hb : (m.entries j).filled
    · -- the free entry at the end
      have hje : j = e := by
        by_contra hne
        refine hT.rest j hj ?_ (slots_of_empty hb)
        unfold Before
        omega
      subst hje
      refine ⟨m, fun depth => ?_, rfl, ⟨⟨hcap, hT.finish⟩, hl, hhalf⟩, rfl⟩
      rw [rehashLoop, if_neg (by rw [hb]; exact Bool.false_ne_true)]
    · have hslot := slots_of_filled hb
      have hje : j ≠ e := fun hc => by
        rw [hc, hT.free] at hslot
        cases hslot
      have hcount := taken_clear hj hslot
      have hlen : (m.rmidx j).length = m.length - 1 :=
        length_rmidx (by rw [hl, count]; omega) (by omega)
      have hroom : taken m.cap (m.rmidx j).slots < m.cap :=
        taken_lt (e := j) hj (by rw [slots_rmidx, Function.update_self])
      obtain ⟨m₁, y, hm₁, hc₁, hw, hslots, hcase⟩ := store_eq (m := m.rmidx j) hashfn
        (m.entries j).key (m.entries j).val hcap hroom
      rw [cap_rmidx] at hc₁ hw
      rw [slots_rmidx] at hw hslots hcase
      have hy : Function.update m.slots j none y = none := by
        rcases hcase with ⟨hy, -⟩ | ⟨w, hy, -⟩
        · exact hy
        · -- no other entry has the key
          by_cases hyj : y = j
          · rw [hyj, Function.update_self]
          · rw [Function.update_of_ne hyj] at hy
            exact absurd (hT.inj hw.1 hj hy hslot) hyj
      have hlen₁ : m₁.length = m.length := by
        rcases hcase with ⟨-, h1⟩ | ⟨w, hy', -⟩
        · rw [h1, hlen]
          have hpos : 0 < m.length := by rw [hl, count]; omega
          omega
        · rw [hy] at hy'
          cases hy'
      have hcount₁ : m₁.count = m.count := by
        rw [count, hc₁, hslots, taken_put hw.1 hy, count]
        exact hcount
      have hpairs₁ : m₁.pairs = m.pairs := by
        rw [pairs, hc₁, hslots, content_put hw.1 hy,
          content_clear hslot fun i hi hi' => hT.inj hi hj hi' hslot, Set.insert_sdiff_singleton]
        exact Set.insert_eq_of_mem ⟨j, hj, hslot⟩
      have hT₁ : Pending m₁.cap (start hashfn m₁.cap) m₁.slots s (nextSlot m.cap j) e := by
        rw [hc₁, hslots]
        exact hT.step hslot hw hy
      have hsteps := slotsTo_next hj he hje
      obtain ⟨m₂, hm₂, hc₂, hok, hp₂⟩ := ih (m := m₁) (hc₁ ▸ hcap) hT₁
        (by rw [hlen₁, hl, hcount₁]) (by rw [hlen₁, hc₁]; exact hhalf) (by rw [hc₁]; omega)
      refine ⟨m₂, fun depth => ?_, hc₂.trans hc₁, hok, hp₂.trans hpairs₁⟩
      have hsmall : (m.rmidx j).length < (m.rmidx j).cap / 2 := by
        rw [hlen]
        change _ < m.cap / 2
        rw [hl, count] at hhalf ⊢
        omega
      have hnext : m₁.maskNext j = nextSlot m.cap j := by
        rw [(hc₁ ▸ hcap : IsCap m₁.cap).maskNext_eq (by rw [hc₁]; exact hj), hc₁]
      rw [rehashLoop, if_pos hb, put_small hsmall, hm₁]
      dsimp only [Option.map]
      rw [hnext]
      exact hm₂ depth

/-- `remove` takes the key out; it may find no memory for a smaller array. -/
theorem Ok.remove (h : Ok hashfn m) (size : EntrySize) (mem : ℕ → Bool) (key : K) : ∃ b m',
    (∀ depth, remove hashfn size mem (depth + 1) m key = some (b, m')) ∧ Ok hashfn m' ∧
      m'.pairs = {a ∈ m.pairs | a.1 ≠ key} := by
  obtain ⟨i, hi, hw, hstop⟩ := search_mask hashfn key h.cap h.room
  rcases hb : (m.entries i).filled
  · have hk := h.probed.not_mem_keys hw (slots_of_empty hb)
    refine ⟨true, m, fun depth => ?_, h, (content_ne hk).symm⟩
    simp only [Hashmap.remove, hi, hb, if_true]
  · have hslot := slots_of_filled hb
    have hkey := hstop _ hslot
    dsimp only at hkey
    rw [hkey] at hslot
    have hle := h.cap.le
    have hhalf := h.half
    have hcount := taken_clear hw.1 hslot
    have hpos : 0 < m.length := by
      rw [h.length, count]
      omega
    have hlen : (m.rmidx i).length = m.length - 1 := length_rmidx hpos (by omega)
    obtain ⟨e, he, hfree, hfirst⟩ := exists_first_free (nextSlot_lt hw.1) (exists_free h.room)
    have hT : Pending (m.rmidx i).cap (start hashfn (m.rmidx i).cap) (m.rmidx i).slots i
        (nextSlot m.cap i) e := by
      rw [slots_rmidx]
      exact .start h.probed hw.1 hslot he hfree hfirst
    have hl : (m.rmidx i).length = (m.rmidx i).count := by
      rw [hlen, h.length, count, count, cap_rmidx, slots_rmidx]
      omega
    obtain ⟨m₁, hm₁, hc₁, hok₁, hp₁⟩ := rehashLoop_spec (m := m.rmidx i) size mem
      h.cap hT hl (by rw [hlen, cap_rmidx]; omega)
      (slotsTo_lt (nextSlot_lt hw.1) he)
    rw [cap_rmidx] at hc₁ hm₁
    have hpairs : m₁.pairs = {a ∈ m.pairs | a.1 ≠ key} := by
      rw [hp₁, pairs, slots_rmidx]
      exact h.probed.content_clear hw.1 hslot
    have hrun : ∀ depth, Hashmap.remove hashfn size mem (depth + 1) m key =
        if 0 < m₁.length ∧ m₁.length ≤ m₁.cap / 8 then
          resize size mem (Hashmap.put hashfn size mem (depth + 1)) m₁ (m₁.cap / 2)
        else some (true, m₁) := fun depth => by
      simp only [Hashmap.remove, hi, hb, Bool.true_eq_false, if_false]
      rw [h.cap.maskNext_eq hw.1, hm₁]
    by_cases hshrink : 0 < m₁.length ∧ m₁.length ≤ m₁.cap / 8
    · obtain ⟨k, hk, hck⟩ := hok₁.cap
      have hhalfcap : IsCap (m₁.cap / 2) := by
        refine ⟨k - 1, by omega, ?_⟩
        have hk0 : k ≠ 0 := fun h0 => by
          rw [hck, h0] at hshrink
          omega
        rw [hck, ← Nat.pow_div (Nat.pos_of_ne_zero hk0) (by omega), pow_one]
      obtain ⟨b, m₂, hm₂, ht₂, hp₂, hct₂, hl₂, hc₂⟩ := resize_spec (m₁.cap / 2) size mem
        hok₁.toTable hok₁.length (fun _ => hhalfcap) (by omega)
      refine ⟨b, m₂, fun depth => ?_, ⟨ht₂, by rw [hl₂, hct₂, hok₁.length], ?_⟩,
        hp₂.trans hpairs⟩
      · rw [hrun, if_pos hshrink, hm₂]
      · rw [hc₂, hl₂]
        cases b with
        | false => exact hok₁.half
        | true =>
          rw [if_pos rfl]
          omega
    · refine ⟨true, m₁, fun depth => ?_, hok₁, hpairs⟩
      rw [hrun, if_neg hshrink]

omit [Inhabited K] in
/-- `get` finds the value of a key, if there is one. -/
theorem Ok.get (h : Ok hashfn m) (key : K) :
    (∀ v, (key, v) ∈ m.pairs → m.get hashfn key = some (v, true)) ∧
      ((∀ v, (key, v) ∉ m.pairs) → m.get hashfn key = some (default, false)) := by
  obtain ⟨i, hi, hw, hstop⟩ := search_wrap hashfn key h.cap h.room
  rcases hb : (m.entries i).filled <;> simp only [Hashmap.get, hi, hb]
  · have hk := h.probed.not_mem_keys hw (slots_of_empty hb)
    exact ⟨fun v hv => absurd ⟨_, hv, rfl⟩ hk, fun _ => rfl⟩
  · have hslot := slots_of_filled hb
    have hkey := hstop _ hslot
    dsimp only at hkey
    rw [hkey] at hslot
    refine ⟨fun v ⟨j, hj, hv⟩ => ?_, fun hno => absurd ⟨i, hw.1, hslot⟩ (hno _)⟩
    have hij := h.probed.walked_eq hw hstop hj hv
    rw [hij, hv] at hslot
    have hval : v = (m.entries j).val := congrArg Prod.snd (Option.some.inj hslot)
    rw [hij, hval]
    rfl

end Multiplix.Core.Hashmap
