import Multiplix.Core.HashmapOps

/-! The hash map is a finite map. -/
namespace Multiplix.Core
open Lib

/-- A call, with the answers of `kallocarray` meanwhile. -/
inductive HashmapOp (K V : Type)
  | put (key : K) (val : V) (mem : ℕ → Bool)
  | get (key : K)
  | remove (key : K) (mem : ℕ → Bool)
  | clear

namespace Hashmap

variable {K V : Type} [DecidableEq K] [Inhabited K] [Inhabited V]

/-- What a call answers, and what it leaves. -/
def exec (hashfn : K → BitVec 64) (size : EntrySize) (depth : ℕ) (m : Hashmap K V) :
    HashmapOp K V → Option (Bool × Hashmap K V)
  | .put key val mem => put hashfn size mem depth m key val
  | .get key => (m.get hashfn key).map fun (_, found) => (found, m)
  | .remove key mem => remove hashfn size mem depth m key
  | .clear => some (true, m.clear)

omit [Inhabited K] [Inhabited V] in
/-- What a call that answers `ok` means for a finite map. -/
def apply (f : K → Option V) : HashmapOp K V → (ok : Bool) → K → Option V
  | .put key val _, ok => if ok then Function.update f key (some val) else f
  | .get _, _ => f
  | .remove key _, _ => Function.update f key none
  | .clear, _ => fun _ => none

variable (hashfn : K → BitVec 64) (size : EntrySize) (depth : ℕ)

/-- The map after some calls, and the finite map after them. -/
inductive Ran : (K → Option V) → Hashmap K V → Prop
  | alloc {mem : ℕ → Bool} {caphint : ℕ} {m : Hashmap K V} :
      alloc size mem caphint = some (true, m) → Ran (fun _ => none) m
  | exec {f : K → Option V} {m m' : Hashmap K V} {op : HashmapOp K V} {ok : Bool} :
      Ran f m → m.exec hashfn size (depth + 2) op = some (ok, m') → Ran (apply f op ok) m'

variable {hashfn size depth} {f : K → Option V} {m m' : Hashmap K V} {op : HashmapOp K V}

/-- The table has the pairs of `f`. -/
def Holds (m : Hashmap K V) (f : K → Option V) : Prop :=
  ∀ key val, (key, val) ∈ m.pairs ↔ f key = some val

omit [Inhabited K] in
/-- `get` finds the value of a key in the finite map. -/
theorem Ok.get_eq (h : Ok hashfn m) (hf : m.Holds f) (key : K) :
    m.get hashfn key = some ((f key).getD default, (f key).isSome) := by
  have hget := h.get key
  rcases hv : f key with _ | v
  · exact hget.2 fun v hv' => by rw [hf, hv] at hv'; cases hv'
  · exact hget.1 v ((hf key v).mpr hv)

omit [DecidableEq K] [Inhabited K] [Inhabited V] in
/-- `length` is the number of keys. -/
theorem Ok.ncard (h : Ok hashfn m) (hf : m.Holds f) :
    {key | f key ≠ none}.Finite ∧ {key | f key ≠ none}.ncard = m.length := by
  have hkeys : {key | f key ≠ none} = keys m.cap m.slots := by
    ext key
    refine Option.ne_none_iff_exists'.trans ?_
    constructor
    · rintro ⟨v, hv⟩
      exact ⟨(key, v), (hf key v).mpr hv, rfl⟩
    · rintro ⟨⟨l, v⟩, hv, rfl⟩
      exact ⟨v, (hf l v).mp hv⟩
  obtain ⟨hfin, hcard⟩ := h.probed.ncard_keys
  rw [hkeys, hcard, h.length, count]
  exact ⟨hfin, rfl⟩

/-- A call returns, and does to the table what it means. The `put`s in a `resize` do not resize:
they need no further depth. -/
theorem Ok.exec (h : Ok hashfn m) (size : EntrySize) (hf : m.Holds f) (op : HashmapOp K V) :
    ∃ ok m',
    (∀ depth, m.exec hashfn size (depth + 2) op = some (ok, m')) ∧ Ok hashfn m' ∧
      m'.Holds (apply f op ok) := by
  cases op with
  | put key val mem =>
    obtain ⟨ok, m', hm, hok, hp⟩ := h.put size mem key val
    refine ⟨ok, m', hm, hok, fun l w => ?_⟩
    rw [hp, apply]
    cases ok with
    | false => exact hf l w
    | true =>
      rw [if_pos rfl, if_pos rfl, Function.update_apply, Set.mem_insert_iff, Set.mem_sep_iff, hf,
        Prod.mk.injEq]
      split_ifs with hl
      · simp [hl, eq_comm]
      · simp [hl]
  | get key =>
    refine ⟨(f key).isSome, m, fun depth => ?_, h, hf⟩
    rw [Hashmap.exec, h.get_eq hf]
    rfl
  | remove key mem =>
    obtain ⟨ok, m', hm, hok, hp⟩ := h.remove size mem key
    refine ⟨ok, m', fun depth => hm (depth + 1), hok, fun l w => ?_⟩
    rw [hp, apply, Set.mem_sep_iff, hf, Function.update_apply]
    split_ifs with hl
    · simp [hl]
    · simp [hl]
  | clear =>
    refine ⟨true, m.clear, fun _ => rfl, .zeros h.cap, fun l w => ?_⟩
    have hp : m.clear.pairs = ∅ := pairs_zeros
    rw [hp]
    exact ⟨fun hc => (by cases hc), fun hc => (by cases hc)⟩

theorem Ran.ok (h : Ran hashfn size depth f m) : Ok hashfn m ∧ m.Holds f := by
  induction h with
  | alloc h =>
    obtain ⟨hok, hp⟩ := alloc_spec hashfn h
    refine ⟨hok, fun key val => ?_⟩
    rw [hp]
    exact ⟨fun hc => (by cases hc), fun hc => (by cases hc)⟩
  | @exec f m m' op ok h hm ih =>
    obtain ⟨ok', m₁, hm₁, hok, hf⟩ := ih.1.exec size ih.2 op
    rw [hm₁] at hm
    cases hm
    exact ⟨hok, hf⟩

/-- After any calls, `get` finds the value that was put last, and `length` is the number of keys.
At most half of the entries are filled. Every further call returns, and no `put` in a `resize`
resizes. -/
theorem finite_map (h : Ran hashfn size depth f m) :
    (∀ key, m.get hashfn key = some ((f key).getD default, (f key).isSome)) ∧
      {key | f key ≠ none}.Finite ∧ {key | f key ≠ none}.ncard = m.length ∧
      (∃ k, m.cap = 2 ^ k) ∧ m.length ≤ m.cap / 2 ∧
      ∀ op, ∃ r, ∀ d, m.exec hashfn size (d + 2) op = some r := by
  obtain ⟨hok, hf⟩ := h.ok
  obtain ⟨k, -, hk⟩ := hok.cap
  obtain ⟨hfin, hcard⟩ := hok.ncard hf
  refine ⟨hok.get_eq hf, hfin, hcard, ⟨k, hk⟩, hok.half, fun op => ?_⟩
  obtain ⟨ok, m', hm, -⟩ := hok.exec size hf op
  exact ⟨_, hm⟩

/-- A table of one entry that grows, and a key that is replaced and taken out. -/
theorem finite_map_grows : ∃ m : Hashmap ℕ ℕ,
    m.cap = 4 ∧ m.get (BitVec.ofNat 64) 7 = some (0, false) ∧
      m.get (BitVec.ofNat 64) 3 = some (5, true) := by
  let mem : ℕ → Bool := fun _ => true
  have hr : Ran (BitVec.ofNat 64) ⟨24, by decide⟩ 0 (apply (apply (apply (fun _ => none)
      (.put 7 1 mem) true) (.put 3 5 mem) true) (.remove 7 mem) true) _ :=
    .exec (.exec (.exec (@Ran.alloc _ _ _ _ _ _ _ _ mem 1 _ rfl) rfl) rfl) rfl
  exact ⟨_, rfl, (finite_map hr).1 7, (finite_map hr).1 3⟩

end Hashmap
end Multiplix.Core
