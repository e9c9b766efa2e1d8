import Multiplix.Core.Math
import Multiplix.Lib.Probe

/-! The hash map of `core.hashmap`. A word is a natural number below `2 ^ 64`. A function answers
`none` when a loop of it does not end. -/
namespace Multiplix.Core

structure Entry (K V : Type) where
  key : K
  val : V
  filled : Bool

/-- The size of an entry in bytes. -/
structure EntrySize where
  bytes : ℕ
  /-- A key, a value and a flag. -/
  three_le : 3 ≤ bytes

/-- `cap` is the length of the array of entries. -/
structure Hashmap (K V : Type) where
  cap : ℕ
  entries : ℕ → Entry K V
  length : ℕ

namespace Hashmap

variable {K V : Type} [DecidableEq K] [Inhabited K] [Inhabited V]

/-- An array that has been filled with zeros. -/
def zeros : ℕ → Entry K V := fun _ => ⟨default, default, false⟩

/-- `kallocarray` finds memory for an array of `nelem` entries, as `mem` says, if the array fits
into the address space. -/
def kallocarray (size : EntrySize) (mem : ℕ → Bool) (nelem : ℕ) : Bool :=
  mem nelem && decide (nelem * size.bytes < 2 ^ 64)

def alloc (size : EntrySize) (mem : ℕ → Bool) (caphint : ℕ) : Option (Bool × Hashmap K V) :=
  match pow2ceil caphint with
  | none => none
  | some cap =>
    if kallocarray size mem cap then some (true, ⟨cap, zeros, 0⟩) else some (false, ⟨0, zeros, 0⟩)

/-- `cap - 1` -/
def mask (m : Hashmap K V) : ℕ := (m.cap + (2 ^ 64 - 1)) % 2 ^ 64

variable (hashfn : K → BitVec 64)

/-- Where the search for a key starts. -/
def home (m : Hashmap K V) (key : K) : ℕ := (hashfn key).toNat &&& m.mask

/-- How `get` and `put` go on to the next entry. -/
def wrap (m : Hashmap K V) (idx : ℕ) : ℕ := if m.cap ≤ idx + 1 then 0 else idx + 1

/-- How `remove` goes on to the next entry. -/
def maskNext (m : Hashmap K V) (idx : ℕ) : ℕ := (idx + 1) &&& m.mask

/-- The loops of `get`, `put` and `remove` that look for a key: the first entry that is not filled
or has the key. -/
def search (m : Hashmap K V) (next : ℕ → ℕ) (key : K) : ℕ → ℕ → Option ℕ
  | 0, _ => none
  | fuel + 1, idx =>
    if (m.entries idx).filled ∧ (m.entries idx).key ≠ key then search m next key fuel (next idx)
    else some idx

/-- The value, if it is found. -/
def get (m : Hashmap K V) (key : K) : Option (V × Bool) :=
  match m.search m.wrap key m.cap (m.home hashfn key) with
  | none => none
  | some idx =>
    if (m.entries idx).filled then some ((m.entries idx).val, true) else some (default, false)

def setEntry (m : Hashmap K V) (idx : ℕ) (e : Entry K V) : Hashmap K V :=
  { m with entries := Function.update m.entries idx e }

/-- `put` behind the call of `resize`. -/
def store (m : Hashmap K V) (key : K) (val : V) : Option (Hashmap K V) :=
  match m.search m.wrap key m.cap (m.home hashfn key) with
  | none => none
  | some idx =>
    if (m.entries idx).filled then some (m.setEntry idx { m.entries idx with val := val })
    else some { m.setEntry idx ⟨key, val, true⟩ with length := (m.length + 1) % 2 ^ 64 }

/-- The loop of `resize` from entry `i` on. -/
def copyLoop (put : Hashmap K V → K → V → Option (Bool × Hashmap K V)) (m : Hashmap K V) :
    ℕ → ℕ → Hashmap K V → Option (Hashmap K V)
  | 0, _, newmap => some newmap
  | fuel + 1, i, newmap =>
    if (m.entries i).filled then
      match put newmap (m.entries i).key (m.entries i).val with
      | none => none
      | some (_, newmap) => copyLoop put m fuel (i + 1) newmap
    else copyLoop put m fuel (i + 1) newmap

/-- `resize`, with the `put` that it calls. -/
def resize (size : EntrySize) (mem : ℕ → Bool)
    (put : Hashmap K V → K → V → Option (Bool × Hashmap K V)) (m : Hashmap K V) (newcap : ℕ) :
    Option (Bool × Hashmap K V) :=
  if kallocarray size mem newcap then
    match copyLoop put m m.cap 0 ⟨newcap, zeros, m.length⟩ with
    | none => none
    | some newmap => some (true, { m with cap := newmap.cap, entries := newmap.entries })
  else some (false, m)

/-- `put` and `resize` call each other, at most `depth` deep. -/
def put (size : EntrySize) (mem : ℕ → Bool) :
    (depth : ℕ) → Hashmap K V → K → V → Option (Bool × Hashmap K V)
  | 0, _, _, _ => none
  | depth + 1, m, key, val =>
    if m.cap / 2 ≤ m.length then
      match resize size mem (put size mem depth) m (m.cap * 2 % 2 ^ 64) with
      | none => none
      | some (false, m) => some (false, m)
      | some (true, m) => (m.store hashfn key val).map (true, ·)
    else (m.store hashfn key val).map (true, ·)

def rmidx (m : Hashmap K V) (idx : ℕ) : Hashmap K V :=
  { m.setEntry idx { m.entries idx with filled := false } with
    length := (m.length + (2 ^ 64 - 1)) % 2 ^ 64 }

/-- The loop of `remove` that puts the rest of the cluster again. -/
def rehashLoop (put : Hashmap K V → K → V → Option (Bool × Hashmap K V)) :
    ℕ → Hashmap K V → ℕ → Option (Hashmap K V)
  | 0, _, _ => none
  | fuel + 1, m, idx =>
    if (m.entries idx).filled then
      match put (m.rmidx idx) (m.entries idx).key (m.entries idx).val with
      | none => none
      | some (_, m) => rehashLoop put fuel m (m.maskNext idx)
    else some m

def remove (size : EntrySize) (mem : ℕ → Bool) (depth : ℕ) (m : Hashmap K V) (key : K) :
    Option (Bool × Hashmap K V) :=
  match m.search m.maskNext key m.cap (m.home hashfn key) with
  | none => none
  | some idx =>
    if (m.entries idx).filled = false then some (true, m)
    else
      match rehashLoop (put hashfn size mem depth) m.cap (m.rmidx idx) (m.maskNext idx) with
      | none => none
      | some m =>
        if 0 < m.length ∧ m.length ≤ m.cap / 8 then
          resize size mem (put hashfn size mem depth) m (m.cap / 2)
        else some (true, m)

def clear (m : Hashmap K V) : Hashmap K V := { m with entries := zeros, length := 0 }

end Hashmap
end Multiplix.Core
