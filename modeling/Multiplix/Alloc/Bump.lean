import Multiplix.Alloc.BlockSafety

/-! The bump allocator of `plix.alloc.bump`. A failed assertion is `none`. -/
namespace Multiplix.Alloc

/-- `align_off`: what makes `p` a multiple of `algn`, where that is a power of two. -/
def alignOff (p algn : ℕ) : ℕ :=
  ((~~~BitVec.ofNat 64 p + 1) &&& (BitVec.ofNat 64 algn - 1)).toNat

/-- What an allocator returned, with the size that was asked for. -/
structure Chunk where
  ptr : ℕ
  size : ℕ
  deriving DecidableEq

structure BumpAlloc where
  base : ℕ
  end_ : ℕ

namespace BumpAlloc

variable (alignment : ℕ)

def new (heapStart len : ℕ) : Option BumpAlloc :=
  let base := (heapStart + alignOff heapStart alignment) % 2 ^ 64
  let end_ := (base + len) % 2 ^ 64
  if end_ ≥ base ∧ base % alignment = 0 ∧ end_ % alignment = 0 then some ⟨base, end_⟩ else none

def alloc (a : BumpAlloc) (sz : ℕ) : Option (ℕ × BumpAlloc) :=
  if (sz + alignOff sz alignment) % 2 ^ 64 ≥ sz then
    let sz := (sz + alignOff sz alignment) % 2 ^ 64
    if (a.base + sz) % 2 ^ 64 ≥ a.base then
      if (a.base + sz) % 2 ^ 64 > a.end_ then some (0, a)
      else some (a.base, { a with base := (a.base + sz) % 2 ^ 64 })
    else none
  else none

end BumpAlloc

/-- The memory an allocator is given, as words. -/
structure Arena where
  start : ℕ
  len : ℕ
  start_lt : start < 2 ^ 64
  len_lt : len < 2 ^ 64

/-- The blocks are in the arena, and apart. -/
structure Arena.Holds (g : Arena) (live : List Chunk) : Prop where
  inside : ∀ u ∈ live, ∀ x, u.ptr ≤ x → x < u.ptr + u.size → g.start ≤ x ∧ x < g.start + g.len
  apart : live.Pairwise fun u v => BlockSystem.Apart u.ptr u.size v.ptr v.size

namespace BumpAlloc

variable (g : Arena) (alignment : ℕ)

/-- The states of the runs of calls that trip no assertion and meet a condition, with what was
returned. -/
inductive Reached (cond : BumpAlloc → ℕ → Prop) : BumpAlloc → List Chunk → Prop
  | init {a : BumpAlloc} : new alignment g.start g.len = some a → Reached cond a []
  | alloc {a a' : BumpAlloc} {live : List Chunk} {sz p : ℕ} : Reached cond a live →
      a.alloc alignment sz = some (p, a') → cond a sz →
      Reached cond a' (if p = 0 then live else ⟨p, sz⟩ :: live)

/-- A request that is answered is rounded up to a multiple of the alignment, and leaves as many
bytes at the end as were skipped at the start. -/
def Keeps (a : BumpAlloc) (sz : ℕ) : Prop :=
  a.base + (sz + alignOff sz alignment) ≤ a.end_ → alignment ∣ sz + alignOff sz alignment ∧
    (sz ≠ 0 → g.start + alignOff g.start alignment < 2 ^ 64 ∧
      a.base + sz + alignOff g.start alignment ≤ a.end_)

/-- What holds between the calls. -/
structure Inv (a : BumpAlloc) (live : List Chunk) : Prop where
  start : g.start + alignOff g.start alignment < 2 ^ 64 →
    g.start ≤ a.base ∧ a.end_ = g.start + alignOff g.start alignment + g.len
  base : alignment ∣ a.base
  below : ∀ u ∈ live, u.ptr + u.size ≤ a.base
  aligned : ∀ u ∈ live, alignment ∣ u.ptr
  holds : g.Holds live

variable {g alignment} {a a' : BumpAlloc} {live : List Chunk} {sz p : ℕ}

theorem alignOff_lt (p algn : ℕ) : alignOff p algn < 2 ^ 64 := BitVec.isLt _

theorem Inv.init (h : new alignment g.start g.len = some a) : Inv g alignment a [] := by
  have hoff := alignOff_lt g.start alignment
  have hstart := g.start_lt
  have hlen := g.len_lt
  unfold new at h
  dsimp only at h
  split_ifs at h with hc
  obtain ⟨hle, hbase, -⟩ := hc
  cases h
  refine ⟨fun hlt => ?_, Nat.dvd_of_mod_eq_zero hbase, ?_, ?_, ?_, .nil⟩
  · dsimp only
    rw [Nat.mod_eq_of_lt hlt] at hle ⊢
    omega
  all_goals exact fun u hu => absurd hu List.not_mem_nil

/-- The sums of a call that is answered do not wrap. -/
theorem alloc_cases (h : a.alloc alignment sz = some (p, a')) :
    (p = 0 ∧ a' = a) ∨ (a.base + (sz + alignOff sz alignment) ≤ a.end_ ∧ p = a.base ∧
      a' = { a with base := a.base + (sz + alignOff sz alignment) }) := by
  have hoff := alignOff_lt sz alignment
  unfold alloc at h
  dsimp only at h
  split_ifs at h with hsz hbase hend
  · cases h
    exact Or.inl ⟨rfl, rfl⟩
  · cases h
    have hsum : (a.base + (sz + alignOff sz alignment) % 2 ^ 64) % 2 ^ 64 =
        a.base + (sz + alignOff sz alignment) := by omega
    rw [hsum] at hend ⊢
    exact Or.inr ⟨by omega, rfl, rfl⟩

theorem Inv.alloc (h : Inv g alignment a live) (hx : a.alloc alignment sz = some (p, a'))
    (hc : Keeps g alignment a sz) :
    Inv g alignment a' (if p = 0 then live else ⟨p, sz⟩ :: live) := by
  rcases alloc_cases hx with ⟨rfl, rfl⟩ | ⟨hle, rfl, rfl⟩
  · exact h
  obtain ⟨hround, hkeep⟩ := hc hle
  have hold : Inv g alignment { a with base := a.base + (sz + alignOff sz alignment) } live :=
    { h with
      start := fun hlt => ⟨by have := (h.start hlt).1; dsimp only; omega, (h.start hlt).2⟩
      base := Nat.dvd_add h.base hround
      below := fun u hu => (h.below u hu).trans (Nat.le_add_right _ _) }
  split_ifs
  · exact hold
  refine { hold with below := ?_, aligned := ?_, holds := ⟨?_, ?_⟩ }
  · intro u hu
    rcases List.mem_cons.mp hu with rfl | hu
    · dsimp only
      omega
    · exact hold.below u hu
  · intro u hu
    rcases List.mem_cons.mp hu with rfl | hu
    · exact h.base
    · exact h.aligned u hu
  · intro u hu x hx hx'
    rcases List.mem_cons.mp hu with rfl | hu
    · dsimp only at hx hx'
      obtain ⟨hlt, hfit⟩ := hkeep (by omega)
      obtain ⟨hstart, hend⟩ := h.start hlt
      omega
    · exact h.holds.inside u hu x hx hx'
  · exact List.pairwise_cons.mpr ⟨fun v hv => Or.inr (h.below v hv), h.holds.apart⟩

theorem Reached.inv (hr : Reached g alignment (Keeps g alignment) a live) :
    Inv g alignment a live := by
  induction hr with
  | init h => exact .init h
  | alloc _ hx hc ih => exact ih.alloc hx hc

end BumpAlloc
end Multiplix.Alloc
