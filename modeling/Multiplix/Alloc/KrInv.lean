import Multiplix.Alloc.Bump
import Multiplix.Alloc.Kr

/-! The free list of the K&R allocator: blocks in a cycle by their addresses, and the header in the
allocator among them. -/
namespace Multiplix.Alloc
open Lib

/-- The blocks on the list are between `lo` and `hi`, in units of `H` bytes; the header at `base` is
outside, with size zero. -/
structure FreeList (H base lo hi : ℕ) (S : Set ℕ) (next size : ℕ → ℕ) : Prop where
  cyclic : Cyclic S next
  base_mem : base ∈ S
  base_size : size base = 0
  block : ∀ x ∈ S, x ≠ base → lo ≤ x ∧ 0 < x ∧ 0 < size x ∧ x + size x * H ≤ hi ∧
    x + size x * H ≠ base
  apart : ∀ x ∈ S, ∀ y ∈ S, x < y → x + size x * H ≤ y

namespace FreeList

variable {H base lo hi : ℕ} {S : Set ℕ} {next size next' size' : ℕ → ℕ} {p bp n k : ℕ}

theorem congr (h : FreeList H base lo hi S next size) (hn : ∀ x ∈ S, next' x = next x)
    (hs : ∀ x ∈ S, size' x = size x) : FreeList H base lo hi S next' size' where
  cyclic := h.cyclic.congr hn
  base_mem := h.base_mem
  base_size := by rw [hs base h.base_mem, h.base_size]
  block x hx hb := by
    rw [hs x hx]
    exact h.block x hx hb
  apart x hx y hy hxy := by
    rw [hs x hx]
    exact h.apart x hx y hy hxy

/-- No other block starts in front of the end of one. -/
theorem sep (h : FreeList H base lo hi S next size) {x y : ℕ} (hx : x ∈ S) (hy : y ∈ S)
    (hne : x ≠ y) : x + size x * H ≤ y ∨ y + size y * H ≤ x := by
  rcases Nat.lt_or_gt_of_ne hne with hlt | hlt
  · exact Or.inl (h.apart x hx y hy hlt)
  · exact Or.inr (h.apart y hy x hx hlt)

/-- A block takes a unit at least. -/
theorem le_mul (h : FreeList H base lo hi S next size) (hp : p ∈ S) (hb : p ≠ base) :
    H ≤ size p * H :=
  Nat.le_mul_of_pos_left _ (h.block p hp hb).2.2.1

theorem next_ne (h : FreeList H base lo hi S next size) (hp : p ∈ S) (hb : next p ≠ base) :
    next p ≠ p := fun he =>
  hb (he.trans (h.cyclic.eq_of_next_self hp he h.base_mem).symm)

/-- A block that is not on the list, and apart from those that are. -/
theorem insert (h : FreeList H base lo hi S next size) (hp : p ∈ S) (hbp : bp ∉ S)
    (hpos : Between p bp (next p)) (hlo : lo ≤ bp) (h0 : 0 < bp) (hn : 0 < n)
    (hhi : bp + n * H ≤ hi) (hb : bp + n * H ≠ base)
    (hsep : ∀ x ∈ S, x + size x * H ≤ bp ∨ bp + n * H ≤ x) :
    FreeList H base lo hi (Insert.insert bp S)
      (Function.update (Function.update next bp (next p)) p bp) (Function.update size bp n) := by
  have hold : ∀ x ∈ S, Function.update size bp n x = size x := fun x hx =>
    Function.update_of_ne (fun he : x = bp => hbp (he ▸ hx)) _ _
  have hle : ∀ k : ℕ, k ≤ k + n * H := fun k => Nat.le_add_right _ _
  refine ⟨h.cyclic.insert hp hbp hpos, Or.inr h.base_mem, ?_, ?_, ?_⟩
  · rw [hold base h.base_mem, h.base_size]
  · rintro x (rfl | hx) hxb
    · rw [Function.update_self]
      exact ⟨hlo, h0, hn, hhi, hb⟩
    · rw [hold x hx]
      exact h.block x hx hxb
  · rintro x (rfl | hx) y (rfl | hy) hxy
    · exact absurd hxy (lt_irrefl _)
    · rw [Function.update_self]
      rcases hsep y hy with hs | hs
      · have := Nat.le_add_right y (size y * H)
        omega
      · exact hs
    · rw [hold x hx]
      rcases hsep x hx with hs | hs
      · exact hs
      · have := hle y
        omega
    · rw [hold x hx]
      exact h.apart x hx y hy hxy

/-- The block behind one goes. -/
theorem take (h : FreeList H base lo hi S next size) (hp : p ∈ S) (hb : next p ≠ base) :
    FreeList H base lo hi (S \ {next p}) (Function.update next p (next (next p))) size where
  cyclic := h.cyclic.erase hp (h.next_ne hp hb)
  base_mem := ⟨h.base_mem, fun he => hb (Eq.symm he)⟩
  base_size := h.base_size
  block x hx := h.block x hx.1
  apart x hx y hy := h.apart x hx.1 y hy.1

/-- A block grows to what it contains the one behind it. -/
theorem merge (h : FreeList H base lo hi S next size) (hp : p ∈ S) (hb : p ≠ base)
    (hadj : p + size p * H = next p) :
    FreeList H base lo hi (S \ {next p}) (Function.update next p (next (next p)))
      (Function.update size p (size p + size (next p))) := by
  obtain ⟨hlo, h0, hpos, hhi, hend⟩ := h.block p hp hb
  have hq : next p ∈ S := (h.cyclic p hp).1
  have hqb : next p ≠ base := hadj ▸ hend
  obtain ⟨-, -, -, hhi', hend'⟩ := h.block (next p) hq hqb
  have hsum : p + (size p + size (next p)) * H = next p + size (next p) * H := by
    rw [Nat.add_mul, ← hadj]
    omega
  have htake := h.take hp hqb
  have hold : ∀ x, x ≠ p → Function.update size p (size p + size (next p)) x = size x :=
    fun x hx => Function.update_of_ne hx _ _
  refine ⟨htake.cyclic, htake.base_mem, ?_, ?_, ?_⟩
  · rw [hold base (Ne.symm hb), h.base_size]
  · intro x hx hxb
    by_cases hxp : x = p
    · rw [hxp, Function.update_self, hsum]
      exact ⟨hlo, h0, by omega, hhi', hend'⟩
    · rw [hold x hxp]
      exact h.block x hx.1 hxb
  · intro x hx y hy hxy
    by_cases hxp : x = p
    · rw [hxp] at hxy
      rw [hxp, Function.update_self, hsum]
      have hle := h.apart p hp y hy.1 hxy
      have hne : y ≠ next p := hy.2
      exact h.apart (next p) hq y hy.1 (by omega)
    · rw [hold x hxp]
      exact h.apart x hx.1 y hy.1 hxy

/-- What is apart from both blocks is apart from what they become. -/
theorem merge_clear (hp : p ∈ S) (hq : next p ∈ S) (hadj : p + size p * H = next p) {c d : ℕ}
    (hcd : c < d) (hclear : ∀ x ∈ S, x + size x * H ≤ c ∨ d ≤ x) :
    ∀ x ∈ S \ {next p}, x + Function.update size p (size p + size (next p)) x * H ≤ c ∨ d ≤ x := by
  intro x hx
  by_cases hxp : x = p
  · have hsum : p + (size p + size (next p)) * H = next p + size (next p) * H := by
      rw [Nat.add_mul, ← hadj]
      omega
    rw [hxp, Function.update_self, hsum]
    have h1 := hclear p hp
    have h2 := hclear (next p) hq
    omega
  · rw [Function.update_of_ne hxp]
    exact hclear x hx.1

/-- A block gives away its end. -/
theorem shrink (h : FreeList H base lo hi S next size) (hout : base < lo ∨ hi ≤ base) (hp : p ∈ S)
    (hk : 0 < k) (hlt : k < size p) (hH : 0 < H) :
    FreeList H base lo hi S next (Function.update size p k) := by
  have hb : p ≠ base := fun he => by
    rw [he, h.base_size] at hlt
    omega
  obtain ⟨hlo, h0, hpos, hhi, hend⟩ := h.block p hp hb
  have hmul : p + k * H < p + size p * H :=
    Nat.add_lt_add_left (Nat.mul_lt_mul_of_pos_right hlt hH) p
  have hold : ∀ x, x ≠ p → Function.update size p k x = size x :=
    fun x hx => Function.update_of_ne hx _ _
  refine ⟨h.cyclic, h.base_mem, ?_, ?_, ?_⟩
  · rw [hold base (Ne.symm hb), h.base_size]
  · intro x hx hxb
    by_cases hxp : x = p
    · rw [hxp, Function.update_self]
      exact ⟨hlo, h0, hk, by omega, by omega⟩
    · rw [hold x hxp]
      exact h.block x hx hxb
  · intro x hx y hy hxy
    by_cases hxp : x = p
    · rw [hxp] at hxy
      rw [hxp, Function.update_self]
      have hle := h.apart p hp y hy hxy
      omega
    · rw [hold x hxp]
      exact h.apart x hx y hy hxy

end FreeList

/-! ### Headers in memory -/

namespace KrHeader

/-- The headers at these addresses do not overlap. -/
def Spread (D : Set ℕ) : Prop := ∀ x ∈ D, ∀ y ∈ D, x ≠ y → x + 16 ≤ y ∨ y + 16 ≤ x

variable {D : Set ℕ} {m : Mem} {x y v : ℕ}

theorem ptr_lt (m : Mem) (x : ℕ) : ptr m x < 2 ^ 64 := Mem.load_lt 8 m x

theorem size_lt (m : Mem) (x : ℕ) : size m x < 2 ^ 64 := Mem.load_lt 8 m (x + 8)

theorem ptr_setPtr (hD : Spread D) (hx : x ∈ D) (hy : y ∈ D) (hv : v < 2 ^ 64) :
    ptr (setPtr m y v) x = Function.update (ptr m) y v x := by
  unfold ptr setPtr
  by_cases he : x = y
  · rw [he, Function.update_self]
    exact Mem.load_store_word m y hv
  · rw [Function.update_of_ne he]
    have hd := hD x hx y hy he
    exact Mem.load_store_disjoint m v (by omega)

theorem size_setPtr (hD : Spread D) (hx : x ∈ D) (hy : y ∈ D) :
    size (setPtr m y v) x = size m x := by
  unfold size setPtr
  refine Mem.load_store_disjoint m v ?_
  by_cases he : x = y
  · omega
  · have hd := hD x hx y hy he
    omega

theorem ptr_setSize (hD : Spread D) (hx : x ∈ D) (hy : y ∈ D) :
    ptr (setSize m y v) x = ptr m x := by
  unfold ptr setSize
  refine Mem.load_store_disjoint m v ?_
  by_cases he : x = y
  · omega
  · have hd := hD x hx y hy he
    omega

theorem size_setSize (hD : Spread D) (hx : x ∈ D) (hy : y ∈ D) (hv : v < 2 ^ 64) :
    size (setSize m y v) x = Function.update (size m) y v x := by
  unfold size setSize
  by_cases he : x = y
  · rw [he, Function.update_self]
    exact Mem.load_store_word m (y + 8) hv
  · rw [Function.update_of_ne he]
    have hd := hD x hx y hy he
    exact Mem.load_store_disjoint m v (by omega)

/-- A header is the same where its bytes are. -/
theorem ptr_congr {m' : Mem} (h : m.SameOn m' x 16) : ptr m' x = ptr m x :=
  Mem.load_congr (h.mono (by omega) (by omega))

theorem size_congr {m' : Mem} (h : m.SameOn m' x 16) : size m' x = size m x :=
  Mem.load_congr (h.mono (by omega) (by omega))

/-- Nothing but headers at these addresses was written. -/
def WritesOnly (D : Set ℕ) (m m' : Mem) : Prop := ∀ x, (∀ y ∈ D, x < y ∨ y + 16 ≤ x) → m' x = m x

theorem writesOnly_setPtr (hy : y ∈ D) : WritesOnly D m (setPtr m y v) := fun x hx => by
  have hd := hx y hy
  exact Mem.store_outside m v (by omega)

theorem writesOnly_setSize (hy : y ∈ D) : WritesOnly D m (setSize m y v) := fun x hx => by
  have hd := hx y hy
  exact Mem.store_outside m v (by omega)

theorem WritesOnly.trans {m' m'' : Mem} (h : WritesOnly D m m') (h' : WritesOnly D m' m'') :
    WritesOnly D m m'' := fun x hx => (h' x hx).trans (h x hx)

/-! A join writes the size of a block, then its link. -/

theorem ptr_join {k : ℕ} (hD : Spread D) (hx : x ∈ D) (hy : y ∈ D) (hv : v < 2 ^ 64) :
    ptr (setPtr (setSize m y k) y v) x = Function.update (ptr m) y v x := by
  rw [ptr_setPtr hD hx hy hv]
  by_cases he : x = y
  · rw [he, Function.update_self, Function.update_self]
  · rw [Function.update_of_ne he, Function.update_of_ne he, ptr_setSize hD hx hy]

theorem size_join {k : ℕ} (hD : Spread D) (hx : x ∈ D) (hy : y ∈ D) (hk : k < 2 ^ 64) :
    size (setPtr (setSize m y k) y v) x = Function.update (size m) y k x := by
  rw [size_setPtr hD hx hy, size_setSize hD hx hy hk]

theorem writesOnly_join {k : ℕ} (hy : y ∈ D) : WritesOnly D m (setPtr (setSize m y k) y v) :=
  (writesOnly_setSize hy).trans (writesOnly_setPtr hy)

end KrHeader

open KrHeader (sizeof ptr size setPtr setSize Spread WritesOnly)

namespace KrAlloc

variable {alignment : ℕ} {a a' : KrAlloc} {m m' : Mem} {S D : Set ℕ} {p bp fuel : ℕ}

theorem le_sizeof (alignment : ℕ) : 16 ≤ sizeof alignment := by
  unfold sizeof
  dsimp only
  have hmod := Nat.mod_lt (16 + max alignment 8 - 1) (show 0 < max alignment 8 by omega)
  have hdiv := Nat.div_add_mod (16 + max alignment 8 - 1) (max alignment 8)
  rw [Nat.mul_comm] at hdiv
  omega

theorem advance_eq {H n : ℕ} (hH : H = sizeof alignment) (h : p + n * H < 2 ^ 64) :
    advance alignment p n = p + n * H := by
  rw [advance, ← hH]
  exact Nat.mod_eq_of_lt h

theorem advance_one {H : ℕ} (hH : H = sizeof alignment) (h : p + H < 2 ^ 64) :
    advance alignment p 1 = p + H := by
  rw [advance_eq hH (by omega), Nat.one_mul]

/-- What the sizes of blocks below `2 ^ 64` add up to is a word. -/
theorem add_lt_of_mul_lt {H i j : ℕ} (hH : H = sizeof alignment) (h : (i + j) * H < 2 ^ 64) :
    i + j < 2 ^ 64 := by
  have hunit := le_sizeof alignment
  exact lt_of_le_of_lt (Nat.le_mul_of_pos_right _ (by omega)) h

theorem freeLoop_spec (hc : Cyclic S (ptr m)) (hp : p ∈ S) {r : ℕ}
    (h : freeLoop m bp fuel p = some r) : r ∈ S ∧ Between r bp (ptr m r) := by
  induction fuel generalizing p with
  | zero => cases h
  | succ fuel ih =>
    unfold freeLoop at h
    split_ifs at h with h1 h2
    · cases h
      exact ⟨hp, Or.inl h1⟩
    · cases h
      exact ⟨hp, Or.inr h2⟩
    · exact ih (hc p hp).1 h

/-- What `freeInternal` does to the list: `bp` is behind `p`, with what it was joined with. -/
theorem joinUpper_spec {H base lo hi : ℕ} (hH : H = sizeof alignment) (hlt : hi < 2 ^ 64)
    (hl : FreeList H base lo hi S (ptr m) (size m)) (hD : Spread (insert bp S)) (hp : p ∈ S)
    (hbp : bp ∉ S) (hpos : Between p bp (ptr m p)) (hlo : lo ≤ bp) (h0 : 0 < bp)
    (hn : 0 < size m bp) (hhi : bp + size m bp * H ≤ hi) (hb : bp + size m bp * H ≠ base)
    (hbase : bp ≠ base) (hsep : ∀ x ∈ S, x + size m x * H ≤ bp ∨ bp + size m bp * H ≤ x) :
    ∃ S₁ ⊆ insert bp S, p ∈ S₁ ∧ bp ∈ S₁ ∧
      FreeList H base lo hi S₁ (Function.update (ptr (joinUpper alignment m p bp)) p bp)
        (size (joinUpper alignment m p bp)) ∧
      WritesOnly (insert bp S) m (joinUpper alignment m p bp) ∧
      size m bp ≤ size (joinUpper alignment m p bp) bp ∧
      ∀ c d, c < d → (∀ x ∈ S, x + size m x * H ≤ c ∨ d ≤ x) →
        (bp + size m bp * H ≤ c ∨ d ≤ bp) →
        ∀ x ∈ S₁, x + size (joinUpper alignment m p bp) x * H ≤ c ∨ d ≤ x := by
  have hmem : bp ∈ insert bp S := Set.mem_insert _ _
  have hpmem : p ∈ insert bp S := Set.mem_insert_of_mem _ hp
  have hpbp : p ≠ bp := fun he => hbp (he ▸ hp)
  have hins := hl.insert hp hbp hpos hlo h0 hn hhi hb hsep
  rw [Function.update_eq_self] at hins
  have hadv : advance alignment bp (size m bp) = bp + size m bp * H := advance_eq hH (by omega)
  unfold joinUpper
  rw [hadv]
  by_cases hup : bp + size m bp * H = ptr m p
  · rw [if_pos hup]
    dsimp only
    have hq : ptr m p ∈ S := (hl.cyclic p hp).1
    have hqmem : ptr m p ∈ insert bp S := Set.mem_insert_of_mem _ hq
    have hqbase : ptr m p ≠ base := hup ▸ hb
    have hqp := hl.next_ne hp hqbase
    have hqbp : ptr m p ≠ bp := fun he => hbp (he ▸ hq)
    obtain ⟨-, -, -, hqhi, -⟩ := hl.block _ hq hqbase
    have hk : size m bp + size m (ptr m p) < 2 ^ 64 :=
      add_lt_of_mul_lt hH (by rw [Nat.add_mul]; omega)
    set k := size m bp + size m (ptr m p) with hkdef
    have hptr₀ : ∀ x ∈ insert bp S, ptr (setSize m bp k) x = ptr m x := fun x hx =>
      KrHeader.ptr_setSize hD hx hmem
    rw [hptr₀ p hpmem, hptr₀ _ hqmem]
    set m₁ := setPtr (setSize m bp k) bp (ptr m (ptr m p)) with hm₁
    have hptr : ∀ x ∈ insert bp S,
        ptr m₁ x = Function.update (ptr m) bp (ptr m (ptr m p)) x := fun x hx =>
      KrHeader.ptr_join hD hx hmem (KrHeader.ptr_lt _ _)
    have hsz : ∀ x ∈ insert bp S, size m₁ x = Function.update (size m) bp k x := fun x hx =>
      KrHeader.size_join hD hx hmem hk
    -- the block behind `bp` on the list that `bp` was put on
    have hnext : Function.update (Function.update (ptr m) bp (ptr m p)) p bp bp = ptr m p := by
      rw [Function.update_of_ne (Ne.symm hpbp), Function.update_self]
    have hmerge := hins.merge hmem hbase (hup.trans hnext.symm)
    rw [hnext, Function.update_of_ne hqp, Function.update_of_ne hqbp] at hmerge
    refine ⟨insert bp S \ {ptr m p}, Set.sdiff_subset, ⟨hpmem, Ne.symm hqp⟩, ⟨hmem, Ne.symm hqbp⟩,
      hmerge.congr (fun x hx => ?_) (fun x hx => hsz x hx.1), ?_, ?_, ?_⟩
    · by_cases hxp : x = p
      · rw [hxp, Function.update_self, Function.update_of_ne hpbp, Function.update_self]
      · rw [Function.update_of_ne hxp, hptr x hx.1]
        by_cases hxbp : x = bp
        · rw [hxbp, Function.update_self, Function.update_self]
        · rw [Function.update_of_ne hxbp, Function.update_of_ne hxbp, Function.update_of_ne hxp,
            Function.update_of_ne hxbp]
    · exact KrHeader.writesOnly_join hmem
    · rw [hsz bp hmem, Function.update_self]
      exact Nat.le_add_right _ _
    · intro c d hcd hclear hclear' x hx
      have hmc := FreeList.merge_clear hmem (hins.cyclic bp hmem).1 (hup.trans hnext.symm) hcd
        (fun y hy => by
          rcases hy with rfl | hy
          · exact hclear'
          · exact hclear y hy)
      rw [hnext] at hmc
      rw [hsz x hx.1]
      exact hmc x hx
  · rw [if_neg hup]
    have hptr : ∀ x ∈ insert bp S,
        ptr (setPtr m bp (ptr m p)) x = Function.update (ptr m) bp (ptr m p) x := fun x hx =>
      KrHeader.ptr_setPtr hD hx hmem (KrHeader.ptr_lt _ _)
    have hsz : ∀ x ∈ insert bp S, size (setPtr m bp (ptr m p)) x = size m x := fun x hx =>
      KrHeader.size_setPtr hD hx hmem
    refine ⟨insert bp S, subset_rfl, hpmem, hmem, hins.congr (fun x hx => ?_) (fun x hx => ?_),
      KrHeader.writesOnly_setPtr hmem, (hsz bp hmem).ge, fun c d hcd hclear hclear' x hx => ?_⟩
    · by_cases hxp : x = p
      · rw [hxp, Function.update_self, Function.update_self]
      · rw [Function.update_of_ne hxp, Function.update_of_ne hxp, hptr x hx]
    · exact hsz x hx
    · rw [hsz x hx]
      rcases hx with rfl | hx
      · exact hclear'
      · exact hclear x hx

/-- The link to `bp`, or the join. -/
theorem joinLower_spec {H base lo hi n : ℕ} (hH : H = sizeof alignment) (hlt : hi < 2 ^ 64)
    (hbaselt : base < 2 ^ 64) (hD : Spread D) (hS : S ⊆ D) (hp : p ∈ S) (hbp : bp ∈ S)
    (hne : p ≠ bp) (hbase : bp ≠ base)
    (hl : FreeList H base lo hi S (Function.update (ptr m) p bp) (size m)) (hn : n ≤ size m bp) :
    ∃ S' ⊆ S, p ∈ S' ∧
      FreeList H base lo hi S' (ptr (joinLower alignment m p bp))
        (size (joinLower alignment m p bp)) ∧
      WritesOnly D m (joinLower alignment m p bp) ∧
      (∃ y ∈ S', n ≤ size (joinLower alignment m p bp) y) ∧
      ∀ c d, c < d → (∀ x ∈ S, x + size m x * H ≤ c ∨ d ≤ x) →
        ∀ x ∈ S', x + size (joinLower alignment m p bp) x * H ≤ c ∨ d ≤ x := by
  have hpmem := hS hp
  have hbpmem := hS hbp
  have hend : p + size m p * H < 2 ^ 64 := by
    by_cases hpb : p = base
    · rw [hpb, hl.base_size]
      omega
    · obtain ⟨-, -, -, hphi, -⟩ := hl.block p hp hpb
      omega
  have hadv : advance alignment p (size m p) = p + size m p * H := advance_eq hH hend
  have hbplt : bp < 2 ^ 64 := by
    obtain ⟨-, -, -, hbphi, -⟩ := hl.block bp hbp hbase
    omega
  unfold joinLower
  rw [hadv]
  by_cases hlow : p + size m p * H = bp
  · rw [if_pos hlow]
    dsimp only
    have hpb : p ≠ base := fun he => by
      rw [he, hl.base_size] at hlow
      omega
    obtain ⟨-, -, -, hbphi, -⟩ := hl.block bp hbp hbase
    have hk : size m p + size m bp < 2 ^ 64 := add_lt_of_mul_lt hH (by rw [Nat.add_mul]; omega)
    set k := size m p + size m bp with hkdef
    rw [KrHeader.ptr_setSize hD hbpmem hpmem]
    set m₁ := setPtr (setSize m p k) p (ptr m bp) with hm₁
    have hptr : ∀ x ∈ S, ptr m₁ x = Function.update (ptr m) p (ptr m bp) x := fun x hx =>
      KrHeader.ptr_join hD (hS hx) hpmem (KrHeader.ptr_lt _ _)
    have hsz : ∀ x ∈ S, size m₁ x = Function.update (size m) p k x := fun x hx =>
      KrHeader.size_join hD (hS hx) hpmem hk
    have hnext : Function.update (ptr m) p bp p = bp := Function.update_self _ _ _
    have hmerge := hl.merge hp hpb (hlow.trans hnext.symm)
    rw [hnext, Function.update_of_ne (Ne.symm hne), Function.update_idem] at hmerge
    refine ⟨S \ {bp}, Set.sdiff_subset, ⟨hp, hne⟩,
      hmerge.congr (fun x hx => hptr x hx.1) (fun x hx => hsz x hx.1), ?_, ⟨p, ⟨hp, hne⟩, ?_⟩, ?_⟩
    · exact KrHeader.writesOnly_join hpmem
    · rw [hsz p hp, Function.update_self]
      omega
    · intro c d hcd hclear x hx
      have hmc := FreeList.merge_clear hp (hl.cyclic p hp).1 (hlow.trans hnext.symm) hcd hclear
      rw [hnext] at hmc
      rw [hsz x hx.1]
      exact hmc x hx
  · rw [if_neg hlow]
    have hsz : ∀ x ∈ S, size (setPtr m p bp) x = size m x := fun x hx =>
      KrHeader.size_setPtr hD (hS hx) hpmem
    refine ⟨S, subset_rfl, hp, hl.congr (fun x hx => ?_) hsz, KrHeader.writesOnly_setPtr hpmem,
      ⟨bp, hbp, ?_⟩, fun c d hcd hclear x hx => ?_⟩
    · exact KrHeader.ptr_setPtr hD (hS hx) hpmem hbplt
    · rw [hsz bp hbp]
      exact hn
    · rw [hsz x hx]
      exact hclear x hx

/-- A block goes on the list, joined with its neighbours, and the rest of memory is left alone. -/
theorem freeInternal_spec {H base lo hi : ℕ} (hH : H = sizeof alignment) (hlt : hi < 2 ^ 64)
    (hbaselt : base < 2 ^ 64) (hl : FreeList H base lo hi S (ptr m) (size m))
    (hD : Spread (insert bp S)) (hf : a.freep ∈ S) (hbp : bp ∉ S) (hlo : lo ≤ bp) (h0 : 0 < bp)
    (hn : 0 < size m bp) (hhi : bp + size m bp * H ≤ hi) (hb : bp + size m bp * H ≠ base)
    (hsep : ∀ x ∈ S, x + size m x * H ≤ bp ∨ bp + size m bp * H ≤ x)
    (hr : freeInternal alignment fuel a m (bp + H) = some (a', m')) :
    ∃ S' ⊆ insert bp S, FreeList H base lo hi S' (ptr m') (size m') ∧ a'.freep ∈ S' ∧
      a' = { a with freep := a'.freep } ∧ WritesOnly (insert bp S) m m' ∧
      (∃ y ∈ S', size m bp ≤ size m' y) ∧
      ∀ c d, c < d → (∀ x ∈ S, x + size m x * H ≤ c ∨ d ≤ x) →
        (bp + size m bp * H ≤ c ∨ d ≤ bp) → ∀ x ∈ S', x + size m' x * H ≤ c ∨ d ≤ x := by
  have hbase : bp ≠ base := fun he => hbp (he ▸ hl.base_mem)
  have hpos : H ≤ size m bp * H := Nat.le_mul_of_pos_left _ hn
  have hbp' : (bp + H + 2 ^ 64 - sizeof alignment) % 2 ^ 64 = bp := by
    rw [← hH]
    omega
  unfold freeInternal at hr
  rw [hbp'] at hr
  obtain ⟨p, hloop, hres⟩ := Option.map_eq_some_iff.mp hr
  cases hres
  obtain ⟨hp, hbetween⟩ := freeLoop_spec hl.cyclic hf hloop
  obtain ⟨S₁, hsub, hp₁, hbp₁, hl₁, hw₁, hn₁, hclear₁⟩ := joinUpper_spec hH hlt hl hD hp hbp
    hbetween hlo h0 hn hhi hb hbase hsep
  obtain ⟨S', hsub', hp', hl', hw', hy, hclear'⟩ := joinLower_spec hH hlt hbaselt hD hsub hp₁ hbp₁
    (fun he => hbp (he ▸ hp)) hbase hl₁ hn₁
  exact ⟨S', hsub'.trans hsub, hl', hp', rfl, hw₁.trans hw', hy, fun c d hcd hc hcbp =>
    hclear' c d hcd (hclear₁ c d hcd hc hcbp)⟩

end KrAlloc

end Multiplix.Alloc
