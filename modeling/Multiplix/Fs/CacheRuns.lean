import Mathlib.Data.Fintype.Card
import Multiplix.Fs.Cache

/-! Runs of the buffer cache. Its list holds every buffer, the buffers in use hold different blocks,
and the buffers that nobody holds are recycled in the order in which they were released. -/
namespace Multiplix.Fs.Bcache
open Lib

/-- A cache in use. `held` counts the references that were handed out and not yet released, `used`
are the buffers that were ever handed out, `released` tells when each was last released, and `peak`
is the largest number of references that any buffer has had. -/
structure System where
  cache : BufferCache
  held : BufIdx → ℕ
  used : Finset BufIdx
  released : BufIdx → Option ℕ
  clock : ℕ
  peak : ℕ

inductive Event
  | get (dev blocknum : BitVec 32)
  | read (disk : Buf → Mem) (dev blocknum : BitVec 32)
  | release (b : BufIdx)

namespace System

def init (L : CircLinks BufIdx) : System where
  cache := binit L
  held := fun _ => 0
  used := ∅
  released := fun _ => none
  clock := 0
  peak := 0

/-- The buffer `b` was handed out. -/
def took (s : System) (b : BufIdx) (c : BufferCache) : System where
  cache := c
  held := Function.update s.held b (s.held b + 1)
  used := insert b s.used
  released := s.released
  clock := s.clock
  peak := max s.peak (s.held b + 1)

def exec (s : System) : Event → Except Stop System
  | .get dev blocknum => (s.cache.bget dev blocknum).map fun r => s.took r.1 r.2
  | .read disk dev blocknum => (s.cache.bread disk dev blocknum).map fun r => s.took r.1 r.2
  | .release b => .ok
      { s with
        cache := s.cache.brelease b
        held := Function.update s.held b (s.held b - 1)
        released := Function.update s.released b (some s.clock)
        clock := s.clock + 1 }

/-- Every release matches a reference. -/
def Matched (s : System) : Event → Prop
  | .release b => 0 < s.held b
  | _ => True

inductive Reachable (L : CircLinks BufIdx) : System → Prop
  | init : Reachable L (init L)
  | step {s s' : System} {e : Event} :
      Reachable L s → s.Matched e → s.exec e = .ok s' → Reachable L s'

/-- What the buffer was last used for, as a number of the device and one of the block. -/
def ident (c : BufferCache) (b : BufIdx) : BitVec 32 × BitVec 32 :=
  ((c.buf b).dev, (c.buf b).blocknum)

/-- The time is set, and later than the other one, if that is set. -/
def Later (t t' : Option ℕ) : Prop := ∀ n' ∈ t', ∃ n ∈ t, n' < n

/-- What holds of the buffer cache at every moment. -/
structure Sound (s : System) : Prop where
  linked : ∃ order, CircList s.cache.links order ∧ order.Perm (List.finRange NBUF)
  unique : ∀ b b', (s.cache.buf b).valid ∨ (s.cache.buf b).refcnt ≠ 0 →
    (s.cache.buf b').valid ∨ (s.cache.buf b').refcnt ≠ 0 →
    ident s.cache b = ident s.cache b' → b = b'
  kept : ∀ e s', s.exec e = .ok s' → ∀ b, (s.cache.buf b).refcnt ≠ 0 →
    ident s'.cache b = ident s.cache b
  recycled : ∀ dev blocknum b c, (∀ b, ident s.cache b ≠ (dev, blocknum)) →
    s.cache.bget dev blocknum = .ok (b, c) → (s.cache.buf b).refcnt = 0 ∧
      (s.peak < 2 ^ 32 → b ∈ s.used → ∀ b', (s.cache.buf b').refcnt = 0 → b' ≠ b →
        b' ∈ s.used ∧ ∃ n n', s.released b = some n ∧ s.released b' = some n' ∧ n < n')
  panics : ∀ dev blocknum x, s.cache.bget dev blocknum = .error x →
    x = .noBuffers ∧ ∀ b, 0 < s.held b

structure Inv (s : System) (order : List BufIdx) : Prop where
  ring : CircList s.cache.links order
  all : ∀ b, b ∈ order
  count : ∀ b, (s.cache.buf b).refcnt = BitVec.ofNat 32 (s.held b)
  top : ∀ b, s.held b ≤ s.peak
  fresh : ∀ b ∉ s.used, ident s.cache b = (0, 0) ∧ (s.cache.buf b).valid = false ∧
    s.held b = 0 ∧ s.released b = none
  distinct : ∀ b ∈ s.used, ∀ b' ∈ s.used, ident s.cache b = ident s.cache b' → b = b'
  /-- A buffer that is used for block 0 of device 0 comes before those that look the same because
  they were never used. -/
  first : order.Pairwise fun x y => x ∉ s.used → y ∈ s.used → ident s.cache y ≠ (0, 0)
  lru : s.peak < 2 ^ 32 → order.Pairwise fun x y => s.held x = 0 → s.held y = 0 →
    Later (s.released x) (s.released y)
  back : s.peak < 2 ^ 32 → ∀ b ∈ s.used, s.held b = 0 → s.released b ≠ none
  time : ∀ b, ∀ n ∈ s.released b, n < s.clock

end System

namespace BufferCache

variable {c : BufferCache} {dev blocknum : BitVec 32} {order : List BufIdx}

theorem bget_eq (h : CircList c.links order) : c.bget dev blocknum =
    match order.find? (c.holds dev blocknum), order.reverse.find? c.unreferenced with
    | some b, _ => .ok (b, c.setBuf b fun v => { v with refcnt := v.refcnt + 1 })
    | none, some b => .ok (b, c.setBuf b fun v =>
        { v with dev := dev, blocknum := blocknum, valid := false, refcnt := 1 })
    | none, none => .error .noBuffers := by
  have hlen : order.length ≤ NBUF := by simpa using h.nodup.length_le_card
  have hflip : order.reverse.length ≤ NBUF := by simpa using hlen
  have hprev := h.flip.path.scan_next c.unreferenced hflip
  unfold bget
  rw [h.path.scan_next (c.holds dev blocknum) hlen]
  change scan c.links.prev _ _ (c.links.prev none) = _ at hprev
  rw [hprev]
  cases order.find? (c.holds dev blocknum) with
  | some b => rfl
  | none => cases order.reverse.find? c.unreferenced <;> rfl

@[simp] theorem links_setBuf (c : BufferCache) (b : BufIdx) (f : Buf → Buf) :
    (c.setBuf b f).links = c.links := rfl

@[simp] theorem buf_setBuf_self (c : BufferCache) (b : BufIdx) (f : Buf → Buf) :
    (c.setBuf b f).buf b = f (c.buf b) := Function.update_self ..

theorem buf_setBuf_of_ne (c : BufferCache) {b x : BufIdx} (f : Buf → Buf) (h : x ≠ b) :
    (c.setBuf b f).buf x = c.buf x := Function.update_of_ne h ..

theorem ident_setBuf_of_ne (c : BufferCache) {b x : BufIdx} (f : Buf → Buf) (h : x ≠ b) :
    System.ident (c.setBuf b f) x = System.ident c x := by
  rw [System.ident, System.ident, c.buf_setBuf_of_ne f h]

theorem ident_setBuf (c : BufferCache) (b x : BufIdx) {f : Buf → Buf}
    (hf : ∀ v, (f v).dev = v.dev ∧ (f v).blocknum = v.blocknum) :
    System.ident (c.setBuf b f) x = System.ident c x := by
  rcases eq_or_ne x b with rfl | hx
  · rw [System.ident, System.ident, buf_setBuf_self, (hf _).1, (hf _).2]
  · exact c.ident_setBuf_of_ne f hx

theorem buf_brelease (c : BufferCache) (b : BufIdx) :
    (c.brelease b).buf = (c.setBuf b fun v => { v with refcnt := v.refcnt - 1 }).buf := by
  unfold brelease
  dsimp only
  split_ifs <;> rfl

theorem links_brelease (c : BufferCache) (b : BufIdx) : (c.brelease b).links =
    if ((c.brelease b).buf b).refcnt = 0 then (c.links.unlink b).pushFront b else c.links := by
  rw [buf_brelease]
  unfold brelease
  dsimp only
  split_ifs <;> rfl

theorem holds_iff {b : BufIdx} : c.holds dev blocknum b = true ↔
    System.ident c b = (dev, blocknum) := by
  simp [holds, System.ident]

end BufferCache

/-- A relation along a list that changes for pairs with `b` behind only. -/
private theorem pairwise_at {A : Type*} {R R' : A → A → Prop} {l₁ l₂ : List A} {b : A}
    (hnd : (l₁ ++ b :: l₂).Nodup) (h : (l₁ ++ b :: l₂).Pairwise R)
    (hR : ∀ x y, y ≠ b → R x y → R' x y) (hb : ∀ x ∈ l₁, R' x b) :
    (l₁ ++ b :: l₂).Pairwise R' := by
  obtain ⟨-, hr, hdis⟩ := List.nodup_append.mp hnd
  obtain ⟨h1, h2, h12⟩ := List.pairwise_append.mp h
  obtain ⟨hbl, h2⟩ := List.pairwise_cons.mp h2
  have hne1 : ∀ y ∈ l₁, y ≠ b := fun y hy => hdis y hy b (by simp)
  have hne2 : ∀ y ∈ l₂, y ≠ b := fun y hy he => (List.nodup_cons.mp hr).1 (he ▸ hy)
  refine List.pairwise_append.mpr ⟨?_, List.pairwise_cons.mpr ⟨?_, ?_⟩, ?_⟩
  · exact h1.imp_of_mem fun {x y} _ hy => hR x y (hne1 y hy)
  · exact fun y hy => hR b y (hne2 y hy) (hbl y hy)
  · exact h2.imp_of_mem fun {x y} _ hy => hR x y (hne2 y hy)
  · intro x hx y hy
    rcases List.mem_cons.mp hy with rfl | hy'
    · exact hb x hx
    · exact hR x y (hne2 y hy') (h12 x hx y hy)

namespace System

variable {s s' : System} {order : List BufIdx} {b : BufIdx} {dev blocknum : BitVec 32}

theorem Inv.used_of_held (h : s.Inv order) (hb : s.held b ≠ 0) : b ∈ s.used := by
  by_contra hu
  exact hb (h.fresh b hu).2.2.1

theorem Inv.held_of_refcnt (h : s.Inv order) (hb : (s.cache.buf b).refcnt ≠ 0) : 0 < s.held b := by
  rw [h.count] at hb
  rcases Nat.eq_zero_or_pos (s.held b) with h0 | hpos
  · rw [h0] at hb
    exact absurd rfl hb
  · exact hpos

theorem Inv.held_eq_zero (h : s.Inv order) (hp : s.peak < 2 ^ 32)
    (hb : (s.cache.buf b).refcnt = 0) : s.held b = 0 := by
  have ht := h.top b
  rw [h.count] at hb
  have hn := congrArg BitVec.toNat hb
  rwa [BitVec.toNat_ofNat, Nat.mod_eq_of_lt (by omega)] at hn

/-- No other buffer that was used looks like the one that is found. -/
theorem Inv.eq_of_find (h : s.Inv order) (hb : order.find? (s.cache.holds dev blocknum) = some b)
    {x : BufIdx} (hx : x ∈ s.used) (he : ident s.cache x = (dev, blocknum)) : x = b := by
  obtain ⟨hid, l₁, l₂, rfl, hno⟩ := List.find?_eq_some_iff_append.mp hb
  have hid := BufferCache.holds_iff.mp hid
  have hbl := (List.pairwise_cons.mp (List.pairwise_append.mp h.first).2.1).1
  by_cases hu : b ∈ s.used
  · exact h.distinct x hx b hu (he.trans hid.symm)
  · -- it comes after `b`, and after a buffer that was never used nothing that was used looks
    -- like it
    rcases List.mem_append.mp (h.all x) with hm | hm
    · have hnot := hno x hm
      rw [BufferCache.holds_iff.mpr he] at hnot
      cases hnot
    · rcases List.mem_cons.mp hm with rfl | hm
      · rfl
      · exact absurd (he.trans (hid.symm.trans (h.fresh b hu).1)) (hbl x hm hu hx)

/-- A buffer found on the list is handed out once more. -/
theorem Inv.hit (h : s.Inv order)
    (hb : order.find? (s.cache.holds dev blocknum) = some b) :
    (s.took b (s.cache.setBuf b fun v => { v with refcnt := v.refcnt + 1 })).Inv order := by
  obtain ⟨hid, l₁, l₂, rfl, hno⟩ := List.find?_eq_some_iff_append.mp hb
  have hid := BufferCache.holds_iff.mp hid
  have hno : ∀ x ∈ l₁, ident s.cache x ≠ (dev, blocknum) := fun x hx hc => by
    have := hno x hx
    rw [BufferCache.holds_iff.mpr hc] at this
    cases this
  have hident := fun x => s.cache.ident_setBuf b x
    (f := fun v => { v with refcnt := v.refcnt + 1 }) fun v => ⟨rfl, rfl⟩
  have hnd := h.ring.nodup
  have hother : ∀ x ∈ s.used, ident s.cache x = ident s.cache b → x = b := fun x hx he =>
    h.eq_of_find hb hx (he.trans hid)
  constructor
  case ring => exact h.ring
  case all => exact h.all
  case count =>
    intro x
    rcases eq_or_ne x b with rfl | hx
    · simp [took, h.count, BitVec.ofNat_add]
    · simp [took, BufferCache.buf_setBuf_of_ne _ _ hx, hx, h.count]
  case top =>
    intro x
    rcases eq_or_ne x b with rfl | hx
    · simp [took]
    · simp [took, hx, h.top x]
  case fresh =>
    intro x hx
    have hxb : x ≠ b := fun he => hx (by simp [took, he])
    obtain ⟨h1, h2, h3, h4⟩ := h.fresh x fun hc => hx (Finset.mem_insert_of_mem hc)
    exact ⟨(hident x).trans h1, by simp [took, BufferCache.buf_setBuf_of_ne _ _ hxb, h2],
      by simp [took, hxb, h3], h4⟩
  case distinct =>
    intro x hx y hy he
    simp only [took, hident] at he
    rcases Finset.mem_insert.mp hx with hxb | hx <;> rcases Finset.mem_insert.mp hy with hyb | hy
    · rw [hxb, hyb]
    · rw [hxb] at he ⊢
      exact (hother y hy he.symm).symm
    · rw [hyb] at he ⊢
      exact hother x hx he
    · exact h.distinct x hx y hy he
  case first =>
    refine pairwise_at hnd h.first (fun x y hy hxy hx hy' => ?_) fun x hx hxu _ => ?_
    · exact fun hc => hxy (fun hm => hx (Finset.mem_insert_of_mem hm))
        ((Finset.mem_insert.mp hy').resolve_left hy) ((hident y).symm.trans hc)
    · intro hc
      have hxid := (h.fresh x fun hm => hxu (Finset.mem_insert_of_mem hm)).1
      exact hno x hx (hxid.trans (hc.symm.trans ((hident b).trans hid)))
  case lru =>
    intro hp
    have hheld : ∀ x, Function.update s.held b (s.held b + 1) x = 0 → s.held x = 0 := fun x hx => by
      rcases eq_or_ne x b with rfl | hxb
      · simp at hx
      · simpa [hxb] using hx
    exact (h.lru (lt_of_le_of_lt (le_max_left _ _) hp)).imp fun {x y} hxy hx hy =>
      hxy (hheld x hx) (hheld y hy)
  case back =>
    intro hp x hx hx0
    have hxb : x ≠ b := fun he => by simp [took, he] at hx0
    exact h.back (lt_of_le_of_lt (le_max_left _ _) hp) x
      ((Finset.mem_insert.mp hx).resolve_left hxb) (by simpa [took, hxb] using hx0)
  case time => exact h.time

theorem Inv.misses_iff (h : s.Inv order) :
    order.find? (s.cache.holds dev blocknum) = none ↔
      ∀ b, ident s.cache b ≠ (dev, blocknum) := by
  rw [List.find?_eq_none]
  constructor
  · exact fun hno b hc => hno b (h.all b) (BufferCache.holds_iff.mpr hc)
  · exact fun hno b _ hc => hno b (BufferCache.holds_iff.mp hc)

/-- A buffer that nobody holds is given to a block that no buffer holds. -/
theorem Inv.miss (h : s.Inv order) (hno : ∀ b, ident s.cache b ≠ (dev, blocknum))
    (hb : (s.cache.buf b).refcnt = 0) :
    (s.took b (s.cache.setBuf b fun v =>
      { v with dev := dev, blocknum := blocknum, valid := false, refcnt := 1 })).Inv order := by
  set c := s.cache.setBuf b fun v =>
    { v with dev := dev, blocknum := blocknum, valid := false, refcnt := 1 } with hc
  have hself : ident c b = (dev, blocknum) := by simp [hc, ident]
  have hident : ∀ {x}, x ≠ b → ident c x = ident s.cache x := fun hx =>
    s.cache.ident_setBuf_of_ne _ hx
  have hheld : ∀ {x}, (s.took b c).held x = 0 → x ≠ b ∧ s.held x = 0 := fun {x} hx => by
    rcases eq_or_ne x b with rfl | hxb
    · simp [took] at hx
    · exact ⟨hxb, by simpa [took, hxb] using hx⟩
  constructor
  case ring => exact h.ring
  case all => exact h.all
  case count =>
    intro x
    rcases eq_or_ne x b with rfl | hx
    · have hx := h.count x
      rw [hb] at hx
      simp [took, hc, BitVec.ofNat_add, ← hx]
    · simp [took, hc, BufferCache.buf_setBuf_of_ne _ _ hx, hx, h.count]
  case top =>
    intro x
    rcases eq_or_ne x b with rfl | hx
    · simp [took]
    · simp [took, hx, h.top x]
  case fresh =>
    intro x hx
    have hxb : x ≠ b := fun he => hx (by simp [took, he])
    obtain ⟨h1, h2, h3, h4⟩ := h.fresh x fun hm => hx (Finset.mem_insert_of_mem hm)
    exact ⟨(hident hxb).trans h1, by simp [took, hc, BufferCache.buf_setBuf_of_ne _ _ hxb, h2],
      by simp [took, hxb, h3], h4⟩
  case distinct =>
    intro x hx y hy he
    have he : ident c x = ident c y := he
    rcases eq_or_ne x b with hxb | hxb <;> rcases eq_or_ne y b with hyb | hyb
    · rw [hxb, hyb]
    · rw [hxb, hself, hident hyb] at he
      exact absurd he.symm (hno y)
    · rw [hyb, hself, hident hxb] at he
      exact absurd he (hno x)
    · rw [hident hxb, hident hyb] at he
      exact h.distinct x ((Finset.mem_insert.mp hx).resolve_left hxb) y
        ((Finset.mem_insert.mp hy).resolve_left hyb) he
  case first =>
    refine h.first.imp fun {x y} hxy hx hy he => ?_
    have hxu : x ∉ s.used := fun hm => hx (Finset.mem_insert_of_mem hm)
    have he : ident c y = (0, 0) := he
    rcases eq_or_ne y b with hyb | hyb
    · rw [hyb, hself] at he
      exact hno x ((h.fresh x hxu).1.trans he.symm)
    · rw [hident hyb] at he
      exact hxy hxu ((Finset.mem_insert.mp hy).resolve_left hyb) he
  case lru =>
    intro hp
    exact (h.lru (lt_of_le_of_lt (le_max_left _ _) hp)).imp fun {x y} hxy hx hy =>
      hxy (hheld hx).2 (hheld hy).2
  case back =>
    intro hp x hx hx0
    exact h.back (lt_of_le_of_lt (le_max_left _ _) hp) x
      ((Finset.mem_insert.mp hx).resolve_left (hheld hx0).1) (hheld hx0).2
  case time => exact h.time

/-- What else a buffer holds that was handed out does not matter. -/
theorem Inv.setBuf (h : s.Inv order) (hu : b ∈ s.used) {f : Buf → Buf}
    (hf : ∀ v, (f v).dev = v.dev ∧ (f v).blocknum = v.blocknum ∧ (f v).refcnt = v.refcnt) :
    Inv { s with cache := s.cache.setBuf b f } order := by
  have hident := fun x => s.cache.ident_setBuf b x fun v => ⟨(hf v).1, (hf v).2.1⟩
  refine ⟨h.ring, h.all, fun x => ?_, h.top, fun x hx => ?_, fun x hx y hy he => ?_, ?_, h.lru,
    h.back, h.time⟩
  · rcases eq_or_ne x b with rfl | hxb
    · simp [(hf _).2.2, h.count]
    · simp [BufferCache.buf_setBuf_of_ne _ _ hxb, h.count]
  · have hxb : x ≠ b := fun he => hx (he ▸ hu)
    obtain ⟨h1, h2, h3⟩ := h.fresh x hx
    exact ⟨(hident x).trans h1, by simp [BufferCache.buf_setBuf_of_ne _ _ hxb, h2], h3⟩
  · simp only [hident] at he
    exact h.distinct x hx y hy he
  · simp only [hident]
    exact h.first

/-- What is read to a buffer that was handed out. -/
theorem Inv.setData (h : s.Inv order) (hu : b ∈ s.used) (f : Buf → Mem) :
    Inv { s with cache := s.cache.setBuf b fun v => { v with data := f v, valid := true } }
      order := h.setBuf hu fun _ => ⟨rfl, rfl, rfl⟩

theorem Inv.get (h : s.Inv order) {r : BufIdx × BufferCache}
    (hr : s.cache.bget dev blocknum = .ok r) : (s.took r.1 r.2).Inv order := by
  rw [BufferCache.bget_eq h.ring] at hr
  split at hr
  · cases hr
    exact h.hit (by assumption)
  · rename_i b hno hb
    cases hr
    exact h.miss (h.misses_iff.mp hno)
      (by simpa [BufferCache.unreferenced] using List.find?_some hb)
  · cases hr

/-- The last release moves the buffer to the front. -/
theorem Inv.release (h : s.Inv order) (hb : 0 < s.held b) (hr : s.exec (.release b) = .ok s') :
    ∃ order', s'.Inv order' := by
  cases hr
  have hbuf := BufferCache.buf_brelease s.cache b
  have hident : ∀ x, ident (s.cache.brelease b) x = ident s.cache x := fun x => by
    rw [ident, hbuf]
    exact s.cache.ident_setBuf b x fun v => ⟨rfl, rfl⟩
  have hcount : ∀ x, ((s.cache.brelease b).buf x).refcnt =
      BitVec.ofNat 32 (Function.update s.held b (s.held b - 1) x) := fun x => by
    rw [hbuf]
    rcases eq_or_ne x b with rfl | hx
    · have hpred : s.held x = s.held x - 1 + 1 := by omega
      rw [BufferCache.buf_setBuf_self, Function.update_self, h.count, hpred, BitVec.ofNat_add]
      exact BitVec.add_sub_cancel _ _
    · rw [BufferCache.buf_setBuf_of_ne _ _ hx, Function.update_of_ne hx, h.count]
  have hu : b ∈ s.used := h.used_of_held hb.ne'
  -- pairs without `b` stand as before
  have hkeep : s.peak < 2 ^ 32 → (order.erase b).Pairwise fun x y =>
      Function.update s.held b (s.held b - 1) x = 0 →
      Function.update s.held b (s.held b - 1) y = 0 →
      Later (Function.update s.released b (some s.clock) x)
        (Function.update s.released b (some s.clock) y) := fun hp =>
    ((h.lru hp).sublist List.erase_sublist).imp_of_mem fun {x y} hx hy hxy => by
      have hxb : x ≠ b := fun he => h.ring.nodup.not_mem_erase (he ▸ hx)
      have hyb : y ≠ b := fun he => h.ring.nodup.not_mem_erase (he ▸ hy)
      simpa [hxb, hyb] using hxy
  obtain ⟨order', hring, hall, hfirst, hlru⟩ : ∃ order',
      CircList (s.cache.brelease b).links order' ∧ (∀ x, x ∈ order') ∧
      (order'.Pairwise fun x y => x ∉ s.used → y ∈ s.used → ident s.cache y ≠ (0, 0)) ∧
      (s.peak < 2 ^ 32 → order'.Pairwise fun x y =>
        Function.update s.held b (s.held b - 1) x = 0 →
        Function.update s.held b (s.held b - 1) y = 0 →
        Later (Function.update s.released b (some s.clock) x)
          (Function.update s.released b (some s.clock) y)) := by
    by_cases h0 : ((s.cache.brelease b).buf b).refcnt = 0
    · refine ⟨b :: order.erase b, ?_, fun x => ?_, ?_, fun hp => ?_⟩
      · rw [BufferCache.links_brelease, if_pos h0]
        exact (h.ring.unlink (h.all b)).pushFront h.ring.nodup.not_mem_erase
      · rcases eq_or_ne x b with rfl | hx
        · exact List.mem_cons_self ..
        · exact List.mem_cons_of_mem _ ((List.mem_erase_of_ne hx).mpr (h.all x))
      · exact List.pairwise_cons.mpr ⟨fun y _ hbu => absurd hu hbu,
          h.first.sublist List.erase_sublist⟩
      · refine List.pairwise_cons.mpr ⟨fun y hy _ _ n hn => ?_, hkeep hp⟩
        have hyb : y ≠ b := fun he => h.ring.nodup.not_mem_erase (he ▸ hy)
        rw [Function.update_of_ne hyb] at hn
        exact ⟨s.clock, by simp, h.time y n hn⟩
    · have hheld : Function.update s.held b (s.held b - 1) b ≠ 0 := fun hc => by
        rw [hcount, hc] at h0
        exact h0 rfl
      refine ⟨order, ?_, h.all, h.first, fun hp => ?_⟩
      · rw [BufferCache.links_brelease, if_neg h0]
        exact h.ring
      · refine (h.lru hp).imp fun {x y} hxy hx hy => ?_
        have hxb : x ≠ b := fun he => hheld (he ▸ hx)
        have hyb : y ≠ b := fun he => hheld (he ▸ hy)
        rw [Function.update_of_ne hxb] at hx ⊢
        rw [Function.update_of_ne hyb] at hy ⊢
        exact hxy hx hy
  refine ⟨order', hring, hall, hcount, fun x => ?_, fun x hx => ?_, fun x hx y hy he => ?_, ?_,
    hlru, fun hp x hx hx0 => ?_, fun x n hn => ?_⟩
  · have ht := h.top x
    rcases eq_or_ne x b with rfl | hxb
    · simp only [Function.update_self]
      omega
    · simpa [hxb] using ht
  · have hxb : x ≠ b := fun he => hx (he ▸ hu)
    obtain ⟨h1, h2, h3, h4⟩ := h.fresh x hx
    refine ⟨(hident x).trans h1, ?_, by simp [hxb, h3], by simp [hxb, h4]⟩
    rw [hbuf, BufferCache.buf_setBuf_of_ne _ _ hxb, h2]
  · rw [hident, hident] at he
    exact h.distinct x hx y hy he
  · simpa only [hident] using hfirst
  · rcases eq_or_ne x b with rfl | hxb
    · simp
    · simpa [hxb] using h.back hp x hx (by simpa [hxb] using hx0)
  · rcases eq_or_ne x b with rfl | hxb
    · have hn : s.clock = n := by simpa using hn
      simp [← hn]
    · have hlt := h.time x n (by simpa [hxb] using hn)
      exact Nat.lt_succ_of_lt hlt

theorem Inv.read (h : s.Inv order) {disk : Buf → Mem} {r : BufIdx × BufferCache}
    (hr : s.cache.bread disk dev blocknum = .ok r) : (s.took r.1 r.2).Inv order := by
  unfold BufferCache.bread at hr
  cases hg : s.cache.bget dev blocknum with
  | error x => simp [hg, bind, Except.bind] at hr
  | ok t =>
    have ht := h.get hg
    simp only [hg, bind, Except.bind] at hr
    split_ifs at hr with hv
    · cases hr
      exact ht
    · cases hr
      exact ht.setData (Finset.mem_insert_self _ _) disk

/-- One call keeps the invariant. -/
theorem Inv.exec (h : s.Inv order) {e : Event} (hm : s.Matched e) (hr : s.exec e = .ok s') :
    ∃ order', s'.Inv order' := by
  cases e with
  | get dev blocknum =>
    simp only [System.exec] at hr
    cases hg : s.cache.bget dev blocknum with
    | error x => simp [hg, Except.map] at hr
    | ok r =>
      rw [hg] at hr
      cases hr
      exact ⟨order, h.get hg⟩
  | read disk dev blocknum =>
    simp only [System.exec] at hr
    cases hg : s.cache.bread disk dev blocknum with
    | error x => simp [hg, Except.map] at hr
    | ok r =>
      rw [hg] at hr
      cases hr
      exact ⟨order, h.read hg⟩
  | release b => exact h.release hm hr

private theorem foldl_pushFront (bs : List BufIdx) {L : CircLinks BufIdx} {xs : List BufIdx}
    (h : CircList L xs) (hnd : (bs.reverse ++ xs).Nodup) :
    CircList (bs.foldl CircLinks.pushFront L) (bs.reverse ++ xs) := by
  induction bs generalizing L xs with
  | nil => exact h
  | cons b bs ih =>
    rw [List.reverse_cons, List.append_assoc, List.singleton_append] at hnd ⊢
    have hb : b ∉ xs := (List.nodup_cons.mp (List.nodup_append.mp hnd).2.1).1
    exact ih (h.pushFront hb) hnd

theorem Inv.init (L : CircLinks BufIdx) : (init L).Inv (List.finRange NBUF).reverse := by
  have hempty : CircList (A := BufIdx)
      ⟨Function.update L.next none none, Function.update L.prev none none⟩ [] :=
    ⟨List.nodup_nil, by simp [CircLinks.Path]⟩
  have hring := foldl_pushFront (List.finRange NBUF) hempty
    (by simpa using List.nodup_finRange NBUF)
  rw [List.append_nil] at hring
  refine ⟨hring, by simp, fun b => rfl, by simp [System.init], fun b _ => ⟨rfl, rfl, rfl, rfl⟩,
    by simp [System.init], ?_, fun _ => ?_, by simp [System.init], by simp [System.init]⟩
  · exact List.pairwise_of_forall fun x y _ hy => absurd hy (Finset.notMem_empty y)
  · exact List.pairwise_of_forall fun x y _ _ n hn => by simp [System.init] at hn

theorem Reachable.inv {L : CircLinks BufIdx} (h : Reachable L s) : ∃ order, s.Inv order := by
  induction h with
  | init => exact ⟨_, .init L⟩
  | step _ hm hr ih =>
    obtain ⟨order, hi⟩ := ih
    exact hi.exec hm hr

/-- The buffer that is handed out is one for the block. -/
theorem Inv.ident_bget (h : s.Inv order) {r : BufIdx × BufferCache}
    (hr : s.cache.bget dev blocknum = .ok r) : ident r.2 r.1 = (dev, blocknum) := by
  rw [BufferCache.bget_eq h.ring] at hr
  split at hr
  · rename_i x hx
    cases hr
    dsimp only
    rw [BufferCache.ident_setBuf]
    · exact BufferCache.holds_iff.mp (List.find?_some hx)
    · exact fun v => ⟨rfl, rfl⟩
  · cases hr
    dsimp only [ident]
    rw [BufferCache.buf_setBuf_self]
  · cases hr

theorem Inv.took_of_read (h : s.Inv order) {disk : Buf → Mem}
    (hr : s.exec (.read disk dev blocknum) = .ok s') : ∃ b,
      s'.held = Function.update s.held b (s.held b + 1) ∧ ident s'.cache b = (dev, blocknum) := by
  simp only [System.exec, BufferCache.bread] at hr
  cases hg : s.cache.bget dev blocknum with
  | error x => simp [hg, Except.map, bind, Except.bind] at hr
  | ok r =>
    have hid := h.ident_bget hg
    simp only [hg, bind, Except.bind] at hr
    split_ifs at hr with hv
    · cases hr
      exact ⟨r.1, rfl, hid⟩
    · cases hr
      refine ⟨r.1, rfl, ?_⟩
      rw [← hid]
      dsimp only [took]
      rw [BufferCache.ident_setBuf]
      exact fun v => ⟨rfl, rfl⟩

/-- A buffer that somebody holds keeps its block. -/
theorem Inv.kept_bget (h : s.Inv order) {r : BufIdx × BufferCache}
    (hr : s.cache.bget dev blocknum = .ok r) (hb : (s.cache.buf b).refcnt ≠ 0) :
    ident r.2 b = ident s.cache b := by
  rw [BufferCache.bget_eq h.ring] at hr
  split at hr
  · cases hr
    dsimp only
    rw [BufferCache.ident_setBuf]
    exact fun v => ⟨rfl, rfl⟩
  · rename_i x _ hx
    cases hr
    dsimp only
    refine BufferCache.ident_setBuf_of_ne _ _ fun he => hb ?_
    rw [he]
    simpa [BufferCache.unreferenced] using List.find?_some hx
  · cases hr

theorem Inv.kept (h : s.Inv order) {e : Event} (hr : s.exec e = .ok s')
    (hb : (s.cache.buf b).refcnt ≠ 0) : ident s'.cache b = ident s.cache b := by
  cases e with
  | get dev blocknum =>
    simp only [System.exec] at hr
    cases hg : s.cache.bget dev blocknum with
    | error x => simp [hg, Except.map] at hr
    | ok r =>
      rw [hg] at hr
      cases hr
      exact h.kept_bget hg hb
  | read disk dev blocknum =>
    simp only [System.exec, BufferCache.bread] at hr
    cases hg : s.cache.bget dev blocknum with
    | error x => simp [hg, Except.map, bind, Except.bind] at hr
    | ok r =>
      have hk := h.kept_bget hg hb
      simp only [hg, bind, Except.bind] at hr
      split_ifs at hr with hv
      · cases hr
        exact hk
      · cases hr
        rw [← hk]
        dsimp only [took]
        rw [BufferCache.ident_setBuf]
        exact fun v => ⟨rfl, rfl⟩
  | release x =>
    cases hr
    rw [ident, BufferCache.buf_brelease]
    exact s.cache.ident_setBuf x b fun v => ⟨rfl, rfl⟩

/-- A miss recycles the buffer at the end of the list that nobody holds. -/
theorem Inv.recycled (h : s.Inv order) (hno : ∀ b, ident s.cache b ≠ (dev, blocknum))
    {c : BufferCache} (hr : s.cache.bget dev blocknum = .ok (b, c)) :
    (s.cache.buf b).refcnt = 0 ∧ (s.peak < 2 ^ 32 → b ∈ s.used →
      ∀ b', (s.cache.buf b').refcnt = 0 → b' ≠ b →
        b' ∈ s.used ∧ ∃ n n', s.released b = some n ∧ s.released b' = some n' ∧ n < n') := by
  rw [BufferCache.bget_eq h.ring, h.misses_iff.mpr hno] at hr
  cases hf : order.reverse.find? s.cache.unreferenced with
  | none => simp [hf] at hr
  | some x =>
    rw [hf] at hr
    cases hr
    have hx0 : (s.cache.buf b).refcnt = 0 := by
      simpa [BufferCache.unreferenced] using List.find?_some hf
    refine ⟨hx0, fun hp hu b' hb' hne => ?_⟩
    obtain ⟨-, l₁, l₂, hl, hpre⟩ := List.find?_eq_some_iff_append.mp hf
    have horder : order = l₂.reverse ++ b :: l₁.reverse := by
      rw [← List.reverse_reverse order, hl]
      simp
    have hm : b' ∈ l₂.reverse := by
      have hall := h.all b'
      rw [horder] at hall
      rcases List.mem_append.mp hall with hm | hm
      · exact hm
      · rcases List.mem_cons.mp hm with he | hm
        · exact absurd he hne
        · have hpre' := hpre b' (by simpa using hm)
          simp [BufferCache.unreferenced, hb'] at hpre'
    have hlru := h.lru hp
    rw [horder] at hlru
    have hlater := (List.pairwise_append.mp hlru).2.2 b' hm b (List.mem_cons_self ..)
      (h.held_eq_zero hp hb') (h.held_eq_zero hp hx0)
    obtain ⟨n, hn⟩ := Option.ne_none_iff_exists'.mp (h.back hp b hu (h.held_eq_zero hp hx0))
    obtain ⟨n', hn', hlt⟩ := hlater n hn
    refine ⟨?_, n, n', hn, hn', hlt⟩
    by_contra hbu
    rw [(h.fresh b' hbu).2.2.2] at hn'
    cases hn'

theorem Inv.sound (h : s.Inv order) : s.Sound := by
  constructor
  case linked =>
    refine ⟨order, h.ring, (List.perm_ext_iff_of_nodup h.ring.nodup (List.nodup_finRange _)).mpr ?_⟩
    exact fun b => iff_of_true (h.all b) (List.mem_finRange b)
  case unique =>
    have hused : ∀ b, (s.cache.buf b).valid ∨ (s.cache.buf b).refcnt ≠ 0 → b ∈ s.used := by
      intro b hb
      by_contra hu
      obtain ⟨-, hv, hh, -⟩ := h.fresh b hu
      rcases hb with hb | hb
      · rw [hv] at hb
        cases hb
      · exact (h.held_of_refcnt hb).ne' hh
    exact fun b b' hb hb' => h.distinct b (hused b hb) b' (hused b' hb')
  case kept => exact fun e s' hr b hb => h.kept hr hb
  case recycled => exact fun dev blocknum b c hno hr => h.recycled hno hr
  case panics =>
    intro dev blocknum x hr
    rw [BufferCache.bget_eq h.ring] at hr
    split at hr
    · cases hr
    · cases hr
    · rename_i hnone
      cases hr
      refine ⟨rfl, fun b => h.held_of_refcnt fun h0 => ?_⟩
      have hb := List.find?_eq_none.mp hnone b (by simpa using h.all b)
      simp [BufferCache.unreferenced, h0] at hb

/-- Whatever is read and released, the list holds every buffer once, the buffers in use hold
different blocks, and a miss takes a buffer that nobody holds, if there is one. As long as no
counter has wrapped it is one that was never used or else the one released longest ago. -/
theorem sound_of_reachable {L : CircLinks BufIdx} (hr : Reachable L s) : s.Sound := by
  obtain ⟨order, hi⟩ := hr.inv
  exact hi.sound

/-- A buffer that is used, released and then recycled, as all buffers are in use. -/
theorem sound_of_reachable_reuse : ∃ s, Reachable ⟨fun _ => none, fun _ => none⟩ s ∧ s.Sound ∧
    s.used = {⟨0, by decide⟩} ∧ s.released ⟨0, by decide⟩ = some 0 := by
  have hr : Reachable ⟨fun _ => none, fun _ => none⟩ _ :=
    .step (e := .release ⟨0, by decide⟩) (.step (e := .read (fun _ _ => 7) 1 5) (.init) trivial rfl)
      (by change 0 < _; decide +kernel) rfl
  exact ⟨_, hr, sound_of_reachable hr, by decide +kernel, by decide +kernel⟩

section Wrap

/-- The first buffer of the array, the last one of the list that `binit` makes. -/
private def firstBuf : BufIdx := ⟨0, by decide⟩

/-- The cache after `k` calls of `bget(1, 5)` with nothing released. -/
private def unreleased (L : CircLinks BufIdx) (k : ℕ) : BufferCache :=
  (binit L).setBuf firstBuf fun v => { v with dev := 1, blocknum := 5, refcnt := BitVec.ofNat 32 k }

private theorem bget_unreleased (L : CircLinks BufIdx) (k : ℕ) :
    (unreleased L k).bget 1 5 = .ok (firstBuf, unreleased L (k + 1)) := by
  have hring : CircList (unreleased L k).links (List.finRange NBUF).reverse := (Inv.init L).ring
  rw [BufferCache.bget_eq hring]
  have hfind : (List.finRange NBUF).reverse.find? ((unreleased L k).holds 1 5) = some firstBuf :=
    rfl
  rw [hfind]
  simp [unreleased, BufferCache.setBuf, BitVec.ofNat_add]

private theorem reachable_unreleased (L : CircLinks BufIdx) (k : ℕ) :
    ∃ s, Reachable L s ∧ s.cache = unreleased L (k + 1) ∧ s.used = {firstBuf} ∧
      s.released = fun _ => none := by
  induction k with
  | zero =>
    have hr : (binit L).bget 1 5 = .ok (firstBuf, unreleased L 1) := by
      rw [BufferCache.bget_eq (c := binit L) (Inv.init L).ring]
      rfl
    refine ⟨(init L).took firstBuf (unreleased L 1), ?_, rfl, rfl, rfl⟩
    refine .step (e := .get 1 5) .init trivial ?_
    have he : (init L).cache = binit L := rfl
    rw [System.exec, he, hr]
    rfl
  | succ k ih =>
    obtain ⟨s, hs, hc, hu, hl⟩ := ih
    refine ⟨s.took firstBuf (unreleased L (k + 2)), ?_, rfl, by simp [took, hu], hl⟩
    refine .step (e := .get 1 5) hs trivial ?_
    rw [System.exec, hc, bget_unreleased]
    rfl

/-- After 2^32 references to one block, none of them released, the counter of its buffer is zero,
and the buffer is recycled before those that were never used. -/
theorem recycled_before_unused : ∃ s b b' c, Reachable ⟨fun _ => none, fun _ => none⟩ s ∧
    (∀ b, ident s.cache b ≠ (1, 6)) ∧ s.cache.bget 1 6 = .ok (b, c) ∧ b ∈ s.used ∧
      s.released b = none ∧ b' ∉ s.used ∧ (s.cache.buf b').refcnt = 0 := by
  obtain ⟨s, hs, hc, hu, hl⟩ := reachable_unreleased ⟨fun _ => none, fun _ => none⟩ (2 ^ 32 - 1)
  have hr : ∃ c, (unreleased ⟨fun _ => none, fun _ => none⟩ (2 ^ 32)).bget 1 6 =
      .ok (firstBuf, c) := by
    have hring : CircList (unreleased ⟨fun _ => none, fun _ => none⟩ (2 ^ 32)).links
        (List.finRange NBUF).reverse := (Inv.init _).ring
    rw [BufferCache.bget_eq hring]
    exact ⟨_, rfl⟩
  obtain ⟨c, hr⟩ := hr
  refine ⟨s, firstBuf, ⟨1, by decide⟩, c, hs, ?_, by rw [hc]; exact hr, by simp [hu], by rw [hl],
    ?_, ?_⟩
  · rw [hc]
    decide +kernel
  · rw [hu]
    decide
  · rw [hc]
    decide +kernel

end Wrap

end System
end Multiplix.Fs.Bcache
