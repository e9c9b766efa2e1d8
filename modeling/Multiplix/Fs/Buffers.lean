import Mathlib.Algebra.Order.BigOperators.Group.Finset
import Multiplix.Fs.Balance
import Multiplix.Fs.CacheRuns
import Multiplix.Fs.Store

/-! The programs on the buffer cache. -/
namespace Multiplix.Fs
open Lib Bcache Bcache.System

/-- The buffer cache, with the disk behind it and the memory of the calling process. -/
structure Cached extends Store where
  sys : Bcache.System

namespace Cached

/-- Numbers of devices and blocks have 32 bits. -/
def ident (k : Key) : BitVec 32 × BitVec 32 := (.ofNat 32 k.1, .ofNat 32 k.2)

def refcnt (t : Cached) (b : BufIdx) : ℕ := (t.sys.cache.buf b).refcnt.toNat

/-- The buffer that is held for a block. -/
def find (t : Cached) (k : Key) : Option BufIdx :=
  (List.finRange NBUF).find? fun b => System.ident t.sys.cache b = ident k ∧ t.refcnt b ≠ 0

/-- A block is read from the disk if it is not in the cache. -/
def bread (t : Cached) (k : Key) : Except Panic Cached :=
  match t.sys.exec (.read (fun v => t.disk (v.dev.toNat, v.blocknum.toNat)) (ident k).1
    (ident k).2) with
  | .ok sys => .ok { t with sys := sys }
  | .error .noBuffers => .error .noBuffers
  | .error .endless => .error .fault

def setData (t : Cached) (b : BufIdx) (d : Mem) : Cached :=
  { t with sys := { t.sys with cache := t.sys.cache.setBuf b fun v => { v with data := d } } }

def brelease (t : Cached) (b : BufIdx) : Except Panic Cached :=
  match t.sys.exec (.release b) with
  | .ok sys => .ok { t with sys := sys }
  | .error _ => .error .fault

end Cached

def cached : Outside Cached
  | .bread k, t => (t.bread k).map fun t => (t, ())
  | .data k, t =>
    match t.find k with
    | some b => .ok (t, (t.sys.cache.buf b).data)
    | none => .error .fault
  | .setData k d, t =>
    match t.find k with
    | some b => .ok (t.setData b d, ())
    | none => .error .fault
  | .brelease k, t =>
    match t.find k with
    | some b => (t.brelease b).map fun t => (t, ())
    | none => .error .fault
  | .uload a _, t => .ok (t, fun x => t.user ((a + x) % addrSpace))
  | .ustore a n src, t => .ok ({ t with toStore := t.toStore.write a n src }, ())
  | .rx, t => .ok (t, 0)
  | .tx _ _, t => .ok (t, ())
  | _, _ => .error .fault

/-- What is held beyond `t`: the references to the buffers of these blocks, no more than two. -/
structure Holding (t : Cached) (g : List Key) (t' : Cached) : Prop where
  inv : ∃ order, t'.sys.Inv order
  le : g.length ≤ 2
  named : ∃ B : Key → BufIdx, (∀ k ∈ g, System.ident t'.sys.cache (B k) = Cached.ident k) ∧
    ∀ b, t'.sys.held b = t.sys.held b + (g.map B).count b

namespace Holding

variable {t t' t'' : Cached} {g : List Key} {k : Key} {b : BufIdx}

theorem nil (hi : ∃ order, t.sys.Inv order) : Holding t [] t :=
  ⟨hi, Nat.zero_le _, fun _ => ⟨0, by decide⟩, fun _ hk => absurd hk List.not_mem_nil,
    fun _ => rfl⟩

/-- Nobody has made so many references that a counter wraps. -/
theorem refcnt_eq (h : Holding t g t') (ht : t.sys.held b + 2 < 2 ^ 32) :
    t'.refcnt b = t'.sys.held b := by
  obtain ⟨order, hi⟩ := h.inv
  obtain ⟨B, -, hheld⟩ := h.named
  have hcount := (g.map B).count_le_length (a := b)
  have hle := h.le
  rw [List.length_map] at hcount
  have hb := hheld b
  unfold Cached.refcnt
  rw [hi.count, BitVec.toNat_ofNat, Nat.mod_eq_of_lt (by omega)]

section Named

variable (h : Holding t g t') (ht : ∀ b, t.sys.held b + 2 < 2 ^ 32) {B : Key → BufIdx}
  (hB : ∀ k ∈ g, System.ident t'.sys.cache (B k) = Cached.ident k)
  (hheld : ∀ b, t'.sys.held b = t.sys.held b + (g.map B).count b)

include hheld

theorem held_pos (hk : k ∈ g) : t'.sys.held (B k) ≠ 0 := by
  have hcount := List.count_pos_iff.mpr (List.mem_map_of_mem (f := B) hk)
  rw [hheld]
  omega

include h ht hB

/-- A buffer that is held keeps its block. -/
theorem kept {e : Bcache.Event} {sys : Bcache.System} (hx : t'.sys.exec e = .ok sys)
    (hk : k ∈ g) : System.ident sys.cache (B k) = Cached.ident k := by
  obtain ⟨order, hi⟩ := h.inv
  rw [← hB k hk]
  apply hi.kept hx
  intro hz
  have hrefcnt := h.refcnt_eq (ht (B k))
  unfold Cached.refcnt at hrefcnt
  rw [hz] at hrefcnt
  exact held_pos hheld hk hrefcnt.symm

/-- A buffer that is held is found. -/
theorem find_eq (hk : k ∈ g) : t'.find k = some (B k) := by
  obtain ⟨order, hi⟩ := h.inv
  have hpos := held_pos hheld hk
  have hused (b : BufIdx) (hb : t'.refcnt b ≠ 0) : b ∈ t'.sys.used := by
    rw [h.refcnt_eq (ht b)] at hb
    exact hi.used_of_held hb
  unfold Cached.find
  cases hf : (List.finRange NBUF).find? fun b =>
      System.ident t'.sys.cache b = Cached.ident k ∧ t'.refcnt b ≠ 0 with
  | none =>
    have hnot := List.find?_eq_none.mp hf (B k) (List.mem_finRange _)
    rw [decide_eq_true_eq, h.refcnt_eq (ht _)] at hnot
    exact absurd ⟨hB k hk, hpos⟩ hnot
  | some b =>
    have hb := List.find?_some hf
    rw [decide_eq_true_eq] at hb
    rw [hi.distinct b (hused b hb.2) (B k) (hi.used_of_held hpos) (hb.1.trans (hB k hk).symm)]

end Named

/-- Another buffer is held, or one that is held once more. -/
theorem bread (h : Holding t g t') (ht : ∀ b, t.sys.held b + 2 < 2 ^ 32) (hg : g.length < 2)
    (hr : t'.bread k = .ok t'') : Holding t (k :: g) t'' := by
  obtain ⟨order, hi⟩ := h.inv
  obtain ⟨B, hB, hheld⟩ := h.named
  unfold Cached.bread at hr
  rcases hx : t'.sys.exec (.read (fun v => t'.disk (v.dev.toNat, v.blocknum.toNat))
    (Cached.ident k).1 (Cached.ident k).2) with (_ | _) | sys <;> rw [hx] at hr
  · cases hr
  · cases hr
  · cases hr
    obtain ⟨b, hsys, hid⟩ := hi.took_of_read hx
    obtain ⟨order', hi'⟩ := hi.exec (e := .read _ _ _) trivial hx
    have hB' (k' : Key) (hk' : k' ∈ g) : System.ident sys.cache (B k') = Cached.ident k' :=
      h.kept ht hB hheld hx hk'
    have hsame (k' : Key) (hk' : k' ∈ g) : Function.update B k b k' = B k' := by
      by_cases he : k' = k
      · subst he
        rw [Function.update_self]
        apply hi'.distinct
        · apply hi'.used_of_held
          rw [hsys, Function.update_self]
          exact Nat.succ_ne_zero _
        · apply hi'.used_of_held
          rw [hsys]
          by_cases hb : B k' = b
          · rw [hb, Function.update_self]
            exact Nat.succ_ne_zero _
          · rw [Function.update_of_ne hb]
            exact held_pos hheld hk'
        · exact hid.trans (hB' k' hk').symm
      · exact Function.update_of_ne he _ _
    have hmap : (k :: g).map (Function.update B k b) = b :: g.map B := by
      rw [List.map_cons, Function.update_self, List.map_congr_left hsame]
    refine ⟨⟨order', hi'⟩, hg, Function.update B k b, fun k' hk' => ?_, fun b' => ?_⟩
    · by_cases he : k' = k
      · rw [he, Function.update_self]
        exact hid
      · have hin := (List.mem_cons.mp hk').resolve_left he
        rw [hsame k' hin]
        exact hB' k' hin
    · rw [hmap, hsys]
      by_cases hb : b' = b
      · subst hb
        rw [Function.update_self, List.count_cons_self, hheld, Nat.add_assoc]
      · rw [Function.update_of_ne hb, List.count_cons_of_ne (Ne.symm hb), hheld]

theorem setData (h : Holding t g t') (ht : ∀ b, t.sys.held b + 2 < 2 ^ 32) (hk : k ∈ g)
    (hb : t'.find k = some b) (d : Mem) : Holding t g (t'.setData b d) := by
  obtain ⟨order, hi⟩ := h.inv
  obtain ⟨B, hB, hheld⟩ := h.named
  rw [h.find_eq ht hB hheld hk, Option.some.injEq] at hb
  have hu : b ∈ t'.sys.used := by
    rw [← hb]
    exact hi.used_of_held (held_pos hheld hk)
  refine ⟨⟨order, hi.setBuf hu fun _ => ⟨rfl, rfl, rfl⟩⟩, h.le, B, fun k' hk' => ?_, hheld⟩
  rw [← hB k' hk']
  exact BufferCache.ident_setBuf t'.sys.cache b (B k') (f := fun v => { v with data := d })
    fun _ => ⟨rfl, rfl⟩

theorem brelease (h : Holding t g t') (ht : ∀ b, t.sys.held b + 2 < 2 ^ 32) (hk : k ∈ g)
    (hb : t'.find k = some b) (hr : t'.brelease b = .ok t'') : Holding t (g.erase k) t'' := by
  obtain ⟨order, hi⟩ := h.inv
  obtain ⟨B, hB, hheld⟩ := h.named
  rw [h.find_eq ht hB hheld hk, Option.some.injEq] at hb
  subst hb
  have hperm := (List.perm_cons_erase hk).map B
  rw [List.map_cons] at hperm
  have hpos := Nat.pos_of_ne_zero (held_pos hheld hk)
  unfold Cached.brelease at hr
  rcases hx : t'.sys.exec (.release (B k)) with x | sys <;> rw [hx] at hr
  · cases hr
  · cases hr
    refine ⟨hi.exec (e := .release _) hpos hx, (List.length_erase_le ..).trans h.le, B,
      fun k' hk' => h.kept ht hB hheld hx (List.mem_of_mem_erase hk'), fun b => ?_⟩
    have hsys : sys.held = Function.update t'.sys.held (B k) (t'.sys.held (B k) - 1) := by
      cases hx
      rfl
    have hcount := hperm.count_eq b
    have hb := hheld b
    rw [hcount] at hb
    rw [hsys]
    by_cases he : b = B k
    · subst he
      rw [List.count_cons_self] at hb
      rw [Function.update_self]
      omega
    · rw [List.count_cons_of_ne (Ne.symm he)] at hb
      rw [Function.update_of_ne he, hb]

theorem setStore (h : Holding t g t') (u : Store) : Holding t g { t' with toStore := u } :=
  ⟨h.inv, h.le, h.named⟩

/-- A program does with the buffers what it may. -/
theorem perform (ht : ∀ b, t.sys.held b + 2 < 2 ^ 32) (o : Op) (g g' : List Key) (s : State Cached)
    (h : Holding t g s.2) (hg : hold g o = some g') :
    Prog.Wp (known.extend cached) (fun _ => True) (Prog.perform o) s fun _ s' =>
      True ∧ Holding t g' s'.2 := by
  have hkeep (hsame : hold g o = some g) : Holding t g' s.2 := by
    obtain rfl : g' = g := Option.some.inj (hg.symm.trans hsame)
    exact h
  apply Prog.Wp.intro fun _ => trivial
  rintro ⟨c', t₁⟩ r he
  rw [Prog.exec_perform] at he
  refine ⟨trivial, ?_⟩
  rcases Prog.Part.of_extend he with ⟨hknown, hs⟩ | ⟨-, ho, -⟩
  · dsimp only at hs
    rw [hs]
    cases o <;> first | exact hkeep rfl | cases hknown
  dsimp only at ho
  cases o with
  | bread k =>
    obtain ⟨hlt, rfl⟩ : g.length < 2 ∧ k :: g = g' := by simpa [hold] using hg
    dsimp only [cached] at ho
    rcases hr : s.2.bread k with x | t'' <;> rw [hr] at ho
    · cases ho
    · cases ho
      exact h.bread ht hlt hr
  | setData k d =>
    obtain ⟨hin, rfl⟩ : k ∈ g ∧ g = g' := by simpa [hold] using hg
    dsimp only [cached] at ho
    rcases hf : s.2.find k with _ | b <;> rw [hf] at ho
    · cases ho
    · cases ho
      exact h.setData ht hin hf d
  | brelease k =>
    obtain ⟨hin, rfl⟩ : k ∈ g ∧ g.erase k = g' := by simpa [hold] using hg
    dsimp only [cached] at ho
    rcases hf : s.2.find k with _ | b <;> rw [hf] at ho
    · cases ho
    · rcases hr : s.2.brelease b with x | t'' <;> simp only [hr] at ho
      · cases ho
      · cases ho
        exact h.brelease ht hin hf hr
  | data k =>
    obtain ⟨hin, rfl⟩ : k ∈ g ∧ g = g' := by simpa [hold] using hg
    dsimp only [cached] at ho
    rcases hf : s.2.find k with _ | b <;> rw [hf] at ho
    · cases ho
    · cases ho
      exact h
  | uload a n =>
    cases ho
    exact hkeep rfl
  | ustore a n src =>
    have ht₁ := (Prod.ext_iff.mp (Except.ok.inj ho)).1
    dsimp only at ht₁
    rw [← ht₁]
    exact (hkeep rfl).setStore _
  | rx => cases hg
  | tx n src => cases hg
  | inode ip => cases ho
  | setInode ip i => cases ho
  | file f => cases ho
  | setFile f x => cases ho
  | proc p => cases ho
  | setProc p x => cases ho
  | freeProc p => cases ho
  | null => cases ho

/-- No buffer has lost a reference, and there are at most two more. -/
theorem counts (h : Holding t g t') (ht : ∀ b, t.sys.held b + 2 < 2 ^ 32)
    (hi : ∃ order, t.sys.Inv order) :
    (∀ b, t.refcnt b ≤ t'.refcnt b) ∧ ∑ b, t'.refcnt b ≤ ∑ b, t.refcnt b + 2 := by
  obtain ⟨B, -, hheld⟩ := h.named
  have hsame (b : BufIdx) : t'.refcnt b = t.refcnt b + (g.map B).count b := by
    rw [h.refcnt_eq (ht b), (nil hi).refcnt_eq (ht b), hheld]
  have hsum : ∑ b, (g.map B).count b = g.length := by
    have hcard := Multiset.sum_count_eq_card (s := Finset.univ) (m := ((g.map B : List BufIdx) :
      Multiset BufIdx)) fun b _ => Finset.mem_univ b
    simpa using hcard
  have hle := h.le
  simp only [hsame, Finset.sum_add_distrib, hsum]
  exact ⟨fun b => Nat.le_add_right _ _, by omega⟩

end Holding

/-- The calls that read and release buffers. -/
inductive Call
  | balloc (dev : ℕ)
  | bfree (dev b : ℕ)
  | bzero (dev bno : ℕ)
  | bmap (ip : Slot) (bn : ℕ)
  | trunc (ip : Slot)
  | lock (ip : Slot)
  | update (ip : Slot)
  | read (ip : Slot) (dst : Buffer) (off n : ℕ)
  | write (ip : Slot) (src : Buffer) (off n : ℕ)
  | lookup (ip : Slot) (name : Mem)
  | link (ip : Slot) (name : Mem) (inum : ℕ)
  | ialloc (dev type : ℕ)
  | create (cwd : Slot) (path type major minor : ℕ)
  | namei (cwd : Slot) (path : ℕ)

variable (sb : Superblock)

def Call.prog : Call → FsM Unit
  | balloc dev => do
    let _ ← Fs.balloc sb dev
    pure ()
  | bfree dev b => Fs.bfree sb dev b
  | bzero dev bno => Fs.bzero dev bno
  | bmap ip bn => do
    let _ ← ip.bmap sb bn
    pure ()
  | trunc ip => ip.trunc sb
  | lock ip => ip.lock sb
  | update ip => ip.update sb
  | read ip dst off n => do
    let _ ← ip.read sb dst off n
    pure ()
  | write ip src off n => do
    let _ ← ip.write sb src off n
    pure ()
  | lookup ip name => do
    let _ ← ip.lookup sb name
    pure ()
  | link ip name inum => do
    let _ ← ip.link sb name inum
    pure ()
  | ialloc dev type => do
    let _ ← Fs.ialloc sb dev type
    pure ()
  | create cwd path type major minor => do
    let _ ← Fs.create sb cwd path type major minor
    pure ()
  | namei cwd path => do
    let _ ← Fs.namei sb cwd path
    pure ()

theorem Call.balanced (e : Call) : Balanced 2 (e.prog sb) := by
  cases e with
  | balloc dev => exact ((balanced_balloc sb dev).mono one_le_two).bind fun _ => balanced_pure _
  | bfree dev b => exact (balanced_bfree sb dev b).mono one_le_two
  | bzero dev bno => exact (balanced_bzero dev bno).mono one_le_two
  | bmap ip bn => exact (balanced_bmap sb ip bn).bind fun _ => balanced_pure _
  | trunc ip => exact balanced_trunc sb ip
  | lock ip => exact (balanced_lock sb ip).mono one_le_two
  | update ip => exact (balanced_update sb ip).mono one_le_two
  | read ip dst off n => exact (balanced_read sb ip dst off n).bind fun _ => balanced_pure _
  | write ip src off n => exact (balanced_write sb ip src off n).bind fun _ => balanced_pure _
  | lookup ip name => exact (balanced_lookup sb ip name).bind fun _ => balanced_pure _
  | link ip name inum => exact (balanced_link sb ip name inum).bind fun _ => balanced_pure _
  | ialloc dev type =>
    exact ((balanced_ialloc sb dev type).mono one_le_two).bind fun _ => balanced_pure _
  | create cwd path type major minor =>
    exact (balanced_create sb cwd path type major minor).bind fun _ => balanced_pure _
  | namei cwd path => exact (balanced_namei sb cwd path).bind fun _ => balanced_pure _

/-- A call that returns leaves all reference counts of buffers as they were. At every moment it
holds at most two more than its caller, so that `bget` finds a buffer if nobody held any before. -/
theorem buffers_balanced (e : Call) (c : Core) (t : Cached) (hi : ∃ order, t.sys.Inv order)
    (ht : ∀ b, t.sys.held b + 2 < 2 ^ 32) :
    (∀ s', exec cached (e.prog sb) (c, t) = .ok (s', ()) → ∀ b, s'.2.refcnt b = t.refcnt b) ∧
    (e.prog sb).Always (known.extend cached) (fun s => (∀ b, t.refcnt b ≤ s.2.refcnt b) ∧
      ∑ b, s.2.refcnt b ≤ ∑ b, t.refcnt b + 2) (c, t) ∧
    ((∀ b, t.refcnt b = 0) → (e.prog sb).Always (known.extend cached)
      (fun s => ∀ dev blocknum, ∃ r, s.2.sys.cache.bget dev blocknum = .ok r) (c, t)) := by
  have hb := e.balanced sb [] le_rfl
  have hnil := Holding.nil hi
  refine ⟨fun s' he b => ?_, ?_, fun hz => ?_⟩
  · obtain ⟨g, hg, rfl⟩ := (hb.wp (R := fun g s => Holding t g s.2) (Holding.perform ht)
      (fun _ => trivial) hnil).of_exec he
    obtain ⟨B, -, hheld⟩ := hg.named
    rw [hg.refcnt_eq (ht b), hnil.refcnt_eq (ht b), hheld]
    rfl
  · exact hb.always (R := fun g s => Holding t g s.2) (Holding.perform ht)
      (fun g s hg => hg.counts ht hi) hnil
  · apply hb.always (R := fun g s => Holding t g s.2) (Holding.perform ht) _ hnil
    intro g s hg dev blocknum
    obtain ⟨order, hinv⟩ := hg.inv
    cases hr : s.2.sys.cache.bget dev blocknum with
    | ok r => exact ⟨r, rfl⟩
    | error x =>
      have hall := (hinv.sound.panics dev blocknum x hr).2
      have hsum : ∑ b : BufIdx, 1 ≤ ∑ b, s.2.refcnt b := by
        apply Finset.sum_le_sum
        intro b _
        rw [hg.refcnt_eq (ht b)]
        exact hall b
      have hle := (hg.counts ht hi).2
      have hnone : ∑ b, t.refcnt b = 0 := Finset.sum_eq_zero fun b _ => hz b
      have hcard : ∑ b : BufIdx, 1 = NBUF := by simp
      have hmany : NBUF = 30 := rfl
      omega

/-- A cache that was just made, before a disk of zeros. -/
def Cached.init : Cached where
  disk := fun _ _ => 0
  user := fun _ => 0
  sys := System.init ⟨fun _ => none, fun _ => none⟩

/-- The first block that is allocated for an inode, with its indirect block. -/
theorem buffers_balanced_bmap :
    (Call.prog ⟨10, 6, 3, 2, 3⟩ (.bmap ⟨0, by decide⟩ 12)).Always (known.extend cached)
      (fun s => ∀ dev blocknum, ∃ r, s.2.sys.cache.bget dev blocknum = .ok r)
      (Core.init, Cached.init) :=
  (buffers_balanced ⟨10, 6, 3, 2, 3⟩ (.bmap ⟨0, by decide⟩ 12) Core.init Cached.init
    ⟨_, Inv.init ⟨fun _ => none, fun _ => none⟩⟩
      fun _ => (by decide : 0 + 2 < 2 ^ 32)).2.2 fun _ => rfl

end Multiplix.Fs
