import Multiplix.Fs.CacheRuns

/-! Contents of blocks over runs of the buffer cache. Nothing is ever written back, so what is
written to a buffer lasts as long as the buffer is not recycled. -/
namespace Multiplix.Fs.Bcache
open Lib

/-- A device number and a block number. -/
abbrev BlockId := BitVec 32 × BitVec 32

/-- A cache before a disk. `last` is what a block held when it was last released after a
modification, and `modified` are the buffers that were modified and not released since. -/
structure Backed where
  sys : System
  disk : BlockId → Mem
  last : BlockId → Mem
  modified : Finset BufIdx

inductive Access
  | bread (k : BlockId)
  /-- Whoever holds a buffer changes its data. -/
  | modify (b : BufIdx) (f : Mem → Mem)
  | brelease (b : BufIdx)

/-- The buffer that a miss recycles. -/
def BufferCache.victim (c : BufferCache) : Option BufIdx :=
  (scan c.links.prev c.unreferenced NBUF (c.links.prev none)).join

namespace Backed

def init (L : CircLinks BufIdx) (disk : BlockId → Mem) : Backed := ⟨System.init L, disk, disk, ∅⟩

variable (s : Backed)

/-- `disk.read` -/
def fill (v : Buf) : Mem := s.disk (v.dev, v.blocknum)

def exec : Access → Except Stop Backed
  | .bread k => (s.sys.exec (.read s.fill k.1 k.2)).map fun sys => { s with sys := sys }
  | .modify b f => .ok
      { s with
        sys := { s.sys with cache := s.sys.cache.setBuf b fun v => { v with data := f v.data } }
        modified := insert b s.modified }
  | .brelease b => (s.sys.exec (.release b)).map fun sys =>
      { s with
        sys := sys
        last := if b ∈ s.modified then
          Function.update s.last (System.ident s.sys.cache b) (s.sys.cache.buf b).data else s.last
        modified := s.modified.erase b }

/-- Buffers are modified and released by those who hold them. -/
def Matched : Access → Prop
  | .bread _ => True
  | .modify b _ => 0 < s.sys.held b
  | .brelease b => 0 < s.sys.held b

/-- Fewer than `NBUF` buffers are held. -/
def Room : Prop := ∃ b, s.sys.held b = 0

/-- The access does not recycle a buffer whose data differs from the disk, and does not make the
count of a buffer wrap. -/
def Spares : Access → Prop
  | .bread k =>
    (∀ b, System.ident s.sys.cache b = k → s.sys.held b + 1 < 2 ^ 32) ∧
    ((∀ b, System.ident s.sys.cache b ≠ k) → ∀ b ∈ s.sys.cache.victim, (s.sys.cache.buf b).valid = true →
      (s.sys.cache.buf b).data = s.disk (System.ident s.sys.cache b))
  | _ => True

/-- Runs of accesses with the property `P`. -/
inductive Run (L : CircLinks BufIdx) (disk : BlockId → Mem) (P : Backed → Access → Prop) :
    Backed → Prop
  | init : Run L disk P (init L disk)
  | step {s s' : Backed} {a : Access} :
      Run L disk P s → s.Matched a → P s a → s.exec a = .ok s' → Run L disk P s'

/-- A block that is read is what it was when it was last released after a modification. Those who
hold a block share its buffer, so while one of them is modifying it, it is what they see. -/
def Coherent : Prop := ∀ k, ∃ b c, s.sys.cache.bread s.fill k.1 k.2 = .ok (b, c) ∧ System.ident c b = k ∧
  (c.buf b).data = if b ∈ s.modified then (s.sys.cache.buf b).data else s.last k

structure Inv (order : List BufIdx) : Prop where
  sys : s.sys.Inv order
  peak : s.sys.peak < 2 ^ 32
  valid : ∀ b ∈ s.sys.used, (s.sys.cache.buf b).valid = true
  held : ∀ b ∈ s.modified, 0 < s.sys.held b
  clean : ∀ b ∈ s.sys.used, b ∉ s.modified →
    (s.sys.cache.buf b).data = s.last (System.ident s.sys.cache b)
  rest : ∀ k, (∀ b ∈ s.sys.used, System.ident s.sys.cache b ≠ k) → s.last k = s.disk k

end Backed

namespace BufferCache

variable {c : BufferCache} {order : List BufIdx} {k : BlockId} {b : BufIdx}

theorem victim_eq (h : CircList c.links order) :
    c.victim = order.reverse.find? c.unreferenced := by
  have hlen : order.length ≤ NBUF := by simpa using h.nodup.length_le_card
  have hprev := h.flip.path.scan_next c.unreferenced (by simpa using hlen)
  change scan c.links.prev _ _ (c.links.prev none) = _ at hprev
  rw [victim, hprev, Option.join_some]

theorem setBuf_setBuf (c : BufferCache) (b : BufIdx) (f g : Buf → Buf) :
    (c.setBuf b f).setBuf b g = c.setBuf b fun v => g (f v) := by
  simp [setBuf]

/-- What is handed out: the buffer found on the list, or else the one that is recycled. -/
theorem bread_eq (h : CircList c.links order) (fill : Buf → Mem) : c.bread fill k.1 k.2 =
    match order.find? (c.holds k.1 k.2), c.victim with
    | some b, _ => .ok (b, c.setBuf b fun v =>
        if v.valid then { v with refcnt := v.refcnt + 1 }
        else { v with refcnt := v.refcnt + 1, data := fill { v with refcnt := v.refcnt + 1 },
                      valid := true })
    | none, some b => .ok (b, c.setBuf b fun v =>
        let v : Buf := { v with dev := k.1, blocknum := k.2, valid := false, refcnt := 1 }
        { v with data := fill v, valid := true })
    | none, none => .error .noBuffers := by
  rw [bread, bget_eq h, victim_eq h]
  cases order.find? (c.holds k.1 k.2) with
  | some b =>
    simp only [bind, Except.bind, buf_setBuf_self, setBuf_setBuf]
    cases hv : (c.buf b).valid with
    | true => simp [setBuf, hv]
    | false => simp [setBuf, hv]
  | none =>
    cases order.reverse.find? c.unreferenced with
    | some b => simp [bind, Except.bind, setBuf_setBuf]
    | none => rfl

end BufferCache

namespace Backed

variable {s s' : Backed} {order : List BufIdx} {k : BlockId} {b : BufIdx} {c : BufferCache}

/-- The buffer `b` is handed out for the block `k`. -/
inductive Handed (s : Backed) (k : BlockId) (b : BufIdx) (c : BufferCache) : Prop
  /-- It holds the block. -/
  | hit (hid : System.ident s.sys.cache b = k)
      (honly : ∀ x ∈ s.sys.used, System.ident s.sys.cache x = k → x = b)
      (hc : c = s.sys.cache.setBuf b fun v =>
        if v.valid then { v with refcnt := v.refcnt + 1 }
        else { v with refcnt := v.refcnt + 1, data := s.disk k, valid := true })
  /-- It is recycled. -/
  | miss (hno : ∀ x, System.ident s.sys.cache x ≠ k) (hb : s.sys.cache.victim = some b)
      (hfree : (s.sys.cache.buf b).refcnt = 0)
      (hc : c = s.sys.cache.setBuf b fun v =>
        { v with dev := k.1, blocknum := k.2, valid := true, refcnt := 1, data := s.disk k })

theorem Inv.handed (h : s.sys.Inv order) (hr : s.sys.cache.bread s.fill k.1 k.2 = .ok (b, c)) :
    s.Handed k b c := by
  rw [BufferCache.bread_eq h.ring] at hr
  split at hr
  · next x hx =>
    cases hr
    have hid := BufferCache.holds_iff.mp (List.find?_some hx)
    have hdisk : s.disk ((s.sys.cache.buf b).dev, (s.sys.cache.buf b).blocknum) = s.disk k :=
      congrArg s.disk hid
    refine .hit hid (fun y hy => h.eq_of_find hx hy) ?_
    simp only [BufferCache.setBuf, fill, hdisk]
  · next x hx hv =>
    cases hr
    rw [BufferCache.victim_eq h.ring] at hv
    refine .miss (h.misses_iff.mp hx) (by rw [BufferCache.victim_eq h.ring, hv]) ?_ rfl
    simpa [BufferCache.unreferenced] using List.find?_some hv
  · cases hr

namespace Handed

/-- Nothing else changes. -/
theorem buf_of_ne (h : s.Handed k b c) {x : BufIdx} (hx : x ≠ b) :
    c.buf x = s.sys.cache.buf x := by
  cases h with
  | hit hid honly hc => rw [hc, BufferCache.buf_setBuf_of_ne _ _ hx]
  | miss hno hb hfree hc => rw [hc, BufferCache.buf_setBuf_of_ne _ _ hx]

theorem ident_of_ne (h : s.Handed k b c) {x : BufIdx} (hx : x ≠ b) :
    System.ident c x = System.ident s.sys.cache x := by
  rw [System.ident, System.ident, h.buf_of_ne hx]

theorem ident_self (h : s.Handed k b c) : System.ident c b = k := by
  cases h with
  | hit hid honly hc =>
    rw [hc, BufferCache.ident_setBuf, hid]
    intro v
    split_ifs <;> simp
  | miss hno hb hfree hc => simp [hc, System.ident]

theorem valid_self (h : s.Handed k b c) : (c.buf b).valid = true := by
  cases h with
  | hit hid honly hc =>
    rw [hc, BufferCache.buf_setBuf_self]
    split_ifs with hv
    · exact hv
    · rfl
  | miss hno hb hfree hc => simp [hc]

end Handed

theorem Inv.held_of_victim (h : s.Inv order) (hb : (s.sys.cache.buf b).refcnt = 0) :
    s.sys.held b = 0 ∧ b ∉ s.modified := by
  have hheld := h.sys.held_eq_zero h.peak hb
  refine ⟨hheld, fun hm => ?_⟩
  have hpos := h.held b hm
  omega

/-- The block is what it was when it was last released. -/
theorem Inv.data_handed (h : s.Inv order) (hh : s.Handed k b c) :
    (c.buf b).data = if b ∈ s.modified then (s.sys.cache.buf b).data else s.last k := by
  cases hh with
  | hit hid honly hc =>
    rw [hc, BufferCache.buf_setBuf_self]
    by_cases hu : b ∈ s.sys.used
    · rw [if_pos (h.valid b hu)]
      split_ifs with hm
      · rfl
      · rw [← hid, ← h.clean b hu hm]
    · obtain ⟨-, hv, hheld, -⟩ := h.sys.fresh b hu
      have hm : b ∉ s.modified := fun hm => (h.held b hm).ne' hheld
      have hlast : s.last k = s.disk k := h.rest k fun x hx hxk => hu (honly x hx hxk ▸ hx)
      rw [if_neg (by simp [hv]), if_neg hm, hlast]
  | miss hno hb hfree hc =>
    rw [hc, BufferCache.buf_setBuf_self, if_neg (h.held_of_victim hfree).2]
    exact (h.rest k fun x _ => hno x).symm

theorem Inv.bread (h : s.Inv order) (hs : s.Spares (.bread k))
    (hr : s.exec (.bread k) = .ok s') : s'.Inv order := by
  simp only [exec, System.exec] at hr
  cases hb : s.sys.cache.bread s.fill k.1 k.2 with
  | error x => simp [hb, Except.map] at hr
  | ok r =>
    rw [hb] at hr
    cases hr
    obtain ⟨b, c⟩ := r
    have hh := Inv.handed h.sys hb
    have hheld (x : BufIdx) : s.sys.held x ≤ (s.sys.took b c).held x := by
      by_cases hx : x = b
      · simp [System.took, hx]
      · simp [System.took, hx]
    constructor
    case sys => exact h.sys.read hb
    case peak =>
      refine max_lt h.peak ?_
      cases hh with
      | hit hid honly hc => exact hs.1 b hid
      | miss hno hb hfree hc => simp [(h.held_of_victim hfree).1]
    case valid =>
      intro x hx
      by_cases hxb : x = b
      · rw [hxb]
        exact hh.valid_self
      · change (c.buf x).valid = true
        rw [hh.buf_of_ne hxb]
        exact h.valid x ((Finset.mem_insert.mp hx).resolve_left hxb)
    case held => exact fun x hx => (h.held x hx).trans_le (hheld x)
    case clean =>
      intro x hx hm
      by_cases hxb : x = b
      · subst hxb
        change (c.buf x).data = s.last (System.ident c x)
        rw [hh.ident_self, h.data_handed hh, if_neg hm]
      · change (c.buf x).data = s.last (System.ident c x)
        rw [hh.ident_of_ne hxb, hh.buf_of_ne hxb]
        exact h.clean x ((Finset.mem_insert.mp hx).resolve_left hxb) hm
    case rest =>
      intro k' hk'
      by_cases hold : ∃ x ∈ s.sys.used, System.ident s.sys.cache x = k'
      · obtain ⟨x, hx, hxk⟩ := hold
        have hxb : x = b := by
          by_contra hxb
          exact hk' x (Finset.mem_insert_of_mem hx) ((hh.ident_of_ne hxb).trans hxk)
        subst hxb
        -- the buffer of `k'` was recycled, and the disk has its data
        cases hh with
        | hit hid honly hc =>
          have hself := (Handed.hit hid honly hc : s.Handed k x c).ident_self
          exact absurd (hself.trans (hid.symm.trans hxk)) (hk' x (Finset.mem_insert_self _ _))
        | miss hno hb hfree hc =>
          have hclean := h.clean x hx (h.held_of_victim hfree).2
          rw [← hxk, ← hclean]
          exact hs.2 hno x hb (h.valid x hx)
      · exact h.rest k' fun x hx hxk => hold ⟨x, hx, hxk⟩

theorem Inv.modify (h : s.Inv order) {f : Mem → Mem} (hm : s.Matched (.modify b f))
    (hr : s.exec (.modify b f) = .ok s') : s'.Inv order := by
  cases hr
  have hu : b ∈ s.sys.used := h.sys.used_of_held hm.ne'
  have hident := fun x => s.sys.cache.ident_setBuf b x (f := fun v => { v with data := f v.data })
    fun _ => ⟨rfl, rfl⟩
  have hvalid (x : BufIdx) :
      ((s.sys.cache.setBuf b fun v => { v with data := f v.data }).buf x).valid =
        (s.sys.cache.buf x).valid := by
    by_cases hx : x = b
    · simp [hx]
    · rw [BufferCache.buf_setBuf_of_ne _ _ hx]
  constructor
  case sys => exact h.sys.setBuf hu fun _ => ⟨rfl, rfl, rfl⟩
  case peak => exact h.peak
  case valid => exact fun x hx => (hvalid x).trans (h.valid x hx)
  case held =>
    intro x hx
    rcases Finset.mem_insert.mp hx with rfl | hx
    · exact hm
    · exact h.held x hx
  case clean =>
    intro x hx hno
    rw [Finset.mem_insert, not_or] at hno
    simp only [hident, BufferCache.buf_setBuf_of_ne _ _ hno.1]
    exact h.clean x hx hno.2
  case rest =>
    intro k hk
    simp only [hident] at hk
    exact h.rest k hk

theorem Inv.brelease (h : s.Inv order) (hm : s.Matched (.brelease b))
    (hr : s.exec (.brelease b) = .ok s') : ∃ order', s'.Inv order' := by
  have hu : b ∈ s.sys.used := h.sys.used_of_held (Nat.ne_of_gt hm)
  obtain ⟨order', hi⟩ := h.sys.release hm rfl
  cases hr
  have hbuf := BufferCache.buf_brelease s.sys.cache b
  have hident : ∀ x, System.ident (s.sys.cache.brelease b) x = System.ident s.sys.cache x :=
    fun x => by
      rw [System.ident, hbuf]
      exact s.sys.cache.ident_setBuf b x fun v => ⟨rfl, rfl⟩
  have hsame (x : BufIdx) : ((s.sys.cache.brelease b).buf x).valid = (s.sys.cache.buf x).valid ∧
      ((s.sys.cache.brelease b).buf x).data = (s.sys.cache.buf x).data := by
    rw [hbuf]
    by_cases hx : x = b
    · simp [hx]
    · rw [BufferCache.buf_setBuf_of_ne _ _ hx]
      exact ⟨rfl, rfl⟩
  refine ⟨order', hi, h.peak, fun x hx => ?_, fun x hx => ?_, fun x hx hno => ?_, fun k hk => ?_⟩
  · exact (hsame x).1.trans (h.valid x hx)
  · rw [Finset.mem_erase] at hx
    simpa [hx.1] using h.held x hx.2
  · rw [Finset.mem_erase, not_and] at hno
    simp only [hident, (hsame x).2]
    by_cases hxb : x = b
    · subst hxb
      split_ifs with hmod
      · simp
      · exact h.clean x hx hmod
    · have hne : System.ident s.sys.cache x ≠ System.ident s.sys.cache b := fun he =>
        hxb (h.sys.distinct x hx b hu he)
      have hclean := h.clean x hx (hno hxb)
      split_ifs
      · rw [Function.update_of_ne hne, hclean]
      · exact hclean
  · simp only [hident] at hk
    have hne : k ≠ System.ident s.sys.cache b := fun he => hk b hu he.symm
    have hrest := h.rest k hk
    split_ifs
    · exact (Function.update_of_ne hne _ _).trans hrest
    · exact hrest

theorem Inv.exec (h : s.Inv order) {a : Access} (hm : s.Matched a) (hs : s.Spares a)
    (hr : s.exec a = .ok s') : ∃ order', s'.Inv order' := by
  cases a with
  | bread k => exact ⟨order, h.bread hs hr⟩
  | modify b f => exact ⟨order, h.modify hm hr⟩
  | brelease b => exact h.brelease hm hr

theorem Inv.init (L : CircLinks BufIdx) (disk : BlockId → Mem) :
    (init L disk).Inv (List.finRange NBUF).reverse where
  sys := System.Inv.init L
  peak := by simp [Backed.init, System.init]
  valid := by simp [Backed.init, System.init]
  held := by simp [Backed.init]
  clean := by simp [Backed.init, System.init]
  rest := by simp [Backed.init]

theorem Inv.coherent (h : s.Inv order) (hroom : s.Room) : s.Coherent := by
  intro k
  obtain ⟨x, hx⟩ := hroom
  have hfree : s.sys.cache.unreferenced x = true := by
    simp [BufferCache.unreferenced, h.sys.count, hx]
  obtain ⟨r, hr⟩ : ∃ r, s.sys.cache.bread s.fill k.1 k.2 = .ok r := by
    rw [BufferCache.bread_eq h.sys.ring, BufferCache.victim_eq h.sys.ring]
    cases order.find? (s.sys.cache.holds k.1 k.2) with
    | some b => exact ⟨_, rfl⟩
    | none =>
      cases hv : order.reverse.find? s.sys.cache.unreferenced with
      | some b => exact ⟨_, rfl⟩
      | none => exact absurd hfree (List.find?_eq_none.mp hv x (by simpa using h.sys.all x))
  have hh := Inv.handed h.sys hr
  exact ⟨r.1, r.2, hr, hh.ident_self, h.data_handed hh⟩

theorem Run.inv {L : CircLinks BufIdx} {disk : BlockId → Mem} (hr : Run L disk Spares s) :
    ∃ order, s.Inv order := by
  induction hr with
  | init => exact ⟨_, .init L disk⟩
  | step _ hm hs he ih =>
    obtain ⟨order, hi⟩ := ih
    exact hi.exec hm hs he

/-- In a run that never recycles a buffer whose data differs from the disk, every block is what it
was when it was last released. -/
theorem coherent_of_spares {L : CircLinks BufIdx} {disk : BlockId → Mem}
    (hr : Run L disk Spares s) (hroom : s.Room) : s.Coherent := by
  obtain ⟨order, hi⟩ := hr.inv
  exact hi.coherent hroom

/-- A block that was modified and released. -/
theorem coherent_of_spares_modified : ∃ s,
    Run ⟨fun _ => none, fun _ => none⟩ (fun _ _ => 0) Spares s ∧ s.Coherent ∧
      s.last (1, 5) = fun _ => 1 := by
  have hspares : (init ⟨fun _ => none, fun _ => none⟩ fun _ _ => 0).Spares (.bread (1, 5)) :=
    ⟨fun b _ => by simp [init, System.init], fun _ b _ hv => by
      simp [init, System.init, binit, Buf.zero] at hv⟩
  have hr : Run ⟨fun _ => none, fun _ => none⟩ (fun _ _ => 0) Spares _ :=
    .step (a := .brelease ⟨0, by decide⟩) (.step (a := .modify ⟨0, by decide⟩ fun _ _ => 1)
      (.step (a := .bread (1, 5)) .init trivial hspares rfl) (by change 0 < _; decide +kernel)
      trivial rfl) (by change 0 < _; decide +kernel) trivial rfl
  exact ⟨_, hr, coherent_of_spares hr ⟨⟨0, by decide⟩, by decide +kernel⟩, rfl⟩

section Lost

instance (s : Backed) : (a : Access) → Decidable (s.Matched a)
  | .bread _ => .isTrue trivial
  | .modify b _ => inferInstanceAs (Decidable (0 < s.sys.held b))
  | .brelease b => inferInstanceAs (Decidable (0 < s.sys.held b))

instance (s : Backed) : Decidable s.Room :=
  inferInstanceAs (Decidable (∃ b, s.sys.held b = 0))

/-- Matched accesses one after the other, with fewer than `NBUF` buffers held at any time. -/
def execAll (s : Backed) : List Access → Option Backed
  | [] => if s.Room then some s else none
  | a :: as =>
    if s.Room ∧ s.Matched a then
      match s.exec a with
      | .ok s => execAll s as
      | .error _ => none
    else none

theorem run_of_execAll {L : CircLinks BufIdx} {disk : BlockId → Mem} {as : List Access}
    (hr : Run L disk (fun s _ => s.Room) s) (he : s.execAll as = some s') :
    Run L disk (fun s _ => s.Room) s' ∧ s'.Room := by
  induction as generalizing s with
  | nil =>
    rw [execAll] at he
    split_ifs at he with hroom
    cases he
    exact ⟨hr, hroom⟩
  | cons a as ih =>
    rw [execAll] at he
    split_ifs at he with hok
    split at he
    · next s₁ hs₁ => exact ih (.step hr hok.2 hok.1 hs₁) he
    · cases he

private theorem NBUF_pos : 0 < NBUF := by decide

/-- A block is modified and released; then 29 others are read, one of them is released, and one
more is read. -/
private def losing : List Access :=
  [.bread (1, 5), .modify ⟨0, NBUF_pos⟩ fun _ _ => 1, .brelease ⟨0, NBUF_pos⟩] ++
    (List.range 29).map (fun i => .bread (1, 100 + BitVec.ofNat 32 i)) ++
    [.brelease ⟨29, by decide⟩, .bread (1, 200)]

/-- The modification of the first block is lost. -/
theorem not_coherent_recycled : ∃ s, Run ⟨fun _ => none, fun _ => none⟩ (fun _ _ => 0)
    (fun s _ => s.Room) s ∧ s.Room ∧ ¬ s.Coherent := by
  have hlost : ((init ⟨fun _ => none, fun _ => none⟩ fun _ _ => 0).execAll losing).map (fun s =>
      (s.sys.cache.bread s.fill 1 5).map fun r =>
        (decide (r.1 ∈ s.modified), (r.2.buf r.1).data 0, s.last (1, 5) 0)) =
      some (.ok (false, 0, 1)) := by
    decide +kernel
  rw [Option.map_eq_some_iff] at hlost
  obtain ⟨s, hs, hread⟩ := hlost
  obtain ⟨hr, hroom⟩ := run_of_execAll .init hs
  refine ⟨s, hr, hroom, fun hc => ?_⟩
  obtain ⟨b, c, hb, -, hdata⟩ := hc (1, 5)
  rw [hb] at hread
  obtain ⟨hm, hd, hl⟩ : b ∉ s.modified ∧ (c.buf b).data 0 = 0 ∧ s.last (1, 5) 0 = 1 := by
    simpa [Except.map] using hread
  rw [hdata, if_neg hm, hl] at hd
  cases hd

end Lost

end Backed
end Multiplix.Fs.Bcache
