import Mathlib.Order.Interval.Finset.Nat
import Multiplix.Sched.Effects

/-! Parents and children. A process points to its parent until it is freed itself, so the parent
must not be freed before. -/
namespace Multiplix.Sched

/-- Which process is at an address, and which one forked it, by their serial numbers, which are not
used again. -/
structure History where
  serial : Addr → ℕ
  forker : Addr → Option ℕ
  next : ℕ

/-- The first process. -/
def History.boot : History := ⟨fun _ => 0, fun _ => none, 1⟩

def History.fork (g : History) (p c : Addr) : History where
  serial := Function.update g.serial c g.next
  forker := Function.update g.forker c (some (g.serial p))
  next := g.next + 1

/-- The history with event `e`. -/
def History.after (g : History) (s : System) (e : Event) : History :=
  match s.actor e, s.made e with
  | some p, some c => g.fork p c
  | _, _ => g

namespace System

variable {b : Board} {s s' : System} {g : History} {q : QueueName → List Addr} {p a c z : Addr}
  {e : Event}

/-- The processes that `p` has forked and that have not been reaped. -/
def unreaped (s : System) (g : History) (p : Addr) : Finset Addr :=
  s.live.filter fun a => g.forker a = some (g.serial p)

/-- Parents and the numbers of their children are right. -/
structure Sound (s : System) (g : History) : Prop where
  parent : ∀ a ∈ s.live, (s.kernel.proc a).parent = none ∨
    ∃ p ∈ s.live, (s.kernel.proc a).parent = some p ∧ g.forker a = some (g.serial p)
  children : ∀ p ∈ s.live, (s.kernel.proc p).children.toNat = (s.unreaped g p).card

theorem Sound.parent_mem (h : s.Sound g) (ha : a ∈ s.live) {x : Addr}
    (hx : (s.kernel.proc a).parent = some x) : x ∈ s.live := by
  rcases h.parent a ha with hn | ⟨p, hp, hpar, -⟩
  · cases hx.symm.trans hn
  · cases hx.symm.trans hpar
    exact hp

/-- A process that is freed has no children. -/
def Spares (s : System) (e : Event) : Prop := ∀ z ∈ s.freed e, (s.kernel.proc z).children = 0

instance : Decidable (s.Spares e) := Option.decidableForallMem _

/-- The states of the runs with events as in `ok`, with their histories. -/
inductive Traced (b : Board) (ok : System → Event → Prop) : System → History → Prop
  | boot {a : Addr} : b.InHeap a → Traced b ok (boot a) .boot
  | step {s s' : System} {g : History} {e : Event} : Traced b ok s g → s.exec b e = .ok s' →
      ok s e → Traced b ok s' (g.after s e)

theorem Traced.reachable {ok : System → Event → Prop} (h : Traced b ok s g) : Reachable b s := by
  induction h with
  | boot ha => exact .boot ha
  | step _ he _ ih => exact .step ih he

/-- What is known about the processes that live and their serial numbers. -/
structure Family (b : Board) (s : System) (g : History) : Prop where
  parent : ∀ a ∈ s.live, (s.kernel.core a).parent = none ∧ g.forker a = none ∨
    ∃ p ∈ s.live, (s.kernel.core a).parent = some p ∧ g.forker a = some (g.serial p)
  children : ∀ p ∈ s.live, (s.kernel.core p).children.toNat = (s.unreaped g p).card
  heap : ∀ a ∈ s.live, b.InHeap a
  serial_inj : ∀ a ∈ s.live, ∀ p ∈ s.live, g.serial a = g.serial p → a = p
  serial_lt : ∀ a ∈ s.live, g.serial a < g.next
  forker_lt : ∀ a ∈ s.live, ∀ n ∈ g.forker a, n < g.next

namespace Family

variable (h : Family b s g)
include h

theorem sound : s.Sound g :=
  ⟨fun a ha => (h.parent a ha).imp And.left id, h.children⟩

theorem forker_iff (ha : a ∈ s.live) (hp : p ∈ s.live) :
    g.forker a = some (g.serial p) ↔ (s.kernel.core a).parent = some p := by
  rcases h.parent a ha with ⟨h1, h2⟩ | ⟨x, hx, h1, h2⟩ <;> rw [h1, h2]
  · exact ⟨fun hc => (by cases hc), fun hc => (by cases hc)⟩
  · rw [Option.some.injEq, Option.some.injEq]
    exact ⟨h.serial_inj x hx p hp, congrArg g.serial⟩

/-- The heap has no room for more. -/
theorem card_live : s.live.card ≤ 512 * 2 ^ 20 := by
  have hmap : ∀ a ∈ s.live, a.toNat ∈ Finset.Ico b.heapStart (b.heapStart + 512 * 2 ^ 20) :=
    fun a ha => Finset.mem_Ico.mpr (h.heap a ha)
  have hle := Finset.card_le_card_of_injOn BitVec.toNat hmap
    fun x _ y _ hxy => BitVec.eq_of_toNat_eq hxy
  rwa [Nat.card_Ico, Nat.add_sub_cancel_left] at hle

theorem card_unreaped : (s.unreaped g p).card ≤ 512 * 2 ^ 20 :=
  (Finset.card_le_card (Finset.filter_subset _ _)).trans h.card_live

/-- Nothing about parents and children has changed. -/
theorem keep (hl : s'.live = s.live)
    (hs : ∀ a ∈ s.live, SameFamily (s.kernel.core a) (s'.kernel.core a)) : Family b s' g := by
  obtain ⟨h1, h2, h3, h4, h5, h6⟩ := h
  refine ⟨?_, ?_, ?_, ?_, ?_, ?_⟩ <;> rw [hl] <;> try assumption
  · intro a ha
    rw [(hs a ha).parent]
    exact h1 a ha
  · intro p hp
    rw [(hs p hp).children, unreaped, hl]
    exact h2 p hp

/-- `p` has forked `c`. -/
theorem fork (hp : p ∈ s.live) (hc : c ∉ s.live) (hb : b.InHeap c) (hl : s'.live = insert c s.live)
    (hpar : (s'.kernel.core c).parent = some p) (hch : (s'.kernel.core c).children = 0)
    (hself : (s'.kernel.core p).parent = (s.kernel.core p).parent ∧
      (s'.kernel.core p).children = (s.kernel.core p).children + 1)
    (hs : ∀ a ∈ s.live, a ≠ p → SameFamily (s.kernel.core a) (s'.kernel.core a)) :
    Family b s' (g.fork p c) := by
  have hne : ∀ {a}, a ∈ s.live → a ≠ c := fun ha he => hc (he ▸ ha)
  have hmem : ∀ {a}, a ∈ s'.live → a = c ∨ a ∈ s.live := fun ha => by
    rwa [hl, Finset.mem_insert] at ha
  have hser : ∀ {a}, a ∈ s.live → (g.fork p c).serial a = g.serial a := fun ha =>
    Function.update_of_ne (hne ha) ..
  have hfor : ∀ {a}, a ∈ s.live → (g.fork p c).forker a = g.forker a := fun ha =>
    Function.update_of_ne (hne ha) ..
  have hserc : (g.fork p c).serial c = g.next := Function.update_self ..
  have hforc : (g.fork p c).forker c = some (g.serial p) := Function.update_self ..
  have hparent : ∀ a ∈ s.live,
      (s'.kernel.core a).parent = (s.kernel.core a).parent := fun a ha => by
    by_cases hap : a = p
    · rw [hap, hself.1]
    · exact (hs a ha hap).parent
  refine ⟨fun a ha => ?_, fun a ha => ?_, fun a ha => ?_, fun x hx y hy hxy => ?_, fun a ha => ?_,
    fun a ha n hn => ?_⟩
  · rw [hl]
    rcases hmem ha with rfl | ha
    · exact Or.inr ⟨p, Finset.mem_insert_of_mem hp, hpar, by rw [hforc, hser hp]⟩
    · rw [hparent a ha, hfor ha]
      refine (h.parent a ha).imp id fun ⟨x, hx, hax⟩ => ?_
      exact ⟨x, Finset.mem_insert_of_mem hx, by rwa [hser hx]⟩
  · -- the children of `a` before, and `c` if `a` is `p`
    have hold : s.live.filter (fun x => (g.fork p c).forker x = some ((g.fork p c).serial a)) =
        s.live.filter fun x => g.forker x = some ((g.fork p c).serial a) :=
      Finset.filter_congr fun x hx => by rw [hfor hx]
    rw [unreaped, hl, Finset.filter_insert, hforc, hold]
    rcases hmem ha with rfl | ha
    · have hlt := h.serial_lt p hp
      have hnone : s.live.filter (fun x => g.forker x = some g.next) = ∅ :=
        Finset.filter_eq_empty_iff.mpr fun x hx hxn => (h.forker_lt x hx _ hxn).ne rfl
      rw [hserc, if_neg (by simpa using hlt.ne), hnone, hch]
      rfl
    · rw [hser ha]
      change _ = (if _ then insert c (s.unreaped g a) else s.unreaped g a).card
      by_cases hap : a = p
      · subst hap
        have hcn : c ∉ s.unreaped g a := fun hin => hc (Finset.mem_filter.mp hin).1
        have hle : (s.unreaped g a).card ≤ 512 * 2 ^ 20 := h.card_unreaped
        rw [if_pos rfl, Finset.card_insert_of_notMem hcn, hself.2, ← h.children a hp] at *
        rw [BitVec.toNat_add, Nat.mod_eq_of_lt]
        · rfl
        · have h1 : (1 : BitVec 32).toNat = 1 := rfl
          omega
      · rw [if_neg, (hs a ha hap).children, h.children a ha]
        rw [Option.some.injEq]
        exact fun he => hap (h.serial_inj p hp a ha he).symm
  · rcases hmem ha with rfl | ha
    · exact hb
    · exact h.heap a ha
  · rcases hmem hx with rfl | hx <;> rcases hmem hy with rfl | hy
    · rfl
    · rw [hserc, hser hy] at hxy
      exact absurd hxy.symm (h.serial_lt y hy).ne
    · rw [hserc, hser hx] at hxy
      exact absurd hxy (h.serial_lt x hx).ne
    · rw [hser hx, hser hy] at hxy
      exact h.serial_inj x hx y hy hxy
  · rcases hmem ha with rfl | ha
    · rw [hserc]
      exact Nat.lt_succ_self _
    · rw [hser ha]
      exact Nat.lt_succ_of_lt (h.serial_lt a ha)
  · rcases hmem ha with rfl | ha
    · rw [hforc, Option.mem_some] at hn
      exact hn ▸ Nat.lt_succ_of_lt (h.serial_lt p hp)
    · rw [hfor ha] at hn
      exact Nat.lt_succ_of_lt (h.forker_lt a ha n hn)

/-- `p` has reaped `z`, which has no children. -/
theorem reap (hp : p ∈ s.live) (hz : z ∈ s.live) (hzp : z ≠ p)
    (hpar : (s.kernel.core z).parent = some p) (hno : (s.kernel.core z).children = 0)
    (hl : s'.live = s.live.erase z)
    (hself : (s'.kernel.core p).parent = (s.kernel.core p).parent ∧
      (s'.kernel.core p).children = (s.kernel.core p).children - 1)
    (hs : ∀ a ∈ s.live, a ≠ p → SameFamily (s.kernel.core a) (s'.kernel.core a)) :
    Family b s' g := by
  have hlive : ∀ {a}, a ∈ s'.live → a ∈ s.live := fun ha => by
    rw [hl] at ha
    exact Finset.mem_of_mem_erase ha
  have hforz := (h.forker_iff hz hp).mpr hpar
  have hparent : ∀ a ∈ s.live,
      (s'.kernel.core a).parent = (s.kernel.core a).parent := fun a ha => by
    by_cases hap : a = p
    · rw [hap, hself.1]
    · exact (hs a ha hap).parent
  refine ⟨fun a ha => ?_, fun a ha => ?_, fun a ha => h.heap a (hlive ha), fun x hx y hy =>
    h.serial_inj x (hlive hx) y (hlive hy), fun a ha => h.serial_lt a (hlive ha),
    fun a ha => h.forker_lt a (hlive ha)⟩
  · rw [hparent a (hlive ha)]
    refine (h.parent a (hlive ha)).imp id fun ⟨x, hx, hax, hfor⟩ => ⟨x, ?_, hax, hfor⟩
    rw [hl, Finset.mem_erase]
    refine ⟨fun hxz => ?_, hx⟩
    -- `z` would have a child
    have hmem : a ∈ s.unreaped g z := Finset.mem_filter.mpr ⟨hlive ha, hxz ▸ hfor⟩
    have hcard := h.children z hz
    rw [hno] at hcard
    exact (Finset.card_pos.mpr ⟨a, hmem⟩).ne hcard
  · rw [unreaped, hl, Finset.filter_erase]
    change _ = ((s.unreaped g a).erase z).card
    by_cases hap : a = p
    · subst hap
      have hin : z ∈ s.unreaped g a := Finset.mem_filter.mpr ⟨hz, hforz⟩
      have hpos := Finset.card_pos.mpr ⟨z, hin⟩
      have hch := h.children a hp
      rw [Finset.card_erase_of_mem hin, hself.2, ← hch]
      rw [← hch] at hpos
      bv_omega
    · have hout : z ∉ s.unreaped g a := fun hin => by
        have heq := (Finset.mem_filter.mp hin).2
        rw [hforz, Option.some.injEq] at heq
        exact hap (h.serial_inj p hp a (hlive ha) heq).symm
      rw [Finset.erase_eq_of_notMem hout, (hs a (hlive ha) hap).children]
      exact h.children a (hlive ha)

/-- Once a process with children has been reaped, one of them points to freed memory. -/
theorem not_sound (hz : z ∈ s.live) (hzz : (s.kernel.core z).parent ≠ some z)
    (hch : (s.kernel.core z).children ≠ 0) (hl : s'.live = s.live.erase z)
    (hs : ∀ a ∈ s.live, (s'.kernel.core a).parent = (s.kernel.core a).parent) : ¬ s'.Sound g := by
  have hpos : (s.unreaped g z).card ≠ 0 := by
    rw [← h.children z hz]
    exact fun hc => hch (BitVec.eq_of_toNat_eq hc)
  obtain ⟨a, ha⟩ := Finset.card_pos.mp (Nat.pos_of_ne_zero hpos)
  obtain ⟨hal, hfor⟩ := Finset.mem_filter.mp ha
  have hpar := (h.forker_iff hal hz).mp hfor
  have haz : a ≠ z := fun he => hzz (he ▸ hpar)
  intro hsound
  have hpa : (s'.kernel.proc a).parent = some z := (hs a hal).trans hpar
  have hz' := hsound.parent_mem (hl ▸ Finset.mem_erase.mpr ⟨haz, hal⟩) hpa
  rw [hl] at hz'
  exact Finset.notMem_erase _ _ hz'

/-- What an event leads to. -/
theorem step (hi : s.Inv q) (he : s.exec b e = .ok s') :
    (∀ z ∈ s.live, z ∉ s'.live → ∃ p ∈ s.live, s.actor e = some p ∧
      g.forker z = some (g.serial p) ∧
      (s'.kernel.core p).retval = (s.kernel.core z).pid.signExtend 64) ∧
    (s.Spares e → Family b s' (g.after s e)) ∧ (s'.Sound (g.after s e) → s.Spares e) := by
  have hf := hi.effect he
  unfold History.after Spares
  have hact : ∀ p ∈ s.actor e, p ∈ s.live ∧ (s.kernel.core p).state = .runnable := fun p hp =>
    hi.actor_runnable hp
  generalize s.actor e = o, s.made e = m, s.freed e = f at hf hact
  have hrest : ∀ {p}, o = some p →
      (∀ a ∈ s.live, some a ≠ o → Rests (s.kernel.core a) (s'.kernel.core a)) →
      ∀ a ∈ s.live, a ≠ p → SameFamily (s.kernel.core a) (s'.kernel.core a) := fun hp hr a ha hap =>
    (hr a ha fun hc => hap (Option.some.inj (hc.trans hp))).sameFamily
  cases hf with
  | keep live self rests =>
    refine ⟨fun z hz hz' => absurd (live ▸ hz) hz', fun _ => ?_, fun _ z hz => by cases hz⟩
    have hk := h.keep live fun a ha => by
      by_cases hao : some a = o
      · exact self a hao.symm
      · exact (rests a ha hao).sameFamily
    cases o <;> exact hk
  | @fork _ p c actor alloc live parent children self rests =>
    subst actor
    refine ⟨fun z hz hz' => ?_, fun _ => ?_, fun _ z hz => by cases hz⟩
    · rw [live] at hz'
      exact absurd (Finset.mem_insert_of_mem hz) hz'
    · exact h.fork (hact p rfl).1 alloc.1 alloc.2 live parent children ⟨self.parent, self.children⟩
        (hrest rfl rests)
  | @reap _ p z actor zombie exited parent live retval self rests =>
    subst actor
    obtain ⟨hp, hrun⟩ := hact p rfl
    have hzp : z ≠ p := fun he => by cases exited.symm.trans (he ▸ hrun)
    refine ⟨fun a ha ha' => ?_, fun hno => ?_, fun hsound x hx => ?_⟩
    · have haz : a = z := by
        rw [live, Finset.mem_erase, not_and_or, not_not] at ha'
        exact ha'.resolve_right (not_not.mpr ha)
      rw [haz]
      exact ⟨p, hp, rfl, (h.forker_iff zombie hp).mpr parent, retval⟩
    · exact h.reap hp zombie hzp parent (hno z rfl) live ⟨self.parent, self.children⟩
        (hrest rfl rests)
    · obtain rfl : z = x := Option.some.inj hx
      by_contra hch
      refine h.not_sound zombie (fun hc => ?_) hch live (fun a ha => ?_) hsound
      · exact hzp (Option.some.inj (hc.symm.trans parent))
      · by_cases hap : a = p
        · subst hap
          exact self.parent
        · exact (hrest rfl rests a ha hap).parent

end Family

theorem family_boot (ha : b.InHeap a) : Family b (boot a) .boot := by
  have hl : (boot a).live = {a} := rfl
  have hk : (boot a).kernel.core a = { Proc.init with pid := 0 } := by
    rw [boot, Kernel.core_pushFront]
    have hc : (init.kernel.setProc a fun _ => { Proc.init with pid := 0 }).core a = _ :=
      congrFun Kernel.core_setProc a
    rw [Function.update_self] at hc
    exact hc
  refine ⟨fun x hx => ?_, fun x hx => ?_, fun x hx => ?_, fun x hx y hy _ => ?_,
    fun x _ => Nat.zero_lt_one, fun x _ n hn => by cases hn⟩
  · rw [hl, Finset.mem_singleton] at hx
    rw [hx, hk]
    exact Or.inl ⟨rfl, rfl⟩
  · rw [hl, Finset.mem_singleton] at hx
    rw [hx, hk]
    rfl
  · rw [hl, Finset.mem_singleton] at hx
    exact hx ▸ ha
  · rw [hl, Finset.mem_singleton] at hx hy
    exact hx.trans hy.symm

theorem Traced.family (h : Traced b Spares s g) : Family b s g := by
  induction h with
  | boot ha => exact family_boot ha
  | step ht he hok ih =>
    obtain ⟨q, hi⟩ := ht.reachable.inv
    exact (ih.step hi he).2.1 hok

/-- Freed memory is looked at only by a process that ends and points to it. -/
theorem Inv.dangling (h : s.Inv q) (he : s.exec b e = .error .dangling) :
    ∃ p ∈ s.live, ∃ x, (s.kernel.proc p).parent = some x ∧ x ∉ s.live := by
  have hexit : ∀ {p}, s.control = .user p → s.sysExit p = .error .dangling →
      ∃ p ∈ s.live, ∃ x, (s.kernel.proc p).parent = some x ∧ x ∉ s.live := fun {p} hc hx => by
    refine ⟨p, (h.live p).mpr (Or.inr hc), ?_⟩
    rw [System.sysExit, System.wakeParent] at hx
    cases hpar : (s.kernel.proc p).parent with
    | none =>
      rw [hpar] at hx
      cases hx
    | some x =>
      rw [hpar] at hx
      refine ⟨x, rfl, fun hin => ?_⟩
      dsimp only at hx
      rw [if_neg (not_not.mpr hin)] at hx
      split_ifs at hx with hblk
      rw [Kernel.wake, if_neg (not_not.mpr hblk.1)] at hx
      cases hx
  obtain ⟨k, q', hk, -⟩ := h.irqHandler
  unfold System.exec at he
  cases hc : s.control with
  | scheduler =>
    rw [hc] at he
    cases e with
    | pick now mem =>
      obtain ⟨s', -, hok, -⟩ := h.pick hc b.mtimeFreq now mem
      cases hok.symm.trans he
    | tick =>
      simp only [schedule, hk] at he
      split_ifs at he
      cases he
    | _ => cases he
  | user p =>
    rw [hc] at he
    cases e with
    | tick =>
      simp only [user, hk] at he
      cases he
    | fork c mapped =>
      simp only [user] at he
      split_ifs at he
      cases he
    | exit => exact hexit hc he
    | kill => exact hexit hc he
    | _ => cases he

/-- In a run in which no process is reaped that has children left, parents and the numbers of
children are right, the memory of a freed process is not looked at, and `sys_wait` reaps only what
the process has forked. One process reaped that has children left, and a parent is wrong. -/
theorem sound_of_spares (h : Traced b Spares s g) :
    s.Sound g ∧ (∀ e, s.exec b e ≠ .error .dangling) ∧
      ∀ e s', s.exec b e = .ok s' →
        (∀ z ∈ s.live, z ∉ s'.live → ∃ p ∈ s.live, s.actor e = some p ∧
          g.forker z = some (g.serial p) ∧
          (s'.kernel.proc p).retval = (s.kernel.proc z).pid.signExtend 64) ∧
        (s'.Sound (g.after s e) ↔ s.Spares e) := by
  have hfam := h.family
  obtain ⟨q, hi⟩ := h.reachable.inv
  refine ⟨hfam.sound, fun e he => ?_, fun e s' he => ?_⟩
  · obtain ⟨p, hp, x, hpar, hx⟩ := hi.dangling he
    exact hx (hfam.sound.parent_mem hp hpar)
  · obtain ⟨h1, h2, h3⟩ := hfam.step hi he
    exact ⟨h1, h3, fun hok => (h2 hok).sound⟩

/-- A process that forks another one, and reaps it. -/
theorem sound_of_spares_fork : ∃ s g, Traced ⟨10000000, 0x80600000⟩ Spares s g ∧ s.Sound g ∧
    s.live = {0x80600000} :=
  have hr : Traced ⟨10000000, 0x80600000⟩ Spares _ _ :=
    .step (e := .pick 0 true) (.step (e := .exit) (.step (e := .pick 0 true) (.step (e := .wait)
      (.step (e := .fork (some 0x80601000) true)
        (.step (e := .pick 0 true) (.boot (a := 0x80600000) (by decide)) rfl (by decide)) rfl
          (by decide)) rfl (by decide)) rfl (by decide)) rfl (by decide)) rfl (by decide)
  ⟨_, _, hr, (sound_of_spares hr).1, by decide⟩

/-- A process forks another one, which forks a third one and ends, and is reaped: the third one
points to memory that has been freed. -/
theorem not_sound_orphan : ∃ s g, Traced ⟨10000000, 0x80600000⟩ (fun _ _ => True) s g ∧
    ¬ s.Sound g :=
  have hr : Traced ⟨10000000, 0x80600000⟩ (fun _ _ => True) _ _ :=
    .step (e := .pick 0 true) (.step (e := .tick) (.step (e := .pick 0 true) (.step (e := .exit)
      (.step (e := .fork (some 0x80602000) true) (.step (e := .pick 0 true) (.step (e := .wait)
        (.step (e := .fork (some 0x80601000) true)
          (.step (e := .pick 0 true) (.boot (a := 0x80600000) (by decide)) rfl trivial) rfl
            trivial) rfl trivial) rfl trivial) rfl trivial) rfl trivial) rfl trivial) rfl
              trivial) rfl trivial
  ⟨_, _, hr, fun h => absurd (h.parent_mem (a := 0x80602000) (x := 0x80601000) (by decide)
    (by decide)) (by decide)⟩

end System
end Multiplix.Sched
