import Mathlib.Data.Set.Insert
import Multiplix.Sched.QueueOps

/-! Over any run of calls a queue is the sequence of its processes, by the times of their pushes. -/
namespace Multiplix.Sched
open Lib

/-- What the calls tell about the queues. -/
structure QueueHistory where
  /-- The number of pushes up to now. -/
  now : ℕ
  /-- When a process was last pushed. -/
  pushed : QueueName → Addr → ℕ
  /-- The processes that were pushed and not taken off since. -/
  present : QueueName → Set Addr

namespace QueueHistory

def init : QueueHistory := ⟨0, fun _ _ => 0, fun _ => ∅⟩

def push (h : QueueHistory) (n : QueueName) (p : Addr) : QueueHistory where
  now := h.now + 1
  pushed := Function.update h.pushed n (Function.update (h.pushed n) p h.now)
  present := Function.update h.present n (insert p (h.present n))

def drop (h : QueueHistory) (n : QueueName) (p : Addr) : QueueHistory :=
  { h with present := Function.update h.present n (h.present n \ {p}) }

/-- What `pop_back` returns is taken off. -/
def pop (h : QueueHistory) (n : QueueName) : Option Addr → QueueHistory
  | none => h
  | some p => h.drop n p

end QueueHistory

namespace Kernel

/-- The processes that `link` leads to from a process on. -/
def follow (link : Addr → Option Addr) : ℕ → Option Addr → Except Stop (List Addr)
  | 0, _ => .error .loop
  | _ + 1, none => .ok []
  | fuel + 1, some a => (follow link fuel (link a)).map (a :: ·)

/-- Following `next` from `front`. -/
def forward (k : Kernel) (n : QueueName) : Except Stop (List Addr) :=
  follow k.links.next (addrSpace + 1) (k.queue n).front

/-- Following `prev` from `back`. -/
def backward (k : Kernel) (n : QueueName) : Except Stop (List Addr) :=
  follow k.links.prev (addrSpace + 1) (k.queue n).back

/-- The calls of a delegate on a list, up to the first that returns other than zero. -/
def visit {σ : Type} (dg : Addr → σ → BitVec 32 × σ) : List Addr → σ → BitVec 32 × σ
  | [], s => (0, s)
  | z :: zs, s =>
    let (r, s) := dg z s
    if r ≠ 0 then (r, s) else visit dg zs s

/-- The queues of `S` start empty, and are used by nothing but the calls. The links of a process
on none of them may hold anything, also those that an earlier call has left there. -/
inductive Run (S : Set QueueName) : Kernel → QueueHistory → Prop
  | init {k} (hq : ∀ n ∈ S, k.queue n = .init) : Run S k .init
  | pushFront {k h n p} (r : Run S k h) (hn : n ∈ S) (hp : p ≠ 0)
      (hout : ∀ m ∈ S, p ∉ h.present m) : Run S (k.pushFront n p) (h.push n p)
  | remove {k h n p} (r : Run S k h) (hn : n ∈ S) (hp : p ∈ h.present n) :
      Run S (k.remove n p) (h.drop n p)
  | popBack {k h n} (r : Run S k h) (hn : n ∈ S) :
      Run S (k.popBack n).2 (h.pop n (k.popBack n).1)
  /-- Anything else: it changes neither these queues nor the links of the processes on them. -/
  | other {k h k'} (r : Run S k h) (hq : ∀ n ∈ S, k'.queue n = k.queue n)
      (hl : ∀ n ∈ S, ∀ p ∈ h.present n,
        k'.links.next p = k.links.next p ∧ k'.links.prev p = k.links.prev p) : Run S k' h

/-- Queue `n` is the sequence `xs` of the processes present, the newest first. -/
structure Fifo (k : Kernel) (h : QueueHistory) (n : QueueName) (xs : List Addr) : Prop where
  mem : ∀ p, p ∈ xs ↔ p ∈ h.present n
  newest : xs.Pairwise fun a b => h.pushed n b < h.pushed n a
  forward : k.forward n = .ok xs
  backward : k.backward n = .ok xs.reverse
  size : (k.queue n).size.toNat = xs.length
  iterates : ∀ {σ : Type} (dg : Addr → σ → BitVec 32 × σ) (s : σ),
    k.opApply n dg s = .ok (visit dg xs s)
  pushes : ∀ p ∉ xs, (k.pushFront n p).forward n = .ok (p :: xs)
  removes : ∀ p ∈ xs, (k.remove n p).forward n = .ok (xs.erase p)
  pops : (k.popBack n).2.forward n = .ok xs.dropLast
  pop_none : (k.popBack n).1 = none ↔ h.present n = ∅
  pop_oldest : ∀ p, (k.popBack n).1 = some p →
    p ∈ h.present n ∧ ∀ a ∈ h.present n, a ≠ p → h.pushed n p < h.pushed n a

/-- What `wake_all` on `n` leads to: all processes of `n` are runnable and on `runq`. -/
structure Woken (S : Set QueueName) (k : Kernel) (h : QueueHistory) (n : QueueName) (k' : Kernel)
    (h' : QueueHistory) : Prop where
  run : Run S k' h'
  empty : h'.present n = ∅
  runq : h'.present .runq = h.present .runq ∪ h.present n
  others : ∀ m, m ≠ n → m ≠ .runq → h'.present m = h.present m
  awake : ∀ p ∈ h.present n, k'.core p = (k.core p).awake
  frame : ∀ p ∉ h.present n, k'.core p = k.core p

/-! ### The lists that a run builds -/

variable {S : Set QueueName} {k k' : Kernel} {h h' : QueueHistory} {n m : QueueName} {p a : Addr}
  {xs : List Addr} {q : QueueName → List Addr}

/-- The queues of `S` hold `q`, in the order of the pushes. -/
structure Ordered (S : Set QueueName) (k : Kernel) (h : QueueHistory) (q : QueueName → List Addr) :
    Prop where
  holds : ∀ n ∈ S, k.Holds n (q n)
  mem : ∀ n ∈ S, ∀ p, p ∈ q n ↔ p ∈ h.present n
  newest : ∀ n ∈ S, (q n).Pairwise fun a b => h.pushed n b < h.pushed n a
  past : ∀ n ∈ S, ∀ p ∈ q n, h.pushed n p < h.now
  nonnull : ∀ n ∈ S, 0 ∉ q n
  disjoint : ∀ n ∈ S, ∀ m ∈ S, ∀ p ∈ q n, p ∈ q m → n = m

namespace Ordered

theorem init (hq : ∀ n ∈ S, k.queue n = .init) : Ordered S k .init fun _ => [] where
  holds n hn := by
    constructor
    · rw [ends, hq n hn]
      exact Dll.nil _
    · rw [hq n hn]
      rfl
  mem := by simp [QueueHistory.init]
  newest := by simp
  past := by simp
  nonnull := by simp
  disjoint := by simp

variable (o : Ordered S k h q)
include o

theorem pushed_push (hm : m ∈ S) (hout : ∀ m ∈ S, p ∉ h.present m) (ha : a ∈ q m) :
    (h.push n p).pushed m a = h.pushed m a := by
  have hap : a ≠ p := fun he => hout m hm ((o.mem m hm p).mp (he ▸ ha))
  by_cases hmn : m = n
  · subst hmn
    simp [QueueHistory.push, hap]
  · simp [QueueHistory.push, hmn]

theorem pushFront (hn : n ∈ S) (hp : p ≠ 0) (hout : ∀ m ∈ S, p ∉ h.present m) :
    Ordered S (k.pushFront n p) (h.push n p) (Function.update q n (p :: q n)) where
  holds m hm := by
    have hpm := fun hc => hout m hm ((o.mem m hm p).mp hc)
    by_cases hmn : m = n
    · subst hmn
      rw [Function.update_self]
      exact (o.holds m hm).pushFront hpm
    · rw [Function.update_of_ne hmn]
      refine (o.holds n hn).pushFront_frame (o.holds m hm) hmn (fun x hx hx' => ?_) hpm
      exact hmn (o.disjoint m hm n hn x hx hx')
  mem m hm a := by
    by_cases hmn : m = n
    · subst hmn
      simp [QueueHistory.push, o.mem m hm]
    · simp [QueueHistory.push, hmn, o.mem m hm]
  newest m hm := by
    have hold : (q m).Pairwise fun a b => (h.push n p).pushed m b < (h.push n p).pushed m a := by
      refine (o.newest m hm).imp_of_mem fun {a b} ha hb hab => ?_
      rwa [o.pushed_push hm hout ha, o.pushed_push hm hout hb]
    by_cases hmn : m = n
    · subst hmn
      rw [Function.update_self]
      refine List.pairwise_cons.mpr ⟨fun a ha => ?_, hold⟩
      rw [o.pushed_push hm hout ha]
      simpa [QueueHistory.push] using o.past m hm a ha
    · rwa [Function.update_of_ne hmn]
  past m hm a ha := by
    have hnow : (h.push n p).now = h.now + 1 := rfl
    rcases Queued.mem_push.mp ha with ⟨rfl, rfl⟩ | ha
    · simp [QueueHistory.push]
    · rw [o.pushed_push hm hout ha]
      have := o.past m hm a ha
      omega
  nonnull m hm hc := by
    rcases Queued.mem_push.mp hc with ⟨he, -⟩ | hc
    · exact hp he.symm
    · exact o.nonnull m hm hc
  disjoint m hm m' hm' a ha ha' := by
    have hq : ∀ l ∈ S, p ∉ q l := fun l hl hc => hout l hl ((o.mem l hl p).mp hc)
    rcases Queued.mem_push.mp ha with ⟨rfl, rfl⟩ | ha <;>
      rcases Queued.mem_push.mp ha' with ⟨he, he'⟩ | ha'
    · exact he'.symm
    · exact absurd ha' (hq m' hm')
    · exact absurd ha (he ▸ hq m hm)
    · exact o.disjoint m hm m' hm' a ha ha'

theorem remove (hn : n ∈ S) (hp : p ∈ h.present n) :
    Ordered S (k.remove n p) (h.drop n p) (Function.update q n ((q n).erase p)) where
  holds m hm := by
    have hpn := (o.mem n hn p).mpr hp
    by_cases hmn : m = n
    · subst hmn
      rw [Function.update_self]
      exact (o.holds m hm).remove hpn
    · rw [Function.update_of_ne hmn]
      refine (o.holds n hn).remove_frame (o.holds m hm) hmn (fun x hx hx' => ?_) hpn
      exact hmn (o.disjoint m hm n hn x hx hx')
  mem m hm a := by
    by_cases hmn : m = n
    · subst hmn
      simp [QueueHistory.drop, (o.holds m hm).dll.nodup.mem_erase_iff, o.mem m hm, and_comm]
    · simp [QueueHistory.drop, hmn, o.mem m hm]
  newest m hm := by
    refine (o.newest m hm).sublist ?_
    by_cases hmn : m = n
    · subst hmn
      simp [List.erase_sublist]
    · simp [hmn]
  past m hm a ha := o.past m hm a (Queued.mem_of_mem_erase ha)
  nonnull m hm hc := o.nonnull m hm (Queued.mem_of_mem_erase hc)
  disjoint m hm m' hm' a ha ha' :=
    o.disjoint m hm m' hm' a (Queued.mem_of_mem_erase ha) (Queued.mem_of_mem_erase ha')

theorem other (hq : ∀ n ∈ S, k'.queue n = k.queue n)
    (hl : ∀ n ∈ S, ∀ p ∈ h.present n,
      k'.links.next p = k.links.next p ∧ k'.links.prev p = k.links.prev p) :
    Ordered S k' h q where
  holds n hn := by
    have hout : ∀ x ∈ q n, x ∈ h.present n := fun x => (o.mem n hn x).mp
    constructor
    · rw [ends, hq n hn]
      exact (o.holds n hn).dll.frame (fun x hx => (hl n hn x (hout x hx)).1)
        fun x hx => (hl n hn x (hout x hx)).2
    · rw [hq n hn]
      exact (o.holds n hn).size
  mem := o.mem
  newest := o.newest
  past := o.past
  nonnull := o.nonnull
  disjoint := o.disjoint

theorem popBack_nil (hn : n ∈ S) (hq : q n = []) : k.popBack n = (none, k) := by
  have hb : (k.queue n).back = (q n).getLast? := (o.holds n hn).dll.back
  rw [Kernel.popBack, hb, hq]
  rfl

theorem popBack_concat (hn : n ∈ S) (hq : q n = xs ++ [p]) :
    k.popBack n = (some p, k.remove n p) ∧ p ∈ h.present n ∧ (q n).erase p = xs := by
  have hb : (k.queue n).back = (q n).getLast? := (o.holds n hn).dll.back
  have hnd := (o.holds n hn).dll.nodup
  rw [hq, List.nodup_append] at hnd
  have hp : p ∉ xs := fun hx => hnd.2.2 p hx p (by simp) rfl
  refine ⟨?_, (o.mem n hn p).mp (by simp [hq]), ?_⟩
  · rw [Kernel.popBack, hb, hq, List.getLast?_concat]
  · simp [hq, List.erase_append_right _ hp]

theorem popBack (hn : n ∈ S) :
    ∃ q', Ordered S (k.popBack n).2 (h.pop n (k.popBack n).1) q' := by
  rcases List.eq_nil_or_concat (q n) with hq | ⟨xs, p, hq⟩
  · rw [o.popBack_nil hn hq]
    exact ⟨q, o⟩
  · rw [List.concat_eq_append] at hq
    obtain ⟨hpop, hp, -⟩ := o.popBack_concat hn hq
    rw [hpop]
    exact ⟨_, o.remove hn hp⟩

end Ordered

theorem Run.ordered (r : Run S k h) : ∃ q, Ordered S k h q := by
  induction r with
  | init hq => exact ⟨_, Ordered.init hq⟩
  | pushFront _ hn hp hout ih =>
    obtain ⟨q, o⟩ := ih
    exact ⟨_, o.pushFront hn hp hout⟩
  | remove _ hn hp ih =>
    obtain ⟨q, o⟩ := ih
    exact ⟨_, o.remove hn hp⟩
  | popBack _ hn ih =>
    obtain ⟨q, o⟩ := ih
    exact o.popBack hn
  | other _ hq hl ih =>
    obtain ⟨q, o⟩ := ih
    exact ⟨q, o.other hq hl⟩

/-! ### What following the links sees -/

theorem follow_next {L : Links Addr} {b : Option Addr} {fuel : ℕ} (hp : L.Path b xs none)
    (hlen : xs.length < fuel) : follow L.next fuel xs.head? = .ok xs := by
  induction xs generalizing b fuel with
  | nil =>
    obtain ⟨fuel, rfl⟩ := Nat.exists_eq_add_of_lt hlen
    rfl
  | cons x xs ih =>
    obtain ⟨-, hx, ht⟩ := hp
    rw [Option.or_none] at hx
    cases fuel with
    | zero => omega
    | succ fuel =>
      rw [List.head?_cons, follow, hx, ih ht (by simpa using hlen)]
      rfl

theorem follow_prev {L : Links Addr} {e : Option Addr} {fuel : ℕ} (hp : L.Path none xs e)
    (hlen : xs.length < fuel) : follow L.prev fuel xs.getLast? = .ok xs.reverse := by
  induction xs using List.reverseRecOn generalizing e fuel with
  | nil =>
    obtain ⟨fuel, rfl⟩ := Nat.exists_eq_add_of_lt hlen
    rfl
  | append_singleton xs x ih =>
    obtain ⟨ht, hx, -⟩ := Links.path_append.mp hp
    rw [Option.or_none] at hx
    rw [List.length_append, List.length_singleton] at hlen
    cases fuel with
    | zero => omega
    | succ fuel =>
      rw [List.getLast?_concat, follow, hx, ih ht (by omega), List.reverse_append]
      rfl

theorem opApplyLoop_eq {σ : Type} {dg : Addr → σ → BitVec 32 × σ} {s : σ} {b : Option Addr}
    {fuel : ℕ} (hp : k.links.Path b xs none) (hlen : xs.length < fuel) :
    k.opApplyLoop dg fuel xs.head? s = .ok (visit dg xs s) := by
  induction xs generalizing b fuel s with
  | nil =>
    obtain ⟨fuel, rfl⟩ := Nat.exists_eq_add_of_lt hlen
    rfl
  | cons x xs ih =>
    obtain ⟨-, hx, ht⟩ := hp
    rw [Option.or_none] at hx
    cases fuel with
    | zero => omega
    | succ fuel =>
      have hnext : (k.proc x).next = xs.head? := hx
      rw [List.head?_cons, opApplyLoop, visit, hnext]
      dsimp only
      split
      · rfl
      · exact ih ht (by simpa using hlen)

namespace Holds

variable (hk : k.Holds n xs)
include hk

theorem forward : k.forward n = .ok xs := by
  have hf : (k.queue n).front = xs.head? := hk.dll.front
  rw [Kernel.forward, hf]
  exact follow_next hk.dll.path (Nat.lt_succ_of_le (nodup_length_le hk.dll.nodup))

theorem backward : k.backward n = .ok xs.reverse := by
  have hb : (k.queue n).back = xs.getLast? := hk.dll.back
  rw [Kernel.backward, hb]
  exact follow_prev hk.dll.path (Nat.lt_succ_of_le (nodup_length_le hk.dll.nodup))

theorem opApply {σ : Type} (dg : Addr → σ → BitVec 32 × σ) (s : σ) :
    k.opApply n dg s = .ok (visit dg xs s) := by
  have hf : (k.queue n).front = xs.head? := hk.dll.front
  rw [Kernel.opApply, hf]
  exact opApplyLoop_eq hk.dll.path (Nat.lt_succ_of_le (nodup_length_le hk.dll.nodup))

/-- There are fewer processes than addresses, so the size does not wrap. -/
theorem size_toNat (h0 : 0 ∉ xs) : (k.queue n).size.toNat = xs.length := by
  have hlen := nodup_length_le (List.nodup_cons.mpr ⟨h0, hk.dll.nodup⟩)
  rw [List.length_cons, addrSpace] at hlen
  rw [hk.size, BitVec.toNat_ofNat, Nat.mod_eq_of_lt hlen]

end Holds

namespace Ordered

variable (o : Ordered S k h q)
include o

theorem present_eq_empty (hn : n ∈ S) : h.present n = ∅ ↔ q n = [] := by
  rw [Set.eq_empty_iff_forall_notMem, List.eq_nil_iff_forall_not_mem]
  exact forall_congr' fun p => not_congr (o.mem n hn p).symm

theorem fifo (hn : n ∈ S) : Fifo k h n (q n) where
  mem := o.mem n hn
  newest := o.newest n hn
  forward := (o.holds n hn).forward
  backward := (o.holds n hn).backward
  size := (o.holds n hn).size_toNat (o.nonnull n hn)
  iterates := (o.holds n hn).opApply
  pushes _ hp := ((o.holds n hn).pushFront hp).forward
  removes _ hp := ((o.holds n hn).remove hp).forward
  pops := by
    rcases List.eq_nil_or_concat (q n) with hq | ⟨xs, p, hq⟩
    · have hf := (o.holds n hn).forward
      rw [o.popBack_nil hn hq, hf, hq]
      rfl
    · rw [List.concat_eq_append] at hq
      obtain ⟨hpop, hp, herase⟩ := o.popBack_concat hn hq
      have hr := ((o.holds n hn).remove ((o.mem n hn p).mpr hp)).forward
      rw [hpop, hr, herase, hq, List.dropLast_concat]
  pop_none := by
    rw [o.present_eq_empty hn]
    rcases List.eq_nil_or_concat (q n) with hq | ⟨xs, p, hq⟩
    · simp [o.popBack_nil hn hq, hq]
    · rw [List.concat_eq_append] at hq
      simp [(o.popBack_concat hn hq).1, hq]
  pop_oldest p hpop := by
    rcases List.eq_nil_or_concat (q n) with hq | ⟨xs, b, hq⟩
    · simp [o.popBack_nil hn hq] at hpop
    · rw [List.concat_eq_append] at hq
      obtain ⟨hb, hp, -⟩ := o.popBack_concat hn hq
      obtain rfl : b = p := by simpa [hb] using hpop
      refine ⟨hp, fun a ha hab => ?_⟩
      have hlast := o.newest n hn
      have hmem := (o.mem n hn a).mpr ha
      rw [hq, List.pairwise_append] at hlast
      rw [hq, List.mem_append, List.mem_singleton] at hmem
      exact hlast.2.2 a (hmem.resolve_right hab) b (by simp)

/-- A process of `n` is taken off, set to runnable and pushed on `runq`. -/
theorem wake (r : Run S k h) (hn : n ∈ S) (hr : .runq ∈ S) (hne : n ≠ .runq)
    (hp : p ∈ h.present n) (hs : (k.core p).state = .blocked) :
    ∃ k', k.wake n p = .ok k' ∧ Run S k' ((h.drop n p).push .runq p) ∧
      Ordered S k' ((h.drop n p).push .runq p)
        (Function.update (Function.update q n ((q n).erase p)) .runq (p :: q .runq)) ∧
      k'.core = Function.update k.core p (k.core p).awake := by
  have hpn := (o.mem n hn p).mpr hp
  have hp0 : p ≠ 0 := fun he => o.nonnull n hn (he ▸ hpn)
  have hout : ∀ m ∈ S, p ∉ (h.drop n p).present m := fun m hm hc => by
    by_cases hmn : m = n
    · subst hmn
      simp [QueueHistory.drop] at hc
    · simp only [QueueHistory.drop, Function.update_of_ne hmn] at hc
      exact hmn (o.disjoint m hm n hn p ((o.mem m hm p).mpr hc) hpn)
  have hl : ((k.remove n p).setProc p Proc.awake).links = (k.remove n p).links :=
    links_setProc fun _ => ⟨rfl, rfl⟩
  have hawake : Run S ((k.remove n p).setProc p Proc.awake) (h.drop n p) :=
    (r.remove hn hp).other (fun _ _ => rfl) (by simp [hl])
  have hold : Ordered S ((k.remove n p).setProc p Proc.awake) (h.drop n p) _ :=
    (o.remove hn hp).other (fun _ _ => rfl) (by simp [hl])
  have hord := hold.pushFront hr hp0 hout
  rw [Function.update_of_ne hne.symm] at hord
  have hw : k.wake n p = .ok (((k.remove n p).setProc p Proc.awake).pushFront .runq p) :=
    if_neg (not_not.mpr hs)
  exact ⟨_, hw, hawake.pushFront hr hp0 hout, hord, (core_wake hw).2⟩

theorem wakeAllLoop {fuel : ℕ} (r : Run S k h) (hn : n ∈ S) (hr : .runq ∈ S) (hne : n ≠ .runq)
    (hs : ∀ p ∈ h.present n, (k.core p).state = .blocked) (hlen : (q n).length < fuel) :
    ∃ k' h', wakeAllLoop n fuel k = .ok k' ∧ Woken S k h n k' h' := by
  induction fuel generalizing k h q with
  | zero => omega
  | succ fuel ih =>
    have hfront : (k.queue n).front = (q n).head? := (o.holds n hn).dll.front
    rw [Kernel.wakeAllLoop, hfront]
    cases hq : q n with
    | nil =>
      have he := (o.present_eq_empty hn).mpr hq
      exact ⟨k, h, rfl, r, he, by simp [he], fun _ _ _ => rfl, by simp [he], fun _ _ => rfl⟩
    | cons p ps =>
      have hp : p ∈ h.present n := (o.mem n hn p).mp (by simp [hq])
      obtain ⟨k₁, hw, r₁, o₁, hc⟩ := o.wake r hn hr hne hp (hs p hp)
      have hn₁ : ((h.drop n p).push .runq p).present n = h.present n \ {p} := by
        simp [QueueHistory.push, QueueHistory.drop, hne]
      have hr₁ : ((h.drop n p).push .runq p).present .runq = insert p (h.present .runq) := by
        simp [QueueHistory.push, QueueHistory.drop, hne.symm]
      obtain ⟨k₂, h₂, hk₂, w⟩ := ih o₁ r₁ (fun a ha => by
        rw [hn₁] at ha
        rw [hc, Function.update_of_ne ha.2]
        exact hs a ha.1) (by simp [hne, hq] at hlen ⊢; omega)
      rw [List.head?_cons]
      dsimp only
      rw [hw]
      refine ⟨k₂, h₂, hk₂, w.run, w.empty, ?_, fun m hm hm' => ?_, fun a ha => ?_, fun a ha => ?_⟩
      · rw [w.runq, hn₁, hr₁]
        ext a
        by_cases hap : a = p
        · simp [hap, hp]
        · simp [hap]
      · rw [w.others m hm hm']
        simp [QueueHistory.push, QueueHistory.drop, hm, hm']
      · by_cases hap : a = p
        · subst hap
          rw [w.frame a (by simp [hn₁]), hc, Function.update_self]
        · rw [w.awake a (by simp [hn₁, ha, hap]), hc, Function.update_of_ne hap]
      · have hap : a ≠ p := fun he => ha (he ▸ hp)
        rw [w.frame a (by simp [hn₁, ha]), hc, Function.update_of_ne hap]

end Ordered

/-- In every run each queue is a first-in first-out sequence, and `wake_all` on a queue of blocked
processes moves all of them to `runq`. -/
theorem queue_fifo (r : Run S k h) :
    (∀ n ∈ S, ∃ xs, Fifo k h n xs) ∧
      ∀ n ∈ S, n ≠ .runq → .runq ∈ S → (∀ p ∈ h.present n, (k.proc p).state = .blocked) →
        ∃ k' h', k.wakeAll n = .ok k' ∧ Woken S k h n k' h' := by
  obtain ⟨q, o⟩ := r.ordered
  refine ⟨fun n hn => ⟨q n, o.fifo hn⟩, fun n hn hne hr hs => ?_⟩
  exact o.wakeAllLoop r hn hr hne hs
    (Nat.lt_succ_of_le (nodup_length_le (o.holds n hn).dll.nodup))

/-- One blocked process on `ticks_queue`. -/
theorem queue_fifo_ticks :
    let k : Kernel := ⟨fun _ => { Proc.init with state := .blocked }, fun _ => .init⟩
    let h := QueueHistory.init.push .ticksQueue 0x1000
    (∃ xs, Fifo (k.pushFront .ticksQueue 0x1000) h .ticksQueue xs) ∧
      ∃ k' h', (k.pushFront .ticksQueue 0x1000).wakeAll .ticksQueue = .ok k' ∧
        Woken Set.univ (k.pushFront .ticksQueue 0x1000) h .ticksQueue k' h' := by
  intro k h
  have r : Run Set.univ (k.pushFront .ticksQueue 0x1000) h :=
    (Run.init fun _ _ => rfl).pushFront trivial (by decide) (by simp [QueueHistory.init])
  have hs : ∀ p, ((k.pushFront .ticksQueue 0x1000).proc p).state = .blocked := fun p =>
    congrArg (fun f => (f p).state) (core_pushFront (k := k) (n := .ticksQueue) (p := 0x1000))
  exact ⟨(queue_fifo r).1 _ trivial,
    (queue_fifo r).2 _ trivial (by decide) trivial fun p _ => hs p⟩

end Kernel
end Multiplix.Sched
