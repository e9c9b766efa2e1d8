import Multiplix.Sched.Queue

/-! What the operations on queues do to the lists that the queues hold. -/
namespace Multiplix.Sched
open Lib

/-- A process without its links. -/
def Proc.core (x : Proc) : Proc := { x with next := none, prev := none }

def Proc.awake (x : Proc) : Proc := { x with state := .runnable }

namespace Kernel

variable {k k' : Kernel} {n m : QueueName} {p a : Addr} {xs ys : List Addr}
  {q : QueueName → List Addr} {f : Proc → Proc}

def core (k : Kernel) (a : Addr) : Proc := (k.proc a).core

theorem core_setProc : (k.setProc p f).core = Function.update k.core p (f (k.proc p)).core := by
  funext a
  by_cases h : a = p
  · subst h
    simp [core]
  · rw [core, setProc_of_ne h, Function.update_of_ne h, core]

/-- A change that has nothing to do with the links. -/
theorem core_setProc_of (h : ∀ x, (f x).core = f x.core := by exact fun _ => rfl) :
    (k.setProc p f).core = Function.update k.core p (f (k.core p)) := by
  rw [core_setProc, h]
  rfl

theorem core_setProc_self (h : (f (k.proc p)).core = (k.proc p).core) :
    (k.setProc p f).core = k.core := by
  rw [core_setProc, h]
  exact Function.update_eq_self ..

@[simp] theorem core_setNext {o : Option Addr} : (k.setNext p o).core = k.core :=
  core_setProc_self rfl

@[simp] theorem core_setPrev {o : Option Addr} : (k.setPrev p o).core = k.core :=
  core_setProc_self rfl

@[simp] theorem core_setQueue {g : Queue → Queue} : (k.setQueue n g).core = k.core := rfl

@[simp] theorem core_pushFront : (k.pushFront n p).core = k.core := by
  rw [pushFront]
  cases (k.queue n).front <;> simp

@[simp] theorem core_remove : (k.remove n p).core = k.core := by
  rw [remove]
  cases (k.proc p).next <;> dsimp only <;> split <;> simp

theorem core_wait {st : ProcState} : (k.wait p n st).core =
    Function.update k.core p { k.core p with state := st, wq := some n } := by
  rw [wait, core_pushFront]
  exact core_setProc_of

theorem core_wake (h : k.wake n p = .ok k') :
    (k.core p).state = .blocked ∧ k'.core = Function.update k.core p (k.core p).awake := by
  rw [wake] at h
  split_ifs at h with hs
  cases h
  refine ⟨not_not.mp hs, ?_⟩
  rw [core_pushFront, ← core_remove (k := k) (n := n) (p := p)]
  exact core_setProc_of

theorem links_setProc (hf : ∀ x, (f x).next = x.next ∧ (f x).prev = x.prev) :
    (k.setProc p f).links = k.links := by
  refine Links.ext (funext fun a => ?_) (funext fun a => ?_) <;> by_cases ha : a = p
  all_goals simp [links, setProc, Function.update_apply, ha, hf]

@[simp] theorem links_setNext {o : Option Addr} :
    (k.setNext p o).links = ⟨Function.update k.links.next p o, k.links.prev⟩ := by
  refine Links.ext (funext fun a => ?_) (funext fun a => ?_) <;> by_cases h : a = p
  all_goals simp [links, setNext, setProc, Function.update_apply, h]

@[simp] theorem links_setPrev {o : Option Addr} :
    (k.setPrev p o).links = ⟨k.links.next, Function.update k.links.prev p o⟩ := by
  refine Links.ext (funext fun a => ?_) (funext fun a => ?_) <;> by_cases h : a = p
  all_goals simp [links, setPrev, setProc, Function.update_apply, h]

@[simp] theorem links_setQueue {g : Queue → Queue} : (k.setQueue n g).links = k.links := rfl

theorem links_pushFront : (k.pushFront n p).links = k.links.pushFront (k.queue n).front p := by
  rw [pushFront]
  cases (k.queue n).front with
  | none =>
    refine Links.ext (by simp [Links.pushFront]) (funext fun a => ?_)
    simp [Links.pushFront, Function.update_apply]
  | some f =>
    refine Links.ext (by simp [Links.pushFront]) (funext fun a => ?_)
    simp [Links.pushFront, Function.update_apply, eq_comm (a := f)]

@[simp] theorem setNext_queue {o : Option Addr} : (k.setNext p o).queue = k.queue := rfl

@[simp] theorem setPrev_queue {o : Option Addr} : (k.setPrev p o).queue = k.queue := rfl

theorem setPrev_of_ne {o : Option Addr} (h : a ≠ p) : (k.setPrev p o).proc a = k.proc a :=
  setProc_of_ne h

theorem links_remove (h : k.links.next p ≠ some p) : (k.remove n p).links = k.links.unlink p := by
  have hnext : ∀ {o}, (k.proc p).next = o → k.links.next p = o := id
  have hprev : ∀ {o}, (k.proc p).prev = o → k.links.prev p = o := id
  rw [remove]
  rcases hn : (k.proc p).next with _ | y <;> dsimp only
  · rw [setQueue_proc, hn]
    cases hp : (k.proc p).prev <;>
      exact Links.ext (funext fun a => by simp [Links.unlink, Function.update_apply, hnext hn,
        hprev hp, eq_comm]) (funext fun a => by simp [Links.unlink, hnext hn])
  · have hy : p ≠ y := fun he => h (by rw [hnext hn, ← he])
    rw [setPrev_of_ne hy, hn]
    cases hp : (k.proc p).prev <;>
      exact Links.ext (funext fun a => by simp [Links.unlink, Function.update_apply, hnext hn,
        hprev hp, eq_comm]) (funext fun a => by simp [Links.unlink, Function.update_apply, hnext hn,
        hprev hp, eq_comm])

theorem ends_pushFront : (k.pushFront n p).ends n = (k.ends n).pushFront p := by
  rw [pushFront, ends, ends, Ends.pushFront]
  cases (k.queue n).front <;> simp

theorem queue_pushFront_of_ne (h : m ≠ n) : (k.pushFront n p).queue m = k.queue m := by
  rw [pushFront]
  cases (k.queue n).front <;> simp [setQueue_of_ne h]

theorem size_pushFront : ((k.pushFront n p).queue n).size = (k.queue n).size + 1 := by
  rw [pushFront]
  cases (k.queue n).front <;> simp

theorem ends_remove (h : k.links.next p ≠ some p) :
    (k.remove n p).ends n = (k.ends n).unlink k.links p := by
  change (k.proc p).next ≠ some p at h
  rw [remove, ends, ends, Ends.unlink]
  rcases hn : (k.proc p).next with _ | y <;> dsimp only
  · rw [setQueue_proc]
    cases hp : (k.proc p).prev <;> simp [links, hn, hp]
  · have hy : p ≠ y := fun he => h (by rw [hn, ← he])
    rw [setPrev_of_ne hy]
    cases hp : (k.proc p).prev <;> simp [links, hn, hp]

theorem queue_remove_of_ne (h : m ≠ n) : (k.remove n p).queue m = k.queue m := by
  rw [remove]
  cases (k.proc p).next <;> dsimp only <;> split <;> simp [setQueue_of_ne h]

theorem size_remove : ((k.remove n p).queue n).size = (k.queue n).size - 1 := by
  rw [remove]
  cases (k.proc p).next <;> dsimp only <;> split <;> simp

/-- All queues are well formed, and no process is on two of them. -/
structure Queued (k : Kernel) (q : QueueName → List Addr) : Prop where
  holds : ∀ n, k.Holds n (q n)
  disjoint : ∀ {n m a}, a ∈ q n → a ∈ q m → n = m

theorem nodup_length_le (h : xs.Nodup) : xs.length ≤ addrSpace := by
  have hnd := h.map (f := BitVec.toNat) fun a b => BitVec.eq_of_toNat_eq
  have hsub : xs.map BitVec.toNat ⊆ List.range addrSpace := fun x hx => by
    obtain ⟨a, -, rfl⟩ := List.mem_map.mp hx
    exact List.mem_range.mpr a.isLt
  simpa using (hnd.subperm hsub).length_le

namespace Holds

variable (h : k.Holds n xs)
include h

theorem congr (hl : k'.links = k.links) (hq : k'.queue = k.queue) : k'.Holds n xs := by
  refine ⟨?_, by rw [hq, h.size]⟩
  rw [hl, ends, hq]
  exact h.dll

theorem pushFront (hp : p ∉ xs) : (k.pushFront n p).Holds n (p :: xs) := by
  constructor
  · rw [links_pushFront, ends_pushFront]
    exact h.dll.pushFront hp
  · rw [size_pushFront, h.size, List.length_cons]
    exact (BitVec.ofNat_add ..).symm

theorem remove (hp : p ∈ xs) : (k.remove n p).Holds n (xs.erase p) := by
  have hself := h.dll.next_ne_self hp
  constructor
  · rw [links_remove hself, ends_remove hself]
    exact h.dll.unlink hp
  · rw [size_remove, h.size, List.length_erase_of_mem hp]
    have := List.length_pos_of_mem hp
    rw [show xs.length = xs.length - 1 + 1 by omega, BitVec.ofNat_add]
    exact BitVec.add_sub_cancel ..

/-- A queue with other processes is left as it is by a push. -/
theorem pushFront_frame (h' : k.Holds m ys) (hm : m ≠ n) (hd : ∀ x ∈ ys, x ∉ xs) (hp : p ∉ ys) :
    (k.pushFront n p).Holds m ys := by
  refine ⟨?_, by rw [queue_pushFront_of_ne hm, h'.size]⟩
  rw [links_pushFront, ends, queue_pushFront_of_ne hm]
  exact h.dll.pushFront_frame h'.dll hd hp

/-- A queue with other processes is left as it is by a removal. -/
theorem remove_frame (h' : k.Holds m ys) (hm : m ≠ n) (hd : ∀ x ∈ ys, x ∉ xs) (hp : p ∈ xs) :
    (k.remove n p).Holds m ys := by
  refine ⟨?_, by rw [queue_remove_of_ne hm, h'.size]⟩
  rw [links_remove (h.dll.next_ne_self hp), ends, queue_remove_of_ne hm]
  exact h.dll.unlink_frame h'.dll hd hp

end Holds

namespace Queued

variable (h : k.Queued q)
include h

theorem congr (hl : k'.links = k.links) (hq : k'.queue = k.queue) : k'.Queued q :=
  ⟨fun n => (h.holds n).congr hl hq, h.disjoint⟩

/-- A change of anything but the links of a process. -/
theorem setProc (hf : ∀ x, (f x).next = x.next ∧ (f x).prev = x.prev) :
    (k.setProc p f).Queued q := h.congr (links_setProc hf) rfl

/-- A change of a process that is on no queue. -/
theorem setFresh (hp : ∀ n, p ∉ q n) : (k.setProc p f).Queued q := by
  refine ⟨fun n => ⟨?_, (h.holds n).size⟩, h.disjoint⟩
  refine (h.holds n).dll.frame (fun x hx => ?_) fun x hx => ?_ <;>
  · have hxp : x ≠ p := fun he => hp n (he ▸ hx)
    simp [links, setProc_of_ne hxp]

omit h in
theorem mem_push : a ∈ Function.update q n (p :: q n) m ↔ a = p ∧ m = n ∨ a ∈ q m := by
  rw [Function.update_apply]
  split_ifs with hm
  · subst hm
    simp
  · simp [hm]

omit h in
theorem mem_of_mem_erase (ha : a ∈ Function.update q n ((q n).erase p) m) : a ∈ q m := by
  rw [Function.update_apply] at ha
  split_ifs at ha with hm
  · exact hm ▸ List.mem_of_mem_erase ha
  · exact ha

theorem pushFront (hp : ∀ m, p ∉ q m) :
    (k.pushFront n p).Queued (Function.update q n (p :: q n)) := by
  refine ⟨fun m => ?_, fun {m m' a} ha ha' => ?_⟩
  · by_cases hm : m = n
    · subst hm
      rw [Function.update_self]
      exact (h.holds m).pushFront (hp m)
    · rw [Function.update_of_ne hm]
      exact (h.holds n).pushFront_frame (h.holds m) hm
        (fun x hx hx' => hm (h.disjoint hx hx')) (hp m)
  · rcases mem_push.mp ha with ⟨rfl, rfl⟩ | ha <;> rcases mem_push.mp ha' with ⟨he, he'⟩ | ha'
    · exact he'.symm
    · exact absurd ha' (hp m')
    · exact absurd ha (he ▸ hp m)
    · exact h.disjoint ha ha'

theorem remove (hp : p ∈ q n) : (k.remove n p).Queued (Function.update q n ((q n).erase p)) := by
  refine ⟨fun m => ?_, fun {m m' a} ha ha' => ?_⟩
  · by_cases hm : m = n
    · subst hm
      rw [Function.update_self]
      exact (h.holds m).remove hp
    · rw [Function.update_of_ne hm]
      exact (h.holds n).remove_frame (h.holds m) hm (fun x hx hx' => hm (h.disjoint hx hx')) hp
  · exact h.disjoint (mem_of_mem_erase ha) (mem_of_mem_erase ha')

theorem popBack_nil (hq : q n = []) : k.popBack n = (none, k) := by
  have hb : (k.queue n).back = none := by
    rw [show (k.queue n).back = _ from (h.holds n).dll.back, hq]
    rfl
  rw [popBack, hb]

theorem popBack (hq : q n = xs ++ [p]) :
    k.popBack n = (some p, k.remove n p) ∧ (k.remove n p).Queued (Function.update q n xs) := by
  have hb : (k.queue n).back = some p := by
    rw [show (k.queue n).back = _ from (h.holds n).dll.back, hq]
    simp
  have hnd := (h.holds n).dll.nodup
  rw [hq, List.nodup_append] at hnd
  have hp : p ∉ xs := fun hx => hnd.2.2 p hx p (by simp) rfl
  have hr := h.remove (p := p) (n := n) (by simp [hq])
  rw [hq, List.erase_append_right _ hp, List.erase_cons_head, List.append_nil] at hr
  exact ⟨by rw [Kernel.popBack, hb], hr⟩

theorem length_le (n : QueueName) : (q n).length ≤ addrSpace :=
  nodup_length_le (h.holds n).dll.nodup

theorem wake (hp : p ∈ q n) (hn : n ≠ .runq) (hs : (k.core p).state = .blocked) :
    ∃ k', k.wake n p = .ok k' ∧
      k'.Queued (Function.update (Function.update q n ((q n).erase p)) .runq (p :: q .runq)) ∧
      k'.core = Function.update k.core p (k.core p).awake := by
  have hr := h.remove hp
  have hout : ∀ m, p ∉ Function.update q n ((q n).erase p) m := fun m hm => by
    rw [Function.update_apply] at hm
    split_ifs at hm with he
    · exact (List.Nodup.not_mem_erase (h.holds n).dll.nodup) hm
    · exact he (h.disjoint hm hp)
  have hp' := (hr.setProc (p := p) (f := fun x => { x with state := .runnable })
    fun _ => ⟨rfl, rfl⟩).pushFront (n := .runq) hout
  rw [Function.update_of_ne hn.symm] at hp'
  refine ⟨_, if_neg (not_not.mpr hs), hp', ?_⟩
  exact (core_wake (if_neg (not_not.mpr hs))).2

/-- All processes on the queue are woken, the first one first. -/
theorem wakeAll (hn : n ≠ .runq) (hs : ∀ p ∈ q n, (k.core p).state = .blocked) :
    ∃ k', k.wakeAll n = .ok k' ∧
      k'.Queued (Function.update (Function.update q n []) .runq ((q n).reverse ++ q .runq)) ∧
      k'.core = fun a => if a ∈ q n then (k.core a).awake else k.core a := by
  have hlen : (q n).length < addrSpace + 1 := Nat.lt_succ_of_le (h.length_le n)
  rw [Kernel.wakeAll]
  generalize addrSpace + 1 = fuel at hlen
  induction fuel generalizing k q with
  | zero => omega
  | succ fuel ih =>
    have hfront : (k.queue n).front = (q n).head? := (h.holds n).dll.front
    rw [wakeAllLoop, hfront]
    cases hq : q n with
    | nil =>
      refine ⟨k, rfl, ?_, ?_⟩
      · rw [List.reverse_nil, List.nil_append, ← hq, Function.update_eq_self,
          Function.update_eq_self]
        exact h
      · funext a
        simp
    | cons p ps =>
      obtain ⟨k₁, hk, hq₁, hc⟩ := h.wake (p := p) (by simp [hq]) hn (hs p (by simp [hq]))
      have hnd := (h.holds n).dll.nodup
      rw [hq, List.nodup_cons] at hnd
      rw [hq, List.erase_cons_head] at hq₁
      have hn' : Function.update (Function.update q n ps) .runq (p :: q .runq) n = ps := by
        rw [Function.update_of_ne hn, Function.update_self]
      obtain ⟨k₂, hk₂, hq₂, hc₂⟩ := ih hq₁ (fun a ha => by
        rw [hn'] at ha
        have hap : a ≠ p := fun he => hnd.1 (he ▸ ha)
        rw [hc, Function.update_of_ne hap]
        exact hs a (by simp [hq, ha])) (by rw [hn']; simp [hq] at hlen; omega)
      rw [List.head?_cons]
      dsimp only
      rw [hk]
      refine ⟨k₂, hk₂, ?_, ?_⟩
      · rw [hn', Function.update_self] at hq₂
        convert hq₂ using 1
        funext m
        by_cases h1 : m = .runq
        · subst h1
          simp
        · by_cases h2 : m = n <;> simp [Function.update_apply, h1, h2]
      · rw [hc₂, hn']
        funext a
        rw [hc, Function.update_apply]
        by_cases ha : a = p
        · subst ha
          simp [hnd.1]
        · simp [ha]

omit h in
private theorem findZombie_path {b : Option Addr} {fuel : ℕ} (hp : k.links.Path b xs none)
    (hlen : xs.length < fuel) :
    k.findZombie p fuel xs.head? = xs.find? fun z => (k.proc z).parent = some p := by
  induction xs generalizing b fuel with
  | nil => cases fuel <;> rfl
  | cons x xs ih =>
    obtain ⟨-, hx, ht⟩ := hp
    rw [Option.or_none] at hx
    cases fuel with
    | zero => omega
    | succ fuel =>
      rw [List.head?_cons, Kernel.findZombie, List.find?_cons]
      by_cases hpar : (k.proc x).parent = some p
      · simp [hpar]
      · rw [if_neg hpar, show (k.proc x).next = _ from hx, ih ht (by simpa using hlen)]
        simp [hpar]

/-- The loop of `sys_wait` looks at the processes of the queue from its front on. -/
theorem findZombie : k.findZombie p (addrSpace + 1) (k.queue n).front =
    (q n).find? fun z => (k.core z).parent = some p := by
  rw [show (k.queue n).front = _ from (h.holds n).dll.front]
  exact findZombie_path (h.holds n).dll.path (Nat.lt_succ_of_le (h.length_le n))

end Queued
end Kernel
end Multiplix.Sched
