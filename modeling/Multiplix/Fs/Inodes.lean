import Multiplix.Fs.Transfers

/-! The inodes of a device serve their users as files with handles do, over whole runs. -/
namespace Multiplix.Fs.Inodes
open Lib

/-- What is done with inodes. `set` is what `create` does with the fields. -/
inductive Use : Type → Type
  | iget (n : ℕ) : Use Slot
  | dup (ip : Slot) : Use Slot
  | lock (ip : Slot) : Use Unit
  | unlock (ip : Slot) : Use Unit
  | bmap (ip : Slot) (bn : ℕ) : Use ℕ
  | read (ip : Slot) (dst : Buffer) (off len : ℕ) : Use (ℕ × Buffer)
  | write (ip : Slot) (src : Buffer) (off len : ℕ) : Use ℤ
  | trunc (ip : Slot) : Use Unit
  | update (ip : Slot) : Use Unit
  | set (ip : Slot) (major minor nlink : ℕ) : Use Unit
  | put (ip : Slot) : Use Unit
  | ialloc (type : ℕ) : Use (Option Slot)

namespace Use

variable {α : Type} (sb : Superblock) (d : ℕ) (s s' : State Store)

def prog : Use α → FsM α
  | .iget n => Fs.iget d n
  | .dup ip => ip.dup
  | .lock ip => ip.lock sb
  | .unlock ip => ip.unlock
  | .bmap ip bn => ip.bmap sb bn
  | .read ip dst off len => ip.read sb dst off len
  | .write ip src off len => ip.write sb src off len
  | .trunc ip => ip.trunc sb
  | .update ip => ip.update sb
  | .set ip major minor nlink => do
    modifyInode ip fun i => { i with major := major, minor := minor, nlink := nlink }
    ip.update sb
  | .put ip => ip.put sb
  | .ialloc type => Fs.ialloc sb d type

/-- A user has a reference, and has locked the inode to use more of it than its count. Words are
in range. -/
def Allowed : Use α → Prop
  | .iget n => n < sb.ninodes
  | .dup ip | .lock ip | .unlock ip | .put ip => 0 < (s.1.inodes ip).refcnt
  | .trunc ip | .update ip => 0 < (s.1.inodes ip).refcnt ∧ (s.1.inodes ip).valid = true
  | .bmap ip bn =>
    (0 < (s.1.inodes ip).refcnt ∧ (s.1.inodes ip).valid = true) ∧ bn < MAXFILE
  | .read ip _ off len | .write ip _ off len =>
    (0 < (s.1.inodes ip).refcnt ∧ (s.1.inodes ip).valid = true) ∧ off < 2 ^ 32 ∧ len < 2 ^ 32
  | .set ip major minor nlink => (0 < (s.1.inodes ip).refcnt ∧ (s.1.inodes ip).valid = true) ∧
      major < 256 ^ 2 ∧ minor < 256 ^ 2 ∧ nlink < 256 ^ 2
  | .ialloc type => type < 256 ^ 2 ∧ type ≠ 0

/-- The kernel stops if no slot is free, or if a file without a type is locked. -/
def Stops : Use α → Panic → Prop
  | .iget _, x | .ialloc _, x => x = .noInodes ∧ ∀ ip, (s.1.inodes ip).refcnt ≠ 0
  | .lock ip, x => x = .noType ∧ ((view sb d s).node (s.1.inodes ip).inum).type = 0
  | _, _ => False

/-- What is seen of it. -/
def label : Use α → α → Label Slot
  | .iget n, ip => .iget n ip
  | .dup ip, _ => .dup ip
  | .lock ip, _ => .lock ip
  | .unlock ip, _ => .unlock ip
  | .bmap ip bn, addr => .bmap ip bn addr (Full sb d s')
  | .read ip _ off len, r =>
    .read (s.1.inodes ip).inum ip off len (r.2.view s'.2) r.1 (Full sb d s')
  | .write ip src off len, r =>
    .write (s.1.inodes ip).inum ip off len (src.view s.2) r (Full sb d s')
  | .trunc ip, _ => .trunc (s.1.inodes ip).inum ip
  | .update ip, _ => .update ip
  | .set ip major minor nlink, _ => .set (s.1.inodes ip).inum ip major minor nlink
  | .put ip, _ => .put ip
  | .ialloc type, r => .ialloc type r

variable {sb d s}

/-- Everything that is done with inodes is a step of the files and their handles. -/
theorem does (hl : sb.Laid) (h : Sound sb d s) (u : Use α) (hu : u.Allowed sb s) :
    Does (u.Stops sb d s) (u.prog sb d) s fun r s' => Steps sb d s (u.label sb d s s' r) s' := by
  have hcaches {ip : Slot}
      (hip : 0 < (s.1.inodes ip).refcnt ∧ (s.1.inodes ip).valid = true) :
      s.1.Caches d (s.1.inodes ip).inum ip := ⟨⟨hip.1, h.dev ip hip.1, rfl⟩, hip.2⟩
  cases u with
  | iget n =>
    apply (h.iget_does hu fun hfull => ⟨rfl, hfull⟩).mono
    rintro ip s' ⟨hs, hget⟩
    exact ⟨hs, .iget hget⟩
  | dup ip => exact h.dup_does hu
  | lock ip => exact h.lock_does hu fun htype => ⟨rfl, htype⟩
  | unlock ip => exact h.unlock_does hu
  | bmap ip bn => exact h.bmap_does hl (hcaches hu.1) hu.2
  | read ip dst off len => exact h.read_does hl (hcaches hu.1) dst hu.2.1 hu.2.2
  | write ip src off len => exact h.write_does hl (hcaches hu.1) src hu.2.2
  | trunc ip => exact h.trunc_does hl (hcaches hu)
  | update ip => exact h.update_does hl (hcaches hu)
  | set ip major minor nlink =>
    obtain ⟨hip, hmajor, hminor, hnlink⟩ := hu
    apply (h.set_does hl (hcaches hip) hmajor hminor hnlink).mono
    rintro _ s' ⟨hs, hview⟩
    exact ⟨hs, hview ▸ .set (h.view_holds (hcaches hip))⟩
  | put ip => exact h.put_does hl hu
  | ialloc type => exact h.ialloc_does hl hu.1 hu.2 fun hfull => ⟨rfl, hfull⟩

end Use

variable (sb : Superblock) (d : ℕ)

/-- A step of the kernel: something is done with an inode, or neither inodes nor blocks change. -/
inductive Step (s : State Store) : Label Slot → State Store → Prop
  | use {α : Type} {u : Use α} {r : α} {s' : State Store} : u.Allowed sb s →
      exec coherent (u.prog sb d) s = .ok (s', r) → Step s (u.label sb d s s' r) s'
  | other {s' : State Store} : s'.1.inodes = s.1.inodes → s'.2.disk = s.2.disk → Step s .other s'

inductive Run : State Store → List (Label Slot) → State Store → Prop
  | nil {s : State Store} : Run s [] s
  | cons {s s' s'' : State Store} {l : Label Slot} {ls : List (Label Slot)} :
      Step sb d s l s' → Run s' ls s'' → Run s (l :: ls) s''

variable {sb d} {s s' : State Store} {l : Label Slot} {ls : List (Label Slot)}

theorem Step.steps (hl : sb.Laid) (h : Sound sb d s) (hs : Step sb d s l s') :
    Steps sb d s l s' := by
  cases hs with
  | use hu he => exact (Use.does hl h _ hu).of_exec he
  | other hi hd =>
    obtain ⟨hs, hview⟩ := h.other hi hd
    exact ⟨hs, hview ▸ .other⟩

theorem Run.refines (hl : sb.Laid) (h : Sound sb d s) (hr : Run sb d s ls s') :
    Sound sb d s' ∧ Nodes.Run sb.ninodes (MAXFILE * BSIZE) (view sb d s) ls (view sb d s') := by
  induction hr with
  | nil => exact ⟨h, .nil⟩
  | cons hs _ ih =>
    obtain ⟨h', hnext⟩ := hs.steps hl h
    obtain ⟨h'', hrun⟩ := ih h'
    exact ⟨h'', .cons hnext hrun⟩

/-- In every run the inodes serve their users as files with handles do, blocks are owned as they
should be, and the kernel stops for want of a slot or of a type only. -/
theorem run_refines (hl : sb.Laid) (h : Sound sb d s) (hr : Run sb d s ls s') :
    Consistent sb d s' ∧
    Nodes.Run sb.ninodes (MAXFILE * BSIZE) (view sb d s) ls (view sb d s') ∧
    ∀ (α : Type) (u : Use α), u.Allowed sb s' → ∀ x,
      exec coherent (u.prog sb d) s' = .error x → u.Stops sb d s' x := by
  obtain ⟨hs, hrun⟩ := hr.refines hl h
  refine ⟨hs.consistent, hrun, fun α u hu x hx => (Use.does hl hs u hu).of_error ?_⟩
  unfold exec at hx
  exact hx

/-! ### A run -/

/-- What the kernel does not stop for is done. -/
theorem Use.completes {α : Type} {u : Use α} (hl : sb.Laid) (h : Sound sb d s)
    (hu : u.Allowed sb s) (hgo : ∀ x, ¬u.Stops sb d s x) :
    ∃ r s', Step sb d s (u.label sb d s s' r) s' ∧ Steps sb d s (u.label sb d s s' r) s' := by
  have hdoes := Use.does hl h u hu
  cases he : exec coherent (u.prog sb d) s with
  | error x => exact absurd (hdoes.of_error he) (hgo x)
  | ok p => exact ⟨p.2, p.1, .use hu he, hdoes.of_exec he⟩

/-- The small disk without files. -/
def blank : State Store :=
  (Core.init, ⟨fun k => if k = (ROOTDEV, 3) then fun x => if x = 0 then 0x0F else 0
    else fun _ => 0, fun _ => 0⟩)

theorem blank_type {n : ℕ} (hn : n < smallSb.ninodes) :
    (dinode smallSb (blank.2.dev ROOTDEV) n).type = 0 := by
  have hall : ∀ n : Fin 3, (dinode smallSb (blank.2.dev ROOTDEV) n).type = 0 := by decide
  exact hall ⟨n, hn⟩

theorem blank_pointer (q : ℕ × Place) : pointer smallSb ROOTDEV blank q = 0 := by
  obtain ⟨n, p⟩ := q
  have hpresent : present smallSb ROOTDEV blank n = Inode.init := by
    unfold present
    rw [cached_none fun _ hj => absurd hj.1.1 (lt_irrefl _)]
    exact if_neg fun h => h.2 (blank_type h.1)
  unfold pointer
  rw [hpresent]
  cases p with
  | addr k => rfl
  | entry j => exact Inode.pointer_hole (Or.inl rfl)

theorem sound_blank : Sound smallSb ROOTDEV blank := by
  refine .idle (fun _ => rfl) ⟨⟨?_, ?_⟩, ?_, ?_, ?_⟩ fun n hn ht => absurd (blank_type hn) ht
  · exact fun p q hp _ => absurd (blank_pointer p) hp
  · exact fun p hp => absurd (blank_pointer p) hp
  · have hall : ∀ b : Fin 4, bitClear (fun x => if x = 0 then 0x0F else 0) b = false := by decide
    intro b hb
    have hlt : b < 4 := hb
    have hdiv : b / BPB = 0 := Nat.div_eq_of_lt (hlt.trans (by decide))
    have hmod : b % BPB = b := Nat.mod_eq_of_lt (hlt.trans (by decide))
    unfold Marked bblock
    rw [hdiv, hmod]
    exact hall ⟨b, hlt⟩
  · exact fun n ip _ hip => absurd hip.1 (lt_irrefl _)
  · exact fun n ip hip => absurd hip.1 (lt_irrefl _)

/-- A file is made there, locked, and freed since it got no link. -/
theorem run_refines_blank : ∃ ip s',
    Run smallSb ROOTDEV blank [.ialloc T_FILE (some ip), .lock ip, .put ip] s' ∧
      Consistent smallSb ROOTDEV s' ∧
      Nodes.Run smallSb.ninodes (MAXFILE * BSIZE) (view smallSb ROOTDEV blank)
        [.ialloc T_FILE (some ip), .lock ip, .put ip] (view smallSb ROOTDEV s') := by
  have hl := smallSb_laid
  have h := sound_blank
  have hfree (n : ℕ) (hn : n < smallSb.ninodes) :
      ((view smallSb ROOTDEV blank).node n).type = 0 := by
    rw [h.node_type hn, blank_type hn]
  have hslot (ip : Slot) : ((view smallSb ROOTDEV blank).handle ip).users = 0 := rfl
  obtain ⟨o, s₁, he₁, h₁, hnext₁⟩ := Use.completes (u := .ialloc T_FILE) hl h
    ⟨by decide, by decide⟩ fun _ hx => hx.2 slot₀ rfl
  generalize hs : blank = s at h he₁ hnext₁ hfree hslot ⊢
  have hmade : ∃ ip, o = some ip ∧ 0 < ((view smallSb ROOTDEV s₁).handle ip).users ∧
      ((view smallSb ROOTDEV s₁).node ((view smallSb ROOTDEV s₁).handle ip).inum).type ≠ 0 := by
    unfold Use.label at hnext₁
    generalize view smallSb ROOTDEV s₁ = b at hnext₁ ⊢
    cases o with
    | none =>
      cases hnext₁ with
      | none hfull => exact absurd (hfree 1 (by decide)) (hfull 1 le_rfl (by decide))
    | some ip =>
      refine ⟨ip, rfl, ?_⟩
      cases hnext₁ with
      | ialloc _ _ _ _ hget =>
        cases hget with
        | again hip => exact absurd (hslot ip) hip.1.ne'
        | new =>
          unfold Nodes.setHandle Nodes.setNode
          dsimp only
          rw [Function.update_self, Function.update_self]
          exact ⟨one_pos, by decide⟩
  obtain ⟨ip, rfl, husers, htype⟩ := hmade
  obtain ⟨_, s₂, he₂, h₂, hnext₂⟩ := Use.completes (u := .lock ip) hl h₁ husers
    fun _ hx => htype hx.2
  have husers₂ : 0 < (s₂.1.inodes ip).refcnt := by
    have hkeep : ((view smallSb ROOTDEV s₂).handle ip).users =
        ((view smallSb ROOTDEV s₁).handle ip).users := by
      unfold Use.label at hnext₂
      generalize view smallSb ROOTDEV s₂ = b at hnext₂ ⊢
      cases hnext₂ with
      | lock =>
        unfold Nodes.setHandle
        dsimp only
        rw [Function.update_self]
    exact husers.trans_eq hkeep.symm
  obtain ⟨_, s₃, he₃, -⟩ := Use.completes (u := .put ip) hl h₂ husers₂ fun _ hx => hx
  have hrun : Run smallSb ROOTDEV s [.ialloc T_FILE (some ip), .lock ip, .put ip] s₃ :=
    .cons he₁ (.cons he₂ (.cons he₃ .nil))
  obtain ⟨hc, hnodes, -⟩ := run_refines hl h hrun
  exact ⟨ip, s₃, hrun, hc, hnodes⟩

end Multiplix.Fs.Inodes
