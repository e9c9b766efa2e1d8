import Mathlib.Data.Finset.Union
import Multiplix.Fs.Cache
import Multiplix.Fs.FileLaw

/-! `File.read` and `File.write`. -/
namespace Multiplix.Fs
open Lib

/-- `max`: the most bytes that `File.write` hands to `Inode.write` at once. -/
def maxWrite : ℕ := (Bcache.MAXOPBLOCKS - 1 - 1 - 2) / 2 * BSIZE

def rx : FsM Byte := Prog.perform Op.rx

def tx (n : ℕ) (src : Mem) : FsM Unit := Prog.perform (Op.tx n src)

variable (sb : Superblock)

namespace FileId

/-- `off += r`, if that is what was read or written. -/
def advance (f : FileId) (r : ℤ) : FsM Unit :=
  if r > 0 then modifyFile f fun x => { x with off := (x.off + r.toNat) % 2 ^ 32 } else pure ()

/-- The loop over the bytes of a device. -/
def readDevice (addr : ℕ) : ℕ → ℕ → FsM Unit
  | 0, _ => pure ()
  | k + 1, i => do
    let b ← rx
    Prog.perform (Op.ustore ((addr + i) % addrSpace) 1 fun _ => b)
    readDevice addr k (i + 1)

/-- The part of `read` for inodes. -/
def readInode (f : FileId) (ip : Slot) (addr : ℕ) (n : ℤ) : FsM ℤ := do
  ip.lock sb
  let x ← file f
  let (tot, _) ← ip.read sb (.user addr) x.off (n % 2 ^ 32).toNat
  let r := (BitVec.ofNat 32 tot).toInt
  f.advance r
  ip.unlock
  pure r

/-- `r` is assigned for inodes only, and is 0 for the other types. -/
def read (f : FileId) (addr : ℕ) (n : ℤ) : FsM ℤ := do
  let x ← file f
  if x.readable = false then pure (-1)
  else
    match x.type with
    | .pipe => pure 0
    | .device => do
      readDevice addr n.toNat 0
      pure 0
    | .inode => do
      let ip ← deref x.ip
      readInode sb f ip addr n
    | .none => Prog.fail .noType

/-- The loop over the pieces of a write, of which `i` bytes are done. It ends as soon as one is cut
short. -/
def writeInode (f : FileId) (ip : Slot) (addr n : ℕ) : ℕ → ℕ → FsM ℕ
  | 0, i => pure i
  | k + 1, i =>
    if i < n then do
      let n1 := min (n - i) maxWrite
      ip.lock sb
      let x ← file f
      let r ← ip.write sb (.user ((addr + i) % addrSpace)) x.off n1
      f.advance r
      ip.unlock
      if r ≠ n1 then pure i else writeInode f ip addr n k (i + n1)
    else pure i

/-- A device is the serial port. The length of the slice is the number as an unsigned one. -/
def write (f : FileId) (addr : ℕ) (n : ℤ) : FsM ℤ := do
  let x ← file f
  if x.writable = false then pure (-1)
  else
    match x.type with
    | .pipe => pure 0
    | .device => do
      let buf ← uload (addr % addrSpace) (n % addrSpace).toNat
      tx (n % addrSpace).toNat buf
      pure n
    | .inode => do
      let ip ← deref x.ip
      let i ← writeInode sb f ip addr n.toNat n.toNat 0
      pure (if (i : ℤ) = n then n else -1)
    | .none => Prog.fail .noType

end FileId

/-- A file is locked and written at once. -/
def Slot.lockWrite (ip : Slot) (src : Buffer) (off n : ℕ) : FsM ℤ := do
  ip.lock sb
  ip.write sb src off n

variable {sb} {d : ℕ} {s s' s'' : State Store} {E : Panic → Prop}

/-! ### Enough blocks for a write -/

/-- The places that `bmap` looks at for some bytes of a file. -/
def placesOf (n off len : ℕ) : Finset (ℕ × Place) :=
  (Finset.range len).biUnion fun x => (place ((off + x) / BSIZE)).needs.image (Prod.mk n)

theorem covers_placesOf (n off len : ℕ) : Covers (placesOf n off len) n off len := by
  intro x hx hx' q hq
  have hback : off + (x - off) = x := by omega
  refine Finset.mem_biUnion.mpr ⟨x - off, Finset.mem_range.mpr (by omega), ?_⟩
  rw [hback]
  exact Finset.mem_image_of_mem _ hq

/-- Where a block is found, so is all that leads to it. -/
theorem needs_mapped {n : ℕ} {p q : Place} (h : pointer sb d s (n, p) ≠ 0) (hq : q ∈ p.needs) :
    pointer sb d s (n, q) ≠ 0 := by
  cases p with
  | addr k =>
    rw [Finset.mem_singleton.mp hq]
    exact h
  | entry j =>
    rw [Place.needs, Finset.mem_insert, Finset.mem_singleton] at hq
    rcases hq with rfl | rfl
    · intro hz
      exact h (Inode.pointer_hole (Or.inl hz))
    · exact h

theorem mapped_placesOf {n off len : ℕ}
    (h : ∀ x, off ≤ x → x < off + len → pointer sb d s (n, place (x / BSIZE)) ≠ 0) :
    ∀ q ∈ placesOf n off len, pointer sb d s q ≠ 0 := by
  intro q hq
  obtain ⟨x, hx, hin⟩ := Finset.mem_biUnion.mp hq
  obtain ⟨p, hp, rfl⟩ := Finset.mem_image.mp hin
  rw [Finset.mem_range] at hx
  exact needs_mapped (h (off + x) (by omega) (by omega)) hp

/-- Whether there are enough blocks does not depend on how the bytes are cut to pieces. -/
theorem Puts.all {n i i' off len tot : ℕ} {ip : Slot} {src src' : Mem}
    (h : Puts sb d n ip src i off len s len s') (h' : Puts sb d n ip src' i' off len s tot s'')
    (hmax : off + len ≤ MAXFILE * BSIZE) : tot = len := by
  by_contra hne
  have hlt : tot < len := lt_of_le_of_ne h'.le hne
  obtain ⟨hfull, hhole⟩ := (h'.stuck hlt).resolve_left (by omega)
  have hcov := covers_placesOf n off len
  have hin : (n, place ((off + tot) / BSIZE)) ∈ placesOf n off len :=
    hcov (off + tot) (by omega) (by omega) _ (Place.mem_needs _)
  have hle : blocksFor sb d s' (placesOf n off len) ≤ sb.size :=
    demand_le (mapped_placesOf h.mapped)
  have hgt : sb.size < blocksFor sb d s'' (placesOf n off len) := lt_demand hin hhole hfull
  rw [h'.blocks _ hcov] at hgt
  rw [h.blocks _ hcov] at hle
  omega

/-! ### The loop of `File.write` -/

/-- The source starts where the bytes are taken from. -/
theorem Puts.shift {n i off len tot : ℕ} {ip : Slot} {src : Mem}
    (h : Puts sb d n ip (fun x => src (i + x)) 0 off len s tot s') :
    Puts sb d n ip src i off len s tot s' := by
  refine { h with contents := ?_ }
  rw [h.contents, Mem.copy_shift]

theorem does_file {f : FileId} {Q : File → State Store → Prop} :
    Does E (file f) s Q ↔ Q (s.1.files f) s := Iff.rfl

theorem does_modifyFile {f : FileId} {g : File → File} {Q : Unit → State Store → Prop} :
    Does E (modifyFile f g) s Q ↔ Q () (s.1.setFile f (g (s.1.files f)), s.2) := Iff.rfl

theorem unlock_does {ip : Slot} (h : 0 < (s.1.inodes ip).refcnt) {Q : Unit → State Store → Prop}
    (hQ : Q () s) : Does E ip.unlock s Q := by
  have hrefcnt : ¬¬1 ≤ (s.1.inodes ip).refcnt := by omega
  unfold Slot.unlock
  rw [does_bind, does_inode, if_neg hrefcnt]
  exact hQ

/-! The table of files does not matter. -/

theorem Consistent.setFile (hc : Consistent sb d s) (f : FileId) (x : File) :
    Consistent sb d (s.1.setFile f x, s.2) := ⟨hc.owned, hc.reserved, hc.unique, hc.range⟩

theorem Puts.setFile {n i off len tot : ℕ} {ip : Slot} {src : Mem}
    (h : Puts sb d n ip src i off len s tot s') (f : FileId) (x : File) :
    Puts sb d n ip src i off len s tot (s'.1.setFile f x, s'.2) where
  le := h.le
  consistent := h.consistent.setFile f x
  inode := h.inode
  user := h.user
  keeps := h.keeps
  mapped := h.mapped
  contents := h.contents
  others := h.others
  blocks := h.blocks
  stuck := h.stuck

theorem lock_cached {n : ℕ} {ip : Slot} (hip : s.1.Caches d n ip) {Q : Unit → State Store → Prop}
    (hQ : Q () s) : Does E (ip.lock sb) s Q := by
  have hrefcnt : ¬¬1 ≤ (s.1.inodes ip).refcnt := by
    have hpos := hip.1.1
    omega
  unfold Slot.lock
  rw [does_bind, does_inode, if_neg hrefcnt, if_pos hip.2]
  exact hQ

/-- The offset moves by what was written. -/
theorem advance_does {f : FileId} {r : ℤ} {tot : ℕ} (hr : r = tot ∨ r = -1 ∧ tot = 0)
    (hoff : 0 < tot → (s.1.files f).off + tot < 2 ^ 32) :
    Does E (f.advance r) s fun _ s' =>
      s' = (s.1.setFile f { s.1.files f with off := (s.1.files f).off + tot }, s.2) := by
  unfold FileId.advance
  split_ifs with hpos
  · obtain rfl : r = tot := hr.resolve_right fun h => by omega
    rw [does_modifyFile, Int.toNat_natCast, Nat.mod_eq_of_lt (hoff (by omega))]
  · obtain rfl : tot = 0 := by omega
    have hsame : { s.1.files f with off := (s.1.files f).off + 0 } = s.1.files f := rfl
    rw [does_pure, hsame, Core.setFile_self]

section Loop

variable {n : ℕ} {ip : Slot} (hl : sb.Laid) (hc : Consistent sb d s) (hip : s.1.Caches d n ip)

include hl hc hip

/-- One call of `Inode.write` within the file, whether it is refused or not. -/
theorem write_puts {off len : ℕ} (src : Buffer) (hoff : off ≤ (s.1.inodes ip).size)
    (hlen : len < 2 ^ 32) : Does E (ip.write sb src off len) s fun r s' => ∃ tot,
      Puts sb d n ip (src.view s.2) 0 off len s tot s' ∧ s'.1.files = s.1.files ∧
      (r = (tot : ℤ) ∧ off + len ≤ MAXFILE * BSIZE ∨
        r = -1 ∧ tot = 0 ∧ MAXFILE * BSIZE < off + len) := by
  have hmax : MAXFILE * BSIZE < 2 ^ 32 := by decide
  by_cases hfits : off + len ≤ MAXFILE * BSIZE
  · apply (write_does src hl hc hip hoff (by omega) hfits).mono
    rintro r s' ⟨tot, rfl, h⟩
    exact ⟨tot, h.puts hl hip, h.files, Or.inl ⟨rfl, hfits⟩⟩
  · have hrefused := @write_refused sb s ip src _ _ hlen
      (Or.inr (Or.inr (Nat.not_le.mp hfits)))
    rw [does_of_exec hrefused]
    exact ⟨0, .nil hc hoff fun _ => Nat.not_le.mp hfits, rfl,
      Or.inr ⟨rfl, rfl, Nat.not_le.mp hfits⟩⟩

/-- The pieces are written one after the other, and the offset of the file moves with them. -/
theorem writeInode_does {f : FileId} {len k i : ℕ} (addr : ℕ) (hk : len - i ≤ k) (hi : i ≤ len)
    (hlen : len < 2 ^ 32) (hoff : (s.1.files f).off ≤ (s.1.inodes ip).size) :
    Does E (f.writeInode sb ip addr len k i) s fun i' s' => ∃ tot,
      Puts sb d n ip ((Buffer.user addr).view s.2) i (s.1.files f).off (len - i) s tot s' ∧
      (i' = len ↔ tot = len - i) ∧ s'.1.files =
        Function.update s.1.files f { s.1.files f with off := (s.1.files f).off + tot } := by
  have hdone : Function.update s.1.files f { s.1.files f with off := (s.1.files f).off + 0 } =
      s.1.files := Function.update_eq_self _ _
  induction k generalizing s i with
  | zero =>
    exact ⟨0, .nil hc hoff fun hlt => by omega, by omega, hdone.symm⟩
  | succ k ih =>
    unfold FileId.writeInode
    split_ifs with hlt
    · have hpos : 0 < min (len - i) maxWrite := lt_min (by omega) (by decide)
      have hle : min (len - i) maxWrite ≤ len - i := min_le_left _ _
      dsimp only
      generalize min (len - i) maxWrite = m at hpos hle ⊢
      rw [does_bind]
      apply lock_cached hip
      rw [does_bind, does_file, does_bind]
      apply (write_puts hl hc hip (.user ((addr + i) % addrSpace)) hoff (by omega)).mono
      rintro r s₁ ⟨tot, h₁, hfiles, hr⟩
      rw [Buffer.view_add] at h₁
      have hmax : MAXFILE * BSIZE < 2 ^ 32 := by decide
      have hshort := h₁.le
      rw [does_bind]
      apply (advance_does (by omega : r = (tot : ℤ) ∨ r = -1 ∧ tot = 0)
        (by rw [hfiles]; omega)).mono
      rintro _ s₂ hs₂
      have h₂ : Puts sb d n ip ((Buffer.user addr).view s.2) i (s.1.files f).off m s tot s₂ := by
        rw [hs₂]
        exact h₁.shift.setFile _ _
      have hip₂ := h₂.caches hip
      have hfiles₂ : s₂.1.files =
          Function.update s.1.files f { s.1.files f with off := (s.1.files f).off + tot } := by
        rw [hs₂, Core.setFile_files, hfiles]
      rw [does_bind]
      apply unlock_does hip₂.1.1
      split_ifs with hcut
      · have htot : tot < m := by omega
        refine ⟨tot, h₂.short htot hle, by omega, hfiles₂⟩
      · obtain rfl : tot = m := by omega
        obtain ⟨a, ha⟩ := h₂.inode
        have hoff₂ : (s₂.1.files f).off = (s.1.files f).off + tot := by
          rw [hfiles₂, Function.update_self]
        have hsize :
            (s₂.1.inodes ip).size = max (s.1.inodes ip).size ((s.1.files f).off + tot) := by
          rw [ha]
        have hrest := ih (i := i + tot) h₂.consistent hip₂ (by omega) (by omega)
          (by rw [hoff₂, hsize]; exact le_max_right _ _) (Function.update_eq_self _ _)
        apply hrest.mono
        rintro i' s' ⟨tot', h', hi', hfiles'⟩
        rw [Buffer.view_congr _ h₂.user, hoff₂, ← Nat.sub_sub] at h'
        refine ⟨tot + tot', h₂.append hle h', by omega, ?_⟩
        rw [hfiles', hfiles₂, Function.update_idem, Function.update_self]
        simp only [Nat.add_assoc]
    · obtain rfl : i = len := by omega
      exact ⟨0, .nil hc hoff fun hlt => by omega, by omega, hdone.symm⟩

end Loop

/-! ### Files that are not locked yet -/

theorem lock_exec {ip : Slot} (h : Opens sb s ip) :
    exec coherent (ip.lock sb) s = .ok (State.withInode s ip (locked sb s ip), ()) := by
  obtain ⟨s', _, he, rfl⟩ := (lock_does h).ends
  exact he

/-- The first piece locks the inode, so that it may as well be locked before. -/
theorem writeInode_locked {f : FileId} {ip : Slot} {addr n k : ℕ} (h : Opens sb s ip) (hn : 0 < n)
    {Q : ℕ → State Store → Prop}
    (hQ : Does E (f.writeInode sb ip addr n (k + 1) 0) (State.withInode s ip (locked sb s ip)) Q) :
    Does E (f.writeInode sb ip addr n (k + 1) 0) s Q := by
  have hself : (State.withInode s ip (locked sb s ip)).1.inodes ip = locked sb s ip :=
    Function.update_self _ _ _
  have hcached : (State.withInode s ip (locked sb s ip)).1.Caches
      (locked sb s ip).dev (locked sb s ip).inum ip := by
    unfold Core.Caches Core.Holds
    rw [hself, locked_like.1]
    exact ⟨⟨h.1, rfl, rfl⟩, locked_like.2.2.2⟩
  have hlocked : exec coherent (ip.lock sb) (State.withInode s ip (locked sb s ip)) =
      .ok (State.withInode s ip (locked sb s ip), ()) := by
    have hdoes : Does (fun _ => False) (ip.lock sb) (State.withInode s ip (locked sb s ip))
      fun _ s' => s' = State.withInode s ip (locked sb s ip) := lock_cached hcached rfl
    obtain ⟨s', _, he, rfl⟩ := hdoes.ends
    exact he
  unfold FileId.writeInode at hQ ⊢
  rw [if_pos hn, does_bind, does_of_exec hlocked] at hQ
  rw [if_pos hn, does_bind, does_of_exec (lock_exec h)]
  exact hQ

theorem writeInode_beyond {d m : ℕ} {f : FileId} {ip : Slot} {addr n k : ℕ}
    (hip : s.1.Caches d m ip) (hn : 0 < n) (hoff : (s.1.inodes ip).size < (s.1.files f).off) :
    Does E (f.writeInode sb ip addr n (k + 1) 0) s fun i s' => i = 0 ∧ s' = s := by
  have hmin : min (n - 0) maxWrite < 2 ^ 32 := (min_le_right _ _).trans_lt (by decide)
  unfold FileId.writeInode
  rw [if_pos hn, does_bind]
  apply lock_cached hip
  rw [does_bind, does_file, does_bind, does_of_exec (write_refused _ hmin (Or.inl hoff)), does_bind]
  have hneg : ¬(-1 : ℤ) > 0 := by omega
  have hne : (-1 : ℤ) ≠ (min (n - 0) maxWrite : ℕ) := by omega
  unfold FileId.advance
  rw [if_neg hneg, does_pure, does_bind]
  apply unlock_does hip.1.1
  rw [if_pos hne]
  exact ⟨rfl, rfl⟩

variable (sb d) in
/-- The file has the first `tot` bytes of the source at `off`, its other bytes and all other files
are as they were, and it is read so if it was whole before. -/
structure Written (m : ℕ) (ip : Slot) (src : Mem) (off : ℕ) (s : State Store) (tot : ℕ)
    (s' : State Store) : Prop where
  consistent : Consistent sb d s'
  contents : contents sb d s' m = (contents sb d s m).copy off src 0 tot
  others : ∀ k, k ≠ m → Fs.contents sb d s' k = Fs.contents sb d s k
  size : (present sb d s' m).size =
    if tot = 0 then (present sb d s m).size else max (present sb d s m).size (off + tot)
  reads : (locked sb s ip).Whole (s.2.dev d) →
    Gives (ip.lockRead sb) s' (Fs.contents sb d s' m) (present sb d s' m).size

section Written

variable {m off len tot : ℕ} {ip : Slot} {src : Mem} (hc : Consistent sb d s) (h : Opens sb s ip)
  (hdev : (s.1.inodes ip).dev = d) (hinum : (s.1.inodes ip).inum = m)

include hc h hdev hinum

theorem gives_contents (hw : (locked sb s ip).Whole (s.2.dev d)) :
    Gives (ip.lockRead sb) s (contents sb d s m) (present sb d s m).size := by
  subst hdev
  rw [← contents_locked hc h rfl hinum, ← (fields_locked hc h rfl hinum).1]
  exact Slot.gives_lockRead h hw rfl rfl

theorem Written.refl : Written sb d m ip src off s 0 s where
  consistent := hc
  contents := (Mem.copy_zero _ _ _ _).symm
  others _ _ := rfl
  size := (if_pos rfl).symm
  reads := gives_contents hc h hdev hinum

/-- What is written to the locked file is written to the file. -/
theorem Puts.written (hoff : off ≤ (locked sb s ip).size)
    (hp : Puts sb d m ip src 0 off len (State.withInode s ip (locked sb s ip)) tot s') :
    Written sb d m ip src off s tot s' := by
  have hcached := caches_locked h hdev hinum
  have hself : (State.withInode s ip (locked sb s ip)).1.inodes ip = locked sb s ip :=
    Function.update_self _ _ _
  have hcached' := hp.caches hcached
  have hpresent := hp.consistent.present_eq hcached'
  have hfields := fields_locked hc h hdev hinum
  obtain ⟨a, ha⟩ := hp.inode
  rw [hself] at ha
  have hlocked : locked sb s' ip = s'.1.inodes ip := if_pos hcached'.2
  have hopen : Opens sb s' ip := ⟨hcached'.1.1, Or.inl hcached'.2⟩
  constructor
  · exact hp.consistent
  · rw [hp.contents, contents_withLocked hc h hdev hinum]
  · intro k hk
    rw [hp.others k hk, contents_withLocked hc h hdev hinum]
  · rw [hpresent, ha, ← hfields.1]
    dsimp only
    split_ifs with hz
    · rw [hz, Nat.add_zero, max_eq_left hoff]
    · rfl
  · intro hw
    have hwhole := hp.whole hcached (consistent_locked hc h hdev hinum) (by rwa [hself])
      (by rwa [hself])
    rw [← hlocked] at hwhole
    exact gives_contents hp.consistent hopen hcached'.1.2.1 hcached'.1.2.2 hwhole

theorem Written.lock :
    Written sb d m ip src off s 0 (State.withInode s ip (locked sb s ip)) where
  consistent := consistent_locked hc h hdev hinum
  contents := by rw [Mem.copy_zero, contents_withLocked hc h hdev hinum]
  others k _ := contents_withLocked hc h hdev hinum k
  size := by
    rw [(consistent_locked hc h hdev hinum).present_eq (caches_locked h hdev hinum), if_pos rfl,
      ← (fields_locked hc h hdev hinum).1, State.withInode_inodes, Function.update_self]
  reads hw := by
    have hcached := caches_locked h hdev hinum
    have hself : (State.withInode s ip (locked sb s ip)).1.inodes ip = locked sb s ip :=
      Function.update_self _ _ _
    have hlocked : locked sb (State.withInode s ip (locked sb s ip)) ip =
        locked sb s ip := (if_pos hcached.2).trans hself
    apply gives_contents (consistent_locked hc h hdev hinum) ⟨hcached.1.1, Or.inl hcached.2⟩
    · exact hcached.1.2.1
    · exact hcached.1.2.2
    · rwa [hlocked]

omit hc h hdev hinum in
/-- What is written settles what all files hold. -/
theorem Written.unique (hw : Written sb d m ip src off s tot s')
    (hw' : Written sb d m ip src off s tot s'') :
    (present sb d s' m).size = (present sb d s'' m).size ∧
      ∀ k, Fs.contents sb d s' k = Fs.contents sb d s'' k := by
  refine ⟨hw.size.trans hw'.size.symm, fun k => ?_⟩
  by_cases hk : k = m
  · rw [hk, hw.contents, hw'.contents]
  · rw [hw.others k hk, hw'.others k hk]

end Written

section Law

variable {m : ℕ} {ip : Slot} (hl : sb.Laid) (hc : Consistent sb d s) (h : Opens sb s ip)
  (hdev : (s.1.inodes ip).dev = d) (hinum : (s.1.inodes ip).inum = m)

include hl hc h hdev hinum

/-- The loop from the first byte on. Either it is not entered, or the offset is beyond the end, or
pieces are put into the locked file. -/
theorem writeInode_written {f : FileId} (addr : ℕ) {n : ℕ} (hn : n < 2 ^ 32) :
    Does E (f.writeInode sb ip addr n n 0) s fun i s' => ∃ tot,
      (i = n ↔ tot = n) ∧ tot ≤ n ∧ s'.1.files =
        Function.update s.1.files f { s.1.files f with off := (s.1.files f).off + tot } ∧
      Written sb d m ip ((Buffer.user addr).view s.2) (s.1.files f).off s tot s' ∧
      (n = 0 ∨ (locked sb s ip).size < (s.1.files f).off ∧ tot = 0 ∨
        (s.1.files f).off ≤ (locked sb s ip).size ∧
          Puts sb d m ip ((Buffer.user addr).view s.2) 0 (s.1.files f).off n
            (State.withInode s ip (locked sb s ip)) tot s') := by
  have hdone : Function.update s.1.files f { s.1.files f with off := (s.1.files f).off + 0 } =
      s.1.files := Function.update_eq_self _ _
  have hcached := caches_locked h hdev hinum
  have hself : (State.withInode s ip (locked sb s ip)).1.inodes ip = locked sb s ip :=
    Function.update_self _ _ _
  obtain _ | k := n
  · exact ⟨0, Iff.rfl, le_rfl, hdone.symm, .refl hc h hdev hinum, Or.inl rfl⟩
  · apply writeInode_locked h (Nat.succ_pos k)
    by_cases hoff : (s.1.files f).off ≤ (locked sb s ip).size
    · apply (writeInode_does hl (consistent_locked hc h hdev hinum) hcached addr (by omega)
        (Nat.zero_le _) hn (by rwa [hself])).mono
      rintro i s' ⟨tot, hp, hi, hfiles⟩
      exact ⟨tot, hi, hp.le, hfiles, Puts.written hc h hdev hinum hoff hp,
        Or.inr (Or.inr ⟨hoff, hp⟩)⟩
    · apply (writeInode_beyond hcached (Nat.succ_pos k)
        (by rw [hself]; exact Nat.not_le.mp hoff)).mono
      rintro i s' ⟨rfl, rfl⟩
      exact ⟨0, Iff.rfl, Nat.zero_le _, hdone.symm, .lock hc h hdev hinum,
        Or.inr (Or.inl ⟨Nat.not_le.mp hoff, rfl⟩)⟩

/-- One write of all bytes. -/
theorem lockWrite_does (src : Buffer) (off : ℕ) {n : ℕ} (hn : n < 2 ^ 32) :
    Does E (ip.lockWrite sb src off n) s fun r s' => (locked sb s ip).size < off ∧ r = -1 ∨
      off ≤ (locked sb s ip).size ∧ ∃ tot, Puts sb d m ip (src.view s.2) 0 off n
        (State.withInode s ip (locked sb s ip)) tot s' ∧
        (r = (tot : ℤ) ∧ off + n ≤ MAXFILE * BSIZE ∨
          r = -1 ∧ tot = 0 ∧ MAXFILE * BSIZE < off + n) := by
  have hcached := caches_locked h hdev hinum
  have hself : (State.withInode s ip (locked sb s ip)).1.inodes ip = locked sb s ip :=
    Function.update_self _ _ _
  unfold Slot.lockWrite
  rw [does_bind, does_of_exec (lock_exec h)]
  by_cases hoff : off ≤ (locked sb s ip).size
  · apply (write_puts hl (consistent_locked hc h hdev hinum) hcached src (by rwa [hself]) hn).mono
    rintro r s' ⟨tot, hp, -, hr⟩
    exact Or.inr ⟨hoff, tot, hp, hr⟩
  · rw [does_of_exec (write_refused src hn (Or.inl (by rw [hself]; omega)))]
    exact Or.inl ⟨Nat.not_le.mp hoff, rfl⟩

end Law

/-- `File.write` writes some of the bytes, from the first on, where the file is at and moves the
file behind them; only if it has written all of them does it return their number. It writes all of
them if and only if one call of `Inode.write` does, and all files are the same then. -/
theorem FileId.write_law {m n : ℕ} {f : FileId} {ip : Slot} (addr : ℕ) (hl : sb.Laid)
    (hc : Consistent sb d s) (hw : (s.1.files f).writable = true)
    (htype : (s.1.files f).type = .inode) (hip : (s.1.files f).ip = some ip)
    (hopen : Opens sb s ip) (hdev : (s.1.inodes ip).dev = d) (hinum : (s.1.inodes ip).inum = m)
    (hn : n < 2 ^ 31) : ∃ s' tot,
      exec coherent (f.write sb addr n) s = .ok (s', if tot = n then (n : ℤ) else -1) ∧ tot ≤ n ∧
      Written sb d m ip ((Buffer.user addr).view s.2) (s.1.files f).off s tot s' ∧
      s'.1.files =
        Function.update s.1.files f { s.1.files f with off := (s.1.files f).off + tot } ∧
      ∃ s₁ r, exec coherent (ip.lockWrite sb (.user addr) (s.1.files f).off n) s = .ok (s₁, r) ∧
        (0 < n → tot = n → r = n) ∧
        (r = n → tot = n ∧ (present sb d s' m).size = (present sb d s₁ m).size ∧
          ∀ k, contents sb d s' k = contents sb d s₁ k) := by
  have hloop := writeInode_written (E := fun _ => False) (f := f) hl hc hopen hdev hinum addr
    (n := n) (by omega)
  obtain ⟨s₁, r, hsingle, hone⟩ := (lockWrite_does hl hc hopen hdev hinum
    (.user addr) (s.1.files f).off (n := n) (by omega)).ends
  have hdoes : Does (fun _ => False) (f.write sb addr n) s fun r s' => ∃ tot,
      r = (if tot = n then (n : ℤ) else -1) ∧ tot ≤ n ∧
      Written sb d m ip ((Buffer.user addr).view s.2) (s.1.files f).off s tot s' ∧
      s'.1.files =
        Function.update s.1.files f { s.1.files f with off := (s.1.files f).off + tot } ∧
      (n = 0 ∨ (locked sb s ip).size < (s.1.files f).off ∧ tot = 0 ∨
        (s.1.files f).off ≤ (locked sb s ip).size ∧
          Puts sb d m ip ((Buffer.user addr).view s.2) 0 (s.1.files f).off n
            (State.withInode s ip (locked sb s ip)) tot s') := by
    have hreadonly : ¬(s.1.files f).writable = false := by
      rw [hw]
      exact Bool.noConfusion
    have hderef : deref (some ip) = pure ip := rfl
    unfold FileId.write
    rw [does_bind, does_file, if_neg hreadonly, htype, hip]
    dsimp only
    rw [does_bind, hderef, does_pure, does_bind, Int.toNat_natCast]
    apply hloop.mono
    rintro i s' ⟨tot, hi, hle, hfiles, hwritten, hhow⟩
    refine ⟨tot, ?_, hle, hwritten, hfiles, hhow⟩
    split_ifs with hin htot htot
    · rfl
    · exact absurd (hi.mp (by exact_mod_cast hin)) htot
    · exact absurd (by exact_mod_cast hi.mpr htot) hin
    · rfl
  obtain ⟨s', _, hexec, tot, rfl, hle, hwritten, hfiles, hhow⟩ := hdoes.ends
  refine ⟨s', tot, hexec, hle, hwritten, hfiles, s₁, r, hsingle, fun hpos htot => ?_, fun hr => ?_⟩
  · obtain ⟨hoff, hp⟩ := (hhow.resolve_left hpos.ne').resolve_left (by omega)
    subst htot
    obtain ⟨-, tot₁, hp₁, ⟨hr, hmax⟩ | ⟨-, -, hmax⟩⟩ := hone.resolve_left (by omega)
    · rw [hr, hp.all hp₁ hmax]
    · have hle := hp.le_maxfile hpos
      omega
  · obtain ⟨hoff, tot₁, hp₁, hr₁⟩ := hone.resolve_left (by omega)
    obtain rfl : tot₁ = n := by omega
    have htot : tot = tot₁ := by
      rcases hhow with hz | hbeyond | ⟨-, hp⟩
      · omega
      · omega
      · exact hp₁.all hp (by omega)
    rw [htot] at hwritten
    exact ⟨htot, hwritten.unique (hp₁.written hc hopen hdev hinum hoff)⟩

/-! ### An open file -/

/-- The first file of the table. -/
def file₀ : FileId := ⟨0, by decide⟩

/-- It is open for reading and writing, at its byte 4. -/
def smallFile : File :=
  { File.init with
    type := .inode, refcnt := 1, readable := true, writable := true, ip := some slot₀, off := 4 }

/-- A file of five bytes on the small disk. -/
def smallOpen : State Store :=
  ((small T_FILE 5 fun _ => 65).1.setFile file₀ smallFile, (small T_FILE 5 fun _ => 65).2)

theorem smallOpen_file : smallOpen.1.files file₀ = smallFile := by
  unfold smallOpen
  rw [Core.setFile_files, Function.update_self]

theorem smallOpen_inode : smallOpen.1.inodes slot₀ = smallInode T_FILE 5 :=
  small_inode T_FILE 5 fun _ => 65

theorem consistent_smallOpen : Consistent smallSb ROOTDEV smallOpen :=
  (consistent_small T_FILE 5 fun _ => 65).setFile _ _

theorem opens_smallOpen : Opens smallSb smallOpen slot₀ := by
  unfold Opens
  rw [smallOpen_inode]
  exact ⟨one_pos, Or.inl rfl⟩

/-- Three bytes are written to it. -/
theorem FileId.write_law_small : ∃ s' tot,
    exec coherent (file₀.write smallSb 64 3) smallOpen =
      .ok (s', if tot = 3 then 3 else -1) ∧ tot ≤ 3 ∧
    Written smallSb ROOTDEV 1 slot₀ ((Buffer.user 64).view smallOpen.2) 4 smallOpen tot s' := by
  have hlaw := FileId.write_law (n := 3) (m := 1) 64 smallSb_laid consistent_smallOpen
    (by rw [smallOpen_file]; rfl) (by rw [smallOpen_file]; rfl) (by rw [smallOpen_file]; rfl)
    opens_smallOpen
    (by rw [smallOpen_inode]; rfl) (by rw [smallOpen_inode]; rfl) (by decide)
  rw [smallOpen_file] at hlaw
  obtain ⟨s', tot, hexec, hle, hwritten, -⟩ := hlaw
  exact ⟨s', tot, hexec, hle, hwritten⟩

end Multiplix.Fs
