import Multiplix.Fs.Balance
import Multiplix.Fs.Transfer

/-! Reading from files of all types, among them the serial port. -/
namespace Multiplix.Fs
open Lib

variable {sb : Superblock} {d : ℕ} {s s' : State Store}

/-! ### Reading what may have holes -/

variable (sb d) in
/-- Bytes of the file, `[tot, r.1)` of `len`, have been stored in the buffer of the process. Holes
are filled. -/
structure Fetched (m : ℕ) (ip : Slot) (addr off tot len : ℕ) (s : State Store) (r : ℕ × Buffer)
    (s' : State Store) : Prop where
  le : tot ≤ r.1
  le_len : r.1 ≤ len
  core : ∃ a, s'.1 = (State.withInode s ip { s.1.inodes ip with addrs := a }).1
  view : ∀ x < addrSpace, (Buffer.user addr).view s'.2 x =
    ((Buffer.user addr).view s.2).copy tot (contents sb d s m) off (r.1 - tot) x

theorem Mapped.fetched {m : ℕ} {ip : Slot} {p : Place} {addr off tot len a : ℕ} {b : Buffer}
    (h : Mapped sb d m ip p s a s') (htot : tot ≤ len) :
    Fetched sb d m ip addr off tot len s (tot, b) s' where
  le := le_rfl
  le_len := htot
  core := h.grows.core
  view x _ := by rw [Buffer.view_congr _ h.grows.user, Nat.sub_self, Mem.copy_zero]

theorem Fetched.done {m : ℕ} {ip : Slot} {addr off tot len : ℕ} {b : Buffer} (htot : tot ≤ len) :
    Fetched sb d m ip addr off tot len s (tot, b) s where
  le := le_rfl
  le_len := htot
  core := ⟨(s.1.inodes ip).addrs, by
    unfold State.withInode
    rw [Function.update_eq_self]⟩
  view x _ := by rw [Nat.sub_self, Mem.copy_zero]

/-! The memory of the process does not matter. -/

theorem Consistent.of_disk {t : Store} (hc : Consistent sb d s) (ht : t.disk = s.2.disk) :
    Consistent sb d (s.1, t) := by
  obtain ⟨disk, user⟩ := t
  subst ht
  exact ⟨hc.owned, hc.reserved, hc.unique, hc.range⟩

theorem contents_of_disk {t : Store} (m : ℕ) (ht : t.disk = s.2.disk) :
    contents sb d (s.1, t) m = contents sb d s m := by
  obtain ⟨disk, user⟩ := t
  subst ht
  rfl

theorem bmap_beyond {ip : Slot} {bn : ℕ} (hbn : MAXFILE ≤ bn) {Q : ℕ → State Store → Prop} :
    Does (fun _ => True) (ip.bmap sb bn) s Q := by
  have hmax : MAXFILE = NDIRECT + NINDIRECT := rfl
  unfold Slot.bmap
  rw [dif_neg (by omega), if_neg (by omega)]
  exact trivial

theorem readLoop_does {m : ℕ} {ip : Slot} (addr : ℕ) (hl : sb.Laid) (k off tot len : ℕ)
    (hc : Consistent sb d s) (hip : s.1.Caches d m ip) (htot : tot ≤ len)
    (hlen : len ≤ addrSpace) : Does (fun _ => True) (ip.readLoop sb k (.user addr) off tot len) s
      (Fetched sb d m ip addr off tot len s) := by
  induction k generalizing s off tot with
  | zero => exact .done htot
  | succ k ih =>
    unfold Slot.readLoop
    split_ifs with hlt
    · rw [does_bind]
      by_cases hbn : off / BSIZE < MAXFILE
      · apply (bmap_does hl hc hip hbn).mono
        intro a s₁ h₁
        rcases h₁.block with ⟨rfl, -, -⟩ | ⟨hne, hptr⟩
        · exact h₁.fetched htot
        have hc₁ := h₁.grows.consistent
        have hip₁ := (h₁.grows.caches d m ip).mpr hip
        have hdev : (s₁.1.inodes ip).dev = d := hip₁.1.2.1
        have hpos : off % BSIZE < BSIZE := Nat.mod_lt _ (by decide)
        rw [if_neg hne, does_bind, does_inode, does_bind, does_bread, hdev, does_bind, does_data,
          does_bind]
        have hm : off % BSIZE + min (len - tot) (BSIZE - off % BSIZE) ≤ BSIZE := by omega
        have hleft : min (len - tot) (BSIZE - off % BSIZE) ≤ len - tot := min_le_left _ _
        generalize min (len - tot) (BSIZE - off % BSIZE) = n at hm hleft ⊢
        unfold Buffer.put
        rw [does_bind, does_ustore, does_pure, does_bind, does_brelease]
        have hcontents : ∀ x < addrSpace, (Buffer.user addr).view (s₁.2.write
            ((addr + tot) % addrSpace) n fun x => s₁.2.disk (d, a) (off % BSIZE + x)) x =
              ((Buffer.user addr).view s.2).copy tot (contents sb d s m) off n x := by
          intro x hx
          have hpiece := @copy_contents (s₁.2.dev d) (s₁.1.inodes ip) off n
            ((Buffer.user addr).view s.2) tot
            (by rw [← hc₁.pointer_eq hip₁, hptr]; exact hne) hm
          rw [← hc₁.pointer_eq hip₁, hptr, ← hc₁.present_eq hip₁] at hpiece
          rw [Buffer.view_write _ _ _ (by omega) hx, Mem.copy_shift,
            Buffer.view_congr _ h₁.grows.user, ← h₁.contents]
          exact congrFun hpiece x
        have hdisk := Store.write_disk s₁.2 ((addr + tot) % addrSpace) n
          fun x => s₁.2.disk (d, a) (off % BSIZE + x)
        generalize s₁.2.write ((addr + tot) % addrSpace) n
          (fun x => s₁.2.disk (d, a) (off % BSIZE + x)) = t at hcontents hdisk ⊢
        apply (ih (s := (s₁.1, t)) (off + n) (tot + n) (hc₁.of_disk hdisk) hip₁ (by omega)).mono
        intro r s' h'
        have hle := h'.le
        refine ⟨by omega, h'.le_len, ?_, fun x hx => ?_⟩
        · obtain ⟨a₁, ha₁⟩ := h₁.grows.core
          obtain ⟨a₂, ha₂⟩ := h'.core
          refine ⟨a₂, ?_⟩
          rw [ha₂]
          unfold State.withInode
          rw [ha₁]
          simp [State.withInode]
        · rw [h'.view x hx, contents_of_disk m hdisk, h₁.contents,
            Mem.copy_congr (hcontents x hx), Mem.copy_copy]
          congr 2
          omega
      · exact bmap_beyond (Nat.not_lt.mp hbn)
    · exact .done htot

/-- A range that is read does not go around the end of 32 bits. -/
theorem read_does {m : ℕ} {ip : Slot} (addr : ℕ) (hl : sb.Laid) {off n : ℕ}
    (hc : Consistent sb d s) (hip : s.1.Caches d m ip) (hn : n < 2 ^ 32) (hoff : off < 2 ^ 32) :
    Does (fun _ => True) (ip.read sb (.user addr) off n) s fun r s' =>
      Fetched sb d m ip addr off 0 n s r s' ∧ (0 < r.1 → off + r.1 < 2 ^ 32) := by
  have hspace : 2 ^ 32 ≤ addrSpace := by decide
  unfold Slot.read
  rw [does_bind, does_inode]
  split_ifs with hout hlt
  · exact ⟨.done (Nat.zero_le _), fun h => absurd h (lt_irrefl _)⟩
  · have hle : (s.1.inodes ip).size - off ≤ n := by omega
    apply (readLoop_does addr hl _ off 0 _ hc hip (Nat.zero_le _)
      (hle.trans (hn.le.trans hspace))).mono
    intro r s' h
    have hlen := h.le_len
    exact ⟨{ h with le_len := hlen.trans hle }, fun _ => by omega⟩
  · apply (readLoop_does addr hl _ off 0 _ hc hip (Nat.zero_le _) (hn.le.trans hspace)).mono
    intro r s' h
    have hlen := h.le_len
    exact ⟨h, fun _ => by omega⟩

/-- An inode that can be locked is in use, and has a type. -/
theorem lock_opens {ip : Slot} : Does (fun _ => True) (ip.lock sb) s fun _ s' =>
    Opens sb s ip ∧ s' = State.withInode s ip (locked sb s ip) := by
  by_cases h : Opens sb s ip
  · apply (lock_does h).mono
    exact fun _ _ hs => ⟨h, hs⟩
  · unfold Slot.lock
    rw [does_bind, does_inode]
    split_ifs with hrefcnt hvalid
    · exact absurd ⟨by omega, Or.inl hvalid⟩ h
    · have htype : ((s.1.inodes ip).load (s.2.disk ((s.1.inodes ip).dev,
          iblock (s.1.inodes ip).inum sb)) (dinodeOff (s.1.inodes ip).inum)).type = 0 := by
        by_contra hne
        refine h ⟨by omega, Or.inr ?_⟩
        unfold locked
        rw [if_neg hvalid]
        exact hne
      rw [does_bind, does_bread, does_bind, does_data, does_bind, does_setInode, does_bind,
        does_brelease, does_bind, does_setInode, if_pos htype]
      exact trivial
    · exact trivial

theorem unlock_keeps {ip : Slot} {Q : Unit → State Store → Prop} (hQ : Q () s) :
    Does (fun _ => True) ip.unlock s Q := by
  unfold Slot.unlock
  rw [does_bind, does_inode]
  split_ifs
  · exact hQ
  · exact trivial

/-- What is read from an inode is reported, and the file moves behind it. -/
theorem readInode_does {m n : ℕ} {f : FileId} {ip : Slot} (addr : ℕ) (hl : sb.Laid)
    (hc : Consistent sb d s) (hdev : (s.1.inodes ip).dev = d) (hinum : (s.1.inodes ip).inum = m)
    (hoff : (s.1.files f).off < 2 ^ 32) (hn : n < 2 ^ 31) :
    Does (fun _ => True) (f.readInode sb ip addr n) s fun r s' => ∃ tot : ℕ, r = tot ∧ tot ≤ n ∧
      (∀ x < addrSpace, (Buffer.user addr).view s'.2 x =
        ((Buffer.user addr).view s.2).copy 0 (contents sb d s m) (s.1.files f).off tot x) ∧
      (s'.1.files f).off = (s.1.files f).off + tot := by
  have hcount : ((n : ℤ) % 2 ^ 32).toNat = n := by omega
  unfold FileId.readInode
  rw [does_bind]
  apply lock_opens.mono
  rintro _ s₀ ⟨h, rfl⟩
  rw [does_bind, does_file, does_bind, hcount]
  apply (read_does addr hl (consistent_locked hc h hdev hinum) (caches_locked h hdev hinum)
    (by omega) hoff).mono
  rintro ⟨tot, b⟩ s₁ ⟨h₁, hwrap⟩
  have hle : tot ≤ n := h₁.le_len
  have hr : (BitVec.ofNat 32 tot).toInt = tot := by
    rw [BitVec.toInt_ofNat', Int.bmod_eq_of_le (by omega) (by omega)]
  have hfiles : s₁.1.files = s.1.files := by
    obtain ⟨a, ha⟩ := h₁.core
    rw [ha]
    rfl
  dsimp only
  rw [hr, does_bind]
  apply (advance_does (Or.inl (rfl : _ = (tot : ℤ))) (by rw [hfiles]; exact hwrap)).mono
  rintro _ s₂ rfl
  rw [does_bind]
  apply unlock_keeps
  refine ⟨tot, rfl, hle, fun x hx => ?_, ?_⟩
  · have hview := h₁.view x hx
    rw [contents_withLocked hc h hdev hinum] at hview
    exact hview
  · rw [Core.setFile_files, Function.update_self, hfiles]

/-! ### The serial port -/

/-- Besides the store, how many bytes were received of those that arrive at the serial port. -/
abbrev Serial := Store × ℕ

variable (input : ℕ → Byte)

/-- The bytes are received in the order in which they arrive. -/
def serial : Outside Serial
  | .rx, t => .ok ((t.1, t.2 + 1), input t.2)
  | o, t => (coherent o t.1).map fun r => ((r.1, t.2), r.2)

theorem serial_of_hold {g : List Key} {o : Op} (hg : (hold g o).isSome) (t : Serial) :
    serial input o t = (coherent o t.1).map fun r => ((r.1, t.2), r.2) := by
  cases o with
  | rx => cases hg
  | bread | data | setData | brelease | inode | setInode | file | setFile | proc | setProc
  | freeProc | uload | ustore | tx | null => rfl

/-- A program that leaves the serial port alone does the same without. -/
theorem serial_exec {α : Type} {p : FsM α} {Q : α → List Key → Prop} (h : Holds p [] Q)
    (c : Core) (t : Store) (k : ℕ) : Follows (fun s s' => s' = (s.1, s.2, k)) (fun _ => False)
      (exec coherent p (c, t)) (exec (serial input) p (c, t, k)) := by
  apply Prog.Obeys.follows (R := fun (s : State Store) (s' : State Serial) => s' = (s.1, s.2, k)) _
    (fun _ _ => trivial) h rfl
  rintro o g s _ hg rfl
  unfold Prog.Part.extend
  dsimp only
  cases known o s.1 with
  | none =>
    dsimp only
    rw [serial_of_hold input hg]
    cases coherent o s.2 with
    | error x => exact Or.inr rfl
    | ok r => exact ⟨_, rfl, rfl⟩
  | some x =>
    cases x with
    | error x => exact Or.inr rfl
    | ok r => exact ⟨_, rfl, rfl⟩

theorem serial_rx {E : Panic → Prop} {s : State Serial} {Q : Byte → State Serial → Prop} :
    Prog.Wp (known.extend (serial input)) E rx s Q ↔ Q (input s.2.2) (s.1, s.2.1, s.2.2 + 1) :=
  Iff.rfl

theorem serial_ustore {E : Panic → Prop} {s : State Serial} {a n : ℕ} {src : Mem}
    {Q : Unit → State Serial → Prop} :
    Prog.Wp (known.extend (serial input)) E (Prog.perform (Op.ustore a n src)) s Q ↔
      Q () (s.1, s.2.1.write a n src, s.2.2) := Iff.rfl

/-- As many bytes are received as the loop is asked for, and stored one after the other. -/
theorem readDevice_does (addr k i : ℕ) (c : Core) (t : Store) (j : ℕ) (hi : i + k ≤ addrSpace) :
    Prog.Wp (known.extend (serial input)) (fun _ => False) (FileId.readDevice addr k i) (c, t, j)
      fun _ s' => s'.1 = c ∧ s'.2.2 = j + k ∧ ∀ x < addrSpace, (Buffer.user addr).view s'.2.1 x =
        ((Buffer.user addr).view t).copy i input j k x := by
  induction k generalizing i t j with
  | zero =>
    refine ⟨rfl, rfl, fun x _ => ?_⟩
    rw [Mem.copy_zero]
  | succ k ih =>
    unfold FileId.readDevice
    rw [Prog.wp_bind, serial_rx, Prog.wp_bind, serial_ustore]
    apply (ih (i + 1) _ (j + 1) (by omega)).mono
    rintro _ s' ⟨hcore, htaken, hview⟩
    refine ⟨hcore, by omega, fun x hx => ?_⟩
    have hbyte : ((Buffer.user addr).view t).copy i (fun _ => input j) 0 1 =
        ((Buffer.user addr).view t).copy i input j 1 := by
      funext y
      unfold Mem.copy
      split_ifs with hy
      · rw [Nat.sub_eq_zero_of_le (by omega)]
        rfl
      · rfl
    rw [hview x hx, Mem.copy_congr (Buffer.view_write t addr _ (by omega) hx), hbyte,
      Mem.copy_copy, Nat.add_comm 1 k]

/-! ### What is read is reported -/

/-- The buffer begins with bytes of the source, and nothing else is stored. -/
def Stored (addr : ℕ) (t : Store) (src : Mem) (b r : ℕ) (t' : Store) : Prop :=
  ∀ x < addrSpace, (Buffer.user addr).view t' x = ((Buffer.user addr).view t).copy 0 src b r x

variable (sb) in
/-- The `r` bytes that the buffer begins with come from the file, from its offset on, or are the
next bytes that arrive; and no others are passed over. Nothing comes from a pipe. -/
def Reported (f : FileId) (addr : ℕ) (s : State Serial) (r : ℕ) (s' : State Serial) : Prop :=
  match (s.1.files f).type, (s.1.files f).ip with
  | .inode, some ip =>
    Stored addr s.2.1 (contents sb (s.1.inodes ip).dev (s.1, s.2.1) (s.1.inodes ip).inum)
      (s.1.files f).off r s'.2.1 ∧ (s'.1.files f).off = (s.1.files f).off + r ∧ s'.2.2 = s.2.2
  | .device, _ => Stored addr s.2.1 input s.2.2 r s'.2.1 ∧ s'.2.2 = s.2.2 + r
  | .pipe, _ => Stored addr s.2.1 input s.2.2 0 s'.2.1 ∧ r = 0 ∧ s'.2.2 = s.2.2
  | _, _ => False

theorem balanced_readInode (sb : Superblock) (f : FileId) (ip : Slot) (addr : ℕ) (n : ℤ) :
    Balanced 2 (f.readInode sb ip addr n) := by
  have hfile : Balanced 2 (file f) := balanced_perform fun _ => rfl
  apply ((balanced_lock sb ip).mono one_le_two).bind
  intro _
  apply hfile.bind
  intro x
  apply (balanced_read sb ip _ _ _).bind
  rintro ⟨tot, b⟩
  have hadvance (r : ℤ) : Balanced 2 (f.advance r) := by
    unfold FileId.advance
    split_ifs
    · exact hfile.bind fun _ => balanced_perform fun _ => rfl
    · exact balanced_pure _
  apply (hadvance _).bind
  intro _
  exact (balanced_unlock ip).bind fun _ => balanced_pure _

/-- The serial port plays no part in a read from an inode. -/
theorem readInode_reports {f : FileId} {ip : Slot} {s s' : State Serial} {n : ℕ} {r : ℤ}
    (addr : ℕ) (hl : sb.Laid) (hc : Consistent sb (s.1.inodes ip).dev (s.1, s.2.1))
    (hoff : (s.1.files f).off < 2 ^ 32) (hn : n < 2 ^ 31)
    (he : exec (serial input) (f.readInode sb ip addr n) s = .ok (s', r)) :
    Stored addr s.2.1 (contents sb (s.1.inodes ip).dev (s.1, s.2.1) (s.1.inodes ip).inum)
      (s.1.files f).off r.toNat s'.2.1 ∧
    (s'.1.files f).off = (s.1.files f).off + r.toNat ∧ s'.2.2 = s.2.2 := by
  obtain ⟨c, t, k⟩ := s
  have hsame := serial_exec input (balanced_readInode sb f ip addr n [] le_rfl) c t k
  have hdoes := readInode_does (s := (c, t)) (f := f) (n := n) addr hl hc rfl rfl hoff hn
  rcases hcoherent : exec coherent (f.readInode sb ip addr n) (c, t) with x | ⟨s₁, r₁⟩ <;>
    rw [hcoherent] at hsame
  · rw [hsame.resolve_left not_false] at he
    cases he
  · obtain ⟨s₂, hs₂, rfl⟩ := hsame
    rw [he] at hs₂
    cases hs₂
    obtain ⟨tot, rfl, -, hview, hmoved⟩ := hdoes.of_exec hcoherent
    exact ⟨hview, hmoved, rfl⟩

/-- `File.read` reports what it has stored, but for bytes that it has received from a device: there
it returns 0. -/
theorem FileId.read_reports_iff {f : FileId} {s : State Serial} {n : ℕ} (addr : ℕ) (hl : sb.Laid)
    (hread : (s.1.files f).readable = true) (hoff : (s.1.files f).off < 2 ^ 32) (hn : n < 2 ^ 31)
    (hc : ∀ ip, (s.1.files f).type = .inode → (s.1.files f).ip = some ip →
      Consistent sb (s.1.inodes ip).dev (s.1, s.2.1)) :
    (∀ s' r, exec (serial input) (f.read sb addr n) s = .ok (s', r) → 0 ≤ r →
      Reported sb input f addr s r.toNat s') ↔ ((s.1.files f).type = .device → n = 0) := by
  have hfile : (file f).exec (known.extend (serial input)) s = .ok (s, s.1.files f) := rfl
  have hreadable : ¬(s.1.files f).readable = false := by
    rw [hread]
    exact Bool.noConfusion
  unfold exec FileId.read
  rw [Prog.exec_bind_of_ok hfile, if_neg hreadable]
  cases htype : (s.1.files f).type with
  | none =>
    constructor
    · exact fun _ h => Ft.noConfusion h
    · intro _ s' r he
      cases he
  | pipe =>
    constructor
    · exact fun _ h => Ft.noConfusion h
    · intro _ s' r he _
      cases he
      unfold Reported
      rw [htype]
      exact ⟨fun x _ => by rw [Mem.copy_zero], rfl, rfl⟩
  | inode =>
    constructor
    · exact fun _ h => Ft.noConfusion h
    · intro _ s' r he _
      cases hip : (s.1.files f).ip with
      | none =>
        rw [hip] at he
        cases he
      | some ip =>
        rw [hip] at he
        unfold Reported
        rw [htype, hip]
        exact readInode_reports input addr hl (hc ip htype hip) hoff hn he
  | device =>
    have hspace : 2 ^ 31 ≤ addrSpace := by decide
    have hdoes := readDevice_does input addr n 0 s.1 s.2.1 s.2.2 (by omega)
    obtain ⟨s₁, hexec⟩ : ∃ s₁, (FileId.readDevice addr n 0).exec (known.extend (serial input)) s =
        .ok (s₁, ()) := by
      unfold Prog.Wp at hdoes
      rcases he : (FileId.readDevice addr n 0).exec (known.extend (serial input)) s with x | y
      · rw [he] at hdoes
        exact hdoes.elim
      · exact ⟨y.1, rfl⟩
    obtain ⟨-, htaken, hview⟩ := hdoes.of_exec hexec
    dsimp only
    rw [Int.toNat_natCast, Prog.exec_bind_of_ok hexec]
    constructor
    · intro h _
      have hreported := h s₁ 0 rfl le_rfl
      unfold Reported at hreported
      rw [htype] at hreported
      have hnone := hreported.2
      rw [htaken] at hnone
      exact Nat.add_left_cancel hnone
    · intro hz s' r he _
      cases he
      unfold Reported
      rw [htype]
      rw [hz rfl] at htaken hview
      exact ⟨hview, htaken⟩

/-- The file of the serial port, and a process with memory of zeros. -/
def terminal : State Serial :=
  (Core.init.setFile file₀ { File.init with type := .device, refcnt := 1, readable := true },
    ⟨fun _ _ => 0, fun _ => 0⟩, 0)

/-- One byte is asked for. -/
theorem FileId.read_reports_iff_terminal :
    (∀ s' r, exec (serial fun _ => 65) (file₀.read smallSb 64 1) terminal = .ok (s', r) → 0 ≤ r →
      Reported smallSb (fun _ => 65) file₀ 64 terminal r.toNat s') ↔
      ((terminal.1.files file₀).type = .device → 1 = 0) :=
  FileId.read_reports_iff (f := file₀) (n := 1) (fun _ => 65) 64 smallSb_laid rfl (by decide)
    (by decide) fun _ h => Ft.noConfusion h

/-- A byte is received, stored and not reported. -/
theorem read_loses_input : ¬∀ s' r,
    exec (serial fun _ => 65) (file₀.read smallSb 64 1) terminal = .ok (s', r) → 0 ≤ r →
      Reported smallSb (fun _ => 65) file₀ 64 terminal r.toNat s' := by
  intro h
  have hreported := h _ 0 rfl le_rfl
  exact absurd hreported.2 (by decide)

end Multiplix.Fs
