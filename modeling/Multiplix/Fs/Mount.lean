import Multiplix.Fs.Resolve

/-! Mounting a device, and looking up a file in its root. -/
namespace Multiplix.Fs
open Lib

def FSMAGIC : ℕ := 0x10203040

def Superblock.load (d : Mem) : Superblock :=
  ⟨d.load 4 4, d.load 4 8, d.load 4 12, d.load 4 24, d.load 4 28⟩

/-- The magic number is returned beside the fields that are used later. -/
def readsb (dev : ℕ) : FsM (ℕ × Superblock) := do
  let bp ← bread dev 1
  let d ← data bp
  brelease bp
  pure (d.load 4 0, .load d)

/-- `none` stands for the assertion that the file system is valid. -/
def fsinit (dev : ℕ) : FsM (Option Superblock) := do
  let (magic, sb) ← readsb dev
  pure (if magic ≠ FSMAGIC then none else some sb)

variable {sb : Superblock} {d : ℕ} {s : State Store} {E : Panic → Prop} {ip : Slot} {n m : ℕ}

theorem fsinit_does : Does E (fsinit d) s fun r s' => s' = s ∧
    r = if (s.2.dev d 1).load 4 0 ≠ FSMAGIC then none else some (.load (s.2.dev d 1)) := by
  unfold fsinit readsb
  rw [does_bind, does_bind, does_bread, does_bind, does_data, does_bind, does_brelease, does_pure,
    does_pure]
  exact ⟨rfl, rfl⟩

/-! ### An entry whose block is there -/

/-- A piece of one block is read in one turn. -/
theorem readLoop_piece (m : Mem) {off c : ℕ} (k : ℕ) (hc : 0 < c) (hin : off % BSIZE + c ≤ BSIZE)
    (hmax : off < MAXFILE * BSIZE)
    (hne : (s.1.inodes ip).pointer (s.2.dev (s.1.inodes ip).dev) (place (off / BSIZE)) ≠ 0) :
    Does E (ip.readLoop sb (k + 1) (.kernel m) off 0 c) s fun r s' => s' = s ∧ r =
      (c, .kernel (m.copy 0 ((s.1.inodes ip).contents (s.2.dev (s.1.inodes ip).dev)) off c)) := by
  have hmin : min (c - 0) (BSIZE - off % BSIZE) = c := by omega
  have hpiece := copy_contents m 0 hne hin
  have hend (dst : Buffer) : ip.readLoop sb k dst (off + c) (0 + c) c = pure (0 + c, dst) := by
    cases k with
    | zero => rfl
    | succ k => exact if_neg (by omega)
  unfold Slot.readLoop
  rw [if_pos hc, does_bind]
  apply (bmap_mapped (div_lt_maxfile hmax) hne).mono
  rintro a s₁ ⟨rfl, rfl⟩
  rw [if_neg hne, does_bind, does_inode, does_bind, does_bread, hmin, does_bind, does_data,
    does_bind, Buffer.put_kernel, does_bind, does_brelease, hend, does_pure, Nat.zero_add]
  exact ⟨rfl, congrArg (fun m => (c, Buffer.kernel m)) hpiece⟩

theorem readEntry_mapped (de : Mem) {off : ℕ} (hoff : off % Dirent.size = 0)
    (hle : off + Dirent.size ≤ (s.1.inodes ip).size)
    (hsize : (s.1.inodes ip).size ≤ MAXFILE * BSIZE)
    (hne : (s.1.inodes ip).pointer (s.2.dev (s.1.inodes ip).dev) (place (off / BSIZE)) ≠ 0) :
    Does E (ip.readEntry sb de off) s fun de' s' => s' = s ∧
      de' = de.copy 0 ((s.1.inodes ip).contents (s.2.dev (s.1.inodes ip).dev)) off Dirent.size := by
  have hentry : Dirent.size = 15 + 1 := rfl
  have hlimit : MAXFILE * BSIZE < 2 ^ 32 := by decide
  have hguard : ¬(off > (s.1.inodes ip).size ∨ (off + Dirent.size) % 2 ^ 32 < off) := by
    rw [Nat.mod_eq_of_lt (by omega)]
    omega
  have hin : off % BSIZE + Dirent.size ≤ BSIZE := by
    rw [hentry] at hoff ⊢
    rw [show BSIZE = 1024 from rfl]
    omega
  unfold Slot.readEntry Slot.read
  rw [does_bind, does_bind, does_inode, if_neg hguard, if_neg (Nat.not_lt.mpr hle)]
  apply (readLoop_piece de 15 (by decide) hin (by omega) hne).mono
  rintro r s₁ ⟨rfl, rfl⟩
  dsimp only
  rw [if_pos rfl]
  exact ⟨rfl, rfl⟩

/-- A name is found among the next `j` entries, whose blocks are there. -/
theorem lookupLoop_mapped {name : Mem} {Q : Option Slot → State Store → Prop} (j : ℕ) {k off : ℕ}
    (hk : j ≤ k) (hoff : off % Dirent.size = 0)
    (hle : off + Dirent.size * j ≤ (s.1.inodes ip).size)
    (hsize : (s.1.inodes ip).size ≤ MAXFILE * BSIZE)
    (hmap : (s.1.inodes ip).MappedOn (s.2.dev (s.1.inodes ip).dev) off (Dirent.size * j))
    (hfind : inumOf (entriesFrom ((s.1.inodes ip).contents (s.2.dev (s.1.inodes ip).dev)) j off)
      (nameOf name) = some m)
    (hQ : Does E (found (s.1.inodes ip).dev (some m)) s Q) :
    Does E (ip.lookupLoop sb name k off) s Q := by
  induction j generalizing k off with
  | zero => cases hfind
  | succ j ih =>
    obtain ⟨k, rfl⟩ : ∃ k', k = k' + 1 := Nat.exists_eq_add_one.mpr (by omega)
    have hpos : 0 < Dirent.size := by decide
    rw [Nat.mul_succ] at hle hmap
    unfold Slot.lookupLoop
    rw [does_bind, does_inode, if_pos (by omega), does_bind]
    apply (readEntry_mapped Dirent.init hoff (by omega) hsize (hmap off le_rfl (by omega))).mono
    rintro de s₁ ⟨rfl, rfl⟩
    have hentry := entryOf_copy Dirent.init
      ((s₁.1.inodes ip).contents (s₁.2.dev (s₁.1.inodes ip).dev)) off
    rw [entriesFrom, inumOf_cons, ← hentry] at hfind
    have hskip (hnot : ¬Entry.Has (entryOf (Dirent.init.copy 0
        ((s₁.1.inodes ip).contents (s₁.2.dev (s₁.1.inodes ip).dev)) off Dirent.size))
        (nameOf name)) : Does E (ip.lookupLoop sb name k (off + Dirent.size)) s₁ Q := by
      rw [if_neg hnot] at hfind
      exact ih (by omega) (by rw [Nat.add_mod_right, hoff]) (by omega)
        (hmap.mono (by omega) (by omega)) hfind
    split_ifs with hfree hmatch
    · exact hskip fun hhas => hhas.1 hfree
    · rw [namecmp_eq_zero] at hmatch
      rw [if_pos ⟨hfree, hmatch.symm⟩, Option.some.injEq] at hfind
      rw [← hfind] at hQ
      exact hQ
    · rw [namecmp_eq_zero] at hmatch
      exact hskip fun hhas => hmatch hhas.2.symm

/-! ### A file in the root -/

/-- The first `j` entries of a directory are there, and the name leads to `m`. -/
structure Lists (sb : Superblock) (disk : ℕ → Mem) (n j : ℕ) (name : List Byte) (m : ℕ) : Prop where
  type : (dinode sb disk n).type = T_DIR
  nlink : (dinode sb disk n).nlink ≠ 0
  size : (dinode sb disk n).size ≤ MAXFILE * BSIZE
  le : Dirent.size * j ≤ (dinode sb disk n).size
  mapped : (dinode sb disk n).MappedOn disk 0 (Dirent.size * j)
  find : inumOf (entriesFrom ((dinode sb disk n).contents disk) j 0) name = some m

variable {t : Store} {T : Set ℕ} {refs base : Slot → ℤ} {path : ℕ} {str rest : List Byte}

theorem Rests.lookup_lists {name : Mem} {j : ℕ} (h : Rests sb d t T refs s) (hn : n ∈ T)
    (hip : s.1.Caches d n ip) (hl : Lists sb (t.dev d) n j (nameOf name) m)
    (hE : (∀ ip, refs ip ≠ 0) → E .noInodes) : Does E (ip.lookup sb name) s fun r s' =>
      ∃ jp, r = some jp ∧ Rests sb d t T (refs + Pi.single jp 1) s' ∧ s'.1.Caches d n ip ∧
        s'.1.Holds d m jp := by
  have hsame := h.synced n hn ip hip
  rw [h.store] at hsame
  have hdev : s.2.dev (s.1.inodes ip).dev = t.dev d := by
    rw [hip.1.2.1, h.store]
  have hcontents := Inode.contents_of_addrs hsame.addrs (t.dev d)
  unfold Slot.lookup
  rw [does_bind, does_inode, if_pos (hsame.type.trans hl.type)]
  apply lookupLoop_mapped (m := m) j
  · have hle : j ≤ (s.1.inodes ip).size / Dirent.size := by
      rw [Nat.le_div_iff_mul_le (by decide), Nat.mul_comm, hsame.size]
      exact hl.le
    omega
  · rfl
  · rw [Nat.zero_add, hsame.size]
    exact hl.le
  · rw [hsame.size]
    exact hl.size
  · intro x hx hx'
    rw [hdev, Inode.pointer_of_addrs hsame.addrs]
    exact hl.mapped x hx hx'
  · rw [hdev, hcontents]
    exact hl.find
  · unfold found
    rw [hip.1.2.1, does_bind]
    apply (h.iget_does hE).mono
    rintro jp s₂ ⟨h₂, hj, hkeep⟩
    exact ⟨jp, rfl, h₂, hkeep ip n hip, hj⟩

/-- At the end of a path. -/
theorem namexLoop_end (htext : Text s.2.user path str) (hr : rest <:+ str)
    (hend : pieces slash rest = []) (k : ℕ) (hk : 0 < k) (name : Mem) :
    Does E (namexLoop sb false k ip (posOf path str rest) name) s fun r s' =>
      s' = s ∧ r.1 = some ip := by
  obtain ⟨k, rfl⟩ : ∃ k', k = k' + 1 := Nat.exists_eq_add_one.mpr hk
  unfold namexLoop
  rw [does_bind]
  apply (skipelem_does htext hr name).mono
  rintro ⟨r, name'⟩ s₁ ⟨rfl, hskip⟩
  cases hskip.none hend
  exact ⟨rfl, rfl⟩

/-- A name is followed in a directory that lists it. -/
theorem namexLoop_lists (hE : Crowded base → E .noInodes) (htext : Text t.user path str)
    (hr : rest <:+ str) {c : List Byte} (hpieces : pieces slash rest = [c]) {j : ℕ}
    (h : Rests sb d t T (base + Pi.single ip 1) s) (hip : s.1.Holds d n ip) (hn : n ∈ T)
    (hl : Lists sb (t.dev d) n j (c.take DIRSIZ) m) (k : ℕ) (hk : 1 < k) (name : Mem) :
    Does E (namexLoop sb false k ip (posOf path str rest) name) s fun r s' =>
      ∃ jp, r.1 = some jp ∧ s'.1.Holds d m jp ∧ Rests sb d t T (base + Pi.single jp 1) s' := by
  obtain ⟨k, rfl⟩ : ∃ k', k = k' + 1 := Nat.exists_eq_add_one.mpr (by omega)
  have htext' : Text s.2.user path str := h.store ▸ htext
  have htype : (dinode sb (t.dev d) n).type ≠ 0 := by
    rw [hl.type]
    decide
  unfold namexLoop
  rw [does_bind]
  apply (skipelem_does htext' hr name).mono
  rintro ⟨r, name'⟩ s₁ ⟨rfl, hskip⟩
  obtain ⟨rest', hr', -, hrest', -, hpos, hname⟩ := hskip.some c [] hpieces
  dsimp only at hpos hname
  subst hpos
  dsimp only
  rw [does_bind]
  apply (h.lock_does hn htype hip).mono
  rintro _ s₂ ⟨h₂, hip₂⟩
  have hsame := h₂.synced n hn ip hip₂
  rw [h₂.store] at hsame
  rw [does_bind, does_inode, if_neg (not_not.mpr (hsame.type.trans hl.type)),
    if_neg Bool.false_ne_true, does_bind, does_pure, if_neg fun hp => Bool.false_ne_true hp.1,
    does_bind]
  rw [← hname] at hl
  apply (h₂.lookup_lists hn hip₂ hl fun hfull => hE (crowded_of_full hfull)).mono
  rintro r s₃ ⟨jp, rfl, h₃, hip₃, hj⟩
  dsimp only
  rw [does_bind]
  apply (h₃.unlockput_does hn hl.nlink hip₃.1).mono
  rintro _ s₄ ⟨h₄, hkeep⟩
  obtain ⟨h₅, hpos⟩ := refs_moved h hip h₃ hj h₄
  apply (namexLoop_end (h₅.store ▸ htext) hr' hrest' k (by omega) name').mono
  rintro r s₅ ⟨rfl, hr⟩
  exact ⟨jp, hr, hkeep jp m hj hpos, h₅⟩

/-- A file in the root is found by its name. -/
theorem namei_lists (hs : Synced sb ROOTDEV T s) (hroot : ROOTINO ∈ T)
    (htext : Text s.2.user path str) (habs : str.head? = some slash) {c : List Byte}
    (hpieces : pieces slash str = [c]) {j : ℕ}
    (hl : Lists sb (s.2.dev ROOTDEV) ROOTINO j (c.take DIRSIZ) m) (cwd : Slot) :
    Does (fun x => x = .noInodes ∧ Crowded s.1.refs) (namei sb cwd path) s fun r s' =>
      ∃ jp, r = some jp ∧ s'.1.Holds ROOTDEV m jp ∧
        Rests sb ROOTDEV s.2 T (s.1.refs + Pi.single jp 1) s' := by
  have hpos : posOf path str str = path := by
    unfold posOf
    rw [Nat.sub_self, Nat.add_zero]
  have hrests : Rests sb ROOTDEV s.2 T s.1.refs s := ⟨rfl, hs, rfl⟩
  unfold namei namex
  rw [does_bind, does_bind, ← hpos]
  apply htext.uchar_does (List.suffix_refl str)
  rw [if_pos (head?_iff.mpr habs), does_bind]
  apply (hrests.iget_does fun hfull => ⟨rfl, fun a _ ha _ => absurd ha (hfull a)⟩).mono
  rintro ip s₁ ⟨h₁, hip, -⟩
  apply (namexLoop_lists (fun hcrowd => ⟨rfl, hcrowd⟩) htext (List.suffix_refl str) hpieces h₁ hip
    hroot hl addrSpace (by decide) nameInit).mono
  rintro ⟨r, name⟩ s₂ ⟨jp, hr, hj, h₂⟩
  exact ⟨jp, hr, hj, h₂⟩

end Multiplix.Fs
