import Multiplix.Fs.Contents

/-! A directory is a list of entries. `lookup` finds the first one with a name, and `link` replaces
a free one or adds one at the end. -/
namespace Multiplix.Fs
open Lib

/-! ### Names -/

/-- The characters up to the end of the string, `n` at most. -/
def chars (a : Mem) : ℕ → ℕ → List Byte
  | 0, _ => []
  | n + 1, x => if a x = 0 then [] else a x :: chars a n (x + 1)

theorem strncmp_eq_zero {a b : Mem} {n x : ℕ} :
    strncmp a b n x = 0 ↔ chars a n x = chars b n x := by
  induction n generalizing x with
  | zero => exact iff_of_true rfl rfl
  | succ n ih =>
    unfold strncmp chars
    by_cases hab : a x = b x
    · by_cases hb : b x = 0
      · simp [hab, hb]
      · have hgo : ¬(a x = 0 ∨ b x = 0 ∨ a x ≠ b x) := by
          rw [hab]
          exact fun h => h.elim hb fun h => h.elim hb fun h => h rfl
        rw [if_neg hgo, ih, hab, if_neg hb, if_neg hb, List.cons.injEq,
          eq_self, true_and]
    · have hne : (a x).toNat ≠ (b x).toNat := fun h => hab (BitVec.eq_of_toNat_eq h)
      have hcmp : a x > b x ∨ a x < b x := by
        rw [gt_iff_lt, BitVec.lt_def, BitVec.lt_def]
        omega
      have hleft : ¬(if a x > b x then 1 else if a x < b x then -1 else 0 : ℤ) = 0 := by
        split_ifs with h h'
        · exact one_ne_zero
        · exact not_false
        · exact absurd hcmp (not_or.mpr ⟨h, h'⟩)
      rw [if_pos (Or.inr (Or.inr hab))]
      refine iff_of_false hleft ?_
      split_ifs with ha hb hb
      · exact absurd (ha.trans hb.symm) hab
      · exact not_false
      · exact not_false
      · exact fun h => hab (List.cons.inj h).1

/-- A name, of which at most 14 characters count. -/
def nameOf (a : Mem) : List Byte := chars a DIRSIZ 0

theorem namecmp_eq_zero {a b : Mem} : namecmp a b = 0 ↔ nameOf a = nameOf b := strncmp_eq_zero

theorem chars_congr {a b : Mem} {n x : ℕ} (h : ∀ y, x ≤ y → y < x + n → b y = a y) :
    chars b n x = chars a n x := by
  induction n generalizing x with
  | zero => rfl
  | succ n ih =>
    unfold chars
    rw [h x le_rfl (by omega), ih fun y hy hy' => h y (by omega) (by omega)]

/-! ### Entries -/

/-- The inode number and the name of an entry. -/
abbrev Entry := ℕ × List Byte

def entryOf (de : Mem) : Entry := (Dirent.inum de, nameOf (Dirent.name de))

/-- The entry at `off` in a directory with these contents. -/
def entryAt (f : Mem) (off : ℕ) : Entry := entryOf fun x => f (off + x)

/-- The next `n` entries from `off` on. -/
def entriesFrom (f : Mem) : ℕ → ℕ → List Entry
  | 0, _ => []
  | n + 1, off => entryAt f off :: entriesFrom f n (off + Dirent.size)

def entries (f : Mem) (size : ℕ) : List Entry := entriesFrom f (size / Dirent.size) 0

/-- The entry is in use, and has the name. -/
def Entry.Has (e : Entry) (name : List Byte) : Prop := e.1 ≠ 0 ∧ e.2 = name

instance (e : Entry) (name : List Byte) : Decidable (e.Has name) :=
  inferInstanceAs (Decidable (_ ∧ _))

/-- The inode number under a name. -/
def inumOf (l : List Entry) (name : List Byte) : Option ℕ :=
  (l.find? fun e => e.Has name).map Prod.fst

theorem entryOf_congr {de de' : Mem} (h : ∀ x < Dirent.size, de' x = de x) :
    entryOf de' = entryOf de := by
  have hinum : Dirent.inum de' = Dirent.inum de :=
    Mem.load_congr fun x _ hx => h x (hx.trans_le (by decide))
  have hname : nameOf (Dirent.name de') = nameOf (Dirent.name de) :=
    chars_congr fun y _ hy => h (2 + y) (by
      have hlt : y < 0 + 14 := hy
      have hsize : Dirent.size = 16 := rfl
      omega)
  unfold entryOf
  rw [hinum, hname]

theorem entryOf_copy (de f : Mem) (off : ℕ) :
    entryOf (de.copy 0 f off Dirent.size) = entryAt f off := by
  apply entryOf_congr
  intro x hx
  rw [Mem.copy_inside _ _ _ (Nat.zero_le _) (by omega), Nat.sub_zero]

/-- The loop of `link`, on the contents: the next `n` entries are read, up to a free one. -/
def scan (f : Mem) : ℕ → Mem → ℕ → Mem × ℕ
  | 0, de, off => (de, off)
  | n + 1, de, off =>
    if Dirent.inum (de.copy 0 f off Dirent.size) = 0 then (de.copy 0 f off Dirent.size, off)
    else scan f n (de.copy 0 f off Dirent.size) (off + Dirent.size)

/-- What `link` finds: what is read last, and where the new entry goes. -/
def freeEntry (f : Mem) (size : ℕ) : Mem × ℕ := scan f (size / Dirent.size) Dirent.init 0

theorem entriesFrom_add (f : Mem) (n k off : ℕ) : entriesFrom f (n + k) off =
    entriesFrom f n off ++ entriesFrom f k (off + Dirent.size * n) := by
  induction n generalizing off with
  | zero => simp [entriesFrom]
  | succ n ih =>
    rw [Nat.succ_add, entriesFrom, entriesFrom, ih, List.cons_append, Nat.mul_succ]
    congr 3
    omega

theorem entriesFrom_congr {f f' : Mem} {n off : ℕ}
    (h : ∀ x, off ≤ x → x < off + Dirent.size * n → f' x = f x) :
    entriesFrom f' n off = entriesFrom f n off := by
  induction n generalizing off with
  | zero => rfl
  | succ n ih =>
    rw [Nat.mul_succ] at h
    unfold entriesFrom
    congr 1
    · exact entryOf_congr fun x hx => h (off + x) (by omega) (by omega)
    · exact ih fun x hx hx' => h x (by omega) (by omega)

/-- The new entry goes to a free one, or to the end. -/
theorem scan_spec (f : Mem) (n : ℕ) (de : Mem) (off : ℕ) : ∃ k ≤ n,
    (scan f n de off).2 = off + Dirent.size * k ∧
    (k < n → (entryAt f (off + Dirent.size * k)).1 = 0) := by
  induction n generalizing de off with
  | zero => exact ⟨0, le_rfl, rfl, fun h => absurd h (lt_irrefl _)⟩
  | succ n ih =>
    unfold scan
    split_ifs with hfree
    · refine ⟨0, Nat.zero_le _, rfl, fun _ => ?_⟩
      have hentry := entryOf_copy de f off
      rw [Nat.mul_zero, Nat.add_zero, ← hentry]
      exact hfree
    · obtain ⟨k, hk, hoff, hlast⟩ := ih (de.copy 0 f off Dirent.size) (off + Dirent.size)
      have hadd : off + Dirent.size * (k + 1) = off + Dirent.size + Dirent.size * k := by
        rw [Nat.mul_succ]
        omega
      exact ⟨k + 1, by omega, by rw [hoff, hadd], fun hlt => by
        rw [hadd]
        exact hlast (by omega)⟩

/-- The first free entry. -/
def firstFree (l : List Entry) : Option Entry := l.find? fun e => e.1 = 0

/-- The name that the new entry gets: that of the first free entry, or of the last entry, or what
was in the variable before. -/
theorem scan_name (f : Mem) (n : ℕ) (de : Mem) (off : ℕ) :
    nameOf (Dirent.name (scan f n de off).1) =
      match firstFree (entriesFrom f n off) with
      | some e => e.2
      | none => ((entriesFrom f n off).getLast?.map Prod.snd).getD (nameOf (Dirent.name de)) := by
  induction n generalizing de off with
  | zero => rfl
  | succ n ih =>
    have hentry := entryOf_copy de f off
    have hname : nameOf (Dirent.name (de.copy 0 f off Dirent.size)) = (entryAt f off).2 := by
      rw [← hentry]
      rfl
    have hinum : Dirent.inum (de.copy 0 f off Dirent.size) = (entryAt f off).1 := by
      rw [← hentry]
      rfl
    unfold scan entriesFrom firstFree
    rw [hinum, List.find?_cons]
    split_ifs with hfree
    · rw [decide_eq_true hfree]
      exact hname
    · rw [decide_eq_false hfree, ih, hname]
      dsimp only
      unfold firstFree
      cases (entriesFrom f n (off + Dirent.size)).find? fun e => decide (e.1 = 0) with
      | some e => rfl
      | none =>
        dsimp only
        rw [List.getLast?_cons]
        cases (entriesFrom f n (off + Dirent.size)).getLast? with
        | some e => rfl
        | none => rfl

theorem inumOf_append (l l' : List Entry) (name : List Byte) :
    inumOf (l ++ l') name = (inumOf l name).or (inumOf l' name) := by
  unfold inumOf
  rw [List.find?_append, Option.map_or]

theorem inumOf_cons (e : Entry) (l : List Entry) (name : List Byte) :
    inumOf (e :: l) name = if e.Has name then some e.1 else inumOf l name := by
  unfold inumOf
  rw [List.find?_cons]
  split_ifs with h
  · rw [decide_eq_true h]
    rfl
  · rw [decide_eq_false h]

/-- The entry that is used next has the name already: the first free one, or in a directory without
entries the initial value of the variable. -/
def HasAlready (l : List Entry) (name : List Byte) : Prop :=
  (firstFree l).map Prod.snd = some name ∨ l = [] ∧ name = List.replicate DIRSIZ 0xFF

instance (l : List Entry) (name : List Byte) : Decidable (HasAlready l name) :=
  inferInstanceAs (Decidable (_ ∨ _ ∧ _))

theorem freeEntry_name {f : Mem} {size : ℕ} {name : List Byte}
    (habsent : inumOf (entries f size) name = none) :
    nameOf (Dirent.name (freeEntry f size).1) = name ↔ HasAlready (entries f size) name := by
  have hinit : nameOf (Dirent.name Dirent.init) = List.replicate DIRSIZ 0xFF := by decide
  unfold freeEntry
  rw [scan_name, hinit]
  unfold HasAlready
  change _ ↔ (firstFree (entries f size)).map Prod.snd = some name ∨ entries f size = [] ∧ _
  have hlist : entriesFrom f (size / Dirent.size) 0 = entries f size := rfl
  rw [hlist]
  cases hfree : firstFree (entries f size) with
  | some e =>
    have hne : entries f size ≠ [] := by
      intro hnil
      rw [hnil] at hfree
      cases hfree
    simp [hne]
  | none =>
    cases hlast : (entries f size).getLast? with
    | none =>
      rw [List.getLast?_eq_none_iff] at hlast
      simp [hlast, eq_comm]
    | some e =>
      -- the last entry is in use under another name
      have hmem := List.mem_of_getLast? hlast
      have hused : e.1 ≠ 0 := by
        intro hz
        exact List.find?_eq_none.mp hfree e hmem (decide_eq_true hz)
      have hother : e.2 ≠ name := by
        intro hname
        unfold inumOf at habsent
        rw [Option.map_eq_none_iff, List.find?_eq_none] at habsent
        exact habsent e hmem (decide_eq_true ⟨hused, hname⟩)
      have hne : entries f size ≠ [] := List.ne_nil_of_mem hmem
      simp [hother, hne]

/-- A new entry is put in, at a free one or at the end. -/
theorem entries_link {f g : Mem} {size inum : ℕ} (hsize : size % Dirent.size = 0)
    (hinum : inum < 2 ^ 16) (hg : g = (freeEntry f size).1.store 2 0 inum) :
    ∃ A mid B, entries f size = A ++ mid ++ B ∧ (∀ e ∈ mid, e.1 = 0) ∧
      entries (f.copy (freeEntry f size).2 g 0 Dirent.size)
        (max size ((freeEntry f size).2 + Dirent.size)) =
        A ++ (inum, nameOf (Dirent.name (freeEntry f size).1)) :: B := by
  obtain ⟨k, hk, hoff, hfree⟩ := scan_spec f (size / Dirent.size) Dirent.init 0
  have hpos : 0 < Dirent.size := by decide
  have hback := Nat.div_add_mod size Dirent.size
  rw [Nat.zero_add] at hoff hfree
  have hstop : (freeEntry f size).2 = Dirent.size * k := hoff
  have hentry : entryAt (f.copy (Dirent.size * k) g 0 Dirent.size) (Dirent.size * k) =
      (inum, nameOf (Dirent.name (freeEntry f size).1)) := by
    have hbytes (x : ℕ) (hx : x < Dirent.size) :
        f.copy (Dirent.size * k) g 0 Dirent.size (Dirent.size * k + x) = g x := by
      rw [Mem.copy_inside _ _ _ (Nat.le_add_right _ _) (by omega)]
      congr 1
      omega
    have hinumOf : Dirent.inum g = inum := by
      rw [hg]
      exact Mem.load_store_word _ _ hinum
    have hname : nameOf (Dirent.name g) = nameOf (Dirent.name (freeEntry f size).1) := by
      rw [hg]
      exact chars_congr fun y _ _ => Mem.store_outside _ _ (Or.inr (Nat.le_add_right _ _))
    unfold entryAt
    rw [entryOf_congr hbytes, entryOf, hinumOf, hname]
  have hbefore : entriesFrom (f.copy (Dirent.size * k) g 0 Dirent.size) k 0 = entriesFrom f k 0 :=
    entriesFrom_congr fun x _ hx => Mem.copy_outside _ _ _ (Or.inl (by omega))
  rw [hstop]
  rcases hk.lt_or_eq with hlt | rfl
  · -- a free entry is used
    obtain ⟨r, hr⟩ := Nat.exists_eq_add_of_lt hlt
    have hcount : size / Dirent.size = k + (1 + r) := by omega
    have hmax : max size (Dirent.size * k + Dirent.size) = size := by
      have hmul := Nat.mul_le_mul_left Dirent.size hlt
      rw [Nat.succ_eq_add_one, Nat.mul_add, Nat.mul_one] at hmul
      omega
    refine ⟨entriesFrom f k 0, [entryAt f (Dirent.size * k)],
      entriesFrom f r (Dirent.size * k + Dirent.size), ?_, ?_, ?_⟩
    · unfold entries
      rw [hcount, entriesFrom_add, Nat.add_comm 1 r, entriesFrom, Nat.zero_add, List.append_assoc]
      rfl
    · intro e he
      rw [List.mem_singleton.mp he]
      exact hfree hlt
    · unfold entries
      rw [hmax, hcount, entriesFrom_add, hbefore, Nat.add_comm 1 r, entriesFrom, Nat.zero_add,
        hentry, entriesFrom_congr fun x hx _ => Mem.copy_outside _ _ _ (Or.inr hx)]
  · have hsame : Dirent.size * (size / Dirent.size) = size := by omega
    have hmax : max size (size + Dirent.size) = size + Dirent.size := by omega
    refine ⟨entriesFrom f (size / Dirent.size) 0, [], [], ?_, ?_, ?_⟩
    · rw [List.append_nil, List.append_nil]
      rfl
    · intro e he
      exact absurd he List.not_mem_nil
    · unfold entries
      rw [hsame] at hbefore hentry ⊢
      rw [hmax, Nat.add_div_right _ hpos, entriesFrom_add, hbefore,
        entriesFrom, Nat.zero_add, hsame, hentry]
      rfl

/-! ### The loops over the entries -/

variable {sb : Superblock} {d : ℕ} {s s' : State Store} {E : Panic → Prop}

/-- Blocks of a file with these bytes are found, in any state that `I` holds of, unless none is
left where the file has a hole. -/
structure Reader (sb : Superblock) (E : Panic → Prop) (d : ℕ) (ip : Slot) (size : ℕ) (f : Mem)
    (short : Prop) (I : State Store → Prop) : Prop where
  inode : ∀ s, I s → (s.1.inodes ip).dev = d ∧ (s.1.inodes ip).size = size
  bmap : ∀ s, I s → ∀ bn, bn * BSIZE < size → Does E (ip.bmap sb bn) s fun a s' =>
    I s' ∧ (a = 0 → short) ∧ (a ≠ 0 → ∀ y < BSIZE, s'.2.disk (d, a) y = f (bn * BSIZE + y))

/-- What `lookup` does at its end, for the inode number that it found. -/
def found (d : ℕ) : Option ℕ → FsM (Option Slot)
  | none => pure none
  | some inum => do
    let ip ← iget d inum
    pure (some ip)

namespace Reader

variable {ip : Slot} {size : ℕ} {f : Mem} {short : Prop} {I : State Store → Prop}
  (R : Reader sb E d ip size f short I)

include R

theorem readLoop_does (k : ℕ) (m : Mem) (off tot n : ℕ) (hs : I s) (hk : n - tot ≤ k)
    (htot : tot ≤ n) (hsize : off + (n - tot) ≤ size) :
    Does E (ip.readLoop sb k (.kernel m) off tot n) s fun r s' =>
      I s' ∧ tot ≤ r.1 ∧ r.1 ≤ n ∧ (r.1 < n → short) ∧
        r.2 = .kernel (m.copy tot f off (r.1 - tot)) := by
  induction k generalizing s m off tot with
  | zero =>
    obtain rfl : tot = n := by omega
    refine ⟨hs, le_rfl, le_rfl, fun h => absurd h (lt_irrefl _), ?_⟩
    rw [Nat.sub_self, Mem.copy_zero]
  | succ k ih =>
    unfold Slot.readLoop
    split_ifs with hlt
    · have hpos : off % BSIZE < BSIZE := Nat.mod_lt _ (by decide)
      have hle := Nat.div_mul_le_self off BSIZE
      have hback := Nat.div_add_mod' off BSIZE
      rw [does_bind]
      apply (R.bmap s hs (off / BSIZE) (by omega)).mono
      rintro a s₁ ⟨hs₁, hstop, hblock⟩
      by_cases ha : a = 0
      · rw [if_pos ha]
        refine ⟨hs₁, le_rfl, htot, fun _ => hstop ha, ?_⟩
        rw [Nat.sub_self, Mem.copy_zero]
      rw [if_neg ha, does_bind, does_inode, (R.inode s₁ hs₁).1, does_bind, does_bread, does_bind,
        does_data, does_bind, Buffer.put_kernel, does_bind, does_brelease]
      have hm : off % BSIZE + min (n - tot) (BSIZE - off % BSIZE) ≤ BSIZE := by omega
      have hleft : min (n - tot) (BSIZE - off % BSIZE) ≤ n - tot := min_le_left _ _
      have hstep : 0 < min (n - tot) (BSIZE - off % BSIZE) := by omega
      generalize min (n - tot) (BSIZE - off % BSIZE) = c at hm hleft hstep ⊢
      have hpiece : m.copy tot (s₁.2.disk (d, a)) (off % BSIZE) c = m.copy tot f off c := by
        funext x
        by_cases hin : tot ≤ x ∧ x < tot + c
        · rw [Mem.copy_inside _ _ _ hin.1 hin.2, Mem.copy_inside _ _ _ hin.1 hin.2,
            hblock ha _ (by omega)]
          congr 1
          omega
        · rw [Mem.copy_outside _ _ _ (by omega), Mem.copy_outside _ _ _ (by omega)]
      rw [hpiece]
      apply (ih _ (off + c) (tot + c) hs₁ (by omega) (by omega) (by omega)).mono
      rintro r s' ⟨hs', hge, hle', hshort, hr⟩
      refine ⟨hs', by omega, hle', hshort, ?_⟩
      rw [hr, Mem.copy_copy]
      congr 2
      omega
    · obtain rfl : tot = n := by omega
      refine ⟨hs, le_rfl, le_rfl, fun h => absurd h (lt_irrefl _), ?_⟩
      rw [Nat.sub_self, Mem.copy_zero]

/-- An entry is read, or the kernel stops. -/
theorem readEntry_does (hbad : short ∨ size % Dirent.size ≠ 0 ∨ 2 ^ 32 ≤ size → E .badEntry)
    (de : Mem) {off : ℕ} (hs : I s) (hoff : off % Dirent.size = 0) (hlt : off < size) :
    Does E (ip.readEntry sb de off) s fun de' s' =>
      I s' ∧ off + Dirent.size ≤ size ∧ de' = de.copy 0 f off Dirent.size := by
  have hentry : Dirent.size = 16 := rfl
  unfold Slot.readEntry Slot.read
  rw [does_bind, does_bind, does_inode, (R.inode s hs).2]
  by_cases hwrap : (off + Dirent.size) % 2 ^ 32 < off
  · have hbig : 2 ^ 32 ≤ off + Dirent.size := by
      by_contra hsmall
      rw [Nat.mod_eq_of_lt (by omega)] at hwrap
      omega
    rw [if_pos (Or.inr hwrap), does_pure]
    refine hbad (Or.inr ?_)
    rw [hentry] at hoff hbig ⊢
    omega
  · rw [if_neg (not_or.mpr ⟨by omega, hwrap⟩)]
    apply (R.readLoop_does _ de off 0 _ hs (by omega) (by omega) (by split_ifs <;> omega)).mono
    rintro ⟨c, dst⟩ s' ⟨hs', -, hle, hshort, hdst⟩
    dsimp only at hle hshort hdst ⊢
    split_ifs at hle hshort with hend
    · rw [if_neg (by omega)]
      refine hbad (Or.inr (Or.inl ?_))
      rw [hentry] at hoff hend ⊢
      omega
    · by_cases hc : c = Dirent.size
      · rw [if_pos hc, hdst, hc]
        exact ⟨hs', by omega, rfl⟩
      · rw [if_neg hc]
        exact hbad (Or.inl (hshort (by omega)))

theorem lookupLoop_does (hbad : short ∨ size % Dirent.size ≠ 0 ∨ 2 ^ 32 ≤ size → E .badEntry)
    {name : Mem} {Q : Option Slot → State Store → Prop} (k : ℕ) {off : ℕ} (hs : I s)
    (hoff : off % Dirent.size = 0) (hk : (size - off) / Dirent.size < k)
    (h : ∀ s', I s' → Does E (found d (inumOf (entriesFrom f ((size - off) / Dirent.size) off)
      (nameOf name))) s' Q) : Does E (ip.lookupLoop sb name k off) s Q := by
  induction k generalizing s off with
  | zero => exact absurd hk (Nat.not_lt_zero _)
  | succ k ih =>
    unfold Slot.lookupLoop
    rw [does_bind, does_inode, (R.inode s hs).2]
    split_ifs with hlt
    · rw [does_bind]
      apply (R.readEntry_does hbad Dirent.init hs hoff hlt).mono
      rintro de s₁ ⟨hs₁, hle, rfl⟩
      have hentry := entryOf_copy Dirent.init f off
      have hstep : (size - off) / Dirent.size = (size - (off + Dirent.size)) / Dirent.size + 1 := by
        rw [← Nat.add_div_right _ (by decide)]
        congr 1
        omega
      rw [hstep] at h hk
      have hinum : (entryAt f off).1 = Dirent.inum (Dirent.init.copy 0 f off Dirent.size) := by
        rw [← hentry]
        rfl
      have hname : (entryAt f off).2 =
          nameOf (Dirent.name (Dirent.init.copy 0 f off Dirent.size)) := by
        rw [← hentry]
        rfl
      have hskip (hnot : ¬(entryAt f off).Has (nameOf name)) :
          Does E (ip.lookupLoop sb name k (off + Dirent.size)) s₁ Q := by
        apply ih hs₁ (by rw [Nat.add_mod_right, hoff]) (by omega)
        intro s' hs'
        have hlast := h s' hs'
        rwa [entriesFrom, inumOf_cons, if_neg hnot] at hlast
      split_ifs with hfree hmatch
      · exact hskip fun hhas => hhas.1 (hinum.trans hfree)
      · rw [namecmp_eq_zero] at hmatch
        have hlast := h s₁ hs₁
        rw [entriesFrom, inumOf_cons, if_pos ⟨by rwa [hinum], hname.trans hmatch.symm⟩,
          hinum] at hlast
        rw [(R.inode s hs).1]
        exact hlast
      · rw [namecmp_eq_zero] at hmatch
        exact hskip fun hhas => hmatch (hhas.2.symm.trans hname)
    · have hzero : (size - off) / Dirent.size = 0 := by
        rw [Nat.sub_eq_zero_of_le (Nat.not_lt.mp hlt), Nat.zero_div]
      have hend := h s hs
      rw [hzero] at hend
      exact hend

theorem lookup_does (hbad : short ∨ size % Dirent.size ≠ 0 ∨ 2 ^ 32 ≤ size → E .badEntry)
    {name : Mem} {Q : Option Slot → State Store → Prop} (hs : I s)
    (htype : (s.1.inodes ip).type = T_DIR)
    (h : ∀ s', I s' → Does E (found d (inumOf (entries f size) (nameOf name))) s' Q) :
    Does E (ip.lookup sb name) s Q := by
  unfold Slot.lookup
  rw [does_bind, does_inode, if_pos htype, (R.inode s hs).2]
  exact R.lookupLoop_does hbad _ hs rfl (Nat.lt_succ_self _) h

theorem linkLoop_does (hbad : short ∨ size % Dirent.size ≠ 0 ∨ 2 ^ 32 ≤ size → E .badEntry)
    (k : ℕ) (de : Mem) {off : ℕ} (hs : I s) (hoff : off % Dirent.size = 0)
    (hk : (size - off) / Dirent.size < k) :
    Does E (ip.linkLoop sb k de off) s fun r s' =>
      I s' ∧ r = scan f ((size - off) / Dirent.size) de off := by
  induction k generalizing s de off with
  | zero => exact absurd hk (Nat.not_lt_zero _)
  | succ k ih =>
    unfold Slot.linkLoop
    rw [does_bind, does_inode, (R.inode s hs).2]
    split_ifs with hlt
    · rw [does_bind]
      apply (R.readEntry_does hbad de hs hoff hlt).mono
      rintro de' s₁ ⟨hs₁, hle, rfl⟩
      have hstep : (size - off) / Dirent.size = (size - (off + Dirent.size)) / Dirent.size + 1 := by
        rw [← Nat.add_div_right _ (by decide)]
        congr 1
        omega
      rw [hstep] at hk ⊢
      unfold scan
      split_ifs with hfree
      · exact ⟨hs₁, rfl⟩
      · exact ih _ hs₁ (by rw [Nat.add_mod_right, hoff]) (by omega)
    · have hzero : (size - off) / Dirent.size = 0 := by
        rw [Nat.sub_eq_zero_of_le (Nat.not_lt.mp hlt), Nat.zero_div]
      rw [hzero]
      exact ⟨hs, rfl⟩

end Reader

end Multiplix.Fs
