import Multiplix.Fs.Mount
import Multiplix.Tools.Image

/-! What `mkfs` puts on an image is what the kernel finds there. -/
namespace Multiplix.Tools.Mkfs
open Lib Fs

/-! ### The entries of the root -/

theorem dirent_name {inum : ℕ} {name : List Byte} {x : ℕ} (hx : x < (name.take DIRSIZ).length) :
    dirent inum name (2 + x) = (name.take DIRSIZ)[x] := by
  unfold dirent bytes
  rw [Mem.copy_inside _ _ _ (Nat.le_add_right 2 x) (by omega), Nat.zero_add,
    Nat.add_sub_cancel_left, List.getD_eq_getElem _ _ hx]

theorem dirent_end {inum : ℕ} {name : List Byte} {x : ℕ} (hx : (name.take DIRSIZ).length ≤ x) :
    dirent inum name (2 + x) = 0 := by
  unfold dirent
  rw [Mem.copy_outside _ _ _ (Or.inr (by omega)), Mem.store_outside _ _ (Or.inr (by omega))]

theorem entryOf_dirent {inum : ℕ} {name : List Byte} (hinum : inum < 256 ^ 2) (hnul : 0 ∉ name) :
    entryOf (dirent inum name) = (inum, name.take DIRSIZ) := by
  have hload : Dirent.inum (dirent inum name) = inum := by
    have hsame : (Mem.store 2 (fun _ => 0) 0 inum).SameOn (dirent inum name) 0 2 := fun x _ hx =>
      Mem.copy_outside _ _ _ (Or.inl hx)
    exact (Mem.load_congr hsame).trans (Mem.load_store_word _ _ hinum)
  have hname : nameOf (Dirent.name (dirent inum name)) = name.take DIRSIZ := by
    refine chars_eq (fun i hi => ?_) (fun hmem => hnul (List.mem_of_mem_take hmem))
      (List.length_take_le _ _) fun _ => ?_
    · rw [Nat.zero_add]
      exact dirent_name hi
    · rw [Nat.zero_add]
      exact dirent_end le_rfl
  unfold entryOf
  rw [hload, hname]

/-- The entries as they are written. -/
def direntBytes (es : List Entry) : List Byte := (es.map fun e => entryBytes e.1 e.2).flatten

/-- What is written is read. -/
theorem entriesFrom_direntBytes {f : Mem} {es : List Entry} {off : ℕ}
    (hf : ∀ i (h : i < (direntBytes es).length), f (off + i) = (direntBytes es)[i])
    (hes : ∀ e ∈ es, e.1 < 256 ^ 2 ∧ 0 ∉ e.2) :
    entriesFrom f es.length off = es.map fun e => (e.1, e.2.take DIRSIZ) := by
  induction es generalizing off with
  | nil => rfl
  | cons e es ih =>
    have hcons : direntBytes (e :: es) = entryBytes e.1 e.2 ++ direntBytes es := rfl
    have hlen : (direntBytes (e :: es)).length = Dirent.size + (direntBytes es).length := by
      rw [hcons, List.length_append, length_entryBytes]
      rfl
    obtain ⟨hinum, hnul⟩ := hes e List.mem_cons_self
    rw [List.length_cons, entriesFrom, List.map_cons, ← entryOf_dirent hinum hnul]
    congr 1
    · apply entryOf_congr
      intro x hx
      rw [hf x (by omega)]
      simp only [hcons]
      rw [List.getElem_append_left (by rwa [length_entryBytes])]
      simp [entryBytes, Mem.slice]
    · apply ih
      · intro i hi
        rw [Nat.add_assoc, hf _ (by omega)]
        simp only [hcons]
        rw [List.getElem_append_right (by rw [length_entryBytes]; exact Nat.le_add_right _ _)]
        congr 1
        rw [length_entryBytes]
        exact Nat.add_sub_cancel_left _ _
      · exact fun e' he' => hes e' (List.mem_cons_of_mem e he')

/-- The entries of the root. -/
def rootEntries (files : List File) : List Entry :=
  (ROOTINO, [46]) :: (ROOTINO, [46, 46]) :: files.mapIdx fun i f => (i + 2, f.name)

theorem rootData_eq (files : List File) : rootData files = direntBytes (rootEntries files) := by
  have hmap : (files.mapIdx fun i f => (i + 2, f.name)).map (fun e => entryBytes e.1 e.2) =
      files.mapIdx fun i f => entryBytes (i + 2) f.name :=
    List.ext_getElem (by simp) (by simp)
  unfold rootData direntBytes rootEntries
  rw [List.map_cons, List.map_cons, List.flatten_cons, List.flatten_cons, List.append_assoc, hmap]

theorem length_rootEntries (files : List File) :
    (rootEntries files).length = files.length + 2 := by
  unfold rootEntries
  rw [List.length_cons, List.length_cons, List.length_mapIdx]

/-- The names can be told apart in a directory, and are names. -/
structure Named (files : List File) : Prop where
  noNul : ∀ f ∈ files, 0 ∉ f.argv
  noSlash : ∀ f ∈ files, slash ∉ f.shortname
  nonempty : ∀ f ∈ files, f.name ≠ []
  notDot : ∀ f ∈ files, f.name ≠ [46] ∧ f.name ≠ [46, 46]
  distinct : (files.map fun f => f.name.take DIRSIZ).Nodup

theorem inumOf_unique {l : List Entry} {e : Entry} {name : List Byte} (he : e ∈ l) (hne : e.1 ≠ 0)
    (hname : e.2 = name) (hu : ∀ e' ∈ l, e'.2 = name → e'.1 = e.1) : inumOf l name = some e.1 := by
  unfold inumOf
  cases hf : l.find? fun e' => decide (Entry.Has e' name) with
  | none =>
    exact absurd (decide_eq_true (p := e.Has name) ⟨hne, hname⟩) (List.find?_eq_none.mp hf e he)
  | some e' =>
    have hhas : decide (Entry.Has e' name) = true := List.find?_some
      (p := fun e' => decide (Entry.Has e' name)) hf
    exact congrArg some (hu e' (List.mem_of_find?_eq_some hf) (of_decide_eq_true hhas).2)

theorem File.mem_argv {f : File} {c : Byte} (h : c ∈ f.shortname) : c ∈ f.argv := by
  unfold shortname at h
  split_ifs at h
  · exact List.mem_of_mem_drop h
  · exact h

theorem File.mem_shortname {f : File} {c : Byte} (h : c ∈ f.name) : c ∈ f.shortname := by
  unfold name at h
  split_ifs at h
  · exact List.mem_of_mem_tail h
  · exact h

theorem eq_of_take_eq {l w : List Byte} (h : l.take DIRSIZ = w) (hw : w.length < DIRSIZ) :
    l = w := by
  rw [← h, List.length_take] at hw
  rw [← h, List.take_of_length_le (by omega)]

namespace Named

variable {files : List File} (h : Named files)

include h

theorem noNul_name : ∀ f ∈ files, 0 ∉ f.name := fun f hf hmem =>
  h.noNul f hf (File.mem_argv (File.mem_shortname hmem))

theorem rootEntries (hroom : Room files) : ∀ e ∈ rootEntries files, e.1 < 256 ^ 2 ∧ 0 ∉ e.2 := by
  have hcount := hroom.1
  intro e he
  rcases List.mem_cons.mp he with rfl | he
  · exact ⟨by decide, by decide⟩
  · rcases List.mem_cons.mp he with rfl | he
    · exact ⟨by decide, by decide⟩
    · obtain ⟨i, hi, rfl⟩ := List.mem_mapIdx.mp he
      refine ⟨?_, h.noNul_name _ (List.getElem_mem hi)⟩
      have hlimit : NINODES + 2 < 256 ^ 2 := by decide
      dsimp only
      omega

/-- Under the name of a file its inode is found. -/
theorem find {i : ℕ} (hi : i < files.length) :
    inumOf ((Mkfs.rootEntries files).map fun e => (e.1, e.2.take DIRSIZ))
      (files[i].name.take DIRSIZ) = some (i + 2) := by
  obtain ⟨hdot, hdots⟩ := h.notDot _ (List.getElem_mem hi)
  apply inumOf_unique (e := (i + 2, files[i].name.take DIRSIZ))
  · refine List.mem_map.mpr ⟨(i + 2, files[i].name), ?_, rfl⟩
    apply List.mem_cons_of_mem
    apply List.mem_cons_of_mem
    exact List.mem_mapIdx.mpr ⟨i, hi, rfl⟩
  · exact Nat.succ_ne_zero _
  · rfl
  · intro e' he' hname
    obtain ⟨e, he, rfl⟩ := List.mem_map.mp he'
    dsimp only at hname ⊢
    rcases List.mem_cons.mp he with rfl | he
    · exact absurd (eq_of_take_eq hname.symm (by decide)) hdot
    · rcases List.mem_cons.mp he with rfl | he
      · exact absurd (eq_of_take_eq hname.symm (by decide)) hdots
      · obtain ⟨j, hj, rfl⟩ := List.mem_mapIdx.mp he
        have hbound (k : ℕ) (hk : k < files.length) :
            k < (files.map fun f => f.name.take DIRSIZ).length := by rwa [List.length_map]
        have hi' := hbound i hi
        have hj' := hbound j hj
        have hget : (files.map fun f => f.name.take DIRSIZ)[j] =
            (files.map fun f => f.name.take DIRSIZ)[i] := by
          rw [List.getElem_map, List.getElem_map]
          exact hname
        exact congrArg (· + 2) (h.distinct.getElem_inj_iff.mp hget)

end Named

/-! ### The image as the kernel sees it -/

/-- What the kernel reads of the superblock. -/
def volume : Superblock := ⟨FSSIZE, nblocks, NINODES, inodestart, bmapstart⟩

/-- The inodes of the image that are in use. -/
def inUse (files : List File) : Set ℕ := {n | ROOTINO ≤ n ∧ n ≤ files.length + 1}

theorem load_start {k : ℕ} (hk : k < 8) : (St.start.img 1).load 4 (4 * k) =
    [FSMAGIC, FSSIZE, nblocks, NINODES, nlog, 2, inodestart, bmapstart][k] := by
  have hsame : superblock.SameOn (St.start.img 1) (4 * k) 4 := by
    intro x _ hx
    have hlimit : 32 ≤ BSIZE := by decide
    unfold St.start
    rw [St.wsect_img, Function.update_self, Mem.copy_inside _ _ _ (Nat.zero_le x) (by omega),
      Nat.zero_add]
    rfl
  have hwords : ∀ v ∈ [FSMAGIC, FSSIZE, nblocks, NINODES, nlog, 2, inodestart, bmapstart],
      v < 256 ^ 4 := by decide
  have hload := Mem.load_storeWords (a := 0) (fun _ => 0) _ hk (hwords _ (List.getElem_mem hk))
  rw [Nat.zero_add] at hload
  exact (Mem.load_congr hsame).trans hload

theorem fsinit_image {s : State Store} (h : s.2.dev ROOTDEV 1 = St.start.img 1) :
    Does (fun _ => False) (fsinit ROOTDEV) s fun r s' => s' = s ∧ r = some volume := by
  have hmagic : (St.start.img 1).load 4 0 = Fs.FSMAGIC := load_start (k := 0) (by decide)
  have hsize : (St.start.img 1).load 4 4 = FSSIZE := load_start (k := 1) (by decide)
  have hblocks : (St.start.img 1).load 4 8 = nblocks := load_start (k := 2) (by decide)
  have hinodes : (St.start.img 1).load 4 12 = NINODES := load_start (k := 3) (by decide)
  have hinode : (St.start.img 1).load 4 24 = inodestart := load_start (k := 6) (by decide)
  have hbmap : (St.start.img 1).load 4 28 = bmapstart := load_start (k := 7) (by decide)
  apply fsinit_does.mono
  rintro r s' ⟨rfl, rfl⟩
  refine ⟨rfl, ?_⟩
  rw [h, if_neg (not_not.mpr hmagic)]
  unfold Superblock.load
  rw [hsize, hblocks, hinodes, hinode, hbmap]
  rfl

/-- A file of the image, as it is on the disk. -/
structure Stored (disk : ℕ → Mem) (n : ℕ) (data : List Byte) : Prop where
  type : (Fs.dinode volume disk n).type = T_FILE
  nlink : (Fs.dinode volume disk n).nlink ≠ 0
  size : (Fs.dinode volume disk n).size = data.length
  whole : (Fs.dinode volume disk n).Whole disk
  bytes : ∀ i (h : i < data.length), (Fs.dinode volume disk n).contents disk i = data[i]

theorem St.Live.contents {st : St} {n : ℕ} (h : st.Live n) : Fs.contents room ROOTDEV st.booted n =
    (Fs.dinode volume st.disk n).contents st.disk := by
  unfold Fs.contents
  rw [h.present, dev_booted]
  rfl

theorem St.Live.pointer {st : St} {n : ℕ} (h : st.Live n) (p : Place) :
    Fs.pointer room ROOTDEV st.booted (n, p) =
      (Fs.dinode volume st.disk n).pointer st.disk p := by
  unfold Fs.pointer
  rw [h.present, dev_booted]
  rfl

namespace Made

variable {files : List File} {st : St} (hroom : Room files) (h : Made files st)

include hroom h

theorem stored {i : ℕ} (hi : i < files.length) : Stored st.disk (i + 2) files[i].data := by
  have hcount := hroom.1
  obtain ⟨htype, hnlink, hsize, hbytes, hmapped⟩ := h.keeps i hi
  have hlive : st.Live (i + 2) := by
    refine ⟨by omega, ?_⟩
    rw [htype]
    decide
  have hmax : files[i].data.length ≤ MAXFILE * BSIZE := by
    have hle := hroom.blocksOf_le (i := i + 1) (by rw [length_sizes]; omega)
    simpa [sizes] using hle
  refine ⟨htype, ?_, hsize, ⟨?_, fun x hx hx' => ?_⟩, fun j hj => ?_⟩
  · have hone : (Fs.dinode volume st.disk (i + 2)).nlink = 1 := hnlink
    rw [hone]
    exact one_ne_zero
  · have hlen : (Fs.dinode volume st.disk (i + 2)).size = files[i].data.length := hsize
    rwa [hlen]
  · have hlen : (Fs.dinode volume st.disk (i + 2)).size = files[i].data.length := hsize
    rw [hlen, Nat.zero_add] at hx'
    rw [← hlive.pointer]
    exact hmapped x hx'
  · rw [← hlive.contents]
    exact hbytes j hj

/-- The root lists the files. -/
theorem lists (hnamed : Named files) {i : ℕ} (hi : i < files.length) :
    Lists volume st.disk ROOTINO (files.length + 2) (files[i].name.take DIRSIZ) (i + 2) := by
  have hlen : (rootData files).length = Dirent.size * (files.length + 2) := length_rootData files
  have hlive : st.Live ROOTINO := by
    refine ⟨by decide, ?_⟩
    rw [h.type]
    decide
  have hsize : (Fs.dinode volume st.disk ROOTINO).size =
      ((rootData files).length / BSIZE + 1) * BSIZE := h.size
  have hup := Nat.lt_mul_div_succ (rootData files).length (by decide : 0 < BSIZE)
  refine ⟨h.type, ?_, ?_, ?_, fun x hx hx' => ?_, ?_⟩
  · have hone : (Fs.dinode volume st.disk ROOTINO).nlink = 1 := h.nlink
    rw [hone]
    exact one_ne_zero
  · have hcount := hroom.1
    have hfull : (rootData files).length / BSIZE < MAXFILE := by
      rw [Nat.div_lt_iff_lt_mul (by decide), hlen]
      have hlimit : Dirent.size * (NINODES + 2) < MAXFILE * BSIZE := by decide
      exact (Nat.mul_le_mul_left _ (by omega)).trans_lt hlimit
    rw [hsize]
    exact Nat.mul_le_mul_right _ hfull
  · rw [hsize, ← hlen, Nat.mul_comm]
    exact hup.le
  · rw [Nat.zero_add, ← hlen] at hx'
    rw [← hlive.pointer]
    exact h.mapped x hx'
  · have hdata (x : ℕ) (hx : x < (direntBytes (rootEntries files)).length) :
        (Fs.dinode volume st.disk ROOTINO).contents st.disk (0 + x) =
          (direntBytes (rootEntries files))[x] := by
      have hbytes := h.bytes x (by rwa [rootData_eq])
      simp only [rootData_eq] at hbytes
      rw [Nat.zero_add, ← hlive.contents, hbytes]
    have hread := entriesFrom_direntBytes hdata (hnamed.rootEntries hroom)
    rw [length_rootEntries] at hread
    rw [hread]
    exact hnamed.find hi

end Made

end Multiplix.Tools.Mkfs
