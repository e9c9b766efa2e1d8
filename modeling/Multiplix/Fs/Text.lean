import Multiplix.Fs.Directory
import Multiplix.Fs.Path
import Multiplix.Lib.Pieces

/-! Strings in the memory of a process. `skipelem` cuts a path into the pieces between slashes. -/
namespace Multiplix.Fs
open Lib

theorem chars_eq {a : Mem} {l : List Byte} {n x : ℕ} (h : ∀ i (hi : i < l.length), a (x + i) = l[i])
    (hnul : 0 ∉ l) (hle : l.length ≤ n) (hend : l.length < n → a (x + l.length) = 0) :
    chars a n x = l := by
  induction l generalizing n x with
  | nil =>
    cases n with
    | zero => rfl
    | succ n => exact if_pos (hend (Nat.zero_lt_succ n))
  | cons c l ih =>
    obtain ⟨n, rfl⟩ : ∃ m, n = m + 1 := Nat.exists_eq_add_one.mpr (by simp at hle; omega)
    have hc : a x = c := h 0 (Nat.zero_lt_succ _)
    have hne : c ≠ 0 := fun he => hnul (he ▸ List.mem_cons_self)
    unfold chars
    rw [hc, if_neg hne, ih]
    · intro i hi
      rw [Nat.add_right_comm]
      exact h (i + 1) (Nat.succ_lt_succ hi)
    · exact fun hmem => hnul (List.mem_cons_of_mem _ hmem)
    · exact Nat.le_of_succ_le_succ hle
    · intro hlt
      rw [Nat.add_right_comm]
      exact hend (Nat.succ_lt_succ hlt)

/-- The string is there, with its terminator. -/
structure Text (u : Mem) (path : ℕ) (str : List Byte) : Prop where
  chars : ∀ i (h : i < str.length), u ((path + i) % addrSpace) = str[i]
  nul : u ((path + str.length) % addrSpace) = 0
  noNul : 0 ∉ str
  fits : str.length < addrSpace

/-- Where the rest of a string begins. -/
def posOf (path : ℕ) (str rest : List Byte) : ℕ := path + (str.length - rest.length)

variable {path : ℕ} {str rest : List Byte} {s : State Store} {E : Panic → Prop}

theorem posOf_cons {c : Byte} (h : c :: rest <:+ str) :
    posOf path str (c :: rest) + 1 = posOf path str rest := by
  have hle := h.length_le
  rw [List.length_cons] at hle
  unfold posOf
  rw [List.length_cons]
  omega

theorem suffix_dropWhile {p : Byte → Bool} (h : rest <:+ str) : rest.dropWhile p <:+ str :=
  (List.dropWhile_suffix p).trans h

namespace Text

variable (h : Text s.2.user path str) (hr : rest <:+ str)

include h hr

theorem user_add {i : ℕ} (hi : i < rest.length) :
    s.2.user ((posOf path str rest + i) % addrSpace) = rest[i] := by
  obtain ⟨front, rfl⟩ := hr
  have hchar := h.chars (front.length + i) (by rw [List.length_append]; omega)
  rw [List.getElem_append_right (Nat.le_add_right _ _)] at hchar
  unfold posOf
  rw [List.length_append, Nat.add_sub_cancel, Nat.add_assoc, hchar]
  congr 1
  exact Nat.add_sub_cancel_left _ _

theorem user_end : s.2.user ((posOf path str rest + rest.length) % addrSpace) = 0 := by
  have hle := hr.length_le
  have hend : posOf path str rest + rest.length = path + str.length := by
    unfold posOf
    omega
  rw [hend]
  exact h.nul

theorem uchar_does {Q : Byte → State Store → Prop} (hQ : Q (rest.headD 0) s) :
    Does E (uchar (posOf path str rest)) s Q := by
  have hhead : s.2.user ((posOf path str rest + 0) % addrSpace) = rest.headD 0 := by
    cases rest with
    | nil => exact h.user_end hr
    | cons c rest => exact h.user_add hr (Nat.zero_lt_succ _)
  unfold uchar
  rw [does_bind, does_uload, does_pure]
  dsimp only
  rw [Nat.mod_add_mod, hhead]
  exact hQ

theorem noNul_rest : 0 ∉ rest := fun hmem => h.noNul (hr.mem hmem)

theorem skipSlashes_does (n : ℕ) (hn : rest.length < n) {Q : ℕ → State Store → Prop}
    (hQ : Q (posOf path str (rest.dropWhile (· = slash))) s) :
    Does E (skipSlashes n (posOf path str rest)) s Q := by
  induction n generalizing rest with
  | zero => exact absurd hn (Nat.not_lt_zero _)
  | succ n ih =>
    unfold skipSlashes
    rw [does_bind]
    apply h.uchar_does hr
    cases rest with
    | nil =>
      rw [if_neg (by decide)]
      exact hQ
    | cons c rest =>
      rw [List.headD_cons]
      split_ifs with hc
      · rw [posOf_cons hr]
        apply ih ((List.suffix_cons c rest).trans hr)
        · exact Nat.lt_of_succ_lt_succ hn
        · rwa [List.dropWhile_cons_of_pos (by simpa using hc)] at hQ
      · rwa [List.dropWhile_cons_of_neg (by simpa using hc)] at hQ

theorem skipName_does (n : ℕ) (hn : rest.length < n) {Q : ℕ → State Store → Prop}
    (hQ : Q (posOf path str (rest.dropWhile (· ≠ slash))) s) :
    Does E (skipName n (posOf path str rest)) s Q := by
  induction n generalizing rest with
  | zero => exact absurd hn (Nat.not_lt_zero _)
  | succ n ih =>
    unfold skipName
    rw [does_bind]
    apply h.uchar_does hr
    cases rest with
    | nil =>
      rw [List.headD_nil, if_pos (Or.inr rfl)]
      exact hQ
    | cons c rest =>
      have hne : c ≠ 0 := fun he => h.noNul_rest hr (he ▸ List.mem_cons_self)
      rw [List.headD_cons]
      split_ifs with hc
      · have hslash := hc.resolve_right hne
        rwa [List.dropWhile_cons_of_neg (by simpa using hslash)] at hQ
      · rw [posOf_cons hr]
        apply ih ((List.suffix_cons c rest).trans hr)
        · exact Nat.lt_of_succ_lt_succ hn
        · rwa [List.dropWhile_cons_of_pos (by simpa using fun he => hc (Or.inl he))] at hQ

end Text

/-- What `skipelem` returns: the next element, if there is one, and where the rest begins. -/
structure Skipped (path : ℕ) (str rest : List Byte) (name : Mem) (r : Option ℕ × Mem) : Prop where
  none : pieces slash rest = [] → r = (none, name)
  some : ∀ c cs, pieces slash rest = c :: cs → ∃ rest', rest' <:+ str ∧
    rest'.length < rest.length ∧ pieces slash rest' = cs ∧ (rest'.headD 0 = 0 ↔ cs = []) ∧
    r.1 = some (posOf path str rest') ∧ nameOf r.2 = c.take DIRSIZ

/-- Where a path goes on after slashes, it is at its end or at another element. -/
theorem headD_dropWhile (hnul : 0 ∉ rest) :
    (rest.dropWhile (· = slash)).headD 0 = 0 ↔ pieces slash rest = [] := by
  rw [← pieces.dropWhile]
  cases hd : rest.dropWhile (· = slash) with
  | nil => exact iff_of_true rfl (pieces.nil _)
  | cons x l =>
    have hx : x ≠ slash := by
      have hnot := List.head?_dropWhile_not (· = slash) rest
      rw [hd] at hnot
      simpa using hnot
    have hmem : x ∈ rest := (List.dropWhile_sublist _).mem (hd ▸ List.mem_cons_self)
    rw [pieces.cons_of_ne _ _ hx, List.headD_cons]
    exact iff_of_false (fun h0 => hnul (h0 ▸ hmem)) (List.cons_ne_nil _ _)

/-- A long element is cut off, and has no terminator. -/
theorem nameOf_copy {name src : Mem} {piece : List Byte} (hnul : 0 ∉ piece)
    (hsrc : ∀ i (hi : i < piece.length), src i = piece[i]) (hlong : DIRSIZ ≤ piece.length) :
    nameOf (name.copy 0 src 0 DIRSIZ) = piece.take DIRSIZ := by
  have hlen : (piece.take DIRSIZ).length = DIRSIZ := by
    rw [List.length_take, min_eq_left hlong]
  refine chars_eq (fun i hi => ?_) (fun hmem => hnul (List.mem_of_mem_take hmem)) hlen.le ?_
  · rw [hlen] at hi
    rw [Nat.zero_add, Mem.copy_inside _ _ _ (Nat.zero_le i) (by omega), Nat.sub_zero, Nat.zero_add,
      hsrc i (by omega), List.getElem_take]
  · rw [hlen]
    exact fun hlt => absurd hlt (lt_irrefl _)

theorem nameOf_store {name src : Mem} {piece : List Byte} (hnul : 0 ∉ piece)
    (hsrc : ∀ i (hi : i < piece.length), src i = piece[i]) (hshort : piece.length < DIRSIZ) :
    nameOf ((name.copy 0 src 0 piece.length).store 1 piece.length 0) = piece.take DIRSIZ := by
  rw [List.take_of_length_le hshort.le]
  refine chars_eq (fun i hi => ?_) hnul hshort.le fun _ => ?_
  · unfold Mem.store
    rw [Nat.zero_add, if_neg (by omega), Mem.copy_inside _ _ _ (Nat.zero_le i) (by omega),
      Nat.sub_zero, Nat.zero_add, hsrc i hi]
  · unfold Mem.store
    rw [Nat.zero_add, if_pos (by omega), Nat.zero_div]
    rfl

theorem skipelem_does (h : Text s.2.user path str) (hr : rest <:+ str) (name : Mem) :
    Does E (skipelem (posOf path str rest) name) s fun r s' =>
      s' = s ∧ Skipped path str rest name r := by
  have hfits := h.fits
  have hle := hr.length_le
  unfold skipelem
  rw [does_bind]
  apply h.skipSlashes_does hr _ (by omega)
  have hr₁ : rest.dropWhile (· = slash) <:+ str := suffix_dropWhile hr
  have hle₁ : (rest.dropWhile (· = slash)).length ≤ rest.length :=
    (List.dropWhile_suffix _).length_le
  have hseg := pieces.dropWhile slash rest
  have hhead := headD_dropWhile (h.noNul_rest hr)
  have hfirst := List.head?_dropWhile_not (· = slash) rest
  generalize rest.dropWhile (· = slash) = elem at hr₁ hle₁ hseg hhead hfirst ⊢
  rw [does_bind]
  apply h.uchar_does hr₁
  split_ifs with hend
  · have hnone := hhead.mp hend
    refine ⟨rfl, fun _ => rfl, fun c cs hcs => ?_⟩
    rw [hnone] at hcs
    exact absurd hcs.symm (List.cons_ne_nil _ _)
  -- the element that the path is at
  obtain ⟨x, l, rfl, hx⟩ : ∃ x l, elem = x :: l ∧ x ≠ slash := by
    cases elem with
    | nil => exact absurd rfl hend
    | cons x l => exact ⟨x, l, rfl, by simpa using hfirst⟩
  rw [does_bind]
  apply h.skipName_does hr₁ _ (by omega)
  have hsplit := List.takeWhile_append_dropWhile (p := (· ≠ slash)) (l := x :: l)
  have hr₂ : (x :: l).dropWhile (· ≠ slash) <:+ str := suffix_dropWhile hr₁
  rw [pieces.cons_of_ne _ _ hx] at hseg
  have hpiece : 0 ∉ (x :: l).takeWhile (· ≠ slash) := fun hmem =>
    h.noNul_rest hr₁ ((List.takeWhile_sublist _).mem hmem)
  have hne : (x :: l).takeWhile (· ≠ slash) ≠ [] := by
    rw [List.takeWhile_cons_of_pos (by simpa using hx)]
    exact List.cons_ne_nil _ _
  generalize (x :: l).takeWhile (· ≠ slash) = piece at hsplit hseg hpiece hne ⊢
  generalize (x :: l).dropWhile (· ≠ slash) = back at hsplit hr₂ hseg ⊢
  have hlen : piece.length + back.length = (x :: l).length := by
    rw [← hsplit, List.length_append]
  have hpos := List.length_pos_iff.mpr hne
  have hback : back.length < rest.length := by omega
  have hlt : back.length < addrSpace := by omega
  have hdist : posOf path str back - posOf path str (x :: l) = piece.length := by
    have hle₂ := hr₁.length_le
    unfold posOf
    omega
  have hsrc : ∀ i (hi : i < piece.length),
      s.2.user ((posOf path str (x :: l) % addrSpace + i) % addrSpace) = piece[i] := by
    intro i hi
    rw [Nat.mod_add_mod, h.user_add hr₁ (by omega)]
    simp only [← hsplit]
    exact List.getElem_append_left hi
  have hdone : ∀ name', nameOf name' = piece.take DIRSIZ → Does E (do
      let path ← skipSlashes addrSpace (posOf path str back)
      pure (some path, name') : FsM (Option ℕ × Mem)) s fun r s' =>
        s' = s ∧ Skipped path str rest name r := by
    intro name' hname
    rw [does_bind]
    apply h.skipSlashes_does hr₂ _ hlt
    refine ⟨rfl, fun hnone => ?_, fun c cs hcs => ?_⟩
    · rw [hnone] at hseg
      exact absurd hseg (List.cons_ne_nil _ _)
    · rw [← hseg] at hcs
      obtain ⟨rfl, rfl⟩ := List.cons.inj hcs
      refine ⟨_, suffix_dropWhile hr₂, ?_, pieces.dropWhile _ _,
        headD_dropWhile (h.noNul_rest hr₂), rfl, hname⟩
      exact (List.dropWhile_suffix _).length_le.trans_lt hback
  dsimp only
  rw [hdist]
  split_ifs with hlong
  · rw [does_bind, does_uload]
    exact hdone _ (nameOf_copy hpiece hsrc hlong)
  · rw [does_bind, does_uload]
    exact hdone _ (nameOf_store hpiece hsrc (not_le.mp hlong))

end Multiplix.Fs
