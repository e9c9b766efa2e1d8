import Multiplix.Fs.UserAccess

/-! A look-up of a path reads the string that the path is, and nothing behind its terminator. -/
namespace Multiplix.Fs
open Lib

/-- What is read is what the memory holds. -/
def Op.Reads (u : Mem) : (o : Op) → Ans o → Prop
  | .uload a n, m => ∀ i < n, m i = u ((a + i) % addrSpace)
  | _, _ => True

/-- Before the character `k` of a path there is no terminator. -/
def Live (u : Mem) (path k : ℕ) : Prop := ∀ j < k, u ((path + j) % addrSpace) ≠ 0

/-- The address is that of a character of a path, or of its terminator. -/
def InString (u : Mem) (path a : ℕ) : Prop := ∃ k, Live u path k ∧ a = (path + k) % addrSpace

theorem Live.mono {u : Mem} {path k m : ℕ} (h : Live u path k) (hmk : m ≤ k) : Live u path m :=
  fun j hj => h j (hj.trans_le hmk)

theorem Live.succ {u : Mem} {path k : ℕ} (h : Live u path k)
    (hk : u ((path + k) % addrSpace) ≠ 0) : Live u path (k + 1) := fun j hj =>
  (Nat.lt_succ_iff_lt_or_eq.mp hj).elim (h j) fun he => he ▸ hk

/-- The program only reads memory of the process, where `W` says, and memory is `u`. -/
abbrev Walks (u : Mem) (W : ℕ → Prop) {α : Type} (p : FsM α) (c : Core) (Q : α → Core → Prop) :
    Prop := Prog.Touches known (Op.Loads W) (Op.Reads u) p c Q

theorem Aside.walks {α β : Type} {p : FsM α} {f : α → FsM β} {u : Mem} {W : ℕ → Prop} {c : Core}
    {Q : β → Core → Prop} (h : Aside p) (hf : ∀ a c', Walks u W (f a) c' Q) :
    Walks u W (p >>= f) c Q := h.then (fun _ ho => ho.loads W) hf

/-- The next element of a path. -/
theorem lookupNext_walks (sb : Superblock) {u : Mem} {W : ℕ → Prop} {c : Core}
    {next : Slot → FsM (Option Slot × Mem)} {ip : Slot} {name : Mem}
    (h : ∀ ip c, Walks u W (next ip) c fun _ _ => True) : Walks u W (do
      match ← ip.lookup sb name with
      | none => do
        ip.unlockput sb
        pure (none, name)
      | some ip' => do
        ip.unlockput sb
        next ip') c fun _ _ => True := by
  refine (ip.aside_lookup sb name).walks fun r c' => ?_
  cases r with
  | none => exact (ip.aside_unlockput sb).walks fun _ _ => trivial
  | some next => exact (ip.aside_unlockput sb).walks fun _ c => h next c

section Path

variable (sb : Superblock) {u : Mem} {W : ℕ → Prop} {path : ℕ} (hW : ∀ a, InString u path a → W a)
  {i : ℕ} {c : Core}

include hW

theorem uload_walks {n : ℕ} (h : ∀ x < n, Live u path (i + x)) :
    Walks u W (uload ((path + i) % addrSpace) n) c fun m _ =>
      ∀ x < n, m x = u ((path + (i + x)) % addrSpace) := by
  refine ⟨fun x hx => ?_, fun m hm x hx => ?_⟩
  · rw [Nat.mod_add_mod, Nat.add_assoc]
    exact hW _ ⟨i + x, h x hx, rfl⟩
  · have hread := hm x hx
    rwa [Nat.mod_add_mod, Nat.add_assoc] at hread

theorem uchar_walks (hi : Live u path i) : Walks u W (uchar (path + i)) c fun b _ =>
    b = u ((path + i) % addrSpace) := by
  have hone : ∀ x < 1, Live u path (i + x) := fun x hx => hi.mono (by omega)
  unfold uchar
  exact (uload_walks hW hone).bind fun m c' hm => hm 0 Nat.one_pos

/-- The end is not passed. -/
theorem skipSlashes_walks (n : ℕ) (hi : Live u path i) : Walks u W (skipSlashes n (path + i)) c
    fun a _ => ∃ j, Live u path j ∧ a = path + j := by
  induction n generalizing i c with
  | zero => exact trivial
  | succ n ih =>
    unfold skipSlashes
    refine (uchar_walks hW hi).bind fun b c' hb => ?_
    split_ifs with hslash
    · refine ih (hi.succ ?_)
      rw [← hb, hslash]
      decide
    · exact ⟨i, hi, rfl⟩

theorem skipName_walks (n : ℕ) (hi : Live u path i) : Walks u W (skipName n (path + i)) c
    fun a _ => ∃ j, Live u path j ∧ a = path + j := by
  induction n generalizing i c with
  | zero => exact trivial
  | succ n ih =>
    unfold skipName
    refine (uchar_walks hW hi).bind fun b c' hb => ?_
    split_ifs with hend
    · exact ⟨i, hi, rfl⟩
    · exact ih (hi.succ fun h0 => hend (Or.inr (hb.trans h0)))

theorem skipelem_walks (name : Mem) (hi : Live u path i) : Walks u W (skipelem (path + i) name) c
    fun r _ => ∀ a ∈ r.1, ∃ j, Live u path j ∧ a = path + j := by
  unfold skipelem
  refine (skipSlashes_walks hW _ hi).bind ?_
  rintro _ c₁ ⟨j, hj, rfl⟩
  refine (uchar_walks hW hj).bind fun b c₂ _ => ?_
  split_ifs
  · exact fun a ha => absurd ha (Option.not_mem_none a)
  · refine (skipName_walks hW _ hj).bind ?_
    rintro _ c₃ ⟨l, hl, rfl⟩
    have hrest {src : Mem} (g : Mem → Mem) {c : Core} : Walks u W (do
        let path ← skipSlashes addrSpace (path + l)
        pure (some path, g src) : FsM (Option ℕ × Mem)) c
        fun r _ => ∀ a ∈ r.1, ∃ j, Live u path j ∧ a = path + j := by
      refine (skipSlashes_walks hW _ hl).bind ?_
      rintro a c' ⟨m, hm, rfl⟩ _ ha
      cases ha
      exact ⟨m, hm, rfl⟩
    -- the name ends where the path has been looked at
    have hname {n : ℕ} (h : n ≤ path + l - (path + j)) : ∀ x < n, Live u path (j + x) :=
      fun x hx => hl.mono (by omega)
    dsimp only
    split_ifs with hlong
    · refine (uload_walks hW (hname hlong)).bind fun src c₄ _ => ?_
      exact hrest fun src => name.copy 0 src 0 DIRSIZ
    · refine (uload_walks hW (hname le_rfl)).bind fun src c₄ _ => ?_
      exact hrest fun src => (name.copy 0 src 0 _).store 1 _ 0

theorem namexLoop_walks (parent : Bool) (n : ℕ) (ip : Slot) (name : Mem) (hi : Live u path i) :
    Walks u W (namexLoop sb parent n ip (path + i) name) c fun _ _ => True := by
  induction n generalizing ip i name c with
  | zero => exact trivial
  | succ n ih =>
    unfold namexLoop
    refine (skipelem_walks hW name hi).bind ?_
    rintro ⟨_ | a, name⟩ c₁ hr
    · cases parent with
      | true => exact (ip.aside_put sb).walks fun _ _ => trivial
      | false => exact trivial
    · obtain ⟨j, hj, rfl⟩ := hr a rfl
      have hnext (ip' : Slot) (c : Core) : Walks u W
          (namexLoop sb parent n ip' (path + j) name) c fun _ _ => True := ih ip' name hj
      refine (ip.aside_lock sb).walks fun _ c₂ => ?_
      refine (aside_inode ip).walks fun i' c₃ => ?_
      split_ifs with htype hparent
      · exact (ip.aside_unlockput sb).walks fun _ _ => trivial
      · refine (uchar_walks hW hj).bind fun b c₄ _ => ?_
        dsimp only
        split_ifs
        · exact ip.aside_unlock.walks fun _ _ => trivial
        · exact lookupNext_walks sb hnext
      · dsimp only
        rw [Prog.pure_eq, Prog.ret_bind, if_neg fun h => hparent h.1]
        exact lookupNext_walks sb hnext

end Path

variable (sb : Superblock)

/-- A path is looked up in the string that it is. -/
theorem namex_walks {u : Mem} {W : ℕ → Prop} {path : ℕ} (hW : ∀ a, InString u path a → W a)
    (cwd : Slot) (parent : Bool) (name : Mem) (c : Core) :
    Walks u W (namex sb cwd path parent name) c fun _ _ => True := by
  have hlive : Live u path 0 := fun j hj => absurd hj (Nat.not_lt_zero j)
  have hloop (ip : Slot) (c : Core) : Walks u W (namexLoop sb parent addrSpace ip path name) c
      fun _ _ => True := namexLoop_walks sb hW (i := 0) parent addrSpace ip name hlive
  unfold namex
  refine (uchar_walks hW (i := 0) hlive).bind fun b c' _ => ?_
  split_ifs
  · exact (aside_iget _ _).walks fun ip c' => hloop ip c'
  · exact hloop cwd c'

theorem sysOpen_walks {u : Mem} {W : ℕ → Prop} {path : ℕ} (hW : ∀ a, InString u path a → W a)
    (p mode : ℕ) (c : Core) : Walks u W (sysOpen sb p path mode) c fun _ _ => True := by
  unfold sysOpen openInode create createWith nameiparent namei
  refine (aside_proc p).walks fun x c₁ => ?_
  refine Prog.Touches.bind (Q := fun _ _ => True) ?_ fun r c _ => ?_
  swap
  · cases r with
    | none => exact trivial
    | some ip => exact (aside_openFile sb p ip mode).touches fun _ ho => ho.loads W
  split_ifs
  · refine (namex_walks sb hW _ true nameInit c₁).bind fun r c₂ _ => ?_
    obtain ⟨_ | dp, name⟩ := r
    · exact trivial
    · exact (aside_createIn sb dp name _ _ _).touches fun _ ho => ho.loads W
  · refine Prog.Touches.bind (Q := fun _ _ => True) ?_ fun r c₂ _ => ?_
    · exact (namex_walks sb hW _ false nameInit c₁).bind fun r c₂ _ => trivial
    · cases r with
      | none => exact trivial
      | some ip =>
        refine (ip.aside_lock sb).walks fun _ c₃ => ?_
        refine (aside_inode ip).walks fun i c₄ => ?_
        split_ifs
        · exact (ip.aside_unlockput sb).walks fun _ _ => trivial
        · exact trivial

theorem sysChdir_walks {u : Mem} {W : ℕ → Prop} {path : ℕ} (hW : ∀ a, InString u path a → W a)
    (p : ℕ) (c : Core) : Walks u W (sysChdir sb p path) c fun _ _ => True := by
  unfold sysChdir namei
  refine (aside_proc p).walks fun x c₁ => ?_
  refine Prog.Touches.bind (Q := fun _ _ => True) ?_ fun r c₂ _ => ?_
  · exact (namex_walks sb hW _ false nameInit c₁).bind fun r c₂ _ => trivial
  · cases r with
    | none => exact trivial
    | some ip =>
      refine (ip.aside_lock sb).walks fun _ c₃ => ?_
      refine (aside_inode ip).walks fun i c₄ => ?_
      split_ifs
      · exact (ip.aside_unlockput sb).walks fun _ _ => trivial
      · refine ip.aside_unlock.walks fun _ c₅ => ?_
        refine (x.cwd.aside_put sb).walks fun _ c₆ => ?_
        exact (aside_setProc p _).walks fun _ _ => trivial

end Multiplix.Fs
