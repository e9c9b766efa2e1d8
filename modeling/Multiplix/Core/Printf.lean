import Multiplix.Core.Fmt

/-! `Formatter.vwritef` of `core.fmt`: its loop over the format string, and the pieces that a
format string consists of. -/
namespace Multiplix.Core
open Lib

def ch (c : Char) : Byte := BitVec.ofNat 8 c.toNat

/-- A string in memory, by its bytes up to the terminating NUL. -/
structure CString where
  bytes : List Byte
  ne_zero : ∀ c ∈ bytes, c ≠ 0

/-- A slot of the argument list: the word that `va_arg` reads and, where it is a pointer to
characters, the string it points to. -/
structure Arg where
  word : BitVec 64
  str : CString

inductive Fault
  /-- a read of the format string that is not of its bytes or of its NUL -/
  | overread
  /-- `va_arg` with no argument left -/
  | noArg
  /-- an index outside the buffer of `itoa` -/
  | buffer
  /-- the loop has not ended -/
  | fuel
  deriving DecidableEq

section Vwritef

/-- `fmt[i]`. The index is an `int`: the address is computed with its sign. -/
def fmtAt (fmt : List Byte) (i : BitVec 32) : Except Fault Byte :=
  if i.slt 0#32 then .error .overread
  else if h : i.toNat < fmt.length then .ok fmt[i.toNat]
  else if i.toNat = fmt.length then .ok 0
  else .error .overread

def vaArg : List Arg → Except Fault (Arg × List Arg)
  | [] => .error .noArg
  | a :: args => .ok (a, args)

/-- `write_elem(value, base)` -/
def writeInt (S : IntType) (value : S.Word) (base : BitVec 32) : Except Fault (List Byte) :=
  match S.write_elem value base with
  | none => .error .buffer
  | some cs => .ok cs

/-- The switch after `%l`: what is written and the arguments left. -/
def longSwitch (c : Byte) (ap : List Arg) : Except Fault (List Byte × List Arg) :=
  if c = ch 'd' then do
    let (a, ap) ← vaArg ap
    let cs ← writeInt .long a.word 10
    .ok (cs, ap)
  else if c = ch 'u' then do
    let (a, ap) ← vaArg ap
    let cs ← writeInt .ulong a.word 10
    .ok (cs, ap)
  else if c = ch 'x' then do
    let (a, ap) ← vaArg ap
    let cs ← writeInt .ulong a.word 16
    .ok (ch '0' :: ch 'x' :: cs, ap)
  else .ok ([ch '%', ch 'l', c], ap)

/-- The switch after `%`, but for `l`. -/
def charSwitch (c : Byte) (ap : List Arg) : Except Fault (List Byte × List Arg) :=
  if c = ch 'd' then do
    let (a, ap) ← vaArg ap
    let cs ← writeInt .int (a.word.setWidth 32) 10
    .ok (cs, ap)
  else if c = ch 'u' then do
    let (a, ap) ← vaArg ap
    let cs ← writeInt .uint (a.word.setWidth 32) 10
    .ok (cs, ap)
  else if c = ch 'x' then do
    let (a, ap) ← vaArg ap
    let cs ← writeInt .uint (a.word.setWidth 32) 16
    .ok (ch '0' :: ch 'x' :: cs, ap)
  else if c = ch 'p' then do
    let (a, ap) ← vaArg ap
    let cs ← writeInt .ulong a.word 16
    .ok (ch '0' :: ch 'x' :: cs, ap)
  else if c = ch 'c' then do
    let (a, ap) ← vaArg ap
    .ok ([a.word.setWidth 8], ap)
  else if c = ch 's' then do
    let (a, ap) ← vaArg ap
    .ok (if a.word = 0 then "(null)".toList.map ch else a.str.bytes, ap)
  else if c = ch '%' then .ok ([ch '%'], ap)
  else .ok ([ch '%', c], ap)

/-- The loop from index `i` on, with what has been written. -/
def vwritefLoop (fmt : List Byte) :
    ℕ → BitVec 32 → List Arg → List Byte → Except Fault (List Byte × List Arg)
  | 0, _, _, _ => .error .fuel
  | fuel + 1, i, ap, out => do
    let c ← fmtAt fmt i
    if c = 0 then .ok (out, ap)
    else if c ≠ ch '%' then vwritefLoop fmt fuel (i + 1#32) ap (out ++ [c])
    else
      let c ← fmtAt fmt (i + 1#32)
      if c = 0 then .ok (out, ap)
      else if c = ch 'l' then
        let c ← fmtAt fmt (i + 2#32)
        -- This `break` leaves the switch, not the loop: the index steps over the NUL.
        if c = 0 then vwritefLoop fmt fuel (i + 3#32) ap out
        else
          let (cs, ap) ← longSwitch c ap
          vwritefLoop fmt fuel (i + 3#32) ap (out ++ cs)
      else
        let (cs, ap) ← charSwitch c ap
        vwritefLoop fmt fuel (i + 2#32) ap (out ++ cs)

/-- What is sent to `putc`, and the arguments that were not consumed. -/
def vwritef (fuel : ℕ) (fmt : CString) (ap : List Arg) : Except Fault (List Byte × List Arg) :=
  vwritefLoop fmt.bytes fuel 0 ap []

end Vwritef

section Pieces

/-- The conversions that take an argument. -/
inductive Conv
  | d
  | u
  | x
  | p
  | c
  | s
  | ld
  | lu
  | lx
  deriving DecidableEq

namespace Conv

/-- What the conversion prints for an argument. -/
def text (k : Conv) (a : Arg) : List Byte :=
  match k with
  | d => (IntType.write_elem .int (a.word.setWidth 32) 10).getD []
  | u => (IntType.write_elem .uint (a.word.setWidth 32) 10).getD []
  | x => ch '0' :: ch 'x' :: (IntType.write_elem .uint (a.word.setWidth 32) 16).getD []
  | p => ch '0' :: ch 'x' :: (IntType.write_elem .ulong a.word 16).getD []
  | c => [a.word.setWidth 8]
  | s => if a.word = 0 then "(null)".toList.map ch else a.str.bytes
  | ld => (IntType.write_elem .long a.word 10).getD []
  | lu => (IntType.write_elem .ulong a.word 10).getD []
  | lx => ch '0' :: ch 'x' :: (IntType.write_elem .ulong a.word 16).getD []

/-- The conversion of a character after `%`. -/
def ofChar (b : Byte) : Option Conv :=
  if b = ch 'd' then some d
  else if b = ch 'u' then some u
  else if b = ch 'x' then some x
  else if b = ch 'p' then some p
  else if b = ch 'c' then some c
  else if b = ch 's' then some s
  else none

/-- The conversion of a character after `%l`. -/
def ofLong (b : Byte) : Option Conv :=
  if b = ch 'd' then some ld
  else if b = ch 'u' then some lu
  else if b = ch 'x' then some lx
  else none

end Conv

/-- What a format string consists of. -/
inductive Piece
  /-- a literal character; `%%` is one -/
  | lit (c : Byte)
  | conv (k : Conv)
  /-- an unknown conversion, with its characters -/
  | unknown (cs : List Byte)
  /-- a conversion that the end of the string cuts off after `%` -/
  | cut
  /-- a conversion that the end of the string cuts off after `%l` -/
  | cutLong
  deriving DecidableEq

def pieces : List Byte → List Piece
  | [] => []
  | c :: rest =>
    if c ≠ ch '%' then .lit c :: pieces rest
    else
      match rest with
      | [] => [.cut]
      | c :: rest =>
        if c = ch 'l' then
          match rest with
          | [] => [.cutLong]
          | c :: rest =>
            ((Conv.ofLong c).elim (.unknown [ch '%', ch 'l', c]) .conv) :: pieces rest
        else if c = ch '%' then .lit c :: pieces rest
        else ((Conv.ofChar c).elim (.unknown [ch '%', c]) .conv) :: pieces rest

/-- The number of arguments that the pieces take. -/
def needed : List Piece → ℕ
  | [] => 0
  | .conv _ :: ps => needed ps + 1
  | _ :: ps => needed ps

/-- What the pieces print, with an argument for each conversion. -/
def render : List Piece → List Arg → List Byte
  | [], _ => []
  | .lit c :: ps, args => c :: render ps args
  | .conv k :: ps, a :: args => k.text a ++ render ps args
  | .conv _ :: ps, [] => render ps []
  | .unknown cs :: ps, args => cs ++ render ps args
  | .cut :: ps, args => render ps args
  | .cutLong :: ps, args => render ps args

/-- For arguments enough, `vwritef` ends without a fault, consumes one for each conversion and
prints the pieces. -/
def Prints (fmt : CString) : Prop :=
  ∀ args : List Arg, needed (pieces fmt.bytes) ≤ args.length → ∃ fuel, vwritef fuel fmt args =
    .ok (render (pieces fmt.bytes) args, args.drop (needed (pieces fmt.bytes)))

/-- What the loop does for a piece: what is written and the arguments left. -/
def Piece.exec : Piece → List Arg → Except Fault (List Byte × List Arg)
  | .lit c, ap => .ok ([c], ap)
  | .conv _, [] => .error .noArg
  | .conv k, a :: ap => .ok (k.text a, ap)
  | .unknown cs, ap => .ok (cs, ap)
  | .cut, ap => .ok ([], ap)
  | .cutLong, ap => .ok ([], ap)

theorem writeInt_bind (S : IntType) {base : BitVec 32} (hb : base = 10 ∨ base = 16) (v : S.Word)
    (body : List Byte → Except Fault (List Byte × List Arg)) :
    (writeInt S v base >>= body) = body ((S.write_elem v base).getD []) := by
  obtain ⟨cs, hcs⟩ := IntType.exists_write_elem hb v
  rw [writeInt, hcs]
  rfl

/-- A case of the switches that reads one argument. -/
theorem vaArg_bind {k : Conv} {body : Arg × List Arg → Except Fault (List Byte × List Arg)}
    (h : ∀ a ap, body (a, ap) = .ok (k.text a, ap)) (ap : List Arg) :
    (vaArg ap >>= body) = (Piece.conv k).exec ap := by
  cases ap with
  | nil => rfl
  | cons a ap => exact h a ap

/-- The switch after `%l` does what its piece says. -/
theorem longSwitch_eq (c : Byte) (ap : List Arg) : longSwitch c ap =
    ((Conv.ofLong c).elim (.unknown [ch '%', ch 'l', c]) Piece.conv).exec ap := by
  unfold longSwitch Conv.ofLong
  split_ifs
  · exact vaArg_bind (k := .ld) (fun a _ => writeInt_bind .long (.inl rfl) a.word _) ap
  · exact vaArg_bind (k := .lu) (fun a _ => writeInt_bind .ulong (.inl rfl) a.word _) ap
  · exact vaArg_bind (k := .lx) (fun a _ => writeInt_bind .ulong (.inr rfl) a.word _) ap
  · rfl

/-- So does the switch after `%`. -/
theorem charSwitch_eq (c : Byte) (ap : List Arg) : charSwitch c ap =
    (if c = ch '%' then .lit c
      else (Conv.ofChar c).elim (.unknown [ch '%', c]) Piece.conv).exec ap := by
  by_cases hpct : c = ch '%'
  · rw [if_pos hpct, hpct]
    rfl
  · rw [if_neg hpct]
    unfold charSwitch Conv.ofChar
    split_ifs
    · exact vaArg_bind (k := .d)
        (fun a _ => writeInt_bind .int (.inl rfl) (a.word.setWidth 32) _) ap
    · exact vaArg_bind (k := .u)
        (fun a _ => writeInt_bind .uint (.inl rfl) (a.word.setWidth 32) _) ap
    · exact vaArg_bind (k := .x)
        (fun a _ => writeInt_bind .uint (.inr rfl) (a.word.setWidth 32) _) ap
    · exact vaArg_bind (k := .p) (fun a _ => writeInt_bind .ulong (.inr rfl) a.word _) ap
    · exact vaArg_bind (k := .c) (fun a ap => rfl) ap
    · exact vaArg_bind (k := .s) (fun a ap => rfl) ap
    · rfl

/-- A format string starts with a piece that is complete. -/
inductive Starts : List Byte → Piece → List Byte → Prop
  | lit {c : Byte} (rest : List Byte) : c ≠ ch '%' → Starts (c :: rest) (.lit c) rest
  | char {c : Byte} (rest : List Byte) : c ≠ ch 'l' →
      Starts (ch '%' :: c :: rest) (if c = ch '%' then .lit c
        else (Conv.ofChar c).elim (.unknown [ch '%', c]) Piece.conv) rest
  | long (c : Byte) (rest : List Byte) :
      Starts (ch '%' :: ch 'l' :: c :: rest)
        ((Conv.ofLong c).elim (.unknown [ch '%', ch 'l', c]) Piece.conv) rest

namespace Starts

variable {suf rest : List Byte} {p : Piece}

theorem pieces_eq (h : Starts suf p rest) : pieces suf = p :: pieces rest := by
  rw [pieces.eq_def]
  cases h with
  | lit rest hc => simp [hc]
  | char rest hc =>
    simp only [hc, if_false, ne_eq, not_true_eq_false]
    split_ifs with hpct
    · rw [hpct]
    · rfl
  | long c rest => simp

theorem length_lt (h : Starts suf p rest) : rest.length < suf.length := by
  cases h <;> simp only [List.length_cons] <;> omega

theorem ne_cutLong (h : Starts suf p rest) : p ≠ .cutLong := by
  have helim : ∀ (k : Option Conv) cs, k.elim (Piece.unknown cs) Piece.conv ≠ .cutLong := by
    intro k cs
    cases k <;> simp
  cases h with
  | lit => simp
  | char =>
    split_ifs
    · simp
    · exact helim _ _
  | long c => exact helim _ _

end Starts

/-- A format string is at its end, is cut off, or starts with a complete piece. -/
theorem starts_cases (suf : List Byte) : suf = [] ∨ suf = [ch '%'] ∨ suf = [ch '%', ch 'l'] ∨
    ∃ p rest, Starts suf p rest := by
  match suf with
  | [] => exact .inl rfl
  | c :: rest =>
    by_cases hc : c = ch '%'
    · subst hc
      match rest with
      | [] => exact .inr (.inl rfl)
      | c :: rest =>
        by_cases hl : c = ch 'l'
        · subst hl
          match rest with
          | [] => exact .inr (.inr (.inl rfl))
          | c :: rest => exact .inr (.inr (.inr ⟨_, _, .long c rest⟩))
        · exact .inr (.inr (.inr ⟨_, _, .char rest hl⟩))
    · exact .inr (.inr (.inr ⟨_, _, .lit rest hc⟩))

end Pieces

section Loop

variable {fmt suf rest : List Byte} {p : Piece} {n fuel : ℕ} {ap : List Arg} {out : List Byte}

/-- The rest of the string from index `n` on. -/
structure At (fmt : List Byte) (n : ℕ) (suf : List Byte) : Prop where
  drop : fmt.drop n = suf
  length : n + suf.length = fmt.length

theorem At.succ {c : Byte} (h : At fmt n (c :: suf)) : At fmt (n + 1) suf where
  drop := by rw [← List.drop_drop, h.drop]; rfl
  length := by
    have := h.length
    rw [List.length_cons] at this
    omega

/-- Up to `2 ^ 31` the index reads the next byte, or the NUL. -/
theorem At.fmtAt (h : At fmt n suf) (hlen : fmt.length < 2 ^ 31) :
    fmtAt fmt (BitVec.ofNat 32 n) = .ok (suf.headD 0) := by
  have hn := h.length
  have hidx : (BitVec.ofNat 32 n).toNat = n := by
    rw [BitVec.toNat_ofNat]
    exact Nat.mod_eq_of_lt (by omega)
  have hpos : (BitVec.ofNat 32 n).slt 0#32 = false := by
    rw [BitVec.slt_zero_eq_msb, BitVec.msb_eq_false_iff_two_mul_lt, hidx]
    omega
  cases suf with
  | nil =>
    rw [List.length_nil] at hn
    simp only [Core.fmtAt, hpos, hidx, Bool.false_eq_true, if_false]
    rw [dif_neg (by omega), if_pos (by omega)]
    rfl
  | cons c suf =>
    rw [List.length_cons] at hn
    have hc : fmt[n]? = some c := by
      rw [← List.head?_drop, h.drop]
      rfl
    obtain ⟨hlt, hget⟩ := List.getElem?_eq_some_iff.mp hc
    simp [Core.fmtAt, hpos, hidx, hlt, hget]

/-- One turn of the loop is one piece. -/
theorem vwritefLoop_piece (hlen : fmt.length < 2 ^ 31) (hz : ∀ c ∈ fmt, c ≠ 0) (hat : At fmt n suf)
    (hs : Starts suf p rest) (fuel : ℕ) (ap : List Arg) (out : List Byte) : ∃ k, At fmt k rest ∧
      vwritefLoop fmt (fuel + 1) (BitVec.ofNat 32 n) ap out =
        p.exec ap >>= fun r => vwritefLoop fmt fuel (BitVec.ofNat 32 k) r.2 (out ++ r.1) := by
  have hmem : ∀ c ∈ suf, c ≠ 0 := fun c hc => hz c (List.mem_of_mem_drop (hat.drop ▸ hc))
  have hsucc : ∀ j, BitVec.ofNat 32 n + BitVec.ofNat 32 j = BitVec.ofNat 32 (n + j) := fun j =>
    (BitVec.ofNat_add _ _).symm
  have hpct : ch '%' ≠ 0 := by decide
  have h0 := hat.fmtAt hlen
  cases hs with
  | @lit c rest hc =>
    have hc0 : c ≠ 0 := hmem c (by simp)
    refine ⟨n + 1, hat.succ, ?_⟩
    simp only [vwritefLoop, h0, List.headD_cons, bind, Except.bind, hc0, hc, if_false, if_true,
      ne_eq, not_false_eq_true, Piece.exec, hsucc]
  | @char c rest hc =>
    have hc0 : c ≠ 0 := hmem c (by simp)
    have h1 := hat.succ.fmtAt hlen
    refine ⟨n + 2, hat.succ.succ, ?_⟩
    simp only [vwritefLoop, h0, h1, List.headD_cons, bind, Except.bind, hpct, hc0, hc, if_false,
      ne_eq, not_true_eq_false, charSwitch_eq, hsucc]
  | long c rest =>
    have hc0 : c ≠ 0 := hmem c (by simp)
    have hl : ch 'l' ≠ 0 := by decide
    have h1 := hat.succ.fmtAt hlen
    have h2 := hat.succ.succ.fmtAt hlen
    refine ⟨n + 3, hat.succ.succ.succ, ?_⟩
    simp only [vwritefLoop, h0, h1, h2, List.headD_cons, bind, Except.bind, hpct, hl, hc0,
      if_false, if_true, ne_eq, not_true_eq_false, longSwitch_eq, hsucc]

/-- What a complete piece takes from the arguments and what it prints. -/
theorem exec_render {ps : List Piece} (hp : p ≠ .cutLong) (h : needed (p :: ps) ≤ ap.length) :
    ∃ cs ap', p.exec ap = .ok (cs, ap') ∧ render (p :: ps) ap = cs ++ render ps ap' ∧
      ap.drop (needed (p :: ps)) = ap'.drop (needed ps) ∧ needed ps ≤ ap'.length := by
  cases p with
  | conv k =>
    cases ap with
    | nil => simp [needed] at h
    | cons a ap =>
      simp only [needed, List.length_cons] at h
      exact ⟨k.text a, ap, rfl, rfl, by simp [needed], by omega⟩
  | lit c => exact ⟨[c], ap, rfl, rfl, rfl, h⟩
  | unknown cs => exact ⟨cs, ap, rfl, rfl, rfl, h⟩
  | cut => exact ⟨[], ap, rfl, rfl, rfl, h⟩
  | cutLong => exact absurd rfl hp

/-- The loop prints the rest of a string that no `%l` cuts off. -/
theorem vwritefLoop_prints (hlen : fmt.length < 2 ^ 31) (hz : ∀ c ∈ fmt, c ≠ 0) (hat : At fmt n suf)
    (hcut : .cutLong ∉ pieces suf) (hneed : needed (pieces suf) ≤ ap.length)
    (hf : suf.length < fuel) :
    vwritefLoop fmt fuel (BitVec.ofNat 32 n) ap out =
      .ok (out ++ render (pieces suf) ap, ap.drop (needed (pieces suf))) := by
  induction fuel generalizing suf n ap out with
  | zero => omega
  | succ fuel ih =>
    rcases starts_cases suf with rfl | rfl | rfl | ⟨p, rest, hs⟩
    · have h0 := hat.fmtAt hlen
      simp [vwritefLoop, h0, bind, Except.bind, pieces, render, needed]
    · have h0 := hat.fmtAt hlen
      have h1 := hat.succ.fmtAt hlen
      have hsucc : BitVec.ofNat 32 n + 1#32 = BitVec.ofNat 32 (n + 1) := (BitVec.ofNat_add _ _).symm
      simp [vwritefLoop, h0, h1, hsucc, bind, Except.bind, pieces, render, needed]
    · simp [pieces] at hcut
    · rw [hs.pieces_eq] at hcut hneed ⊢
      obtain ⟨cs, ap', hexec, hrender, hdrop, hneed'⟩ := exec_render hs.ne_cutLong hneed
      obtain ⟨k, hat', hloop⟩ := vwritefLoop_piece hlen hz hat hs fuel ap out
      have hlt := hs.length_lt
      rw [hloop, hexec, hrender, hdrop, ← List.append_assoc]
      exact ih hat' (fun h => hcut (List.mem_cons_of_mem _ h)) hneed' (by omega)

/-- Past the NUL there is nothing to read. -/
theorem fmtAt_past (hlen : fmt.length < 2 ^ 31) :
    fmtAt fmt (BitVec.ofNat 32 (fmt.length + 1)) = .error .overread := by
  have hidx : (BitVec.ofNat 32 (fmt.length + 1)).toNat = fmt.length + 1 := by
    rw [BitVec.toNat_ofNat]
    exact Nat.mod_eq_of_lt (by omega)
  simp [fmtAt, hidx]

/-- A string cut off after `%l` does not end the loop: the index steps over the NUL. -/
theorem vwritefLoop_cutLong (hlen : fmt.length < 2 ^ 31) (hz : ∀ c ∈ fmt, c ≠ 0)
    (hat : At fmt n suf) (hcut : .cutLong ∈ pieces suf) (r : List Byte × List Arg) :
    vwritefLoop fmt fuel (BitVec.ofNat 32 n) ap out ≠ .ok r := by
  induction fuel generalizing suf n ap out with
  | zero => simp [vwritefLoop]
  | succ fuel ih =>
    rcases starts_cases suf with rfl | rfl | rfl | ⟨p, rest, hs⟩
    · simp [pieces] at hcut
    · simp [pieces] at hcut
    · have h0 := hat.fmtAt hlen
      have h1 := hat.succ.fmtAt hlen
      have h2 := hat.succ.succ.fmtAt hlen
      have hend : n + 3 = fmt.length + 1 := by rw [← hat.length]; rfl
      have hsucc : ∀ j, BitVec.ofNat 32 n + BitVec.ofNat 32 j = BitVec.ofNat 32 (n + j) :=
        fun j => (BitVec.ofNat_add _ _).symm
      have hpct : ch '%' ≠ 0#8 := by decide
      have hl : ch 'l' ≠ 0#8 := by decide
      have hpast := fmtAt_past hlen
      cases fuel with
      | zero => simp [vwritefLoop, h0, h1, h2, hsucc, hpct, hl, bind, Except.bind]
      | succ fuel => simp [vwritefLoop, h0, h1, h2, hsucc, hpct, hl, bind, Except.bind, hend, hpast]
    · rw [hs.pieces_eq, List.mem_cons] at hcut
      have hrest := hcut.resolve_left hs.ne_cutLong.symm
      obtain ⟨k, hat', hloop⟩ := vwritefLoop_piece hlen hz hat hs fuel ap out
      rw [hloop]
      cases p.exec ap with
      | error e => simp [bind, Except.bind]
      | ok r => exact ih hat' hrest

/-- In a string of `2 ^ 31` bytes the index never reaches the NUL. -/
theorem vwritefLoop_long (hz : ∀ i, fmtAt fmt i ≠ .ok 0) (i : BitVec 32)
    (r : List Byte × List Arg) : vwritefLoop fmt fuel i ap out ≠ .ok r := by
  induction fuel generalizing i ap out with
  | zero => simp [vwritefLoop]
  | succ fuel ih =>
    have hread : ∀ i, (∃ e, fmtAt fmt i = .error e) ∨ ∃ c, fmtAt fmt i = .ok c ∧ c ≠ 0 := by
      intro i
      cases hi : fmtAt fmt i with
      | error e => exact .inl ⟨e, rfl⟩
      | ok c => exact .inr ⟨c, rfl, fun hc => hz i (hc ▸ hi)⟩
    obtain ⟨e, h0⟩ | ⟨c, h0, hc0⟩ := hread i
    · simp [vwritefLoop, h0, bind, Except.bind]
    simp only [vwritefLoop, h0, hc0, bind, Except.bind, if_false]
    split_ifs with hpct
    · exact ih _
    obtain ⟨e, h1⟩ | ⟨c, h1, hc1⟩ := hread (i + 1#32)
    · simp [h1]
    simp only [h1, hc1, if_false]
    split_ifs with hl
    · obtain ⟨e, h2⟩ | ⟨c, h2, hc2⟩ := hread (i + 2#32)
      · simp [h2]
      simp only [h2, hc2, if_false]
      cases longSwitch c ap with
      | error e => simp
      | ok r => exact ih _
    · cases charSwitch c ap with
      | error e => simp
      | ok r => exact ih _

/-- In a string of `2 ^ 31` bytes every index that is not negative is before the NUL. -/
theorem fmtAt_long (hlen : 2 ^ 31 ≤ fmt.length) (hz : ∀ c ∈ fmt, c ≠ 0) (i : BitVec 32) :
    fmtAt fmt i ≠ .ok 0 := by
  unfold fmtAt
  split_ifs with hneg hlt heq
  · simp
  · simpa using hz _ (List.getElem_mem hlt)
  · rw [Bool.not_eq_true, BitVec.slt_zero_eq_msb, BitVec.msb_eq_false_iff_two_mul_lt] at hneg
    omega
  · simp

end Loop

/-- `vwritef` parses a format string as intended exactly when its index can reach the NUL and no
conversion is cut off after `%l`. -/
theorem prints_iff (fmt : CString) :
    Prints fmt ↔ fmt.bytes.length < 2 ^ 31 ∧ Piece.cutLong ∉ pieces fmt.bytes := by
  have hat : At fmt.bytes 0 fmt.bytes := ⟨rfl, Nat.zero_add _⟩
  constructor
  · intro h
    obtain ⟨fuel, hret⟩ :=
      h (List.replicate (needed (pieces fmt.bytes)) ⟨0, ⟨[], by simp⟩⟩) (by simp)
    have hlen : fmt.bytes.length < 2 ^ 31 := by
      by_contra hge
      exact vwritefLoop_long (fmtAt_long (not_lt.mp hge) fmt.ne_zero) 0 _ hret
    exact ⟨hlen, fun hcut => vwritefLoop_cutLong hlen fmt.ne_zero hat hcut _ hret⟩
  · intro ⟨hlen, hcut⟩ ap hneed
    exact ⟨fmt.bytes.length + 1,
      vwritefLoop_prints hlen fmt.ne_zero hat hcut hneed (Nat.lt_succ_self _)⟩

/-- `"%l"` -/
def percentL : CString := ⟨[ch '%', ch 'l'], by decide⟩

theorem not_prints_percentL : ¬ Prints percentL := by
  intro h
  obtain ⟨fuel, hret⟩ := h [] (by decide)
  have hat : At percentL.bytes 0 percentL.bytes := ⟨rfl, Nat.zero_add _⟩
  exact vwritefLoop_cutLong (by decide) percentL.ne_zero hat (by decide) _ hret

end Multiplix.Core
