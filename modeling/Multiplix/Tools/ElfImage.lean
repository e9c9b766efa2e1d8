import Multiplix.Lib.ByteMem
import Mathlib.Data.List.Sort

/-! The image that `plboot` takes out of an ELF file: `ElfLoader.Load` on what `debug/elf` reports.
A call that panics is `none`. -/
namespace Multiplix.Tools
open Lib

/-- `elf.Section` -/
structure Section where
  type : ℕ
  flags : ℕ
  addr : ℕ
  addr_lt : addr < 2 ^ 64

/-- `elf.Prog`, with what reading all of its body gives: its bytes are part of the file, which is in
memory, and as many as the header says. -/
structure ElfProg where
  type : ℕ
  off : ℕ
  paddr : ℕ
  filesz : ℕ
  body : Except String (List Byte)
  paddr_lt : paddr < 2 ^ 64
  body_length : ∀ data, body = .ok data → data.length = filesz ∧ filesz < 2 ^ 63

structure ElfFile where
  sections : List Section
  progs : List ElfProg

structure Segment where
  addr : ℕ
  data : List Byte

def ptLoad : ℕ := 1

def shtProgbits : ℕ := 1

def shfAlloc : ℕ := 2

/-- The maximum allowed bytes to be padded. -/
def maxPadBytes : ℕ := 4095

/-- The lowest section address. -/
def startAddr (sections : List Section) : ℕ :=
  sections.foldl (fun startAddr sec =>
    if sec.type ≠ shtProgbits ∨ sec.flags &&& shfAlloc = 0 then startAddr
    else if sec.addr < startAddr then sec.addr else startAddr) (2 ^ 64 - 1)

/-- One turn of the loop over the segments. -/
def appendProg (base : ℕ) (rom : List Byte) (prog : ElfProg) : Except String (List Byte) :=
  let romEnd := (base + rom.length) % 2 ^ 64
  -- a bit of padding between segments
  let rom := if romEnd < prog.paddr ∧ prog.paddr < (romEnd + 16) % 2 ^ 64 then
      rom ++ List.replicate (prog.paddr - romEnd) 0
    else rom
  let romEnd := (base + rom.length) % 2 ^ 64
  let diff := if prog.paddr ≠ romEnd then (prog.paddr + 2 ^ 64 - romEnd) % 2 ^ 64 else 0
  if diff > maxPadBytes then .error "ROM segments are non-contiguous"
  else
    match prog.body with
    | .error err => .error ("failed to extract segment from ELF file: " ++ err)
    | .ok data => .ok (rom ++ List.replicate diff 0 ++ data)

section Load

variable (sort : List ElfProg → List ElfProg)

/-- `sort.Sort`, which leaves open the order of equal elements. -/
def Sorts : Prop :=
  ∀ l, (sort l).Perm l ∧ (sort l).Pairwise fun p q => p.paddr ≤ q.paddr

def load (parsed : Except String ElfFile) : Option (Except String (List Segment × ℕ)) :=
  match parsed with
  | .error err => some (.error err)
  | .ok f =>
    let startAddr := startAddr f.sections
    let progs := f.progs.filter fun prog =>
      !decide (prog.type ≠ ptLoad ∨ prog.filesz = 0 ∨ prog.off = 0)
    match sort progs with
    | [] => some (.error "file does not contain ROM segments")
    | prog :: progs =>
      match (prog :: progs).foldlM (appendProg prog.paddr) [] with
      | .error err => some (.error err)
      | .ok rom =>
        if prog.paddr < startAddr then
          -- slicing from behind the end panics
          if startAddr - prog.paddr ≤ rom.length then
            some (.ok ([⟨prog.paddr, rom.drop (startAddr - prog.paddr)⟩], startAddr))
          else none
        else some (.ok ([⟨prog.paddr, rom⟩], prog.paddr))

end Load

/-! ### What the image is -/

/-- A `PT_LOAD` header with bytes in the file. -/
def ElfProg.isLoad (prog : ElfProg) : Bool := prog.type == ptLoad && prog.filesz != 0

def ElfProg.Covers (prog : ElfProg) (a : ℕ) : Prop :=
  prog.paddr ≤ a ∧ a < prog.paddr + prog.filesz

/-- The data are the bytes of the segments from `entry` on, and zero elsewhere. -/
structure ImageOf (progs : List ElfProg) (data : List Byte) (entry : ℕ) : Prop where
  copied : ∀ prog ∈ progs, ∃ body, prog.body = .ok body ∧
    ∀ i < prog.filesz, entry ≤ prog.paddr + i → data[prog.paddr + i - entry]? = body[i]?
  zero : ∀ k < data.length, (∀ prog ∈ progs, ¬ prog.Covers (entry + k)) → data[k]? = some 0

/-- One segment is returned, which is the image of the headers of a kind. -/
def Extracts (sort : List ElfProg → List ElfProg) (f : ElfFile) (take : ElfProg → Bool) : Prop :=
  ∀ segs entry, load sort (.ok f) = some (.ok (segs, entry)) →
    ∃ seg, segs = [seg] ∧ ImageOf (f.progs.filter take) seg.data entry

/-- A section of the program starts in a segment that is copied, or right behind it. -/
def ElfFile.Starts (f : ElfFile) (take : ElfProg → Bool) : Prop :=
  ∃ sec ∈ f.sections, (sec.type = shtProgbits ∧ sec.flags &&& shfAlloc ≠ 0) ∧
    ∃ prog ∈ f.progs.filter take, sec.addr ≤ prog.paddr + prog.filesz

/-! ### The loop -/

section Loop

variable {base : ℕ} {rom rom' : List Byte} {prog : ElfProg} {progs : List ElfProg}

/-- A segment is put at its address, behind zeros. -/
theorem appendProg_ok (hlen : base + rom.length < prog.paddr + 2 ^ 63)
    (h : appendProg base rom prog = .ok rom') : ∃ gap body, prog.body = .ok body ∧
      base + rom.length + gap = prog.paddr ∧ rom' = rom ++ List.replicate gap 0 ++ body := by
  have hp := prog.paddr_lt
  have hmax : maxPadBytes = 4095 := rfl
  unfold appendProg at h
  dsimp only at h
  by_cases hpad : (base + rom.length) % 2 ^ 64 < prog.paddr ∧
      prog.paddr < ((base + rom.length) % 2 ^ 64 + 16) % 2 ^ 64
  · rw [if_pos hpad, List.length_append, List.length_replicate] at h
    have hend : (base + (rom.length + (prog.paddr - (base + rom.length) % 2 ^ 64))) % 2 ^ 64 =
        prog.paddr := by omega
    rw [hend, if_neg (not_not.mpr rfl), if_neg (by omega)] at h
    cases hb : prog.body with
    | error err =>
      rw [hb] at h
      cases h
    | ok data =>
      rw [hb] at h
      cases h
      refine ⟨prog.paddr - (base + rom.length) % 2 ^ 64, data, rfl, by omega, ?_⟩
      rw [List.replicate_zero, List.append_nil]
  · rw [if_neg hpad] at h
    split_ifs at h with hne hdiff hdiff
    all_goals
      cases hb : prog.body with
      | error err =>
        rw [hb] at h
        cases h
      | ok data =>
        rw [hb] at h
        cases h
        refine ⟨_, data, rfl, ?_, rfl⟩
        omega

/-- Behind the bytes that were there, the image has the segments at their addresses and zeros. -/
theorem foldlM_appendProg (hsorted : progs.Pairwise fun p q => p.paddr ≤ q.paddr)
    (hle : ∀ prog ∈ progs, base ≤ prog.paddr ∧ base + rom.length < prog.paddr + 2 ^ 63)
    (h : progs.foldlM (appendProg base) rom = .ok rom') : rom <+: rom' ∧
      (∀ prog ∈ progs, ∃ body, prog.body = .ok body ∧
        prog.paddr + prog.filesz ≤ base + rom'.length ∧
        ∀ i < prog.filesz, rom'[prog.paddr - base + i]? = body[i]?) ∧
      ∀ k, rom.length ≤ k → k < rom'.length → (∀ prog ∈ progs, ¬ prog.Covers (base + k)) →
        rom'[k]? = some 0 := by
  induction progs generalizing rom with
  | nil =>
    cases h
    exact ⟨List.prefix_refl _, by simp, fun k hk hk' => by omega⟩
  | cons prog progs ih =>
    obtain ⟨hfirst, hsorted⟩ := List.pairwise_cons.mp hsorted
    obtain ⟨hbase, hlen⟩ := hle prog List.mem_cons_self
    rw [List.foldlM_cons] at h
    cases hstep : appendProg base rom prog with
    | error err =>
      rw [hstep] at h
      cases h
    | ok rom₁ =>
      rw [hstep] at h
      obtain ⟨gap, body, hbody, hgap, rfl⟩ := appendProg_ok hlen hstep
      obtain ⟨hfilesz, hsmall⟩ := prog.body_length body hbody
      have hlen₁ : (rom ++ List.replicate gap 0 ++ body).length =
          rom.length + gap + prog.filesz := by
        rw [List.length_append, List.length_append, List.length_replicate, hfilesz]
      obtain ⟨hlead, hcopied, hzero⟩ := ih hsorted (fun q hq => by
        have hq' := hfirst q hq
        exact ⟨by omega, by omega⟩) h
      have hle' := hlead.length_le
      rw [hlen₁] at hle' hzero
      have hget : ∀ k < rom.length + gap + prog.filesz,
          rom'[k]? = (rom ++ List.replicate gap 0 ++ body)[k]? := fun k hk => by
        obtain ⟨rest, rfl⟩ := hlead
        exact List.getElem?_append_left (by omega)
      refine ⟨?_, ?_, ?_⟩
      · exact (((List.prefix_append _ _).trans (List.prefix_append _ _)).trans hlead)
      · intro q hq
        rcases List.mem_cons.mp hq with rfl | hq
        · refine ⟨body, hbody, by omega, fun i hi => ?_⟩
          rw [hget _ (by omega), List.getElem?_append_right ?_]
          · congr 1
            rw [List.length_append, List.length_replicate]
            omega
          · rw [List.length_append, List.length_replicate]
            omega
        · exact hcopied q hq
      · intro k hk hk' hout
        by_cases hin : k < rom.length + gap + prog.filesz
        · have hprog := hout prog List.mem_cons_self
          unfold ElfProg.Covers at hprog
          have hgapk : k < rom.length + gap := by omega
          rw [hget k hin, List.getElem?_append_left, List.getElem?_append_right hk,
            List.getElem?_replicate, if_pos (by omega)]
          rw [List.length_append, List.length_replicate]
          exact hgapk
        · exact hzero k (by omega) hk' fun q hq => hout q (List.mem_cons_of_mem _ hq)

end Loop

section Lowest

variable {step : ℕ → Section → ℕ} {start bound : ℕ} {sec : Section} {sections : List Section}

theorem foldl_le (hstep : ∀ a s, step a s ≤ a) : sections.foldl step start ≤ start := by
  induction sections generalizing start with
  | nil => exact le_rfl
  | cons s sections ih => exact ih.trans (hstep start s)

/-- The address found so far only goes down, and is lowered by the section. -/
theorem foldl_le_of_mem (hstep : ∀ a s, step a s ≤ a) (hsec : ∀ a, step a sec ≤ bound)
    (hm : sec ∈ sections) : sections.foldl step start ≤ bound := by
  induction sections generalizing start with
  | nil => exact absurd hm List.not_mem_nil
  | cons s sections ih =>
    rcases List.mem_cons.mp hm with rfl | hm
    · have hle : sections.foldl step (step start sec) ≤ step start sec := foldl_le hstep
      exact hle.trans (hsec start)
    · exact ih hm

theorem startAddr_le (hsec : sec ∈ sections)
    (ht : sec.type = shtProgbits ∧ sec.flags &&& shfAlloc ≠ 0) :
    startAddr sections ≤ sec.addr := by
  refine foldl_le_of_mem (fun a s => ?_) (fun a => ?_) hsec
  · split_ifs <;> omega
  · rw [if_neg (by rw [not_or, not_not]; exact ht)]
    split_ifs <;> omega

end Lowest

/-- A header that the loop takes. -/
def ElfProg.taken (prog : ElfProg) : Bool := prog.isLoad && prog.off != 0

theorem filter_taken (progs : List ElfProg) :
    progs.filter (fun prog => !decide (prog.type ≠ ptLoad ∨ prog.filesz = 0 ∨ prog.off = 0)) =
      progs.filter ElfProg.taken := by
  refine List.filter_congr fun prog _ => ?_
  unfold ElfProg.taken ElfProg.isLoad
  rw [Bool.eq_iff_iff]
  simp [and_assoc]

/-- The image of all segments may be cut at the front. -/
theorem imageOf_drop {base d : ℕ} {rom : List Byte} {progs : List ElfProg}
    (hbase : ∀ prog ∈ progs, base ≤ prog.paddr)
    (hcopied : ∀ prog ∈ progs, ∃ body, prog.body = .ok body ∧
      prog.paddr + prog.filesz ≤ base + rom.length ∧
      ∀ i < prog.filesz, rom[prog.paddr - base + i]? = body[i]?)
    (hzero : ∀ k < rom.length, (∀ prog ∈ progs, ¬ prog.Covers (base + k)) → rom[k]? = some 0) :
    ImageOf progs (rom.drop d) (base + d) where
  copied prog hprog := by
    obtain ⟨body, hbody, -, hbytes⟩ := hcopied prog hprog
    refine ⟨body, hbody, fun i hi hle => ?_⟩
    have hb := hbase prog hprog
    rw [List.getElem?_drop, ← hbytes i hi]
    congr 1
    omega
  zero k hk hout := by
    rw [List.length_drop] at hk
    rw [List.getElem?_drop]
    exact hzero _ (by omega) fun prog hprog => by
      rw [← Nat.add_assoc]
      exact hout prog hprog

/-- What `Load` returns is the image of the headers whose bytes do not start the file, and it
returns unless the program starts behind them all. -/
theorem load_extracts {sort : List ElfProg → List ElfProg} (hs : Sorts sort) (f : ElfFile) :
    Extracts sort f ElfProg.taken ∧ (f.Starts ElfProg.taken → load sort (.ok f) ≠ none) := by
  obtain ⟨hperm, hsorted⟩ := hs (f.progs.filter ElfProg.taken)
  unfold Extracts load
  dsimp only
  rw [filter_taken]
  cases hl : sort (f.progs.filter ElfProg.taken) with
  | nil =>
    refine ⟨fun segs entry h => ?_, fun _ => Option.some_ne_none _⟩
    cases h
  | cons first progs =>
    rw [hl] at hperm hsorted
    have hfirst : ∀ prog ∈ first :: progs, first.paddr ≤ prog.paddr := fun prog hprog => by
      rcases List.mem_cons.mp hprog with rfl | hprog
      · exact le_rfl
      · exact (List.pairwise_cons.mp hsorted).1 prog hprog
    dsimp only
    cases hrom : (first :: progs).foldlM (appendProg first.paddr) [] with
    | error err =>
      refine ⟨fun segs entry h => ?_, fun _ => Option.some_ne_none _⟩
      cases h
    | ok rom =>
      obtain ⟨-, hcopied, hzero⟩ := foldlM_appendProg hsorted (fun prog hprog => by
        have hle := hfirst prog hprog
        exact ⟨hle, by rw [List.length_nil]; omega⟩) hrom
      have himage (d : ℕ) : ImageOf (f.progs.filter ElfProg.taken) (rom.drop d)
          (first.paddr + d) :=
        imageOf_drop (fun prog hprog => hfirst prog (hperm.mem_iff.mpr hprog))
          (fun prog hprog => hcopied prog (hperm.mem_iff.mpr hprog))
          fun k hk hout => hzero k (Nat.zero_le k) hk fun prog hprog =>
            hout prog (hperm.mem_iff.mp hprog)
      dsimp only
      constructor
      · intro segs entry h
        split_ifs at h with hlt hle
        · cases h
          have hcut := himage (startAddr f.sections - first.paddr)
          rw [Nat.add_sub_cancel' hlt.le] at hcut
          exact ⟨_, rfl, hcut⟩
        · cases h
          exact ⟨_, rfl, himage 0⟩
      · rintro ⟨sec, hsec, htype, prog, hprog, hend⟩
        have hstart := startAddr_le hsec htype
        obtain ⟨body, -, hfits, -⟩ := hcopied prog (hperm.mem_iff.mpr hprog)
        split_ifs with hlt hle
        · exact Option.some_ne_none _
        · omega
        · exact Option.some_ne_none _

/-- What `sort.Sort` does with few elements. -/
def byPaddr : List ElfProg → List ElfProg := List.insertionSort fun p q => p.paddr ≤ q.paddr

theorem sorts_byPaddr : Sorts byPaddr := fun l => by
  have htotal : Std.Total fun p q : ElfProg => p.paddr ≤ q.paddr := ⟨fun _ _ => le_total _ _⟩
  have htrans : IsTrans ElfProg fun p q => p.paddr ≤ q.paddr := ⟨fun _ _ _ => le_trans⟩
  exact ⟨List.perm_insertionSort _ l, List.pairwise_insertionSort _ l⟩

/-- A byte at an address, from an offset in the file. -/
def byteAt (off paddr : ℕ) (b : Byte) (h : paddr < 2 ^ 64) : ElfProg where
  type := ptLoad
  off := off
  paddr := paddr
  filesz := 1
  body := .ok [b]
  paddr_lt := h
  body_length data hdata := by
    cases hdata
    exact ⟨rfl, by decide⟩

/-- A program of one byte, and another behind it. -/
def twoBytes (off : ℕ) : ElfFile where
  sections := [⟨shtProgbits, shfAlloc, 0x80000000, by decide⟩]
  progs := [byteAt off 0x80000001 2 (by decide), byteAt 4096 0x80000000 1 (by decide)]

theorem load_extracts_two : Extracts byPaddr (twoBytes 4097) ElfProg.taken ∧
    ((twoBytes 4097).Starts ElfProg.taken → load byPaddr (.ok (twoBytes 4097)) ≠ none) :=
  load_extracts sorts_byPaddr _

/-- The same where the second byte is the first of the file. -/
theorem not_extracts_two : Sorts byPaddr ∧ ¬ Extracts byPaddr (twoBytes 0) ElfProg.isLoad := by
  refine ⟨sorts_byPaddr, fun h => ?_⟩
  obtain ⟨seg, hseg, himage⟩ := h [⟨0x80000000, [1]⟩] 0x80000000 rfl
  cases hseg
  obtain ⟨body, hbody, hbytes⟩ := himage.copied (byteAt 0 0x80000001 2 (by decide))
    (List.mem_filter.mpr ⟨List.mem_cons_self, rfl⟩)
  cases hbody
  exact absurd (hbytes 0 (by decide) (by decide)) (by decide)

end Multiplix.Tools
