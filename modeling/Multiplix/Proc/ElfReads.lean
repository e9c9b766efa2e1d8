import Multiplix.Proc.LoadImage

/-! What `loadelf` reads of the image. It gets no length, so a read is a place in the memory from
`elfdat` on, with the number of its bytes. -/
namespace Multiplix.Proc
open Lib Vm

/-- A `ubyte[]`. -/
structure Slice where
  data : Mem
  length : ℕ
  length_lt : length < 2 ^ 64

def Inside (len : ℕ) (reads : List (ℕ × ℕ)) : Prop := ∀ r ∈ reads, r.1 + r.2 ≤ len

namespace ProgHeader

variable (ph : ProgHeader) (off : ℕ)

/-- The fields that are read to check a header. -/
def headerReads : List (ℕ × ℕ) :=
  (off, 4) ::
    if ph.type ≠ Prog.load then []
    else (off + 40, 8) ::
      if ph.memsz = 0 then []
      else (off + 32, 8) :: if ph.memsz < ph.filesz then [] else [(off + 16, 8)]

/-- The offset is read when there are bytes to copy. -/
def pageReads (va pad : ℕ) : List (ℕ × ℕ) :=
  let soff := (va + 2 ^ 64 - ph.vaddr) % 2 ^ 64
  if ph.filesz > soff then
    [(off + 8, 8), ((ph.offset + soff) % 2 ^ 64, min (pagesize - pad) (ph.filesz - soff))]
  else []

end ProgHeader

namespace Machine

variable (P : Platform)

/-- The reads of `loadPages`. -/
def pagesReads (bin : Mem) (ph : ProgHeader) (off pt : ℕ) :
    ℕ → ℕ → ℕ → Machine → List (ℕ × ℕ)
  | 0, _, _, _ => []
  | n + 1, va, pad, m =>
    if va < (ph.vaStart + ph.sz) % 2 ^ 64 then
      match m.kalloc with
      | (none, _) => []
      | (some mem, m) =>
        let m := { m with bytes := ph.fillPage bin va pad mem m.bytes }
        ph.pageReads off va pad ++
          match m.mappg P pt va mem .urwx with
          | (false, _) => []
          | (true, m) => pagesReads bin ph off pt n ((va + pagesize) % 2 ^ 64) 0 m
    else []

/-- The reads of `loadSegments`. -/
def segmentsReads (bin : Mem) (pt : ℕ) : ℕ → ℕ → Machine → List (ℕ × ℕ)
  | 0, _, _ => []
  | n + 1, off, m =>
    let ph := ProgHeader.read bin off
    let next := (off + ProgHeader.size) % 2 ^ 64
    ph.headerReads off ++
      if ph.type ≠ Prog.load ∨ ph.memsz = 0 then segmentsReads bin pt n next m
      else if ph.memsz < ph.filesz then []
      else if (ph.vaddr + ph.memsz) % 2 ^ 64 < ph.vaddr then []
      else
        m.pagesReads P bin ph off pt (m.heap.length + 1) ph.vaStart ph.pad ++
          match m.loadPages P bin ph pt (m.heap.length + 1) ph.vaStart ph.pad with
          | (false, _) => []
          | (true, m) => segmentsReads bin pt n next m

/-- The reads of `loadelf`. -/
def loadReads (bin : Mem) (pt : ℕ) (m : Machine) : List (ℕ × ℕ) :=
  let elf := FileHeader.read bin
  (0, 4) ::
    if elf.magic ≠ magic then []
    else (32, 8) :: (56, 2) ::
      (m.segmentsReads P bin pt elf.phnum elf.phoff ++
        match m.loadSegments P bin pt elf.phnum elf.phoff 0 with
        | (none, _) => []
        | (some _, _) => [(24, 8)])

/-- More turns than there are answers of `kalloc` change nothing, and all reads lie in the
image. -/
structure LoadSafe (bin : Slice) (pt : ℕ) (m : Machine) : Prop where
  ends : ∀ (m' : Machine) ph va pad n, m'.heap.length < n →
    m'.loadPages P bin.data ph pt n va pad =
      m'.loadPages P bin.data ph pt (m'.heap.length + 1) va pad
  inside : Inside bin.length (m.loadReads P bin.data pt)

end Machine

namespace ProgHeader

variable (ph : ProgHeader)

/-- The checks that `loadelf` makes of a segment. -/
def Checked : Prop := ph.filesz ≤ ph.memsz ∧ ph.vaddr ≤ (ph.vaddr + ph.memsz) % 2 ^ 64

/-- Where the loop over the pages stops. -/
def stop : ℕ := (ph.vaStart + ph.sz) % 2 ^ 64

/-- With enough memory, the headers after this one are read. In the last page of the address space
the loop starts over. -/
def Passes : Prop := ph.Loads → ph.Checked ∧ ph.stop ≤ 2 ^ 64 - 4096

/-- The bytes of a segment that lie in front of its first page boundary. They are not copied. -/
def first : ℕ := (4096 - ph.pad) % 4096

/-- A header at `off`, and the data of its segment, lie in the first `len` bytes. -/
structure Within (len off : ℕ) : Prop where
  type : off + 4 ≤ len
  fields : ph.type = Prog.load → off + 48 ≤ len
  data : ph.Loads → ph.Checked → ph.vaStart < ph.stop → ph.first < ph.filesz →
    (ph.offset + ph.first) % 2 ^ 64 + (ph.filesz - ph.first) ≤ len

end ProgHeader

/-- The header of segment `i`. -/
def segmentOff (off i : ℕ) : ℕ := (off + i * ProgHeader.size) % 2 ^ 64

/-- The headers up to the first one that is refused. -/
def HeadersWithin (bin : Mem) (len n off : ℕ) : Prop :=
  ∀ i < n, (∀ j < i, (ProgHeader.read bin (segmentOff off j)).Passes) →
    (ProgHeader.read bin (segmentOff off i)).Within len (segmentOff off i)

/-- The headers and the data that they name lie in the image. -/
structure Slice.Within (bin : Slice) : Prop where
  magic : 4 ≤ bin.length
  fields : (FileHeader.read bin.data).magic = Proc.magic → 58 ≤ bin.length
  headers : (FileHeader.read bin.data).magic = Proc.magic →
    HeadersWithin bin.data bin.length (FileHeader.read bin.data).phnum
      (FileHeader.read bin.data).phoff

section Inside

variable {len : ℕ} {r : ℕ × ℕ} {rs rs' : List (ℕ × ℕ)}

@[simp] theorem inside_nil : Inside len [] := by simp [Inside]

@[simp] theorem inside_cons : Inside len (r :: rs) ↔ r.1 + r.2 ≤ len ∧ Inside len rs := by
  simp [Inside]

@[simp] theorem inside_append : Inside len (rs ++ rs') ↔ Inside len rs ∧ Inside len rs' := by
  simp only [Inside, List.mem_append]
  exact ⟨fun h => ⟨fun r hr => h r (Or.inl hr), fun r hr => h r (Or.inr hr)⟩,
    fun h r hr => hr.elim (h.1 r) (h.2 r)⟩

end Inside

section Headers

variable {bin : Mem} {len n off : ℕ}

@[simp] theorem segmentOff_zero (hoff : off < 2 ^ 64) : segmentOff off 0 = off := by
  rw [segmentOff, Nat.zero_mul, Nat.add_zero, Nat.mod_eq_of_lt hoff]

theorem segmentOff_succ (i : ℕ) :
    segmentOff off (i + 1) = segmentOff ((off + ProgHeader.size) % 2 ^ 64) i := by
  rw [segmentOff, segmentOff, Nat.mod_add_mod, Nat.add_assoc, Nat.succ_mul,
    Nat.add_comm (i * ProgHeader.size)]

theorem headersWithin_succ (hoff : off < 2 ^ 64) : HeadersWithin bin len (n + 1) off ↔
    (ProgHeader.read bin off).Within len off ∧ ((ProgHeader.read bin off).Passes →
      HeadersWithin bin len n ((off + ProgHeader.size) % 2 ^ 64)) := by
  constructor
  · intro h
    constructor
    · have h0 := h 0 n.succ_pos fun j hj => absurd hj (Nat.not_lt_zero j)
      rwa [segmentOff_zero hoff] at h0
    · intro hpass i hi hprev
      rw [← segmentOff_succ]
      refine h (i + 1) (Nat.succ_lt_succ hi) fun j hj => ?_
      cases j with
      | zero => rwa [segmentOff_zero hoff]
      | succ j =>
        rw [segmentOff_succ]
        exact hprev j (Nat.lt_of_succ_lt_succ hj)
  · rintro ⟨h0, hrest⟩ i hi hprev
    cases i with
    | zero => rwa [segmentOff_zero hoff]
    | succ i =>
      have hpass := hprev 0 i.succ_pos
      rw [segmentOff_zero hoff] at hpass
      rw [segmentOff_succ]
      refine hrest hpass i (Nat.lt_of_succ_lt_succ hi) fun j hj => ?_
      rw [← segmentOff_succ]
      exact hprev (j + 1) (Nat.succ_lt_succ hj)

end Headers

namespace ProgHeader

variable {ph : ProgHeader} {len off va pad : ℕ}

theorem Checked.lt (h : ph.Checked) (hv : ph.vaddr < 2 ^ 64) (hm : ph.memsz < 2 ^ 64) :
    ph.vaddr + ph.memsz < 2 ^ 64 := by
  have := h.2
  omega

/-- Either no page is mapped, or all pages of the segment, unless the loop starts over. -/
theorem stop_cases (hlt : ph.vaddr + ph.memsz < 2 ^ 64) :
    ph.stop = 0 ∨ ph.vaStart < ph.stop ∧ ph.vaddr + ph.memsz ≤ ph.stop := by
  have hps : pagesize = 4096 := rfl
  rw [stop, vaStart, sz, pad, hps]
  omega

theorem inside_headerReads (hw : ph.Within len off) : Inside len (ph.headerReads off) := by
  have h4 := hw.type
  rw [headerReads]
  split_ifs with htype hmem hfile
  · simpa using h4
  all_goals
    have h48 := hw.fields (by simpa using htype)
    simp only [inside_cons, inside_nil, and_true]
    omega

theorem of_inside_headerReads (h : Inside len (ph.headerReads off)) :
    off + 4 ≤ len ∧ (ph.type = Prog.load → off + 48 ≤ len) := by
  rw [headerReads, inside_cons] at h
  refine ⟨h.1, fun htype => ?_⟩
  have hfields := h.2
  rw [if_neg (not_not.mpr htype), inside_cons] at hfields
  omega

/-- What is copied to a page lies in the data behind the first page boundary. -/
theorem inside_pageReads (hw : ph.Within len off) (hl : ph.Loads) (hc : ph.Checked)
    (hlt : ph.vaddr + ph.memsz < 2 ^ 64) (hva : 4096 ∣ va) (hva64 : va < 2 ^ 64)
    (hstop : va < ph.stop) : Inside len (ph.pageReads off va pad) := by
  have hfile := hc.1
  have h48 := hw.fields hl.1
  have hstart : ph.vaStart < ph.stop := by
    rcases stop_cases hlt with h | h
    · omega
    · exact h.1
  rw [pageReads]
  split_ifs with hsoff
  · have hle : ph.vaddr ≤ va := by omega
    have hfirst : ph.first ≤ va - ph.vaddr := by
      rw [first, ProgHeader.pad, show pagesize = 4096 from rfl]
      omega
    have heq : (va + 2 ^ 64 - ph.vaddr) % 2 ^ 64 = va - ph.vaddr := by omega
    rw [heq] at hsoff ⊢
    have hdata := hw.data hl hc hstart (by omega)
    simp only [inside_cons, inside_nil, and_true]
    constructor
    · omega
    · have hmin : min (pagesize - pad) (ph.filesz - (va - ph.vaddr)) ≤
          ph.filesz - (va - ph.vaddr) := min_le_right _ _
      omega
  · exact inside_nil

end ProgHeader

namespace Machine

variable {P : Platform} {m m' : Machine} {bin : Mem} {ph : ProgHeader} {pt va pa pad n off len : ℕ}

theorem kalloc_heap {p : ℕ} (hk : m.kalloc = (some p, m')) :
    m'.heap.length + 1 = m.heap.length := by
  rw [kalloc] at hk
  split at hk
  · simp at hk
  · next as heq =>
    obtain ⟨-, rfl⟩ := Prod.mk.inj hk
    simp [heq]

theorem mappg_heap {perm : Perm} {ok : Bool} (hm : m.mappg P pt va pa perm = (ok, m')) :
    m'.heap.length ≤ m.heap.length := by
  have hrest := P.ops.walkLoop_rest_le va .normal PtLevel.giga.toNat pt m.tables m.heap
  rw [mappg, PteOps.map, PteOps.walk] at hm
  generalize P.ops.walkLoop va .normal PtLevel.giga.toNat pt m.tables m.heap = w at hm hrest
  rcases hw : w.pte with _ | ⟨t, i⟩
  all_goals
    rw [hw] at hm
    obtain ⟨-, rfl⟩ := Prod.mk.inj hm
    exact hrest

theorem loadPages_ends {n' : ℕ} (hn : m.heap.length < n) (hn' : m.heap.length < n') :
    m.loadPages P bin ph pt n va pad = m.loadPages P bin ph pt n' va pad := by
  induction n generalizing m n' va pad with
  | zero => omega
  | succ n ih =>
    cases n' with
    | zero => omega
    | succ n' =>
      rw [loadPages, loadPages]
      split_ifs
      · rcases hk : m.kalloc with ⟨_ | p, m₁⟩
        · rfl
        · have h₁ := kalloc_heap hk
          dsimp only
          rcases hm : ({ m₁ with bytes := ph.fillPage bin va pad p m₁.bytes } : Machine).mappg P pt
            va p .urwx with ⟨_ | _, m₂⟩
          · rfl
          · have h₂ : m₂.heap.length ≤ m₁.heap.length := by simpa using mappg_heap hm
            exact ih (by omega) (by omega)
      · rfl

/-- A loop that reaches its end did not pass the last page of the address space. -/
theorem loadPages_stop (hva : 4096 ∣ va) (hva64 : va < 2 ^ 64)
    (hm : m.loadPages P bin ph pt n va pad = (true, m')) : ph.stop ≤ 2 ^ 64 - 4096 := by
  induction n generalizing m va pad with
  | zero => cases hm
  | succ n ih =>
    rw [loadPages] at hm
    split_ifs at hm with hlt
    · split at hm
      · cases hm
      · dsimp only at hm
        split at hm
        · cases hm
        · rw [show pagesize = 4096 from rfl] at hm
          exact ih (by omega) (Nat.mod_lt _ (by decide)) hm
    · rw [ProgHeader.stop]
      omega

theorem inside_pagesReads (hw : ph.Within len off) (hl : ph.Loads) (hc : ph.Checked)
    (hlt : ph.vaddr + ph.memsz < 2 ^ 64) (hva : 4096 ∣ va) (hva64 : va < 2 ^ 64) :
    Inside len (m.pagesReads P bin ph off pt n va pad) := by
  induction n generalizing m va pad with
  | zero => exact inside_nil
  | succ n ih =>
    rw [pagesReads]
    split_ifs with hstop
    · split
      · exact inside_nil
      · rw [inside_append]
        constructor
        · exact ProgHeader.inside_pageReads hw hl hc hlt hva hva64 hstop
        · split
          · exact inside_nil
          · rw [show pagesize = 4096 from rfl]
            exact ih (by omega) (Nat.mod_lt _ (by decide))
    · exact inside_nil

end Machine

theorem ProgHeader.read_lt (bin : Mem) (off : ℕ) :
    (ProgHeader.read bin off).vaddr < 2 ^ 64 ∧ (ProgHeader.read bin off).memsz < 2 ^ 64 :=
  ⟨Mem.load_lt 8 bin _, Mem.load_lt 8 bin _⟩

theorem ProgHeader.vaStart_dvd (ph : ProgHeader) : 4096 ∣ ph.vaStart := by
  rw [vaStart_eq]
  exact Nat.dvd_mul_left _ _

theorem ProgHeader.vaStart_le (ph : ProgHeader) : ph.vaStart ≤ ph.vaddr := Nat.sub_le _ _

theorem Machine.inside_segmentsReads {P : Platform} {m : Machine} {bin : Mem} {pt n off len : ℕ}
    (hoff : off < 2 ^ 64) (hw : HeadersWithin bin len n off) :
    Inside len (m.segmentsReads P bin pt n off) := by
  induction n generalizing m off with
  | zero => exact inside_nil
  | succ n ih =>
    rw [headersWithin_succ hoff] at hw
    obtain ⟨hhead, hrest⟩ := hw
    obtain ⟨hv, hmem⟩ := ProgHeader.read_lt bin off
    have hnext : (off + ProgHeader.size) % 2 ^ 64 < 2 ^ 64 := Nat.mod_lt _ (by decide)
    rw [segmentsReads]
    generalize ProgHeader.read bin off = ph at *
    rw [inside_append]
    refine ⟨ProgHeader.inside_headerReads hhead, ?_⟩
    split_ifs with hskip hfile hwrap
    · refine ih hnext (hrest fun hl => ?_)
      rcases hskip with h | h
      · exact absurd hl.1 h
      · exact absurd h hl.2
    · exact inside_nil
    · exact inside_nil
    · rw [not_or, not_not] at hskip
      have hc : ph.Checked := ⟨by omega, by omega⟩
      have hlt := hc.lt hv hmem
      have hstart : ph.vaStart < 2 ^ 64 := ph.vaStart_le.trans_lt hv
      rw [inside_append]
      refine ⟨inside_pagesReads hhead hskip hc hlt ph.vaStart_dvd hstart, ?_⟩
      split
      · exact inside_nil
      · next m₁ hload =>
        exact ih hnext (hrest fun _ => ⟨hc, loadPages_stop ph.vaStart_dvd hstart hload⟩)

namespace Machine

/-- A page table of superpages, which needs no memory, and `k` pages to come. -/
structure Plenty (P : Platform) (pt k : ℕ) (m : Machine) : Prop where
  heap : ∃ n ≥ k, m.heap = List.replicate n (some 0)
  stops : ∀ i, P.ops.stops (m.tables pt i) = true

section Plenty

variable {P : Platform} {m : Machine} {bin : Mem} {ph : ProgHeader} {pt va pad k t n off len : ℕ}

theorem stops_superpage (ops : PteOps) (e : Pte) :
    ops.stops (ops.mapped e 0 .giga .urwx) = true := by
  have hpos : 0 < 2 ^ ops.paBits := Nat.pow_pos (by decide)
  have hperm : Perm.urwx &&& Perm.rwx ≠ 0 := by decide
  exact (ops.mapped_spec hpos (Nat.dvd_zero _) hperm).2.2.2 (by decide)

theorem exists_plenty (P : Platform) (pt k : ℕ) : ∃ m, Plenty P pt k m :=
  ⟨⟨fun _ _ => P.ops.mapped 0 0 .giga .urwx, fun _ => 0, fun _ => 0, List.replicate k (some 0)⟩,
    ⟨k, le_rfl, rfl⟩, fun _ => stops_superpage _ _⟩

theorem Plenty.mono (h : m.Plenty P pt k) (ht : t ≤ k) : m.Plenty P pt t := by
  obtain ⟨⟨n, hn, heap⟩, hstops⟩ := h
  exact ⟨⟨n, ht.trans hn, heap⟩, hstops⟩

theorem Plenty.le_length (h : m.Plenty P pt k) : k ≤ m.heap.length := by
  obtain ⟨⟨n, hn, heap⟩, -⟩ := h
  simpa [heap] using hn

/-- A page is mapped over a superpage. -/
theorem Plenty.page (h : m.Plenty P pt (k + 1)) (va : ℕ) : ∃ m₁, m.kalloc = (some 0, m₁) ∧
    ∀ bytes, ∃ m₂, { m₁ with bytes := bytes }.mappg P pt va 0 .urwx = (true, m₂) ∧
      m₂.Plenty P pt k := by
  obtain ⟨⟨n, hn, heap⟩, hstops⟩ := h
  obtain ⟨n, rfl⟩ : ∃ j, n = j + 1 := ⟨n - 1, by omega⟩
  rw [List.replicate_succ] at heap
  refine ⟨{ m with heap := List.replicate n (some 0) }, by rw [kalloc, heap], fun bytes => ?_⟩
  have hwalk : ∀ as, P.ops.walk m.tables pt va .normal as =
      ⟨some (pt, vpn 2 va), .giga, m.tables, as⟩ := fun as => by
    rw [PteOps.walk, show PtLevel.giga.toNat = 2 from rfl, PteOps.walkLoop,
      if_pos (by decide)]
    simp only [Nat.reduceAdd, hstops, if_true]
    rfl
  rw [mappg, PteOps.map, hwalk]
  refine ⟨_, rfl, ⟨n, by omega, rfl⟩, fun i => ?_⟩
  simp only [addRef, Radix.write, Function.update_self, Function.update_apply]
  split_ifs
  · exact stops_superpage _ _
  · exact hstops i

theorem Plenty.loadPages (h : m.Plenty P pt (t + k)) (hstop : ph.stop ≤ 2 ^ 64 - 4096)
    (hturns : ph.stop ≤ va + t * 4096) (hn : t < n) :
    ∃ m', m.loadPages P bin ph pt n va pad = (true, m') ∧ m'.Plenty P pt k := by
  induction t generalizing m n va pad with
  | zero =>
    obtain ⟨n, rfl⟩ : ∃ j, n = j + 1 := ⟨n - 1, by omega⟩
    rw [Machine.loadPages, if_neg (by rw [← ProgHeader.stop]; omega)]
    exact ⟨m, rfl, h.mono (by omega)⟩
  | succ t ih =>
    obtain ⟨n, rfl⟩ : ∃ j, n = j + 1 := ⟨n - 1, by omega⟩
    rw [Machine.loadPages, ← ProgHeader.stop]
    split_ifs with hlt
    · obtain ⟨m₁, hk, hmap⟩ := (h.mono (by omega : t + k + 1 ≤ t + 1 + k)).page va
      obtain ⟨m₂, hm₂, h₂⟩ := hmap (ph.fillPage bin va pad 0 m₁.bytes)
      have hnext : (va + pagesize) % 2 ^ 64 = va + 4096 := by
        rw [show pagesize = 4096 from rfl]
        omega
      rw [hk]
      dsimp only
      rw [hm₂]
      dsimp only
      rw [hnext]
      exact ih h₂ (by omega) (by omega)
    · exact ⟨m, rfl, h.mono (by omega)⟩

/-- If all reads of the loop are inside, so is the data from the page `va` on. -/
theorem Plenty.pagesReads (h : m.Plenty P pt t) (hlen : len < 2 ^ 64)
    (hdata : ph.vaddr + ph.filesz ≤ ph.stop) (hva : ph.vaddr ≤ va)
    (hmore : va < ph.vaddr + ph.filesz) (hturns : ph.vaddr + ph.filesz ≤ va + t * 4096)
    (hn : t ≤ n) (hin : Inside len (m.pagesReads P bin ph off pt n va 0)) :
    (ph.offset + (va - ph.vaddr)) % 2 ^ 64 + (ph.filesz - (va - ph.vaddr)) ≤ len := by
  have hstop : ph.stop < 2 ^ 64 := Nat.mod_lt _ (by decide)
  induction t generalizing m n va with
  | zero => omega
  | succ t ih =>
    obtain ⟨n, rfl⟩ : ∃ j, n = j + 1 := ⟨n - 1, by omega⟩
    obtain ⟨m₁, hk, hmap⟩ := h.page va
    obtain ⟨m₂, hm₂, h₂⟩ := hmap (ph.fillPage bin va 0 0 m₁.bytes)
    have hsoff : (va + 2 ^ 64 - ph.vaddr) % 2 ^ 64 = va - ph.vaddr := by omega
    rw [Machine.pagesReads, if_pos (by rw [← ProgHeader.stop]; omega), hk] at hin
    dsimp only at hin
    rw [hm₂, inside_append, ProgHeader.pageReads, hsoff, if_pos (by omega),
      show pagesize = 4096 from rfl] at hin
    obtain ⟨hpage, hrest⟩ := hin
    simp only [inside_cons, inside_nil, and_true, Nat.sub_zero] at hpage
    by_cases hlast : ph.filesz - (va - ph.vaddr) ≤ 4096
    · omega
    · have hnext : (va + 4096) % 2 ^ 64 = va + 4096 := by omega
      dsimp only at hrest
      rw [hnext] at hrest
      have htail := ih h₂ (by omega) (by omega) (by omega) (by omega) hrest
      omega

/-- The reads of a segment name the data that is copied. -/
theorem Plenty.within_data (h : m.Plenty P pt (2 ^ 52)) (hlen : len < 2 ^ 64) (hc : ph.Checked)
    (hlt : ph.vaddr + ph.memsz < 2 ^ 64) (hstart : ph.vaStart < ph.stop)
    (hfirst : ph.first < ph.filesz)
    (hin : Inside len (m.pagesReads P bin ph off pt (m.heap.length + 1) ph.vaStart ph.pad)) :
    (ph.offset + ph.first) % 2 ^ 64 + (ph.filesz - ph.first) ≤ len := by
  have hfile := hc.1
  have hlength := h.le_length
  have hdata : ph.vaddr + ph.filesz ≤ ph.stop := by
    rcases ProgHeader.stop_cases hlt with h0 | hall
    · omega
    · omega
  by_cases hpad : ph.pad = 0
  · have hva : ph.vaStart = ph.vaddr := by
      rw [ProgHeader.vaStart, hpad, Nat.sub_zero]
    have hf : ph.first = 0 := by rw [ProgHeader.first, hpad]
    rw [hpad, hva] at hin
    rw [hf] at hfirst ⊢
    have hall := h.pagesReads hlen hdata le_rfl (by omega) (by omega) (by omega) hin
    rwa [Nat.sub_self] at hall
  · -- the first turn copies nothing
    have hva : ph.vaStart + 4096 = ph.vaddr + ph.first := by
      rw [ProgHeader.vaStart, ProgHeader.first, ProgHeader.pad, show pagesize = 4096 from rfl] at *
      omega
    obtain ⟨m₁, hk, hmap⟩ := (h.mono (by decide : 2 ^ 52 - 1 + 1 ≤ 2 ^ 52)).page ph.vaStart
    obtain ⟨m₂, hm₂, h₂⟩ := hmap (ph.fillPage bin ph.vaStart ph.pad 0 m₁.bytes)
    rw [Machine.pagesReads, ← ProgHeader.stop, if_pos hstart, hk] at hin
    dsimp only at hin
    rw [hm₂, inside_append, show pagesize = 4096 from rfl,
      Nat.mod_eq_of_lt (by omega : ph.vaStart + 4096 < 2 ^ 64), hva] at hin
    have hall := h₂.pagesReads hlen hdata (by omega) (by omega) (by omega) (by omega) hin.2
    rwa [Nat.add_sub_cancel_left] at hall

theorem Plenty.segmentsReads (h : m.Plenty P pt (n * 2 ^ 52)) (hlen : len < 2 ^ 64)
    (hoff : off < 2 ^ 64) (hin : Inside len (m.segmentsReads P bin pt n off)) :
    HeadersWithin bin len n off := by
  induction n generalizing m off with
  | zero => exact fun i hi => absurd hi (Nat.not_lt_zero i)
  | succ n ih =>
    obtain ⟨hv, hmem⟩ := ProgHeader.read_lt bin off
    have hnext : (off + ProgHeader.size) % 2 ^ 64 < 2 ^ 64 := Nat.mod_lt _ (by decide)
    have h52 := h.mono (by omega : 2 ^ 52 ≤ (n + 1) * 2 ^ 52)
    rw [headersWithin_succ hoff]
    rw [Machine.segmentsReads] at hin
    generalize ProgHeader.read bin off = ph at *
    rw [inside_append] at hin
    obtain ⟨htype, hfields⟩ := ProgHeader.of_inside_headerReads hin.1
    have hbody := hin.2
    by_cases hl : ph.Loads
    · rw [if_neg (not_or.mpr ⟨not_not.mpr hl.1, hl.2⟩)] at hbody
      by_cases hc : ph.Checked
      · have hlt := hc.lt hv hmem
        have hfile := hc.1
        have hwrap := hc.2
        rw [if_neg (by omega), if_neg (by omega), inside_append] at hbody
        constructor
        · exact ⟨htype, hfields, fun _ _ hstart hfirst =>
            h52.within_data hlen hc hlt hstart hfirst hbody.1⟩
        · intro hpass
          have hstop := (hpass hl).2
          have hplenty : m.Plenty P pt (2 ^ 52 + n * 2 ^ 52) := h.mono (by omega)
          have hlength := h52.le_length
          obtain ⟨m₁, hload, h₁⟩ : ∃ m₁, m.loadPages P bin ph pt (m.heap.length + 1) ph.vaStart
              ph.pad = (true, m₁) ∧ m₁.Plenty P pt (n * 2 ^ 52) :=
            hplenty.loadPages hstop (by omega) (by omega)
          rw [hload] at hbody
          exact ih h₁ hnext hbody.2
      · exact ⟨⟨htype, hfields, fun _ hc' => absurd hc' hc⟩, fun hpass => absurd (hpass hl).1 hc⟩
    · have hskip : ph.type ≠ Prog.load ∨ ph.memsz = 0 := by
        by_contra hboth
        rw [not_or, not_not] at hboth
        exact hl hboth
      rw [if_pos hskip] at hbody
      constructor
      · exact ⟨htype, hfields, fun hl' => absurd hl' hl⟩
      · exact fun _ => ih (h.mono (by omega)) hnext hbody

end Plenty

section Congr

variable {P : Platform} {m : Machine} {bin bin' : Mem} {ph ph' : ProgHeader}
  {pt va pad mem n off brk : ℕ} {bytes : Mem}

/-- The memories hold the same bytes where there are reads. -/
def SameReads (bin bin' : Mem) (reads : List (ℕ × ℕ)) : Prop :=
  ∀ r ∈ reads, bin.SameOn bin' r.1 r.2

@[simp] theorem sameReads_cons {r : ℕ × ℕ} {rs : List (ℕ × ℕ)} :
    SameReads bin bin' (r :: rs) ↔ bin.SameOn bin' r.1 r.2 ∧ SameReads bin bin' rs := by
  simp [SameReads]

theorem sameReads_append {rs rs' : List (ℕ × ℕ)} : SameReads bin bin' (rs ++ rs') ↔
    SameReads bin bin' rs ∧ SameReads bin bin' rs' := by
  simp only [SameReads, List.mem_append]
  exact ⟨fun h => ⟨fun r hr => h r (Or.inl hr), fun r hr => h r (Or.inr hr)⟩,
    fun h r hr => hr.elim (h.1 r) (h.2 r)⟩

/-- Headers that agree in what `loadPages` uses of them. -/
structure SameSegment (bin bin' : Mem) (off : ℕ) (ph ph' : ProgHeader) : Prop where
  vaddr : ph'.vaddr = ph.vaddr
  filesz : ph'.filesz = ph.filesz
  memsz : ph'.memsz = ph.memsz
  offset : bin.SameOn bin' (off + 8) 8 → ph'.offset = ph.offset

theorem SameSegment.pad_eq (h : SameSegment bin bin' off ph ph') : ph'.pad = ph.pad := by
  rw [ProgHeader.pad, ProgHeader.pad, h.vaddr]

theorem SameSegment.vaStart_eq (h : SameSegment bin bin' off ph ph') :
    ph'.vaStart = ph.vaStart := by
  rw [ProgHeader.vaStart, ProgHeader.vaStart, h.vaddr, h.pad_eq]

theorem fillPage_congr (hph : SameSegment bin bin' off ph ph')
    (h : SameReads bin bin' (ph.pageReads off va pad)) :
    ph'.fillPage bin' va pad mem bytes = ph.fillPage bin va pad mem bytes := by
  have hcopy : ∀ (b : Mem) (d s t : ℕ), b.copy d bin' s 0 = b.copy d bin t 0 := fun b d s t => by
    funext x
    rw [Mem.copy_outside _ _ _ (by omega), Mem.copy_outside _ _ _ (by omega)]
  rw [ProgHeader.pageReads] at h
  simp only [ProgHeader.fillPage, hph.vaddr, hph.filesz]
  split_ifs at h ⊢ with hsoff
  · simp only [sameReads_cons] at h
    rw [hph.offset h.1]
    congr 1
    funext x
    simp only [Mem.copy]
    split_ifs
    · exact h.2.1 _ (by omega) (by omega)
    · rfl
  · rw [hcopy]

theorem loadPages_congr (hph : SameSegment bin bin' off ph ph')
    (h : SameReads bin bin' (m.pagesReads P bin ph off pt n va pad)) :
    m.loadPages P bin' ph' pt n va pad = m.loadPages P bin ph pt n va pad := by
  induction n generalizing m va pad with
  | zero => rfl
  | succ n ih =>
    have hstop : (ph'.vaStart + ph'.sz) % 2 ^ 64 = (ph.vaStart + ph.sz) % 2 ^ 64 := by
      rw [ProgHeader.sz, ProgHeader.sz, hph.vaStart_eq, hph.pad_eq, hph.memsz]
    rw [pagesReads] at h
    rw [loadPages, loadPages, hstop]
    split_ifs at h ⊢
    · rcases hk : m.kalloc with ⟨_ | p, m₁⟩
      · rfl
      · rw [hk] at h
        dsimp only at h ⊢
        rw [sameReads_append] at h
        rw [fillPage_congr hph h.1]
        rcases hm : ({ m₁ with bytes := ph.fillPage bin va pad p m₁.bytes } : Machine).mappg P pt
          va p .urwx with ⟨_ | _, m₂⟩
        · rfl
        · rw [hm] at h
          exact ih h.2
    · rfl

theorem loadSegments_congr (h : SameReads bin bin' (m.segmentsReads P bin pt n off)) :
    m.loadSegments P bin' pt n off brk = m.loadSegments P bin pt n off brk := by
  induction n generalizing m off brk with
  | zero => rfl
  | succ n ih =>
    rw [segmentsReads, sameReads_append, ProgHeader.headerReads, sameReads_cons] at h
    obtain ⟨⟨htype, hfields⟩, hbody⟩ := h
    have htype' : (ProgHeader.read bin' off).type = (ProgHeader.read bin off).type :=
      Mem.load_congr htype
    rw [loadSegments, loadSegments, htype']
    by_cases hload : (ProgHeader.read bin off).type ≠ Prog.load
    · rw [if_pos (Or.inl hload), if_pos (Or.inl hload)]
      rw [if_pos (Or.inl hload)] at hbody
      exact ih hbody
    rw [if_neg hload, sameReads_cons] at hfields
    have hmemsz : (ProgHeader.read bin' off).memsz = (ProgHeader.read bin off).memsz :=
      Mem.load_congr hfields.1
    rw [hmemsz]
    by_cases hzero : (ProgHeader.read bin off).memsz = 0
    · rw [if_pos (Or.inr hzero), if_pos (Or.inr hzero)]
      rw [if_pos (Or.inr hzero)] at hbody
      exact ih hbody
    have hskip := not_or.mpr ⟨hload, hzero⟩
    rw [if_neg hzero, sameReads_cons] at hfields
    have hfilesz : (ProgHeader.read bin' off).filesz = (ProgHeader.read bin off).filesz :=
      Mem.load_congr hfields.2.1
    rw [if_neg hskip, if_neg hskip, hfilesz]
    rw [if_neg hskip] at hbody
    by_cases hbad : (ProgHeader.read bin off).memsz < (ProgHeader.read bin off).filesz
    · rw [if_pos hbad, if_pos hbad]
    rw [if_neg hbad, sameReads_cons] at hfields
    have hvaddr : (ProgHeader.read bin' off).vaddr = (ProgHeader.read bin off).vaddr :=
      Mem.load_congr hfields.2.2.1
    have hseg : SameSegment bin bin' off (ProgHeader.read bin off) (ProgHeader.read bin' off) :=
      ⟨hvaddr, hfilesz, hmemsz, Mem.load_congr⟩
    rw [if_neg hbad] at hbody
    rw [if_neg hbad, if_neg hbad, hvaddr, hseg.vaStart_eq, hseg.pad_eq]
    split_ifs at hbody ⊢ with hwrap
    · rfl
    · rw [sameReads_append] at hbody
      rw [loadPages_congr hseg hbody.1]
      rcases hpages : m.loadPages P bin (ProgHeader.read bin off) pt (m.heap.length + 1)
        (ProgHeader.read bin off).vaStart (ProgHeader.read bin off).pad with ⟨_ | _, m₁⟩
      · rfl
      · rw [hpages] at hbody
        exact ih hbody.2

/-- The result of loading depends on the bytes that are read only. -/
theorem loadelf_congr (h : SameReads bin bin' (m.loadReads P bin pt)) :
    m.loadelf P bin' pt = m.loadelf P bin pt := by
  rw [loadReads, sameReads_cons] at h
  have hmagic : (FileHeader.read bin').magic = (FileHeader.read bin).magic :=
    Mem.load_congr h.1
  have hrest := h.2
  rw [loadelf, loadelf, hmagic]
  split_ifs at hrest ⊢
  · rfl
  · rw [sameReads_cons, sameReads_cons, sameReads_append] at hrest
    have hphoff : (FileHeader.read bin').phoff = (FileHeader.read bin).phoff :=
      Mem.load_congr hrest.1
    have hphnum : (FileHeader.read bin').phnum = (FileHeader.read bin).phnum :=
      Mem.load_congr hrest.2.1
    rw [hphoff, hphnum, loadSegments_congr hrest.2.2.1]
    rcases hseg : m.loadSegments P bin pt (FileHeader.read bin).phnum (FileHeader.read bin).phoff 0
      with ⟨_ | brk, m₁⟩
    · rfl
    · rw [hseg, sameReads_cons] at hrest
      have hentry : (FileHeader.read bin').entry = (FileHeader.read bin).entry :=
        Mem.load_congr hrest.2.2.2.1
      rw [hentry]

end Congr

theorem inside_loadReads {P : Platform} {m : Machine} {bin : Slice} {pt : ℕ} (h : bin.Within) :
    Inside bin.length (m.loadReads P bin.data pt) := by
  have hoff : (FileHeader.read bin.data).phoff < 2 ^ 64 := Mem.load_lt 8 bin.data _
  have hmagic := h.magic
  rw [loadReads, inside_cons]
  constructor
  · exact hmagic
  · split_ifs with hmag
    · exact inside_nil
    · rw [not_not] at hmag
      have h58 := h.fields hmag
      simp only [inside_cons, inside_append]
      refine ⟨by omega, by omega, inside_segmentsReads hoff (h.headers hmag), ?_⟩
      split
      · exact inside_nil
      · simp only [inside_cons, inside_nil, and_true]
        omega

/-- Loading ends and stays in the image, whatever the memory of the kernel, if and only if the
headers and the data that they name lie in the image. -/
theorem loadSafe_iff (P : Platform) (bin : Slice) :
    (∀ pt (m : Machine), m.LoadSafe P bin pt) ↔ bin.Within := by
  have hoff : (FileHeader.read bin.data).phoff < 2 ^ 64 := Mem.load_lt 8 bin.data _
  constructor
  · intro h
    have hmagic : 4 ≤ bin.length := by
      obtain ⟨m, -⟩ := exists_plenty P 0 0
      have hin := (h 0 m).inside
      rw [loadReads, inside_cons] at hin
      omega
    obtain ⟨m, hm⟩ := exists_plenty P 0 ((FileHeader.read bin.data).phnum * 2 ^ 52)
    have hin := (h 0 m).inside
    rw [loadReads, inside_cons] at hin
    refine ⟨hmagic, fun hmag => ?_, fun hmag => ?_⟩
    all_goals
      have hread := hin.2
      rw [if_neg (not_not.mpr hmag), inside_cons, inside_cons, inside_append] at hread
    · omega
    · exact hm.segmentsReads bin.length_lt hoff hread.2.2.1
  · intro h pt m
    exact ⟨fun m' ph va pad n hn => loadPages_ends hn (Nat.lt_succ_self _), inside_loadReads h⟩

/-- Memory behind a well-formed image has no influence. -/
theorem loadelf_eq_of_within {P : Platform} {m : Machine} {bin bin' : Slice} {pt : ℕ}
    (hbin : bin.Within) (h : bin.data.SameOn bin'.data 0 bin.length) :
    m.loadelf P bin'.data pt = m.loadelf P bin.data pt := by
  have hin : Inside bin.length (m.loadReads P bin.data pt) := inside_loadReads hbin
  exact loadelf_congr fun r hr => h.mono (Nat.zero_le _) (by simpa using hin r hr)

theorem fileHeader_lt : 64 < 2 ^ 64 := by decide

/-- A file that is a file header only, which says that its program header is at `phoff`. -/
def onlyHeader (phoff : ℕ) : Slice where
  data :=
    let b := Mem.store 4 (fun _ => 0) 0 magic
    let b := Mem.store 8 b 32 phoff
    Mem.store 2 b 56 1
  length := 64
  length_lt := fileHeader_lt

/-- A program header far behind the end of the file is read. -/
theorem not_loadSafe_header : ∃ (m m₀ : Machine) (pt : ℕ),
    (Riscv64.platform Riscv64.virt).Answers m.heap ∧
    m.makeEmpty (Riscv64.platform Riscv64.virt) = (some pt, m₀) ∧
    ¬ m₀.LoadSafe (Riscv64.platform Riscv64.virt) (onlyHeader (2 ^ 40)) pt := by
  generalize hP : Riscv64.platform Riscv64.virt = P
  have hn : 2 ≤ P.npgs := by
    subst hP
    decide
  have hempty : ((P.boot 2).makeEmpty P).1 = some 0x80000000 := by
    subst hP
    decide +kernel
  rcases he : (P.boot 2).makeEmpty P with ⟨r, m₀⟩
  rw [he] at hempty
  refine ⟨P.boot 2, m₀, 0x80000000, P.answers_boot hn, hempty ▸ he, fun h => ?_⟩
  have hmagic : (FileHeader.read (onlyHeader (2 ^ 40)).data).magic = magic := by decide +kernel
  have hphoff : (FileHeader.read (onlyHeader (2 ^ 40)).data).phoff = 2 ^ 40 := by decide +kernel
  have hphnum : (FileHeader.read (onlyHeader (2 ^ 40)).data).phnum = 1 := by decide +kernel
  have hlen : (onlyHeader (2 ^ 40)).length = 64 := rfl
  have hin := h.inside
  rw [loadReads, hmagic, if_neg (not_not.mpr rfl), hphoff, hphnum, segmentsReads, hlen] at hin
  simp only [inside_cons, inside_append] at hin
  obtain ⟨-, -, -, ⟨hhead, -⟩, -⟩ := hin
  have hoff := (ProgHeader.of_inside_headerReads hhead).1
  omega

end Machine
end Multiplix.Proc
