import Mathlib.Data.List.Fold
import Multiplix.Proc.Load
import Multiplix.Proc.Platforms

/-! What `loadelf` leaves in the address space of a new process. -/
namespace Multiplix.Proc
open Lib Vm

namespace ProgHeader

/-- A page that holds an address of the segment. -/
def Touches (ph : ProgHeader) (k : ℕ) : Prop :=
  ph.vaddr / 4096 ≤ k ∧ k * 4096 < ph.vaddr + ph.memsz

instance (ph : ProgHeader) (k : ℕ) : Decidable (ph.Touches k) :=
  inferInstanceAs (Decidable (_ ∧ _))

/-- The headers that `loadelf` does not skip. -/
def Loads (ph : ProgHeader) : Prop := ph.type = Prog.load ∧ ph.memsz ≠ 0

instance (ph : ProgHeader) : Decidable ph.Loads :=
  inferInstanceAs (Decidable (ph.type = Prog.load ∧ ph.memsz ≠ 0))

/-- The byte that `loadelf` puts at an address. A page that starts before the segment gets no
byte of the image: there `va - ph.vaddr` wraps, and is not less than `ph.filesz`. -/
def byteAt (ph : ProgHeader) (bin : Mem) (x : ℕ) : Byte :=
  if ph.vaddr ≤ x / 4096 * 4096 ∧ x - ph.vaddr < ph.filesz then bin (ph.offset + (x - ph.vaddr))
  else 0

/-- The segments that are loaded, from the header at `off`. -/
def segments (bin : Mem) (n off : ℕ) : List ProgHeader :=
  (progHeaders bin n off).filter fun ph => ph.Loads

def imageSegments (bin : Mem) : List ProgHeader :=
  segments bin (FileHeader.read bin).phnum (FileHeader.read bin).phoff

/-- Segments that pass the checks of `loadelf`, lie inside an image of `len` bytes and below the
kernel's limit, and have no page in common. -/
structure Fit (len : ℕ) (segs : List ProgHeader) : Prop where
  filesz : ∀ ph ∈ segs, ph.filesz ≤ ph.memsz
  inside : ∀ ph ∈ segs, ph.offset + ph.filesz ≤ len
  below : ∀ ph ∈ segs, ph.vaddr + ph.memsz ≤ maxVa
  apart : segs.Pairwise fun ph ph' => ∀ k, ph.Touches k → ¬ ph'.Touches k

theorem Fit.tail {len : ℕ} {ph : ProgHeader} {segs : List ProgHeader} (h : Fit len (ph :: segs)) :
    Fit len segs :=
  ⟨fun p hp => h.filesz p (List.mem_cons_of_mem _ hp),
    fun p hp => h.inside p (List.mem_cons_of_mem _ hp),
    fun p hp => h.below p (List.mem_cons_of_mem _ hp), h.apart.of_cons⟩

variable {ph : ProgHeader} {bin bytes : Mem} {va pad mem j k : ℕ}

/-- The contents of a page, by its addresses. -/
theorem fillPage_inside (hva : 4096 ∣ va)
    (hpad : va + pad = ph.vaddr ∧ 0 < pad ∧ pad < 4096 ∨ ph.vaddr ≤ va ∧ pad = 0)
    (hfit : ph.vaddr + ph.filesz ≤ maxVa) (hlt : va < maxVa)
    (hoff : ph.offset + ph.filesz < 2 ^ 64) (hj : j < 4096) :
    ph.fillPage bin va pad mem bytes (mem + j) = ph.byteAt bin (va + j) := by
  have hmax : maxVa < 2 ^ 38 := by decide
  have hpage : (va + j) / 4096 * 4096 = va := by omega
  rw [fillPage, byteAt, hpage, show pagesize = 4096 from rfl]
  rcases hpad with ⟨hpv, hpos, hp4⟩ | ⟨hle, rfl⟩
  · rw [if_neg (c := ph.filesz > _) (by omega), if_neg (by omega)]
    by_cases hjp : j < pad
    · rw [Mem.fill_outside _ _ (by omega), Mem.copy_outside _ _ _ (by omega),
        Mem.fill_inside _ _ (by omega) (by omega)]
    · rw [Mem.fill_inside _ _ (by omega) (by omega)]
  · have hsoff : (va + 2 ^ 64 - ph.vaddr) % 2 ^ 64 = va - ph.vaddr := by omega
    rw [hsoff, Nat.sub_zero, Nat.add_zero]
    generalize hn : (if ph.filesz > va - ph.vaddr then min 4096 (ph.filesz - (va - ph.vaddr))
      else 0) = n
    by_cases hjn : j < n
    · have hfile : va + j - ph.vaddr < ph.filesz := by
        rw [← hn] at hjn
        split_ifs at hjn <;> omega
      rw [Mem.fill_outside _ _ (by omega), Mem.copy_inside _ _ _ (by omega) (by omega),
        if_pos ⟨hle, hfile⟩]
      congr 1
      omega
    · have hfile : ¬ va + j - ph.vaddr < ph.filesz := by
        rw [← hn] at hjn
        split_ifs at hjn <;> omega
      rw [Mem.fill_inside _ _ (by omega) (by omega), if_neg fun hc => hfile hc.2]

theorem vaStart_eq : ph.vaStart = ph.vaddr / 4096 * 4096 := by
  rw [vaStart, pad, show pagesize = 4096 from rfl]
  omega

/-- The loop of `loadelf` runs over the pages of the segment. -/
theorem lt_end_iff (hfit : ph.vaddr + ph.memsz ≤ maxVa) (hmem : ph.memsz ≠ 0) (hva : 4096 ∣ va)
    (hstart : ph.vaStart ≤ va) :
    va < (ph.vaStart + ph.sz) % 2 ^ 64 ↔ ph.Touches (va / 4096) := by
  have hmax : maxVa = 0x7fff0 * 4096 + 4096 := by decide
  rw [vaStart_eq] at hstart ⊢
  rw [sz, pad, show pagesize = 4096 from rfl, Touches]
  omega

end ProgHeader

namespace Machine

variable {P : Platform} {roots : List ℕ} {m m' : Machine} {pt va pad n len : ℕ} {bin : Mem}
  {ph : ProgHeader}

/-- One page of a segment. -/
theorem Shape.loadPage {o : Owners} (h : m.Shape P roots o) (hpt : pt ∈ roots) {m₁ : Machine}
    {p : ℕ} (hk : m.kalloc = (some p, m₁)) (hva : 4096 ∣ va) (hlt : va < maxVa)
    (hpad : va + pad = ph.vaddr ∧ 0 < pad ∧ pad < 4096 ∨ ph.vaddr ≤ va ∧ pad = 0)
    (hfit : ph.vaddr + ph.filesz ≤ maxVa) (hoff : ph.offset + ph.filesz < 2 ^ 64)
    (hm : { m₁ with bytes := ph.fillPage bin va pad p m₁.bytes }.mappg P pt va p .urwx =
      (true, m')) :
    (∃ o', m'.Shape P roots o') ∧ ∀ x, m'.seen P roots pt x =
      if x / 4096 = va / 4096 then some (ph.byteAt bin x) else m.seen P roots pt x := by
  have hmax : maxVa < 2 ^ 38 := by decide
  have hb₁ : m₁.bytes = m.bytes := by rw [(h.kalloc hk).2.1]
  obtain ⟨hp, hin, ⟨c, hs, -⟩, hbytes, -, href⟩ :=
    h.mapFresh hk hpt (hlt.trans hmax) (Or.inl rfl) hm
  have hpad4 : pad ≤ 4096 := by omega
  refine ⟨⟨_, hs⟩, fun x => ?_⟩
  split_ifs with hx
  · rw [seen, href, hx, Function.update_self, Option.map_some, hbytes,
      ProgHeader.fillPage_inside hva hpad hfit hlt hoff (Nat.mod_lt x (by omega))]
    congr 2
    omega
  · refine h.seen_eq hp hin.dvd (fun y hy => ?_) ?_
    · rw [hbytes, ph.fillPage_outside bin _ hpad4 hy, hb₁]
    · rw [href, Function.update_of_ne fun he => hx (Prod.mk.inj he).2]

/-- The pages of a segment, from `va` on. -/
theorem Shape.loadPages (h : ∃ o, m.Shape P roots o) (hpt : pt ∈ roots) (hmem : ph.memsz ≠ 0)
    (hfile : ph.filesz ≤ ph.memsz) (hfit : ph.vaddr + ph.memsz ≤ maxVa)
    (hoff : ph.offset + ph.filesz < 2 ^ 64) (hva : 4096 ∣ va) (hstart : ph.vaStart ≤ va)
    (hpad : va + pad = ph.vaddr ∧ 0 < pad ∧ pad < 4096 ∨ ph.vaddr ≤ va ∧ pad = 0)
    (hm : m.loadPages P bin ph pt n va pad = (true, m')) :
    (∃ o, m'.Shape P roots o) ∧ ∀ x, m'.seen P roots pt x =
      if va ≤ x ∧ ph.Touches (x / 4096) then some (ph.byteAt bin x)
      else m.seen P roots pt x := by
  induction n generalizing m va pad with
  | zero => cases hm
  | succ n ih =>
    have hend := ProgHeader.lt_end_iff hfit hmem hva hstart
    rw [Machine.loadPages] at hm
    split_ifs at hm with hlt
    swap
    · cases hm
      refine ⟨h, fun x => (if_neg ?_).symm⟩
      rintro ⟨hx, hx1, hx2⟩
      refine hlt (hend.mpr ⟨?_, ?_⟩)
      · rw [ProgHeader.vaStart_eq] at hstart
        omega
      · exact (Nat.mul_le_mul_right _ (Nat.div_le_div_right hx)).trans_lt hx2
    have htouch := hend.mp hlt
    have hltmax : va < maxVa := by
      have := htouch.2
      omega
    rcases hk : m.kalloc with ⟨_ | p, m₁⟩
    · rw [hk] at hm
      cases hm
    rw [hk] at hm
    dsimp only at hm
    rcases hmap : ({ m₁ with bytes := ph.fillPage bin va pad p m₁.bytes } : Machine).mappg P pt va p
      .urwx with ⟨_ | _, m₂⟩
    · rw [hmap] at hm
      cases hm
    rw [hmap] at hm
    obtain ⟨o, hs⟩ := h
    obtain ⟨hs₂, hseen₂⟩ := hs.loadPage hpt hk hva hltmax hpad (by omega) hoff hmap
    have hmax : maxVa < 2 ^ 38 := by decide
    have hnext : (va + pagesize) % 2 ^ 64 = va + 4096 := by
      rw [show pagesize = 4096 from rfl]
      omega
    rw [hnext] at hm
    obtain ⟨hs', hseen⟩ := ih hs₂ ((Nat.dvd_add_right hva).mpr (dvd_refl 4096)) (by omega)
      (Or.inr ⟨by omega, rfl⟩) hm
    refine ⟨hs', fun x => ?_⟩
    rw [hseen, hseen₂]
    by_cases hx : x / 4096 = va / 4096
    · rw [if_neg (by omega), if_pos hx, if_pos ⟨by omega, hx ▸ htouch⟩]
    · rw [if_neg hx]
      have hle : va + 4096 ≤ x ↔ va ≤ x := by omega
      simp only [hle]

/-- What the address space holds after segments were loaded over what it held before. -/
def Holds (P : Platform) (roots : List ℕ) (pt : ℕ) (bin : Mem) (segs : List ProgHeader)
    (m m' : Machine) : Prop :=
  ∀ x, (∀ ph ∈ segs, ph.Touches (x / 4096) → m'.seen P roots pt x = some (ph.byteAt bin x)) ∧
    ((∀ ph ∈ segs, ¬ ph.Touches (x / 4096)) → m'.seen P roots pt x = m.seen P roots pt x)

theorem Shape.loadSegments (h : ∃ o, m.Shape P roots o) (hpt : pt ∈ roots) (hlen : len < 2 ^ 64)
    {off brk brk' : ℕ} (hfit : ProgHeader.Fit len (ProgHeader.segments bin n off))
    (hm : m.loadSegments P bin pt n off brk = (some brk', m')) :
    (∃ o, m'.Shape P roots o) ∧ Holds P roots pt bin (ProgHeader.segments bin n off) m m' ∧
      brk' = ((ProgHeader.segments bin n off).map fun ph => ph.vaddr + ph.memsz).foldr max brk := by
  have hmax : maxVa < 2 ^ 38 := by decide
  induction n generalizing m off brk with
  | zero =>
    cases hm
    exact ⟨h, fun x => ⟨fun ph hph => absurd hph List.not_mem_nil, fun _ => rfl⟩, rfl⟩
  | succ n ih =>
    generalize hph : ProgHeader.read bin off = ph at hm
    generalize hoff : (off + ProgHeader.size) % 2 ^ 64 = off' at hm
    have hsegs : ProgHeader.segments bin (n + 1) off = if ph.Loads then
        ph :: ProgHeader.segments bin n off' else ProgHeader.segments bin n off' := by
      rw [ProgHeader.segments, progHeaders, hph, hoff, List.filter_cons]
      simp only [decide_eq_true_eq]
      rfl
    rw [Machine.loadSegments, hph, hoff] at hm
    rw [hsegs] at hfit ⊢
    by_cases hskip : ph.type ≠ Prog.load ∨ ph.memsz = 0
    · have hno : ¬ ph.Loads := fun hc => hskip.elim (fun h => h hc.1) hc.2
      rw [if_neg hno] at hfit ⊢
      rw [if_pos hskip] at hm
      exact ih h hfit hm
    · rw [if_neg hskip] at hm
      rw [not_or, not_not] at hskip
      have hloads : ph.Loads := hskip
      rw [if_pos hloads] at hfit ⊢
      have hfile := hfit.filesz ph List.mem_cons_self
      have hinside := hfit.inside ph List.mem_cons_self
      have hbelow := hfit.below ph List.mem_cons_self
      have hend : (ph.vaddr + ph.memsz) % 2 ^ 64 = ph.vaddr + ph.memsz :=
        Nat.mod_eq_of_lt (by omega)
      rw [if_neg hfile.not_gt, hend, if_neg (by omega)] at hm
      split at hm
      · simp at hm
      · next m₁ hload =>
        have hva : 4096 ∣ ph.vaStart := by
          rw [ProgHeader.vaStart_eq]
          exact Nat.dvd_mul_left _ _
        have hpad : ph.vaStart + ph.pad = ph.vaddr ∧ 0 < ph.pad ∧ ph.pad < 4096 ∨
            ph.vaddr ≤ ph.vaStart ∧ ph.pad = 0 := by
          rw [ProgHeader.vaStart, ProgHeader.pad, show pagesize = 4096 from rfl]
          omega
        obtain ⟨hs₁, hseen₁⟩ := Shape.loadPages h hpt hskip.2 hfile hbelow (by omega) hva
          le_rfl hpad hload
        obtain ⟨hs', hholds, hbrk⟩ := ih hs₁ hfit.tail hm
        refine ⟨hs', fun x => ⟨fun ph' hmem ht => ?_, fun hno => ?_⟩, ?_⟩
        · rcases List.mem_cons.mp hmem with rfl | hmem
          · have hx : ph'.vaStart ≤ x := by
              have := ht.1
              rw [ProgHeader.vaStart_eq]
              omega
            rw [(hholds x).2 fun ph₂ hph₂ => List.rel_of_pairwise_cons hfit.apart hph₂ _ ht,
              hseen₁, if_pos ⟨hx, ht⟩]
          · exact (hholds x).1 ph' hmem ht
        · rw [(hholds x).2 fun ph₂ hph₂ => hno ph₂ (List.mem_cons_of_mem _ hph₂), hseen₁,
            if_neg fun hc => hno ph List.mem_cons_self hc.2]
        · rw [hbrk, List.map_cons, List.foldr_cons]
          exact (List.foldr_cons_eq_foldr_apply ..).symm

/-- The image is in the address space where its headers say, and all else is zero. -/
structure Faithful (P : Platform) (pt : ℕ) (bin : Mem) (segs : List ProgHeader) (entry brk : ℕ)
    (m : Machine) : Prop where
  file : ∀ ph ∈ segs, ∀ i < ph.filesz,
    m.seen P [pt] pt (ph.vaddr + i) = some (bin (ph.offset + i))
  zero : ∀ ph ∈ segs, ∀ i < ph.memsz, ph.filesz ≤ i → m.seen P [pt] pt (ph.vaddr + i) = some 0
  rest : ∀ x, (∀ ph ∈ segs, ¬ (ph.vaddr ≤ x ∧ x < ph.vaddr + ph.memsz)) →
    ∀ b ∈ m.seen P [pt] pt x, b = 0
  mapped : ∀ ph ∈ segs, ∀ x, ph.Touches (x / 4096) →
    ∃ map, P.ops.lookup m.tables pt x = some map ∧ map.user P.ops m.tables = true
  entry_eq : entry = (FileHeader.read bin).entry
  brk_eq : brk = (segs.map fun ph => ph.vaddr + ph.memsz).foldr max 0

/-- A page that a process sees is mapped for users. -/
theorem Shape.lookup_of_seen {o : Owners} (h : m.Shape P roots o) {x : ℕ} {b : Byte}
    (hx : m.seen P roots pt x = some b) :
    ∃ map, P.ops.lookup m.tables pt x = some map ∧ map.user P.ops m.tables = true := by
  rw [seen, Option.map_eq_some_iff] at hx
  obtain ⟨⟨p, w⟩, hl, -⟩ := hx
  obtain ⟨pte, -, hentry, -, -, hlook⟩ := h.exists_pteAt hl
  exact ⟨_, hlook x rfl, hentry.user⟩

/-- Of a segment that does not start on a page boundary, the first page should hold no byte of the
image other than zero. -/
def BlankHead (bin : Mem) (ph : ProgHeader) : Prop :=
  ph.pad ≠ 0 → ∀ i < ph.filesz, i < 4096 - ph.pad → bin (ph.offset + i) = 0

theorem Holds.faithful_iff {segs : List ProgHeader} {entry brk : ℕ} {m₀ : Machine}
    (hs : ∃ o, m.Shape P [pt] o) (hempty : ∀ x, m₀.seen P [pt] pt x = none)
    (hfit : ProgHeader.Fit len segs) (hholds : Holds P [pt] pt bin segs m₀ m)
    (hentry : entry = (FileHeader.read bin).entry)
    (hbrk : brk = (segs.map fun ph => ph.vaddr + ph.memsz).foldr max 0) :
    Faithful P pt bin segs entry brk m ↔ ∀ ph ∈ segs, BlankHead bin ph := by
  obtain ⟨o, hs⟩ := hs
  have htouch : ∀ ph : ProgHeader, ∀ i < ph.memsz, ph.Touches ((ph.vaddr + i) / 4096) :=
    fun ph i hi => ⟨by omega, by omega⟩
  have hfile : ∀ ph ∈ segs, ∀ i < ph.memsz,
      m.seen P [pt] pt (ph.vaddr + i) = some (ph.byteAt bin (ph.vaddr + i)) := fun ph hph i hi =>
    (hholds _).1 ph hph (htouch ph i hi)
  -- the bytes of the first page of a segment that starts within it
  have hhead : ∀ (ph : ProgHeader) i, ph.vaddr ≤ (ph.vaddr + i) / 4096 * 4096 ↔
      ¬ (ph.pad ≠ 0 ∧ i < 4096 - ph.pad) := fun ph i => by
    rw [ProgHeader.pad, show pagesize = 4096 from rfl]
    omega
  constructor
  · intro h ph hph hpad i hi hlt
    have hsz := hfit.filesz ph hph
    have hseen := hfile ph hph i (by omega)
    rw [h.file ph hph i hi, ProgHeader.byteAt, if_neg fun hc => (hhead ph i).mp hc.1 ⟨hpad, hlt⟩]
      at hseen
    exact Option.some.inj hseen
  · intro h
    refine ⟨fun ph hph i hi => ?_, fun ph hph i hi hle => ?_, fun x hno b hb => ?_,
      fun ph hph x ht => hs.lookup_of_seen ((hholds x).1 ph hph ht), hentry, hbrk⟩
    · have hsz := hfit.filesz ph hph
      rw [hfile ph hph i (by omega), ProgHeader.byteAt, Nat.add_sub_cancel_left]
      split_ifs with hc
      · rfl
      · have hin : ph.pad ≠ 0 ∧ i < 4096 - ph.pad := by
          by_contra hn
          exact hc ⟨(hhead ph i).mpr hn, hi⟩
        rw [h ph hph hin.1 i hi hin.2]
    · rw [hfile ph hph i hi, ProgHeader.byteAt, Nat.add_sub_cancel_left, if_neg (by omega)]
    · by_cases ht : ∃ ph ∈ segs, ph.Touches (x / 4096)
      · obtain ⟨ph, hph, ht⟩ := ht
        have hsz := hfit.filesz ph hph
        have hout := hno ph hph
        rw [(hholds x).1 ph hph ht, ProgHeader.byteAt, Option.mem_some_iff] at hb
        rw [← hb, if_neg (by omega)]
      · rw [(hholds x).2 fun ph hph hc => ht ⟨ph, hph, hc⟩, hempty] at hb
        cases hb

/-- A program that `loadelf` accepts is in its address space as its headers say if and only if no
segment has data in a page that starts before it. -/
theorem loadelf_faithful_iff {m₀ : Machine} {entry brk : ℕ} (hans : P.Answers m.heap)
    (hempty : m.makeEmpty P = (some pt, m₀)) (hlen : len < 2 ^ 64)
    (hfit : ProgHeader.Fit len (ProgHeader.imageSegments bin))
    (hload : m₀.loadelf P bin pt = (some (entry, brk), m')) :
    Faithful P pt bin (ProgHeader.imageSegments bin) entry brk m' ↔
      ∀ ph ∈ ProgHeader.imageSegments bin, BlankHead bin ph := by
  obtain ⟨hs₀, -, hleaf₀⟩ := hans.shape.makeEmpty hempty
  rw [loadelf] at hload
  split_ifs at hload
  · cases hload
  split at hload
  · cases hload
  next brk' m₁ hseg =>
  obtain ⟨hres, rfl⟩ := Prod.mk.inj hload
  obtain ⟨hentry, rfl⟩ := Prod.mk.inj (Option.some.inj hres)
  obtain ⟨hs, hholds, hbrk⟩ := Shape.loadSegments hs₀ (List.mem_singleton_self pt) hlen hfit hseg
  refine hholds.faithful_iff hs (fun x => ?_) hfit hentry.symm hbrk
  rw [seen, show [pt] = [] ++ [pt] from rfl, ref_of_leaf hleaf₀]
  rfl

/-- An image with one segment: two bytes of data, and a zero. -/
def oneSegment (vaddr : ℕ) : Mem :=
  let b := Mem.store 4 (fun _ => 0) 0 magic
  let b := Mem.store 8 b 24 vaddr
  let b := Mem.store 8 b 32 64
  let b := Mem.store 2 b 56 1
  let b := Mem.store 4 b 64 Prog.load
  let b := Mem.store 8 b 72 120
  let b := Mem.store 8 b 80 vaddr
  let b := Mem.store 8 b 96 2
  let b := Mem.store 8 b 104 3
  Mem.store 2 b 120 0xABCD

private theorem segments_oneSegment (vaddr : ℕ) (hv : vaddr = 0x10000 ∨ vaddr = 0x10008) :
    ∃ ph, ProgHeader.imageSegments (oneSegment vaddr) = [ph] ∧ ph.vaddr = vaddr ∧ ph.offset = 120 ∧
      ph.filesz = 2 ∧ ph.memsz = 3 := by
  refine ⟨ProgHeader.read (oneSegment vaddr) 64, ?_, ?_⟩
  · have hn : (FileHeader.read (oneSegment vaddr)).phnum = 1 := by
      rcases hv with rfl | rfl <;> decide +kernel
    have hoff : (FileHeader.read (oneSegment vaddr)).phoff = 64 := by
      rcases hv with rfl | rfl <;> decide +kernel
    rw [ProgHeader.imageSegments, hn, hoff]
    refine List.filter_cons_of_pos ?_
    rcases hv with rfl | rfl <;> decide +kernel
  · rcases hv with rfl | rfl <;> decide +kernel

private theorem fit_oneSegment (vaddr : ℕ) (hv : vaddr = 0x10000 ∨ vaddr = 0x10008) :
    ProgHeader.Fit 128 (ProgHeader.imageSegments (oneSegment vaddr)) := by
  obtain ⟨ph, hsegs, h1, h2, h3, h4⟩ := segments_oneSegment vaddr hv
  have hmax : maxVa = 0x7fff1000 := rfl
  rw [hsegs]
  refine ⟨?_, ?_, ?_, List.pairwise_singleton _ _⟩ <;>
    exact fun p hp => by
      rw [List.mem_singleton.mp hp]
      omega

private theorem load_oneSegment (vaddr : ℕ) (hv : vaddr = 0x10000 ∨ vaddr = 0x10008) :
    ∃ m m₀ m' : Machine, (Riscv64.platform Riscv64.virt).Answers m.heap ∧
      m.makeEmpty (Riscv64.platform Riscv64.virt) = (some 0x80000000, m₀) ∧
      m₀.loadelf (Riscv64.platform Riscv64.virt) (oneSegment vaddr) 0x80000000 =
        (some (vaddr, vaddr + 3), m') ∧
      (vaddr = 0x10008 → m'.seen (Riscv64.platform Riscv64.virt) [0x80000000] 0x80000000 vaddr =
        some 0) := by
  generalize hP : Riscv64.platform Riscv64.virt = P
  have hn : 6 ≤ P.npgs := by
    subst hP
    decide
  have hempty : ((P.boot 6).makeEmpty P).1 = some 0x80000000 := by
    subst hP
    decide +kernel
  have hload : (((P.boot 6).makeEmpty P).2.loadelf P (oneSegment vaddr) 0x80000000).1 =
      some (vaddr, vaddr + 3) := by
    subst hP
    rcases hv with rfl | rfl <;> decide +kernel
  have hzero : vaddr = 0x10008 →
      (((P.boot 6).makeEmpty P).2.loadelf P (oneSegment vaddr) 0x80000000).2.seen P [0x80000000]
        0x80000000 vaddr = some 0 := by
    subst hP
    rintro rfl
    decide +kernel
  rcases he : (P.boot 6).makeEmpty P with ⟨r, m₀⟩
  rw [he] at hempty hload hzero
  rcases hl : m₀.loadelf P (oneSegment vaddr) 0x80000000 with ⟨r', m'⟩
  rw [hl] at hload hzero
  exact ⟨P.boot 6, m₀, m', P.answers_boot hn, hempty ▸ he, hload ▸ hl, hzero⟩

/-- A segment on a page boundary is loaded. -/
theorem loadelf_faithful_iff_aligned : ∃ (m m₀ m' : Machine) (pt entry brk : ℕ),
    m.makeEmpty (Riscv64.platform Riscv64.virt) = (some pt, m₀) ∧
    m₀.loadelf (Riscv64.platform Riscv64.virt) (oneSegment 0x10000) pt =
      (some (entry, brk), m') ∧
    Faithful (Riscv64.platform Riscv64.virt) pt (oneSegment 0x10000)
      (ProgHeader.imageSegments (oneSegment 0x10000)) entry brk m' := by
  obtain ⟨m, m₀, m', hans, hempty, hload, -⟩ := load_oneSegment 0x10000 (Or.inl rfl)
  refine ⟨m, m₀, m', _, _, _, hempty, hload, (loadelf_faithful_iff hans hempty
    (by decide : 128 < 2 ^ 64) (fit_oneSegment 0x10000 (Or.inl rfl)) hload).mpr
    fun ph hph hpad => ?_⟩
  obtain ⟨ph', hsegs, hva, -⟩ := segments_oneSegment 0x10000 (Or.inl rfl)
  rw [hsegs, List.mem_singleton] at hph
  exact absurd (by rw [hph, ProgHeader.pad, hva]; decide) hpad

/-- A segment that starts within a page loses the data of that page. -/
theorem not_faithful_unaligned : ∃ (bin : Mem) (len : ℕ) (m m₀ m' : Machine) (pt entry brk : ℕ),
    (Riscv64.platform Riscv64.virt).Answers m.heap ∧
    m.makeEmpty (Riscv64.platform Riscv64.virt) = (some pt, m₀) ∧ len < 2 ^ 64 ∧
    ProgHeader.Fit len (ProgHeader.imageSegments bin) ∧
    m₀.loadelf (Riscv64.platform Riscv64.virt) bin pt = (some (entry, brk), m') ∧
    ¬ Faithful (Riscv64.platform Riscv64.virt) pt bin (ProgHeader.imageSegments bin) entry brk
      m' := by
  obtain ⟨m, m₀, m', hans, hempty, hload, hzero⟩ := load_oneSegment 0x10008 (Or.inr rfl)
  refine ⟨oneSegment 0x10008, 128, m, m₀, m', _, _, _, hans, hempty, by decide,
    fit_oneSegment 0x10008 (Or.inr rfl), hload, fun h => ?_⟩
  obtain ⟨ph, hsegs, hva, hoff, hfile, -⟩ := segments_oneSegment 0x10008 (Or.inr rfl)
  have hbyte := h.file ph (by rw [hsegs]; exact List.mem_singleton_self ph) 0
    (by rw [hfile]; decide)
  rw [hva, hoff, Nat.add_zero, Nat.add_zero, hzero rfl] at hbyte
  have hne : oneSegment 0x10008 120 ≠ 0 := by decide +kernel
  exact hne (Option.some.inj hbyte).symm

end Machine
end Multiplix.Proc
