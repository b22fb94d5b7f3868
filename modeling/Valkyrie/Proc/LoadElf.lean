import Valkyrie.Mm.VirtualMemoryMap.OnePage
import Valkyrie.Proc.Mmap

/-!
# Loading an ELF image

What `load_elf_binary` leaves in the address space of a task, for an image that is well formed
(`Valkyrie.VMMap.Image`), against what the image asks for (`Valkyrie.VMMap.Loaded`).

`map_elf_segment` means to round the address and the offset of a segment down to pages, and to
leave what it takes off to the length. But it takes remainders by `PAGE_MASK`, which leave the two
as they are, so `do_mmap` refuses a segment that does not start on a page. The length that it asks
for is the one in the file, so a segment that is longer in memory gets no pages for the rest. And
where the zeros start is rounded to a page by `do_mmap`, in a comparison of a size with a position
in the file: the zeros begin at the start of the last page, or, with more than one page before it,
nowhere in memory. What is left is said by `Valkyrie.VMMap.Fits`.
-/

namespace Valkyrie.VMMap

open Exec MemoryManager
open Elf (Segment defaultBase mapping alignDown alignUp)

/-! ### Images -/

/-- A segment as the linker makes them: the offset in the file is that of the address in its page,
the bytes are in the file, and the addresses are those of a user program. -/
structure ValidSegment (content : List UInt8) (seg : Segment) : Prop where
  congruent : seg.fileOffset % pageSize = seg.virtualAddress % pageSize
  sizes : seg.physicalSize ≤ seg.virtualSize
  inFile : seg.fileOffset + seg.physicalSize ≤ content.length
  inSpace : defaultBase + seg.virtualAddress + seg.virtualSize ≤ userEnd

/-- **A well-formed image**: a file with these segments, no two of which have bytes in one page. -/
structure Image (content : List UInt8) (segments : List Segment) : Prop where
  magic : Elf.isValid content = true
  parsed : Elf.segments content = .ok segments
  /-- No object is larger than half of the address space. -/
  size : content.length < 2 ^ 63
  valid : ∀ seg ∈ segments, seg.type = Elf.load → ValidSegment content seg
  disjoint : segments.Pairwise fun seg seg' => seg.type = Elf.load → seg'.type = Elf.load →
    ∀ i < seg.virtualSize, ∀ j < seg'.virtualSize,
      (seg.virtualAddress + i) / pageSize ≠ (seg'.virtualAddress + j) / pageSize

/-- **The image is loaded**: each segment is in memory, with the bytes of the file and then zeros,
and no page that was in use was written to, but for the page tables of the map. -/
structure Loaded (pgd : ℕ) (content : List UInt8) (segments : List Segment) (s s' : State) :
    Prop where
  bytes : ∀ seg ∈ segments, seg.type = Elf.load → ∀ i < seg.virtualSize,
    load pgd s'.mem (defaultBase + seg.virtualAddress + i) =
      if i < seg.physicalSize then content[seg.fileOffset + i]? else some 0
  untouched : Untouched pgd s s'

/-- Where `do_mmap` starts to read: the offset, as it comes out of an `int`. -/
def readStart (seg : Segment) : ℕ := ofInt (mapping seg).fileOffset

/-- What `do_mmap` makes of a byte of a segment. -/
def segmentByte (content : List UInt8) (seg : Segment) (i : ℕ) : UInt8 :=
  if seg.physicalSize < seg.virtualSize ∧ alignDown seg.physicalSize ≤ i then 0
  else (content[readStart seg + i]?).getD 0

/-- **The segments that `do_mmap` gets right.** They start on a page, and their offset survives the
`int`, or leads to the same bytes. They have no zeros at the end; or they have less than two pages
in the file, zeros up to the end of the last of these at most, and nothing but zeros in this page
in the file as well. -/
structure Fits (content : List UInt8) (seg : Segment) : Prop where
  aligned : seg.virtualAddress % pageSize = 0
  nonempty : 0 < seg.physicalSize
  start : readStart seg ≤ content.length
  same : ∀ i < seg.physicalSize,
    (seg.physicalSize < seg.virtualSize → i < alignDown seg.physicalSize) →
      content[seg.fileOffset + i]? = some ((content[readStart seg + i]?).getD 0)
  room : seg.physicalSize < seg.virtualSize →
    seg.physicalSize < 2 * pageSize ∧ seg.virtualSize ≤ alignUp seg.physicalSize
  zeros : seg.physicalSize < seg.virtualSize → ∀ i < seg.physicalSize,
    alignDown seg.physicalSize ≤ i → content[seg.fileOffset + i]? = some 0

variable {content : List UInt8} {seg : Segment} {pos : ℕ}

/-! ### The arguments of `do_mmap` -/

section Segment

variable (hseg : ValidSegment content seg) (hsize : content.length < 2 ^ 63)

include hseg in
theorem mapping_addr : (mapping seg).addr = defaultBase + seg.virtualAddress := by
  have hspace := hseg.inSpace
  simp only [mapping, Elf.pageMask, defaultBase, userEnd, sizeMod, toSize, pageSize] at *
  omega

include hseg in
/-- `do_mmap` refuses a segment that does not start on a page. -/
theorem refused_iff : (mapping seg).refused = true ↔ seg.virtualAddress % pageSize ≠ 0 := by
  have hflags : (mapping seg).flags &&& Elf.mapFixed = 0 := by
    simp only [mapping]
    split_ifs <;> decide
  have hmod : (defaultBase + seg.virtualAddress) % pageSize = seg.virtualAddress % pageSize := by
    simp only [defaultBase, pageSize]
    omega
  rw [mapping_refused_iff, mapping_addr hseg, hmod]
  exact and_iff_right hflags

include hseg in
theorem mmapAddr_eq (haligned : seg.virtualAddress % pageSize = 0) :
    mmapAddr (mapping seg) = defaultBase + seg.virtualAddress := by
  rw [mmapAddr_eq_mul, mapping_addr hseg]
  simp only [defaultBase, pageSize] at *
  omega

include hseg hsize in
/-- The length is the one in the file. -/
theorem pages_eq (haligned : seg.virtualAddress % pageSize = 0) :
    (mapping seg).pages = (seg.physicalSize + (pageSize - 1)) / pageSize := by
  have hmod := hseg.congruent
  have hfile := hseg.inFile
  rw [haligned] at hmod
  simp only [Elf.Mapping.pages, mapping, alignUp, alignDown, toSize, sizeMod, hmod]
  simp only [pageSize]
  omega

/-! ### The pages of a segment -/

/-- How far the loop of `do_mmap` has come after so many pages of a segment. -/
def cursorAt (content : List UInt8) (seg : Segment) (j : ℕ) : Cursor :=
  ⟨min (readStart seg + j * pageSize) content.length,
    decide (j = 0 ∨ seg.physicalSize = seg.virtualSize)⟩

theorem not_anonymous (h : 0 < seg.physicalSize) : (mapping seg).anonymous = false := by
  have hflags : (mapping seg).flags = Elf.mapPrivate := by
    simp only [mapping]
    rw [if_neg (by omega)]
  rw [Elf.Mapping.anonymous, hflags]
  decide

theorem cursorAt_zero (h : 0 < seg.physicalSize) (hstart : readStart seg ≤ content.length) :
    mmapStart (mapping seg) pos = cursorAt content seg 0 := by
  rw [mmapStart, not_anonymous h, cursorAt, Nat.zero_mul, Nat.add_zero, Nat.min_eq_left hstart,
    if_neg Bool.false_ne_true, decide_eq_true (Or.inl rfl), readStart]

include hsize in
/-- What is read into a page, from a position that has not run past the end of the file. -/
theorem readContent_eq (h : 0 < seg.physicalSize) (hpos : pos ≤ content.length) :
    readContent (mapping seg) content pos =
      .ok ((content.drop pos).take (min pageSize (content.length - pos)),
        min (pos + pageSize) content.length) := by
  have hmod : content.length < sizeMod := hsize.trans (by decide)
  rw [readContent, not_anonymous h, if_neg Bool.false_ne_true, subSize_of_le hpos hmod,
    Vfs.copyFrom_of_le (by omega), ok_bind, List.length_take, List.length_drop, toSize_of_lt]
  · refine congrArg Except.ok (Prod.ext rfl ?_)
    dsimp only
    omega
  · simp only [pageSize, sizeMod] at *
    omega

/-- The bytes that are read into a page, with zeros behind them. -/
theorem read_getD {j k : ℕ} (hk : k < pageSize) :
    (((content.drop (min (readStart seg + j * pageSize) content.length)).take
      (min pageSize (content.length - min (readStart seg + j * pageSize) content.length)))[k]?).getD 0
      = (content[readStart seg + (j * pageSize + k)]?).getD 0 := by
  rw [List.getElem?_take, List.getElem?_drop]
  split_ifs with hlen
  · rw [Nat.min_eq_left (by omega), Nat.add_assoc]
  · rw [List.getElem?_eq_none (by omega)]

/-- Zeros follow on the file only if the segment is longer in memory. -/
theorem zeroPageFileOffset_eq (h : 0 < seg.physicalSize) :
    (mapping seg).zeroPageFileOffset =
      if seg.physicalSize < seg.virtualSize then seg.physicalSize else Elf.noZeroPage := by
  simp only [mapping, decide_eq_true_eq, if_neg h.ne']

theorem cursorAt_pos (j : ℕ) :
    min (min (readStart seg + j * pageSize) content.length + pageSize) content.length =
      (cursorAt content seg (j + 1)).pos := by
  rw [cursorAt, Nat.add_mul]
  dsimp only
  omega

/-- The pages of a segment that is as long in memory. -/
theorem zeroes_of_le (h : 0 < seg.physicalSize) (hle : seg.virtualSize ≤ seg.physicalSize) :
    zeroes (mapping seg) pos = false := by
  rw [zeroes, zeroPageFileOffset_eq h, if_neg (not_lt.mpr hle), bne_self_eq_false, Bool.false_and]

include hseg hsize in
/-- The comparison of `do_mmap`, of a size with a position. -/
theorem zeroes_iff (h : 0 < seg.physicalSize) (hlt : seg.physicalSize < seg.virtualSize)
    (hpos : pos ≤ content.length) :
    zeroes (mapping seg) pos = true ↔ seg.physicalSize ≤ pos + pageSize := by
  have hfile := hseg.inFile
  have hne : seg.physicalSize ≠ Elf.noZeroPage := by
    simp only [Elf.noZeroPage, sizeMod]
    omega
  have hsum : pos + pageSize < sizeMod := by
    simp only [pageSize, sizeMod]
    omega
  rw [zeroes, zeroPageFileOffset_eq h, if_pos hlt, toSize_of_lt hsum, Bool.and_eq_true,
    decide_eq_true_eq, bne_iff_ne]
  exact and_iff_right hne

include hseg hsize in
/-- **A page of a segment** that `do_mmap` gets through with. -/
theorem pageContent_eq (h : 0 < seg.physicalSize)
    (hshort : seg.physicalSize < seg.virtualSize → seg.physicalSize < 2 * pageSize) (j : ℕ) :
    ∃ bytes, pageContent (mapping seg) content (cursorAt content seg j) =
      .ok (bytes, cursorAt content seg (j + 1)) ∧
        ∀ k < pageSize, bytes k = segmentByte content seg (j * pageSize + k) := by
  have hread := readContent_eq hsize h
    (Nat.min_le_right (readStart seg + j * pageSize) content.length)
  rw [cursorAt_pos] at hread
  rw [pageContent, cursorAt, hread, ok_bind]
  dsimp only
  rcases Nat.lt_or_ge seg.physicalSize seg.virtualSize with hlt | hle
  · have hpos : (cursorAt content seg (j + 1)).pos ≤ content.length := Nat.min_le_right _ _
    have hzero : zeroes (mapping seg) (cursorAt content seg (j + 1)).pos = true := by
      rw [zeroes_iff hseg hsize h hlt hpos]
      have hfile := hseg.inFile
      have htwo := hshort hlt
      simp only [cursorAt, pageSize] at *
      omega
    have hfirst : zeroFrom (mapping seg) (decide (j = 0 ∨ seg.physicalSize = seg.virtualSize)) =
        if j = 0 then alignDown seg.physicalSize else 0 := by
      rw [zeroFrom, zeroPageFileOffset_eq h, if_pos hlt]
      simp only [decide_eq_true_eq, hlt.ne, or_false]
    have hskip : (if j = 0 then alignDown seg.physicalSize else 0) ≤ pageSize := by
      have htwo := hshort hlt
      simp only [alignDown, pageSize] at *
      split_ifs <;> omega
    rw [hzero, if_pos rfl, hfirst, if_pos hskip]
    refine ⟨_, congrArg (fun first => Except.ok (_, Cursor.mk _ first)) ?_, fun k hk => ?_⟩
    · simp [hlt.ne]
    · rw [read_getD hk, segmentByte]
      refine if_congr ?_ rfl rfl
      have htwo := hshort hlt
      simp only [alignDown, pageSize, hlt, true_and] at *
      split_ifs <;> omega
  · have hEq : seg.physicalSize = seg.virtualSize := le_antisymm hseg.sizes hle
    rw [zeroes_of_le h hle, if_neg Bool.false_ne_true]
    refine ⟨_, congrArg (fun first => Except.ok (_, Cursor.mk _ first)) ?_, fun k hk => ?_⟩
    · simp [hEq]
    · rw [read_getD hk, segmentByte, if_neg fun hlt => absurd hlt.1 (not_lt.mpr hle)]

include hseg hsize in
theorem pagesContent_eq (h : 0 < seg.physicalSize)
    (hshort : seg.physicalSize < seg.virtualSize → seg.physicalSize < 2 * pageSize) :
    ∀ n j, ∃ pages, pagesContent (mapping seg) content n (cursorAt content seg j) = .ok pages ∧
      pages.length = n ∧ ∀ i < n, ∀ k < pageSize,
        (pages[i]?).map (· k) = some (segmentByte content seg ((j + i) * pageSize + k))
  | 0, _ => ⟨[], rfl, rfl, fun i hi => absurd hi (Nat.not_lt_zero i)⟩
  | n + 1, j => by
    obtain ⟨bytes, hbytes, hbyte⟩ := pageContent_eq hseg hsize h hshort j
    obtain ⟨pages, hpages, hlen, hrest⟩ := pagesContent_eq h hshort n (j + 1)
    refine ⟨bytes :: pages, ?_, by rw [List.length_cons, hlen], fun i hi k hk => ?_⟩
    · rw [pagesContent, hbytes, ok_bind]
      dsimp only
      rw [hpages]
      rfl
    · cases i with
      | zero => exact congrArg some (hbyte k hk)
      | succ i =>
        rw [List.getElem?_cons_succ, hrest i (by omega) k hk, Nat.add_assoc, Nat.add_comm 1 i]

include hseg hsize in
/-- Zeros that start in the first page where the comparison comes out true. -/
theorem pageContent_first (h : 0 < seg.physicalSize) (hlt : seg.physicalSize < seg.virtualSize)
    {i : ℕ} {bytes : ℕ → UInt8} {c : Cursor} (hbytes : pageContent (mapping seg) content
      ⟨min (readStart seg + i * pageSize) content.length, true⟩ = .ok (bytes, c)) :
    seg.physicalSize < 2 * pageSize ∨
      c = ⟨min (readStart seg + (i + 1) * pageSize) content.length, true⟩ ∧
        c.pos + pageSize < seg.physicalSize := by
  have hread := readContent_eq hsize h
    (Nat.min_le_right (readStart seg + i * pageSize) content.length)
  rw [cursorAt_pos] at hread
  have hpos : (cursorAt content seg (i + 1)).pos ≤ content.length := Nat.min_le_right _ _
  rw [pageContent, hread, ok_bind] at hbytes
  dsimp only at hbytes
  split_ifs at hbytes with hzero hskip
  · rw [zeroFrom, if_pos rfl, zeroPageFileOffset_eq h, if_pos hlt] at hskip
    simp only [alignDown, pageSize] at *
    omega
  · obtain ⟨-, rfl⟩ := Prod.mk.inj (pure_eq_ok.mp hbytes)
    rw [zeroes_iff hseg hsize h hlt hpos] at hzero
    exact Or.inr ⟨rfl, not_le.mp hzero⟩

include hseg hsize in
/-- **With two pages or more before the zeros**, `do_mmap` does not get through. -/
theorem short_of_pagesContent (h : 0 < seg.physicalSize) (hlt : seg.physicalSize < seg.virtualSize) :
    ∀ {n i : ℕ} {pages : List (ℕ → UInt8)},
      seg.physicalSize ≤ readStart seg + (i + n + 1) * pageSize →
      pagesContent (mapping seg) content (n + 1)
        ⟨min (readStart seg + i * pageSize) content.length, true⟩ = .ok pages →
      seg.physicalSize < 2 * pageSize := by
  intro n
  induction n with
  | zero =>
    intro i pages hend hpages
    obtain ⟨⟨bytes, c⟩, hbytes, -⟩ := bind_eq_ok.mp hpages
    rcases pageContent_first hseg hsize h hlt hbytes with hshort | ⟨rfl, hpos⟩
    · exact hshort
    · have hfile := hseg.inFile
      rw [Nat.add_zero] at hend
      dsimp only at hpos
      omega
  | succ n ih =>
    intro i pages hend hpages
    obtain ⟨⟨bytes, c⟩, hbytes, hpages⟩ := bind_eq_ok.mp hpages
    obtain ⟨rest, hrest, -⟩ := bind_eq_ok.mp hpages
    rcases pageContent_first hseg hsize h hlt hbytes with hshort | ⟨rfl, -⟩
    · exact hshort
    · refine ih ?_ hrest
      rwa [show i + 1 + n + 1 = i + (n + 1) + 1 by omega]

include hseg hsize in
/-- **What it takes to get through.** -/
theorem of_pagesContent (h : 0 < seg.physicalSize) {n : ℕ} {pages : List (ℕ → UInt8)}
    (hn : seg.physicalSize ≤ (n + 1) * pageSize)
    (hpages : pagesContent (mapping seg) content (n + 1) (mmapStart (mapping seg) pos) =
      .ok pages) : readStart seg ≤ content.length ∧
        (seg.physicalSize < seg.virtualSize → seg.physicalSize < 2 * pageSize) := by
  have hstart : readStart seg ≤ content.length := by
    by_contra hgt
    obtain ⟨r, hbytes, -⟩ := bind_eq_ok.mp hpages
    obtain ⟨r', hread, -⟩ := bind_eq_ok.mp hbytes
    rw [readContent, mmapStart, not_anonymous h, if_neg Bool.false_ne_true,
      if_neg Bool.false_ne_true] at hread
    obtain ⟨bytes, hcopy, -⟩ := bind_eq_ok.mp hread
    have hne : min pageSize (subSize content.length (readStart seg)) ≠ 0 := by
      have hsub := Vfs.subSize_ne_zero (not_le.mp hgt) (ofInt_lt _)
      have hpage : pageSize ≠ 0 := by decide
      omega
    have hwild := Vfs.copyFrom_of_lt hne (not_le.mp hgt)
    rw [readStart] at hwild
    dsimp only at hcopy
    rw [hwild] at hcopy
    cases hcopy
  refine ⟨hstart, fun hlt => ?_⟩
  rw [cursorAt_zero h hstart, cursorAt, decide_eq_true (Or.inl rfl)] at hpages
  refine short_of_pagesContent hseg hsize h hlt ?_ hpages
  rw [Nat.zero_add]
  omega

end Segment

/-! ### The pages in the address space -/

section Space

variable {spaces : ℕ → Space} {pgd v i a : ℕ}

/-- Two addresses of user programs are in one page if they have one path. -/
theorem pathOf_eq_iff {v v' : ℕ} (hv : v < userEnd) (hv' : v' < userEnd) :
    pathOf v' = pathOf v ↔ v' / pageSize = v / pageSize := by
  rw [pathOf_eq_iff_mod]
  simp only [userEnd] at hv hv'
  simp only [pageSize]
  omega

/-- **What is found in a row of pages** that were mapped one after the other. -/
theorem foldl_pageActs (hv : v % pageSize = 0) (ha : a < userEnd) {pages : List (ℕ → UInt8)}
    (hend : v + (i + pages.length) * pageSize ≤ userEnd) :
    (pageActs pgd v i pages).foldl Act.apply spaces pgd a =
      if v + i * pageSize ≤ a then
        ((pages[(a - (v + i * pageSize)) / pageSize]?).map (· (pageOffset a))).or (spaces pgd a)
      else spaces pgd a := by
  induction pages generalizing i spaces with
  | nil => simp [pageActs]
  | cons bytes pages ih =>
    have hpage : 0 < pageSize := by decide
    have huser : v + i * pageSize < userEnd := by
      rw [List.length_cons, Nat.add_mul] at hend
      have hpos : 0 < (pages.length + 1) * pageSize := Nat.mul_pos (Nat.succ_pos _) hpage
      omega
    have hsize : userEnd ≤ sizeMod := by decide
    have hpath : pathOf a = pathOf (v + i * pageSize) ↔
        v + i * pageSize ≤ a ∧ a < v + (i + 1) * pageSize := by
      rw [pathOf_eq_iff huser ha]
      simp only [pageSize] at *
      omega
    rw [pageActs, List.foldl_cons, ih (by rwa [List.length_cons, Nat.add_comm pages.length,
      ← Nat.add_assoc] at hend), Act.apply, Function.update_self, toSize_of_lt (by omega)]
    rw [Nat.add_mul, Nat.one_mul, ← Nat.add_assoc] at hpath ⊢
    generalize v + i * pageSize = u at *
    by_cases hlow : u ≤ a
    · rw [if_pos hlow]
      by_cases hhigh : u + pageSize ≤ a
      · -- The page is one of those that follow.
        have hidx : (a - u) / pageSize = (a - (u + pageSize)) / pageSize + 1 := by
          rw [← Nat.sub_sub]
          exact Nat.div_eq_sub_div hpage (by omega)
        rw [if_pos hhigh, if_neg (fun h => by have := (hpath.mp h).2; omega), hidx,
          List.getElem?_cons_succ]
      · have hidx : (a - u) / pageSize = 0 := Nat.div_eq_of_lt (by omega)
        rw [if_neg hhigh, if_pos (hpath.mpr ⟨hlow, by omega⟩), hidx]
        rfl
    · rw [if_neg hlow, if_neg (by omega), if_neg fun h => hlow (hpath.mp h).1]

/-- What a segment is in the address space: as many pages as there are in the file, if it starts on
a page. -/
def present (content : List UInt8) (seg : Segment) (a : ℕ) : Option UInt8 :=
  if seg.type = Elf.load ∧ seg.virtualAddress % pageSize = 0 ∧
      defaultBase + seg.virtualAddress ≤ a ∧
      a < defaultBase + seg.virtualAddress + alignUp seg.physicalSize then
    some (segmentByte content seg (a - (defaultBase + seg.virtualAddress)))
  else none

theorem alignUp_eq {n : ℕ} (h : n < 2 ^ 63) :
    alignUp n = (n + (pageSize - 1)) / pageSize * pageSize := by
  rw [alignUp, alignDown, toSize_of_lt]
  simp only [pageSize, sizeMod]
  omega

/-- **What `do_mmap` makes of a segment**, where it gets through. -/
theorem of_segmentContent (hseg : ValidSegment content seg) (hsize : content.length < 2 ^ 63)
    (hload : seg.type = Elf.load) (haligned : seg.virtualAddress % pageSize = 0)
    (h : 0 < seg.physicalSize) {pages : List (ℕ → UInt8)}
    (hpages : segmentContent content pos seg = .ok pages) :
    readStart seg ≤ content.length ∧
      (seg.physicalSize < seg.virtualSize → seg.physicalSize < 2 * pageSize) ∧
      pages.length = (seg.physicalSize + (pageSize - 1)) / pageSize ∧
      ∀ i < pages.length, ∀ k < pageSize,
        (pages[i]?).map (· k) = some (segmentByte content seg (i * pageSize + k)) := by
  have hrefused : ¬(mapping seg).refused = true := fun hr => (refused_iff hseg).mp hr haligned
  rw [segmentContent, if_neg (not_not.mpr hload), mmapContent, if_neg hrefused,
    pages_eq hseg hsize haligned] at hpages
  obtain ⟨n, hn⟩ := Nat.exists_eq_succ_of_ne_zero
    (Nat.div_pos (by omega : pageSize ≤ seg.physicalSize + (pageSize - 1)) (by decide)).ne'
  rw [hn] at hpages ⊢
  have hle : seg.physicalSize ≤ (n + 1) * pageSize := by
    simp only [pageSize] at hn ⊢
    omega
  obtain ⟨hstart, hshort⟩ := of_pagesContent hseg hsize h hle hpages
  obtain ⟨pages', hpages', hlen, hbytes⟩ := pagesContent_eq hseg hsize h hshort (n + 1) 0
  rw [cursorAt_zero h hstart, Nat.succ_eq_add_one, hpages'] at hpages
  obtain rfl := Except.ok.inj hpages
  refine ⟨hstart, hshort, hlen, fun i hi k hk => ?_⟩
  rw [hbytes i (hlen ▸ hi) k hk, Nat.zero_add]

theorem foldl_segment (hsize : content.length < 2 ^ 63)
    (hvalid : seg.type = Elf.load → ValidSegment content seg) {pages : List (ℕ → UInt8)}
    (hpages : segmentContent content pos seg = .ok pages) (ha : a < userEnd) :
    (pageActs pgd (mmapAddr (mapping seg)) 0 pages).foldl Act.apply spaces pgd a =
      (present content seg a).or (spaces pgd a) := by
  -- Three kinds of segments have no page: those that are not loaded, those that `do_mmap` refuses,
  -- and those without bytes in the file.
  by_cases hload : seg.type = Elf.load
  swap
  · rw [segmentContent, if_pos hload] at hpages
    cases pure_eq_ok.mp hpages
    rw [present, if_neg fun h => hload h.1]
    rfl
  have hseg := hvalid hload
  by_cases haligned : seg.virtualAddress % pageSize = 0
  swap
  · rw [segmentContent, if_neg (not_not.mpr hload), mmapContent,
      if_pos ((refused_iff hseg).mpr haligned)] at hpages
    cases pure_eq_ok.mp hpages
    rw [present, if_neg fun h => haligned h.2.1]
    rfl
  have hfile := hseg.inFile
  obtain hzero | hpos := Nat.eq_zero_or_pos seg.physicalSize
  · have hrefused : ¬(mapping seg).refused = true := fun hr => (refused_iff hseg).mp hr haligned
    rw [segmentContent, if_neg (not_not.mpr hload), mmapContent, if_neg hrefused,
      pages_eq hseg hsize haligned, hzero] at hpages
    cases pure_eq_ok.mp hpages
    rw [present, hzero, if_neg]
    · rfl
    · rw [alignUp_eq (by decide)]
      rintro ⟨-, -, hlow, hhigh⟩
      simp only [pageSize] at hhigh
      omega
  obtain ⟨-, -, hlen, hbytes⟩ := of_segmentContent hseg hsize hload haligned hpos hpages
  have hspace := hseg.inSpace
  have hsizes := hseg.sizes
  rw [mmapAddr_eq hseg haligned, foldl_pageActs (by
    simp only [defaultBase, pageSize] at *
    omega) ha (by
      rw [hlen]
      simp only [defaultBase, pageSize, userEnd] at *
      omega), Nat.zero_mul, Nat.add_zero, present, alignUp_eq (by omega), ← hlen]
  have hbase : (defaultBase + seg.virtualAddress) % pageSize = 0 := by
    simp only [defaultBase, pageSize] at *
    omega
  -- The pages go from `u` on, one after the other.
  generalize defaultBase + seg.virtualAddress = u at *
  by_cases hlow : u ≤ a
  · rw [if_pos hlow]
    by_cases hhigh : a < u + pages.length * pageSize
    · have hidx : (a - u) / pageSize < pages.length := by
        rw [Nat.div_lt_iff_lt_mul (by decide)]
        omega
      have hoff : (a - u) / pageSize * pageSize + pageOffset a = a - u := by
        simp only [pageOffset, pageSize] at *
        omega
      rw [hbytes _ hidx _ (pageOffset_lt a), hoff, if_pos ⟨hload, haligned, hlow, hhigh⟩]
    · have hidx : pages.length ≤ (a - u) / pageSize := by
        rw [Nat.le_div_iff_mul_le (by decide)]
        omega
      rw [List.getElem?_eq_none hidx, if_neg fun h => hhigh h.2.2.2, Option.map_none]
  · rw [if_neg hlow, if_neg fun h => hlow h.2.2.1]
    rfl

/-- **The address space of an image**: what the last segment with a page there has there. -/
theorem foldl_imageActs (hsize : content.length < 2 ^ 63) (ha : a < userEnd)
    {segments : List Segment}
    (hvalid : ∀ seg ∈ segments, seg.type = Elf.load → ValidSegment content seg) {acts : List Act}
    (hacts : imageActs pgd content pos segments = .ok acts) :
    acts.foldl Act.apply spaces pgd a =
      segments.foldl (fun byte seg => (present content seg a).or byte) (spaces pgd a) := by
  induction segments generalizing spaces acts with
  | nil =>
    cases pure_eq_ok.mp hacts
    rfl
  | cons seg segments ih =>
    obtain ⟨pages, hpages, hacts⟩ := bind_eq_ok.mp hacts
    obtain ⟨acts', hacts', hacts⟩ := bind_eq_ok.mp hacts
    cases pure_eq_ok.mp hacts
    rw [List.foldl_append, ih (fun seg hseg => hvalid seg (List.mem_cons_of_mem _ hseg)) hacts',
      List.foldl_cons, foldl_segment hsize (hvalid seg List.mem_cons_self) hpages ha]

/-- Segments that have nothing at an address do not matter there. -/
theorem foldl_present_of_none {segments : List Segment} {byte : Option UInt8}
    (h : ∀ seg ∈ segments, present content seg a = none) :
    segments.foldl (fun byte seg => (present content seg a).or byte) byte = byte := by
  induction segments generalizing byte with
  | nil => rfl
  | cons seg segments ih =>
    rw [List.foldl_cons, h seg List.mem_cons_self, Option.none_or]
    exact ih fun seg hseg => h seg (List.mem_cons_of_mem _ hseg)

/-- **Two segments do not meet**: the pages of a segment are pages that it has bytes in. -/
theorem present_of_disjoint {seg' : Segment} (hseg' : ValidSegment content seg')
    (hsize : content.length < 2 ^ 63) {i : ℕ}
    (hdisjoint : ∀ j < seg'.virtualSize,
      (seg.virtualAddress + i) / pageSize ≠ (seg'.virtualAddress + j) / pageSize) :
    present content seg' (defaultBase + seg.virtualAddress + i) = none := by
  rw [present]
  refine if_neg ?_
  rintro ⟨-, haligned, hlow, hhigh⟩
  have hfile := hseg'.inFile
  have hsizes := hseg'.sizes
  rw [alignUp_eq (by omega)] at hhigh
  -- The page that the address is in begins inside the segment.
  refine hdisjoint ((seg.virtualAddress + i) / pageSize * pageSize - seg'.virtualAddress) ?_ ?_
  · simp only [defaultBase, pageSize] at *
    omega
  · simp only [defaultBase, pageSize] at *
    omega

/-- **What is found of a segment** of a well-formed image. -/
theorem Image.foldl_present {segments : List Segment} (himage : Image content segments)
    (hmem : seg ∈ segments) (hload : seg.type = Elf.load) {i : ℕ} (hi : i < seg.virtualSize) :
    segments.foldl (fun byte seg' =>
        (present content seg' (defaultBase + seg.virtualAddress + i)).or byte) none =
      present content seg (defaultBase + seg.virtualAddress + i) := by
  obtain ⟨before, behind, rfl⟩ := List.append_of_mem hmem
  obtain ⟨-, hbehind, hbefore⟩ := List.pairwise_append.mp himage.disjoint
  have hnone : ∀ seg' ∈ before ++ behind,
      present content seg' (defaultBase + seg.virtualAddress + i) = none := by
    intro seg' hseg'
    by_cases hload' : seg'.type = Elf.load
    · refine present_of_disjoint (himage.valid seg' ?_ hload') himage.size fun j hj => ?_
      · rcases List.mem_append.mp hseg' with hseg' | hseg'
        · exact List.mem_append_left _ hseg'
        · exact List.mem_append_right _ (List.mem_cons_of_mem _ hseg')
      · rcases List.mem_append.mp hseg' with hseg' | hseg'
        · exact (hbefore seg' hseg' seg List.mem_cons_self hload' hload j hj i hi).symm
        · exact (List.pairwise_cons.mp hbehind).1 seg' hseg' hload hload' i hi j hj
    · exact if_neg fun h => hload' h.1
  rw [List.foldl_append, List.foldl_cons,
    foldl_present_of_none fun seg' h => hnone seg' (List.mem_append_left _ h),
    foldl_present_of_none fun seg' h => hnone seg' (List.mem_append_right _ h), Option.or_none]

end Space

/-! ### When an image is loaded -/

section Load

variable {w : World} {s' : State} {spaces : ℕ → Space} {segments : List Segment}
  {fuel pgd : ℕ}

theorem segmentContent_of_imageActs {acts : List Act}
    (hacts : imageActs pgd content pos segments = .ok acts) (hmem : seg ∈ segments) :
    ∃ pages, segmentContent content pos seg = .ok pages := by
  induction segments generalizing acts with
  | nil => cases hmem
  | cons seg' segments ih =>
    obtain ⟨pages, hpages, hacts⟩ := bind_eq_ok.mp hacts
    obtain ⟨acts', hacts', -⟩ := bind_eq_ok.mp hacts
    rcases List.mem_cons.mp hmem with rfl | hmem
    · exact ⟨pages, hpages⟩
    · exact ih hacts' hmem

/-- What `do_mmap` makes of the bytes is what the file has there. -/
theorem Fits.bytes (h : Fits content seg) {i : ℕ} (hi : i < seg.physicalSize) :
    content[seg.fileOffset + i]? = some (segmentByte content seg i) := by
  rw [segmentByte]
  split_ifs with hzero
  · exact h.zeros hzero.1 i hi hzero.2
  · exact h.same i hi fun hlt => not_le.mp fun hle => hzero ⟨hlt, hle⟩

/-- The bytes that the image asks for. -/
theorem present_eq_some (hseg : ValidSegment content seg) (hsize : content.length < 2 ^ 63)
    (hload : seg.type = Elf.load) (hfits : Fits content seg) {i : ℕ} (hi : i < seg.virtualSize) :
    present content seg (defaultBase + seg.virtualAddress + i) =
      if i < seg.physicalSize then content[seg.fileOffset + i]? else some 0 := by
  have hfile := hseg.inFile
  have hsizes := hseg.sizes
  have hup := alignUp_eq (n := seg.physicalSize) (by omega)
  have hroom : seg.virtualSize ≤ alignUp seg.physicalSize := by
    rcases Nat.lt_or_ge seg.physicalSize seg.virtualSize with hlt | hge
    · exact (hfits.room hlt).2
    · rw [hup]
      simp only [pageSize]
      omega
  rw [present, if_pos ⟨hload, hfits.aligned, Nat.le_add_right _ _, by omega⟩,
    Nat.add_sub_cancel_left]
  split_ifs with hlt
  · exact (hfits.bytes hlt).symm
  · rw [segmentByte, if_pos]
    refine ⟨by omega, le_trans ?_ (not_lt.mp hlt)⟩
    exact Nat.div_mul_le_self _ _

/-- A segment of which all bytes are found. -/
theorem fits_of_present (hseg : ValidSegment content seg) (hsize : content.length < 2 ^ 63)
    (hload : seg.type = Elf.load) {pages : List (ℕ → UInt8)}
    (hpages : segmentContent content pos seg = .ok pages) (hpos : 0 < seg.virtualSize)
    (h : ∀ i < seg.virtualSize, present content seg (defaultBase + seg.virtualAddress + i) =
      if i < seg.physicalSize then content[seg.fileOffset + i]? else some 0) : Fits content seg := by
  have hfile := hseg.inFile
  have hsizes := hseg.sizes
  have hup := alignUp_eq (n := seg.physicalSize) (by omega)
  have hpresent : ∀ i < seg.virtualSize, seg.virtualAddress % pageSize = 0 ∧
      i < alignUp seg.physicalSize ∧ some (segmentByte content seg i) =
        if i < seg.physicalSize then content[seg.fileOffset + i]? else some 0 := by
    intro i hi
    have hbyte := h i hi
    have hsome : present content seg (defaultBase + seg.virtualAddress + i) ≠ none := by
      rw [hbyte]
      split_ifs
      · rw [List.getElem?_eq_getElem (by omega)]
        exact Option.some_ne_none _
      · exact Option.some_ne_none _
    rw [present] at hbyte hsome
    obtain ⟨-, haligned, -, hhigh⟩ := of_not_not fun hnot => hsome (if_neg hnot)
    rw [if_pos ⟨hload, haligned, Nat.le_add_right _ _, hhigh⟩, Nat.add_sub_cancel_left] at hbyte
    exact ⟨haligned, by omega, hbyte⟩
  obtain ⟨haligned, hfirst, -⟩ := hpresent 0 hpos
  have hnonempty : 0 < seg.physicalSize := by
    by_contra hzero
    rw [hup] at hfirst
    simp only [pageSize] at hfirst
    omega
  obtain ⟨hstart, hshort, -, -⟩ := of_segmentContent hseg hsize hload haligned hnonempty hpages
  have hbyte : ∀ i < seg.physicalSize,
      content[seg.fileOffset + i]? = some (segmentByte content seg i) := by
    intro i hi
    have hbyte := (hpresent i (by omega)).2.2
    rw [if_pos hi] at hbyte
    exact hbyte.symm
  refine ⟨haligned, hnonempty, hstart, fun i hi hkept => ?_, fun hlt => ⟨hshort hlt, ?_⟩,
    fun hlt i hi hle => ?_⟩
  · rw [hbyte i hi, segmentByte, if_neg fun hzero => absurd (hkept hzero.1) (not_lt.mpr hzero.2)]
  · have hlast := (hpresent (seg.virtualSize - 1) (by omega)).2.1
    omega
  · rw [hbyte i hi, segmentByte, if_pos ⟨hlt, hle⟩]

/-- **What a task finds in its address space** once the image was read. -/
theorem Refines.load_of_loadElfBinary (h : Refines spaces w) (hpgd : pgd ∈ w.maps)
    (himage : Image content segments) (hempty : ∀ path, look 3 pgd w.s.mem path = none)
    (hcall : VMMap.loadElfBinary fuel pgd content pos segments w.s = .ok s') :
    (∀ seg ∈ segments, seg.type = Elf.load → ∀ i < seg.virtualSize,
      VMMap.load pgd s'.mem (defaultBase + seg.virtualAddress + i) =
        present content seg (defaultBase + seg.virtualAddress + i)) ∧
      (∀ seg ∈ segments, ∃ pages, segmentContent content pos seg = .ok pages) ∧
      Untouched pgd w.s s' := by
  obtain ⟨acts, hacts, h', huntouched⟩ := Refines.loadElfBinary hpgd himage.magic h hcall
  refine ⟨fun seg hmem hload i hi => ?_, fun seg hmem => segmentContent_of_imageActs hacts hmem,
    huntouched⟩
  have hspace := (himage.valid seg hmem hload).inSpace
  have hnone : spaces pgd (defaultBase + seg.virtualAddress + i) = none := by
    rw [← h.load pgd hpgd]
    exact load_eq_none (hempty _)
  rw [h'.load pgd hpgd, foldl_imageActs himage.size (by omega) himage.valid hacts, hnone,
    himage.foldl_present hmem hload hi]

/-- **An image is loaded** exactly if its segments are of the kind that `do_mmap` gets right. -/
theorem Refines.loaded_iff (h : Refines spaces w) (hpgd : pgd ∈ w.maps)
    (himage : Image content segments) (hempty : ∀ path, look 3 pgd w.s.mem path = none)
    (hcall : VMMap.loadElfBinary fuel pgd content pos segments w.s = .ok s') :
    Loaded pgd content segments w.s s' ↔
      ∀ seg ∈ segments, seg.type = Elf.load → seg.virtualSize = 0 ∨ Fits content seg := by
  obtain ⟨hpresent, hcontent, huntouched⟩ := h.load_of_loadElfBinary hpgd himage hempty hcall
  constructor
  · intro hloaded seg hmem hload
    refine (Nat.eq_zero_or_pos seg.virtualSize).imp_right fun hpos => ?_
    obtain ⟨pages, hpages⟩ := hcontent seg hmem
    refine fits_of_present (himage.valid seg hmem hload) himage.size hload hpages hpos fun i hi => ?_
    rw [← hpresent seg hmem hload i hi]
    exact hloaded.bytes seg hmem hload i hi
  · intro hfits
    refine ⟨fun seg hmem hload i hi => ?_, huntouched⟩
    rw [hpresent seg hmem hload i hi]
    rcases hfits seg hmem hload with hzero | hfits
    · omega
    · exact present_eq_some (himage.valid seg hmem hload) himage.size hload hfits hi

/-- A segment of the kind that `do_mmap` gets right is one that it gets through with. -/
theorem exists_segmentContent (hseg : ValidSegment content seg) (hsize : content.length < 2 ^ 63)
    (hload : seg.type = Elf.load) (hfits : seg.virtualSize = 0 ∨ Fits content seg) :
    ∃ pages, segmentContent content pos seg = .ok pages := by
  rw [segmentContent, if_neg (not_not.mpr hload), mmapContent]
  split_ifs with hrefused
  · exact ⟨[], rfl⟩
  have haligned : seg.virtualAddress % pageSize = 0 :=
    of_not_not fun hne => hrefused ((refused_iff hseg).mpr hne)
  rw [pages_eq hseg hsize haligned]
  rcases hfits with hzero | hfits
  · have hphysical : seg.physicalSize = 0 := Nat.le_zero.mp (hseg.sizes.trans hzero.le)
    rw [hphysical]
    exact ⟨[], rfl⟩
  · rw [cursorAt_zero hfits.nonempty hfits.start]
    obtain ⟨pages, hpages, -⟩ := pagesContent_eq hseg hsize hfits.nonempty
      (fun hlt => (hfits.room hlt).1) ((seg.physicalSize + (pageSize - 1)) / pageSize) 0
    exact ⟨pages, hpages⟩

/-- **With enough memory, `do_mmap` returns** for such a segment, where nothing is mapped yet. -/
theorem Refines.exists_doMmap (h : Refines spaces w) (hpgd : pgd ∈ w.maps)
    (hseg : ValidSegment content seg) (hsize : content.length < 2 ^ 63)
    (hload : seg.type = Elf.load) (hfits : seg.virtualSize = 0 ∨ Fits content seg) {n : ℕ}
    (hplenty : Plenty fuel (n + 4 * (mapping seg).pages) w.s.mm)
    (hfree : ∀ i < seg.virtualSize,
      spaces pgd (defaultBase + seg.virtualAddress + i) = none) :
    ∃ s', VMMap.doMmap fuel pgd (mapping seg) content pos w.s = .ok s' ∧ Plenty fuel n s'.mm := by
  obtain ⟨pages, hpages⟩ : ∃ pages, segmentContent content pos seg = .ok pages :=
    exists_segmentContent hseg hsize hload hfits
  rw [segmentContent, if_neg (not_not.mpr hload), mmapContent] at hpages
  rw [VMMap.doMmap]
  split_ifs at hpages ⊢ with hrefused
  · exact ⟨w.s, rfl, hplenty.mono (by omega)⟩
  have haligned : seg.virtualAddress % pageSize = 0 :=
    of_not_not fun hne => hrefused ((refused_iff hseg).mpr hne)
  have hspace := hseg.inSpace
  have hsizes := hseg.sizes
  have hcount := pages_eq hseg hsize haligned
  have haddr : ∀ j < (mapping seg).pages, j * pageSize < seg.virtualSize ∧
      toSize (mmapAddr (mapping seg) + j * pageSize) =
        defaultBase + seg.virtualAddress + j * pageSize := by
    intro j hj
    rw [hcount] at hj
    have hlt : j * pageSize < seg.physicalSize := by
      simp only [pageSize] at *
      omega
    have huser : userEnd < sizeMod := by decide
    rw [mmapAddr_eq hseg haligned]
    exact ⟨by omega, toSize_of_lt (by omega)⟩
  refine Refines.exists_mmapLoop hpgd h hpages hplenty (fun j _ hj => ?_) fun j j' _ hlt hj' => ?_
  · obtain ⟨hin, hEq⟩ := haddr j (by omega)
    rw [hEq]
    exact hfree _ hin
  · obtain ⟨hin, hEq⟩ := haddr j (by omega)
    obtain ⟨hin', hEq'⟩ := haddr j' (by omega)
    rw [hEq, hEq', Ne, pathOf_eq_iff (by omega) (by omega)]
    simp only [pageSize]
    omega

/-- **With enough memory, `load_elf_binary` returns** for an image of such segments. -/
theorem Refines.exists_loadElfBinary (hpgd : pgd ∈ w.maps) (hmagic : Elf.isValid content = true)
    (hsize : content.length < 2 ^ 63)
    (hvalid : ∀ seg ∈ segments, seg.type = Elf.load → ValidSegment content seg)
    (hdisjoint : segments.Pairwise fun seg seg' => seg.type = Elf.load → seg'.type = Elf.load →
      ∀ i < seg.virtualSize, ∀ j < seg'.virtualSize,
        (seg.virtualAddress + i) / pageSize ≠ (seg'.virtualAddress + j) / pageSize)
    (hfits : ∀ seg ∈ segments, seg.type = Elf.load → seg.virtualSize = 0 ∨ Fits content seg)
    {s : State} (h : Refines spaces { w with s := s })
    (hplenty : Plenty fuel (4 * (segments.map fun seg => (mapping seg).pages).sum) s.mm)
    (hfree : ∀ seg ∈ segments, seg.type = Elf.load → ∀ i < seg.virtualSize,
      spaces pgd (defaultBase + seg.virtualAddress + i) = none) :
    ∃ s', VMMap.loadElfBinary fuel pgd content pos segments s = .ok s' := by
  induction segments generalizing s spaces with
  | nil => exact ⟨s, if_pos hmagic⟩
  | cons seg segments ih =>
    obtain ⟨hhead, htail⟩ := List.pairwise_cons.mp hdisjoint
    rw [List.map_cons, List.sum_cons, Nat.mul_add, Nat.add_comm] at hplenty
    -- The first segment, and then the others in the space that it leaves.
    obtain ⟨s₁, hstep, hplenty₁⟩ : ∃ s₁, (if seg.type ≠ Elf.load then pure s
        else VMMap.doMmap fuel pgd (mapping seg) content pos s) = .ok s₁ ∧
        Plenty fuel (4 * (segments.map fun seg => (mapping seg).pages).sum) s₁.mm := by
      by_cases hload : seg.type = Elf.load
      · rw [if_neg (not_not.mpr hload)]
        exact Refines.exists_doMmap h hpgd (hvalid seg List.mem_cons_self hload) hsize hload
          (hfits seg List.mem_cons_self hload) hplenty (hfree seg List.mem_cons_self hload)
      · rw [if_pos hload]
        exact ⟨s, rfl, hplenty.mono (by omega)⟩
    obtain ⟨pages, hpages, h₁⟩ : ∃ pages, segmentContent content pos seg = .ok pages ∧
        Refines ((pageActs pgd (mmapAddr (mapping seg)) 0 pages).foldl Act.apply spaces)
          { w with s := s₁ } := by
      rw [segmentContent]
      split_ifs at hstep ⊢
      · cases pure_eq_ok.mp hstep
        exact ⟨[], rfl, h⟩
      · obtain ⟨pages, hpages, h₁, -⟩ := h.doMmap hpgd hstep
        exact ⟨pages, hpages, h₁⟩
    obtain ⟨s', hrest⟩ := ih (fun seg' hmem => hvalid seg' (List.mem_cons_of_mem _ hmem)) htail
      (fun seg' hmem => hfits seg' (List.mem_cons_of_mem _ hmem)) h₁ hplenty₁
      fun seg' hmem hload' i hi => by
        have hspace := (hvalid seg' (List.mem_cons_of_mem _ hmem) hload').inSpace
        rw [foldl_segment hsize (hvalid seg List.mem_cons_self) hpages (by omega),
          hfree seg' (List.mem_cons_of_mem _ hmem) hload' i hi, Option.or_none]
        by_cases hload : seg.type = Elf.load
        · exact present_of_disjoint (hvalid seg List.mem_cons_self hload) hsize fun j hj =>
            (hhead seg' hmem hload hload' j hj i hi).symm
        · exact if_neg fun hthere => hload hthere.1
    refine ⟨s', ?_⟩
    rw [VMMap.loadElfBinary, if_pos hmagic] at hrest ⊢
    rw [List.foldlM_cons, hstep]
    exact hrest

/-- **When ELF loading works.** In every state of the kernel, for a well-formed image and a task with
nothing mapped: whenever `load_elf_binary` returns, the image is in memory as it should be exactly
if each of its segments is empty or of the kind that `do_mmap` gets right. And with enough memory
the call returns for such an image. -/
theorem loaded_iff_fits {next : ℕ → Option ℕ} {index prevChunkSize : ℕ → ℤ} {mem : Mem}
    {acts : List Act} (hrun : Trace SpaceStep (World.init next index prevChunkSize mem) acts w)
    (hpgd : pgd ∈ w.maps) (hempty : ∀ path, look 3 pgd w.s.mem path = none)
    (himage : Image content segments) :
    (∀ s', loadElfBinary fuel pgd content pos segments w.s = .ok s' →
      (Loaded pgd content segments w.s s' ↔
        ∀ seg ∈ segments, seg.type = Elf.load → seg.virtualSize = 0 ∨ Fits content seg)) ∧
    (Plenty fuel (4 * (segments.map fun seg => (mapping seg).pages).sum) w.s.mm →
      ((∃ s', loadElfBinary fuel pgd content pos segments w.s = .ok s' ∧
          Loaded pgd content segments w.s s') ↔
        ∀ seg ∈ segments, seg.type = Elf.load → seg.virtualSize = 0 ∨ Fits content seg)) := by
  have h : Refines (spacesAfter acts) w := refines_of_trace hrun
  refine ⟨fun s' hcall => h.loaded_iff hpgd himage hempty hcall, fun hplenty => ⟨?_, fun hfits => ?_⟩⟩
  · rintro ⟨s', hcall, hloaded⟩
    exact (h.loaded_iff hpgd himage hempty hcall).mp hloaded
  · obtain ⟨s', hcall⟩ : ∃ s', loadElfBinary fuel pgd content pos segments w.s = .ok s' := by
      refine Refines.exists_loadElfBinary hpgd himage.magic himage.size himage.valid himage.disjoint
        hfits h hplenty fun seg hmem hload i hi => ?_
      rw [← h.load pgd hpgd]
      exact load_eq_none (hempty _)
    exact ⟨s', hcall, (h.loaded_iff hpgd himage hempty hcall).mpr hfits⟩

end Load

/-! ### A small image -/

/-- An image with one segment, which is the whole file, and this long in memory. -/
def smallImage (virtualSize : UInt8) : List UInt8 :=
  Elf.magic ++ List.replicate 28 0 ++ [64] ++ List.replicate 21 0 ++ [56, 0, 1] ++
    List.replicate 7 0 ++ [1, 0, 0, 0, 5] ++ List.replicate 27 0 ++ [120] ++ List.replicate 7 0 ++
    [virtualSize] ++ List.replicate 8 0 ++ [16] ++ List.replicate 6 0

/-- Its segment. -/
def smallSegment (virtualSize : UInt8) : Segment := ⟨1, 5, 0, 0, 0, 120, virtualSize.toNat, 4096⟩

theorem image_small {virtualSize : UInt8} (hparsed : check (fun segments => decide
    (segments = [smallSegment virtualSize])) (Elf.segments (smallImage virtualSize)) = true)
    (hle : 120 ≤ virtualSize.toNat) : Image (smallImage virtualSize) [smallSegment virtualSize] := by
  obtain ⟨segments, hparsed, hEq⟩ := exists_ok_of_check hparsed
  obtain rfl := of_decide_eq_true hEq
  have hlen : (smallImage virtualSize).length = 120 := rfl
  have hlt := virtualSize.toNat_lt
  refine ⟨rfl, hparsed, by rw [hlen]; decide, fun seg hmem _ => ?_, List.pairwise_singleton _ _⟩
  obtain rfl := List.mem_singleton.mp hmem
  refine ⟨rfl, hle, hlen.ge, ?_⟩
  simp only [smallSegment, defaultBase, userEnd]
  omega

/-- A task without anything mapped, and the image loaded for it. -/
def loadSmall (virtualSize : UInt8) : Exec (ℕ × State × State) := do
  let (pgd, s) ← construct 20 World.zero.s
  let s' ← loadElfBinary 20 pgd (smallImage virtualSize) 0 [smallSegment virtualSize] s
  return (pgd, s, s')

theorem run_of_loadSmall {virtualSize : UInt8} {pgd : ℕ} {s s' : State}
    (h : loadSmall virtualSize = .ok (pgd, s, s')) (hpgd : pgd ≠ 0) :
    Trace SpaceStep World.zero [.create pgd] ⟨s, [], [], [pgd]⟩ ∧
      (∀ path, look 3 pgd s.mem path = none) ∧
      loadElfBinary 20 pgd (smallImage virtualSize) 0 [smallSegment virtualSize] s = .ok s' := by
  obtain ⟨⟨pgd', s₁⟩, h₁, h⟩ := bind_eq_ok.mp h
  obtain ⟨s₂, h₂, h⟩ := bind_eq_ok.mp h
  cases pure_eq_ok.mp h
  have hstep := Step.construct (w := World.zero) 20 h₁
  rw [if_neg hpgd] at hstep
  exact ⟨Trace.single (.construct hstep hpgd), look_of_empty (empty_of_construct h₁ hpgd), h₂⟩

/-- The image is loaded if it is as long in memory as in the file. -/
theorem loaded_iff_fits_small : ∃ pgd s s', pgd ≠ 0 ∧ loadSmall 120 = .ok (pgd, s, s') ∧
    Loaded pgd (smallImage 120) [smallSegment 120] s s' := by
  have hcheck : check (fun r => decide (r.1 ≠ 0)) (loadSmall 120) = true := by decide +kernel
  obtain ⟨⟨pgd, s, s'⟩, hrun, hr⟩ := exists_ok_of_check hcheck
  have hpgd : pgd ≠ 0 := of_decide_eq_true hr
  obtain ⟨htrace, hempty, hcall⟩ := run_of_loadSmall hrun hpgd
  refine ⟨pgd, s, s', hpgd, hrun, ?_⟩
  refine ((loaded_iff_fits htrace (List.mem_singleton_self pgd) hempty
    (image_small (by decide +kernel) (by decide))).1 s' hcall).mpr fun seg hmem _ => Or.inr ?_
  obtain rfl := List.mem_singleton.mp hmem
  have hsame : ∀ i < 120, (smallImage 120)[0 + i]? =
      some (((smallImage 120)[readStart (smallSegment 120) + i]?).getD 0) := by decide +kernel
  exact ⟨rfl, by decide, by decide, fun i hi _ => hsame i hi, fun hlt => absurd hlt (by decide),
    fun hlt => absurd hlt (by decide)⟩

/-- With one zero behind the file, the file itself is lost. -/
theorem not_loaded_of_bss : ∃ acts w pgd s', Trace SpaceStep World.zero acts w ∧ pgd ∈ w.maps ∧
    (∀ path, look 3 pgd w.s.mem path = none) ∧ Image (smallImage 121) [smallSegment 121] ∧
    loadElfBinary 20 pgd (smallImage 121) 0 [smallSegment 121] w.s = .ok s' ∧
    ¬Loaded pgd (smallImage 121) [smallSegment 121] w.s s' := by
  have hcheck : check (fun r => decide (r.1 ≠ 0 ∧ load r.1 r.2.2.mem 0x400000 = some 0))
      (loadSmall 121) = true := by decide +kernel
  obtain ⟨⟨pgd, s, s'⟩, hrun, hr⟩ := exists_ok_of_check hcheck
  obtain ⟨hpgd, hzero⟩ := of_decide_eq_true hr
  obtain ⟨htrace, hempty, hcall⟩ := run_of_loadSmall hrun hpgd
  refine ⟨_, _, pgd, s', htrace, List.mem_singleton_self pgd, hempty,
    image_small (by decide +kernel) (by decide), hcall, fun hloaded => ?_⟩
  have hbyte := hloaded.bytes _ List.mem_cons_self rfl 0 (by decide)
  exact absurd (hzero.symm.trans hbyte) (by decide)

end Valkyrie.VMMap
