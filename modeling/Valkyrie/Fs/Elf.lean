import Valkyrie.Mm.Buddy.Basic

/-!
# ELF images

`include/fs/ELF.h`, and what `Task::map_elf_segment` makes of a segment. The parser works on the
buffer of a file: it reads the header and the program headers wherever the image says they are,
and a read beyond the buffer is a read of memory that is not there for it.

`exec` constructs an `ELF` from whatever file it is given, and asks whether it is one only then. So
the fields that say where the program headers are can be anything, and the reads stay inside the
file only if these headers do (`Valkyrie.Elf.inspect_inside_iff`).

`map_elf_segment` turns a segment into the arguments of `do_mmap` (`Valkyrie.Elf.mapping`). The
two remainders by `PAGE_MASK` there leave an address and an offset as they are.
-/

namespace Valkyrie

namespace Elf

open Exec

/-- `ELF::Segment`. -/
structure Segment where
  type : ℕ
  flags : ℕ
  fileOffset : ℕ
  virtualAddress : ℕ
  physicalAddress : ℕ
  physicalSize : ℕ
  virtualSize : ℕ
  alignment : ℕ
deriving DecidableEq

/-- `ELF::SegmentType::LOAD`. -/
def load : ℕ := 1

/-- `ELF::Segment::x`, `w` and `r`. -/
def flagX : ℕ := 1 <<< 0

def flagW : ℕ := 1 <<< 1

def flagR : ℕ := 1 <<< 2

/-- `ELF_DEFAULT_BASE`. -/
def defaultBase : ℕ := 0x400000

/-- `ELF::magic`. -/
def magic : List UInt8 := [0x7f, 0x45, 0x4c, 0x46]

/-! ### The parser -/

/-- A number, the least significant byte first. -/
def littleEndian : List UInt8 → ℕ
  | [] => 0
  | b :: bytes => b.toNat + 256 * littleEndian bytes

/-- A field of `n` bytes at a place in the buffer. -/
def field (content : List UInt8) (pos n : ℕ) : Exec ℕ :=
  if pos + n ≤ content.length then .ok (littleEndian ((content.drop pos).take n))
  else .error .wild

/-- The segment at a place in the buffer. -/
def segmentAt (content : List UInt8) (pos : ℕ) : Exec Segment := do
  return {
    type := ← field content pos 4
    flags := ← field content (pos + 4) 4
    fileOffset := ← field content (pos + 8) 8
    virtualAddress := ← field content (pos + 16) 8
    physicalAddress := ← field content (pos + 24) 8
    physicalSize := ← field content (pos + 32) 8
    virtualSize := ← field content (pos + 40) 8
    alignment := ← field content (pos + 48) 8 }

/-- `ELF::ELF`: the segments, by the fields `phoff`, `phentsize` and `phnum` of the header. -/
def segments (content : List UInt8) : Exec (List Segment) := do
  let phoff ← field content 32 8
  let phentsize ← field content 54 2
  let phnum ← field content 56 2
  (List.range phnum).mapM fun i => segmentAt content (toSize (phoff + i * phentsize))

/-- `is_valid`, of a buffer that has a header. -/
def isValid (content : List UInt8) : Bool := content.take magic.length == magic

/-! ### Segments and mappings -/

def protRead : ℕ := 0x1

def protWrite : ℕ := 0x2

def protExec : ℕ := 0x4

def mapPrivate : ℕ := 0x02

def mapFixed : ℕ := 0x10

def mapAnonymous : ℕ := 0x20

/-- `PAGE_MASK`, as the `size_t` it becomes beside one. -/
def pageMask : ℕ := sizeMod - pageSize

/-- `Page::align_down`. -/
def alignDown (addr : ℕ) : ℕ := addr / pageSize * pageSize

/-- `Page::align_up`. -/
def alignUp (addr : ℕ) : ℕ := alignDown (toSize (addr + (pageSize - 1)))

/-- The arguments of `do_mmap`, but for the file. -/
structure Mapping where
  addr : ℕ
  len : ℕ
  prot : ℕ
  flags : ℕ
  /-- An `int`. -/
  fileOffset : ℤ
  zeroPageFileOffset : ℕ

/-- The value of `zero_page_file_offset` for which nothing is zeroed. -/
def noZeroPage : ℕ := sizeMod - 1

/-- `map_elf_segment`: how `do_mmap` is called. -/
def mapping (seg : Segment) : Mapping :=
  let bss := decide (seg.physicalSize < seg.virtualSize)
  { addr := toSize (defaultBase + seg.virtualAddress % pageMask)
    len := toSize (seg.fileOffset % pageSize + seg.physicalSize)
    prot := (if seg.flags &&& flagR ≠ 0 then protRead else 0) |||
      (if seg.flags &&& flagW ≠ 0 then protWrite else 0) |||
      (if seg.flags &&& flagX ≠ 0 then protExec else 0)
    flags := if bss ∧ seg.physicalSize = 0 then mapPrivate ||| mapAnonymous else mapPrivate
    fileOffset := toInt (seg.fileOffset % pageMask)
    zeroPageFileOffset :=
      if bss then if seg.physicalSize = 0 then 0 else seg.physicalSize else noZeroPage }

namespace Mapping

/-- `flags & MAP_ANONYMOUS`. -/
def anonymous (m : Mapping) : Bool := m.flags &&& mapAnonymous != 0

/-- `do_mmap` refuses an address that is not that of a page, unless `MAP_FIXED` says to take it. -/
def refused (m : Mapping) : Bool :=
  m.flags &&& mapFixed == 0 && m.addr != 0 && !pageIsAligned m.addr

/-- The number of rounds of the loop of `do_mmap`. -/
def pages (m : Mapping) : ℕ := alignUp m.len / pageSize

end Mapping

/-! ### Reads inside the file -/

/-- `memcmp` of a place in the buffer with some bytes: up to the first difference. -/
def memcmpEq (content : List UInt8) : List UInt8 → ℕ → Exec Bool
  | [], _ => return true
  | b :: bytes, pos => do
    let c ← field content pos 1
    if c ≠ b.toNat then return false else memcmpEq content bytes (pos + 1)

/-- A file is inspected as `Task::exec` does it: an `ELF` is constructed, and then `exists` and
`is_valid` are called. The result are the segments and the two answers. -/
def inspect (content : List UInt8) : Exec (List Segment × Bool × Bool) := do
  let segs ← segments content
  let valid ← memcmpEq content magic 0
  return (segs, true, valid)

/-- Where the header ends, as far as it is read: `phnum` is the last field. -/
def headerEnd : ℕ := 58

/-- `sizeof(ELF::Segment)`. -/
def segmentSize : ℕ := 56

/-- The value of a field, in a buffer that has it. -/
def fieldOf (content : List UInt8) (pos n : ℕ) : ℕ := littleEndian ((content.drop pos).take n)

/-- **The headers are in the file**: the ELF header, and each of the program headers that it
announces. -/
def HeadersInside (content : List UInt8) : Prop :=
  headerEnd ≤ content.length ∧ ∀ i < fieldOf content 56 2,
    toSize (fieldOf content 32 8 + i * fieldOf content 54 2) + segmentSize ≤ content.length

section Reads

variable {content bytes : List UInt8} {pos n x : ℕ}

theorem field_eq_ok_iff : field content pos n = .ok x ↔
    pos + n ≤ content.length ∧ fieldOf content pos n = x := by
  rw [field]
  split_ifs with h
  · exact ⟨fun hEq => ⟨h, Except.ok.inj hEq⟩, fun hEq => congrArg Except.ok hEq.2⟩
  · exact iff_of_false (fun hEq => by cases hEq) fun hEq => h hEq.1

theorem field_eq_ok (h : pos + n ≤ content.length) :
    field content pos n = .ok (fieldOf content pos n) := field_eq_ok_iff.mpr ⟨h, rfl⟩

/-- A segment is read if all of it is in the file. -/
theorem exists_segmentAt_iff :
    (∃ seg, segmentAt content pos = .ok seg) ↔ pos + segmentSize ≤ content.length := by
  rw [segmentSize]
  constructor
  · rintro ⟨seg, h⟩
    rw [segmentAt] at h
    -- The last field is the one that reaches furthest.
    iterate 7 obtain ⟨_, -, h⟩ := bind_eq_ok.mp h
    obtain ⟨_, hlast, -⟩ := bind_eq_ok.mp h
    have hle := (field_eq_ok_iff.mp hlast).1
    omega
  · intro h
    rw [segmentAt, field_eq_ok (by omega), ok_bind, field_eq_ok (by omega), ok_bind,
      field_eq_ok (by omega), ok_bind, field_eq_ok (by omega), ok_bind,
      field_eq_ok (by omega), ok_bind, field_eq_ok (by omega), ok_bind,
      field_eq_ok (by omega), ok_bind, field_eq_ok (by omega), ok_bind]
    exact ⟨_, rfl⟩

/-- Segments are read if each of them is. -/
theorem exists_mapM_iff {f : ℕ → Exec Segment} : ∀ {is : List ℕ},
    (∃ segs, is.mapM f = .ok segs) ↔ ∀ i ∈ is, ∃ seg, f i = .ok seg
  | [] => ⟨fun _ => by simp, fun _ => ⟨[], rfl⟩⟩
  | i :: is => by
    rw [List.mapM_cons, List.forall_mem_cons, ← exists_mapM_iff]
    constructor
    · rintro ⟨segs, h⟩
      obtain ⟨seg, hseg, h⟩ := bind_eq_ok.mp h
      obtain ⟨rest, hrest, -⟩ := bind_eq_ok.mp h
      exact ⟨⟨seg, hseg⟩, rest, hrest⟩
    · rintro ⟨⟨seg, hseg⟩, rest, hrest⟩
      rw [hseg, ok_bind, hrest, ok_bind]
      exact ⟨_, rfl⟩

/-- The constructor stays in the file exactly if the headers do. -/
theorem exists_segments_iff : (∃ segs, segments content = .ok segs) ↔ HeadersInside content := by
  rw [HeadersInside, headerEnd, segments]
  constructor
  · rintro ⟨segs, h⟩
    obtain ⟨phoff, hphoff, h⟩ := bind_eq_ok.mp h
    obtain ⟨phentsize, hphentsize, h⟩ := bind_eq_ok.mp h
    obtain ⟨phnum, hphnum, h⟩ := bind_eq_ok.mp h
    obtain ⟨-, rfl⟩ := field_eq_ok_iff.mp hphoff
    obtain ⟨-, rfl⟩ := field_eq_ok_iff.mp hphentsize
    obtain ⟨hle, rfl⟩ := field_eq_ok_iff.mp hphnum
    refine ⟨by omega, fun i hi => exists_segmentAt_iff.mp ?_⟩
    exact exists_mapM_iff.mp ⟨segs, h⟩ i (List.mem_range.mpr hi)
  · rintro ⟨hle, hsegs⟩
    rw [field_eq_ok (by omega), ok_bind, field_eq_ok (by omega), ok_bind,
      field_eq_ok (by omega), ok_bind]
    exact exists_mapM_iff.mpr fun i hi => exists_segmentAt_iff.mpr (hsegs i (List.mem_range.mp hi))

theorem fieldOf_one {b : UInt8} {rest : List UInt8} (h : content.drop pos = b :: rest) :
    fieldOf content pos 1 = b.toNat := by
  rw [fieldOf, h]
  rfl

/-- The comparison stays in a file that is long enough, and compares. -/
theorem memcmpEq_eq : ∀ {bytes : List UInt8} {pos : ℕ}, pos + bytes.length ≤ content.length →
    memcmpEq content bytes pos = .ok ((content.drop pos).take bytes.length == bytes)
  | [], _, _ => by simp [memcmpEq, pure_eq_ok]
  | b :: bytes, pos, h => by
    rw [List.length_cons] at h
    have hdrop := List.drop_eq_getElem_cons (show pos < content.length by omega)
    rw [memcmpEq, field_eq_ok (by omega), ok_bind, fieldOf_one hdrop, hdrop,
      List.length_cons, List.take_succ_cons]
    split_ifs with hne
    · have hb : content[pos] ≠ b := fun hEq => hne (congrArg UInt8.toNat hEq)
      simp [hb, pure_eq_ok]
    · have hb : content[pos] = b := UInt8.toNat_inj.mp (not_not.mp hne)
      rw [memcmpEq_eq (by omega), hb]
      simp

/-- **When inspecting a file stays inside it**: for every content, exactly if the ELF header and all
program headers that it announces are in the file. -/
theorem inspect_inside_iff : (∃ r, inspect content = .ok r) ↔ HeadersInside content := by
  rw [← exists_segments_iff]
  constructor
  · rintro ⟨r, h⟩
    obtain ⟨segs, hsegs, -⟩ := bind_eq_ok.mp h
    exact ⟨segs, hsegs⟩
  · rintro ⟨segs, hsegs⟩
    have hle := (exists_segments_iff.mp ⟨segs, hsegs⟩).1
    have hmagic : 0 + magic.length ≤ content.length := le_trans (by decide) hle
    exact ⟨(segs, true, isValid content), by rw [inspect, hsegs, ok_bind, memcmpEq_eq hmagic]; rfl⟩

/-- **A file with ten bytes**, a script: the header is read beyond its end. -/
theorem inspect_script : inspect [0x23, 0x21, 0x2f, 0x62, 0x69, 0x6e, 0x2f, 0x73, 0x68, 0x0a] =
    .error .wild := rfl

end Reads

end Elf

end Valkyrie
