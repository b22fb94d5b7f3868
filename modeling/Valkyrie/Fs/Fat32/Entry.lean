import Valkyrie.Fs.Fat32.Disk
import Valkyrie.Fs.Vnode
import Valkyrie.Lib.Encoding

/-!
# Directory entries

A directory is made of entries of 32 bytes. There are two kinds, told apart by the attributes: the
directory entry proper, and long-name entries in front of it, which hold thirteen characters each
and come in reverse order. The first byte says whether an entry was deleted, and whether it is the
end of the directory.

An entry is a function on 32 bytes; blocks are read and written entry by entry
(`Valkyrie.Fat32.entryAt`, `Valkyrie.Fat32.putEntry`).
-/

namespace Valkyrie

namespace Fat32

instance neZeroEntry : NeZero 32 := ⟨by decide⟩

/-- An entry of a directory. -/
abbrev Entry := Fin 32 → UInt8

/-- `ATTR_DIRECTORY`. -/
def attrDirectory : UInt8 := 0x10

/-- `ATTR_LFN_ENTRY`. -/
def attrLfnEntry : UInt8 := 0x0f

/-- The entry at an offset of a block. -/
def entryAt (b : Block) (offset : ℕ) : Entry := fun i => b (offset + i)

/-- The entry at an offset of a block is overwritten. -/
def putEntry (b : Block) (offset : ℕ) (e : Entry) : Block := fun x =>
  if h : offset ≤ x ∧ x - offset < 32 then e ⟨x - offset, h.2⟩ else b x

namespace Entry

variable (e : Entry)

/-- The bytes of an entry. -/
def mem : Mem := fun i => if h : i < 32 then e ⟨i, h⟩ else 0

/-- Some bytes of an entry are overwritten. -/
def write (a n : ℕ) (w : BitVec (8 * n)) : Entry := fun i => e.mem.writeBytes a n w i

/-- `is_deleted`. -/
def IsDeleted : Prop := e 0 = 0xe5

/-- `is_the_end`. -/
def IsTheEnd : Prop := e 0 = 0

/-- The entry is a long-name entry. -/
def IsLfn : Prop := e 11 = attrLfnEntry

instance : Decidable e.IsDeleted := inferInstanceAs (Decidable (_ = _))

instance : Decidable e.IsTheEnd := inferInstanceAs (Decidable (_ = _))

instance : Decidable e.IsLfn := inferInstanceAs (Decidable (_ = _))

/-- `get_first_cluster_number`. -/
def firstClusterNumber : ℕ := (e.mem.readBytes 20 2).toNat * 2 ^ 16 + (e.mem.readBytes 26 2).toNat

/-- `set_first_cluster_number`. -/
def setFirstClusterNumber (n : ℕ) : Entry :=
  (e.write 20 2 (BitVec.ofNat 16 (n / 2 ^ 16))).write 26 2 (BitVec.ofNat 16 n)

/-- `size`. -/
def size : ℕ := (e.mem.readBytes 28 4).toNat

/-- `size = n`. -/
def setSize (n : ℕ) : Entry := e.write 28 4 (BitVec.ofNat 32 n)

/-- `memcpy` to `name`, of the eleven bytes of a short filename. -/
def setName (shortFilename : List UInt8) : Entry := fun i =>
  if i.val < 11 then shortFilename.getD i 0 else e i

/-- The short filename, up to a blank. -/
def shortName : Name :=
  ((List.range 11).map e.mem).takeWhile fun c => c ≠ 0 ∧ c ≠ 32

/-- Where the characters of a long-name entry are: there are three parts. -/
def unitOffset (k : ℕ) : ℕ := if k < 5 then 1 + 2 * k else if k < 11 then 14 + 2 * (k - 5)
  else 28 + 2 * (k - 11)

/-- The characters of a long-name entry. -/
def units : List UInt16 := (List.range 13).map fun k => ⟨e.mem.readBytes (unitOffset k) 2⟩

/-- `FilenameEntry::get_filename`. The bytes and a null character go to an array of 27 bytes. -/
def getFilename : Exec Name :=
  let out := ucs2utf e.units
  if out.length + 1 ≤ 27 then .ok out else .error .wild

end Entry

/-- A byte of a character, the less significant one first. -/
def unitByte (c : UInt16) (k : ℕ) : UInt8 := ⟨c.toBitVec.extractLsb' (8 * k) 8⟩

/-- **A long-name entry**, all of it. -/
def lfnEntry (sequenceNumber checksum : UInt8) (namePart : ℕ → UInt16) : Entry := fun i =>
  if i.val = 0 then sequenceNumber
  else if i.val < 11 then unitByte (namePart ((i - 1) / 2)) ((i - 1) % 2)
  else if i.val = 11 then attrLfnEntry
  else if i.val = 12 then 0
  else if i.val = 13 then checksum
  else if i.val < 26 then unitByte (namePart (5 + (i - 14) / 2)) ((i - 14) % 2)
  else if i.val < 28 then 0
  else unitByte (namePart (11 + (i - 28) / 2)) ((i - 28) % 2)

namespace Entry

variable {e : Entry}

/-! ### Long names -/

theorem readBytes_two (m : Mem) (a : ℕ) {c : UInt16} (h₀ : m a = unitByte c 0)
    (h₁ : m (a + 1) = unitByte c 1) : m.readBytes a 2 = c.toBitVec := by
  have happend := Mem.append_extractLsb' (n := 1) c.toBitVec
  rw [Mem.readBytes, Mem.readBytes, Mem.readBytes, h₀, h₁]
  refine Eq.trans (BitVec.eq_of_toNat_eq ?_) happend
  rw [BitVec.toNat_append, BitVec.toNat_append, BitVec.toNat_append]
  simp [unitByte]

/-- **The characters of a long-name entry** are those that were written. -/
theorem units_lfnEntry (sequenceNumber checksum : UInt8) (namePart : ℕ → UInt16) :
    (lfnEntry sequenceNumber checksum namePart).units = (List.range 13).map namePart := by
  refine List.map_congr_left fun k hk => ?_
  have hlt : k < 13 := List.mem_range.mp hk
  refine UInt16.eq_of_toBitVec_eq (readBytes_two _ _ ?_ ?_)
  · interval_cases k <;> rfl
  · interval_cases k <;> rfl

end Entry

end Fat32

end Valkyrie
