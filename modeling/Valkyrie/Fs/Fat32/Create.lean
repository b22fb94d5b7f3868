import Valkyrie.Fs.Fat32.Content

/-!
# The name and the place of a new child

What `FAT32Inode::create_child` does before it writes anything. The name is cut into parts of thirteen
characters, each of which gets a long-name entry, and a directory entry with a short filename follows
them. The *search* goes along the clusters of the directory and looks for deleted entries that can be
used again, and else for the end marker (`Valkyrie.Fat32.searchEntry`). It leaves a place, and the
number of entries there.
-/

namespace Valkyrie.Fat32

/-! ### Short filenames -/

/-- A character of `to_upper`. -/
def toUpper (c : UInt8) : UInt8 := if 97 ≤ c ∧ c ≤ 122 then c - 32 else c

/-- `is_valid_short_filename_char`. -/
def isValidShortFilenameChar (c : UInt8) : Bool :=
  (65 ≤ c ∧ c ≤ 90) ∨ (48 ≤ c ∧ c ≤ 57) ∨ (128 ≤ c ∧ c ≤ 228) ∨ 230 ≤ c ∨
    c ∈ ([32, 33, 35, 36, 37, 38, 39, 40, 41, 45, 64, 94, 95, 96, 123, 125, 126] : List UInt8)

/-- `String::remove`. The last of the characters that stay is cut off. -/
def removeChar (val : UInt8) (s : Name) : Name := (s.filter (· ≠ val)).dropLast

/-- `can_fit_within_83_short_filename`. -/
def canFitWithin83ShortFilename (s : Name) : Bool :=
  s.length ≤ 11 ∧ (46 ∉ s ∨ s.idxOf 46 ≤ 8) ∧ (46 ∉ s ∨ s.reverse.idxOf 46 + 1 ≤ 3)

/-- The basis name: the primary name gets no more than its last character, and the index where the
extension begins is the truth value 1. -/
def basisName (long : Name) : List UInt8 :=
  let extension := if 46 ∈ long then (long.drop 2).take 3 else []
  List.replicate 7 32 ++ (long.takeWhile (· ≠ 46)).getLastD 32 ::
    (extension ++ List.replicate (3 - extension.length) 32)

/-! ### The search -/

/-- `cluster_number`, `cluster_offset` and `counter`. -/
structure Place where
  cluster : ℕ
  offset : ℕ
  counter : ℕ

/-- What the search does with an entry. -/
def searchEntry (segments n o : ℕ) (e : Entry) (p : Place) : Bool × Place :=
  if e.IsTheEnd then (true, ⟨n, o, 0⟩)
  else if e.IsLfn then
    (false, if p.counter = 0 then ⟨n, o, 1⟩ else { p with counter := u32 (p.counter + 1) })
  else if ¬e.IsDeleted then (false, ⟨n, o, 0⟩)
  else (u32 (p.counter + 1) = segments + 1, { p with counter := u32 (p.counter + 1) })

/-- The search, for the entries of a directory. -/
def search (segments : ℕ) (l : List Item) (p : Place) : Bool × Place :=
  scanUntil (fun i => searchEntry segments i.cluster i.offset i.entry) l p

/-- An entry that is no child by itself. -/
def Item.IsIdle (i : Item) : Prop := ¬i.entry.IsTheEnd ∧ (i.entry.IsLfn ∨ i.entry.IsDeleted)

end Valkyrie.Fat32
