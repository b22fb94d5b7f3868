import Valkyrie.Base.ByteMem
import Valkyrie.Base.Chain

/-!
# A FAT32 volume on a disk

The lowest layer of `fs/FAT32.cc`, and `dev/DiskPartition.cc`: blocks of 512 bytes, the first file
allocation table, and clusters. The table is read and written block by block. Of a cluster only the
first sector is ever used.

All sector numbers are computed with 32 bits, and a partition does not read or write beyond its
end. So far as its sectors lie in the partition, the table is an array
(`Valkyrie.Fat32.fat_is_array`). For a volume that lies in its partition
(`Valkyrie.Fat32.Volume.Valid`) a cluster is one block of the disk, to read
(`Valkyrie.Fat32.clusterRead_eq`) and to write (`Valkyrie.Fat32.clusterWrite_eq`).
-/

namespace Valkyrie

namespace Fat32

open Function

/-- A block of 512 bytes. -/
abbrev Block := Mem

/-- The blocks of a storage device. -/
abbrev Disk := ℕ → Block

/-- The value of a `uint32_t` expression. -/
def u32 (x : ℕ) : ℕ := x % 2 ^ 32

/-- `FAT32` and its `DiskPartition`, with the fields of the boot sector that are used. A sector has
512 bytes. -/
structure Volume where
  /-- `_start_block_index`. -/
  startBlock : ℕ
  /-- `_end_block_index`. -/
  endBlock : ℕ
  sectorsPerCluster : ℕ
  reservedSectorCount : ℕ
  /-- `table_size_32`. -/
  tableSize : ℕ
  rootCluster : ℕ
  /-- What lies on the stack at the place of a buffer. -/
  stack : Block

/-- The fields are numbers of their types. -/
structure Volume.Typed (v : Volume) : Prop where
  start_lt : v.startBlock < 2 ^ 32
  end_lt : v.endBlock < 2 ^ 32
  sectors_lt : v.sectorsPerCluster < 2 ^ 8
  reserved_lt : v.reservedSectorCount < 2 ^ 16
  table_lt : v.tableSize < 2 ^ 32
  root_lt : v.rootCluster < 2 ^ 32

/-- `FAT32_EOC_MIN`. -/
def eocMin : ℕ := 0x0ffffff8

/-- `FAT32_EOC_MAX`. -/
def eocMax : ℕ := 0x0fffffff

/-- `FAT32_IS_EOC`. -/
def IsEoc (n : ℕ) : Prop := eocMin ≤ n ∧ n ≤ eocMax

instance (n : ℕ) : Decidable (IsEoc n) := inferInstanceAs (Decidable (_ ∧ _))

/-- `-1`, for no cluster. -/
def noCluster : ℕ := 2 ^ 32 - 1

/-- `_nr_fat_entries_per_sector`. -/
def nrFatEntriesPerSector : ℕ := 128

/-! ### Blocks -/

/-- The 32-bit number at an index of a block. -/
def u32At (b : Block) (i : ℕ) : ℕ := (b.readBytes (4 * i) 4).toNat

/-- The 32-bit number at an index of a block is overwritten. -/
def setU32At (b : Block) (i x : ℕ) : Block := b.writeBytes (4 * i) 4 (BitVec.ofNat 32 x)

theorem u32At_setU32At_self (b : Block) (i : ℕ) {x : ℕ} (hx : x < 2 ^ 32) :
    u32At (setU32At b i x) i = x := by
  rw [u32At, setU32At, Mem.readBytes_writeBytes]
  exact Nat.mod_eq_of_lt hx

theorem u32At_setU32At_of_ne (b : Block) {i j : ℕ} (x : ℕ) (h : j ≠ i) :
    u32At (setU32At b i x) j = u32At b j := by
  refine congrArg BitVec.toNat (Mem.readBytes_congr fun k hk => ?_)
  exact Mem.writeBytes_of_not_mem (by omega)

namespace Volume

variable (v : Volume)

/-- The block of the device for a block of the partition, if it is not beyond the end. -/
def block? (index : ℕ) : Option ℕ :=
  let b := u32 (v.startBlock + index)
  if v.endBlock < b then none else some b

/-- `DiskPartition::read_block`, into a buffer. -/
def readBlock (index : ℕ) (buf : Block) (d : Disk) : Block :=
  match v.block? index with
  | none => buf
  | some b => d b

/-- `DiskPartition::write_block`. -/
def writeBlock (index : ℕ) (buf : Block) (d : Disk) : Disk :=
  match v.block? index with
  | none => d
  | some b => update d b buf

/-- `fat0_sector_index`. -/
def fat0SectorIndex (entryIndex : ℕ) : ℕ :=
  u32 (v.reservedSectorCount + entryIndex / nrFatEntriesPerSector)

/-- `fat1_sector_index`. -/
def fat1SectorIndex (entryIndex : ℕ) : ℕ :=
  u32 (v.fat0SectorIndex 0 + v.tableSize + entryIndex / nrFatEntriesPerSector)

/-- `data_region_sector_index`. -/
def dataRegionSectorIndex : ℕ := u32 (v.fat1SectorIndex 0 + v.tableSize)

/-- `cluster_sector_index`. -/
def clusterSectorIndex (i : ℕ) : ℕ :=
  u32 (v.dataRegionSectorIndex + u32 (i + 2 ^ 32 - 2) * v.sectorsPerCluster)

/-- `nr_single_fat_entries`. -/
def nrSingleFatEntries : ℕ := u32 (v.tableSize * nrFatEntriesPerSector)

end Volume

/-! ### The table and the clusters -/

section

variable (v : Volume)

/-- `fat_read`. -/
def fatRead (i : ℕ) (d : Disk) : ℕ :=
  if v.nrSingleFatEntries ≤ i then eocMax
  else u32At (v.readBlock (v.fat0SectorIndex i) (fun _ => 0) d) (i % nrFatEntriesPerSector)

/-- `fat_write`. -/
def fatWrite (i val : ℕ) (d : Disk) : Disk :=
  if v.nrSingleFatEntries ≤ i then d
  else
    let buffer := v.readBlock (v.fat0SectorIndex i) (fun _ => 0) d
    v.writeBlock (v.fat0SectorIndex i) (setU32At buffer (i % nrFatEntriesPerSector) val) d

/-- The loop of `fat_find_free_cluster`, over so many sectors. -/
def findFreeLoop (d : Disk) : ℕ → ℕ → ℕ
  | 0, _ => noCluster
  | n + 1, index =>
    let buf := v.readBlock index v.stack d
    match (List.range nrFatEntriesPerSector).find? fun i => u32At buf i = 0 with
    | some i => u32 ((index - v.fat0SectorIndex 0) * nrFatEntriesPerSector + i)
    | none => findFreeLoop d n (index + 1)

/-- `fat_find_free_cluster`. -/
def fatFindFreeCluster (d : Disk) : ℕ :=
  findFreeLoop v d (v.fat1SectorIndex 0 - v.fat0SectorIndex 0) (v.fat0SectorIndex 0)

/-- `cluster_read`, into a buffer. -/
def clusterRead (n : ℕ) (buf : Block) (d : Disk) : Block :=
  v.readBlock (v.clusterSectorIndex n) buf d

/-- `cluster_write`. -/
def clusterWrite (n : ℕ) (buf : Block) (d : Disk) : Disk :=
  v.writeBlock (v.clusterSectorIndex n) buf d

end

/-! ### Volumes that lie in their partitions -/

namespace Volume

variable {v : Volume}

/-- The first sector of the data region. -/
def dataStart (v : Volume) : ℕ := v.reservedSectorCount + 2 * v.tableSize

/-- The number of clusters that fit into the partition. -/
def clusters (v : Volume) : ℕ :=
  (v.endBlock + 1 - v.startBlock - v.dataStart) / v.sectorsPerCluster

/-- The tables and the beginning of the data region lie in the partition, and the entries of a table
have numbers. -/
structure Laid (v : Volume) : Prop where
  end_lt : v.endBlock < 2 ^ 32
  fits : v.startBlock + v.dataStart ≤ v.endBlock
  table_lt : v.tableSize * nrFatEntriesPerSector < 2 ^ 32

/-- **The volume lies in its partition**, and the table has an entry for every cluster; it may have
more, but not so many that the sectors of their clusters would have no number. A volume has 65525
clusters at least, and so the table takes more sectors than two clusters. -/
structure Valid (v : Volume) : Prop where
  cluster_pos : 0 < v.sectorsPerCluster
  end_lt : v.endBlock < 2 ^ 32
  fits : v.startBlock + v.dataStart ≤ v.endBlock
  table_lt : v.tableSize * nrFatEntriesPerSector < 2 ^ 32
  covers : v.clusters + 2 ≤ v.tableSize * nrFatEntriesPerSector
  below_eoc : v.clusters + 2 ≤ eocMin
  second : 2 * v.sectorsPerCluster ≤ v.tableSize
  no_wrap : v.startBlock + v.dataStart +
    v.tableSize * nrFatEntriesPerSector * v.sectorsPerCluster ≤ 2 ^ 32

/-- The number is that of a cluster. -/
def HasCluster (v : Volume) (n : ℕ) : Prop := 2 ≤ n ∧ n < v.clusters + 2

instance (v : Volume) (n : ℕ) : Decidable (v.HasCluster n) := inferInstanceAs (Decidable (_ ∧ _))

/-- The first sector of a cluster; for 0 and 1 it lies in the second table. -/
def sector (v : Volume) (n : ℕ) : ℕ := v.dataStart + n * v.sectorsPerCluster - 2 * v.sectorsPerCluster

theorem HasCluster.not_isEoc {n : ℕ} (hn : v.HasCluster n) (hv : v.Valid) : ¬IsEoc n := by
  rintro ⟨hmin, -⟩
  exact absurd (hn.2.trans_le hv.below_eoc) (not_lt.mpr hmin)

namespace Laid

theorem nrSingleFatEntries (hv : v.Laid) :
    v.nrSingleFatEntries = v.tableSize * nrFatEntriesPerSector :=
  Nat.mod_eq_of_lt hv.table_lt

theorem block? (hv : v.Laid) {index : ℕ} (h : v.startBlock + index ≤ v.endBlock) :
    v.block? index = some (v.startBlock + index) := by
  have hu32 : u32 (v.startBlock + index) = v.startBlock + index :=
    Nat.mod_eq_of_lt (h.trans_lt hv.end_lt)
  rw [Volume.block?, hu32]
  exact if_neg (not_lt.mpr h)

theorem dataStart_lt (hv : v.Laid) : v.dataStart < 2 ^ 32 := by
  have hfits := hv.fits
  have hend := hv.end_lt
  omega

/-- A sector of the table. -/
theorem fat0SectorIndex (hv : v.Laid) {i : ℕ} (hi : i < v.nrSingleFatEntries) :
    v.fat0SectorIndex i = v.reservedSectorCount + i / nrFatEntriesPerSector ∧
      i / nrFatEntriesPerSector < v.tableSize := by
  rw [hv.nrSingleFatEntries] at hi
  have hlt : i / nrFatEntriesPerSector < v.tableSize :=
    Nat.div_lt_of_lt_mul (by rwa [Nat.mul_comm])
  refine ⟨Nat.mod_eq_of_lt ?_, hlt⟩
  have hstart := hv.dataStart_lt
  rw [dataStart] at hstart
  omega

theorem fat0 (hv : v.Laid) : v.fat0SectorIndex 0 = v.reservedSectorCount := by
  have hstart := hv.dataStart_lt
  rw [dataStart] at hstart
  rw [Volume.fat0SectorIndex, Nat.zero_div, Nat.add_zero]
  exact Nat.mod_eq_of_lt (by omega)

theorem fat1 (hv : v.Laid) : v.fat1SectorIndex 0 = v.reservedSectorCount + v.tableSize := by
  have hstart := hv.dataStart_lt
  rw [dataStart] at hstart
  rw [fat1SectorIndex, hv.fat0, Nat.zero_div, Nat.add_zero]
  exact Nat.mod_eq_of_lt (by omega)

/-- No entry has the number of no cluster: their number is a multiple of those in a sector. -/
theorem lt_noCluster (hv : v.Laid) {n : ℕ} (hn : n < v.nrSingleFatEntries) : n < noCluster := by
  have htable := hv.table_lt
  rw [hv.nrSingleFatEntries] at hn
  rw [noCluster]
  omega

end Laid

namespace Valid

theorem laid (hv : v.Valid) : v.Laid := ⟨hv.end_lt, hv.fits, hv.table_lt⟩

theorem nrSingleFatEntries (hv : v.Valid) :
    v.nrSingleFatEntries = v.tableSize * nrFatEntriesPerSector :=
  hv.laid.nrSingleFatEntries

theorem dataStart_lt (hv : v.Valid) : v.dataStart < 2 ^ 32 := hv.laid.dataStart_lt

theorem dataRegion (hv : v.Valid) : v.dataRegionSectorIndex = v.dataStart := by
  rw [dataRegionSectorIndex, hv.laid.fat1, Nat.add_assoc, ← Nat.two_mul]
  exact Nat.mod_eq_of_lt hv.dataStart_lt

/-- Where a cluster is, and that it is in the partition. -/
theorem sector_le (hv : v.Valid) {n : ℕ} (hn : n < v.clusters + 2) :
    v.startBlock + v.sector n ≤ v.endBlock := by
  have hpos := hv.cluster_pos
  have hmul : v.clusters * v.sectorsPerCluster ≤ v.endBlock + 1 - v.startBlock - v.dataStart :=
    Nat.div_mul_le_self ..
  have hle : n * v.sectorsPerCluster + v.sectorsPerCluster ≤
      v.clusters * v.sectorsPerCluster + 2 * v.sectorsPerCluster := by
    rw [← Nat.add_mul, ← Nat.succ_mul]
    exact Nat.mul_le_mul_right _ (by omega)
  have hfits := hv.fits
  rw [sector]
  omega

theorem le_dataStart (hv : v.Valid) : 2 * v.sectorsPerCluster ≤ v.dataStart := by
  have hsecond := hv.second
  rw [dataStart]
  omega

theorem place_lt (hv : v.Valid) {n : ℕ} (hn : n < v.nrSingleFatEntries) :
    v.startBlock + v.sector n < 2 ^ 32 := by
  have hwrap := hv.no_wrap
  have hstart := hv.le_dataStart
  have hpos := hv.cluster_pos
  have hle : (n + 1) * v.sectorsPerCluster ≤
      v.tableSize * nrFatEntriesPerSector * v.sectorsPerCluster :=
    Nat.mul_le_mul_right _ (by rw [hv.nrSingleFatEntries] at hn; exact hn)
  rw [Nat.add_mul, Nat.one_mul] at hle
  rw [sector]
  omega

theorem clusterSectorIndex (hv : v.Valid) {n : ℕ} (hn : n < v.nrSingleFatEntries) :
    v.clusterSectorIndex n = v.sector n := by
  have hlt : v.sector n < 2 ^ 32 := (Nat.le_add_left ..).trans_lt (hv.place_lt hn)
  have hstart := hv.le_dataStart
  have hn32 : n < 2 ^ 32 := by
    have htable := hv.table_lt
    rw [hv.nrSingleFatEntries] at hn
    omega
  rw [Volume.clusterSectorIndex, hv.dataRegion]
  rcases Nat.lt_or_ge n 2 with hsmall | hbig
  · -- The difference wraps around, and the sum does again.
    have hu32 : u32 (n + 2 ^ 32 - 2) = n + 2 ^ 32 - 2 := Nat.mod_eq_of_lt (by omega)
    have hmul : (n + 2 ^ 32 - 2) * v.sectorsPerCluster =
        n * v.sectorsPerCluster + 2 ^ 32 * v.sectorsPerCluster - 2 * v.sectorsPerCluster := by
      rw [Nat.sub_mul, Nat.add_mul]
    have hsum : v.dataStart + (n + 2 ^ 32 - 2) * v.sectorsPerCluster =
        v.sector n + 2 ^ 32 * v.sectorsPerCluster := by
      rw [hmul, sector]
      omega
    rw [hu32, hsum, u32, Nat.add_mul_mod_self_left, Nat.mod_eq_of_lt hlt]
  · have hu32 : u32 (n + 2 ^ 32 - 2) = n - 2 := by
      rw [u32, show n + 2 ^ 32 - 2 = (n - 2) + 2 ^ 32 by omega, Nat.add_mod_right]
      exact Nat.mod_eq_of_lt (by omega)
    have hsum : v.dataStart + (n - 2) * v.sectorsPerCluster = v.sector n := by
      have hmul : 2 * v.sectorsPerCluster ≤ n * v.sectorsPerCluster :=
        Nat.mul_le_mul_right _ hbig
      rw [Nat.sub_mul, sector]
      omega
    rw [hu32, hsum]
    exact Nat.mod_eq_of_lt hlt

/-- Different clusters are at different places. -/
theorem sector_inj (hv : v.Valid) {m n : ℕ} (h : v.sector m = v.sector n) : m = n := by
  have hstart := hv.le_dataStart
  rw [sector, sector] at h
  have hmul : m * v.sectorsPerCluster = n * v.sectorsPerCluster := by omega
  exact Nat.eq_of_mul_eq_mul_right hv.cluster_pos hmul

/-- No cluster is in the first table. -/
theorem le_sector (hv : v.Valid) (n : ℕ) : v.reservedSectorCount + v.tableSize ≤ v.sector n := by
  have hsecond := hv.second
  rw [sector, dataStart]
  omega

end Valid

theorem HasCluster.lt_nr {n : ℕ} (hn : v.HasCluster n) (hv : v.Valid) :
    n < v.nrSingleFatEntries := by
  rw [hv.nrSingleFatEntries]
  exact hn.2.trans_le hv.covers

end Volume

/-! ### The table is an array, and the clusters are too -/

section

variable {v : Volume} {d : Disk} {i j m n : ℕ} {b buf : Block}

/-- The block of the device that a cluster is in. -/
def Volume.place (v : Volume) (n : ℕ) : ℕ := v.startBlock + v.sector n

/-- The block of the device that an entry of the table is in. -/
def Volume.fatPlace (v : Volume) (i : ℕ) : ℕ :=
  v.startBlock + (v.reservedSectorCount + i / nrFatEntriesPerSector)

/-- The block of a cluster, which may be beyond the end of the partition. -/
theorem clusterBlock? (hv : v.Valid) (hn : n < v.nrSingleFatEntries) :
    v.block? (v.clusterSectorIndex n) =
      if v.endBlock < v.place n then none else some (v.place n) := by
  rw [hv.clusterSectorIndex hn, Volume.block?]
  have hu32 : u32 (v.startBlock + v.sector n) = v.place n := Nat.mod_eq_of_lt (hv.place_lt hn)
  rw [hu32]

theorem clusterBlock?_of_lt (hv : v.Valid) (hn : n < v.clusters + 2) :
    v.block? (v.clusterSectorIndex n) = some (v.place n) := by
  rw [clusterBlock? hv (hv.nrSingleFatEntries ▸ hn.trans_le hv.covers)]
  exact if_neg (not_lt.mpr (hv.sector_le hn))

theorem clusterRead_eq (hv : v.Valid) (hn : n < v.clusters + 2) :
    clusterRead v n buf d = d (v.place n) := by
  rw [clusterRead, Volume.readBlock, clusterBlock?_of_lt hv hn]

theorem clusterWrite_eq (hv : v.Valid) (hn : n < v.clusters + 2) :
    clusterWrite v n b d = update d (v.place n) b := by
  rw [clusterWrite, Volume.writeBlock, clusterBlock?_of_lt hv hn]

/-- What a cluster that is written leaves alone. -/
theorem clusterWrite_of_ne (hv : v.Valid) (hn : n < v.nrSingleFatEntries) {x : ℕ}
    (hx : x ≠ v.place n) : clusterWrite v n b d x = d x := by
  rw [clusterWrite, Volume.writeBlock, clusterBlock? hv hn]
  split_ifs
  · rfl
  · exact update_of_ne hx ..

/-- **The entry can be read and written**: it is in the table, and its sector is in the partition. -/
structure Volume.HasEntry (v : Volume) (i : ℕ) : Prop where
  lt : i < v.nrSingleFatEntries
  block? : v.block? (v.fat0SectorIndex i) = some (v.fatPlace i)

namespace Volume.HasEntry

theorem fatRead (hi : v.HasEntry i) :
    fatRead v i d = u32At (d (v.fatPlace i)) (i % nrFatEntriesPerSector) := by
  rw [Fat32.fatRead, if_neg (not_le.mpr hi.lt), readBlock, hi.block?]

theorem fatWrite (hi : v.HasEntry i) (x : ℕ) :
    fatWrite v i x d = update d (v.fatPlace i)
      (setU32At (d (v.fatPlace i)) (i % nrFatEntriesPerSector) x) := by
  rw [Fat32.fatWrite, if_neg (not_le.mpr hi.lt), readBlock, writeBlock, hi.block?]

theorem fatRead_fatWrite_self (hi : v.HasEntry i) {x : ℕ} (hx : x < 2 ^ 32) :
    Fat32.fatRead v i (Fat32.fatWrite v i x d) = x := by
  rw [hi.fatRead, hi.fatWrite, update_self]
  exact u32At_setU32At_self _ _ hx

theorem fatRead_fatWrite_of_ne (hi : v.HasEntry i) (hj : v.HasEntry j) (h : j ≠ i) (x : ℕ) :
    Fat32.fatRead v j (Fat32.fatWrite v i x d) = Fat32.fatRead v j d := by
  rw [hj.fatRead, hj.fatRead, hi.fatWrite]
  by_cases hplace : v.fatPlace j = v.fatPlace i
  · have hdiv : j / nrFatEntriesPerSector = i / nrFatEntriesPerSector := by
      rw [fatPlace, fatPlace] at hplace
      omega
    have hmod : j % nrFatEntriesPerSector ≠ i % nrFatEntriesPerSector := by
      intro hmod
      have hj' := Nat.div_add_mod j nrFatEntriesPerSector
      have hi' := Nat.div_add_mod i nrFatEntriesPerSector
      rw [hdiv, hmod] at hj'
      exact h (hj'.symm.trans hi')
    rw [hplace, update_self]
    exact u32At_setU32At_of_ne _ _ hmod
  · rw [update_of_ne hplace]

/-- Only the four bytes of the entry are written. -/
theorem fatWrite_of_outside (hi : v.HasEntry i) (x : ℕ) {b o : ℕ}
    (h : ¬(b = v.fatPlace i ∧ 4 * (i % nrFatEntriesPerSector) ≤ o ∧
      o < 4 * (i % nrFatEntriesPerSector) + 4)) : Fat32.fatWrite v i x d b o = d b o := by
  rw [hi.fatWrite]
  by_cases hb : b = v.fatPlace i
  · rw [hb, update_self]
    exact Mem.writeBytes_of_not_mem (by omega)
  · rw [update_of_ne hb]

end Volume.HasEntry

/-- An entry whose sector is in the partition. The number of the sector does not wrap around. -/
theorem Volume.Typed.hasEntry (hv : v.Typed) (hi : i < v.nrSingleFatEntries)
    (hin : v.startBlock + v.fat0SectorIndex i ≤ v.endBlock) : v.HasEntry i := by
  have hend := hv.end_lt
  have hreserved := hv.reserved_lt
  have hnr : v.nrSingleFatEntries < 2 ^ 32 := Nat.mod_lt _ (by decide)
  have hdiv : i / nrFatEntriesPerSector < 2 ^ 25 :=
    Nat.div_lt_of_lt_mul (by rw [nrFatEntriesPerSector]; omega)
  have hindex : v.fat0SectorIndex i = v.reservedSectorCount + i / nrFatEntriesPerSector :=
    Nat.mod_eq_of_lt (by omega)
  have hsum : u32 (v.startBlock + v.fat0SectorIndex i) = v.fatPlace i := by
    rw [fatPlace, ← hindex]
    exact Nat.mod_eq_of_lt (by omega)
  refine ⟨hi, ?_⟩
  rw [Volume.block?, hsum, fatPlace, ← hindex]
  exact if_neg (not_lt.mpr hin)

/-- **The table is an array**, for every boot sector: an entry whose sector is in the partition is what
was written to it, an entry that was not written is what it was, and nothing but the four bytes of
the entry is changed. Beyond the table nothing is written, and the end of a chain is read. -/
theorem fat_is_array (hv : v.Typed) (d : Disk) :
    (∀ i j x, i < v.nrSingleFatEntries → j < v.nrSingleFatEntries →
      v.startBlock + v.fat0SectorIndex i ≤ v.endBlock →
      v.startBlock + v.fat0SectorIndex j ≤ v.endBlock → x < 2 ^ 32 →
      fatRead v j (fatWrite v i x d) = if j = i then x else fatRead v j d) ∧
    (∀ i x b o, i < v.nrSingleFatEntries → v.startBlock + v.fat0SectorIndex i ≤ v.endBlock →
      ¬(b = v.fatPlace i ∧ 4 * (i % nrFatEntriesPerSector) ≤ o ∧
        o < 4 * (i % nrFatEntriesPerSector) + 4) → fatWrite v i x d b o = d b o) ∧
    ∀ i x, v.nrSingleFatEntries ≤ i → fatWrite v i x d = d ∧ IsEoc (fatRead v i d) := by
  refine ⟨fun i j x hi hj hini hinj hx => ?_, fun i x b o hi hin => ?_, fun i x hi => ⟨?_, ?_⟩⟩
  · have hentry := hv.hasEntry hi hini
    split_ifs with h
    · rw [h]
      exact hentry.fatRead_fatWrite_self hx
    · exact hentry.fatRead_fatWrite_of_ne (hv.hasEntry hj hinj) h x
  · exact (hv.hasEntry hi hin).fatWrite_of_outside x
  · exact if_pos hi
  · rw [fatRead, if_pos hi]
    exact ⟨by decide, le_rfl⟩

theorem Volume.Laid.hasEntry (hv : v.Laid) (hi : i < v.nrSingleFatEntries) : v.HasEntry i := by
  obtain ⟨hindex, hlt⟩ := hv.fat0SectorIndex hi
  refine ⟨hi, ?_⟩
  rw [hindex]
  refine hv.block? ?_
  have hfits := hv.fits
  rw [Volume.dataStart] at hfits
  omega

theorem fatRead_eq (hv : v.Laid) (hi : i < v.nrSingleFatEntries) :
    fatRead v i d = u32At (d (v.fatPlace i)) (i % nrFatEntriesPerSector) :=
  (hv.hasEntry hi).fatRead

theorem fatWrite_eq (hv : v.Laid) (hi : i < v.nrSingleFatEntries) (x : ℕ) :
    fatWrite v i x d = update d (v.fatPlace i)
      (setU32At (d (v.fatPlace i)) (i % nrFatEntriesPerSector) x) :=
  (hv.hasEntry hi).fatWrite x

theorem fatPlace_ne_place (hv : v.Valid) (hi : i < v.nrSingleFatEntries) (n : ℕ) :
    v.fatPlace i ≠ v.place n := by
  have hlt := (hv.laid.fat0SectorIndex hi).2
  have hle := hv.le_sector n
  rw [Volume.fatPlace, Volume.place]
  omega

theorem place_ne_place (hv : v.Valid) (h : m ≠ n) : v.place m ≠ v.place n := by
  intro hEq
  exact h (hv.sector_inj (Nat.add_left_cancel hEq))

/-- **The table is an array**: what was written to an entry. -/
theorem fatRead_fatWrite_self (hv : v.Valid) (hi : i < v.nrSingleFatEntries) {x : ℕ}
    (hx : x < 2 ^ 32) : fatRead v i (fatWrite v i x d) = x :=
  (hv.laid.hasEntry hi).fatRead_fatWrite_self hx

/-- The other entries. -/
theorem fatRead_fatWrite_of_ne (hv : v.Valid) (h : j ≠ i) (x : ℕ) :
    fatRead v j (fatWrite v i x d) = fatRead v j d := by
  rcases Nat.lt_or_ge i v.nrSingleFatEntries with hi | hi
  · rcases Nat.lt_or_ge j v.nrSingleFatEntries with hj | hj
    · exact (hv.laid.hasEntry hi).fatRead_fatWrite_of_ne (hv.laid.hasEntry hj) h x
    · rw [fatRead, fatRead, if_pos hj, if_pos hj]
  · rw [fatWrite, if_pos hi]

/-- Clusters are not in the table. -/
theorem fatWrite_place (hv : v.Valid) (i x n : ℕ) : fatWrite v i x d (v.place n) = d (v.place n) := by
  rcases Nat.lt_or_ge i v.nrSingleFatEntries with hi | hi
  · rw [fatWrite_eq hv.laid hi, update_of_ne (fatPlace_ne_place hv hi n).symm]
  · rw [fatWrite, if_pos hi]

theorem fatRead_clusterWrite (hv : v.Valid) (hn : n < v.nrSingleFatEntries) (i : ℕ) :
    fatRead v i (clusterWrite v n b d) = fatRead v i d := by
  rcases Nat.lt_or_ge i v.nrSingleFatEntries with hi | hi
  · rw [fatRead_eq hv.laid hi, fatRead_eq hv.laid hi, clusterWrite_of_ne hv hn (fatPlace_ne_place hv hi n)]
  · rw [fatRead, fatRead, if_pos hi, if_pos hi]

/-! ### Free clusters -/

/-- **What a search for a free cluster finds**: the first entry that is zero, if there is one. -/
inductive FindsFree (v : Volume) (d : Disk) : ℕ → Prop
  | none (h : ∀ i < v.nrSingleFatEntries, fatRead v i d ≠ 0) : FindsFree v d noCluster
  | some {n : ℕ} (hlt : n < v.nrSingleFatEntries) (hzero : fatRead v n d = 0)
      (hfirst : ∀ i < n, fatRead v i d ≠ 0) : FindsFree v d n

theorem fatRead_of_sector (hv : v.Laid) (hj : j < v.tableSize) (hi : i < nrFatEntriesPerSector) :
    nrFatEntriesPerSector * j + i < v.nrSingleFatEntries ∧
      fatRead v (nrFatEntriesPerSector * j + i) d =
        u32At (v.readBlock (v.reservedSectorCount + j) v.stack d) i := by
  have hdiv : (nrFatEntriesPerSector * j + i) / nrFatEntriesPerSector = j := by
    rw [Nat.mul_add_div (by decide), Nat.div_eq_of_lt hi, Nat.add_zero]
  have hlt : nrFatEntriesPerSector * j + i < v.nrSingleFatEntries := by
    rw [hv.nrSingleFatEntries, Nat.mul_comm v.tableSize]
    refine Nat.lt_of_lt_of_le (Nat.add_lt_add_left hi _) ?_
    rw [← Nat.mul_succ]
    exact Nat.mul_le_mul_left _ hj
  refine ⟨hlt, ?_⟩
  have hplace := (hv.hasEntry hlt).block?
  rw [(hv.fat0SectorIndex hlt).1, hdiv] at hplace
  rw [fatRead_eq hv hlt, Volume.readBlock, hplace, Nat.mul_add_mod,
    Nat.mod_eq_of_lt hi]

theorem findFreeLoop_spec (hv : v.Laid) (n : ℕ) :
    ∀ {j : ℕ}, j + n = v.tableSize → (∀ i < nrFatEntriesPerSector * j, fatRead v i d ≠ 0) →
      FindsFree v d (findFreeLoop v d n (v.reservedSectorCount + j)) := by
  induction n with
  | zero =>
    intro j hj hnone
    refine .none fun i hi => hnone i ?_
    rw [hv.nrSingleFatEntries, ← hj, Nat.mul_comm] at hi
    exact hi
  | succ n ih =>
    intro j hj hnone
    have hlt : j < v.tableSize := by omega
    rw [findFreeLoop]
    rcases hfind : (List.range nrFatEntriesPerSector).find? fun i =>
      u32At (v.readBlock (v.reservedSectorCount + j) v.stack d) i = 0 with _ | i
    · -- No entry of this sector is free: the entries up to the next sector are not.
      dsimp only
      rw [Nat.add_assoc]
      refine ih (by omega) fun i hi => ?_
      rcases Nat.lt_or_ge i (nrFatEntriesPerSector * j) with hlow | hhigh
      · exact hnone i hlow
      · obtain ⟨k, rfl⟩ := Nat.exists_eq_add_of_le hhigh
        rw [Nat.mul_succ] at hi
        have hk : k < nrFatEntriesPerSector := by omega
        rw [(fatRead_of_sector hv hlt hk).2]
        exact of_decide_eq_false (by simpa using List.find?_range_eq_none.mp hfind k hk)
    · dsimp only
      obtain ⟨hzero, hi, hfirst⟩ := List.find?_range_eq_some.mp hfind
      obtain ⟨hnr, hread⟩ := fatRead_of_sector (d := d) hv hlt (List.mem_range.mp hi)
      have hindex : u32 ((v.reservedSectorCount + j - v.fat0SectorIndex 0) * nrFatEntriesPerSector + i)
          = nrFatEntriesPerSector * j + i := by
        rw [hv.fat0, Nat.add_sub_cancel_left, Nat.mul_comm]
        refine Nat.mod_eq_of_lt (hnr.trans ?_)
        rw [hv.nrSingleFatEntries]
        exact hv.table_lt
      rw [hindex]
      refine .some hnr (hread.trans (of_decide_eq_true hzero)) fun i' hi' => ?_
      rcases Nat.lt_or_ge i' (nrFatEntriesPerSector * j) with hlow | hhigh
      · exact hnone i' hlow
      · obtain ⟨k, rfl⟩ := Nat.exists_eq_add_of_le hhigh
        have hk : k < i := by omega
        rw [(fatRead_of_sector hv hlt (hk.trans (List.mem_range.mp hi))).2]
        exact of_decide_eq_false (by simpa using hfirst k hk)

/-- **`fat_find_free_cluster`** finds the first entry that is zero. -/
theorem findsFree_fatFindFreeCluster (hv : v.Laid) (d : Disk) :
    FindsFree v d (fatFindFreeCluster v d) := by
  rw [fatFindFreeCluster, hv.fat0, hv.fat1, Nat.add_sub_cancel_left]
  exact findFreeLoop_spec (j := 0) hv _ (Nat.zero_add _) fun i hi => absurd hi (by omega)

end

/-! ### A small volume -/

/-- A volume of sixteen clusters, with the root directory in the first. -/
def smallVolume : Volume := ⟨0, 20, 1, 1, 2, 2, fun _ => 0⟩

theorem valid_smallVolume : smallVolume.Valid := by
  constructor <;> decide

/-- Two entries of the table of the small volume, in two sectors. -/
theorem fat_is_array_small : fatRead smallVolume 200 (fatWrite smallVolume 3 7 fun _ _ => 1) =
    fatRead smallVolume 200 fun _ _ => 1 := by
  have hv : smallVolume.Typed := by constructor <;> decide
  exact (fat_is_array hv fun _ _ => 1).1 3 200 7 (by decide) (by decide) (by decide) (by decide)
    (by decide)

/-- A disk for the small volume, with this table and these clusters. -/
def smallDisk (table : ℕ → ℕ) (content : ℕ → Block) : Disk := fun b =>
  if b < 3 then fun x => UInt8.ofNat (table (128 * (b - 1) + x / 4) / 256 ^ (x % 4))
  else content (b - 3)

end Fat32

end Valkyrie
