import Valkyrie.Fs.Fat32.Disk

/-!
# Partitions

`dev/DiskPartition.cc`. `read_block` and `write_block` have an `int` for the number of a block. It is
added to the number of the first block of the partition, as an unsigned number of 32 bits, and the
sum is compared with the number of the last block.

It is not compared with that of the first one. If the sum wraps around, the block that is read or
written is in front of the partition; if it does not, the partition is not left
(`Valkyrie.Fat32.Volume.isolated_iff`). The numbers come from sectors that are computed with 32 bits
too, so there are clusters whose sectors are in front of the partition
(`Valkyrie.Fat32.not_isolated_bootRecord`).
-/

namespace Valkyrie

namespace Fat32

open Function

/-- An `int`, as a `uint32_t`. -/
def u32OfInt (i : ℤ) : ℕ := (i % 2 ^ 32).toNat

/-- A `uint32_t`, as an `int`. -/
def intOfU32 (n : ℕ) : ℤ := (n : ℤ).bmod (2 ^ 32)

theorem u32OfInt_intOfU32 {n : ℕ} (hn : n < 2 ^ 32) : u32OfInt (intOfU32 n) = n := by
  have hmod : (intOfU32 n) % 2 ^ 32 = (n : ℤ) % 2 ^ 32 := Int.bmod_emod
  rw [u32OfInt, hmod, Int.emod_eq_of_lt (Int.natCast_nonneg n) (by exact_mod_cast hn), Int.toNat_natCast]

theorem u32OfInt_lt (i : ℤ) : u32OfInt i < 2 ^ 32 := by
  have hlt := Int.emod_lt_of_pos i (show (0 : ℤ) < 2 ^ 32 by decide)
  have hnonneg := Int.emod_nonneg i (show (2 : ℤ) ^ 32 ≠ 0 by decide)
  rw [u32OfInt]
  omega

namespace Volume

/-- **The partition is not left** with this number of a block: a call either does nothing or accesses a
block of the partition. -/
structure Isolated (v : Volume) (blockIndex : ℤ) : Prop where
  read : (∀ buf d, v.readBlock (u32OfInt blockIndex) buf d = buf) ∨
    ∃ b, v.startBlock ≤ b ∧ b ≤ v.endBlock ∧ ∀ buf d, v.readBlock (u32OfInt blockIndex) buf d = d b
  write : (∀ buf d, v.writeBlock (u32OfInt blockIndex) buf d = d) ∨
    ∃ b, v.startBlock ≤ b ∧ b ≤ v.endBlock ∧
      ∀ buf d, v.writeBlock (u32OfInt blockIndex) buf d = update d b buf

variable {v : Volume} {index b : ℕ} {blockIndex : ℤ}

theorem isolated_of_block? (h : ∀ b, v.block? (u32OfInt blockIndex) = some b →
    v.startBlock ≤ b ∧ b ≤ v.endBlock) : v.Isolated blockIndex := by
  rcases hb : v.block? (u32OfInt blockIndex) with _ | b
  · exact ⟨Or.inl fun buf d => by rw [readBlock, hb], Or.inl fun buf d => by rw [writeBlock, hb]⟩
  · obtain ⟨hstart, hend⟩ := h b hb
    exact ⟨Or.inr ⟨b, hstart, hend, fun buf d => by rw [readBlock, hb]⟩,
      Or.inr ⟨b, hstart, hend, fun buf d => by rw [writeBlock, hb]⟩⟩

/-- A block that is written is in the partition, if that is not left. -/
theorem Isolated.block? (h : v.Isolated blockIndex) (hb : v.block? (u32OfInt blockIndex) = some b) :
    v.startBlock ≤ b ∧ b ≤ v.endBlock := by
  have hwrite : ∀ buf d, v.writeBlock (u32OfInt blockIndex) buf d = update d b buf :=
    fun buf d => by rw [writeBlock, hb]
  have hone : (fun _ => 1 : Block) ≠ fun _ => 0 := fun hEq => absurd (congrFun hEq 0) (by decide)
  rcases h.write with hnone | ⟨b', hstart, hend, hsome⟩
  · have hEq := congrFun ((hwrite (fun _ => 1) fun _ _ => 0).symm.trans (hnone _ _)) b
    rw [update_self] at hEq
    exact absurd hEq hone
  · have hEq := congrFun ((hwrite (fun _ => 1) fun _ _ => 0).symm.trans (hsome _ _)) b
    rw [update_self] at hEq
    obtain rfl : b = b' := by
      by_contra hne
      rw [update_of_ne hne] at hEq
      exact hone hEq
    exact ⟨hstart, hend⟩

/-- If the sum wraps around, the block is in front of the partition. -/
theorem Isolated.sum_lt (h : v.Isolated blockIndex) (hend : v.endBlock < 2 ^ 32)
    (hle : v.startBlock ≤ v.endBlock) : v.startBlock + u32OfInt blockIndex < 2 ^ 32 := by
  have hindex := u32OfInt_lt blockIndex
  by_contra hwrap
  have hsum : u32 (v.startBlock + u32OfInt blockIndex) =
      v.startBlock + u32OfInt blockIndex - 2 ^ 32 := by
    rw [u32]
    omega
  have hblock : v.block? (u32OfInt blockIndex) =
      some (v.startBlock + u32OfInt blockIndex - 2 ^ 32) := by
    rw [Volume.block?, hsum]
    exact if_neg (by omega)
  have hstart := (h.block? hblock).1
  omega

theorem isolated_of_sum_lt (hlt : v.startBlock + u32OfInt blockIndex < 2 ^ 32) :
    v.Isolated blockIndex := by
  refine isolated_of_block? fun b hb => ?_
  have hsum : u32 (v.startBlock + u32OfInt blockIndex) = v.startBlock + u32OfInt blockIndex :=
    Nat.mod_eq_of_lt hlt
  rw [Volume.block?, hsum] at hb
  split_ifs at hb with hbeyond
  obtain rfl := Option.some.inj hb
  omega

/-- **The partition is not left** exactly if the sum does not wrap around. -/
theorem isolated_iff (hend : v.endBlock < 2 ^ 32) (hle : v.startBlock ≤ v.endBlock)
    (blockIndex : ℤ) : v.Isolated blockIndex ↔ v.startBlock + u32OfInt blockIndex < 2 ^ 32 :=
  ⟨fun h => h.sum_lt hend hle, isolated_of_sum_lt⟩

/-- A block of the partition. -/
theorem isolated_seventh : (⟨2048, 133119, 1, 32, 1009, 2, fun _ => 0⟩ : Volume).Isolated 7 :=
  (isolated_iff (by decide) (by decide) 7).mpr (by decide)

/-- The number of a sector is passed on as an `int`. -/
theorem isolated_sector_iff {n : ℕ} (hend : v.endBlock < 2 ^ 32) (hle : v.startBlock ≤ v.endBlock)
    (hn : n < 2 ^ 32) : v.Isolated (intOfU32 n) ↔ v.startBlock + n < 2 ^ 32 := by
  constructor
  · intro h
    simpa only [u32OfInt_intOfU32 hn] using h.sum_lt hend hle
  · intro hlt
    exact isolated_of_sum_lt (by rwa [u32OfInt_intOfU32 hn])

end Volume

/-- A volume with 131072 sectors, one for each cluster. -/
def cardVolume : Volume := ⟨2048, 133119, 1, 32, 1009, 2, fun _ => 0⟩

/-- **A cluster in front of the partition**: its sector has the number -2048, and what is written to it
is written to the master boot record. -/
theorem not_isolated_bootRecord : cardVolume.Typed ∧ cardVolume.startBlock ≤ cardVolume.endBlock ∧
    intOfU32 (cardVolume.clusterSectorIndex 0xfffff000) = -2048 ∧
    ¬cardVolume.Isolated (intOfU32 (cardVolume.clusterSectorIndex 0xfffff000)) ∧
    ∀ buf d, clusterWrite cardVolume 0xfffff000 buf d = update d 0 buf := by
  refine ⟨by constructor <;> decide, by decide, by decide, ?_, fun buf d => rfl⟩
  rw [Volume.isolated_sector_iff (by decide) (by decide) (by decide)]
  decide

end Fat32

end Valkyrie
