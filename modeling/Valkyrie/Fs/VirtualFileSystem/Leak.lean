import Mathlib.Data.List.GetD
import Valkyrie.Fs.Fat32.SameBytes
import Valkyrie.Fs.VirtualFileSystem.NoRoom

/-!
# What is written behind the end of a file

`write` copies the bytes to a new buffer, which is exactly as long, and hands it to `set_content`.
That one writes whole blocks of 512 bytes, and the last one reaches beyond the buffer, unless the
length is a multiple of 512. So the rest of the last cluster is whatever lies in the memory of the
kernel behind the buffer (`Valkyrie.Vfs.readsOnlyBuffer_iff`), except where that cluster is not
written at all. A write of nothing, or of more than 2 MiB, has no buffer, and the kernel aborts
before it reads anything.
-/

namespace Valkyrie.Vfs

open Exec Fat32

variable {vol : Volume} {d : Disk} {s : State} {vnode : Vnode} {fuel f v : ℕ}
  {bytes : List UInt8} {heap heap' : Mem}

/-- **The write reads only the buffer**: with any other memory behind it, the call returns the same,
and leaves the same on the disk. -/
def ReadsOnlyBuffer (vol : Volume) (f : ℕ) (bytes : List UInt8) (d : Disk) (s : State) :
    Prop :=
  ∀ fuel heap heap', Related
    (fun r r' => r.1 = r'.1 ∧ r.2.1 = r'.2.1 ∧ SameBytes r.2.2 r'.2.2)
    (writeOn vol fuel f bytes heap d s) (writeOn vol fuel f bytes heap' d s)

/-- A byte of the disk that comes from the memory behind the buffer. -/
theorem not_readsOnlyBuffer {block i x : ℕ} {r : ℤ} (hx : x < 512)
    (hwrite : ∀ heap : Mem, ∃ bound s' d', (∀ fuel, bound < fuel →
      writeOn vol fuel f bytes heap d s = .ok (r, s', d')) ∧ d' block x = heap i) :
    ¬ReadsOnlyBuffer vol f bytes d s := by
  intro hreads
  obtain ⟨bound, s₁, d₁, hrun₁, hbyte₁⟩ := hwrite fun _ => 0
  obtain ⟨bound', s₂, d₂, hrun₂, hbyte₂⟩ := hwrite fun _ => 1
  have hrel := hreads (max bound bound' + 1) (fun _ => 0) fun _ => 1
  rw [hrun₁ _ (by omega), hrun₂ _ (by omega)] at hrel
  have hsame : d₁ block x = d₂ block x := hrel.of_ok.2.2 block x hx
  rw [hbyte₁, hbyte₂] at hsame
  exact absurd hsame (by decide)

/-! ### Where the blocks come from -/

theorem bufferOf_of_lt {x : ℕ} (hx : x < bytes.length) :
    bufferOf bytes heap x = bufferOf bytes heap' x := by
  rw [bufferOf, bufferOf, List.getD_eq_getElem _ _ hx, List.getD_eq_getElem _ _ hx]

theorem bufferOf_of_le {x : ℕ} (hx : bytes.length ≤ x) : bufferOf bytes heap x = heap x :=
  List.getD_eq_default _ _ hx

/-- A block within the buffer. -/
theorem sameBlock_chunk {i : ℕ} (hi : i + 512 ≤ bytes.length) :
    SameBlock (chunk (bufferOf bytes heap) i) (chunk (bufferOf bytes heap') i) :=
  fun x hx => bufferOf_of_lt (show i + x < bytes.length by omega)

/-- The free clusters are in ascending order on the disk. -/
theorem place_le_place {j k c c' : ℕ} (hj : (freeClusters vol d)[j]? = some c)
    (hk : (freeClusters vol d)[k]? = some c') (hle : j ≤ k) : vol.place c ≤ vol.place c' := by
  have hsorted : (freeClusters vol d).Pairwise (· < ·) := List.pairwise_lt_range.filter _
  have hcc : c ≤ c' := by
    rcases hle.eq_or_lt with rfl | hlt
    · rw [hj] at hk
      exact (Option.some.inj hk).le
    · obtain ⟨hj', rfl⟩ := List.getElem?_eq_some_iff.mp hj
      obtain ⟨hk', rfl⟩ := List.getElem?_eq_some_iff.mp hk
      exact (List.pairwise_iff_getElem.mp hsorted j k hj' hk' hlt).le
  have hmul := Nat.mul_le_mul_right vol.sectorsPerCluster hcc
  rw [Volume.place, Volume.place, Volume.sector, Volume.sector]
  omega

/-- The lengths for which the last block lies in the buffer, or is not written. -/
def LastBlockInside (vol : Volume) (len : ℕ) (d : Disk) : Prop :=
  512 ∣ len ∨ 2 ^ 21 < len ∨
    ∀ c, (freeClusters vol d)[nrClusters len - 1]? = some c → vol.endBlock < vol.place c

theorem sameChunks (h : LastBlockInside vol bytes.length d)
    (hnew : operatorNew bytes.length = .ok ()) {bufSize : ℕ}
    (hbuf : roundUpToMultipleOfN fuel bytes.length 512 = .ok bufSize) :
    SameChunks vol (bufferOf bytes heap) (bufferOf bytes heap') bufSize 0
      (freeClusters vol d) := by
  obtain ⟨hpos, hmax⟩ := operatorNew_eq_ok.mp hnew
  intro k c hk hlt
  rw [Nat.zero_add] at hlt ⊢
  have hu32 : u32 (512 * k) = 512 * (k % 2 ^ 23) := by
    rw [u32]
    omega
  rw [hu32] at hlt ⊢
  have hle : k % 2 ^ 23 ≤ k := Nat.mod_le ..
  have hsize : bufSize = 512 * nrClusters bytes.length :=
    (eq_of_roundUpToMultipleOfN hbuf).2
  rw [hsize, nrClusters] at hlt
  rcases h with ⟨m, hm⟩ | hgt | hend
  · exact .inr (sameBlock_chunk (by omega))
  · exact absurd hgt (not_lt.mpr hmax)
  · by_cases hlast : k % 2 ^ 23 = nrClusters bytes.length - 1
    · left
      obtain ⟨c', hc'⟩ : ∃ c', (freeClusters vol d)[nrClusters bytes.length - 1]? =
          some c' := by
        obtain ⟨hk', -⟩ := List.getElem?_eq_some_iff.mp hk
        exact ⟨_, List.getElem?_eq_getElem (by omega)⟩
      exact (hend c' hc').trans_le (place_le_place hc' hk (by omega))
    · rw [nrClusters] at hlast
      exact .inr (sameBlock_chunk (by omega))

/-! ### What gets to the disk -/

section

variable (h : OpenFatFile vol f v vnode s) (h0 : 0 ∉ freeClusters vol d)

include h h0

theorem readsOnlyBuffer_of_lastBlockInside (hlast : LastBlockInside vol bytes.length d) :
    ReadsOnlyBuffer vol f bytes d s := by
  intro fuel heap heap'
  obtain ⟨pos, options, hfile⟩ := h.file
  rw [h.writeOn_eq hfile, h.writeOn_eq hfile]
  refine .bind_same fun _ hnew => ?_
  refine (related_setContent h.valid h.dentry h0 fun bufSize hbuf =>
    sameChunks hlast hnew hbuf).bind ?_
  rintro ⟨inode, d₁⟩ ⟨inode', d₂⟩ ⟨hinode, hsame⟩
  obtain rfl : inode = inode' := hinode
  exact .ok ⟨rfl, rfl, hsame⟩

/-- A write that takes the last block from behind the buffer: the byte behind the end of the file is
that of the memory. -/
theorem exists_writeOn_of_not_lastBlockInside
    (hparent : (inodeOfVnode vnode).parentCluster ∉ freeClusters vol d)
    (hlast : ¬LastBlockInside vol bytes.length d) :
    ∃ c x, x < 512 ∧ ∀ heap, ∃ bound s' d', (∀ fuel, bound < fuel →
      writeOn vol fuel f bytes heap d s = .ok (toInt bytes.length, s', d')) ∧
        d' (vol.place c) x = heap bytes.length := by
  obtain ⟨pos, options, hfile⟩ := h.file
  rw [LastBlockInside, not_or, not_or] at hlast
  obtain ⟨hmul, hlt, hcluster⟩ := hlast
  push Not at hcluster
  obtain ⟨c, hc, hplace⟩ := hcluster
  have hnew : operatorNew bytes.length = .ok () := operatorNew_eq_ok.mpr (by omega)
  have hsize : bytes.length + 512 ≤ sizeMod := by
    rw [sizeMod]
    omega
  have hend : bytes.length < 512 * nrClusters bytes.length ∧
      512 * (nrClusters bytes.length - 1) ≤ bytes.length := by
    rw [nrClusters]
    omega
  have hu32 : u32 (0 + 512 * (nrClusters bytes.length - 1)) =
      512 * (nrClusters bytes.length - 1) := by
    rw [Nat.zero_add]
    exact Nat.mod_eq_of_lt (by omega)
  have hchunk : ∀ heap : Mem, chunk (bufferOf bytes heap)
      (512 * (nrClusters bytes.length - 1))
      (bytes.length - 512 * (nrClusters bytes.length - 1)) = heap bytes.length := by
    intro heap
    rw [chunk, Nat.add_sub_cancel' hend.2]
    exact bufferOf_of_le le_rfl
  refine ⟨c, bytes.length - 512 * (nrClusters bytes.length - 1), by omega, fun heap => ?_⟩
  -- With room or without: the cluster for the last block is claimed in either case.
  by_cases hroom : HasRoom vol bytes.length d
  · obtain ⟨d', hclaimed, hset⟩ :=
      setContent_of_room h.valid h.dentry h0 (bufferOf bytes heap) hsize hroom
    have hne : vol.place c ≠ vol.place (inodeOfVnode vnode).parentCluster :=
      place_ne_place h.valid fun heq => hparent (heq ▸ List.mem_of_getElem? hc)
    refine ⟨nrClusters bytes.length,
      written f v vnode bytes.length (toSize (pos + bytes.length)) s,
      updateDentryToDisk vol (inodeOfVnode vnode) (fun dentry => dentry.setSize bytes.length) d',
      fun fuel hfuel => ?_, ?_⟩
    · rw [h.writeOn_eq hfile, hnew, ok_bind, hset fuel hfuel, ok_bind]
    · have htake : ((freeClusters vol d).take (nrClusters bytes.length))[
          nrClusters bytes.length - 1]? = some c := by
        rw [List.getElem?_take_of_lt (by omega), hc]
      rw [updateDentryToDisk_eq h.valid h.dentry, Function.update_of_ne hne,
        hclaimed.data _ c htake hplace, hu32, hchunk]
  · obtain ⟨d', hclaimed, -, bound, hset⟩ :=
      setContent_of_shortage h.valid h.dentry h0 (bufferOf bytes heap) hsize hroom
    refine ⟨bound, written f v vnode (inodeOfVnode vnode).size (toSize (pos + bytes.length)) s, d',
      fun fuel hfuel => ?_, ?_⟩
    · rw [h.writeOn_eq hfile, hnew, ok_bind, hset fuel hfuel, ok_bind]
    · rw [hclaimed.data _ c hc hplace, hu32, hchunk]

end

/-! ### A secret behind the buffer -/

end Valkyrie.Vfs
