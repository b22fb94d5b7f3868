import Valkyrie.Base.Path
import Valkyrie.Fs.Fat32.Content

/-!
# Reading a file

The buffer of `get_content` has a block for every 512 bytes of the size, and the loop puts the first
sector of every cluster of the chain into it, one behind the other. For more than 2 MiB there is no
buffer. For less, two things have to fit that have nothing to do with each other. There must not be
more clusters than blocks, which is up to whoever wrote the chain; and as the other sectors of a
cluster are not read at all, the file is right only if every cluster has one sector, or the size does
not exceed one sector (`Valkyrie.Fat32.readsFile_iff`).

An empty file has no cluster. Its inode has the cluster of the root directory after a lookup, and
then it is the chain of the root directory that has to fit into the buffer.
-/

namespace Valkyrie

open Exec

/-- An element of a list of blocks that have the same length. -/
theorem getElem?_flatMap_of_length {α β : Type} {g : α → List β} {k : ℕ} (hk : 0 < k)
    (hg : ∀ a, (g a).length = k) (l : List α) (x : ℕ) :
    (l.flatMap g)[x]? = l[x / k]?.bind fun a => (g a)[x % k]? := by
  induction l generalizing x with
  | nil => rfl
  | cons a l ih =>
    rw [List.flatMap_cons]
    rcases Nat.lt_or_ge x k with hx | hx
    · rw [List.getElem?_append_left (by rwa [hg]), Nat.div_eq_of_lt hx, Nat.mod_eq_of_lt hx]
      rfl
    · rw [List.getElem?_append_right (by rwa [hg]), hg, ih, Nat.div_eq_sub_div hk hx,
        Nat.mod_eq_sub_mod hx]
      rfl

namespace Fat32

variable {v : Volume} {d : Disk} {inode : Inode} {n k size first : ℕ} {cs : List ℕ} {m : Mem}

/-! ### The loop -/

section

variable (v d)

/-- The next cluster. -/
def next (n : ℕ) : Option ℕ := link (fatRead v n d)

/-- The loop of `get_content`, at a cluster. -/
def loadCluster (size n : ℕ) (t : ℕ × Mem) : Exec (Bool × ℕ × Mem) :=
  let offset := u32 (512 * t.1)
  if offset + 512 ≤ size ∨ v.block? (v.clusterSectorIndex n) = none then
    return (false, t.1 + 1, putChunk t.2 offset (clusterRead v n (chunk t.2 offset) d))
  else .error .wild

/-- **A cluster fits into the buffer**, as the block with this number, or it is not in the
partition. -/
def FitsAt (size k n : ℕ) : Prop :=
  u32 (512 * k) + 512 ≤ size ∨ v.block? (v.clusterSectorIndex n) = none

/-- The buffer after some clusters. -/
def loadAll : List ℕ → ℕ → Mem → Mem
  | [], _, m => m
  | n :: cs, k, m =>
    loadAll cs (k + 1)
      (putChunk m (u32 (512 * k)) (clusterRead v n (chunk m (u32 (512 * k))) d))

/-- **The content can be loaded**: there is a buffer for it, the chain has an end, and its clusters
fit into the buffer. -/
def Loads (inode : Inode) : Prop :=
  inode.size ≤ 2 ^ 21 ∧ ∃ cs, Chain (next v d) (link inode.firstCluster) cs ∧
    ∀ k n, cs[k]? = some n → FitsAt v (512 * nrClusters inode.size) k n

end

theorem loadCluster_of_fits (h : FitsAt v size k n) : loadCluster v d size n (k, m) =
    .ok (false, k + 1,
      putChunk m (u32 (512 * k)) (clusterRead v n (chunk m (u32 (512 * k))) d)) :=
  if_pos h

theorem loadCluster_of_not_fits (h : ¬FitsAt v size k n) :
    loadCluster v d size n (k, m) = .error .wild :=
  if_neg h

theorem untilStop_loadCluster (cs : List ℕ) (k : ℕ) (m : Mem)
    (h : ∀ j n, cs[j]? = some n → FitsAt v size (k + j) n) :
    untilStop (loadCluster v d size) cs (k, m) =
      .ok (false, k + cs.length, loadAll v d cs k m) := by
  induction cs generalizing k m with
  | nil => rfl
  | cons n cs ih =>
    have hn : FitsAt v size k n := h 0 n rfl
    rw [untilStop, loadCluster_of_fits hn, List.length_cons, Nat.add_comm cs.length,
      ← Nat.add_assoc]
    refine ih (k + 1) _ fun j n' hj => ?_
    rw [Nat.add_assoc, Nat.add_comm 1]
    exact h (j + 1) n' hj

/-- A cluster that does not fit stops the loop. -/
theorem untilStop_loadCluster_eq_ok {stop : Bool} {t : ℕ × Mem}
    (h : untilStop (loadCluster v d size) cs (k, m) = .ok (stop, t)) :
    stop = false ∧ ∀ j n, cs[j]? = some n → FitsAt v size (k + j) n := by
  induction cs generalizing k m with
  | nil =>
    cases h
    exact ⟨rfl, fun j n hj => by cases hj⟩
  | cons n cs ih =>
    by_cases hn : FitsAt v size k n
    · rw [untilStop, loadCluster_of_fits hn] at h
      obtain ⟨hstop, hfits⟩ := ih h
      refine ⟨hstop, fun j n' hj => ?_⟩
      cases j with
      | zero =>
        obtain rfl : n = n' := Option.some.inj hj
        exact hn
      | succ j =>
        rw [← Nat.add_assoc, Nat.add_right_comm]
        exact hfits j n' hj
    · rw [untilStop, loadCluster_of_not_fits hn] at h
      cases h

/-- **Which files have a buffer.** -/
theorem operatorNew_nrClusters : operatorNew (512 * nrClusters size) = .ok () ↔ size ≤ 2 ^ 21 := by
  rw [operatorNew_eq_ok, nrClusters]
  omega

theorem getContent_eq (hreg : inode.isRegularFile) (fuel : ℕ) :
    getContent v inode fuel d = (do
      let size ← roundUpToMultipleOfN fuel inode.size 512
      operatorNew size
      let t ← followLinks (fun n _ => next v d n) (loadCluster v d size) fuel
        (link inode.firstCluster) (0, fun _ => 0)
      return some ((List.range size).map t.2)) := by
  rw [getContent, if_pos hreg]
  rfl

/-- **What `get_content` returns.** -/
theorem getContent_of_chain (hreg : inode.isRegularFile) (hsize : inode.size ≤ 2 ^ 21)
    (hcs : Chain (next v d) (link inode.firstCluster) cs)
    (hfits : ∀ k n, cs[k]? = some n → FitsAt v (512 * nrClusters inode.size) k n) {fuel : ℕ}
    (hfuel : max (nrClusters inode.size) cs.length < fuel) :
    getContent v inode fuel d =
      .ok (some ((List.range (512 * nrClusters inode.size)).map (loadAll v d cs 0 fun _ => 0))) := by
  have hround : inode.size + 512 ≤ sizeMod := by
    rw [sizeMod]
    omega
  rw [getContent_eq hreg, roundUpToMultipleOfN_eq hround (by omega), ok_bind,
    operatorNew_nrClusters.mpr hsize, ok_bind, followLinks_eq hcs (by omega),
    untilStop_loadCluster cs 0 _ fun j n hj => by
      rw [Nat.zero_add]
      exact hfits j n hj]
  rfl

theorem loads_of_getContent (hreg : inode.isRegularFile) {fuel : ℕ} {r : Option (List UInt8)}
    (h : getContent v inode fuel d = .ok r) : Loads v d inode := by
  rw [getContent_eq hreg] at h
  obtain ⟨bufSize, hround, h⟩ := bind_eq_ok.mp h
  obtain ⟨⟨⟩, hnew, h⟩ := bind_eq_ok.mp h
  obtain ⟨t, hloop, -⟩ := bind_eq_ok.mp h
  obtain ⟨-, rfl⟩ := eq_of_roundUpToMultipleOfN hround
  obtain ⟨cs, h', stop, hpath, huntil, hend⟩ := exists_path_of_followLinks hloop
  obtain ⟨rfl, hfits⟩ := untilStop_loadCluster_eq_ok huntil
  obtain rfl := hend.resolve_left Bool.false_ne_true
  refine ⟨operatorNew_nrClusters.mp hnew, cs, path_none_iff.mp hpath, fun k n hk => ?_⟩
  have hfit := hfits k n hk
  rwa [Nat.zero_add] at hfit

/-- **When `get_content` returns.** -/
theorem terminates_getContent_iff : Terminates (fun fuel => getContent v inode fuel d) ↔
    (inode.isRegularFile → Loads v d inode) := by
  by_cases hreg : inode.isRegularFile
  · refine ⟨fun h _ => ?_, fun h => ?_⟩
    · obtain ⟨fuel, r, hcontent⟩ := h.exists_ok
      exact loads_of_getContent hreg hcontent
    · obtain ⟨hsize, cs, hcs, hfits⟩ := h hreg
      exact ⟨_, fun fuel hfuel => ⟨_, getContent_of_chain hreg hsize hcs hfits hfuel⟩⟩
  · refine iff_of_true ⟨0, fun fuel _ => ⟨none, ?_⟩⟩ fun h => absurd h hreg
    exact if_neg hreg

/-! ### What is in the buffer -/

theorem u32_mul_of_lt (hk : k < 2 ^ 23) : u32 (512 * k) = 512 * k := Nat.mod_eq_of_lt (by omega)

theorem loadAll_of_not_mem {x : ℕ} (hk : k + cs.length ≤ 2 ^ 23)
    (hx : x < 512 * k ∨ 512 * (k + cs.length) ≤ x) : loadAll v d cs k m x = m x := by
  induction cs generalizing k m with
  | nil => rfl
  | cons n cs ih =>
    rw [List.length_cons] at hk hx
    rw [loadAll, ih (by omega) (by omega), u32_mul_of_lt (by omega)]
    exact if_neg (by omega)

theorem loadAll_of_mem {j y c : ℕ} {b : Block} (hk : k + cs.length ≤ 2 ^ 23) (hj : cs[j]? = some c)
    (hc : ∀ buf, clusterRead v c buf d = b) (hy : y < 512) :
    loadAll v d cs k m (512 * (k + j) + y) = b y := by
  induction cs generalizing k m j with
  | nil => cases hj
  | cons n cs ih =>
    rw [List.length_cons] at hk
    rw [loadAll]
    cases j with
    | zero =>
      obtain rfl : n = c := Option.some.inj hj
      rw [loadAll_of_not_mem (by omega) (by omega), u32_mul_of_lt (by omega), hc, Nat.add_zero,
        putChunk, if_pos (by omega), Nat.add_sub_cancel_left]
    | succ j =>
      rw [show k + (j + 1) = k + 1 + j by omega]
      exact ih (by omega) hj

/-! ### Files -/

/-- **A file on the disk**: the number of the first cluster and the size in its directory entry, and
its clusters, of which there may be more than it needs. An empty file may have none, and then the
number is 0. -/
structure IsFile (v : Volume) (d : Disk) (first size : ℕ) (cs : List ℕ) : Prop where
  clusters : first ≠ 0 → Clusters v d first cs
  empty : first = 0 → cs = [] ∧ size = 0
  size_le : size ≤ 512 * v.sectorsPerCluster * cs.length

/-- **An inode of a file.** Without a cluster, it is new, or a lookup has replaced the 0. -/
structure IsInodeOf (v : Volume) (first size : ℕ) (inode : Inode) : Prop where
  regular : inode.isRegularFile
  size_eq : inode.size = size
  first_eq : inode.firstCluster = first ∨ first = 0 ∧ inode.firstCluster = v.rootCluster

/-- The bytes of the clusters, with all their sectors. -/
def fileBytes (v : Volume) (d : Disk) (cs : List ℕ) : List UInt8 :=
  cs.flatMap fun n => (List.range (512 * v.sectorsPerCluster)).map fun x =>
    d (v.place n + x / 512) (x % 512)

/-- **`get_content` reads the file**: it returns, without leaving its buffer, and the buffer begins
with the bytes of the file. -/
def ReadsFile (v : Volume) (d : Disk) (inode : Inode) (cs : List ℕ) : Prop :=
  ∃ buf bound, (∀ fuel, bound < fuel → getContent v inode fuel d = .ok (some buf)) ∧
    buf.take inode.size = (fileBytes v d cs).take inode.size

/-- **The sectors agree**: the one with this number is, as far as the file goes, the first one of the
cluster with this number, or it is zero, if there is no such cluster. -/
def SectorsAgree (v : Volume) (d : Disk) (size : ℕ) (cs : List ℕ) : Prop :=
  ∀ k n, cs[k / v.sectorsPerCluster]? = some n → ∀ y, y < 512 → 512 * k + y < size →
    d (v.place n + k % v.sectorsPerCluster) y = (cs[k]?.elim 0 fun n' => d (v.place n') y)

/-- Where clusters have one sector. -/
theorem sectorsAgree_of_one (h : v.sectorsPerCluster = 1) : SectorsAgree v d size cs := by
  intro k n hn y _ _
  rw [h, Nat.div_one] at hn
  rw [h, Nat.mod_one, Nat.add_zero, hn]
  rfl

/-! ### Where the clusters are -/

theorem Volume.HasCluster.pos (hn : v.HasCluster n) : 0 < v.sectorsPerCluster := by
  refine Nat.pos_of_ne_zero fun hzero => ?_
  have hclusters : v.clusters = 0 := by rw [Volume.clusters, hzero, Nat.div_zero]
  have hlt := hn.2
  rw [hclusters] at hlt
  exact absurd (hn.1.trans_lt hlt) (lt_irrefl 2)

theorem Volume.Laid.dataRegion (hv : v.Laid) : v.dataRegionSectorIndex = v.dataStart := by
  rw [Volume.dataRegionSectorIndex, hv.fat1, Nat.add_assoc, ← Nat.two_mul]
  exact Nat.mod_eq_of_lt hv.dataStart_lt

/-- The block of a cluster. -/
theorem Volume.HasCluster.block? (hn : v.HasCluster n) (hv : v.Laid) :
    v.block? (v.clusterSectorIndex n) = some (v.place n) := by
  have hin := hn.inside hv.fits
  have hend := hv.end_lt
  have hpos := hn.pos
  have hle : v.startBlock + v.sector n ≤ v.endBlock := by omega
  have hsector : v.dataStart + (n - 2) * v.sectorsPerCluster = v.sector n := by
    have hmul : 2 * v.sectorsPerCluster ≤ n * v.sectorsPerCluster := Nat.mul_le_mul_right _ hn.1
    rw [Nat.sub_mul, Volume.sector]
    omega
  have hn32 : n - 2 < 2 ^ 32 := by
    have hmul : n - 2 ≤ (n - 2) * v.sectorsPerCluster := Nat.le_mul_of_pos_right _ hpos
    omega
  have hu32 : u32 (n + 2 ^ 32 - 2) = n - 2 := by
    have htwo := hn.1
    rw [u32, show n + 2 ^ 32 - 2 = (n - 2) + 2 ^ 32 by omega, Nat.add_mod_right]
    exact Nat.mod_eq_of_lt hn32
  have hindex : v.clusterSectorIndex n = v.sector n := by
    rw [Volume.clusterSectorIndex, hv.dataRegion, hu32, hsector]
    exact Nat.mod_eq_of_lt (by omega)
  rw [hindex]
  exact hv.block? hle

/-- The cluster is in the partition, at its place. -/
def InPartition (v : Volume) (n : ℕ) : Prop := v.block? (v.clusterSectorIndex n) = some (v.place n)

theorem InPartition.clusterRead (hn : InPartition v n) (buf : Block) :
    clusterRead v n buf d = d (v.place n) := by
  rw [Fat32.clusterRead, Volume.readBlock, hn]

theorem Clusters.chain_next (hcs : Clusters v d n cs) : Chain (next v d) (link n) cs := hcs.chain

theorem Clusters.inPartition (hcs : Clusters v d n cs) (hv : v.Laid) : ∀ m ∈ cs, InPartition v m :=
  fun m hm => (hcs.onDisk m hm).block? hv

theorem forall_fitsAt_iff (hcs : ∀ n ∈ cs, InPartition v n) (hsize : size ≤ 2 ^ 21) :
    (∀ k n, cs[k]? = some n → FitsAt v (512 * nrClusters size) k n) ↔
      cs.length ≤ nrClusters size := by
  have hnr : nrClusters size ≤ 2 ^ 12 := by
    rw [nrClusters]
    omega
  have hiff : ∀ k n, cs[k]? = some n →
      (FitsAt v (512 * nrClusters size) k n ↔ u32 (512 * k) + 512 ≤ 512 * nrClusters size) := by
    intro k n hk
    rw [FitsAt, hcs n (List.mem_of_getElem? hk)]
    exact or_iff_left (by simp)
  constructor
  · intro h
    -- The first cluster for which there is no block.
    by_contra hlt
    rw [not_le] at hlt
    have hk := List.getElem?_eq_getElem hlt
    have hfit := (hiff _ _ hk).mp (h _ _ hk)
    rw [u32_mul_of_lt (by omega)] at hfit
    omega
  · intro hle k n hk
    obtain ⟨hlt, -⟩ := List.getElem?_eq_some_iff.mp hk
    rw [hiff k n hk, u32_mul_of_lt (by omega)]
    omega

/-! ### The buffer -/

/-- **The buffer**, for these clusters and this size: the first sectors, and zeros. -/
def buffer (v : Volume) (d : Disk) (cs : List ℕ) (size : ℕ) : List UInt8 :=
  (List.range (512 * nrClusters size)).map fun x =>
    cs[x / 512]?.elim 0 fun n => d (v.place n) (x % 512)

theorem loadAll_eq (hcs : ∀ n ∈ cs, InPartition v n) (hle : cs.length ≤ 2 ^ 12) (x : ℕ) :
    loadAll v d cs 0 (fun _ => 0) x = cs[x / 512]?.elim 0 fun n => d (v.place n) (x % 512) := by
  rcases hc : cs[x / 512]? with _ | n
  · have hlen := List.getElem?_eq_none_iff.mp hc
    exact loadAll_of_not_mem (by omega) (by omega)
  · have hx : 512 * (0 + x / 512) + x % 512 = x := by omega
    have hload := loadAll_of_mem (v := v) (d := d) (m := fun _ => 0) (k := 0) (by omega) hc
      (hcs n (List.mem_of_getElem? hc)).clusterRead (Nat.mod_lt x (by decide))
    rwa [hx] at hload

theorem getElem?_buffer {x : ℕ} (hx : x < 512 * nrClusters size) : (buffer v d cs size)[x]? =
    some (cs[x / 512]?.elim 0 fun n => d (v.place n) (x % 512)) := by
  rw [buffer, List.getElem?_map, List.getElem?_range hx, Option.map_some]

/-- **`get_content` returns the buffer**, if the clusters fit into it; otherwise it does not
return. -/
theorem getContent_iff (hreg : inode.isRegularFile)
    (hchain : Chain (next v d) (link inode.firstCluster) cs) (hcs : ∀ n ∈ cs, InPartition v n)
    (buf : List UInt8) :
    (∃ bound, ∀ fuel, bound < fuel → getContent v inode fuel d = .ok (some buf)) ↔
      inode.size ≤ 2 ^ 21 ∧ cs.length ≤ nrClusters inode.size ∧ buf = buffer v d cs inode.size := by
  have hbuffer (hsize : inode.size ≤ 2 ^ 21) (hle : cs.length ≤ nrClusters inode.size) :
      (List.range (512 * nrClusters inode.size)).map (loadAll v d cs 0 fun _ => 0) =
        buffer v d cs inode.size := by
    refine List.map_congr_left fun x _ => loadAll_eq hcs (hle.trans ?_) x
    rw [nrClusters]
    omega
  constructor
  · rintro ⟨bound, hread⟩
    obtain ⟨hsize, cs', hcs', hfits⟩ := loads_of_getContent hreg (hread _ (Nat.lt_succ_self bound))
    obtain rfl : cs' = cs := hcs'.unique hchain
    have hle := (forall_fitsAt_iff hcs hsize).mp hfits
    have hread' := hread (max bound (max (nrClusters inode.size) cs'.length) + 1) (by omega)
    rw [getContent_of_chain hreg hsize hcs' hfits (by omega), hbuffer hsize hle] at hread'
    exact ⟨hsize, hle, (Option.some.inj (Except.ok.inj hread')).symm⟩
  · rintro ⟨hsize, hle, rfl⟩
    refine ⟨max (nrClusters inode.size) cs.length, fun fuel hfuel => ?_⟩
    rw [getContent_of_chain hreg hsize hchain ((forall_fitsAt_iff hcs hsize).mpr hle) hfuel,
      hbuffer hsize hle]

/-! ### The bytes of a file -/

theorem getElem?_fileBytes (hpos : 0 < v.sectorsPerCluster) (cs : List ℕ) (x : ℕ) :
    (fileBytes v d cs)[x]? = cs[x / 512 / v.sectorsPerCluster]?.map fun n =>
      d (v.place n + x / 512 % v.sectorsPerCluster) (x % 512) := by
  rw [fileBytes, getElem?_flatMap_of_length (k := 512 * v.sectorsPerCluster)
    (Nat.mul_pos (by decide) hpos) fun n => by simp, ← Nat.div_div_eq_div_mul]
  rcases cs[x / 512 / v.sectorsPerCluster]? with _ | n
  · rfl
  · have hlt : x % (512 * v.sectorsPerCluster) < 512 * v.sectorsPerCluster :=
      Nat.mod_lt x (Nat.mul_pos (by decide) hpos)
    rw [Option.bind_some, Option.map_some, List.getElem?_map, List.getElem?_range hlt,
      Option.map_some, Nat.mod_mul_right_div_self, Nat.mod_mul_right_mod]

/-- **When the buffer has the bytes of the file.** -/
theorem take_buffer_eq_iff (hpos : 0 < v.sectorsPerCluster)
    (hsize : size ≤ 512 * v.sectorsPerCluster * cs.length) :
    (buffer v d cs size).take size = (fileBytes v d cs).take size ↔ SectorsAgree v d size cs := by
  have hbuf : ∀ x < size, (buffer v d cs size)[x]? =
      some (cs[x / 512]?.elim 0 fun n => d (v.place n) (x % 512)) := fun x hx =>
    getElem?_buffer (hx.trans_le (le_mul_nrClusters size))
  constructor
  · intro heq k n hn y hy hlt
    have hdiv : (512 * k + y) / 512 = k := by omega
    have hmod : (512 * k + y) % 512 = y := by omega
    have hx := congrArg (fun l : List UInt8 => l[512 * k + y]?) heq
    rw [List.getElem?_take_of_lt hlt, List.getElem?_take_of_lt hlt, hbuf _ hlt,
      getElem?_fileBytes hpos, hdiv, hmod, hn] at hx
    exact (Option.some.inj hx).symm
  · intro hagree
    refine List.ext_getElem? fun x => ?_
    rcases Nat.lt_or_ge x size with hx | hx
    · obtain ⟨n, hn⟩ : ∃ n, cs[x / 512 / v.sectorsPerCluster]? = some n := by
        rw [Nat.div_div_eq_div_mul]
        exact ⟨_, List.getElem?_eq_getElem (Nat.div_lt_of_lt_mul (hx.trans_le hsize))⟩
      rw [List.getElem?_take_of_lt hx, List.getElem?_take_of_lt hx, hbuf x hx,
        getElem?_fileBytes hpos, hn, Option.map_some]
      exact congrArg some (hagree (x / 512) n hn (x % 512) (Nat.mod_lt x (by decide))
        (by omega)).symm
    · rw [List.getElem?_take_eq_none hx, List.getElem?_take_eq_none hx]

/-- A file that has clusters. -/
theorem readsFile_iff_of_clusters (hv : v.Laid) (hpos : 0 < v.sectorsPerCluster)
    (hreg : inode.isRegularFile) (hcs : Clusters v d inode.firstCluster cs)
    (hle : inode.size ≤ 512 * v.sectorsPerCluster * cs.length) :
    ReadsFile v d inode cs ↔ inode.size ≤ 2 ^ 21 ∧ cs.length ≤ nrClusters inode.size ∧
      SectorsAgree v d inode.size cs := by
  have hread := getContent_iff hreg hcs.chain_next (hcs.inPartition hv)
  rw [← take_buffer_eq_iff hpos hle]
  constructor
  · rintro ⟨buf, bound, hcontent, hbuf⟩
    obtain ⟨hmax, hnr, rfl⟩ := (hread buf).mp ⟨bound, hcontent⟩
    exact ⟨hmax, hnr, hbuf⟩
  · rintro ⟨hmax, hnr, hbuf⟩
    obtain ⟨bound, hcontent⟩ := (hread _).mpr ⟨hmax, hnr, rfl⟩
    exact ⟨_, bound, hcontent, hbuf⟩

/-- A file of which nothing has to be read. -/
theorem readsFile_iff_of_empty (hreg : inode.isRegularFile) (hsize : inode.size = 0) :
    ReadsFile v d inode [] ↔ Loads v d inode := by
  constructor
  · rintro ⟨buf, bound, hread, -⟩
    exact loads_of_getContent hreg (hread _ (Nat.lt_succ_self bound))
  · rintro ⟨hle, cs, hcs, hfits⟩
    refine ⟨_, _, fun fuel hfuel => getContent_of_chain hreg hle hcs hfits hfuel, ?_⟩
    rw [hsize, List.take_zero, List.take_zero]

/-- Two clusters with the letter `A` in them. -/
def twoClusters : Disk := smallDisk (fun i => if i = 3 then 4 else eocMax) fun _ _ => 65

theorem isFile_twoClusters : IsFile smallVolume twoClusters 3 600 [3, 4] where
  clusters _ := {
    chain := by
      have hthree : link (fatRead smallVolume 3 twoClusters) = some 4 := by decide +kernel
      have hfour : link (fatRead smallVolume 4 twoClusters) = none := by decide +kernel
      exact ⟨rfl, hthree, hfour⟩
    onDisk := by decide }
  empty h := absurd h (by decide)
  size_le := by decide

/-- A volume whose clusters have two sectors. -/
def pairVolume : Volume := { smallVolume with sectorsPerCluster := 2 }

theorem laid_pairVolume : pairVolume.Laid := ⟨by decide, by decide, by decide⟩

/-- The second sector of cluster 3 has the letter `A` in it. -/
def pairDisk : Disk := smallDisk (fun _ => eocMax) fun n => if n = 5 then fun _ => 65 else fun _ => 0

theorem clusters_pairDisk : Clusters pairVolume pairDisk 3 [3] where
  chain := by
    have hthree : link (fatRead pairVolume 3 pairDisk) = none := by decide +kernel
    exact ⟨rfl, hthree⟩
  onDisk := by decide

/-- The root directory has two clusters. -/
def longRoot : Disk := smallDisk (fun i => if i = 2 then 3 else eocMax) fun _ _ => 0

theorem chain_longRoot : Chain (next smallVolume longRoot) (link 2) [2, 3] := by
  have htwo : next smallVolume longRoot 2 = some 3 := by decide +kernel
  have hthree : next smallVolume longRoot 3 = none := by decide +kernel
  exact ⟨rfl, htwo, hthree⟩

end Fat32

end Valkyrie
