import Mathlib.Data.List.Sort
import Valkyrie.Fs.Fat32.Disk

/-!
# Free clusters

A cluster is free if its entry in the table is zero. `fat_find_free_cluster` gives the first of them
(`Valkyrie.Fat32.fatFindFreeCluster_eq`), and giving its entry a value takes it off the list
(`Valkyrie.Fat32.freeClusters_fatWrite_head`). The table may have more entries than there are
clusters; the list does not know about that, nor does the code, which finds a free entry of no
cluster when the volume is full (`Valkyrie.Fat32.isLeastFree_fatFindFreeCluster_iff`).
-/

namespace Valkyrie.Fat32

variable {v : Volume} {d d' : Disk} {i n f x : ℕ} {fs : List ℕ} {b : Block}

/-- **The free clusters**, in ascending order. -/
def freeClusters (v : Volume) (d : Disk) : List ℕ :=
  (List.range v.nrSingleFatEntries).filter fun i => fatRead v i d = 0

theorem mem_freeClusters : i ∈ freeClusters v d ↔ i < v.nrSingleFatEntries ∧ fatRead v i d = 0 := by
  rw [freeClusters, List.mem_filter, List.mem_range, decide_eq_true_iff]

theorem nodup_freeClusters (v : Volume) (d : Disk) : (freeClusters v d).Nodup :=
  List.nodup_range.filter _

/-- The list depends on the table only. -/
theorem freeClusters_congr (h : ∀ i < v.nrSingleFatEntries, fatRead v i d' = 0 ↔ fatRead v i d = 0) :
    freeClusters v d' = freeClusters v d :=
  List.filter_congr fun i hi => decide_eq_decide.mpr (h i (List.mem_range.mp hi))

theorem lt_noCluster (hv : v.Valid) (hn : n < v.nrSingleFatEntries) : n < noCluster :=
  hv.laid.lt_noCluster hn

/-- **`fat_find_free_cluster`** gives the first free cluster. -/
theorem fatFindFreeCluster_eq (hv : v.Valid) (d : Disk) :
    fatFindFreeCluster v d = (freeClusters v d).headD noCluster := by
  have hfinds := findsFree_fatFindFreeCluster hv.laid d
  generalize fatFindFreeCluster v d = m at hfinds ⊢
  rcases hfree : freeClusters v d with _ | ⟨f, fs⟩
  · cases hfinds with
    | none h => rfl
    | some hlt hzero hfirst =>
      have hmem := mem_freeClusters.mpr ⟨hlt, hzero⟩
      rw [hfree] at hmem
      cases hmem
  · have hf := mem_freeClusters.mp (hfree ▸ List.mem_cons_self : f ∈ freeClusters v d)
    -- No free cluster is in front of the first one.
    have hsorted : (f :: fs).Pairwise (· < ·) := hfree ▸ List.pairwise_lt_range.filter _
    cases hfinds with
    | none h => exact absurd hf.2 (h f hf.1)
    | some hlt hzero hfirst =>
      have hm : m ∈ f :: fs := hfree ▸ mem_freeClusters.mpr ⟨hlt, hzero⟩
      rcases List.mem_cons.mp hm with rfl | hm
      · rfl
      · exact absurd hf.2 (hfirst f (List.rel_of_pairwise_cons hsorted hm))

theorem freeClusters_clusterWrite (hv : v.Valid) (hn : n < v.nrSingleFatEntries) :
    freeClusters v (clusterWrite v n b d) = freeClusters v d :=
  freeClusters_congr fun i _ => by rw [fatRead_clusterWrite hv hn]

/-- A free cluster is taken. -/
theorem freeClusters_fatWrite_head (hv : v.Valid) (hfree : freeClusters v d = f :: fs) (hx : x ≠ 0)
    (hx32 : x < 2 ^ 32) : freeClusters v (fatWrite v f x d) = fs := by
  have hf := mem_freeClusters.mp (hfree ▸ List.mem_cons_self : f ∈ freeClusters v d)
  have hnodup : (f :: fs).Nodup := hfree ▸ nodup_freeClusters v d
  have hfilter : freeClusters v (fatWrite v f x d) = (freeClusters v d).filter (· ≠ f) := by
    rw [freeClusters, freeClusters, List.filter_filter]
    refine List.filter_congr fun i _ => ?_
    rcases eq_or_ne i f with rfl | hne
    · rw [fatRead_fatWrite_self hv hf.1 hx32]
      simp [hx]
    · rw [fatRead_fatWrite_of_ne hv hne]
      simp [hne]
  rw [hfilter, hfree, List.filter_cons_of_neg (by simp), List.filter_eq_self]
  intro i hi
  have hne : i ≠ f := fun heq => (List.nodup_cons.mp hnodup).1 (heq ▸ hi)
  exact decide_eq_true hne

/-- An entry that has a value gets another one. -/
theorem freeClusters_fatWrite_of_ne_zero (hv : v.Valid) (hold : fatRead v i d ≠ 0) (hx : x ≠ 0)
    (hx32 : x < 2 ^ 32) : freeClusters v (fatWrite v i x d) = freeClusters v d := by
  refine freeClusters_congr fun j hj => ?_
  rcases eq_or_ne j i with rfl | hne
  · rw [fatRead_fatWrite_self hv hj hx32]
    exact iff_of_false hx hold
  · rw [fatRead_fatWrite_of_ne hv hne]

/-! ### Clusters that are there -/

/-- **The least free cluster** of those that the volume has, or no cluster; so its sectors lie in the
partition. -/
structure IsLeastFree (v : Volume) (d : Disk) (r : ℕ) : Prop where
  least : (r = noCluster ∧ ∀ c, v.HasCluster c → fatRead v c d ≠ 0) ∨
    (v.HasCluster r ∧ fatRead v r d = 0 ∧ ∀ c, v.HasCluster c → fatRead v c d = 0 → r ≤ c)
  inside : r ≠ noCluster → v.startBlock + v.sector r + v.sectorsPerCluster ≤ v.endBlock + 1

/-- The sectors of a cluster lie in the partition. -/
theorem Volume.HasCluster.inside (hn : v.HasCluster n)
    (hfits : v.startBlock + v.dataStart ≤ v.endBlock) :
    v.startBlock + v.sector n + v.sectorsPerCluster ≤ v.endBlock + 1 := by
  have hmul : v.clusters * v.sectorsPerCluster ≤ v.endBlock + 1 - v.startBlock - v.dataStart :=
    Nat.div_mul_le_self ..
  have hle : (n + 1) * v.sectorsPerCluster ≤ (v.clusters + 2) * v.sectorsPerCluster :=
    Nat.mul_le_mul_right _ hn.2
  have hge : 2 * v.sectorsPerCluster ≤ n * v.sectorsPerCluster := Nat.mul_le_mul_right _ hn.1
  rw [Nat.add_mul, Nat.add_mul, Nat.one_mul] at hle
  rw [Volume.sector]
  omega

/-- **When the search for a free cluster is right**: a cluster that the volume has is free, or no
entry of the table behind those of the clusters is zero. -/
theorem isLeastFree_fatFindFreeCluster_iff (hv : v.Laid) (h₀ : fatRead v 0 d ≠ 0)
    (h₁ : fatRead v 1 d ≠ 0) :
    IsLeastFree v d (fatFindFreeCluster v d) ↔
      (∃ c, v.HasCluster c ∧ fatRead v c d = 0) ∨
        ∀ c, v.clusters + 2 ≤ c → c < v.nrSingleFatEntries → fatRead v c d ≠ 0 := by
  have hfinds := findsFree_fatFindFreeCluster hv d
  generalize fatFindFreeCluster v d = r at hfinds
  cases hfinds with
  | none hnone =>
    have hno : ∀ c, fatRead v c d ≠ 0 := by
      intro c
      rcases Nat.lt_or_ge c v.nrSingleFatEntries with hc | hc
      · exact hnone c hc
      · rw [fatRead, if_pos hc]
        decide
    exact iff_of_true ⟨.inl ⟨rfl, fun c _ => hno c⟩, fun h => absurd rfl h⟩
      (.inr fun c _ _ => hno c)
  | some hlt hzero hfirst =>
    have htwo : 2 ≤ r := by
      by_contra hr
      obtain rfl | rfl : r = 0 ∨ r = 1 := by omega
      · exact h₀ hzero
      · exact h₁ hzero
    by_cases hr : r < v.clusters + 2
    · have hhas : v.HasCluster r := ⟨htwo, hr⟩
      refine iff_of_true ⟨.inr ⟨hhas, hzero, fun c _ hc => ?_⟩, fun _ => hhas.inside hv.fits⟩
        (.inl ⟨r, hhas, hzero⟩)
      exact not_lt.mp fun hlt => hfirst c hlt hc
    · -- The entry belongs to no cluster, and no cluster is in front of it.
      refine iff_of_false (fun h => ?_) fun h => ?_
      · rcases h.least with ⟨rfl, -⟩ | ⟨hhas, -⟩
        · exact lt_irrefl _ (hv.lt_noCluster hlt)
        · exact hr hhas.2
      · rcases h with ⟨c, hc, hfree⟩ | hnone
        · exact hfirst c (hc.2.trans_le (not_lt.mp hr)) hfree
        · exact hnone r (not_lt.mp hr) hlt hzero

/-! ### Formatted volumes -/

/-- A full volume, with a table whose last entries belong to no cluster. -/
def fullDisk : Disk := smallDisk (fun i => if i < 18 then eocMax else 0) fun _ _ => 0

theorem isLeastFree_one_free :
    IsLeastFree smallVolume (smallDisk (fun i => if i = 17 then 0 else eocMax) fun _ _ => 0)
      (fatFindFreeCluster smallVolume
        (smallDisk (fun i => if i = 17 then 0 else eocMax) fun _ _ => 0)) :=
  (isLeastFree_fatFindFreeCluster_iff valid_smallVolume.laid (by decide +kernel)
    (by decide +kernel)).mpr (.inl ⟨17, ⟨by decide, by decide⟩, by decide +kernel⟩)

/-- The sixteen clusters are taken, and the seventeenth is found. It is beyond the partition. -/
theorem fatFindFreeCluster_fullDisk :
    fatRead smallVolume 0 fullDisk ≠ 0 ∧ fatRead smallVolume 1 fullDisk ≠ 0 ∧
      smallVolume.clusters = 16 ∧ fatFindFreeCluster smallVolume fullDisk = 18 ∧
      smallVolume.endBlock < smallVolume.place 18 ∧
      ¬IsLeastFree smallVolume fullDisk (fatFindFreeCluster smallVolume fullDisk) := by
  have hfind : fatFindFreeCluster smallVolume fullDisk = 18 := by decide +kernel
  refine ⟨by decide +kernel, by decide +kernel, by decide, hfind, by decide, fun h => ?_⟩
  rw [hfind] at h
  exact absurd (h.inside (by decide)) (by decide)

end Valkyrie.Fat32
