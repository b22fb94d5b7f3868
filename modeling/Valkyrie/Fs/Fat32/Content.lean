import Valkyrie.Fs.Fat32.Directory
import Valkyrie.Fs.Fat32.Free
import Valkyrie.Mm.Buddy.Basic

/-!
# The content of a file

`get_content` follows the clusters of a file and copies them to a buffer, which is as long as the
size of the inode says, rounded up. `set_content` does not touch the clusters that the file has. It
takes free ones, one after the other, fills them and links them to each other, and in the end it
writes the new size to the directory entry. The directory entry gets a new first cluster only if the
inode had none (`allocate_first_cluster`), and the inode itself never gets one.

The loop takes the free clusters in their order (`Valkyrie.Fat32.setContentLoop_rounds`), and nothing
else on the disk changes (`Valkyrie.Fat32.Claimed`). If there are not enough, the call just returns,
and what it has taken stays taken (`Valkyrie.Fat32.setContent_of_shortage`).
-/

namespace Valkyrie.Fat32

open Exec

/-- The block in a buffer from an index on. -/
def chunk (buf : Mem) (i : ℕ) : Block := fun x => buf (i + x)

/-- A block is copied to a buffer. -/
def putChunk (buf : Mem) (i : ℕ) (b : Block) : Mem := fun x =>
  if i ≤ x ∧ x < i + 512 then b (x - i) else buf x

section

variable (v : Volume)

/-- `get_content`: the buffer. A cluster that is on the disk has to fit into it. The offset is an
`int`; one that is negative lies outside of the buffer as well. -/
def getContent (inode : Inode) (fuel : ℕ) (d : Disk) : Exec (Option (List UInt8)) :=
  if inode.isRegularFile then do
    let size ← roundUpToMultipleOfN fuel inode.size 512
    operatorNew size
    let (_, content) ← followLinks (fun n _ => link (fatRead v n d)) (fun n (t : ℕ × Mem) =>
      let offset := u32 (512 * t.1)
      if offset + 512 ≤ size ∨ v.block? (v.clusterSectorIndex n) = none then
        return (false, t.1 + 1, putChunk t.2 offset (clusterRead v n (chunk t.2 offset) d))
      else .error .wild) fuel (link inode.firstCluster) (0, fun _ => 0)
    return some ((List.range size).map content)
  else return none

/-- `update_dentry_to_disk`. -/
def updateDentryToDisk (inode : Inode) (callback : Entry → Entry) (d : Disk) : Disk :=
  if IsEoc inode.parentCluster then d
  else
    let buffer := clusterRead v inode.parentCluster (fun _ => 0) d
    clusterWrite v inode.parentCluster
      (putEntry buffer inode.parentOffset (callback (entryAt buffer inode.parentOffset))) d

/-- `allocate_first_cluster`. -/
def allocateFirstCluster (inode : Inode) (d : Disk) : Disk :=
  if inode.firstCluster ≠ 0 then d
  else updateDentryToDisk v inode (fun dentry =>
    let free := fatFindFreeCluster v d
    if free = noCluster then dentry else dentry.setFirstClusterNumber free) d

/-- The loop of `set_content`, and whether it got to its end. -/
def setContentLoop (content : Mem) (bufSize : ℕ) : ℕ → ℕ → ℕ → ℕ → Disk → Exec (Bool × Disk)
  | 0, _, _, _, _ => .error .outOfFuel
  | fuel + 1, i, prev, curr, d =>
    if i < bufSize then
      if curr = noCluster then return (false, d)
      else
        let d := clusterWrite v curr (chunk content i) d
        let d := fatWrite v curr eocMax d
        let d := if prev ≠ 0 then fatWrite v prev curr d else d
        setContentLoop content bufSize fuel (u32 (i + 512)) curr (fatFindFreeCluster v d) d
    else return (true, d)

/-- `set_content`, of so many bytes in memory. The last cluster takes what lies behind them too. -/
def setContent (inode : Inode) (fuel : ℕ) (content : Mem) (newSize : ℕ) (d : Disk) :
    Exec (Inode × Disk) := do
  let bufSize ← roundUpToMultipleOfN fuel newSize 512
  let d := if inode.firstCluster = 0 then allocateFirstCluster v inode d else d
  let (done, d) ← setContentLoop v content bufSize fuel 0 0 (fatFindFreeCluster v d) d
  if done then
    return ({ inode with size := newSize },
      updateDentryToDisk v inode (fun dentry => dentry.setSize newSize) d)
  else return (inode, d)

end

section

variable {v : Volume} {d d' : Disk} {content : Mem} {inode : Inode} {bufSize fuel i n prev : ℕ}
  {fs cs : List ℕ}

/-! ### How many clusters -/

/-- The number of clusters for so many bytes. There is one at least. -/
def nrClusters (size : ℕ) : ℕ := max 1 ((size + 511) / 512)

theorem roundUpToMultipleOfN_eq {size : ℕ} (hsize : size + 512 ≤ sizeMod)
    (hfuel : nrClusters size ≤ fuel) :
    roundUpToMultipleOfN fuel size 512 = .ok (512 * nrClusters size) := by
  rw [nrClusters] at hfuel ⊢
  rcases Nat.eq_zero_or_pos size with rfl | hpos
  · obtain ⟨fuel, rfl⟩ := Nat.exists_eq_add_one_of_ne_zero (show fuel ≠ 0 by omega)
    rfl
  · have hmeets := meets_roundUpToMultipleOfN hpos hsize fuel
    obtain ⟨r, hr, ⟨k, rfl⟩, hle, hlt⟩ := hmeets.exists_ok (by omega)
    rw [hr]
    exact congrArg Except.ok (by omega)

theorem eq_of_roundUpToMultipleOfN {size : ℕ}
    (h : roundUpToMultipleOfN fuel size 512 = .ok bufSize) :
    size + 512 ≤ sizeMod ∧ bufSize = 512 * nrClusters size := by
  have hsize : size + 512 ≤ sizeMod := add_le_of_roundUpToMultipleOfN (by decide) (by decide) h
  refine ⟨hsize, ?_⟩
  rw [nrClusters]
  rcases Nat.eq_zero_or_pos size with rfl | hpos
  · cases fuel with
    | zero => cases h
    | succ fuel => exact (Except.ok.inj h).symm
  · obtain ⟨⟨k, rfl⟩, hle, hlt⟩ := (meets_roundUpToMultipleOfN hpos hsize fuel).of_eq_ok h
    omega

theorem le_mul_nrClusters (size : ℕ) : size ≤ 512 * nrClusters size := by
  rw [nrClusters]
  omega

/-! ### The clusters that a write takes -/

/-- One cluster after the other, up to the mark at the end. -/
def Linked (v : Volume) (d : Disk) : List ℕ → Prop
  | [] => True
  | [n] => fatRead v n d = eocMax
  | n :: m :: l => fatRead v n d = m ∧ Linked v d (m :: l)

/-- **Clusters are claimed**: they are linked, behind a previous one if there is one, and the data
are in them. Nothing else changes. -/
structure Claimed (v : Volume) (content : Mem) (i prev : ℕ) (fs : List ℕ) (d d' : Disk) :
    Prop where
  table : ∀ j, j ∉ fs → (j ≠ prev ∨ prev = 0 ∨ fs = []) → fatRead v j d' = fatRead v j d
  previous : prev ≠ 0 → ∀ f ∈ fs.head?, fatRead v prev d' = f
  linked : Linked v d' fs
  data : ∀ j f, fs[j]? = some f → v.place f ≤ v.endBlock →
    d' (v.place f) = chunk content (u32 (i + 512 * j))
  others : ∀ n, n ∉ fs → d' (v.place n) = d (v.place n)

theorem Claimed.nil (v : Volume) (content : Mem) (i prev : ℕ) (d : Disk) :
    Claimed v content i prev [] d d where
  table _ _ _ := rfl
  previous _ f hf := by cases hf
  linked := trivial
  data j f hf := by cases hf
  others _ _ := rfl

/-- What one round of the loop does. -/
def claim (v : Volume) (content : Mem) (i prev curr : ℕ) (d : Disk) : Disk :=
  let d := clusterWrite v curr (chunk content i) d
  let d := fatWrite v curr eocMax d
  if prev ≠ 0 then fatWrite v prev curr d else d

section

variable {f : ℕ} (hv : v.Valid) (hf : f < v.nrSingleFatEntries)

include hv hf

theorem fatRead_claim_of_ne {j : ℕ} (hj : j ≠ f) (hprev : j ≠ prev ∨ prev = 0) :
    fatRead v j (claim v content i prev f d) = fatRead v j d := by
  rw [claim]
  split_ifs with h
  · rw [fatRead_fatWrite_of_ne hv (hprev.resolve_right h), fatRead_fatWrite_of_ne hv hj,
      fatRead_clusterWrite hv hf]
  · rw [fatRead_fatWrite_of_ne hv hj, fatRead_clusterWrite hv hf]

theorem fatRead_claim_self (hne : prev ≠ f) : fatRead v f (claim v content i prev f d) = eocMax := by
  have heoc : fatRead v f (fatWrite v f eocMax (clusterWrite v f (chunk content i) d)) = eocMax :=
    fatRead_fatWrite_self hv hf (by decide)
  rw [claim]
  split_ifs
  · rw [fatRead_fatWrite_of_ne hv hne.symm, heoc]
  · exact heoc

theorem fatRead_claim_prev (hprev : prev ≠ 0) (hlt : prev < v.nrSingleFatEntries) :
    fatRead v prev (claim v content i prev f d) = f := by
  rw [claim, if_pos hprev]
  refine fatRead_fatWrite_self hv hlt ?_
  have hno := lt_noCluster hv hf
  rw [noCluster] at hno
  omega

theorem claim_place_of_ne (hn : n ≠ f) : claim v content i prev f d (v.place n) = d (v.place n) := by
  have hwrite : clusterWrite v f (chunk content i) d (v.place n) = d (v.place n) :=
    clusterWrite_of_ne hv hf (place_ne_place hv hn)
  rw [claim]
  split_ifs
  · rw [fatWrite_place hv, fatWrite_place hv, hwrite]
  · rw [fatWrite_place hv, hwrite]

theorem claim_place_self (hplace : v.place f ≤ v.endBlock) :
    claim v content i prev f d (v.place f) = chunk content i := by
  have hwrite : clusterWrite v f (chunk content i) d (v.place f) = chunk content i := by
    rw [clusterWrite, Volume.writeBlock, clusterBlock? hv hf, if_neg (not_lt.mpr hplace)]
    exact Function.update_self ..
  rw [claim]
  split_ifs
  · rw [fatWrite_place hv, fatWrite_place hv, hwrite]
  · rw [fatWrite_place hv, hwrite]

end

/-- The counter of the loop, some rounds after the next one. -/
theorem u32_add_rounds (i k : ℕ) : u32 (u32 (i + 512) + 512 * k) = u32 (i + 512 * (k + 1)) := by
  rw [u32, u32, u32, Nat.mod_add_mod]
  exact congrArg (· % 2 ^ 32) (by ring)

theorem freeClusters_claim (hv : v.Valid) {f : ℕ} (hfree : freeClusters v d = f :: fs)
    (hf0 : f ≠ 0) (hprev : prev ≠ 0 → fatRead v prev d ≠ 0) :
    freeClusters v (claim v content i prev f d) = fs := by
  obtain ⟨hf, hzero⟩ := mem_freeClusters.mp (hfree ▸ List.mem_cons_self : f ∈ freeClusters v d)
  have hfree₁ : freeClusters v (fatWrite v f eocMax (clusterWrite v f (chunk content i) d)) = fs := by
    refine freeClusters_fatWrite_head hv ?_ (by decide) (by decide)
    rw [freeClusters_clusterWrite hv hf, hfree]
  rw [claim]
  split_ifs with h
  · have hne : prev ≠ f := fun heq => hprev h (heq ▸ hzero)
    have hno := lt_noCluster hv hf
    rw [noCluster] at hno
    rw [freeClusters_fatWrite_of_ne_zero hv ?_ hf0 (by omega), hfree₁]
    rw [fatRead_fatWrite_of_ne hv hne, fatRead_clusterWrite hv hf]
    exact hprev h
  · exact hfree₁

/-- **One more cluster** in front of those that are claimed behind it. -/
theorem Claimed.cons (hv : v.Valid) {f : ℕ} (hf : f < v.nrSingleFatEntries) (hf0 : f ≠ 0)
    (hi : i < 2 ^ 32) (hprev : prev ≠ 0 → prev < v.nrSingleFatEntries) (hne : prev ≠ f)
    (hmem : f ∉ fs) (hmem' : prev ∉ fs)
    (h : Claimed v content (u32 (i + 512)) f fs (claim v content i prev f d) d') :
    Claimed v content i prev (f :: fs) d d' where
  table j hj hor := by
    have hjf : j ≠ f := List.ne_of_not_mem_cons hj
    rw [h.table j (List.not_mem_of_not_mem_cons hj) (Or.inl hjf)]
    refine fatRead_claim_of_ne hv hf hjf ?_
    rcases hor with hj | h0 | hnil
    · exact Or.inl hj
    · exact Or.inr h0
    · cases hnil
  previous h0 f' hf' := by
    obtain rfl : f = f' := Option.some.inj hf'
    rw [h.table prev hmem' (Or.inl hne)]
    exact fatRead_claim_prev hv hf h0 (hprev h0)
  linked := by
    cases fs with
    | nil =>
      change fatRead v f d' = eocMax
      rw [h.table f hmem (Or.inr (Or.inr rfl))]
      exact fatRead_claim_self hv hf hne
    | cons f' fs => exact ⟨h.previous hf0 f' rfl, h.linked⟩
  data j f' hj hplace := by
    rcases j with _ | j
    · obtain rfl : f = f' := Option.some.inj hj
      rw [h.others f hmem, claim_place_self hv hf hplace, Nat.mul_zero, Nat.add_zero]
      exact congrArg _ (Nat.mod_eq_of_lt hi).symm
    · rw [h.data j f' hj hplace, u32_add_rounds]
  others n hn := by
    rw [h.others n (List.not_mem_of_not_mem_cons hn)]
    exact claim_place_of_ne hv hf (List.ne_of_not_mem_cons hn)

/-- **So many rounds of the loop** take so many free clusters. -/
theorem setContentLoop_rounds (hv : v.Valid) (k : ℕ) :
    ∀ {i prev : ℕ} {d : Disk}, i < 2 ^ 32 → 0 ∉ freeClusters v d →
      (prev ≠ 0 → fatRead v prev d ≠ 0 ∧ prev < v.nrSingleFatEntries) →
      k ≤ (freeClusters v d).length → (∀ j < k, u32 (i + 512 * j) < bufSize) →
      ∃ prev' d', Claimed v content i prev ((freeClusters v d).take k) d d' ∧
        freeClusters v d' = (freeClusters v d).drop k ∧ ∀ fuel,
          setContentLoop v content bufSize (fuel + k) i prev (fatFindFreeCluster v d) d =
            setContentLoop v content bufSize fuel (u32 (i + 512 * k)) prev'
              (fatFindFreeCluster v d') d' := by
  induction k with
  | zero =>
    intro i prev d hi h0 hprev hk hround
    refine ⟨prev, d, Claimed.nil .., rfl, fun fuel => ?_⟩
    rw [Nat.mul_zero, Nat.add_zero, Nat.add_zero, u32, Nat.mod_eq_of_lt hi]
  | succ k ih =>
    intro i prev d hi h0 hprev hk hround
    rcases hfree : freeClusters v d with _ | ⟨f, fs⟩
    · rw [hfree] at hk
      exact absurd hk (by simp)
    rw [hfree] at hk h0
    -- This round claims `f`, the first free cluster. The rounds behind it find the others free.
    obtain ⟨hf, hzero⟩ := mem_freeClusters.mp (hfree ▸ List.mem_cons_self : f ∈ freeClusters v d)
    have hf0 : f ≠ 0 := fun heq => h0 (heq ▸ List.mem_cons_self)
    have hne : prev ≠ f := by
      rintro rfl
      exact (hprev hf0).1 hzero
    have hfree₁ : freeClusters v (claim v content i prev f d) = fs :=
      freeClusters_claim hv hfree hf0 fun h => (hprev h).1
    have hprev₁ : fatRead v f (claim v content i prev f d) ≠ 0 := by
      rw [fatRead_claim_self hv hf hne]
      decide
    obtain ⟨prev', d', hclaimed, hfree', hloop⟩ := @ih (u32 (i + 512)) f
      (claim v content i prev f d) (Nat.mod_lt _ (by decide))
      (by rw [hfree₁]; exact fun hmem => h0 (List.mem_cons_of_mem f hmem))
      (fun _ => ⟨hprev₁, hf⟩) (by rw [hfree₁]; exact Nat.le_of_succ_le_succ hk)
      (fun j hj => by rw [u32_add_rounds]; exact hround (j + 1) (Nat.succ_lt_succ hj))
    rw [hfree₁] at hclaimed hfree'
    have hnodup : (f :: fs).Nodup := hfree ▸ nodup_freeClusters v d
    have hprevMem : prev ∉ fs := by
      intro hmem
      have hzero' := (mem_freeClusters.mp (hfree ▸ List.mem_cons_of_mem f hmem : prev ∈ _)).2
      have hprev0 : prev ≠ 0 := fun heq => h0 (heq ▸ List.mem_cons_of_mem f hmem)
      exact (hprev hprev0).1 hzero'
    refine ⟨prev', d', ?_, hfree', fun fuel => ?_⟩
    · exact hclaimed.cons hv hf hf0 hi (fun h => (hprev h).2) hne
        (fun hmem => (List.nodup_cons.mp hnodup).1 (List.mem_of_mem_take hmem))
        fun hmem => hprevMem (List.mem_of_mem_take hmem)
    · have hfirst : i < bufSize := by
        have hlt := hround 0 (Nat.succ_pos k)
        rwa [Nat.mul_zero, Nat.add_zero, u32, Nat.mod_eq_of_lt hi] at hlt
      have hcurr : fatFindFreeCluster v d = f := by rw [fatFindFreeCluster_eq hv, hfree]; rfl
      rw [← u32_add_rounds, ← hloop, hcurr, ← Nat.add_assoc, setContentLoop, if_pos hfirst,
        if_neg (lt_noCluster hv hf).ne]
      rfl

/-! ### What a write does -/

/-- The directory entry is where the inode says. -/
structure HasDentry (v : Volume) (inode : Inode) : Prop where
  cluster : v.HasCluster inode.parentCluster
  slot : inode.parentOffset ∈ slots

theorem updateDentryToDisk_eq (hv : v.Valid) (h : HasDentry v inode) (callback : Entry → Entry)
    (d : Disk) : updateDentryToDisk v inode callback d =
      Function.update d (v.place inode.parentCluster) (putEntry (d (v.place inode.parentCluster))
        inode.parentOffset (callback (entryAt (d (v.place inode.parentCluster)) inode.parentOffset))) := by
  rw [updateDentryToDisk, if_neg (h.cluster.not_isEoc hv), clusterRead_eq hv h.cluster.2,
    clusterWrite_eq hv h.cluster.2]

theorem fatRead_updateDentryToDisk (hv : v.Valid) (h : HasDentry v inode)
    (callback : Entry → Entry) (i : ℕ) :
    fatRead v i (updateDentryToDisk v inode callback d) = fatRead v i d := by
  rw [updateDentryToDisk, if_neg (h.cluster.not_isEoc hv)]
  exact fatRead_clusterWrite hv (h.cluster.lt_nr hv) i

/-- The disk that the loop of `set_content` starts with. -/
def beforeWrite (v : Volume) (inode : Inode) (d : Disk) : Disk :=
  if inode.firstCluster = 0 then allocateFirstCluster v inode d else d

theorem fatRead_beforeWrite (hv : v.Valid) (h : HasDentry v inode) (i : ℕ) :
    fatRead v i (beforeWrite v inode d) = fatRead v i d := by
  rw [beforeWrite]
  split_ifs with h0
  · rw [allocateFirstCluster, if_neg (not_not.mpr h0), fatRead_updateDentryToDisk hv h]
  · rfl

theorem freeClusters_beforeWrite (hv : v.Valid) (h : HasDentry v inode) :
    freeClusters v (beforeWrite v inode d) = freeClusters v d :=
  freeClusters_congr fun i _ => by rw [fatRead_beforeWrite hv h]

/-- **There is room** for so many bytes: enough clusters are free, and the counter of the loop gets
to the end. -/
def HasRoom (v : Volume) (size : ℕ) (d : Disk) : Prop :=
  nrClusters size ≤ (freeClusters v d).length ∧ 512 * nrClusters size + 512 ≤ 2 ^ 32

section

variable {size : ℕ} (hv : v.Valid) (h : HasDentry v inode) (h0 : 0 ∉ freeClusters v d)

include hv h h0

/-- **A write with room**: clusters are taken, and the size is written to the directory entry. -/
theorem setContent_of_room (content : Mem) (hsize : size + 512 ≤ sizeMod) (hroom : HasRoom v size d) :
    ∃ d', Claimed v content 0 0 ((freeClusters v d).take (nrClusters size))
        (beforeWrite v inode d) d' ∧
      ∀ fuel, nrClusters size < fuel → setContent v inode fuel content size d =
        .ok ({ inode with size := size },
          updateDentryToDisk v inode (fun dentry => dentry.setSize size) d') := by
  have hround : ∀ j < nrClusters size, u32 (0 + 512 * j) < 512 * nrClusters size := by
    intro j hj
    have hle : u32 (0 + 512 * j) ≤ 512 * j := by
      rw [Nat.zero_add]
      exact Nat.mod_le ..
    omega
  obtain ⟨prev', d', hclaimed, -, hloop⟩ := @setContentLoop_rounds v content
    (512 * nrClusters size) hv (nrClusters size) 0 0 (beforeWrite v inode d) (by decide)
    (by rwa [freeClusters_beforeWrite hv h]) (fun h => absurd rfl h)
    (by rw [freeClusters_beforeWrite hv h]; exact hroom.1) hround
  rw [freeClusters_beforeWrite hv h] at hclaimed
  refine ⟨d', hclaimed, fun fuel hfuel => ?_⟩
  have hend : u32 (0 + 512 * nrClusters size) = 512 * nrClusters size := by
    rw [Nat.zero_add]
    exact Nat.mod_eq_of_lt (by have := hroom.2; omega)
  obtain ⟨extra, rfl⟩ := Nat.exists_eq_add_of_lt hfuel
  have hrun := hloop (extra + 1)
  rw [hend, setContentLoop, if_neg (lt_irrefl _)] at hrun
  rw [setContent, roundUpToMultipleOfN_eq hsize (by omega), ok_bind]
  change setContentLoop v content _ _ 0 0 (fatFindFreeCluster v (beforeWrite v inode d))
    (beforeWrite v inode d) >>= _ = _
  rw [show nrClusters size + extra + 1 = extra + 1 + nrClusters size by omega, hrun]
  rfl

/-- **A write without room** takes all the clusters there are, and returns. -/
theorem setContent_of_shortage (content : Mem) (hsize : size + 512 ≤ sizeMod)
    (hroom : ¬HasRoom v size d) :
    ∃ d', Claimed v content 0 0 (freeClusters v d) (beforeWrite v inode d) d' ∧
      freeClusters v d' = [] ∧
      ∃ bound, ∀ fuel, bound < fuel → setContent v inode fuel content size d = .ok (inode, d') := by
  have hround : ∀ j ≤ (freeClusters v d).length, u32 (0 + 512 * j) < 512 * nrClusters size := by
    intro j hj
    rcases not_and_or.mp hroom with hlen | hbig
    · have hle : u32 (0 + 512 * j) ≤ 512 * j := by
        rw [Nat.zero_add]
        exact Nat.mod_le ..
      omega
    · have hlt : u32 (0 + 512 * j) < 2 ^ 32 := Nat.mod_lt _ (by decide)
      omega
  obtain ⟨prev', d', hclaimed, hfree', hloop⟩ := @setContentLoop_rounds v content
    (512 * nrClusters size) hv (freeClusters v d).length 0 0 (beforeWrite v inode d) (by decide)
    (by rwa [freeClusters_beforeWrite hv h])
    (fun h => absurd rfl h) (by rw [freeClusters_beforeWrite hv h])
    (fun j hj => hround j hj.le)
  rw [freeClusters_beforeWrite hv h, List.take_length] at hclaimed
  rw [freeClusters_beforeWrite hv h, List.drop_length] at hfree'
  refine ⟨d', hclaimed, hfree', (freeClusters v d).length + nrClusters size, fun fuel hfuel => ?_⟩
  obtain ⟨extra, rfl⟩ := Nat.exists_eq_add_of_lt hfuel
  have hrun := hloop (nrClusters size + extra + 1)
  have hcurr : fatFindFreeCluster v d' = noCluster := by
    rw [fatFindFreeCluster_eq hv, hfree']
    rfl
  rw [setContentLoop, if_pos (hround _ le_rfl), hcurr, if_pos rfl] at hrun
  rw [setContent, roundUpToMultipleOfN_eq hsize (by omega), ok_bind]
  change setContentLoop v content _ _ 0 0 (fatFindFreeCluster v (beforeWrite v inode d))
    (beforeWrite v inode d) >>= _ = _
  rw [show (freeClusters v d).length + nrClusters size + extra + 1 =
    nrClusters size + extra + 1 + (freeClusters v d).length by omega, hrun]
  rfl

end

theorem putEntry_entryAt (b : Block) (o : ℕ) : putEntry b o (entryAt b o) = b := by
  funext x
  rw [putEntry]
  split_ifs with h
  · exact congrArg b (Nat.add_sub_cancel' h.1)
  · rfl

/-- **A write to a full volume** changes nothing. -/
theorem setContent_of_full (hv : v.Valid) (h : HasDentry v inode) (hfree : freeClusters v d = [])
    (content : Mem) {size : ℕ} (hsize : size + 512 ≤ sizeMod) (hfuel : nrClusters size ≤ fuel) :
    setContent v inode fuel content size d = .ok (inode, d) := by
  have hcurr : fatFindFreeCluster v d = noCluster := by
    rw [fatFindFreeCluster_eq hv, hfree]
    rfl
  have hbefore : beforeWrite v inode d = d := by
    rw [beforeWrite]
    split_ifs with h0
    · rw [allocateFirstCluster, if_neg (not_not.mpr h0), updateDentryToDisk_eq hv h]
      dsimp only
      rw [if_pos hcurr, putEntry_entryAt, Function.update_eq_self]
    · rfl
  have hpos : 0 < 512 * nrClusters size := by
    rw [nrClusters]
    omega
  obtain ⟨fuel, rfl⟩ := Nat.exists_eq_add_one_of_ne_zero (show fuel ≠ 0 by omega)
  rw [setContent, roundUpToMultipleOfN_eq hsize hfuel, ok_bind]
  change setContentLoop v content _ _ 0 0 (fatFindFreeCluster v (beforeWrite v inode d))
    (beforeWrite v inode d) >>= _ = _
  rw [hbefore, setContentLoop, if_pos hpos, hcurr, if_pos rfl]
  rfl

end

end Valkyrie.Fat32
