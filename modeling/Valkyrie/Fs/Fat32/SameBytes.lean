import Valkyrie.Base.Relate
import Valkyrie.Fs.Fat32.Content

/-!
# What a write depends on

`set_content` writes whole blocks, from a buffer that need not be as long. Two runs of it, with
buffers that agree where the blocks come from, leave the same 512 bytes in every block
(`Valkyrie.Fat32.related_setContent`). A block that goes to a cluster beyond the end of the partition
is not read at all.
-/

namespace Valkyrie.Fat32

open Exec Function

/-- The 512 bytes of two blocks are the same. -/
def SameBlock (b b' : Block) : Prop := ∀ x < 512, b x = b' x

/-- **Two disks are the same**, in the bytes that a block has. -/
def SameBytes (d d' : Disk) : Prop := ∀ n, SameBlock (d n) (d' n)

section

variable {v : Volume} {d d' : Disk} {b b' : Block} {inode : Inode} {i n x prev : ℕ}

theorem SameBytes.refl (d : Disk) : SameBytes d d := fun _ _ _ => rfl

theorem SameBlock.u32At (h : SameBlock b b') (hi : i < nrFatEntriesPerSector) :
    u32At b i = u32At b' i :=
  congrArg BitVec.toNat (Mem.readBytes_congr fun k hk =>
    h _ (by rw [nrFatEntriesPerSector] at hi; omega))

theorem writeBytes_congr {m m' : Mem} {a n b : ℕ} {w : BitVec (8 * n)} (h : m b = m' b) :
    m.writeBytes a n w b = m'.writeBytes a n w b := by
  induction n generalizing a with
  | zero => exact h
  | succ n ih =>
    rw [Mem.writeBytes, Mem.writeBytes]
    by_cases hb : b = a
    · rw [hb, update_self, update_self]
    · rw [update_of_ne hb, update_of_ne hb, ih]

theorem SameBlock.setU32At (h : SameBlock b b') (i x : ℕ) :
    SameBlock (setU32At b i x) (setU32At b' i x) :=
  fun y hy => writeBytes_congr (h y hy)

theorem SameBytes.update (h : SameBytes d d') (hb : SameBlock b b') (n : ℕ) :
    SameBytes (update d n b) (update d' n b') := by
  intro m
  by_cases hm : m = n
  · rw [hm, update_self, update_self]
    exact hb
  · rw [update_of_ne hm, update_of_ne hm]
    exact h m

theorem SameBytes.readBlock (h : SameBytes d d') (index : ℕ) (buf : Block) :
    SameBlock (v.readBlock index buf d) (v.readBlock index buf d') := by
  rw [Volume.readBlock, Volume.readBlock]
  cases v.block? index with
  | none => exact fun _ _ => rfl
  | some n => exact h n

theorem SameBytes.writeBlock (h : SameBytes d d') (hb : SameBlock b b') (index : ℕ) :
    SameBytes (v.writeBlock index b d) (v.writeBlock index b' d') := by
  rw [Volume.writeBlock, Volume.writeBlock]
  cases v.block? index with
  | none => exact h
  | some n => exact h.update hb n

theorem SameBytes.fatWrite (h : SameBytes d d') (i x : ℕ) :
    SameBytes (fatWrite v i x d) (fatWrite v i x d') := by
  rw [Fat32.fatWrite, Fat32.fatWrite]
  split_ifs
  · exact h
  · exact h.writeBlock ((h.readBlock _ _).setU32At _ _) _

theorem SameBytes.findFreeLoop (h : SameBytes d d') (n index : ℕ) :
    findFreeLoop v d n index = findFreeLoop v d' n index := by
  induction n generalizing index with
  | zero => rfl
  | succ n ih =>
    have hfind : ((List.range nrFatEntriesPerSector).find? fun i =>
        u32At (v.readBlock index v.stack d) i = 0) =
        (List.range nrFatEntriesPerSector).find? fun i =>
          u32At (v.readBlock index v.stack d') i = 0 :=
      List.find?_congr fun i hi => by rw [(h.readBlock index v.stack).u32At (List.mem_range.mp hi)]
    rw [Fat32.findFreeLoop, Fat32.findFreeLoop, hfind, ih]

theorem SameBytes.fatFindFreeCluster (h : SameBytes d d') :
    fatFindFreeCluster v d = fatFindFreeCluster v d' :=
  h.findFreeLoop _ _

/-- A block that is not there is not read. -/
theorem SameBytes.clusterWrite (h : SameBytes d d') (n : ℕ)
    (hb : v.block? (v.clusterSectorIndex n) = none ∨ SameBlock b b') :
    SameBytes (clusterWrite v n b d) (clusterWrite v n b' d') := by
  rcases hb with hnone | hb
  · rw [Fat32.clusterWrite, Fat32.clusterWrite, Volume.writeBlock, Volume.writeBlock, hnone]
    exact h
  · exact h.writeBlock hb _

theorem SameBlock.entryAt (h : SameBlock b b') {o : ℕ} (ho : o ∈ slots) :
    entryAt b o = entryAt b' o := by
  obtain ⟨k, hk, rfl⟩ := List.mem_map.mp ho
  have hlt := List.mem_range.mp hk
  funext i
  exact h _ (by omega)

theorem SameBlock.putEntry (h : SameBlock b b') (o : ℕ) (e : Entry) :
    SameBlock (putEntry b o e) (putEntry b' o e) := by
  intro x hx
  rw [Fat32.putEntry, Fat32.putEntry, h x hx]

theorem SameBytes.updateDentryToDisk (h : SameBytes d d') (ho : inode.parentOffset ∈ slots)
    (callback : Entry → Entry) :
    SameBytes (updateDentryToDisk v inode callback d) (updateDentryToDisk v inode callback d') := by
  rw [Fat32.updateDentryToDisk, Fat32.updateDentryToDisk]
  split_ifs
  · exact h
  · have hread := h.readBlock (v := v) (v.clusterSectorIndex inode.parentCluster) fun _ => 0
    refine h.clusterWrite _ (.inr ?_)
    rw [Fat32.clusterRead, Fat32.clusterRead, hread.entryAt ho]
    exact hread.putEntry _ _

/-! ### Two runs of `set_content` -/

variable {content content' : Mem} {bufSize fuel : ℕ}

/-- One round of the loop, with two buffers. -/
theorem SameBytes.claim (h : SameBytes d d')
    (hb : v.block? (v.clusterSectorIndex n) = none ∨
      SameBlock (chunk content i) (chunk content' i)) :
    SameBytes (claim v content i prev n d) (claim v content' i prev n d') := by
  have hwrite := (h.clusterWrite n hb).fatWrite (v := v) n eocMax
  rw [Fat32.claim, Fat32.claim]
  split_ifs
  · exact hwrite.fatWrite prev n
  · exact hwrite

/-- The block that the `k`-th free cluster gets is the same in both buffers, or the cluster is not
there. -/
def SameChunks (v : Volume) (content content' : Mem) (bufSize i : ℕ) (fs : List ℕ) : Prop :=
  ∀ k f, fs[k]? = some f → u32 (i + 512 * k) < bufSize → v.endBlock < v.place f ∨
    SameBlock (chunk content (u32 (i + 512 * k))) (chunk content' (u32 (i + 512 * k)))

/-- What two runs return: the same, and the disks are the same. -/
def SameResult {α : Type} (r r' : α × Disk) : Prop := r.1 = r'.1 ∧ SameBytes r.2 r'.2

theorem related_setContentLoop (hv : v.Valid) (fuel : ℕ) :
    ∀ {i prev : ℕ} {d d' : Disk}, SameBytes d d' → 0 ∉ freeClusters v d →
      (prev ≠ 0 → fatRead v prev d ≠ 0) → i < 2 ^ 32 →
      SameChunks v content content' bufSize i (freeClusters v d) →
      Related SameResult
        (setContentLoop v content bufSize fuel i prev (fatFindFreeCluster v d) d)
        (setContentLoop v content' bufSize fuel i prev (fatFindFreeCluster v d') d') := by
  induction fuel with
  | zero => exact fun _ _ _ _ _ => .error _
  | succ fuel ih =>
    intro i prev d d' h h0 hprev hi hchunks
    rw [← h.fatFindFreeCluster, setContentLoop, setContentLoop]
    by_cases hlt : i < bufSize
    swap
    · rw [if_neg hlt, if_neg hlt]
      exact .ok ⟨rfl, h⟩
    rw [if_pos hlt, if_pos hlt]
    rcases hfree : freeClusters v d with _ | ⟨f, fs⟩
    · rw [fatFindFreeCluster_eq hv, hfree]
      exact .ok ⟨rfl, h⟩
    -- Both runs claim the same cluster, since the tables are the same.
    rw [hfree] at hchunks h0
    obtain ⟨hf, hzero⟩ := mem_freeClusters.mp (hfree ▸ List.mem_cons_self : f ∈ freeClusters v d)
    have hf0 : f ≠ 0 := fun heq => h0 (heq ▸ List.mem_cons_self)
    have hne : prev ≠ f := by
      rintro rfl
      exact hprev hf0 hzero
    have hcurr : fatFindFreeCluster v d = f := by rw [fatFindFreeCluster_eq hv, hfree]; rfl
    have hfirst : u32 (i + 512 * 0) = i := Nat.mod_eq_of_lt hi
    have hclaim : SameBytes (Fat32.claim v content i prev f d)
        (Fat32.claim v content' i prev f d') := by
      refine h.claim ?_
      rw [clusterBlock? hv hf]
      refine (hchunks 0 f rfl (by rwa [hfirst])).imp (fun hend => if_pos hend) fun hsame => ?_
      rwa [hfirst] at hsame
    have hfree₁ : freeClusters v (Fat32.claim v content i prev f d) = fs :=
      freeClusters_claim hv hfree hf0 hprev
    rw [hcurr, if_neg (lt_noCluster hv hf).ne, if_neg (lt_noCluster hv hf).ne]
    refine @ih (u32 (i + 512)) f (Fat32.claim v content i prev f d)
      (Fat32.claim v content' i prev f d') hclaim ?_ ?_ (Nat.mod_lt _ (by decide)) ?_
    · rw [hfree₁]
      exact fun hmem => h0 (List.mem_cons_of_mem f hmem)
    · intro _
      rw [fatRead_claim_self hv hf hne]
      decide
    · rw [hfree₁]
      intro k f' hk
      rw [u32_add_rounds]
      exact hchunks (k + 1) f' hk

/-- **Two runs of `set_content`** with buffers that agree where the blocks come from. -/
theorem related_setContent (hv : v.Valid) (h : HasDentry v inode) (h0 : 0 ∉ freeClusters v d)
    {size : ℕ} (hchunks : ∀ bufSize, roundUpToMultipleOfN fuel size 512 = .ok bufSize →
      SameChunks v content content' bufSize 0 (freeClusters v d)) :
    Related SameResult (setContent v inode fuel content size d)
      (setContent v inode fuel content' size d) := by
  refine Related.bind_same fun bufSize hbuf => ?_
  refine (related_setContentLoop hv fuel (SameBytes.refl (beforeWrite v inode d)) ?_
    (fun h => absurd rfl h) (by decide) ?_).bind ?_
  · rwa [freeClusters_beforeWrite hv h]
  · rw [freeClusters_beforeWrite hv h]
    exact hchunks bufSize hbuf
  · rintro ⟨done, d₁⟩ ⟨done', d₂⟩ ⟨hdone, hsame⟩
    obtain rfl : done = done' := hdone
    have hdisk : SameBytes d₁ d₂ := hsame
    have hdentry := hdisk.updateDentryToDisk (v := v) h.slot fun dentry => dentry.setSize size
    cases done with
    | true => exact .ok ⟨rfl, hdentry⟩
    | false => exact .ok ⟨rfl, hsame⟩

end

end Valkyrie.Fat32
