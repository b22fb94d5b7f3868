import Valkyrie.Fs.Fat32.Content
import Valkyrie.Fs.VirtualFileSystem.ReadLength
import Valkyrie.Fs.VirtualFileSystem.Mount

/-!
# Writing to a volume that is full

`write` of a FAT32 file hands the bytes to `set_content`, which has no result. If the free clusters
do not suffice, `set_content` has taken all of them by the time it finds out, and a file that had no
cluster has got a first one in its directory entry. `write` returns the length as if nothing had
happened.

So a write that does not fit is never reported, and it changes nothing only if there was no free
cluster to begin with (`Valkyrie.Vfs.not_failsCleanly`), or if the kernel has no buffer of this
length and aborts.
-/

namespace Valkyrie.Vfs

open Exec Fat32

/-- The memory from a buffer on. -/
def bufferOf (bytes : List UInt8) (heap : Mem) : Mem := fun x => bytes.getD x (heap x)

/-- `write`. The content of a FAT32 file goes to the disk. -/
def writeOn (vol : Volume) (fuel f : ℕ) (bytes : List UInt8) (heap : Mem) (d : Disk)
    (s : State) : Exec (ℤ × State × Disk) := do
  let file ← s.readFile f
  match file.vnode with
  | none => .error .wild
  | some v =>
    let vnode ← s.readVnode v
    match vnode.impl with
    | .fat32 .. =>
      if vnode.isRegularFile then
        -- `make_unique<char[]>(len)`
        operatorNew bytes.length
        let (inode, d) ← Fat32.setContent vol (inodeOfVnode vnode) fuel (bufferOf bytes heap)
          bytes.length d
        let s := s.setVnode v { vnode with size := inode.size }
        return (toInt bytes.length, s.setPos f (toSize (file.pos + bytes.length)), d)
      else
        let (ret, s) ← write f bytes s
        return (ret, s, d)
    | _ =>
      let (ret, s) ← write f bytes s
      return (ret, s, d)

variable {vol : Volume} {d d' : Disk} {s : State} {vnode : Vnode}
  {fuel f v root : ℕ} {bytes : List UInt8} {heap : Mem}

/-- **The disk is left as it was**: the first table, the directory entry, and what can be read of
the file. -/
structure LeavesDisk (vol : Volume) (inode : Inode) (d d' : Disk) : Prop where
  table : ∀ i, fatRead vol i d' = fatRead vol i d
  dentry : entryAt (d' (vol.place inode.parentCluster)) inode.parentOffset =
    entryAt (d (vol.place inode.parentCluster)) inode.parentOffset
  content : ∀ fuel, Fat32.getContent vol inode fuel d' = Fat32.getContent vol inode fuel d

/-- **A write fails cleanly**: it leaves the disk as it was, and it does not return what a write of
so many bytes returns. -/
def FailsCleanly (vol : Volume) (f : ℕ) (vnode : Vnode) (bytes : List UInt8) (heap : Mem)
    (d : Disk) (s : State) : Prop :=
  ∃ ret s' d' bound, (∀ fuel, bound < fuel → writeOn vol fuel f bytes heap d s = .ok (ret, s', d')) ∧
    LeavesDisk vol (inodeOfVnode vnode) d d' ∧ ret ≠ toInt bytes.length

/-- A regular file of a volume is open. -/
structure OpenFatFile (vol : Volume) (f v : ℕ) (vnode : Vnode) (s : State) : Prop where
  valid : vol.Valid
  file : ∃ pos options, s.files f = some ⟨some v, pos, options⟩
  found : s.vnodes v = some vnode
  fat : ∃ root, OfFat root vnode
  regular : vnode.isRegularFile = true
  dentry : HasDentry vol (inodeOfVnode vnode)

/-- The vnode has this size, and the file is at this position. -/
def written (f v : ℕ) (vnode : Vnode) (size pos : ℕ) (s : State) : State :=
  (s.setVnode v { vnode with size := size }).setPos f pos

/-- **`write` returns the length**, whatever becomes of the content, if there is a buffer of this
length. -/
theorem OpenFatFile.writeOn_eq (h : OpenFatFile vol f v vnode s) {pos options : ℕ}
    (hfile : s.files f = some ⟨some v, pos, options⟩) :
    writeOn vol fuel f bytes heap d s = (operatorNew bytes.length >>= fun _ =>
      Fat32.setContent vol (inodeOfVnode vnode) fuel (bufferOf bytes heap) bytes.length d >>= fun r =>
        .ok (toInt bytes.length, written f v vnode r.1.size (toSize (pos + bytes.length)) s, r.2)) := by
  obtain ⟨root, name, first, parent, offset, himpl⟩ := h.fat
  have hread : s.readFile f = .ok ⟨some v, pos, options⟩ := by rw [State.readFile, hfile]
  rw [writeOn, hread, ok_bind]
  dsimp only
  rw [readVnode_of_some h.found, ok_bind]
  simp only [himpl]
  rw [if_pos h.regular]
  simp only [written, himpl]
  rfl

/-- No write is reported to have failed. -/
theorem OpenFatFile.reports_length (h : OpenFatFile vol f v vnode s) :
    ¬FailsCleanly vol f vnode bytes heap d s := by
  rintro ⟨ret, s', d', bound, hwrite, -, hret⟩
  obtain ⟨pos, options, hfile⟩ := h.file
  have hok := (h.writeOn_eq hfile).symm.trans (hwrite (bound + 1) (Nat.lt_succ_self _))
  obtain ⟨⟨⟩, -, hok⟩ := bind_eq_ok.mp hok
  obtain ⟨r, -, hr⟩ := bind_eq_ok.mp hok
  exact hret (Prod.mk.inj (Except.ok.inj hr)).1.symm

/-- **A write that does not fit never fails cleanly**, for any file on any volume. If there is a
buffer for it, it returns, with the length as its result, and it leaves the disk as it was only if
no cluster at all was free. -/
theorem not_failsCleanly (h : OpenFatFile vol f v vnode s) (h0 : 0 ∉ freeClusters vol d)
    (hshort : (freeClusters vol d).length < nrClusters bytes.length) (heap : Mem) :
    ¬FailsCleanly vol f vnode bytes heap d s ∧ (operatorNew bytes.length = .ok () →
      ∃ s' d' bound, (∀ fuel, bound < fuel →
        writeOn vol fuel f bytes heap d s = .ok (toInt bytes.length, s', d')) ∧
          (LeavesDisk vol (inodeOfVnode vnode) d d' ↔ freeClusters vol d = [])) := by
  refine ⟨h.reports_length, fun hnew => ?_⟩
  have hlen : bytes.length + 512 ≤ sizeMod := by
    have := (operatorNew_eq_ok.mp hnew).2
    rw [sizeMod]
    omega
  have hroom : ¬HasRoom vol bytes.length d := fun hroom => by
    have hle := hroom.1
    omega
  obtain ⟨pos, options, hfile⟩ := h.file
  let s' := written f v vnode (inodeOfVnode vnode).size (toSize (pos + bytes.length)) s
  by_cases hfree : freeClusters vol d = []
  · refine ⟨s', d, nrClusters bytes.length, fun fuel hfuel => ?_,
      iff_of_true ⟨fun _ => rfl, rfl, fun _ => rfl⟩ hfree⟩
    rw [h.writeOn_eq hfile, hnew, ok_bind,
      setContent_of_full h.valid h.dentry hfree _ hlen hfuel.le, ok_bind]
  · obtain ⟨d', -, hfull, bound, hset⟩ :=
      setContent_of_shortage h.valid h.dentry h0 (bufferOf bytes heap) hlen hroom
    refine ⟨s', d', bound, fun fuel hfuel => ?_, iff_of_false (fun hleaves => hfree ?_) hfree⟩
    · rw [h.writeOn_eq hfile, hnew, ok_bind, hset fuel hfuel, ok_bind]
    · rw [← hfull]
      exact (freeClusters_congr fun i _ => by rw [hleaves.table]).symm

/-! ### A file on a volume with one free cluster -/

/-- A disk on which every file that is created gets the first entry of the root directory. -/
def oneFile : Env :=
  { noDisk with
    fatCreate := fun vnode name mode => match vnode.impl with
      | .fat32 root .. => some ⟨0, mode, 0, .fat32 root name 0 2 0⟩
      | _ => none }

theorem onDisk_oneFile : oneFile.OnDisk := by
  refine ⟨fun _ _ hchild => (by cases hchild), fun vnode name mode child hchild => ?_⟩
  obtain ⟨size, vmode, dev, impl⟩ := vnode
  cases impl with
  | fat32 root n first parent offset =>
    obtain rfl := Option.some.inj hchild
    exact ⟨_, _, _, _, rfl⟩
  | tmpfs => cases hchild
  | procfs => cases hchild

/-- A task creates `/a` on the volume. -/
def createA : Exec State := do
  let s ← mountRootfs (newFAT32 2 init).1 (newFAT32 2 init).2
  let s ← newTask 1 s
  let (_, s) ← sysOpen oneFile 1 1 [slash, 97] oCreat s
  return s

theorem run_createA : Ensures createA (Run Step init) := by
  refine ensures_bind fun s₁ h₁ => ensures_bind fun s₂ h₂ => ensures_bind fun ⟨_, s₃⟩ h₃ =>
    ensures_pure ?_
  exact ((Relation.ReflTransGen.single (.rootFAT32 2 h₁)).tail
    (.newTask 1 (no_fds h₁) h₂)).tail (.open onDisk_oneFile 1 1 _ (Or.inl rfl) _ h₃)

/-- Cluster 3 is free, and no other. The root directory has one entry, of an empty file. -/
def oneFree : Disk :=
  smallDisk (fun i => if i = 3 then 0 else eocMax) fun n =>
    if n = 2 then
      putEntry (fun _ => 0) 0
        (Entry.setName (fun _ => 0) [65, 32, 32, 32, 32, 32, 32, 32, 32, 32, 32])
    else fun _ => 0

theorem freeClusters_oneFree : freeClusters smallVolume oneFree = [3] := by
  decide +kernel

/-- The file of the descriptor, in the state after `/a` was created. -/
theorem exists_createA : ∃ s f v vnode, Run Step init s ∧ getFileByFd 1 3 s = some f ∧
    OpenFatFile smallVolume f v vnode s ∧ inodeOfVnode vnode = ⟨[97], 0, 2, 0, 0, sIfreg⟩ := by
  have hcheck : check (fun s => (getFileByFd 1 3 s).any fun f => (lookupFile f s).any fun r =>
      match r.2.2.impl with
      | .fat32 _ name first parent offset => decide (name = [97] ∧ first = 0 ∧ parent = 2 ∧
          offset = 0 ∧ r.2.2.size = 0 ∧ r.2.2.mode = sIfreg)
      | _ => false) createA = true := by decide +kernel
  obtain ⟨s, hs, htest⟩ := exists_ok_of_check hcheck
  obtain ⟨f, hf, htest⟩ := (Option.any_eq_true _ _).mp htest
  obtain ⟨⟨⟨vnode?, pos, options⟩, v, ⟨size, mode, dev, impl⟩⟩, hlookup, htest⟩ :=
    (Option.any_eq_true _ _).mp htest
  obtain ⟨hfile, hv, hvnode⟩ := lookupFile_eq_some hlookup
  obtain rfl : vnode? = some v := hv
  cases impl with
  | fat32 root name first parent offset =>
    obtain ⟨rfl, rfl, rfl, rfl, rfl, rfl⟩ := of_decide_eq_true htest
    have hdentry : HasDentry smallVolume ⟨[97], 0, 2, 0, 0, sIfreg⟩ :=
      ⟨⟨le_rfl, by decide⟩, by decide⟩
    have hregular : (sIfreg &&& sIfmt == sIfreg) = true := by decide
    exact ⟨s, f, v, _, run_createA s hs, hf, ⟨valid_smallVolume, ⟨pos, options, hfile⟩, hvnode,
      ⟨root, _, _, _, _, rfl⟩, hregular, hdentry⟩, rfl⟩
  | tmpfs => cases htest
  | procfs => cases htest

/-- Two clusters are needed, and one is free. -/
theorem not_failsCleanly_oneFree : ∃ s f v vnode, Run Step init s ∧ getFileByFd 1 3 s = some f ∧
    OpenFatFile smallVolume f v vnode s ∧
      (freeClusters smallVolume oneFree).length = 1 ∧
        ¬FailsCleanly smallVolume f vnode (List.replicate 513 65) (fun _ => 0) oneFree s := by
  obtain ⟨s, f, v, vnode, hrun, hf, h, -⟩ := exists_createA
  refine ⟨s, f, v, vnode, hrun, hf, h, by rw [freeClusters_oneFree]; rfl, ?_⟩
  refine (not_failsCleanly h ?_ ?_ _).1
  · rw [freeClusters_oneFree]
    decide
  · rw [freeClusters_oneFree, List.length_replicate]
    decide

/-- **What is left of a write that does not fit**: 513 bytes are written to a new file, and one
cluster is free. The result is 513; the cluster is taken, and it is the first cluster in the
directory entry of the file, the size of which is still 0. -/
theorem write_without_room : ∃ s f v vnode s' d' bound, Run Step init s ∧
    getFileByFd 1 3 s = some f ∧ OpenFatFile smallVolume f v vnode s ∧
      (∀ fuel, bound < fuel → writeOn smallVolume fuel f (List.replicate 513 65) (fun _ => 0)
        oneFree s = .ok (513, s', d')) ∧
      fatRead smallVolume 3 oneFree = 0 ∧
      fatRead smallVolume 3 d' = eocMax ∧
      (entryAt (oneFree (smallVolume.place 2)) 0).firstClusterNumber = 0 ∧
      (entryAt (d' (smallVolume.place 2)) 0).firstClusterNumber = 3 ∧
      (entryAt (d' (smallVolume.place 2)) 0).size = 0 ∧
      ¬FailsCleanly smallVolume f vnode (List.replicate 513 65) (fun _ => 0) oneFree s := by
  obtain ⟨s, f, v, vnode, hrun, hf, h, hinode⟩ := exists_createA
  obtain ⟨pos, options, hfile⟩ := h.file
  have hroom : ¬HasRoom smallVolume 513 oneFree := by
    rw [HasRoom, freeClusters_oneFree]
    decide
  have h0 : 0 ∉ freeClusters smallVolume oneFree := by
    rw [freeClusters_oneFree]
    decide
  obtain ⟨d', hclaimed, -, bound, hset⟩ := setContent_of_shortage h.valid h.dentry h0
    (bufferOf (List.replicate 513 65) fun _ => 0) (by decide) hroom
  rw [freeClusters_oneFree, hinode] at hclaimed
  -- The directory entry is as it was before the loop.
  have hdentry : entryAt (d' (smallVolume.place 2)) 0 = entryAt
      (beforeWrite smallVolume ⟨[97], 0, 2, 0, 0, sIfreg⟩ oneFree
        (smallVolume.place 2)) 0 := by
    rw [hclaimed.others 2 (by decide)]
  refine ⟨s, f, v, vnode, written f v vnode (inodeOfVnode vnode).size (toSize (pos + 513)) s, d',
    bound, hrun, hf, h, fun fuel hfuel => ?_, by decide +kernel, hclaimed.linked, by decide +kernel,
    ?_, ?_, h.reports_length⟩
  · rw [h.writeOn_eq hfile, List.length_replicate, operatorNew_eq_ok.mpr (by decide), ok_bind,
      hset fuel hfuel, ok_bind]
    rfl
  · rw [hdentry]
    decide +kernel
  · rw [hdentry]
    decide +kernel

end Valkyrie.Vfs
