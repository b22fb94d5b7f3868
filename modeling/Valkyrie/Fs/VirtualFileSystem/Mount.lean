import Valkyrie.Fs.VirtualFileSystem.Read

/-!
# Mount points

A lookup that comes to a mount point goes on in the file system that is mounted there.
Whether a vnode *is* a mount point is decided by comparing hash codes, since a FAT32 vnode
is made afresh for every lookup and its address says nothing.

`Valkyrie.Vfs.identity` is what a vnode stands for: an inode in memory stands for itself, a
FAT32 vnode for a directory or for a directory entry. Redirection is exact in a state
(`Valkyrie.Vfs.RedirectsExactly`) when a lookup finds a mount if and only if it has come to
what the mount was made on. This comes down to arithmetic
(`Valkyrie.Vfs.redirectsExactly_iff`): the sums that the codes are made of have to tell
apart what is different, and to agree on what is the same. They need not: two directories
whose names are made of the same letters have the same sum
(`Valkyrie.Vfs.redirected_of_anagram`), and so have all the roots of TmpFS and ProcFS.
-/

namespace Valkyrie.Vfs

open Exec

variable {s : State} {v a b c : ℕ}

/-! ### What a vnode stands for -/

/-- A file-system object. -/
inductive Identity where
  /-- An inode in memory. -/
  | inode (address : ℕ) : Identity
  /-- A directory of a FAT32 file system, which is known by its first cluster. -/
  | directory (root cluster : ℕ) : Identity
  /-- A file of a FAT32 file system, which is known by its directory entry. -/
  | entry (root cluster offset : ℕ) : Identity
deriving DecidableEq

/-- The object that the vnode at an address stands for. -/
def identity (v : ℕ) (vnode : Vnode) : Identity :=
  match vnode.impl with
  | .tmpfs .. | .procfs .. => .inode v
  | .fat32 root _ first parent offset =>
    if vnode.isDirectory then .directory root first else .entry root parent offset

/-- The vnodes at two addresses stand for the same object. -/
def SameObject (s : State) (a b : ℕ) : Prop :=
  (s.vnodes a).map (identity a) = (s.vnodes b).map (identity b)

instance : Decidable (SameObject s a b) := inferInstanceAs (Decidable (_ = _))

theorem SameObject.rfl : SameObject s a a := Eq.refl _

theorem SameObject.symm (h : SameObject s a b) : SameObject s b a := Eq.symm h

theorem SameObject.trans (h : SameObject s a b) (h' : SameObject s b c) : SameObject s a c :=
  Eq.trans h h'

/-- **Redirection is exact**: a lookup of a vnode finds a mount exactly if the vnode stands
for the object that the mount was made on; it continues at the guest root then, and at the
vnode itself otherwise. -/
def RedirectsExactly (s : State) : Prop :=
  ∀ v, s.Live v → ∃ it, findMount v s = .ok it ∧
    getMountedVnodeOrHostVnode (some v) s = .ok (some ((it.map (·.guestVnode)).getD v)) ∧
    ∀ m ∈ s.mounts, it = some m ↔ SameObject s m.hostVnode v

/-- **The sums tell objects apart**: no two mounts were made on one object, and the sum over
the fields of a host is that of a vnode exactly if both stand for the same object. -/
def SumsTell (s : State) : Prop :=
  (∀ m ∈ s.mounts, ∀ m' ∈ s.mounts, SameObject s m.hostVnode m'.hostVnode → m = m') ∧
    ∀ m ∈ s.mounts, ∀ v host vnode, s.vnodes m.hostVnode = some host → s.vnodes v = some vnode →
      (host.weight ≡ vnode.weight [MOD sizeMod] ↔ SameObject s m.hostVnode v)

/-! ### The mount that is found -/

/-- The host of a mount has this hash code. -/
def hasHash (s : State) (code : ℕ) (m : Mount) : Bool :=
  decide ((s.vnodes m.hostVnode).map Vnode.hashCode = some code)

theorem findM?_hash {code : ℕ} (l : List Mount) (hl : ∀ m ∈ l, s.Live m.hostVnode) :
    l.findM? (fun m => do
      let host ← s.readVnode m.hostVnode
      return decide (host.hashCode = code)) = (.ok (l.find? (hasHash s code)) : Exec _) := by
  refine findM?_eq_ok l fun m hm => ?_
  obtain ⟨host, hhost⟩ := hl m hm
  have hhash : hasHash s code m = decide (host.hashCode = code) := by
    rw [hasHash, hhost, Option.map_some, decide_eq_decide, Option.some_inj]
  rw [readVnode_of_some hhost, hhash]
  rfl

/-- The first mount whose host has the code is found. -/
theorem Good.findMount (h : Good s) {vnode : Vnode} (hv : s.vnodes v = some vnode) :
    findMount v s = .ok (s.mounts.find? (hasHash s vnode.hashCode)) := by
  rw [Vfs.findMount, readVnode_of_some hv, ok_bind]
  exact findM?_hash s.mounts fun m hm => (h.mounts m hm).2

theorem getMounted_of_findMount {it : Option Mount} (h : findMount v s = .ok it) :
    getMountedVnodeOrHostVnode (some v) s = .ok (some ((it.map (·.guestVnode)).getD v)) := by
  rw [getMountedVnodeOrHostVnode]
  rw [h, ok_bind]
  cases it with
  | none => rfl
  | some m => rfl

/-- Codes are equal when the sums are, up to what is cut off. -/
theorem hasHash_iff {m : Mount} {host vnode : Vnode} (hhost : s.vnodes m.hostVnode = some host) :
    hasHash s vnode.hashCode m = true ↔ host.weight ≡ vnode.weight [MOD sizeMod] := by
  rw [hasHash, hhost, Option.map_some, decide_eq_true_eq, Option.some_inj,
    Vnode.hashCode_eq_weight, Vnode.hashCode_eq_weight]
  exact Iff.rfl

/-! ### Exact redirection -/

theorem Good.redirectsExactly_find (h : Good s) : RedirectsExactly s ↔
    ∀ v vnode, s.vnodes v = some vnode → ∀ m ∈ s.mounts,
      (s.mounts.find? (hasHash s vnode.hashCode) = some m ↔ SameObject s m.hostVnode v) := by
  constructor
  · intro hr v vnode hv m hm
    obtain ⟨it, hit, -, hiff⟩ := hr v ⟨vnode, hv⟩
    obtain rfl := Except.ok.inj ((h.findMount hv).symm.trans hit)
    exact hiff m hm
  · rintro hr v ⟨vnode, hv⟩
    exact ⟨_, h.findMount hv, getMounted_of_findMount (h.findMount hv), hr v vnode hv⟩

/-- If redirection is exact, then the sums tell objects apart. A mount is found from its own
host, and so from every vnode with the same code. -/
theorem Good.sumsTell (h : Good s) (hr : RedirectsExactly s) : SumsTell s := by
  rw [h.redirectsExactly_find] at hr
  have hself : ∀ m ∈ s.mounts, ∀ host, s.vnodes m.hostVnode = some host →
      s.mounts.find? (hasHash s host.hashCode) = some m := fun m hm host hhost =>
    (hr m.hostVnode host hhost m hm).mpr SameObject.rfl
  constructor
  · intro m hm m' hm' hsame
    obtain ⟨host, hhost⟩ := (h.mounts m' hm').2
    have hfound := (hr m'.hostVnode host hhost m hm).mpr hsame
    exact Option.some.inj (hfound.symm.trans (hself m' hm' host hhost))
  · intro m hm v host vnode hhost hv
    constructor
    · intro hmod
      have hcode : host.hashCode = vnode.hashCode := by
        rw [Vnode.hashCode_eq_weight, Vnode.hashCode_eq_weight]
        exact hmod
      exact (hr v vnode hv m hm).mp (hcode ▸ hself m hm host hhost)
    · intro hsame
      have hfound := (hr v vnode hv m hm).mpr hsame
      exact (hasHash_iff hhost).mp (List.find?_some hfound)

/-- If the sums tell objects apart, then redirection is exact. -/
theorem Good.redirectsExactly (h : Good s) (hs : SumsTell s) : RedirectsExactly s := by
  obtain ⟨hone, hsum⟩ := hs
  rw [h.redirectsExactly_find]
  -- A mount whose host has the code of a vnode was made on the object of the vnode.
  have hsame : ∀ v vnode, s.vnodes v = some vnode → ∀ m ∈ s.mounts,
      hasHash s vnode.hashCode m = true → SameObject s m.hostVnode v := by
    intro v vnode hv m hm hhash
    obtain ⟨host, hhost⟩ := (h.mounts m hm).2
    exact (hsum m hm v host vnode hhost hv).mp ((hasHash_iff hhost).mp hhash)
  intro v vnode hv m hm
  constructor
  · exact fun hfound => hsame v vnode hv m hm (List.find?_some hfound)
  · intro hobj
    obtain ⟨host, hhost⟩ := (h.mounts m hm).2
    have hhash := (hasHash_iff hhost).mpr ((hsum m hm v host vnode hhost hv).mpr hobj)
    obtain ⟨m₀, hfound⟩ := Option.isSome_iff_exists.mp
      (List.find?_isSome.mpr ⟨m, hm, hhash⟩)
    have hm₀ := List.mem_of_find?_eq_some hfound
    have hobj₀ := hsame v vnode hv m₀ hm₀ (List.find?_some hfound)
    rw [hfound, hone m₀ hm₀ m hm (hobj₀.trans hobj.symm)]

/-- **Redirection is exact if and only if the sums tell objects apart**, in every state
that calls lead to. -/
theorem redirectsExactly_iff (hrun : Run Step init s) : RedirectsExactly s ↔ SumsTell s :=
  ⟨(good_of_run hrun).sumsTell, (good_of_run hrun).redirectsExactly⟩

/-- A disk with the directories `a` and `b` in its root, whose first cluster is 2. -/
def twoDirs : Env :=
  { noDisk with
    fatChildren := fun vnode =>
      [⟨0, sIfdir, 0, .fat32 vnode.root [97] 3 2 0⟩, ⟨0, sIfdir, 0, .fat32 vnode.root [98] 4 2 32⟩] }

theorem onDisk_twoDirs : twoDirs.OnDisk := by
  refine ⟨fun vnode child hchild => ?_, fun _ _ _ _ h => (by cases h)⟩
  obtain rfl | hchild := List.mem_cons.mp hchild
  · exact ⟨_, _, _, _, rfl⟩
  · obtain rfl := List.mem_singleton.mp hchild
    exact ⟨_, _, _, _, rfl⟩

/-- A TmpFS is mounted on `/a`, and a task looks up `/b`. -/
def mountBeside : Exec State := do
  let s ← mountRootfs (newFAT32 2 init).1 (newFAT32 2 init).2
  let (_, s) ← mount twoDirs 1 1 [slash, 97] .tmpfs s
  let (_, s) ← chdir twoDirs 1 1 [slash, 98] s
  return s

theorem run_mountBeside : Ensures mountBeside (Run Step init) := by
  refine ensures_bind fun s₁ h₁ => ensures_bind fun ⟨_, s₂⟩ h₂ => ensures_bind fun ⟨_, s₃⟩ h₃ =>
    ensures_pure ?_
  exact ((Relation.ReflTransGen.single (.rootFAT32 2 h₁)).tail
    (.mount onDisk_twoDirs 1 1 _ (Or.inl rfl) .tmpfs h₂)).tail
      (.chdir onDisk_twoDirs 1 1 _ (Or.inl rfl) h₃)

/-- The root and the two directories are told apart by their clusters, and none of them is taken for
the root of the TmpFS. -/
theorem redirectsExactly_iff_beside : ∃ s, Run Step init s ∧ s.mounts = [⟨1, 1⟩, ⟨3, 2⟩] ∧
    s.Live 4 ∧ ¬SameObject s 2 4 ∧ RedirectsExactly s := by
  have hcheck : check (fun s => decide (s.mounts = [⟨1, 1⟩, ⟨3, 2⟩] ∧ (s.vnodes 4).isSome ∧
      ¬SameObject s 2 4 ∧
      (∀ m ∈ s.mounts, ∀ m' ∈ s.mounts, SameObject s m.hostVnode m'.hostVnode → m = m') ∧
      ∀ m ∈ s.mounts, ∀ v < s.next, ∀ host ∈ s.vnodes m.hostVnode, ∀ vnode ∈ s.vnodes v,
        (host.weight ≡ vnode.weight [MOD sizeMod] ↔ SameObject s m.hostVnode v)))
      mountBeside = true := by decide +kernel
  obtain ⟨s, hs, htest⟩ := exists_ok_of_check hcheck
  obtain ⟨hmounts, hlive, hne, hone, htell⟩ := of_decide_eq_true htest
  have hrun := run_mountBeside s hs
  -- Nothing is at an address beyond those that were looked at.
  have hsums : SumsTell s := ⟨hone, fun m hm v host vnode hhost hv =>
    htell m hm v ((proper_of_run hrun).bounded v ⟨vnode, hv⟩) host hhost vnode hv⟩
  exact ⟨s, hrun, hmounts, Option.isSome_iff_exists.mp hlive, hne,
    (redirectsExactly_iff hrun).mpr hsums⟩

/-! ### Two names of the same letters -/

/-- In an empty TmpFS the directories `/ab` and `/ba` are made, and a TmpFS is mounted on
the first. -/
def mountAnagram : Exec State := do
  let s ← mountRootfs (newTmpFS init).1 (newTmpFS init).2
  let (_, s) ← mkdir noDisk 1 1 [slash, 97, 98] s
  let (_, s) ← mkdir noDisk 1 1 [slash, 98, 97] s
  let (_, s) ← mount noDisk 1 1 [slash, 97, 98] .tmpfs s
  return s

theorem run_mountAnagram : Ensures mountAnagram (Run Step init) := by
  refine ensures_bind fun s₁ h₁ => ensures_bind fun ⟨_, s₂⟩ h₂ => ensures_bind fun ⟨_, s₃⟩ h₃ =>
    ensures_bind fun ⟨_, s₄⟩ h₄ => ensures_pure ?_
  exact (((Relation.ReflTransGen.single (.rootTmpFS h₁)).tail
    (.mkdir onDisk_noDisk 1 1 _ (Or.inl rfl) h₂)).tail
      (.mkdir onDisk_noDisk 1 1 _ (Or.inl rfl) h₃)).tail
        (.mount onDisk_noDisk 1 1 _ (Or.inl rfl) .tmpfs h₄)

/-- `/ba` is taken for the mount point `/ab`, and the path leads into the file system that
is mounted there. -/
theorem redirected_of_anagram :
    ∃ s v m, Run Step init s ∧ s.Live v ∧ m ∈ s.mounts ∧ ¬SameObject s m.hostVnode v ∧
      findMount v s = .ok (some m) ∧
      (∃ s', resolvePath noDisk 1 1 [slash, 98, 97] s =
        .ok (some m.guestVnode, some 1, [98, 97], s')) ∧
      ¬RedirectsExactly s := by
  have hcheck : check (fun s => (s.vnodes 3).isSome && (s.mounts.contains ⟨4, 2⟩ &&
      (!decide (SameObject s 2 3) && (check (fun it => decide (it = some ⟨4, 2⟩))
        (findMount 3 s) && check (fun r => decide ((r.1, r.2.1, r.2.2.1) =
          (some 4, some 1, ([98, 97] : Name)))) (resolvePath noDisk 1 1 [slash, 98, 97] s)))))
      mountAnagram = true := by decide +kernel
  obtain ⟨s, hs, htest⟩ := exists_ok_of_check hcheck
  obtain ⟨hsome, htest⟩ := Bool.and_eq_true_iff.mp htest
  obtain ⟨hmem, htest⟩ := Bool.and_eq_true_iff.mp htest
  obtain ⟨hsame, htest⟩ := Bool.and_eq_true_iff.mp htest
  obtain ⟨hfind, hpath⟩ := Bool.and_eq_true_iff.mp htest
  have hlive : s.Live 3 := Option.isSome_iff_exists.mp hsome
  have hm : (⟨4, 2⟩ : Mount) ∈ s.mounts := List.contains_iff_mem.mp hmem
  have hne : ¬SameObject s 2 3 := of_decide_eq_false (Bool.not_eq_true' _ ▸ hsame)
  have hfound : findMount 3 s = .ok (some ⟨4, 2⟩) := by
    obtain ⟨it, hit, hEq⟩ := exists_ok_of_check hfind
    rw [hit, of_decide_eq_true hEq]
  obtain ⟨⟨target, parent, basename, s'⟩, hresolve, hEq⟩ := exists_ok_of_check hpath
  obtain ⟨rfl, rfl, rfl⟩ : target = some 4 ∧ parent = some 1 ∧ basename = [98, 97] := by
    simpa using hEq
  refine ⟨s, 3, ⟨4, 2⟩, run_mountAnagram s hs, hlive, hm, hne, hfound, ⟨s', hresolve⟩, fun hr => ?_⟩
  obtain ⟨it, hit, -, hiff⟩ := hr 3 hlive
  obtain rfl := Except.ok.inj (hfound.symm.trans hit)
  exact hne ((hiff ⟨4, 2⟩ hm).mp rfl)

end Valkyrie.Vfs
