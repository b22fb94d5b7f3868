import Valkyrie.Fs.VirtualFileSystem.Frame

/-!
# Runs of the virtual file system

The calls that tasks make (`Valkyrie.Vfs.Step`), in any order and through any number of
descriptors, and what holds in every state that is reached (`Valkyrie.Vfs.Proper`): every
vnode that another vnode, a mount or a task refers to is there, the buffer of a TmpFS
file has as many bytes as its size says, and nothing is found past the address that is next.

Every call puts what is new at new addresses and leaves the vnodes of the files there are
(`Valkyrie.Vfs.Grown`), and but for `open`, `close` and the start of a task it leaves the tables
(`Valkyrie.Vfs.Keeps`). Which of these a call does is said once (`Valkyrie.Vfs.Good.tables`).

Between two calls the kernel may allocate other things: the next address is any one that was
not given out (`Valkyrie.Vfs.Step.elsewhere`).
-/

namespace Valkyrie.Vfs

open Exec Function

variable {env : Env} {s s' s'' : State} {vnode : Vnode} {fuel task v f : ℕ} {name pathname : Name}

/-- **What is new is at new addresses**, no file is moved to another vnode, and a file that was
put into the table is there. -/
structure Grown (s s' : State) : Prop where
  next : s.next ≤ s'.next
  fresh : ∀ v, s'.Live v → s.Live v ∨ v < s'.next
  files : ∀ f < s.next, (s'.files f).map File.vnode = (s.files f).map File.vnode
  opened : ∀ f ∈ s'.openedFiles, f ∈ s.openedFiles ∨ f < s'.next ∧ (s'.files f).isSome
  kin : Kin s → Kin s'

theorem Grown.isSome (h : Grown s s') (hf : f < s.next) :
    (s'.files f).isSome = (s.files f).isSome := by
  rw [← Option.isSome_map (f := File.vnode), h.files f hf, Option.isSome_map]

theorem Grown.rfl : Grown s s :=
  ⟨le_rfl, fun _ h => Or.inl h, fun _ _ => Eq.refl _, fun _ h => Or.inl h, id⟩

theorem Grown.trans (h : Grown s s') (h' : Grown s' s'') : Grown s s'' where
  next := h.next.trans h'.next
  fresh v hv := (h'.fresh v hv).elim
    (fun hold => (h.fresh v hold).imp_right fun hlt => hlt.trans_le h'.next) Or.inr
  files f hf := (h'.files f (hf.trans_le h.next)).trans (h.files f hf)
  opened f hf := (h'.opened f hf).elim (fun hold => (h.opened f hold).imp_right fun hnew =>
    ⟨hnew.1.trans_le h'.next, (h'.isSome hnew.1).trans hnew.2⟩) Or.inr
  kin hs := h'.kin (h.kin hs)

/-- **The tables are left alone**: the opened files, and the descriptors. -/
structure Keeps (s s' : State) : Prop extends Grown s s' where
  openedFiles : s'.openedFiles = s.openedFiles
  fds : s'.fds = s.fds

/-- A sound state, with the tables from before. -/
structure Kept (s s' : State) : Prop extends Keeps s s' where
  good : Good s'

theorem Keeps.rfl : Keeps s s := ⟨Grown.rfl, Eq.refl _, Eq.refl _⟩

theorem Keeps.trans (h : Keeps s s') (h' : Keeps s' s'') : Keeps s s'' :=
  ⟨h.toGrown.trans h'.toGrown, h'.openedFiles.trans h.openedFiles, h'.fds.trans h.fds⟩

theorem Good.kept (h : Good s) : Kept s s := ⟨Keeps.rfl, h⟩

theorem Kept.trans (h : Kept s s') (h' : Kept s' s'') : Kept s s'' :=
  ⟨h.toKeeps.trans h'.toKeeps, h'.good⟩

theorem Extends.keeps (h : Extends s s') : Keeps s s' :=
  ⟨⟨h.next, h.fresh, fun f _ => by rw [h.files], fun _ hf => Or.inl (h.openedFiles ▸ hf), h.kin⟩,
    h.openedFiles, h.fds⟩

theorem Leaves.kept {w : Option ℕ} (h : Leaves s s' w) : Kept s s' := ⟨h.keeps, h.good⟩

/-! ### Tables -/

/-- A change of the tables, by which no file comes to that of the opened ones. -/
theorem grown_with {openedFiles : List ℕ} (hsub : openedFiles ⊆ s.openedFiles)
    (fds : Handles (ℕ × ℕ) ℕ) : Grown s { s with openedFiles := openedFiles, fds := fds } :=
  ⟨le_rfl, fun _ h => Or.inl h, fun _ _ => rfl, fun _ h => Or.inl (hsub h), id⟩

/-- A change of the descriptors or of the table of opened files. -/
theorem Good.withFiles (h : Good s) (openedFiles : List ℕ) (fds : Handles (ℕ × ℕ) ℕ)
    (hfds : fds.live = s.fds.live) : Good { s with openedFiles := openedFiles, fds := fds } where
  vnodes v vnode hv := (h.vnodes v vnode hv).mono State.Grows.rfl
  files := h.files
  mounts := h.mounts
  cwd task htask := h.cwd task (hfds ▸ htask)

/-- A change of the mounts or the working directories. -/
theorem keeps_with (mounts : List Mount) (cwd : ℕ → ℕ) :
    Keeps s { s with mounts := mounts, cwd := cwd } :=
  ⟨⟨le_rfl, fun _ h => Or.inl h, fun _ _ => rfl, fun _ h => Or.inl h, id⟩, rfl, rfl⟩

theorem Kept.withMounts {mounts : List Mount} (h : Kept s s')
    (hm : ∀ m ∈ mounts, s'.Live m.guestVnode ∧ s'.Live m.hostVnode) :
    Kept s { s' with mounts := mounts } :=
  ⟨h.toKeeps.trans (keeps_with mounts s'.cwd),
    fun v vnode hv => (h.good.vnodes v vnode hv).mono State.Grows.rfl, h.good.files, hm, h.good.cwd⟩

/-- A task goes to another directory. -/
theorem Good.withCwd (h : Good s) (task : ℕ) (hv : s.Live v) :
    Good { s with cwd := update s.cwd task v } := by
  refine ⟨fun a vnode ha => (h.vnodes a vnode ha).mono State.Grows.rfl, h.files, h.mounts, ?_⟩
  intro task' htask'
  change s.Live (update s.cwd task v task')
  rw [update_apply]
  split_ifs
  · exact hv
  · exact h.cwd task' htask'

theorem vnode_setPos (f pos f' : ℕ) :
    ((s.setPos f pos).files f').map File.vnode = (s.files f').map File.vnode := by
  change (update s.files f _ f').map File.vnode = _
  rw [update_apply]
  split_ifs with hEq
  · rw [Option.map_map, hEq]
    rfl
  · rfl

theorem Good.setPos (h : Good s) (f : ℕ) {pos : ℕ} (hpos : pos < sizeMod) :
    Kept s (s.setPos f pos) where
  toKeeps := ⟨⟨le_rfl, fun _ h => Or.inl h, fun f' _ => vnode_setPos f pos f',
    fun _ h => Or.inl h, id⟩, rfl, rfl⟩
  good := by
    refine ⟨fun v vnode hv => (h.vnodes v vnode hv).mono State.Grows.rfl, fun f' file' hf' => ?_,
      h.mounts, h.cwd⟩
    change update s.files f _ f' = some file' at hf'
    rw [update_apply] at hf'
    split_ifs at hf' with hEq
    · obtain ⟨file, -, rfl⟩ := Option.map_eq_some_iff.mp hf'
      exact hpos
    · exact h.files f' file' hf'

theorem Good.newFile (h : Good s) (file : File) (hpos : file.pos < sizeMod) :
    Good (s.newFile file).2 ∧ Grown s (s.newFile file).2 := by
  refine ⟨⟨fun v vnode hv => (h.vnodes v vnode hv).mono State.Grows.rfl, fun f' file' hf' => ?_,
    h.mounts, h.cwd⟩, Nat.le_succ _, fun _ h => Or.inl h, fun f' hf' => ?_, fun f' hf' => ?_, id⟩
  · change update s.files s.next (some file) f' = some file' at hf'
    rw [update_apply] at hf'
    split_ifs at hf' with hEq
    · exact Option.some.inj hf' ▸ hpos
    · exact h.files f' file' hf'
  · change (update s.files s.next (some file) f').map File.vnode = _
    rw [update_of_ne hf'.ne]
  · refine (List.mem_append.mp hf').imp_right fun hnew => ?_
    obtain rfl := List.mem_singleton.mp hnew
    exact ⟨Nat.lt_succ_self _, by simp [State.newFile]⟩

/-! ### Directories -/

theorem length_nil_lt : ([] : List UInt8).length < sizeMod := show 0 < sizeMod by decide

theorem Good.mkdir (h : Good s) (henv : env.OnDisk) (hmay : MayResolve task pathname s) :
    Ensures (mkdir env fuel task pathname s) fun r => Kept s r.2 := by
  refine (h.create henv hmay length_nil_lt sIfdir).bind ?_
  rintro ⟨v, s'⟩ h'
  exact ensures_pure h'.kept

theorem Good.mknod (h : Good s) (henv : env.OnDisk) (hmay : MayResolve task pathname s)
    (mode dev : ℕ) : Ensures (mknod env fuel task pathname mode dev s) fun r => Kept s r.2 := by
  rw [Vfs.mknod]
  split
  · exact ensures_pure h.kept
  · refine (h.create henv hmay length_nil_lt mode).bind ?_
    rintro ⟨v, s'⟩ h'
    replace h' : Leaves s s' v := h'
    dsimp only
    split
    · exact ensures_pure h'.kept
    · refine (h'.good.readVnode _).bind fun vnode hv => ensures_pure ?_
      have hsound : SoundVnode s' { vnode with dev := dev } :=
        ⟨hv.1.root, hv.1.children, hv.1.buffer⟩
      have hset := h'.good.leaves_setVnode hv.2 hsound rfl
      exact (h'.trans hset).kept

theorem Good.access (h : Good s) (henv : env.OnDisk) (hmay : MayResolve task pathname s) :
    Ensures (access env fuel task pathname s) fun r => Leaves s r.2 none := by
  refine (h.resolvePath henv hmay).bind ?_
  rintro ⟨v, parent, basename, s'⟩ ⟨h', -⟩
  exact ensures_pure h'.none

theorem Good.chdir (h : Good s) (henv : env.OnDisk) (hmay : MayResolve task pathname s) :
    Ensures (chdir env fuel task pathname s) fun r => Kept s r.2 := by
  rw [Vfs.chdir]
  refine (h.access henv hmay).bind ?_
  rintro ⟨found, s'⟩ h'
  replace h' : Leaves s s' none := h'
  dsimp only
  split
  · exact ensures_pure h'.kept
  · refine (h'.good.resolvePath henv (hmay.of_fds h'.fds)).bind ?_
    rintro ⟨v, parent, basename, s''⟩ ⟨h'', -⟩
    replace h'' : Leaves s s'' v := h'.trans h''
    dsimp only
    split
    · exact ensures_error _
    · refine ensures_bind fun vnode _ => ?_
      split
      · exact ensures_pure ⟨h''.keeps.trans (keeps_with s''.mounts _),
          h''.good.withCwd task (h''.result _ rfl)⟩
      · exact ensures_pure h''.kept

theorem Good.newFAT32 (h : Good s) (rootCluster : ℕ) :
    Leaves s (newFAT32 rootCluster s).2 (newFAT32 rootCluster s).1 :=
  h.newVnode _ (SoundVnode.fat32 State.live_newVnode) fun _ hp => by cases hp

theorem Good.newTmpFS (h : Good s) : Leaves s (newTmpFS s).2 (newTmpFS s).1 :=
  h.newVnode _ (SoundVnode.tmpfs State.live_newVnode length_nil_lt) fun _ hp => by cases hp

theorem Good.newProcFS (h : Good s) : Leaves s (newProcFS s).2 (newProcFS s).1 := by
  -- The root first, then its four files, then the root again with its children.
  have h₀ : Leaves s (s.newVnode ⟨0, sIfdir, 0, .procfs s.next [slash] none []⟩).2 s.next :=
    h.newProc [slash] sIfdir State.live_newVnode fun _ hp => by cases hp
  have hfile : ∀ {s' : State} (name : Name), Good s' → s'.Live s.next →
      Leaves s' (s'.newVnode ⟨0, sIfreg, 0, .procfs s.next name (some s.next) []⟩).2 s'.next :=
    fun name h' hroot => h'.newProc name sIfreg (State.grows_newVnode _ hroot)
      fun p hp => Option.some.inj hp ▸ hroot
  have hroot₀ := h₀.result s.next rfl
  have h₁ := hfile [115, 119, 105, 116, 99, 104] h₀.good hroot₀
  have hroot₁ := h₁.grows _ hroot₀
  have h₂ := hfile [104, 101, 108, 108, 111] h₁.good hroot₁
  have hroot₂ := h₂.grows _ hroot₁
  have h₃ := hfile [98, 117, 100, 100, 121, 105, 110, 102, 111] h₂.good hroot₂
  have hroot₃ := h₃.grows _ hroot₂
  have h₄ := hfile [115, 108, 111, 98, 105, 110, 102, 111] h₃.good hroot₃
  have hroot₄ := h₄.grows _ hroot₃
  have hall := ((((h₀.trans h₁).trans h₂).trans h₃).trans h₄).trans (h₄.good.leaves_some hroot₄)
  refine hall.setVnode hroot₄ (SoundVnode.procfs hroot₄ fun c hc => ?_) fun _ p hp => by cases hp
  simp only [List.mem_cons, List.not_mem_nil, or_false] at hc
  rcases hc with rfl | rfl | rfl | rfl
  · exact h₄.grows _ (h₃.grows _ (h₂.grows _ (h₁.result _ rfl)))
  · exact h₄.grows _ (h₃.grows _ (h₂.result _ rfl))
  · exact h₄.grows _ (h₃.result _ rfl)
  · exact h₄.result _ rfl

/-- A mount is added to those there are. -/
theorem Leaves.addMount {guest host : ℕ} (h : Leaves s s' (some guest)) (hhost : s'.Live host) :
    Kept s { s' with mounts := s'.mounts ++ [⟨guest, host⟩] } := by
  refine h.kept.withMounts fun m hm => ?_
  rcases List.mem_append.mp hm with hold | hnew
  · exact h.good.mounts m hold
  · obtain rfl := List.mem_singleton.mp hnew
    exact ⟨h.result guest rfl, hhost⟩

theorem Leaves.mountRootfs {root : ℕ} (h : Leaves s s' (some root)) :
    Ensures (mountRootfs root s') (Kept s) := by
  rw [Vfs.mountRootfs]
  split
  · rename_i hmounts
    have h' := h.addMount (h.result root rfl)
    rw [hmounts] at h'
    exact ensures_ok h'
  · exact ensures_error _

theorem Good.mount (h : Good s) (henv : env.OnDisk) (hmay : MayResolve task pathname s)
    (fsName : FsName) : Ensures (mount env fuel task pathname fsName s) fun r => Kept s r.2 := by
  rw [Vfs.mount]
  refine (h.resolvePath henv hmay).bind ?_
  rintro ⟨v, parent, basename, s'⟩ ⟨h', -⟩
  replace h' : Leaves s s' v := h'
  dsimp only
  split
  · exact ensures_pure h'.kept
  · rename_i host
    have hhost := h'.result host rfl
    split
    · have hfs := h'.good.newTmpFS
      exact ensures_pure ((h'.trans hfs).addMount (hfs.grows host hhost))
    · have hfs := h'.good.newProcFS
      exact ensures_pure ((h'.trans hfs).addMount (hfs.grows host hhost))
    · exact ensures_pure h'.kept

theorem Good.umount (h : Good s) (henv : env.OnDisk) (hmay : MayResolve task pathname s) :
    Ensures (umount env fuel task pathname s) fun r => Kept s r.2 := by
  rw [Vfs.umount]
  refine (h.resolvePath henv hmay).bind ?_
  rintro ⟨v, parent, basename, s'⟩ ⟨h', -⟩
  replace h' : Kept s s' := h'.kept
  dsimp only
  split
  · exact ensures_pure h'
  · split
    · exact ensures_pure h'
    · exact ensures_pure (h'.withMounts fun m hm => h'.good.mounts m (List.mem_of_mem_erase hm))

/-! ### Tasks -/

theorem mem_live_foldl_add {g : ℕ → Option ℕ} {x : ℕ × ℕ} (l : List ℕ) :
    ∀ {fds : Handles (ℕ × ℕ) ℕ},
      x ∈ (l.foldl (fun fds i => fds.add (task, i) (g i)) fds).live ↔
        x ∈ fds.live ∨ x.1 = task ∧ x.2 ∈ l := by
  induction l with
  | nil => simp
  | cons i l ih =>
    intro fds
    rw [List.foldl_cons, ih, Handles.live_add, Finset.mem_insert, Prod.ext_iff, List.mem_cons]
    tauto

theorem Good.newTask (h : Good s) (task : ℕ) : Ensures (newTask task s) fun s' =>
    Good s' ∧ Grown s s' ∧ s.fds.live ⊆ s'.fds.live := by
  obtain ⟨hfile, hgrown⟩ := h.newFile ⟨none, 0, 0⟩ (show 0 < sizeMod by decide)
  refine h.rootVnode.bind fun cwd hcwd => ensures_pure ⟨?_, ?_, ?_⟩
  · refine ⟨fun v vnode hv => (h.vnodes v vnode hv).mono State.Grows.rfl, hfile.files, h.mounts, ?_⟩
    intro task' htask'
    change s.Live (update s.cwd task cwd task')
    rw [update_apply]
    split_ifs with hEq
    · exact hcwd
    · exact h.cwd task' (((mem_live_foldl_add _).mp htask').resolve_right fun hx => hEq hx.1)
  · exact (hgrown.trans (grown_with (List.subset_append_left _ _) _)).trans
      (keeps_with _ _).toGrown
  · exact fun x hx => (mem_live_foldl_add _).mpr (Or.inl hx)

theorem Good.fork (h : Good s) {task : ℕ} (htask : (task, 0) ∈ s.fds.live) (child : ℕ) :
    Ensures (fork task child s) fun s' => Good s' ∧ Grown s s' := by
  refine (h.newTask child).bind ?_
  rintro s' ⟨h', hgrown, hsub⟩
  exact ensures_pure ⟨h'.withCwd child (h'.cwd task (hsub htask)),
    hgrown.trans (keeps_with _ _).toGrown⟩

/-! ### Files -/

theorem Good.openFile (h : Good s) (henv : env.OnDisk) (hmay : MayResolve task pathname s)
    (options : ℕ) : Ensures (openFile env fuel task pathname options s) fun r =>
      Good r.2 ∧ Grown s r.2 := by
  have hzero : 0 < sizeMod := by decide
  rw [Vfs.openFile]
  refine (h.resolvePath henv hmay).bind ?_
  rintro ⟨target, parent, basename, s'⟩ ⟨h', -⟩
  replace h' : Leaves s s' target := h'
  have hnew : ∀ {s'' : State} {w : Option ℕ} (file : File), Leaves s s'' w → file.pos < sizeMod →
      Good (s''.newFile file).2 ∧ Grown s (s''.newFile file).2 := fun file h'' hpos =>
    (h''.good.newFile file hpos).imp_right h''.keeps.toGrown.trans
  dsimp only
  refine ensures_bind fun it _ => ?_
  split
  · exact ensures_pure ⟨h'.good, h'.keeps.toGrown⟩
  · split
    · exact ensures_pure (hnew _ h' hzero)
    · split_ifs
      · exact ensures_pure ⟨h'.good, h'.keeps.toGrown⟩
      · refine (h'.good.create henv (hmay.of_fds h'.fds) length_nil_lt sIfreg).bind ?_
        rintro ⟨target', s''⟩ h''
        exact ensures_pure (hnew _ (h'.trans h'') hzero)

theorem Good.sysOpen (h : Good s) (henv : env.OnDisk) (hmay : MayResolve task pathname s)
    (options : ℕ) : Ensures (sysOpen env fuel task pathname options s) fun r =>
      Good r.2 ∧ Grown s r.2 := by
  refine (h.openFile henv hmay options).bind ?_
  rintro ⟨file, s'⟩ h'
  replace h' : Good s' ∧ Grown s s' := h'
  dsimp only
  split
  · exact ensures_pure h'
  · rw [allocateFdForFile]
    split
    · exact ensures_pure ⟨h'.1.withFiles _ _ rfl, h'.2.trans (grown_with (List.Subset.refl _) _)⟩
    · exact ensures_pure h'

theorem Good.closeWith (h : Good s) (held f : ℕ) :
    Ensures (closeWith held f s) fun r => Good r.2 ∧ Grown s r.2 := by
  rw [Vfs.closeWith]
  refine ensures_bind fun file _ => ensures_bind fun it _ => ?_
  have hpos : Kept s (s.setPos f 0) := h.setPos f (by decide)
  split
  · exact ensures_pure ⟨h, Grown.rfl⟩
  · dsimp only
    split_ifs
    · exact ensures_pure ⟨hpos.good.withFiles _ _ rfl,
        hpos.toGrown.trans (grown_with List.erase_subset _)⟩
    · exact ensures_pure ⟨hpos.good, hpos.toGrown⟩

theorem Good.sysClose (h : Good s) (task fd : ℕ) :
    Ensures (sysClose task fd s) fun r => Good r.2 ∧ Grown s r.2 := by
  rw [Vfs.sysClose]
  split
  · exact ensures_pure ⟨h, Grown.rfl⟩
  · have h' := h.withFiles s.openedFiles (s.fds.set (task, fd) none) rfl
    exact (h'.closeWith 2 _).mono fun r hr => hr.imp_right (grown_with (List.Subset.refl _) _).trans

theorem toSize_lt (x : ℕ) : toSize x < sizeMod := Nat.mod_lt x (by decide)

theorem parent_setContent (content : List UInt8) (vnode : Vnode) :
    (setContent content vnode).parent = vnode.parent := by
  obtain ⟨size, mode, dev, impl⟩ := vnode
  cases impl <;> rfl

theorem SoundVnode.setContent (h : SoundVnode s vnode) {bytes : List UInt8}
    (hlen : bytes.length < sizeMod) : SoundVnode s (setContent bytes vnode) := by
  obtain ⟨hroot, hchildren, hbuffer⟩ := h
  obtain ⟨size, mode, dev, impl⟩ := vnode
  cases impl with
  | tmpfs root name content parent children =>
    refine ⟨hroot, hchildren, fun _ _ _ _ _ hEq => ?_⟩
    obtain ⟨-, -, rfl, -, -⟩ := Impl.tmpfs.inj hEq
    exact ⟨rfl, hlen⟩
  | procfs root name parent children => exact SoundVnode.procfs hroot hchildren
  | fat32 root name first parent offset => exact SoundVnode.fat32 hroot

theorem Good.write (h : Good s) (f : ℕ) {bytes : List UInt8} (hlen : bytes.length < sizeMod) :
    Ensures (write f bytes s) fun r => Kept s r.2 := by
  rw [Vfs.write]
  refine ensures_bind fun file _ => ?_
  split
  · exact ensures_error _
  · refine (h.readVnode _).bind fun vnode hv => ?_
    split_ifs
    · refine ensures_bind fun _ _ => ensures_pure ?_
      have hset := h.leaves_setVnode hv.2 (hv.1.setContent hlen) (parent_setContent bytes vnode)
      exact hset.kept.trans (hset.good.setPos f (toSize_lt _))
    · exact ensures_pure (h.setPos f (toSize_lt _))
    · exact ensures_pure h.kept

theorem Good.sysWrite (h : Good s) (task fd : ℕ) {bytes : List UInt8}
    (hlen : bytes.length < sizeMod) : Ensures (sysWrite task fd bytes s) fun r => Kept s r.2 := by
  rw [Vfs.sysWrite]
  split
  · exact ensures_pure h.kept
  · exact h.write _ hlen

theorem Good.addTaskDirectory (h : Good s) (root pid : ℕ) :
    Ensures (addTaskDirectory root pid s) fun s' => Leaves s s' none := by
  rw [Vfs.addTaskDirectory]
  refine (h.readVnode root).bind fun vnode hv => ensures_bind fun it _ => ?_
  split
  · exact ensures_pure h.leaves_none
  · exact (h.newTaskDir ⟨vnode, hv.2⟩).bind fun r h' => ensures_pure h'.none

theorem Good.repopulateTaskDirectories (h : Good s) (root : ℕ) :
    Ensures (repopulateTaskDirectories env root s) fun s' => Leaves s s' none := by
  have hfold : ∀ {s' : State}, Leaves s s' none → Ensures (env.tasks.foldlM (fun s pid =>
      Vfs.addTaskDirectory root pid s) s') fun s'' => Leaves s s'' none := by
    refine fun {s'} h' => ensures_foldlM (I := fun _ s'' => Leaves s s'' none)
      (fun pid _ s'' h'' => ?_) env.tasks s' h'
    exact (h''.good.addTaskDirectory root pid).mono fun _ => h''.trans
  rw [Vfs.repopulateTaskDirectories]
  refine ensures_bind fun vnode _ => ensures_bind fun stale _ => ?_
  split
  · exact (h.removeChild root _).bind fun s' h' => hfold h'
  · exact hfold h.leaves_none

theorem Good.getChildrenCount (h : Good s) :
    Ensures (getChildrenCount env v s) fun r => Leaves s r.2 none := by
  rw [Vfs.getChildrenCount]
  refine ensures_bind fun vnode _ => ?_
  split
  · exact ensures_pure h.leaves_none
  · refine (h.repopulateTaskDirectories _).bind fun s' h' => ?_
    exact ensures_bind fun _ _ => ensures_pure h'
  · exact ensures_bind fun isRoot _ => ensures_pure h.leaves_none

theorem Good.getIthChild (h : Good s) (henv : env.OnDisk) (i : ℕ) :
    Ensures (getIthChild env fuel v i s) fun r => Kept s r.2 := by
  have hparent : Ensures (Vfs.getParent env fuel v s) fun r => Kept s r.2 :=
    (Good.getParent henv fuel h).mono fun _ h' => h'.kept
  rw [Vfs.getIthChild]
  refine (h.readVnode v).bind fun vnode hv => ?_
  have hfind : ∀ p, Kept s (Vfs.fatFindChildIf (env.fatChildren vnode) p s).2 := fun p =>
    (h.fatFindChildIf hv.1.root (henv.1 vnode)).kept
  split
  · split_ifs
    · exact ensures_pure h.kept
    · exact hparent
    · exact ensures_pure h.kept
  · split_ifs
    · exact ensures_pure h.kept
    · exact hparent
    · exact ensures_pure h.kept
  · refine ensures_bind fun isRoot _ => ?_
    split_ifs
    · exact ensures_pure h.kept
    · exact ensures_pure (hfind _)
    · exact ensures_pure (hfind _)

theorem Good.readDirectory (h : Good s) (henv : env.OnDisk) (f : ℕ) (file : File) :
    Ensures (readDirectory env fuel f v file s) fun r => Kept s r.2.2 := by
  rw [Vfs.readDirectory]
  refine h.getChildrenCount.bind ?_
  rintro ⟨count, s'⟩ h'
  replace h' : Kept s s' := h'.kept
  dsimp only
  split
  · exact ensures_pure (h'.trans (h'.good.setPos f (by decide)))
  · refine (h'.good.getIthChild henv file.pos).bind ?_
    rintro ⟨child, s''⟩ h''
    replace h'' : Kept s s'' := h'.trans h''
    dsimp only
    split
    · exact ensures_error _
    · exact ensures_bind fun vnode _ =>
        ensures_pure (h''.trans (h''.good.setPos f (toSize_lt _)))

theorem Good.read (h : Good s) (henv : env.OnDisk) (f len : ℕ) :
    Ensures (read env fuel f len s) fun r => Kept s r.2.2 := by
  rw [Vfs.read]
  refine ensures_bind fun file _ => ?_
  split
  · exact ensures_error _
  · refine ensures_bind fun vnode _ => ?_
    split_ifs
    · exact ensures_bind fun bytes _ => ensures_pure (h.setPos f (toSize_lt _))
    · exact h.readDirectory henv f file
    · exact ensures_pure h.kept
    · exact ensures_pure h.kept

theorem Good.mmapReads (henv : env.OnDisk) (f n : ℕ) :
    ∀ {s}, Good s → Ensures (mmapReads env fuel f n s) (Kept s) := by
  induction n with
  | zero => exact fun h => ensures_pure h.kept
  | succ n ih =>
    intro s h
    refine (h.read henv f pageSize).bind ?_
    rintro ⟨ret, bytes, s'⟩ h'
    replace h' : Kept s s' := h'
    exact (ih h'.good).mono fun _ => h'.trans

theorem Good.mmapFile (h : Good s) (henv : env.OnDisk) (f : ℕ) (fileOffset : ℤ) (n : ℕ) :
    Ensures (mmapFile env fuel f fileOffset n s) (Kept s) := by
  refine ensures_bind fun file hfile => ?_
  have hpos : file.pos < sizeMod := by
    rw [State.readFile] at hfile
    split at hfile
    · exact Except.ok.inj hfile ▸ h.files f _ ‹_›
    · cases hfile
  have h' := h.setPos f (ofInt_lt fileOffset)
  refine (Good.mmapReads henv f n h'.good).bind fun s'' h'' => ensures_pure ?_
  exact (h'.trans h'').trans (h''.good.setPos f hpos)

/-! ### Runs -/

/-- No file system, no task and no opened file. -/
def init : State where
  vnodes _ := none
  files _ := none
  next := 1
  mounts := []
  openedFiles := []
  fds := ⟨∅, fun _ => none⟩
  cwd _ := 0

/-- **One call.** The disk, the devices and the table of the tasks may have changed since
the call before. -/
inductive Step : State → State → Prop
  | rootFAT32 {s s' : State} (rootCluster : ℕ)
      (h : mountRootfs (newFAT32 rootCluster s).1 (newFAT32 rootCluster s).2 = .ok s') : Step s s'
  | rootTmpFS {s s' : State}
      (h : mountRootfs (newTmpFS s).1 (newTmpFS s).2 = .ok s') : Step s s'
  | newTask {s s' : State} (task : ℕ) (hnew : ∀ fd, (task, fd) ∉ s.fds.live)
      (h : newTask task s = .ok s') : Step s s'
  | fork {s s' : State} (task child : ℕ) (htask : (task, 0) ∈ s.fds.live)
      (hnew : ∀ fd, (child, fd) ∉ s.fds.live) (h : fork task child s = .ok s') : Step s s'
  | create {s s' : State} {env : Env} {v : Option ℕ} (henv : env.OnDisk) (fuel task : ℕ)
      (pathname : Name) (hmay : MayResolve task pathname s) (content : List UInt8)
      (hlen : content.length < sizeMod) (mode : ℕ)
      (h : create env fuel task pathname content mode s = .ok (v, s')) : Step s s'
  | mkdir {s s' : State} {env : Env} {ret : ℤ} (henv : env.OnDisk) (fuel task : ℕ)
      (pathname : Name) (hmay : MayResolve task pathname s)
      (h : mkdir env fuel task pathname s = .ok (ret, s')) : Step s s'
  | mknod {s s' : State} {env : Env} {ret : ℤ} (henv : env.OnDisk) (fuel task : ℕ)
      (pathname : Name) (hmay : MayResolve task pathname s) (mode dev : ℕ)
      (h : mknod env fuel task pathname mode dev s = .ok (ret, s')) : Step s s'
  | chdir {s s' : State} {env : Env} {ret : ℤ} (henv : env.OnDisk) (fuel task : ℕ)
      (pathname : Name) (hmay : MayResolve task pathname s)
      (h : chdir env fuel task pathname s = .ok (ret, s')) : Step s s'
  | mount {s s' : State} {env : Env} {ret : ℤ} (henv : env.OnDisk) (fuel task : ℕ)
      (mountpoint : Name) (hmay : MayResolve task mountpoint s) (fsName : FsName)
      (h : mount env fuel task mountpoint fsName s = .ok (ret, s')) : Step s s'
  | umount {s s' : State} {env : Env} {ret : ℤ} (henv : env.OnDisk) (fuel task : ℕ)
      (mountpoint : Name) (hmay : MayResolve task mountpoint s)
      (h : umount env fuel task mountpoint s = .ok (ret, s')) : Step s s'
  | open {s s' : State} {env : Env} {ret : ℤ} (henv : env.OnDisk) (fuel task : ℕ)
      (pathname : Name) (hmay : MayResolve task pathname s) (options : ℕ)
      (h : sysOpen env fuel task pathname options s = .ok (ret, s')) : Step s s'
  | read {s s' : State} {env : Env} {ret : ℤ} {bytes : List UInt8} (henv : env.OnDisk)
      (fuel task fd len : ℕ) (h : sysRead env fuel task fd len s = .ok (ret, bytes, s')) : Step s s'
  | write {s s' : State} {ret : ℤ} (task fd : ℕ) (bytes : List UInt8)
      (hlen : bytes.length < sizeMod) (h : sysWrite task fd bytes s = .ok (ret, s')) : Step s s'
  | close {s s' : State} {ret : ℤ} (task fd : ℕ) (h : sysClose task fd s = .ok (ret, s')) : Step s s'
  | mmap {s s' : State} {env : Env} (henv : env.OnDisk) (fuel task fd : ℕ) (fileOffset : ℤ) (n : ℕ)
      (h : sysMmap env fuel task fd fileOffset n s = .ok s') : Step s s'
  /-- Something else is allocated: the next address is any one that was not given out. -/
  | elsewhere {s : State} {next : ℕ} (h : s.next ≤ next) : Step s { s with next := next }

theorem good_init : Good init where
  vnodes _ _ h := by cases h
  files _ _ h := by cases h
  mounts _ h := by cases h
  cwd _ h := absurd h (Finset.notMem_empty _)

/-- No task has descriptors when the root file system has just been mounted. -/
theorem no_fds {root task : ℕ} {vnode : Vnode}
    (h : mountRootfs root (init.newVnode vnode).2 = .ok s) (fd : ℕ) : (task, fd) ∉ s.fds.live := by
  obtain rfl := Except.ok.inj h
  exact Finset.notMem_empty _

/-- **Every call keeps the vnodes and the files sound**, and puts what is new at new addresses. But
for the start of a task, `open` and `close` it leaves the tables alone. -/
theorem Good.tables (h : Good s) (hstep : Step s s') : Kept s s' ∨ (Good s' ∧ Grown s s') ∧
    ((∃ task, Vfs.newTask task s = .ok s') ∨ (∃ task child, Vfs.fork task child s = .ok s') ∨
      (∃ env fuel task pathname options ret,
        Vfs.sysOpen env fuel task pathname options s = .ok (ret, s')) ∨
      ∃ task fd ret, Vfs.sysClose task fd s = .ok (ret, s')) := by
  cases hstep with
  | newTask task hnew hx =>
    obtain ⟨h', hgrown, -⟩ := h.newTask task _ hx
    exact Or.inr ⟨⟨h', hgrown⟩, Or.inl ⟨task, hx⟩⟩
  | fork task child htask hnew hx =>
    exact Or.inr ⟨h.fork htask child _ hx, Or.inr (Or.inl ⟨task, child, hx⟩)⟩
  | «open» henv fuel task pathname hmay options hx =>
    exact Or.inr ⟨h.sysOpen henv hmay options _ hx,
      Or.inr (Or.inr (Or.inl ⟨_, fuel, task, pathname, options, _, hx⟩))⟩
  | close task fd hx =>
    exact Or.inr ⟨h.sysClose task fd _ hx, Or.inr (Or.inr (Or.inr ⟨task, fd, _, hx⟩))⟩
  | rootFAT32 rootCluster hx => exact Or.inl ((h.newFAT32 rootCluster).mountRootfs _ hx)
  | rootTmpFS hx => exact Or.inl (h.newTmpFS.mountRootfs _ hx)
  | create henv fuel task pathname hmay content hlen mode hx =>
    exact Or.inl (h.create henv hmay hlen mode _ hx).kept
  | mkdir henv fuel task pathname hmay hx => exact Or.inl (h.mkdir henv hmay _ hx)
  | mknod henv fuel task pathname hmay mode dev hx => exact Or.inl (h.mknod henv hmay mode dev _ hx)
  | chdir henv fuel task pathname hmay hx => exact Or.inl (h.chdir henv hmay _ hx)
  | mount henv fuel task mountpoint hmay fsName hx => exact Or.inl (h.mount henv hmay fsName _ hx)
  | umount henv fuel task mountpoint hmay hx => exact Or.inl (h.umount henv hmay _ hx)
  | read henv fuel task fd len hx =>
    rw [sysRead] at hx
    split at hx
    · obtain ⟨-, -, rfl⟩ := Exec.pure_eq_ok.mp hx
      exact Or.inl h.kept
    · exact Or.inl (h.read henv _ len _ hx)
  | write task fd bytes hlen hx => exact Or.inl (h.sysWrite task fd hlen _ hx)
  | mmap henv fuel task fd fileOffset n hx =>
    rw [sysMmap] at hx
    split at hx
    · obtain rfl := Exec.pure_eq_ok.mp hx
      exact Or.inl h.kept
    · exact Or.inl (h.mmapFile henv _ fileOffset n _ hx)
  | elsewhere hle =>
    refine Or.inl ⟨⟨⟨hle, fun _ hv => Or.inl hv, fun _ _ => rfl, fun _ hf => Or.inl hf, id⟩,
      rfl, rfl⟩, ?_⟩
    exact ⟨fun v vnode hv => (h.vnodes v vnode hv).mono State.Grows.rfl, h.files, h.mounts, h.cwd⟩

theorem Good.step (h : Good s) (hstep : Step s s') : Good s' ∧ Grown s s' :=
  (h.tables hstep).elim (fun hkept => ⟨hkept.good, hkept.toGrown⟩) And.left

/-- Vnodes are at addresses that were given out. -/
def Bounded (s : State) : Prop := ∀ v, s.Live v → v < s.next

theorem Grown.bounded (h : Grown s s') (hs : Bounded s) : Bounded s' := fun v hv =>
  (h.fresh v hv).elim (fun hold => (hs v hold).trans_le h.next) id

/-- **What holds of every state**: it is sound, and nothing is at an address that was not given
out. -/
structure Proper (s : State) : Prop where
  good : Good s
  bounded : Bounded s
  kin : Kin s

/-- **Every call keeps what is proper.** -/
theorem Proper.step (h : Proper s) (hstep : Step s s') : Proper s' :=
  have h' := h.good.step hstep
  ⟨h'.1, h'.2.bounded h.bounded, h'.2.kin h.kin⟩

theorem proper_of_run (hrun : Run Step init s) : Proper s := by
  refine hrun.invariant ⟨good_init, fun v hv => ?_, fun v vnode hv => ?_⟩ fun _ _ => Proper.step
  · obtain ⟨vnode, hv⟩ := hv
    cases hv
  · cases hv

theorem good_of_run (hrun : Run Step init s) : Good s := (proper_of_run hrun).good

theorem Proper.ne_next (h : Proper s) (hv : s.Live v) : v ≠ s.next := (h.bounded v hv).ne

theorem Proper.vnodes_next (h : Proper s) : s.vnodes s.next = none := by
  rw [← Option.not_isSome_iff_eq_none, Option.isSome_iff_exists]
  exact fun hlive => h.ne_next hlive rfl

/-! ### The children of a directory -/

/-- The first child with a name. -/
def findName (s : State) (children : List ℕ) (name : Name) : Option ℕ :=
  children.find? fun c => (s.vnodes c).map Vnode.name = some name

theorem findChild_eq {children : List ℕ} (hlive : ∀ c ∈ children, s.Live c) :
    findChild children name s = .ok (findName s children name) := by
  refine findM?_eq_ok children fun c hc => ?_
  obtain ⟨vnode, hv⟩ := hlive c hc
  rw [readVnode_of_some hv, hv, Option.map_some, Exec.ok_bind]
  exact congrArg Except.ok (decide_eq_decide.mpr Option.some_inj.symm)

end Valkyrie.Vfs
