import Valkyrie.Fs.VirtualFileSystem.OpenFiles

/-!
# Closing a file that others have open

All who open a file get the same `File`, and with it one position. `close` sets the position
to 0, whoever else has the file open. The `File` itself is safe: it stays in the table as long
as a descriptor refers to it.

A run of opens, reads and closes of one TmpFS file (`Valkyrie.Vfs.SharedStep`) records where
the previous read of each descriptor ended. After a close, the other descriptors go on from
there exactly when they had not yet moved.
-/

namespace Valkyrie.Vfs

open Exec

variable {env : Env} {fuel task fd f v : ℕ} {pathname : Name} {options : ℕ} {s s' : State}

/-! ### Opens, reads and closes of one file -/

/-- A descriptor that is not one of the console is one of the vnode. -/
def RefersTo (v : ℕ) (x : ℕ × ℕ) (s : State) : Prop :=
  3 ≤ x.2 ∧ (s.fds.holds x).bind (fun f => s.fileVnode f) = some (some v)

/-- The position of the file that a descriptor refers to. -/
def position (x : ℕ × ℕ) (s : State) : ℕ := ((s.fds.holds x).bind s.files).elim 0 File.pos

/-- The state, and where the previous read of each descriptor ended. -/
structure Readers where
  state : State
  /-- 0 for a descriptor that was opened and not read from yet. -/
  last : ℕ × ℕ → ℕ

/-- **A task opens the file, reads from it or closes it.** An open that finds no free descriptor
returns -1. -/
inductive SharedStep (v : ℕ) : Readers → Readers → Prop
  | open {w : Readers} {s₁ s' : State} {env : Env} {fuel task : ℕ} {pathname basename : Name}
      {options : ℕ} {parent : Option ℕ} {ret : ℤ} (henv : env.OnDisk)
      (htask : (task, 0) ∈ w.state.fds.live)
      (hpath : resolvePath env fuel task pathname w.state = .ok (some v, parent, basename, s₁))
      (h : sysOpen env fuel task pathname options w.state = .ok (ret, s')) :
      SharedStep v w ⟨s', fun x => if x.1 = task ∧ x.2 = ret then 0 else w.last x⟩
  | read {w : Readers} {s' : State} {env : Env} {fuel task fd len : ℕ} {ret : ℤ}
      {bytes : List UInt8} (henv : env.OnDisk) (hfd : RefersTo v (task, fd) w.state)
      (h : sysRead env fuel task fd len w.state = .ok (ret, bytes, s')) :
      SharedStep v w ⟨s', Function.update w.last (task, fd) (position (task, fd) s')⟩
  | close {w : Readers} {s' : State} {task fd : ℕ} {ret : ℤ}
      (hfd : RefersTo v (task, fd) w.state) (h : sysClose task fd w.state = .ok (ret, s')) :
      SharedStep v w ⟨s', w.last⟩

/-- **The descriptor is usable, and the next read starts at the position**: it copies the bytes from
there on, as many as were asked for and there are. -/
def Continues (x : ℕ × ℕ) (pos : ℕ) (s : State) : Prop :=
  ∃ f file vnode content, getFileByFd x.1 x.2 s = some f ∧ OfTmpFS f file vnode content s ∧
    file.pos = pos ∧ ∀ env fuel len, ReadsWithin env fuel f len vnode.size pos content s

/-- The vnode is that of a regular TmpFS file. -/
def IsTmpFile (v : ℕ) (s : State) : Prop :=
  ∃ vnode root name content parent children, s.vnodes v = some vnode ∧
    vnode.isRegularFile = true ∧ vnode.impl = .tmpfs root name content parent children

/-! ### The file stays in the table -/

/-- **The invariant**: the tables are sound, and the file of a descriptor of the vnode is in the
table. -/
structure Shares (v : ℕ) (s : State) : Prop extends Sound s where
  listed : ∀ x f, 3 ≤ x.2 → s.fds.holds x = some f → s.fileVnode f = some (some v) →
    f ∈ s.openedFiles

theorem Table.shares (h : Table s) (v : ℕ) : Shares v s :=
  ⟨h.toSound, fun x f hfd hx _ => (h.refers f).mpr ⟨x.1, x.2, hfd, hx⟩⟩

theorem RefersTo.exists_opened {x : ℕ × ℕ} (hx : RefersTo v x s) (h : Shares v s) :
    ∃ f ∈ s.openedFiles, s.fds.holds x = some f ∧ s.fileVnode f = some (some v) := by
  obtain ⟨f, hf, hv⟩ := Option.bind_eq_some_iff.mp hx.2
  exact ⟨f, h.listed x f hx.1 hf hv, hf, hv⟩

theorem Shares.getFileByFd (h : Shares v s) (hf : s.fds.holds (task, fd) = some f) :
    getFileByFd task fd s = some f := by
  rw [Vfs.getFileByFd, if_pos (h.whole _ (h.held _ f hf).1).1, hf]

theorem Shares.of_kept (h : Shares v s) (hk : Kept s s') : Shares v s' := by
  refine ⟨h.toSound.of_kept hk, fun x f hfd hx hv => ?_⟩
  rw [hk.openedFiles]
  rw [hk.fds] at hx
  exact h.listed x f hfd hx ((hk.files f (h.held x f hx).2).symm.trans hv)

theorem Shares.allocateFdForFile (h : Shares v s) (hf : f ∈ s.openedFiles)
    (htask : (task, 0) ∈ s.fds.live) : Shares v (allocateFdForFile task f s).2 := by
  obtain ⟨-, hEq⟩ | ⟨fd, hfd, hnone, hEq, hsound⟩ := h.toSound.allocateFdForFile hf htask
  · rw [hEq]
    exact h
  · rw [hEq]
    refine ⟨hsound, fun x f' hx hholds hv => ?_⟩
    rcases eq_or_ne x (task, fd) with rfl | hne
    · rw [Handles.holds_set_self] at hholds
      exact Option.some.inj hholds ▸ hf
    · rw [Handles.holds_set_of_ne _ _ hne] at hholds
      exact h.listed x f' hx hholds hv

theorem Shares.sysOpen (h : Shares v s) (henv : env.OnDisk) (htask : (task, 0) ∈ s.fds.live)
    {parent : Option ℕ} {basename : Name} {s₁ : State} {ret : ℤ}
    (hpath : resolvePath env fuel task pathname s = .ok (some v, parent, basename, s₁))
    (hopen : sysOpen env fuel task pathname options s = .ok (ret, s')) : Shares v s' := by
  have hleaves := (h.good.resolvePath henv (Or.inr htask) _ hpath).1
  replace hleaves : Leaves s s₁ (some v) := hleaves
  have h₁ : Shares v s₁ := h.of_kept hleaves.kept
  have htask₁ : (task, 0) ∈ s₁.fds.live := hleaves.fds ▸ htask
  rw [Vfs.sysOpen, openFile, hpath, ok_bind] at hopen
  dsimp only at hopen
  rw [h₁.findOpened, ok_bind] at hopen
  rcases hfind : s₁.openedFiles.find? fun f => s₁.fileVnode f = some (some v) with _ | f
  · have hnew : ∀ f ∈ s₁.openedFiles, s₁.fileVnode f ≠ some (some v) := fun f hf hw =>
      List.find?_eq_none.mp hfind f hf (decide_eq_true hw)
    have hv : ∀ v' ∈ some v, v' < s₁.next := fun v' hv' =>
      h₁.bounded v' (hleaves.result v' hv')
    have h₂ : Shares v (s₁.newFile ⟨some v, 0, options⟩).2 := by
      refine ⟨h₁.toSound.newFile hnew hv options, fun x f hfd hx hw => ?_⟩
      have hlt : f < s₁.next := (h₁.held x f hx).2
      rw [State.fileVnode_newFile_of_lt hlt] at hw
      exact State.mem_newFile.mpr (Or.inl (h₁.listed x f hfd hx hw))
    rw [hfind] at hopen
    obtain rfl : (Vfs.allocateFdForFile task s₁.next (s₁.newFile ⟨some v, 0, options⟩).2).2 = s' :=
      congrArg Prod.snd (pure_eq_ok.mp hopen)
    exact h₂.allocateFdForFile (State.mem_newFile.mpr (Or.inr rfl)) htask₁
  · rw [hfind] at hopen
    obtain rfl : (Vfs.allocateFdForFile task f s₁).2 = s' :=
      congrArg Prod.snd (pure_eq_ok.mp hopen)
    exact h₁.allocateFdForFile (List.mem_of_find?_eq_some hfind) htask₁

/-- **What a close of the file leaves**: the position is 0, and the file stays in the table if
another descriptor refers to it. -/
theorem Shares.sysClose (h : Shares v s) {ret : ℤ} (hfd : RefersTo v (task, fd) s)
    (hclose : sysClose task fd s = .ok (ret, s')) :
    ∃ f ∈ s.openedFiles, s.fds.holds (task, fd) = some f ∧ s.fileVnode f = some (some v) ∧
      Shares v s' ∧ s'.files = (s.setPos f 0).files ∧ s'.vnodes = s.vnodes ∧
        s'.fds = s.fds.set (task, fd) none := by
  obtain ⟨f, hmem, hf, hv⟩ := hfd.exists_opened h
  have hlive := (h.held _ f hf).1
  have hset : Shares v { s with fds := s.fds.set (task, fd) none } := by
    refine ⟨h.toSound.set hlive hfd.1 (fun f' hf' => by cases hf'), fun x f' hx hholds hw => ?_⟩
    rcases eq_or_ne x (task, fd) with rfl | hne
    · rw [Handles.holds_set_self] at hholds
      cases hholds
    · rw [Handles.holds_set_of_ne _ _ hne] at hholds
      exact h.listed x f' hx hholds hw
  have hpos := hset.of_kept (hset.good.setPos f (show 0 < sizeMod by decide))
  have hfind := hset.findOpened_of_mem hmem hv
  have hcount : s.openedFiles.count f = 1 := List.count_eq_one_of_mem h.nodup hmem
  refine ⟨f, hmem, hf, hv, ?_⟩
  obtain ⟨file, hfile, hw⟩ := Option.map_eq_some_iff.mp hv
  rw [Vfs.sysClose, h.getFileByFd hf] at hclose
  dsimp only at hclose
  rw [close, State.readFile, hfile, ok_bind, hw, hfind, ok_bind] at hclose
  dsimp only at hclose
  split_ifs at hclose with hle
  · cases pure_eq_ok.mp hclose
    refine ⟨⟨hpos.toSound.erase f, fun x f' hx hholds hw => ?_⟩, rfl, rfl, rfl⟩
    -- Nobody holds what leaves the table.
    refine hpos.mem_erase.mpr ⟨?_, hpos.listed x f' hx hholds hw⟩
    rintro rfl
    have hzero : (s.fds.set (task, fd) none).count ∅ f' = 0 := by
      simp only [useCount, State.setPos, hcount] at hle
      omega
    exact Handles.count_eq_zero.mp hzero x (hpos.held x f' hholds).1 (Finset.notMem_empty x) hholds
  · cases pure_eq_ok.mp hclose
    exact ⟨hpos, rfl, rfl, rfl⟩

theorem Shares.step {w w' : Readers} (h : Shares v w.state) (hstep : SharedStep v w w') :
    Shares v w'.state := by
  cases hstep with
  | «open» henv htask hpath hopen => exact h.sysOpen henv htask hpath hopen
  | read henv hfd hread =>
    obtain ⟨f, -, hf, -⟩ := hfd.exists_opened h
    rw [sysRead, h.getFileByFd hf] at hread
    exact h.of_kept (h.good.read henv f _ _ hread)
  | close hfd hclose =>
    obtain ⟨f, -, -, -, h', -⟩ := h.sysClose hfd hclose
    exact h'

theorem Shares.of_run {w w' : Readers} (h : Shares v w.state)
    (hrun : Run (SharedStep v) w w') : Shares v w'.state :=
  hrun.invariant (P := fun w => Shares v w.state) h fun _ _ ha hstep => ha.step hstep

/-! ### The other descriptors -/

/-- After a close, every other descriptor of the file is usable, and reads from the start. -/
theorem Shares.continues (h : Shares v s) {ret : ℤ} {x : ℕ × ℕ} (htmp : IsTmpFile v s)
    (hfd : RefersTo v (task, fd) s) (hclose : Vfs.sysClose task fd s = .ok (ret, s'))
    (hne : x ≠ (task, fd)) (hx : RefersTo v x s) : Continues x 0 s' ∧ position x s' = 0 := by
  obtain ⟨f, hmem, -, hv, h', hfiles, hvnodes, hfds⟩ := h.sysClose hfd hclose
  obtain ⟨f', hmem', hx', hv'⟩ := hx.exists_opened h
  obtain rfl : f' = f := h.one f' hmem' f hmem (hv'.trans hv.symm)
  obtain ⟨file, hfile, hw⟩ := Option.map_eq_some_iff.mp hv
  obtain ⟨vnode, root, name, content, parent, children, hvnode, hreg, himpl⟩ := htmp
  have hholds : s'.fds.holds x = some f' := by
    rw [hfds, Handles.holds_set_of_ne _ _ hne, hx']
  have hopened : s'.files f' = some { file with pos := 0 } := by
    rw [hfiles]
    refine (Function.update_self ..).trans ?_
    rw [hfile, Option.map_some]
  have hof : OfTmpFS f' { file with pos := 0 } vnode content s' :=
    ⟨hopened, ⟨v, hw, hvnodes ▸ hvnode⟩, hreg, root, name, parent, children, himpl⟩
  refine ⟨⟨f', _, vnode, content, h'.getFileByFd hholds, hof, rfl, fun env fuel len => ?_⟩, ?_⟩
  · exact hof.readsWithin h'.good (Nat.zero_le _)
  · rw [position, hholds, Option.bind_some, hopened, Option.elim_some]

theorem Continues.position_eq {x : ℕ × ℕ} {pos : ℕ} (h : Continues x pos s) :
    position x s = pos := by
  obtain ⟨f, file, vnode, content, hget, hof, hpos, -⟩ := h
  have hholds : s.fds.holds x = some f := by
    rw [getFileByFd] at hget
    split_ifs at hget
    exact hget
  rw [position, hholds, Option.bind_some, hof.opened, Option.elim_some, hpos]

/-- **When a close does not disturb the others**: all other descriptors of the file go on where
their previous read ended exactly when that is the start of the file for each of them. -/
theorem continues_iff {s₀ : State} {last₀ : ℕ × ℕ → ℕ} {w : Readers} {ret : ℤ}
    (hrun₀ : Run TidyStep init s₀) (hrun : Run (SharedStep v) ⟨s₀, last₀⟩ w)
    (htmp : IsTmpFile v w.state) (hfd : RefersTo v (task, fd) w.state)
    (hclose : sysClose task fd w.state = .ok (ret, s')) :
    (∀ x, x ≠ (task, fd) → RefersTo v x w.state → Continues x (w.last x) s') ↔
      ∀ x, x ≠ (task, fd) → RefersTo v x w.state → w.last x = 0 := by
  have h : Shares v w.state := ((table_of_run hrun₀).shares v).of_run hrun
  refine forall_congr' fun x => forall_congr' fun hne => forall_congr' fun hx => ?_
  obtain ⟨hcontinues, hzero⟩ := h.continues htmp hfd hclose hne hx
  constructor
  · exact fun hlast => hlast.position_eq.symm.trans hzero
  · intro hlast
    rw [hlast]
    exact hcontinues

/-! ### Two descriptors of one file -/

/-- `/a` is opened by the task, which has a free descriptor. -/
def openA (options : ℕ) (s : State) : Exec State := do
  if (1, 0) ∈ s.fds.live ∧ s.fds.holds (1, 5) = none then
    return (← sysOpen noDisk 1 1 [slash, 97] options s).2
  else .error .wild

theorem tidyStep_openA : Ensures (openA options s) (TidyStep s) := by
  rw [openA]
  split_ifs with hopen
  · refine ensures_bind fun r hr => ensures_pure ?_
    exact ⟨.open noDisk 1 1 [slash, 97] options, Or.inl ⟨5, by decide, hopen.2⟩,
      .open onDisk_noDisk hopen.1 hr⟩
  · exact ensures_error _

/-- `/a` is created and written to, and then the task has it open twice, as 3 and 4. -/
def twoReaders : Exec State := do
  let s ← startTask
  let s ← openA oCreat s
  let (_, s) ← sysWrite 1 3 [1, 2, 3] s
  let (_, s) ← sysClose 1 3 s
  let s ← openA 0 s
  openA 0 s

theorem twoReaders_run : Ensures twoReaders (Run TidyStep init) := by
  refine ensures_bind fun s₁ h₁ => ensures_bind fun s₂ h₂ => ensures_bind fun ⟨_, s₃⟩ h₃ =>
    ensures_bind fun ⟨_, s₄⟩ h₄ => ensures_bind fun s₅ h₅ s₆ h₆ => ?_
  have hrun : Run TidyStep init s₂ := (startTask_run s₁ h₁).1.tail (tidyStep_openA s₂ h₂)
  have hlen : [(1 : UInt8), 2, 3].length < sizeMod := by decide +kernel
  have hwrite := (table_of_run hrun).good.sysWrite 1 3 hlen _ h₃
  exact (((hrun.tail ⟨.other, trivial, .other (.write 1 3 [1, 2, 3] hlen h₃) hwrite.toKeeps⟩).tail
    ⟨.close 1 3, Or.inl le_rfl, .close h₄⟩).tail (tidyStep_openA s₅ h₅)).tail (tidyStep_openA s₆ h₆)

/-- A test for a regular TmpFS file. -/
def isTmpFile (v : ℕ) (s : State) : Bool :=
  match s.vnodes v with
  | none => false
  | some vnode =>
    match vnode.impl with
    | .tmpfs .. => vnode.isRegularFile
    | _ => false

theorem isTmpFile_spec (h : isTmpFile v s = true) : IsTmpFile v s := by
  rw [isTmpFile] at h
  split at h
  · cases h
  · rename_i vnode hvnode
    split at h
    · rename_i root name content parent children himpl
      exact ⟨vnode, root, name, content, parent, children, hvnode, h, himpl⟩
    · cases h

/-- Neither descriptor was read from when the first is closed. -/
theorem continues_iff_unread : ∃ s s' ret, Run TidyStep init s ∧ RefersTo 3 (1, 4) s ∧
    sysClose 1 3 s = .ok (ret, s') ∧ Continues (1, 4) 0 s' := by
  have hcheck : check (fun s => isTmpFile 3 s &&
      decide ((s.fds.holds (1, 3)).bind (fun f => s.fileVnode f) = some (some 3)) &&
      decide ((s.fds.holds (1, 4)).bind (fun f => s.fileVnode f) = some (some 3)) &&
      check (fun _ => true) (sysClose 1 3 s)) twoReaders = true := by decide +kernel
  obtain ⟨s, hs, htest⟩ := exists_ok_of_check hcheck
  simp only [Bool.and_eq_true, decide_eq_true_eq] at htest
  obtain ⟨⟨⟨htmp, h₃⟩, h₄⟩, hclose⟩ := htest
  obtain ⟨⟨ret, s'⟩, hclose, -⟩ := exists_ok_of_check hclose
  have hrun := twoReaders_run s hs
  have hrefers : RefersTo 3 (1, 4) s := ⟨by decide, h₄⟩
  refine ⟨s, s', ret, hrun, hrefers, hclose, ?_⟩
  have hnone : Run (SharedStep 3) ⟨s, fun _ => 0⟩ ⟨s, fun _ => 0⟩ := Relation.ReflTransGen.refl
  have hcontinues := (continues_iff hrun hnone (isTmpFile_spec htmp) ⟨le_rfl, h₃⟩ hclose).mpr
    fun x _ _ => rfl
  exact hcontinues (1, 4) (by decide) hrefers

/-- Two bytes are read through the one descriptor, and the other one is closed: the position is 0
again. -/
theorem close_resets_position : ∃ s w s' ret, Run TidyStep init s ∧
    Run (SharedStep 3) ⟨s, fun _ => 0⟩ w ∧ RefersTo 3 (1, 3) w.state ∧ RefersTo 3 (1, 4) w.state ∧
      sysClose 1 3 w.state = .ok (ret, s') ∧ w.last (1, 4) = 2 ∧ position (1, 4) s' = 0 ∧
        ¬Continues (1, 4) (w.last (1, 4)) s' := by
  have hcheck : check (fun s =>
      decide ((s.fds.holds (1, 4)).bind (fun f => s.fileVnode f) = some (some 3)) &&
      check (fun r => decide (position (1, 4) r.2.2 = 2) &&
        decide ((r.2.2.fds.holds (1, 3)).bind (fun f => r.2.2.fileVnode f) = some (some 3)) &&
        decide ((r.2.2.fds.holds (1, 4)).bind (fun f => r.2.2.fileVnode f) = some (some 3)) &&
        check (fun r => decide (position (1, 4) r.2 = 0)) (sysClose 1 3 r.2.2))
          (sysRead noDisk 1 1 4 2 s)) twoReaders = true := by decide +kernel
  obtain ⟨s, hs, htest⟩ := exists_ok_of_check hcheck
  simp only [Bool.and_eq_true, decide_eq_true_eq] at htest
  obtain ⟨hrefers, htest⟩ := htest
  obtain ⟨⟨ret, bytes, s₁⟩, hread, htest⟩ := exists_ok_of_check htest
  simp only [Bool.and_eq_true, decide_eq_true_eq] at htest
  obtain ⟨⟨⟨hpos, h₃⟩, h₄⟩, hclose⟩ := htest
  obtain ⟨⟨ret', s'⟩, hclose, hzero⟩ := exists_ok_of_check hclose
  have hlast : Function.update (fun _ => 0) (1, 4) (position (1, 4) s₁) (1, 4) = 2 := by
    rw [Function.update_self, hpos]
  refine ⟨s, ⟨s₁, _⟩, s', ret', twoReaders_run s hs,
    Relation.ReflTransGen.single (.read onDisk_noDisk ⟨by decide, hrefers⟩ hread),
    ⟨le_rfl, h₃⟩, ⟨by decide, h₄⟩, hclose, hlast, of_decide_eq_true hzero, fun hcontinues => ?_⟩
  have hEq := (of_decide_eq_true hzero).symm.trans (hcontinues.position_eq.trans hlast)
  cases hEq

end Valkyrie.Vfs
