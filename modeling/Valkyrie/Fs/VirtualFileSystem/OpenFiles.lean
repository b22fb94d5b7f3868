import Valkyrie.Fs.Elf
import Valkyrie.Fs.VirtualFileSystem.Read

/-!
# The table of opened files and the descriptors

A file stays in the table of opened files as long as somebody holds it. `close` decides this by a
use count, which it compares with 3: the table, the caller and itself. This is right for
`sys_close`. `Task::exec` gives its handle away and so is one short; when it fails it does not
call `close` at all; and `sys_open` forgets the file when no descriptor is left for it.

The calls are those of the virtual file system, `exec`, `exit` and the end of a task
(`Valkyrie.Vfs.Event`). What they keep, as long as none of the three things happens and the
descriptors of the console stay open (`Valkyrie.Vfs.Call.Tidy`), is that the table holds exactly
the files that descriptors refer to (`Valkyrie.Vfs.Table`).
-/

namespace Valkyrie.Vfs

open Exec Finset

variable {env : Env} {fuel task fd f held : ℕ} {pathname : Name} {options : ℕ} {s s' : State}
  {w : Option ℕ}

/-! ### Calls of a task -/

/-- `load_elf_binary`, as far as the file goes. -/
def loadElfBinary (env : Env) (fuel f : ℕ) (segments : List Elf.Segment) (s : State) :
    Exec State :=
  segments.foldlM (fun s seg =>
    let m := Elf.mapping seg
    if seg.type ≠ Elf.load ∨ m.refused ∨ m.anonymous then pure s
    else mmapFile env fuel f m.fileOffset m.pages s) s

/-- `Task::exec`, as far as the files go, and whether the new program is run. The handle is
moved into `close`. -/
def exec (env : Env) (fuel task : ℕ) (pathname : Name) (s : State) : Exec (Bool × State) := do
  let (file, s) ← openFile env fuel task pathname 0 s
  match file with
  | none => return (false, s)
  | some f =>
    match (← s.readFile f).vnode with
    | none => .error .wild
    | some v =>
      let content := (getContent env (← s.readVnode v)).1
      let segments ← Elf.segments content
      if Elf.isValid content then
        let s ← loadElfBinary env fuel f segments s
        return (true, (← closeWith 1 f s).2)
      else
        return (false, s)

/-- The descriptors that `Task::exit` closes. -/
def unclosed : List ℕ := List.range' 3 (nrTaskFdLimits - 3)

/-- `Task::exit`, as far as the files go. -/
def exit (task : ℕ) (s : State) : Exec State :=
  unclosed.foldlM (fun s fd =>
    if (s.fds.holds (task, fd)).isSome then do return (← sysClose task fd s).2
    else pure s) s

/-- `Task::~Task`, as far as the files go. -/
def reap (task : ℕ) (s : State) : State :=
  { s with fds := (List.range nrTaskFdLimits).foldl (fun fds i => fds.remove (task, i)) s.fds }

/-- A call, and what it depends on. -/
inductive Call where
  | other : Call
  | newTask (task : ℕ) : Call
  | fork (task child : ℕ) : Call
  | open (env : Env) (fuel task : ℕ) (pathname : Name) (options : ℕ) : Call
  | close (task fd : ℕ) : Call
  | exec (env : Env) (fuel task : ℕ) (pathname : Name) : Call
  | exit (task : ℕ) : Call
  | reap (task : ℕ) : Call

/-- **A call.** The ones that are not named leave the tables alone (`Valkyrie.Vfs.Good.tables`). A
task ends after it has exited, and so has closed its descriptors. -/
inductive Event : Call → State → State → Prop
  | other {s s' : State} (h : Step s s') (hkeeps : Keeps s s') : Event .other s s'
  | newTask {s s' : State} {task : ℕ} (hnew : ∀ fd, (task, fd) ∉ s.fds.live)
      (h : newTask task s = .ok s') : Event (.newTask task) s s'
  | fork {s s' : State} {task child : ℕ} (htask : (task, 0) ∈ s.fds.live)
      (hnew : ∀ fd, (child, fd) ∉ s.fds.live) (h : fork task child s = .ok s') :
      Event (.fork task child) s s'
  | open {s s' : State} {env : Env} {fuel task : ℕ} {pathname : Name} {options : ℕ} {ret : ℤ}
      (henv : env.OnDisk) (htask : (task, 0) ∈ s.fds.live)
      (h : sysOpen env fuel task pathname options s = .ok (ret, s')) :
      Event (.open env fuel task pathname options) s s'
  | close {s s' : State} {task fd : ℕ} {ret : ℤ} (h : sysClose task fd s = .ok (ret, s')) :
      Event (.close task fd) s s'
  | exec {s s' : State} {env : Env} {fuel task : ℕ} {pathname : Name} {run : Bool}
      (henv : env.OnDisk) (htask : (task, 0) ∈ s.fds.live)
      (h : exec env fuel task pathname s = .ok (run, s')) : Event (.exec env fuel task pathname) s s'
  | exit {s s' : State} {task : ℕ} (h : exit task s = .ok s') : Event (.exit task) s s'
  | reap {s : State} {task : ℕ} (hclosed : ∀ fd, 3 ≤ fd → s.fds.holds (task, fd) = none) :
      Event (.reap task) s (reap task s)

/-! ### What is claimed of the tables -/

/-- The vnode of a file, if there is the file. -/
def State.fileVnode (f : ℕ) (s : State) : Option (Option ℕ) := (s.files f).map File.vnode

/-- A descriptor of a task refers to the file, and not one of the console. -/
def Referred (f : ℕ) (s : State) : Prop := ∃ task fd, 3 ≤ fd ∧ s.fds.holds (task, fd) = some f

/-- **The table matches the descriptors**, and an open descriptor can be closed. -/
structure Matches (s : State) : Prop where
  refers : ∀ f, f ∈ s.openedFiles ↔
    ∃ task fd, 3 ≤ fd ∧ (task, fd) ∈ s.fds.live ∧ s.fds.holds (task, fd) = some f
  close : ∀ task fd f, 3 ≤ fd → s.fds.holds (task, fd) = some f →
    ∃ s', sysClose task fd s = .ok (0, s')

/-- The number of descriptors that refer to a file of this vnode. -/
def descriptors (w : Option ℕ) (s : State) : ℕ :=
  (s.fds.live.filter fun x => 3 ≤ x.2 ∧ (s.fds.holds x).bind s.fileVnode = some w).card

/-- What `sys_open` and `exec` come to a good end with, by what the path leads to.

* `sys_open`: the task has a free descriptor; or a descriptor refers to the file already; or there
  is no such file, and it shall not be created.
* `sys_close`: the descriptor is not one of the console.
* `exec`: the file is an ELF image, and not exactly one descriptor refers to it; or it is none, and
  some descriptor refers to it. -/
def Call.Tidy (s : State) : Call → Prop
  | .open env fuel task pathname options =>
    (∃ fd < nrTaskFdLimits, s.fds.holds (task, fd) = none) ∨
      ∀ target parent basename s',
        resolvePath env fuel task pathname s = .ok (target, parent, basename, s') →
          descriptors target s ≠ 0 ∨ target = none ∧ options &&& oCreat = 0
  | .close task fd => 3 ≤ fd ∨ getFileByFd task fd s = none
  | .exec env fuel task pathname =>
    ∀ v parent basename s' vnode,
      resolvePath env fuel task pathname s = .ok (some v, parent, basename, s') →
        s'.vnodes v = some vnode →
          if Elf.isValid (getContent env vnode).1 then descriptors (some v) s ≠ 1
          else descriptors (some v) s ≠ 0
  | _ => True

/-- Any call. -/
def CallStep (s s' : State) : Prop := ∃ call : Call, Event call s s'

/-- A call that comes to a good end. -/
def TidyStep (s s' : State) : Prop := ∃ call : Call, call.Tidy s ∧ Event call s s'

/-! ### What the calls keep -/

/-- **The tables are sound**: opened files are at old addresses and have different vnodes; tasks
have sixteen descriptors, of which the first three refer to a file that is not in the table. -/
structure Sound (s : State) : Prop where
  good : Good s
  bounded : Bounded s
  opened : ∀ f ∈ s.openedFiles, f < s.next ∧ ∃ w, s.fileVnode f = some w ∧ ∀ v ∈ w, v < s.next
  nodup : s.openedFiles.Nodup
  one : ∀ f ∈ s.openedFiles, ∀ f' ∈ s.openedFiles, s.fileVnode f = s.fileVnode f' → f = f'
  held : ∀ x f, s.fds.holds x = some f → x ∈ s.fds.live ∧ f < s.next
  whole : ∀ x ∈ s.fds.live, x.2 < nrTaskFdLimits ∧ ∀ i < nrTaskFdLimits, (x.1, i) ∈ s.fds.live
  standard : ∀ x ∈ s.fds.live, x.2 < 3 → ∃ f, s.fds.holds x = some f ∧ f ∉ s.openedFiles

/-- **The invariant**: the table holds exactly the files that descriptors refer to. -/
structure Table (s : State) : Prop extends Sound s where
  refers : ∀ f, f ∈ s.openedFiles ↔ Referred f s

theorem Sound.of_kept (h : Sound s) (hk : Kept s s') : Sound s' := by
  have hvnode : ∀ f ∈ s.openedFiles, s'.fileVnode f = s.fileVnode f :=
    fun f hf => hk.files f (h.opened f hf).1
  refine ⟨hk.good, hk.bounded h.bounded, ?_, hk.openedFiles ▸ h.nodup, ?_, ?_, ?_, ?_⟩
  · rw [hk.openedFiles]
    intro f hf
    obtain ⟨hlt, w, hw, hold⟩ := h.opened f hf
    exact ⟨hlt.trans_le hk.next, w, (hvnode f hf).trans hw,
      fun v hv => (hold v hv).trans_le hk.next⟩
  · rw [hk.openedFiles]
    intro f hf f' hf' hEq
    rw [hvnode f hf, hvnode f' hf'] at hEq
    exact h.one f hf f' hf' hEq
  · rw [hk.fds]
    exact fun x f hx => (h.held x f hx).imp_right fun hlt => hlt.trans_le hk.next
  · rw [hk.fds]
    exact h.whole
  · rw [hk.fds, hk.openedFiles]
    exact h.standard

theorem Table.of_kept (h : Table s) (hk : Kept s s') : Table s' := by
  refine ⟨h.toSound.of_kept hk, ?_⟩
  rw [hk.openedFiles]
  simp only [Referred, hk.fds]
  exact h.refers

/-- A search of the table finds the first file of the vnode. -/
theorem findOpened_eq (h : ∀ f ∈ s.openedFiles, (s.files f).isSome) (w : Option ℕ) :
    findOpened w s = .ok (s.openedFiles.find? fun f => s.fileVnode f = some w) := by
  refine findM?_eq_ok _ fun f hf => ?_
  obtain ⟨file, hfile⟩ := Option.isSome_iff_exists.mp (h f hf)
  rw [State.readFile, State.fileVnode, hfile, Option.map_some, ok_bind]
  refine congrArg Except.ok (decide_eq_decide.mpr ?_)
  exact Option.some_inj.symm

theorem Sound.findOpened (h : Sound s) (w : Option ℕ) :
    findOpened w s = .ok (s.openedFiles.find? fun f => s.fileVnode f = some w) := by
  refine findOpened_eq (fun f hf => ?_) w
  obtain ⟨-, w', hw', -⟩ := h.opened f hf
  rw [← Option.isSome_map (f := File.vnode)]
  exact Option.isSome_of_mem hw'

theorem Sound.findOpened_of_mem (h : Sound s) (hf : f ∈ s.openedFiles)
    (hw : s.fileVnode f = some w) : Vfs.findOpened w s = .ok (some f) := by
  rw [h.findOpened]
  obtain ⟨f', hf'⟩ := Option.isSome_iff_exists.mp (List.find?_isSome.mpr
    ⟨f, hf, decide_eq_true hw⟩ : (s.openedFiles.find? fun f => s.fileVnode f = some w).isSome)
  have hw' := of_decide_eq_true (List.find?_some (p := fun f => decide (s.fileVnode f = some w)) hf')
  rw [hf', h.one f' (List.mem_of_find?_eq_some hf') f hf (hw'.trans hw.symm)]

/-- As many handles hold an opened file as descriptors refer to its vnode. -/
theorem Table.count_eq (h : Table s) (hf : f ∈ s.openedFiles) (hw : s.fileVnode f = some w) :
    s.fds.count ∅ f = descriptors w s := by
  refine congrArg card (ext fun x => ?_)
  rw [Handles.mem_holders, mem_filter]
  refine and_congr_right fun hx => ⟨?_, ?_⟩
  · rintro ⟨-, hholds⟩
    refine ⟨not_lt.mp fun hlt => ?_, by rw [hholds]; exact hw⟩
    obtain ⟨f', hf', hnot⟩ := h.standard x hx hlt
    exact hnot (Option.some.inj (hholds.symm.trans hf') ▸ hf)
  · rintro ⟨hle, hvnode⟩
    obtain ⟨f', hholds, hf'⟩ := Option.bind_eq_some_iff.mp hvnode
    refine ⟨notMem_empty x, hholds.trans (congrArg some ?_)⟩
    exact h.one f' ((h.refers f').mpr ⟨x.1, x.2, hle, hholds⟩) f hf (hf'.trans hw.symm)

/-- A vnode that descriptors refer to is that of an opened file. -/
theorem Table.exists_opened (h : Table s) (hw : descriptors w s ≠ 0) :
    ∃ f ∈ s.openedFiles, s.fileVnode f = some w := by
  obtain ⟨x, hx⟩ := card_pos.mp (Nat.pos_of_ne_zero hw)
  obtain ⟨-, hle, hvnode⟩ := mem_filter.mp hx
  obtain ⟨f, hholds, hf⟩ := Option.bind_eq_some_iff.mp hvnode
  exact ⟨f, (h.refers f).mpr ⟨x.1, x.2, hle, hholds⟩, hf⟩

theorem Sound.referred_iff (h : Sound s) (hf : f ∈ s.openedFiles) :
    Referred f s ↔ s.fds.count ∅ f ≠ 0 := by
  rw [← Nat.pos_iff_ne_zero, Handles.count_pos]
  constructor
  · rintro ⟨task, fd, -, hholds⟩
    exact ⟨(task, fd), (h.held _ f hholds).1, notMem_empty _, hholds⟩
  · rintro ⟨x, hx, -, hholds⟩
    refine ⟨x.1, x.2, not_lt.mp fun hlt => ?_, hholds⟩
    obtain ⟨f', hf', hnot⟩ := h.standard x hx hlt
    exact hnot (Option.some.inj (hholds.symm.trans hf') ▸ hf)

/-! ### Closing -/

/-- **What is right but for one file**: the table holds it, and otherwise the files that
descriptors refer to. -/
structure Pending (f : ℕ) (s : State) : Prop extends Sound s where
  mem : f ∈ s.openedFiles
  others : ∀ f' ≠ f, (f' ∈ s.openedFiles ↔ Referred f' s)

theorem Table.pending (h : Table s) (hf : f ∈ s.openedFiles) : Pending f s :=
  ⟨h.toSound, hf, fun f' _ => h.refers f'⟩

theorem Pending.table (h : Pending f s) (hf : Referred f s) : Table s := by
  refine ⟨h.toSound, fun f' => ?_⟩
  rcases eq_or_ne f' f with rfl | hne
  · exact ⟨fun _ => hf, fun _ => h.mem⟩
  · exact h.others f' hne

theorem Pending.of_kept (h : Pending f s) (hk : Kept s s') : Pending f s' := by
  refine ⟨h.toSound.of_kept hk, hk.openedFiles ▸ h.mem, ?_⟩
  rw [hk.openedFiles]
  simp only [Referred, hk.fds]
  exact h.others

theorem Sound.mem_erase (h : Sound s) {f' : ℕ} :
    f' ∈ s.openedFiles.erase f ↔ f' ≠ f ∧ f' ∈ s.openedFiles :=
  h.nodup.mem_erase_iff

theorem Sound.erase (h : Sound s) (f : ℕ) :
    Sound { s with openedFiles := s.openedFiles.erase f } := by
  refine ⟨h.good.withFiles _ _ rfl, h.bounded, fun f' hf' => h.opened f' (h.mem_erase.mp hf').2,
    h.nodup.erase f,
    fun f₁ h₁ f₂ h₂ => h.one f₁ (h.mem_erase.mp h₁).2 f₂ (h.mem_erase.mp h₂).2, h.held, h.whole, ?_⟩
  intro x hx hlt
  obtain ⟨f', hf', hnot⟩ := h.standard x hx hlt
  exact ⟨f', hf', fun hin => hnot (h.mem_erase.mp hin).2⟩

/-- A file that nobody refers to leaves the table. -/
theorem Pending.erase (h : Pending f s) (hf : ¬Referred f s) :
    Table { s with openedFiles := s.openedFiles.erase f } := by
  refine ⟨h.toSound.erase f, fun f' => ?_⟩
  rw [h.mem_erase]
  constructor
  · rintro ⟨hne, hin⟩
    exact (h.others f' hne).mp hin
  · intro href
    have hne : f' ≠ f := fun hEq => hf (hEq ▸ href)
    exact ⟨hne, (h.others f' hne).mpr href⟩

/-- **`close` leaves the tables right** if what it compares with 3 tells whether a descriptor
still refers to the file. -/
theorem Pending.closeWith (h : Pending f s) (held : ℕ)
    (hheld : s.fds.count ∅ f + held + 1 ≤ 3 ↔ s.fds.count ∅ f = 0) :
    ∃ s', closeWith held f s = .ok (0, s') ∧ Table s' := by
  obtain ⟨-, w, hw, -⟩ := h.opened f h.mem
  have hfind := h.findOpened_of_mem h.mem hw
  obtain ⟨file, hfile, hw⟩ := Option.map_eq_some_iff.mp hw
  have hpos : Pending f (s.setPos f 0) :=
    h.of_kept (h.good.setPos f (by decide))
  have hcount : s.openedFiles.count f = 1 := List.count_eq_one_of_mem h.nodup h.mem
  have hclose : Vfs.closeWith held f s =
      if 1 + s.fds.count ∅ f + held ≤ 3 then
        .ok (0, { s.setPos f 0 with openedFiles := s.openedFiles.erase f })
      else .ok (0, s.setPos f 0) := by
    rw [Vfs.closeWith, State.readFile, hfile, ok_bind, hw, hfind, ok_bind]
    simp only [State.setPos, hcount]
    rfl
  have hreferred := hpos.referred_iff hpos.mem
  rw [hclose]
  split_ifs with hle
  · have hzero : s.fds.count ∅ f = 0 := hheld.mp (by omega)
    exact ⟨_, rfl, hpos.erase fun href => hreferred.mp href hzero⟩
  · have hne : s.fds.count ∅ f ≠ 0 := fun hzero => hle (by have := hheld.mpr hzero; omega)
    exact ⟨_, rfl, hpos.table (hreferred.mpr hne)⟩

/-- The state in which a descriptor refers to nothing any more, or to another file. -/
theorem referred_set {c : Option ℕ} {f' : ℕ} (hc : c ≠ some f')
    (hold : s.fds.holds (task, fd) ≠ some f') :
    Referred f' { s with fds := s.fds.set (task, fd) c } ↔ Referred f' s := by
  refine exists_congr fun task' => exists_congr fun fd' => and_congr_right fun _ => ?_
  dsimp only
  rcases eq_or_ne (task', fd') (task, fd) with hEq | hne
  · rw [hEq, Handles.holds_set_self]
    exact iff_of_false hc hold
  · rw [Handles.holds_set_of_ne _ _ hne]

theorem Sound.set (h : Sound s) {c : Option ℕ} (hlive : (task, fd) ∈ s.fds.live) (hfd : 3 ≤ fd)
    (hc : ∀ f ∈ c, f < s.next) : Sound { s with fds := s.fds.set (task, fd) c } := by
  refine ⟨h.good.withFiles _ _ rfl, h.bounded, h.opened, h.nodup, h.one, ?_, h.whole, ?_⟩
  · intro x f hx
    dsimp only at hx ⊢
    rcases eq_or_ne x (task, fd) with rfl | hne
    · rw [Handles.holds_set_self] at hx
      exact ⟨hlive, hc f hx⟩
    · rw [Handles.holds_set_of_ne _ _ hne] at hx
      exact h.held x f hx
  · intro x hx hlt
    have hne : x ≠ (task, fd) := by
      rintro rfl
      exact absurd hlt (not_lt.mpr hfd)
    dsimp only
    rw [Handles.holds_set_of_ne _ _ hne]
    exact h.standard x hx hlt

/-- **A descriptor that is not of the console can be closed.** -/
theorem Table.sysClose (h : Table s) (hfd : 3 ≤ fd) (hf : s.fds.holds (task, fd) = some f) :
    ∃ s', sysClose task fd s = .ok (0, s') ∧ Table s' := by
  obtain ⟨hlive, hlt⟩ := h.held _ f hf
  have hpending : Pending f { s with fds := s.fds.set (task, fd) none } := by
    refine ⟨h.toSound.set hlive hfd ?_, (h.refers f).mpr ⟨task, fd, hfd, hf⟩, fun f' hne => ?_⟩
    · exact fun f hf => by cases hf
    have hold : s.fds.holds (task, fd) ≠ some f' :=
      fun hEq => hne (Option.some.inj (hEq.symm.trans hf))
    exact (h.refers f').trans (referred_set (by simp) hold).symm
  have hget : getFileByFd task fd s = some f := by
    rw [getFileByFd, if_pos (h.whole _ hlive).1, hf]
  have hclose := hpending.closeWith 2 (by omega)
  rw [Vfs.sysClose, hget]
  exact hclose

theorem Table.ensures_sysClose (h : Table s) (htidy : 3 ≤ fd ∨ getFileByFd task fd s = none) :
    Ensures (Vfs.sysClose task fd s) fun r => Table r.2 := by
  rcases hget : getFileByFd task fd s with _ | f
  · rw [Vfs.sysClose, hget]
    exact ensures_pure h
  · have hfd : 3 ≤ fd := htidy.resolve_right (by simp [hget])
    have hf : s.fds.holds (task, fd) = some f := by
      rw [getFileByFd] at hget
      split_ifs at hget
      exact hget
    obtain ⟨s', hs', htable⟩ := h.sysClose hfd hf
    rw [hs']
    exact ensures_ok htable

/-- **`exit` closes what is open.** -/
theorem Table.exit (h : Table s) (task : ℕ) : Ensures (exit task s) Table := by
  have hloop := @ensures_foldlM _ _
    (fun s fd =>
      if (s.fds.holds (task, fd)).isSome then do return (← Vfs.sysClose task fd s).2 else pure s)
    (fun (fds : List ℕ) s => Table s ∧ ∀ fd ∈ fds, 3 ≤ fd)
    (fun fd fds s hs => ?_) unclosed s ⟨h, by decide⟩
  · exact hloop.mono fun _ hs => hs.1
  · have hrest : ∀ fd' ∈ fds, 3 ≤ fd' := fun fd' hfd' => hs.2 fd' (List.mem_cons_of_mem fd hfd')
    split_ifs
    · exact (hs.1.ensures_sysClose (Or.inl (hs.2 fd List.mem_cons_self))).bind
        fun r hr => ensures_pure ⟨hr, hrest⟩
    · exact ensures_pure ⟨hs.1, hrest⟩

/-! ### Opening -/

theorem State.mem_newFile {file : File} :
    f ∈ (s.newFile file).2.openedFiles ↔ f ∈ s.openedFiles ∨ f = s.next :=
  List.mem_append.trans (or_congr_right List.mem_singleton)

theorem State.fileVnode_newFile (file : File) (s : State) :
    (s.newFile file).2.fileVnode s.next = some file.vnode := by
  refine (congrArg (Option.map File.vnode) ?_ : _ = Option.map File.vnode (some file))
  exact Function.update_self ..

theorem State.fileVnode_newFile_of_lt {file : File} (hf : f < s.next) :
    (s.newFile file).2.fileVnode f = s.fileVnode f := by
  refine congrArg (Option.map File.vnode) ?_
  exact Function.update_of_ne hf.ne ..

/-- A file of a vnode that no opened file has yet. -/
theorem Sound.newFile (h : Sound s) (hnew : ∀ f ∈ s.openedFiles, s.fileVnode f ≠ some w)
    (hw : ∀ v ∈ w, v < s.next) (options : ℕ) : Sound (s.newFile ⟨w, 0, options⟩).2 := by
  have hold : ∀ f, f < s.next → (s.newFile ⟨w, 0, options⟩).2.fileVnode f = s.fileVnode f :=
    fun f hf => State.fileVnode_newFile_of_lt hf
  have hself := State.fileVnode_newFile ⟨w, 0, options⟩ s
  have hfresh : s.next ∉ s.openedFiles := fun hin => lt_irrefl _ (h.opened _ hin).1
  obtain ⟨hgood, hgrown⟩ := h.good.newFile ⟨w, 0, options⟩ (show 0 < sizeMod by decide)
  refine ⟨hgood, hgrown.bounded h.bounded, ?_, ?_, ?_, ?_, h.whole, ?_⟩
  · intro f hf
    rcases State.mem_newFile.mp hf with hf | rfl
    · obtain ⟨hlt, w', hw', hv'⟩ := h.opened f hf
      exact ⟨Nat.lt_succ_of_lt hlt, w', (hold f hlt).trans hw',
        fun v hv => Nat.lt_succ_of_lt (hv' v hv)⟩
    · exact ⟨Nat.lt_succ_self _, w, hself, fun v hv => Nat.lt_succ_of_lt (hw v hv)⟩
  · exact List.nodup_append.mpr ⟨h.nodup, List.nodup_singleton _, fun a ha b hb hEq =>
      hfresh (List.mem_singleton.mp hb ▸ hEq ▸ ha)⟩
  · intro f hf f' hf' hEq
    rcases State.mem_newFile.mp hf with hf | rfl
    · have hlt := (h.opened f hf).1
      rcases State.mem_newFile.mp hf' with hf' | rfl
      · rw [hold f hlt, hold f' (h.opened f' hf').1] at hEq
        exact h.one f hf f' hf' hEq
      · rw [hold f hlt, hself] at hEq
        exact absurd hEq (hnew f hf)
    · rcases State.mem_newFile.mp hf' with hf' | rfl
      · rw [hold f' (h.opened f' hf').1, hself] at hEq
        exact absurd hEq.symm (hnew f' hf')
      · rfl
  · exact fun x f hx => (h.held x f hx).imp_right Nat.lt_succ_of_lt
  · intro x hx hlt
    obtain ⟨f, hf, hnot⟩ := h.standard x hx hlt
    refine ⟨f, hf, fun hin => ?_⟩
    rcases State.mem_newFile.mp hin with hin | rfl
    · exact hnot hin
    · exact lt_irrefl _ (h.held x _ hf).2

theorem Table.newFile (h : Table s) (hnew : ∀ f ∈ s.openedFiles, s.fileVnode f ≠ some w)
    (hw : ∀ v ∈ w, v < s.next) (options : ℕ) : Pending s.next (s.newFile ⟨w, 0, options⟩).2 := by
  refine ⟨h.toSound.newFile hnew hw options, State.mem_newFile.mpr (Or.inr rfl), fun f' hne => ?_⟩
  rw [State.mem_newFile, or_iff_left hne]
  exact h.refers f'

theorem Table.descriptors_eq_zero (h : Table s)
    (hnew : ∀ f ∈ s.openedFiles, s.fileVnode f ≠ some w) : descriptors w s = 0 := by
  by_contra hne
  obtain ⟨f, hf, hw⟩ := h.exists_opened hne
  exact hnew f hf hw

/-- What `create` makes is new. -/
theorem Good.create_fresh (h : Good s) (henv : env.OnDisk) (hmay : MayResolve task pathname s)
    {content : List UInt8} {mode : ℕ} :
    Ensures (Vfs.create env fuel task pathname content mode s) fun r => ∀ v ∈ r.1, s.next ≤ v := by
  rw [Vfs.create]
  split_ifs
  · exact ensures_pure fun v hv => by cases hv
  refine (h.resolvePath henv hmay).bind ?_
  rintro ⟨target, parent, basename, s'⟩ ⟨h', -⟩
  have hnext : s.next ≤ s'.next := h'.next
  dsimp only
  split
  · exact ensures_pure fun v hv => by cases hv
  · exact ensures_pure fun v hv => by cases hv
  · refine ensures_bind fun vnode _ => ?_
    split
    · exact ensures_bind fun _ _ => ensures_pure fun v hv => Option.some.inj hv ▸ hnext
    · exact ensures_error _
    · split
      · exact ensures_pure fun v hv => Option.some.inj hv ▸ hnext
      · exact ensures_pure fun v hv => by cases hv

/-- **How `open` ends**, for a path that leads to `target` in the state `s`. -/
inductive Opens (s : State) (target : Option ℕ) (options : ℕ) : Option ℕ → State → Prop
  | missing (h : Table s) : Opens s target options none s
  | found {f : ℕ} (h : Table s) (hmem : f ∈ s.openedFiles) (hw : s.fileVnode f = some target) :
      Opens s target options (some f) s
  | added {f v : ℕ} {s' : State} (htarget : target = some v) (h : Pending f s')
      (hw : s'.fileVnode f = some target) (hvnodes : s'.vnodes = s.vnodes)
      (hcount : s'.fds.count ∅ f = 0) (hzero : descriptors target s = 0) :
      Opens s target options (some f) s'
  | created {f : ℕ} {s' : State} (htarget : target = none) (hopt : options &&& oCreat ≠ 0)
      (h : Pending f s') (hzero : descriptors target s = 0) : Opens s target options (some f) s'

theorem descriptors_of_extends (h : Extends s s') : descriptors w s' = descriptors w s := by
  have hvnode : s'.fileVnode = s.fileVnode := by
    funext f
    rw [State.fileVnode, State.fileVnode, h.files]
  rw [descriptors, descriptors, h.fds, hvnode]

theorem Table.openFile (h : Table s) (henv : env.OnDisk) (hmay : MayResolve task pathname s) :
    Ensures (openFile env fuel task pathname options s) fun r => r.2.fds = s.fds ∧
      ∃ target parent basename s₁,
        resolvePath env fuel task pathname s = .ok (target, parent, basename, s₁) ∧
          Extends s s₁ ∧ Opens s₁ target options r.1 r.2 := by
  refine ensures_bind ?_
  rintro ⟨target, parent, basename, s₁⟩ hresolve
  obtain ⟨hleaves, -⟩ := h.good.resolvePath henv hmay _ hresolve
  replace hleaves : Leaves s s₁ target := hleaves
  have h₁ : Table s₁ := h.of_kept hleaves.kept
  have hresolved : ∀ {r : Option ℕ × State}, r.2.fds = s₁.fds → Opens s₁ target options r.1 r.2 →
      r.2.fds = s.fds ∧ ∃ target parent basename s₁,
        resolvePath env fuel task pathname s = .ok (target, parent, basename, s₁) ∧
          Extends s s₁ ∧ Opens s₁ target options r.1 r.2 := fun hfds hopens =>
    ⟨hfds.trans hleaves.fds, target, parent, basename, s₁, hresolve, hleaves.toExtends, hopens⟩
  dsimp only
  rw [h₁.findOpened, ok_bind]
  rcases hfind : s₁.openedFiles.find? fun f => s₁.fileVnode f = some target with _ | f
  · have hnew : ∀ f ∈ s₁.openedFiles, s₁.fileVnode f ≠ some target := fun f hf hw =>
      List.find?_eq_none.mp hfind f hf (decide_eq_true hw)
    have hzero := h₁.descriptors_eq_zero hnew
    dsimp only
    cases target with
    | some v =>
      have hv : ∀ v' ∈ some v, v' < s₁.next := fun v' hv' => h₁.bounded v' (hleaves.result v' hv')
      have hpending := h₁.newFile hnew hv options
      refine ensures_pure (hresolved rfl (.added rfl hpending ?_ rfl ?_ hzero))
      · exact State.fileVnode_newFile ⟨some v, 0, options⟩ s₁
      · exact Handles.count_eq_zero.mpr fun x hx _ hEq => lt_irrefl _ (h₁.held x _ hEq).2
    | none =>
      dsimp only
      split_ifs with hopt
      · exact ensures_pure (hresolved rfl (.missing h₁))
      · refine ensures_bind ?_
        rintro ⟨w, s₂⟩ hcreate
        have hmay₁ := hmay.of_fds hleaves.fds
        have hleaves₂ : Leaves s₁ s₂ w :=
          hleaves.good.create henv hmay₁ length_nil_lt sIfreg _ hcreate
        have hfresh : ∀ v ∈ w, s₁.next ≤ v := hleaves.good.create_fresh henv hmay₁ _ hcreate
        have h₂ : Table s₂ := h₁.of_kept hleaves₂.kept
        -- No opened file has the vnode that was created: its address was not given out before.
        have hnew₂ : ∀ f ∈ s₂.openedFiles, s₂.fileVnode f ≠ some w := by
          rw [hleaves₂.openedFiles]
          intro f hf hEq
          rw [State.fileVnode, hleaves₂.files] at hEq
          obtain ⟨-, w', hw', hold⟩ := h₁.opened f hf
          obtain rfl := Option.some.inj (hw'.symm.trans hEq)
          cases w' with
          | none => exact hnew f hf hw'
          | some v => exact absurd (hold v rfl) (not_lt.mpr (hfresh v rfl))
        have hpending := h₂.newFile hnew₂ (fun v hv => h₂.bounded v (hleaves₂.result v hv)) options
        exact ensures_pure (hresolved hleaves₂.fds (.created rfl hopt hpending hzero))
  · have hw := of_decide_eq_true (List.find?_some (p := fun f =>
      decide (s₁.fileVnode f = some target)) hfind)
    exact ensures_pure (hresolved rfl (.found h₁ (List.mem_of_find?_eq_some hfind) hw))

/-- A descriptor for a file is one that was free, if there was one. -/
theorem Sound.allocateFdForFile (h : Sound s) (hf : f ∈ s.openedFiles)
    (htask : (task, 0) ∈ s.fds.live) :
    (¬∃ fd < nrTaskFdLimits, s.fds.holds (task, fd) = none) ∧ (allocateFdForFile task f s).2 = s ∨
      ∃ fd, 3 ≤ fd ∧ s.fds.holds (task, fd) = none ∧
        (allocateFdForFile task f s).2 = { s with fds := s.fds.set (task, fd) (some f) } ∧
        Sound { s with fds := s.fds.set (task, fd) (some f) } := by
  rw [Vfs.allocateFdForFile]
  rcases hfind : (List.range nrTaskFdLimits).find?
    fun i => (s.fds.holds (task, i)).isNone with _ | fd
  · refine Or.inl ⟨?_, rfl⟩
    rintro ⟨fd, hlt, hnone⟩
    exact List.find?_eq_none.mp hfind fd (List.mem_range.mpr hlt) (by rw [hnone]; rfl)
  · have hnone : s.fds.holds (task, fd) = none := Option.isNone_iff_eq_none.mp
      (List.find?_some (p := fun i => (s.fds.holds (task, i)).isNone) hfind)
    have hlive : (task, fd) ∈ s.fds.live :=
      (h.whole _ htask).2 fd (List.mem_range.mp (List.mem_of_find?_eq_some hfind))
    have hfd : 3 ≤ fd := by
      by_contra hlt
      obtain ⟨f', hf', -⟩ := h.standard _ hlive (not_le.mp hlt)
      cases hnone.symm.trans hf'
    exact Or.inr ⟨fd, hfd, hnone, rfl,
      h.set hlive hfd fun f' hf' => Option.some.inj hf' ▸ (h.opened f hf).1⟩

/-- **A free descriptor is not one of the console.** -/
theorem Pending.allocateFdForFile (h : Pending f s) (htask : (task, 0) ∈ s.fds.live)
    (hfree : Referred f s ∨ ∃ fd < nrTaskFdLimits, s.fds.holds (task, fd) = none) :
    Table (allocateFdForFile task f s).2 := by
  obtain ⟨hfull, hEq⟩ | ⟨fd, hfd, hnone, hEq, hsound⟩ := h.toSound.allocateFdForFile h.mem htask
  · rw [hEq]
    exact h.table (hfree.resolve_right hfull)
  · rw [hEq]
    refine ⟨hsound, fun f' => ?_⟩
    rcases eq_or_ne f' f with rfl | hne
    · exact iff_of_true h.mem ⟨task, fd, hfd, Handles.holds_set_self ..⟩
    · exact (h.others f' hne).trans (referred_set (fun hEq => hne (Option.some.inj hEq).symm)
        (by rw [hnone]; simp)).symm

theorem Table.sysOpen (h : Table s) (henv : env.OnDisk) (htask : (task, 0) ∈ s.fds.live)
    (htidy : Call.Tidy s (.open env fuel task pathname options)) :
    Ensures (sysOpen env fuel task pathname options s) fun r => Table r.2 := by
  refine (h.openFile henv (Or.inr htask)).bind ?_
  rintro ⟨file, s'⟩ ⟨hfds, target, parent, basename, s₁, hresolve, hext, hopens⟩
  dsimp only at hfds hopens ⊢
  replace htask : (task, 0) ∈ s'.fds.live := hfds ▸ htask
  replace htidy : (∃ fd < nrTaskFdLimits, s'.fds.holds (task, fd) = none) ∨
      descriptors target s₁ ≠ 0 ∨ target = none ∧ options &&& oCreat = 0 := by
    rw [hfds, descriptors_of_extends hext]
    exact htidy.imp_right fun hall => hall target parent basename s₁ hresolve
  cases hopens with
  | missing h₁ => exact ensures_pure h₁
  | found h₁ hmem hw =>
    exact ensures_pure ((h₁.pending hmem).allocateFdForFile htask
      (Or.inl ((h₁.refers _).mp hmem)))
  | added htarget h' hw hvnodes hcount hzero =>
    refine ensures_pure (h'.allocateFdForFile htask (Or.inr (htidy.resolve_right ?_)))
    rintro (hne | ⟨hnone, -⟩)
    · exact hne hzero
    · cases hnone.symm.trans htarget
  | created htarget hopt h' hzero =>
    refine ensures_pure (h'.allocateFdForFile htask (Or.inr (htidy.resolve_right ?_)))
    rintro (hne | ⟨-, hopt'⟩)
    · exact hne hzero
    · exact hopt hopt'

/-! ### The other calls -/

theorem Good.loadElfBinary (h : Good s) (henv : env.OnDisk) (segments : List Elf.Segment) :
    Ensures (loadElfBinary env fuel f segments s) (Kept s) := by
  refine ensures_foldlM (I := fun _ => Kept s) (fun seg _ s' hs' => ?_) segments s h.kept
  dsimp only
  split_ifs
  · exact ensures_pure hs'
  · exact (hs'.good.mmapFile henv f _ _).mono fun _ => hs'.trans

/-- What `exec` has opened, if it is a file with a vnode. -/
theorem Opens.of_exec {target : Option ℕ} {v : ℕ} (h : Opens s target 0 (some f) s')
    (hv : s'.fileVnode f = some (some v)) : target = some v ∧ Pending f s' ∧
      s'.vnodes = s.vnodes ∧ s'.fds.count ∅ f = descriptors target s := by
  cases h with
  | found h hmem hw =>
    exact ⟨Option.some.inj (hw.symm.trans hv), h.pending hmem, rfl, h.count_eq hmem hw⟩
  | added htarget h hw hvnodes hcount hzero =>
    exact ⟨Option.some.inj (hw.symm.trans hv), h, hvnodes, hcount.trans hzero.symm⟩
  | created htarget hopt h hzero => exact absurd (Nat.zero_and oCreat) hopt

theorem Table.exec (h : Table s) (henv : env.OnDisk) (htask : (task, 0) ∈ s.fds.live)
    (htidy : Call.Tidy s (.exec env fuel task pathname)) :
    Ensures (exec env fuel task pathname s) fun r => Table r.2 := by
  refine (h.openFile henv (Or.inr htask)).bind ?_
  rintro ⟨file, s'⟩ ⟨-, target, parent, basename, s₁, hresolve, hext, hopens⟩
  dsimp only at hopens ⊢
  cases file with
  | none =>
    cases hopens with
    | missing h₁ => exact ensures_pure h₁
  | some f =>
    dsimp only
    refine ensures_bind fun file hfile => ?_
    split
    · exact ensures_error _
    · rename_i v hv
      have hvnode : s'.fileVnode f = some (some v) := by
        rw [State.readFile] at hfile
        split at hfile
        · rename_i file' hfile'
          rw [State.fileVnode, hfile', Option.map_some, Except.ok.inj hfile, hv]
        · cases hfile
      obtain ⟨rfl, hpending, hvnodes, hcount⟩ := hopens.of_exec hvnode
      refine ensures_bind fun vnode hread => ensures_bind fun segments _ => ?_
      have hread₁ : s₁.vnodes v = some vnode := by
        rw [← hvnodes]
        rw [State.readVnode] at hread
        split at hread
        · rename_i vnode' hvnode'
          rw [hvnode', Except.ok.inj hread]
        · cases hread
      have hcond := htidy v parent basename s₁ vnode hresolve hread₁
      rw [← descriptors_of_extends hext, ← hcount] at hcond
      split_ifs at hcond ⊢ with hvalid
      · -- The new program is run, and the file is closed again.
        refine (hpending.good.loadElfBinary henv segments).bind fun s₂ hkept => ?_
        have h₂ := hpending.of_kept hkept
        rw [← hkept.fds] at hcond
        obtain ⟨s₃, hclose, h₃⟩ := h₂.closeWith 1 (by omega)
        rw [hclose]
        exact ensures_ok h₃
      · -- It is not closed, so a descriptor has to refer to it.
        exact ensures_pure (hpending.table ((hpending.referred_iff hpending.mem).mpr hcond))

theorem mem_cons_iff_of_ne {x : ℕ × ℕ} {i : ℕ} {l : List ℕ} (hne : x ≠ (task, i)) :
    x.1 = task ∧ x.2 ∈ i :: l ↔ x.1 = task ∧ x.2 ∈ l := by
  refine and_congr_right fun htask => List.mem_cons.trans (or_iff_right fun hi => ?_)
  exact hne (Prod.ext htask hi)

theorem holds_foldl_add {g : ℕ → Option ℕ} {x : ℕ × ℕ} (l : List ℕ) :
    ∀ {fds : Handles (ℕ × ℕ) ℕ},
      (l.foldl (fun fds i => fds.add (task, i) (g i)) fds).holds x =
        if x.1 = task ∧ x.2 ∈ l then g x.2 else fds.holds x := by
  induction l with
  | nil => simp
  | cons i l ih =>
    intro fds
    rw [List.foldl_cons, ih]
    rcases eq_or_ne x (task, i) with rfl | hne
    · simp
    · rw [Handles.holds_add_of_ne _ _ hne, if_congr (mem_cons_iff_of_ne hne) rfl rfl]

/-- **A new task** has its own file for the console, and no other descriptor is open. -/
theorem Table.newTask (h : Table s) (hnew : ∀ fd, (task, fd) ∉ s.fds.live) :
    Ensures (newTask task s) Table := by
  intro s' hs'
  obtain ⟨hgood, hgrown, -⟩ := h.good.newTask task _ hs'
  obtain ⟨cwd, -, hs'⟩ := bind_eq_ok.mp hs'
  obtain rfl := pure_eq_ok.mp hs'
  clear hs'
  have hvnode : ∀ f < s.next,
      (Function.update s.files s.next (some ⟨none, 0, 0⟩) f).map File.vnode = s.fileVnode f :=
    fun f hf => by rw [Function.update_of_ne hf.ne, State.fileVnode]
  have hold : ∀ x f, s.fds.holds x = some f → x.1 ≠ task := by
    rintro ⟨task', fd⟩ f hx rfl
    exact hnew fd (h.held _ f hx).1
  -- The descriptors of the new task from 3 on hold nothing.
  have hrefers : ∀ f, Referred f s ↔ ∃ task' fd, 3 ≤ fd ∧
      ((List.range nrTaskFdLimits).foldl (fun fds i =>
        fds.add (task, i) (if i < 3 then some s.next else none)) s.fds).holds (task', fd) = some f := by
    intro f
    refine exists_congr fun task' => exists_congr fun fd => and_congr_right fun hfd => ?_
    rw [holds_foldl_add]
    split_ifs with htask hlt
    · exact absurd hlt (not_lt.mpr hfd)
    · exact iff_of_false (fun hx => hold _ f hx htask.1) (by simp)
    · rfl
  refine ⟨⟨hgood, hgrown.bounded h.bounded, ?_, h.nodup, ?_, ?_, ?_, ?_⟩,
    fun f => (h.refers f).trans (hrefers f)⟩
  · intro f hf
    obtain ⟨hlt, w, hw, hv⟩ := h.opened f hf
    exact ⟨Nat.lt_succ_of_lt hlt, w, (hvnode f hlt).trans hw,
      fun v hv' => Nat.lt_succ_of_lt (hv v hv')⟩
  · intro f hf f' hf' hEq
    refine h.one f hf f' hf' ?_
    exact (hvnode f (h.opened f hf).1).symm.trans (hEq.trans (hvnode f' (h.opened f' hf').1))
  · intro x f hx
    dsimp only at hx ⊢
    rw [holds_foldl_add] at hx
    rw [mem_live_foldl_add]
    split_ifs at hx with htask hlt
    · exact ⟨Or.inr htask, Option.some.inj hx ▸ Nat.lt_succ_self _⟩
    · obtain ⟨hlive, hlt⟩ := h.held x f hx
      exact ⟨Or.inl hlive, Nat.lt_succ_of_lt hlt⟩
  · intro x hx
    dsimp only at hx ⊢
    rw [mem_live_foldl_add] at hx
    simp only [mem_live_foldl_add, List.mem_range] at hx ⊢
    rcases hx with hx | ⟨htask, hlt⟩
    · exact ⟨(h.whole x hx).1, fun i hi => Or.inl ((h.whole x hx).2 i hi)⟩
    · exact ⟨hlt, fun i hi => Or.inr ⟨htask, hi⟩⟩
  · intro x hx hlt
    dsimp only at hx ⊢
    rw [mem_live_foldl_add] at hx
    rw [holds_foldl_add]
    split_ifs with htask
    · exact ⟨s.next, rfl, fun hin => lt_irrefl _ (h.opened _ hin).1⟩
    · exact h.standard x (hx.resolve_right htask) hlt

theorem Table.fork {child : ℕ} (h : Table s) (htask : (task, 0) ∈ s.fds.live)
    (hnew : ∀ fd, (child, fd) ∉ s.fds.live) : Ensures (fork task child s) Table := by
  intro s' hs'
  obtain ⟨hgood, -⟩ := h.good.fork htask child _ hs'
  obtain ⟨s₁, hs₁, hs'⟩ := bind_eq_ok.mp hs'
  obtain rfl := pure_eq_ok.mp hs'
  exact (h.newTask hnew s₁ hs₁).of_kept ⟨keeps_with _ _, hgood⟩

theorem mem_live_foldl_remove {x : ℕ × ℕ} (l : List ℕ) :
    ∀ {fds : Handles (ℕ × ℕ) ℕ}, x ∈ (l.foldl (fun fds i => fds.remove (task, i)) fds).live ↔
      x ∈ fds.live ∧ ¬(x.1 = task ∧ x.2 ∈ l) := by
  induction l with
  | nil => simp
  | cons i l ih =>
    intro fds
    rw [List.foldl_cons, ih, Handles.live_remove, mem_erase, ne_eq, Prod.ext_iff, List.mem_cons]
    tauto

theorem holds_foldl_remove {x : ℕ × ℕ} (l : List ℕ) :
    ∀ {fds : Handles (ℕ × ℕ) ℕ}, (l.foldl (fun fds i => fds.remove (task, i)) fds).holds x =
      if x.1 = task ∧ x.2 ∈ l then none else fds.holds x := by
  induction l with
  | nil => simp
  | cons i l ih =>
    intro fds
    rw [List.foldl_cons, ih]
    rcases eq_or_ne x (task, i) with rfl | hne
    · simp [Handles.remove]
    · rw [Handles.holds_remove_of_ne _ hne, if_congr (mem_cons_iff_of_ne hne) rfl rfl]

/-- **A task that has closed its descriptors** can end. -/
theorem Table.reap (h : Table s) (hclosed : ∀ fd, 3 ≤ fd → s.fds.holds (task, fd) = none) :
    Table (reap task s) := by
  have hsub : ∀ x, x ∈ (Vfs.reap task s).fds.live → x ∈ s.fds.live ∧ x.1 ≠ task := by
    intro x hx
    obtain ⟨hlive, hnot⟩ := (mem_live_foldl_remove _).mp hx
    exact ⟨hlive, fun htask => hnot ⟨htask, List.mem_range.mpr (h.whole x hlive).1⟩⟩
  have hlive : ∀ x ∈ s.fds.live, x.1 ≠ task → x ∈ (Vfs.reap task s).fds.live :=
    fun x hx hne => (mem_live_foldl_remove _).mpr ⟨hx, fun htask => hne htask.1⟩
  have hholds : ∀ x, x.1 ≠ task → (Vfs.reap task s).fds.holds x = s.fds.holds x := by
    intro x hne
    refine (holds_foldl_remove _).trans (if_neg fun htask => hne htask.1)
  have hsome : ∀ x f, (Vfs.reap task s).fds.holds x = some f →
      x.1 ≠ task ∧ s.fds.holds x = some f := by
    intro x f hx
    have hx' := (holds_foldl_remove _).symm.trans hx
    split_ifs at hx' with htask
    refine ⟨fun hEq => htask ⟨hEq, ?_⟩, hx'⟩
    exact List.mem_range.mpr (h.whole x (h.held x f hx').1).1
  refine ⟨⟨⟨fun v vnode hv => (h.good.vnodes v vnode hv).mono State.Grows.rfl, h.good.files,
    h.good.mounts, fun task' htask' => h.good.cwd task' (hsub _ htask').1⟩, h.bounded, h.opened,
    h.nodup, h.one, ?_, ?_, ?_⟩, fun f => (h.refers f).trans ?_⟩
  · intro x f hx
    obtain ⟨hne, hx⟩ := hsome x f hx
    exact ⟨hlive x (h.held x f hx).1 hne, (h.held x f hx).2⟩
  · intro x hx
    obtain ⟨hx, hne⟩ := hsub x hx
    exact ⟨(h.whole x hx).1, fun i hi => hlive _ ((h.whole x hx).2 i hi) hne⟩
  · intro x hx hlt
    obtain ⟨hx, hne⟩ := hsub x hx
    rw [hholds x hne]
    exact h.standard x hx hlt
  · refine exists_congr fun task' => exists_congr fun fd => and_congr_right fun hfd => ?_
    constructor
    · intro hx
      have hne : task' ≠ task := by
        rintro rfl
        cases (hclosed fd hfd).symm.trans hx
      exact (hholds (task', fd) hne).trans hx
    · exact fun hx => (hsome _ f hx).2

/-! ### Runs -/

theorem table_init : Table init where
  good := good_init
  bounded v hv := by obtain ⟨vnode, hv⟩ := hv; cases hv
  opened f hf := by cases hf
  nodup := List.nodup_nil
  one f hf := by cases hf
  held x f hx := by cases hx
  whole x hx := absurd hx (notMem_empty x)
  standard x hx := absurd hx (notMem_empty x)
  refers f := by
    refine iff_of_false (List.not_mem_nil (a := f)) ?_
    rintro ⟨task, fd, -, hx⟩
    cases hx

/-- **One call keeps the tables right.** -/
theorem Table.event (h : Table s) {call : Call} (htidy : call.Tidy s) (hevent : Event call s s') :
    Table s' := by
  cases hevent with
  | other hstep hkeeps => exact h.of_kept ⟨hkeeps, (h.good.step hstep).1⟩
  | newTask hnew hx => exact h.newTask hnew _ hx
  | fork htask hnew hx => exact h.fork htask hnew _ hx
  | «open» henv htask hx => exact h.sysOpen henv htask htidy _ hx
  | close hx => exact h.ensures_sysClose htidy _ hx
  | exec henv htask hx => exact h.exec henv htask htidy _ hx
  | exit hx => exact h.exit _ _ hx
  | reap hclosed => exact h.reap hclosed

theorem table_of_run (hrun : Run TidyStep init s) : Table s :=
  hrun.invariant table_init fun _ _ ha hstep =>
    let ⟨_, htidy, hevent⟩ := hstep
    ha.event htidy hevent

/-- **The table of opened files matches the descriptors** in every state of every run in which each
`sys_open`, `sys_close` and `exec` comes to a good end. -/
theorem matches_of_run (hrun : Run TidyStep init s) : Matches s := by
  have h : Table s := table_of_run hrun
  refine ⟨fun f => (h.refers f).trans ?_, fun task fd f hfd hf => ?_⟩
  · refine exists_congr fun task => exists_congr fun fd => and_congr_right fun _ => ?_
    exact ⟨fun hx => ⟨(h.held _ f hx).1, hx⟩, And.right⟩
  · obtain ⟨s', hs', -⟩ := h.sysClose hfd hf
    exact ⟨s', hs'⟩

/-! ### Two runs -/

/-- A TmpFS and a task. -/
def startTask : Exec State := do
  let s ← mountRootfs (newTmpFS init).1 (newTmpFS init).2
  newTask 1 s

theorem startTask_run : Ensures startTask fun s => Run TidyStep init s ∧ Run CallStep init s := by
  refine ensures_bind fun s₁ h₁ s₂ h₂ => ?_
  have hroot : Event .other init s₁ :=
    .other (.rootTmpFS h₁) (good_init.newTmpFS.mountRootfs _ h₁).toKeeps
  exact ⟨(Relation.ReflTransGen.single ⟨.other, trivial, hroot⟩).tail
      ⟨.newTask 1, trivial, .newTask (no_fds h₁) h₂⟩,
    (Relation.ReflTransGen.single ⟨_, hroot⟩).tail ⟨_, .newTask (no_fds h₁) h₂⟩⟩

/-- The task opens a new file, `/a`. -/
theorem matches_of_run_open : ∃ s, Run TidyStep init s ∧ s.openedFiles.length = 1 ∧ Matches s := by
  have hcheck : check (fun s => decide ((1, 0) ∈ s.fds.live) &&
      decide (s.fds.holds (1, 3) = none) && check (fun r => decide (r.2.openedFiles.length = 1))
        (sysOpen noDisk 1 1 [slash, 97] oCreat s)) startTask = true := by decide +kernel
  obtain ⟨s, hs, htest⟩ := exists_ok_of_check hcheck
  simp only [Bool.and_eq_true, decide_eq_true_eq] at htest
  obtain ⟨⟨hlive, hfree⟩, htest⟩ := htest
  obtain ⟨⟨ret, s'⟩, hs', hlen⟩ := exists_ok_of_check htest
  have hrun : Run TidyStep init s' := (startTask_run s hs).1.tail
    ⟨.open noDisk 1 1 [slash, 97] oCreat, Or.inl ⟨3, by decide, hfree⟩, .open onDisk_noDisk hlive hs'⟩
  exact ⟨s', hrun, of_decide_eq_true hlen, matches_of_run hrun⟩

/-- A file that is no ELF image is executed: `exec` fails, and the file stays in the table. -/
theorem not_matches_of_failed_exec : ∃ s, Run CallStep init s ∧ ¬Matches s := by
  have hcheck : check (fun s => check (fun r => decide ((1, 0) ∈ r.2.fds.live) &&
      check (fun r => decide (r.1 = false) && decide (r.2.openedFiles ≠ []) &&
        decide (∀ x ∈ r.2.fds.live, 3 ≤ x.2 → r.2.fds.holds x = none))
          (exec noDisk 1 1 [slash, 97] r.2))
        (create noDisk 1 1 [slash, 97] (List.replicate 64 0) sIfreg s)) startTask = true := by
    decide +kernel
  obtain ⟨s, hs, htest⟩ := exists_ok_of_check hcheck
  obtain ⟨⟨v, s₁⟩, hcreate, htest⟩ := exists_ok_of_check htest
  simp only [Bool.and_eq_true, decide_eq_true_eq] at htest
  obtain ⟨hlive, htest⟩ := htest
  obtain ⟨⟨run, s₂⟩, hexec, htest⟩ := exists_ok_of_check htest
  simp only [Bool.and_eq_true, decide_eq_true_eq] at htest
  obtain ⟨⟨-, hopened⟩, hclosed⟩ := htest
  have hlen : (List.replicate 64 (0 : UInt8)).length < sizeMod := by decide +kernel
  have hleaves := (table_of_run (startTask_run s hs).1).good.create onDisk_noDisk
    (Or.inl rfl) hlen sIfreg _ hcreate
  have hother : Event .other s s₁ :=
    .other (.create onDisk_noDisk 1 1 _ (Or.inl rfl) _ hlen _ hcreate) hleaves.keeps
  refine ⟨s₂, ((startTask_run s hs).2.tail ⟨_, hother⟩).tail ⟨_, .exec onDisk_noDisk hlive hexec⟩, ?_⟩
  intro h
  obtain ⟨f, hf⟩ := List.exists_mem_of_ne_nil _ hopened
  obtain ⟨task, fd, hfd, hlive', hx⟩ := (h.refers f).mp hf
  cases (hclosed _ hlive' hfd).symm.trans hx

end Valkyrie.Vfs
