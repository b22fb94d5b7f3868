import Valkyrie.Fs.VirtualFileSystem.Basic

/-!
# What lookups leave behind

A lookup makes vnodes: for the entries of a FAT32 directory, and for the tasks in a ProcFS.
A call that creates a file makes one more. Nothing else changes (`Valkyrie.Vfs.Extends`): not
the files, the table of opened files, the descriptors or the mounts.

What a lookup returns is used by the call that asked for it. So what is proved of it, in a state
that is sound (`Valkyrie.Vfs.Good`), is all of this at once (`Valkyrie.Vfs.Leaves`): the state is
sound again, the vnodes from before are still there, and the result is one of those there are.
-/

namespace Valkyrie.Vfs

open Exec Function

variable {env : Env} {s s' s'' : State} {vnode : Vnode} {fuel task v f pos : ℕ} {name : Name}

/-! ### The invariant -/

/-- There is a vnode at this address. -/
def State.Live (v : ℕ) (s : State) : Prop := ∃ vnode, s.vnodes v = some vnode

/-- No vnode goes. -/
def State.Grows (s s' : State) : Prop := ∀ v, s.Live v → s'.Live v

/-- A vnode refers to vnodes that are there, and the buffer of a TmpFS inode has the size
of the inode. -/
structure SoundVnode (s : State) (vnode : Vnode) : Prop where
  root : s.Live vnode.root
  children : ∀ c ∈ vnode.children, s.Live c
  buffer : ∀ root name content parent children,
    vnode.impl = .tmpfs root name content parent children →
      content.length = vnode.size ∧ vnode.size < sizeMod

/-- **Every vnode is sound**, the mounts and the tasks refer to vnodes, and positions have
64 bits. -/
structure Good (s : State) : Prop where
  vnodes : ∀ v vnode, s.vnodes v = some vnode → SoundVnode s vnode
  files : ∀ f file, s.files f = some file → file.pos < sizeMod
  mounts : ∀ m ∈ s.mounts, s.Live m.guestVnode ∧ s.Live m.hostVnode
  cwd : ∀ task, (task, 0) ∈ s.fds.live → s.Live (s.cwd task)

/-- The parents of vnodes are there. -/
def Kin (s : State) : Prop := ∀ v vnode, s.vnodes v = some vnode → ∀ p ∈ vnode.parent, s.Live p

/-- **Only vnodes are made and written.** -/
structure Extends (s s' : State) : Prop where
  files : s'.files = s.files
  openedFiles : s'.openedFiles = s.openedFiles
  fds : s'.fds = s.fds
  mounts : s'.mounts = s.mounts
  cwd : s'.cwd = s.cwd
  next : s.next ≤ s'.next
  fresh : ∀ v, s'.Live v → s.Live v ∨ v < s'.next
  kin : Kin s → Kin s'

/-- What a lookup leaves behind: more vnodes, among them the one it found. -/
structure Leaves (s s' : State) (v : Option ℕ) : Prop extends Extends s s' where
  good : Good s'
  grows : s.Grows s'
  result : ∀ a ∈ v, s'.Live a

theorem State.Grows.rfl : s.Grows s := fun _ h => h

theorem Extends.rfl : Extends s s :=
  ⟨Eq.refl _, Eq.refl _, Eq.refl _, Eq.refl _, Eq.refl _, le_rfl, fun _ h => Or.inl h, id⟩

theorem Extends.trans (h : Extends s s') (h' : Extends s' s'') : Extends s s'' where
  files := h'.files.trans h.files
  openedFiles := h'.openedFiles.trans h.openedFiles
  fds := h'.fds.trans h.fds
  mounts := h'.mounts.trans h.mounts
  cwd := h'.cwd.trans h.cwd
  next := h.next.trans h'.next
  fresh v hv := (h'.fresh v hv).elim
    (fun hold => (h.fresh v hold).imp_right fun hlt => hlt.trans_le h'.next) Or.inr
  kin hs := h'.kin (h.kin hs)

theorem Good.leaves (h : Good s) {v : Option ℕ} (hv : ∀ a ∈ v, s.Live a) : Leaves s s v :=
  ⟨Extends.rfl, h, State.Grows.rfl, hv⟩

theorem Good.leaves_none (h : Good s) : Leaves s s none :=
  h.leaves fun _ ha => by cases ha

theorem Good.leaves_some (h : Good s) (hv : s.Live v) : Leaves s s (some v) :=
  h.leaves fun _ ha => Option.some.inj ha ▸ hv

theorem Leaves.trans {v w : Option ℕ} (h : Leaves s s' v) (h' : Leaves s' s'' w) :
    Leaves s s'' w :=
  ⟨h.toExtends.trans h'.toExtends, h'.good, fun a ha => h'.grows a (h.grows a ha), h'.result⟩

theorem Leaves.none {v : Option ℕ} (h : Leaves s s' v) : Leaves s s' none :=
  ⟨h.toExtends, h.good, h.grows, fun _ ha => by cases ha⟩

theorem SoundVnode.mono (h : SoundVnode s vnode) (hg : s.Grows s') : SoundVnode s' vnode :=
  ⟨hg _ h.root, fun c hc => hg c (h.children c hc), h.buffer⟩

theorem SoundVnode.fat32 {size mode dev root first parent offset : ℕ} (hroot : s.Live root) :
    SoundVnode s ⟨size, mode, dev, .fat32 root name first parent offset⟩ :=
  ⟨hroot, fun _ hc => (by cases hc), fun _ _ _ _ _ h => by cases h⟩

theorem SoundVnode.procfs {size mode dev root : ℕ} {parent : Option ℕ} {children : List ℕ}
    (hroot : s.Live root) (hc : ∀ c ∈ children, s.Live c) :
    SoundVnode s ⟨size, mode, dev, .procfs root name parent children⟩ :=
  ⟨hroot, hc, fun _ _ _ _ _ h => by cases h⟩

theorem SoundVnode.tmpfs {mode dev root : ℕ} {content : List UInt8} {parent : Option ℕ}
    (hroot : s.Live root) (hlen : content.length < sizeMod) :
    SoundVnode s ⟨content.length, mode, dev, .tmpfs root name content parent []⟩ := by
  refine ⟨hroot, fun _ hc => (by cases hc), fun _ _ _ _ _ h => ?_⟩
  obtain ⟨-, -, rfl, -, -⟩ := Impl.tmpfs.inj h
  exact ⟨rfl, hlen⟩

theorem SoundVnode.addChild (h : SoundVnode s vnode) {child : ℕ} (hchild : s.Live child) :
    SoundVnode s (vnode.addChild child) := by
  obtain ⟨hroot, hchildren, hbuffer⟩ := h
  obtain ⟨size, mode, dev, impl⟩ := vnode
  have happend : ∀ children : List ℕ, (∀ c ∈ children, s.Live c) →
      ∀ c ∈ children ++ [child], s.Live c := by
    intro children hc c hmem
    rcases List.mem_append.mp hmem with hold | hnew
    · exact hc c hold
    · exact List.mem_singleton.mp hnew ▸ hchild
  cases impl with
  | tmpfs root name content parent children =>
    refine ⟨hroot, happend children hchildren, fun _ _ _ _ _ hEq => ?_⟩
    obtain ⟨-, -, rfl, -, -⟩ := Impl.tmpfs.inj hEq
    exact hbuffer root name content parent children rfl
  | procfs root name parent children =>
    exact SoundVnode.procfs hroot (happend children hchildren)
  | fat32 root name first parent offset => exact SoundVnode.fat32 hroot

/-! ### What a lookup writes -/

theorem State.live_setVnode_self : (s.setVnode v vnode).Live v :=
  ⟨vnode, update_self ..⟩

theorem State.grows_setVnode : s.Grows (s.setVnode v vnode) := by
  rintro a ⟨old, ha⟩
  rcases eq_or_ne a v with rfl | hne
  · exact State.live_setVnode_self
  · exact ⟨old, (update_of_ne hne ..).trans ha⟩

theorem State.eq_or_live_of_setVnode {a : ℕ} (h : (s.setVnode v vnode).Live a) :
    a = v ∨ s.Live a := by
  obtain ⟨vnode', ha⟩ := h
  rcases eq_or_ne a v with hEq | hne
  · exact Or.inl hEq
  · exact Or.inr ⟨vnode', (update_of_ne hne ..).symm.trans ha⟩

/-- A vnode is written that is sound once it is written. -/
theorem Good.setVnode (h : Good s) (hv : SoundVnode (s.setVnode v vnode) vnode) :
    Good (s.setVnode v vnode) where
  vnodes v' vnode' hv' := by
    change update s.vnodes v (some vnode) v' = some vnode' at hv'
    rw [update_apply] at hv'
    split_ifs at hv' with hEq
    · exact Option.some.inj hv' ▸ hv
    · exact (h.vnodes v' vnode' hv').mono State.grows_setVnode
  files := h.files
  mounts m hm := (h.mounts m hm).imp (State.grows_setVnode _) (State.grows_setVnode _)
  cwd task htask := State.grows_setVnode _ (h.cwd task htask)

/-- A vnode whose parent is there. -/
theorem Kin.setVnode (h : Kin s) (hp : ∀ p ∈ vnode.parent, s.Live p) :
    Kin (s.setVnode v vnode) := by
  intro a vnode' ha p hp'
  change update s.vnodes v (some vnode) a = some vnode' at ha
  rw [update_apply] at ha
  refine State.grows_setVnode p ?_
  split_ifs at ha
  · exact hp p (Option.some.inj ha ▸ hp')
  · exact h a vnode' ha p hp'

/-- A vnode is overwritten that was there. -/
theorem Leaves.setVnode {w : Option ℕ} (h : Leaves s s' w) (hlive : s'.Live v)
    (hv : SoundVnode s' vnode) (hp : Kin s → ∀ p ∈ vnode.parent, s'.Live p) :
    Leaves s (s'.setVnode v vnode) w where
  toExtends := ⟨h.files, h.openedFiles, h.fds, h.mounts, h.cwd, h.next,
    fun a ha => (State.eq_or_live_of_setVnode ha).elim (fun hEq => h.fresh a (hEq ▸ hlive))
      (h.fresh a), fun hs => (h.kin hs).setVnode (hp hs)⟩
  good := h.good.setVnode (hv.mono State.grows_setVnode)
  grows a ha := State.grows_setVnode a (h.grows a ha)
  result a ha := State.grows_setVnode a (h.result a ha)

/-- A vnode is overwritten by one with the same parent. -/
theorem Good.leaves_setVnode {old : Vnode} (h : Good s) (hold : s.vnodes v = some old)
    (hv : SoundVnode s vnode) (hp : vnode.parent = old.parent) :
    Leaves s (s.setVnode v vnode) none :=
  h.leaves_none.setVnode ⟨old, hold⟩ hv fun hs => hp ▸ hs v old hold

/-- A vnode is made that is sound once it is there. -/
theorem Good.newVnode (h : Good s) (vnode : Vnode) (hv : SoundVnode (s.newVnode vnode).2 vnode)
    (hp : ∀ p ∈ vnode.parent, s.Live p) : Leaves s (s.newVnode vnode).2 (s.newVnode vnode).1 where
  toExtends := by
    refine ⟨rfl, rfl, rfl, rfl, rfl, Nat.le_succ _, fun a ha => ?_, fun hs => hs.setVnode hp⟩
    have ha' : (s.setVnode s.next vnode).Live a := ha
    rcases State.eq_or_live_of_setVnode ha' with rfl | hold
    · exact Or.inr (Nat.lt_succ_self _)
    · exact Or.inl hold
  good :=
    have h' := h.setVnode (v := s.next) (hv.mono State.Grows.rfl)
    ⟨fun a vnode' ha => (h'.vnodes a vnode' ha).mono State.Grows.rfl, h'.files, h'.mounts, h'.cwd⟩
  grows := State.grows_setVnode
  result _ ha := Option.some.inj ha ▸ State.live_setVnode_self

theorem State.grows_newVnode : s.Grows (s.newVnode vnode).2 := State.grows_setVnode

theorem State.live_newVnode : (s.newVnode vnode).2.Live s.next := State.live_setVnode_self

theorem State.live_of_readVnode (h : s.readVnode v = .ok vnode) : s.vnodes v = some vnode := by
  rw [State.readVnode] at h
  split at h
  · rename_i heq
    exact Except.ok.inj h ▸ heq
  · cases h

theorem readVnode_of_some {vnode : Vnode} (h : s.vnodes v = some vnode) :
    s.readVnode v = .ok vnode := by rw [State.readVnode, h]

theorem ensures_readVnode (v : ℕ) (s : State) :
    Ensures (s.readVnode v) fun vnode => s.vnodes v = some vnode :=
  fun _ => State.live_of_readVnode

/-- What was read from memory is sound. -/
theorem Good.readVnode (h : Good s) (v : ℕ) :
    Ensures (s.readVnode v) fun vnode => SoundVnode s vnode ∧ s.vnodes v = some vnode :=
  fun vnode hv => ⟨h.vnodes v vnode (State.live_of_readVnode hv), State.live_of_readVnode hv⟩

/-! ### Lookups -/

/-- A vnode of the FAT32 file system with this root. -/
def OfFat (root : ℕ) (vnode : Vnode) : Prop :=
  ∃ name first parent offset, vnode.impl = .fat32 root name first parent offset

/-- A vnode of the disk is made. -/
theorem Good.newFat {root : ℕ} (h : Good s) (hroot : s.Live root) (hv : OfFat root vnode) :
    Leaves s (s.newVnode vnode).2 (s.newVnode vnode).1 := by
  obtain ⟨size, mode, dev, impl⟩ := vnode
  obtain ⟨name, first, parent, offset, himpl⟩ := hv
  obtain rfl := himpl
  exact h.newVnode _ (SoundVnode.fat32 (State.grows_newVnode root hroot)) fun _ hp => by cases hp

/-- What is on the disk belongs to the file system of the disk. -/
def Env.OnDisk (env : Env) : Prop :=
  (∀ vnode, ∀ child ∈ env.fatChildren vnode, OfFat vnode.root child) ∧
    ∀ vnode name mode child, env.fatCreate vnode name mode = some child → OfFat vnode.root child

theorem Good.fatFindChildIf (h : Good s) {children : List Vnode} {p : ℕ → Vnode → Bool} {root : ℕ}
    (hroot : s.Live root) (hc : ∀ child ∈ children, OfFat root child) :
    Leaves s (fatFindChildIf children p s).2 (fatFindChildIf children p s).1 := by
  rw [Vfs.fatFindChildIf]
  split
  · rename_i child i hfind
    have hmem := List.mem_of_find?_eq_some hfind
    exact h.newFat hroot (hc child (List.fst_mem_of_mem_zipIdx hmem))
  · exact h.leaves_none

theorem Good.fatGetChild (h : Good s) (henv : env.OnDisk) (hv : SoundVnode s vnode) :
    Ensures (fatGetChild env vnode name s) fun r => Leaves s r.2 r.1 := by
  rw [Vfs.fatGetChild]
  refine ensures_bind fun isRoot _ => ?_
  split_ifs
  · exact ensures_pure (h.leaves_some hv.root)
  · exact ensures_pure (h.fatFindChildIf hv.root (henv.1 vnode))

/-- A weak pointer to a parent that is gone gives nothing. -/
theorem State.live_of_filter {parent : Option ℕ} {a : ℕ}
    (ha : a ∈ parent.filter fun p => (s.vnodes p).isSome) : s.Live a :=
  Option.isSome_iff_exists.mp (Option.filter_eq_some_iff.mp ha).2

theorem Good.getParent (henv : env.OnDisk) (fuel : ℕ) :
    ∀ {v s}, Good s → Ensures (getParent env fuel v s) fun r => Leaves s r.2 r.1 := by
  induction fuel with
  | zero => exact fun _ => ensures_error _
  | succ fuel ih =>
    intro v s h
    rw [Vfs.getParent]
    refine (h.readVnode v).bind fun vnode hv => ?_
    split
    · split_ifs
      · split
        · exact ih h
        · exact ensures_error _
      · exact ensures_pure (h.leaves fun _ => State.live_of_filter)
    · split_ifs
      · split
        · exact ih h
        · exact ensures_error _
      · exact ensures_pure (h.leaves fun _ => State.live_of_filter)
    · rename_i root _ _ _ _ himpl
      have hroot : s.Live root := by
        have := hv.1.root
        rwa [Vnode.root, himpl] at this
      refine (h.fatGetChild henv hv.1).bind ?_
      rintro ⟨parent, s'⟩ h'
      refine ensures_pure ⟨h'.toExtends, h'.good, h'.grows, fun a ha => ?_⟩
      cases parent with
      | none => exact Option.some.inj ha ▸ h'.grows root hroot
      | some p => exact Option.some.inj ha ▸ h'.result p rfl

theorem findM?_mem {α : Type} {p : α → Exec Bool} (l : List α) :
    Ensures (l.findM? p) fun r => ∀ a ∈ r, a ∈ l := by
  induction l with
  | nil => exact ensures_pure fun a ha => by cases ha
  | cons b l ih =>
    refine ensures_bind fun found _ => ?_
    split
    · exact ensures_pure fun a ha => Option.some.inj ha ▸ List.mem_cons_self
    · exact ih.mono fun r hr a ha => List.mem_cons_of_mem b (hr a ha)

/-- A search whose test always returns is a search. -/
theorem findM?_eq_ok {α : Type} {p : α → Exec Bool} {q : α → Bool} (l : List α)
    (h : ∀ a ∈ l, p a = .ok (q a)) : l.findM? p = .ok (l.find? q) := by
  induction l with
  | nil => rfl
  | cons a l ih =>
    rw [List.findM?, h a List.mem_cons_self, Exec.ok_bind, List.find?_cons]
    cases q a with
    | true => rfl
    | false => exact ih fun b hb => h b (List.mem_cons_of_mem a hb)

/-- A vnode of a ProcFS is made that has no children yet. -/
theorem Good.newProc (h : Good s) (name : Name) (mode : ℕ) {root : ℕ} {parent : Option ℕ}
    (hroot : (s.newVnode ⟨0, mode, 0, .procfs root name parent []⟩).2.Live root)
    (hp : ∀ p ∈ parent, s.Live p) :
    Leaves s (s.newVnode ⟨0, mode, 0, .procfs root name parent []⟩).2 s.next :=
  h.newVnode _ (SoundVnode.procfs hroot fun _ hc => by cases hc) hp

theorem Good.newTaskDir (h : Good s) {root : ℕ} (hroot : s.Live root) :
    Ensures (newTaskDir root name s) fun r => Leaves s r.2 (some r.1) := by
  have hself : ∀ {s : State} {v}, s.Live v → ∀ p ∈ some v, s.Live p :=
    fun h p hp => Option.some.inj hp ▸ h
  have h₁ := h.newProc name sIfdir (State.grows_newVnode root hroot) (hself hroot)
  have hdir := h₁.result s.next rfl
  have hroot₁ := h₁.grows root hroot
  have h₂ := h₁.good.newProc [115, 116, 97, 116, 117, 115] sIfreg
    (State.grows_newVnode root hroot₁) (hself hdir)
  have hroot₂ := h₂.grows root hroot₁
  have hdir₂ := h₂.grows _ hdir
  have hsound : SoundVnode _ ⟨0, sIfdir, 0, .procfs root name (some root) []⟩ :=
    SoundVnode.procfs hroot₂ fun _ hc => by cases hc
  have h₃ := ((h₁.trans h₂).trans (h₂.good.leaves_some hdir₂)).setVnode (v := s.next) hdir₂
    (hsound.addChild (h₂.result _ rfl)) fun _ => hself hroot₂
  refine (h₃.good.readVnode root).bind fun vnode hv => ensures_pure (h₃.trans ?_)
  exact (h₃.good.leaves h₃.result).setVnode ⟨vnode, hv.2⟩ (hv.1.addChild (h₃.result _ rfl))
    fun hs => vnode.parent_addChild s.next ▸ hs root vnode hv.2

theorem Good.removeChild (h : Good s) (v child : ℕ) :
    Ensures (removeChild v child s) fun s' => Leaves s s' none := by
  rw [Vfs.removeChild]
  refine (h.readVnode v).bind ?_
  rintro ⟨size, mode, dev, impl⟩ ⟨⟨hroot, hchildren, hbuffer⟩, hold⟩
  cases impl with
  | tmpfs root name content parent children =>
    refine ensures_pure (h.leaves_setVnode hold ⟨hroot,
      fun c hc => hchildren c (List.mem_of_mem_erase hc), fun _ _ _ _ _ hEq => ?_⟩ rfl)
    obtain ⟨-, -, rfl, -, -⟩ := Impl.tmpfs.inj hEq
    exact hbuffer _ _ _ _ _ rfl
  | procfs root name parent children =>
    exact ensures_pure (h.leaves_setVnode hold
      (SoundVnode.procfs hroot fun c hc => hchildren c (List.mem_of_mem_erase hc)) rfl)
  | fat32 root name first parent offset => exact ensures_pure h.leaves_none

theorem Good.procGetChild (h : Good s) (hv : SoundVnode s vnode) :
    Ensures (procGetChild env v vnode name s) fun r => Leaves s r.2 r.1 := by
  rw [Vfs.procGetChild]
  refine (findM?_mem vnode.children).bind fun it hit => ?_
  have hlive : ∀ a ∈ it, s.Live a := fun a ha => hv.children a (hit a ha)
  split_ifs
  · split
    · exact ensures_pure (h.leaves hlive)
    · refine (h.newTaskDir hv.root).bind ?_
      rintro ⟨dir, s'⟩ h'
      exact ensures_pure h'
  · split
    · exact (h.removeChild v _).bind fun s' h' => ensures_pure h'
    · exact ensures_pure h.leaves_none
  · exact ensures_pure (h.leaves hlive)

theorem Good.getChild (h : Good s) (henv : env.OnDisk) :
    Ensures (getChild env fuel v name s) fun r => Leaves s r.2 r.1 := by
  rw [Vfs.getChild]
  refine (h.readVnode v).bind fun vnode hv => ?_
  have hself := h.leaves_some ⟨vnode, hv.2⟩
  split
  · rename_i root name' content parent children himpl
    have hchildren : ∀ c ∈ children, s.Live c := by
      have := hv.1.children
      rwa [Vnode.children, himpl] at this
    split_ifs
    · exact ensures_pure hself
    · exact Good.getParent henv fuel h
    · exact (findM?_mem children).bind fun it hit =>
        ensures_pure (h.leaves fun a ha => hchildren a (hit a ha))
  · split_ifs
    · exact ensures_pure hself
    · exact Good.getParent henv fuel h
    · exact h.procGetChild hv.1
  · exact h.fatGetChild henv hv.1

theorem Good.getMountedVnodeOrHostVnode (h : Good s) {v : Option ℕ} (hv : ∀ a ∈ v, s.Live a) :
    Ensures (getMountedVnodeOrHostVnode v s) fun r => ∀ a ∈ r, s.Live a := by
  cases v with
  | none => exact ensures_pure hv
  | some v =>
    have hmem : Ensures (findMount v s) fun it => ∀ m ∈ it, m ∈ s.mounts :=
      ensures_bind fun _ _ => findM?_mem s.mounts
    refine hmem.bind fun it hit => ?_
    split
    · exact ensures_pure fun a ha => Option.some.inj ha ▸ (h.mounts _ (hit _ rfl)).1
    · exact ensures_pure hv

theorem Good.walk (henv : env.OnDisk) (components : List Name) :
    ∀ {v s}, Good s → s.Live v → Ensures (walk env fuel components v s) fun r =>
      Leaves s r.2.2 r.1 ∧ ∀ p ∈ r.2.1, r.2.2.Live p := by
  induction components with
  | nil => exact fun h hv => ensures_pure ⟨h.leaves_some hv, fun p hp => by cases hp⟩
  | cons name rest ih =>
    intro v s h hv
    rw [Vfs.walk]
    refine (h.getChild henv).bind ?_
    rintro ⟨child, s'⟩ h'
    replace h' : Leaves s s' child := h'
    have hparent : ∀ p ∈ (if rest = [] then some v else none), s'.Live p := by
      intro p hp
      split_ifs at hp
      · exact Option.some.inj hp ▸ h'.grows v hv
      · cases hp
    refine (h'.good.getMountedVnodeOrHostVnode h'.result).bind fun mounted hmounted => ?_
    have hleaves : Leaves s s' mounted := ⟨h'.toExtends, h'.good, h'.grows, hmounted⟩
    split
    · exact ensures_pure ⟨hleaves, hparent⟩
    · split
      · rename_i hrest
        rw [if_pos hrest] at hparent
        exact ensures_pure ⟨hleaves, hparent⟩
      · exact (ih h'.good (hmounted _ rfl)).mono fun r hr => ⟨hleaves.trans hr.1, hr.2⟩

/-- A path that a task may give: the task is there, or its directory does not matter. -/
def MayResolve (task : ℕ) (pathname : Name) (s : State) : Prop :=
  pathname.head? = some slash ∨ (task, 0) ∈ s.fds.live

theorem MayResolve.of_fds {pathname : Name} (h : MayResolve task pathname s)
    (hfds : s'.fds = s.fds) : MayResolve task pathname s' :=
  h.imp_right fun hlive => hfds ▸ hlive

theorem Good.rootVnode (h : Good s) : Ensures (rootVnode s) fun v => s.Live v := by
  rw [Vfs.rootVnode]
  split
  · rename_i m rest hmounts
    exact ensures_ok (h.mounts m (hmounts ▸ List.mem_cons_self)).1
  · exact ensures_error _

theorem Good.resolvePath (h : Good s) (henv : env.OnDisk) {pathname : Name}
    (hmay : MayResolve task pathname s) :
    Ensures (resolvePath env fuel task pathname s) fun r =>
      Leaves s r.2.2.2 r.1 ∧ ∀ p ∈ r.2.1, r.2.2.2.Live p := by
  have hrelative : pathname.head? ≠ some slash → s.Live (s.cwd task) := fun hne =>
    h.cwd task (hmay.resolve_left hne)
  have hnone : ∀ p ∈ (none : Option ℕ), s.Live p := fun p hp => by cases hp
  have hwalk : ∀ start components, s.Live start →
      Ensures (Vfs.walk env fuel components start s >>= fun r =>
        pure (r.1, r.2.1, components.getLastD [], r.2.2)) fun r =>
          Leaves s r.2.2.2 r.1 ∧ ∀ p ∈ r.2.1, r.2.2.2.Live p := by
    intro start components hstart
    exact (h.walk henv components hstart).bind fun r hr => ensures_pure hr
  rw [Vfs.resolvePath]
  split_ifs with hdot
  · refine ensures_pure ⟨h.leaves_some (hrelative ?_), hnone⟩
    rw [hdot]
    decide
  dsimp only
  split_ifs with hnil habs
  · exact h.rootVnode.bind fun root hroot => ensures_pure ⟨h.leaves_some hroot, hnone⟩
  · exact h.rootVnode.bind fun root hroot => hwalk root _ hroot
  · exact hwalk _ _ (hrelative habs)

/-! ### Creation -/

theorem Good.createChild (h : Good s) (henv : env.OnDisk) {parent : ℕ} {content : List UInt8}
    (hlen : content.length < sizeMod) (mode : ℕ) :
    Ensures (createChild env parent name content mode s) fun r => Leaves s r.2 r.1 := by
  rw [Vfs.createChild]
  refine (h.readVnode parent).bind fun vnode hv => ?_
  have hlive : s.Live parent := ⟨vnode, hv.2⟩
  split
  · rename_i root name' content' parent' children himpl
    have hroot : s.Live root := by
      have := hv.1.root
      rwa [Vnode.root, himpl] at this
    have h' := h.newVnode (⟨content.length, mode, 0, .tmpfs root name content (some parent) []⟩)
      (SoundVnode.tmpfs (State.grows_newVnode root hroot) hlen)
      fun p hp => Option.some.inj hp ▸ hlive
    refine ensures_bind fun _ _ => ensures_pure (h'.setVnode (h'.grows parent hlive)
      ((hv.1.mono h'.grows).addChild (h'.result _ rfl)) fun hs p hp => h'.grows p ?_)
    rw [Vnode.parent_addChild] at hp
    exact hs parent vnode hv.2 p hp
  · exact ensures_error _
  · split
    · exact ensures_pure (h.newFat hv.1.root (henv.2 _ _ _ _ ‹_›))
    · exact ensures_pure h.leaves_none

theorem Good.create (h : Good s) (henv : env.OnDisk) {pathname : Name}
    (hmay : MayResolve task pathname s) {content : List UInt8}
    (hlen : content.length < sizeMod) (mode : ℕ) :
    Ensures (create env fuel task pathname content mode s) fun r => Leaves s r.2 r.1 := by
  rw [Vfs.create]
  split_ifs
  · exact ensures_pure h.leaves_none
  refine (h.resolvePath henv hmay).bind ?_
  rintro ⟨target, parent, basename, s'⟩ ⟨h', -⟩
  replace h' : Leaves s s' target := h'
  dsimp only
  split
  · exact ensures_pure h'.none
  · exact ensures_pure h'.none
  · exact (h'.good.createChild henv hlen mode).mono fun r hr => h'.trans hr

end Valkyrie.Vfs
