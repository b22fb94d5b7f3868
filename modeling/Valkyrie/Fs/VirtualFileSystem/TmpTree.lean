import Valkyrie.Fs.VirtualFileSystem.Read

/-!
# The tree of a TmpFS

In a TmpFS nothing but the callers of `create_child` keeps the tree in shape. `create` resolves the
path first: a name that is taken leads to a vnode and nothing is created, and so do `.` and `..`,
since a directory has both. So the names of the children stay apart
(`Valkyrie.Vfs.Missing`), and what a child knows as its parent is the inode that lists it.

That the parent *is a directory* nobody asks. The path up to the last component may lead to a
regular file or to a device, and then the new inode is a child of that
(`Valkyrie.Vfs.not_shaped_of_file`). If the paths of the calls that create an inode lead to
directories up to the last component (`Valkyrie.Vfs.TreeCall.Careful`), then the tree has its shape
after every run (`Valkyrie.Vfs.shaped_of_run`).
-/

namespace Valkyrie.Vfs

open Exec Function

variable {env : Env} {s s' : State} {vnode : Vnode} {fuel task v p n : ℕ} {name : Name}

/-! ### What is claimed of the tree -/

/-- The names that are not for children: `.`, `..` and the empty one. -/
def Special (name : Name) : Prop := name = dot ∨ name = dotdot ∨ name = []

/-- **The shape of the tree**: the children of an inode have different names, none of them special,
know it as their parent, and it is a directory if it has any. -/
structure Shaped (s : State) : Prop where
  distinct : ∀ v vnode, s.vnodes v = some vnode →
    (vnode.children.map fun c => (s.vnodes c).map Vnode.name).Nodup
  named : ∀ v vnode, s.vnodes v = some vnode → ∀ c ∈ vnode.children,
    ∃ child, s.vnodes c = some child ∧ ¬Special child.name
  parent : ∀ v vnode, s.vnodes v = some vnode → ∀ c ∈ vnode.children,
    ∀ env fuel, getParent env (fuel + 1) c s = .ok (some v, s)
  directory : ∀ v vnode, s.vnodes v = some vnode → vnode.children ≠ [] → vnode.isDirectory = true

/-- A call, and what it depends on. -/
inductive TreeCall where
  | other : TreeCall
  | create (env : Env) (fuel task : ℕ) (pathname : Name) : TreeCall
  | mknod (env : Env) (fuel task : ℕ) (pathname : Name) (mode : ℕ) : TreeCall
  | open (env : Env) (fuel task : ℕ) (pathname : Name) (options : ℕ) : TreeCall

/-- **A call on a tree of TmpFS**: one that creates an inode, or one that makes a task, changes its
directory, or puts a TmpFS into the tree or takes it away. -/
inductive TreeEvent : TreeCall → State → State → Prop
  | rootTmpFS {s s' : State} (h : mountRootfs (newTmpFS s).1 (newTmpFS s).2 = .ok s') :
      TreeEvent .other s s'
  | newTask {s s' : State} {task : ℕ} (hnew : ∀ fd, (task, fd) ∉ s.fds.live)
      (h : newTask task s = .ok s') : TreeEvent .other s s'
  | fork {s s' : State} {task child : ℕ} (htask : (task, 0) ∈ s.fds.live)
      (hnew : ∀ fd, (child, fd) ∉ s.fds.live) (h : fork task child s = .ok s') :
      TreeEvent .other s s'
  | chdir {s s' : State} {env : Env} {fuel task : ℕ} {pathname : Name} {ret : ℤ}
      (henv : env.OnDisk) (hmay : MayResolve task pathname s)
      (h : chdir env fuel task pathname s = .ok (ret, s')) : TreeEvent .other s s'
  | mount {s s' : State} {env : Env} {fuel task : ℕ} {mountpoint : Name} {ret : ℤ}
      (henv : env.OnDisk) (hmay : MayResolve task mountpoint s)
      (h : mount env fuel task mountpoint .tmpfs s = .ok (ret, s')) : TreeEvent .other s s'
  | umount {s s' : State} {env : Env} {fuel task : ℕ} {mountpoint : Name} {ret : ℤ}
      (henv : env.OnDisk) (hmay : MayResolve task mountpoint s)
      (h : umount env fuel task mountpoint s = .ok (ret, s')) : TreeEvent .other s s'
  | create {s s' : State} {env : Env} {fuel task : ℕ} {pathname : Name} {content : List UInt8}
      {mode : ℕ} {v : Option ℕ} (henv : env.OnDisk) (hmay : MayResolve task pathname s)
      (hlen : content.length < sizeMod)
      (h : create env fuel task pathname content mode s = .ok (v, s')) :
      TreeEvent (.create env fuel task pathname) s s'
  | mkdir {s s' : State} {env : Env} {fuel task : ℕ} {pathname : Name} {ret : ℤ}
      (henv : env.OnDisk) (hmay : MayResolve task pathname s)
      (h : mkdir env fuel task pathname s = .ok (ret, s')) :
      TreeEvent (.create env fuel task pathname) s s'
  | mknod {s s' : State} {env : Env} {fuel task : ℕ} {pathname : Name} {mode dev : ℕ} {ret : ℤ}
      (henv : env.OnDisk) (hmay : MayResolve task pathname s)
      (h : mknod env fuel task pathname mode dev s = .ok (ret, s')) :
      TreeEvent (.mknod env fuel task pathname mode) s s'
  | open {s s' : State} {env : Env} {fuel task : ℕ} {pathname : Name} {options : ℕ} {ret : ℤ}
      (henv : env.OnDisk) (hmay : MayResolve task pathname s)
      (h : sysOpen env fuel task pathname options s = .ok (ret, s')) :
      TreeEvent (.open env fuel task pathname options) s s'

/-- **The parent is a directory**: if there is nothing at the path, but there is something up to
its last component, then that is a directory. -/
def UnderDirectory (env : Env) (fuel task : ℕ) (pathname : Name) (s : State) : Prop :=
  ∀ parent basename s', resolvePath env fuel task pathname s =
    .ok (none, some parent, basename, s') →
      ∀ vnode, s.vnodes parent = some vnode → vnode.isDirectory = true

/-- A call creates inodes in directories only. It creates none at all for a mode that `mknod` does
not take, without `O_CREAT`, or if `open` takes for the missing file one that could not be
created. -/
def TreeCall.Careful (s : State) : TreeCall → Prop
  | .other => True
  | .create env fuel task pathname => UnderDirectory env fuel task pathname s
  | .mknod env fuel task pathname mode =>
    ¬(mode &&& sIfchr = 0 ∧ mode &&& sIfblk = 0 ∧ mode &&& sIfifo = 0) →
      UnderDirectory env fuel task pathname s
  | .open env fuel task pathname options =>
    options &&& oCreat ≠ 0 → findOpened none s = .ok none →
      UnderDirectory env fuel task pathname s

/-- Any call. -/
def TreeStep (s s' : State) : Prop := ∃ call : TreeCall, TreeEvent call s s'

/-- A call that creates inodes in directories only. -/
def CarefulTreeStep (s s' : State) : Prop := ∃ call : TreeCall, call.Careful s ∧ TreeEvent call s s'

/-! ### The invariant -/

/-- A vnode of a TmpFS. -/
def OfTmp (vnode : Vnode) : Prop :=
  ∃ root name content parent children, vnode.impl = .tmpfs root name content parent children

/-- **The inodes form a tree**, in terms of the fields. -/
structure TmpTree (T : ℕ → Option Vnode) : Prop where
  tmp : ∀ v vnode, T v = some vnode → OfTmp vnode
  parent : ∀ v vnode, T v = some vnode → v ≠ vnode.root → ∃ p x, vnode.parent = some p ∧ T p = some x
  child : ∀ v vnode, T v = some vnode → ∀ c ∈ vnode.children,
    ∃ child, T c = some child ∧ child.parent = some v ∧ c ≠ child.root ∧ ¬Special child.name
  distinct : ∀ v vnode, T v = some vnode → (vnode.children.map fun c => (T c).map Vnode.name).Nodup
  directory : ∀ v vnode, T v = some vnode → vnode.children ≠ [] → vnode.isDirectory = true

theorem TmpTree.shaped (h : TmpTree s.vnodes) : Shaped s where
  distinct := h.distinct
  named v vnode hv c hc := by
    obtain ⟨child, hchild, -, -, hname⟩ := h.child v vnode hv c hc
    exact ⟨child, hchild, hname⟩
  parent v vnode hv c hc env fuel := by
    obtain ⟨child, hchild, hparent, hroot, -⟩ := h.child v vnode hv c hc
    obtain ⟨root, name, content, parent, children, himpl⟩ := h.tmp c child hchild
    rw [Vnode.root, himpl] at hroot
    rw [Vnode.parent, himpl] at hparent
    dsimp only at hroot hparent
    rw [getParent, readVnode_of_some hchild, Exec.ok_bind]
    dsimp only
    rw [himpl]
    dsimp only
    rw [if_neg hroot, hparent, Option.filter_some, hv]
    rfl
  directory := h.directory

/-! ### Lookups -/

/-- There is no child of this name, and the name is one for children. -/
def Missing (s : State) (p : ℕ) (name : Name) : Prop :=
  ∃ vnode, s.vnodes p = some vnode ∧ name ≠ dot ∧ name ≠ dotdot ∧
    ∀ c ∈ vnode.children, (s.vnodes c).map Vnode.name ≠ some name

section Lookups

variable (hp : Proper s) (h : TmpTree s.vnodes)

include h in
/-- Every inode has a parent, if need be by way of the place where it is mounted. -/
theorem TmpTree.getParent (fuel : ℕ) :
    ∀ {v}, Ensures (getParent env fuel v s) fun r => r.2 = s ∧ r.1 ≠ none := by
  induction fuel with
  | zero => exact ensures_error _
  | succ fuel ih =>
    intro v
    rw [Vfs.getParent]
    refine (ensures_readVnode v s).bind fun vnode hv => ?_
    obtain ⟨root, name, content, parent, children, himpl⟩ := h.tmp v vnode hv
    rw [himpl]
    dsimp only
    split_ifs with hroot
    · split
      · exact ih
      · exact ensures_error _
    · obtain ⟨p, x, hparent, hx⟩ := h.parent v vnode hv (by rwa [Vnode.root, himpl])
      rw [Vnode.parent, himpl] at hparent
      dsimp only at hparent
      refine ensures_pure ⟨rfl, ?_⟩
      rw [hparent, Option.filter_some, hx]
      exact Option.some_ne_none p

include hp h in
theorem TmpTree.getChild : Ensures (getChild env fuel v name s) fun r =>
    r.2 = s ∧ (r.1 = none → Missing s v name) := by
  rw [Vfs.getChild]
  refine (ensures_readVnode v s).bind fun vnode hv => ?_
  obtain ⟨root, n, content, parent, children, himpl⟩ := h.tmp v vnode hv
  have hchildren : vnode.children = children := by rw [Vnode.children, himpl]
  rw [himpl]
  dsimp only
  split_ifs with hdot hdotdot
  · exact ensures_pure ⟨rfl, fun hnone => by cases hnone⟩
  · exact (h.getParent fuel).mono fun r hr => ⟨hr.1, fun hnone => absurd hnone hr.2⟩
  · rw [findChild_eq fun c hc => (hp.good.vnodes v vnode hv).children c (hchildren ▸ hc), ok_bind]
    refine ensures_pure ⟨rfl, fun hnone => ⟨vnode, hv, hdot, hdotdot, fun c hc hname => ?_⟩⟩
    have hno := List.find?_eq_none.mp hnone c (hchildren ▸ hc)
    exact hno (decide_eq_true hname)

include hp h in
/-- A walk that finds nothing has looked for the last component where it is missing. -/
theorem TmpTree.walk (components : List Name) : ∀ {v}, Ensures (walk env fuel components v s)
    fun r => r.2.2 = s ∧
      (r.1 = none → ∀ p ∈ r.2.1, Missing s p (components.getLastD [])) := by
  induction components with
  | nil => exact ensures_pure ⟨rfl, fun hnone => by cases hnone⟩
  | cons name rest ih =>
    intro v
    rw [Vfs.walk]
    refine (h.getChild hp).bind ?_
    rintro ⟨child, s'⟩ ⟨rfl, hmissing⟩
    refine ensures_bind fun mounted hmounted => ?_
    split
    · refine ensures_pure ⟨rfl, fun _ p hparent => ?_⟩
      split_ifs at hparent with hrest
      · obtain rfl := Option.some.inj hparent
        rw [hrest]
        refine hmissing ?_
        cases child with
        | none => rfl
        | some c =>
          obtain ⟨it, -, hit⟩ := bind_eq_ok.mp hmounted
          split at hit <;> cases pure_eq_ok.mp hit
      · cases hparent
    · split_ifs with hrest
      · exact ensures_pure ⟨rfl, fun hnone => by cases hnone⟩
      · refine ih.mono fun r hr => ⟨hr.1, fun hnone p hparent => ?_⟩
        obtain ⟨b, bs, rfl⟩ := List.exists_cons_of_ne_nil hrest
        exact hr.2 hnone p hparent

/-- The components of a path are not empty. -/
theorem ne_nil_of_mem_split {delimiter : UInt8} {a : Name} (l : Name) :
    ∀ {part}, a ∈ split delimiter l part → a ≠ [] := by
  induction l with
  | nil =>
    intro part ha
    rw [split] at ha
    split_ifs at ha with hpart
    · cases ha
    · exact List.mem_singleton.mp ha ▸ hpart
  | cons c l ih =>
    intro part ha
    rw [split] at ha
    split_ifs at ha with hc hpart
    · exact ih ha
    · rcases List.mem_cons.mp ha with rfl | ha
      · exact hpart
      · exact ih ha
    · exact ih ha

include hp h in
theorem TmpTree.resolvePath {pathname : Name} : Ensures (resolvePath env fuel task pathname s)
    fun r => r.2.2.2 = s ∧
      (r.1 = none → ∀ p ∈ r.2.1, Missing s p r.2.2.1 ∧ ¬Special r.2.2.1) := by
  have hwalk : ∀ start, split slash pathname [] ≠ [] →
      Ensures (Vfs.walk env fuel (split slash pathname []) start s >>= fun r =>
        pure (r.1, r.2.1, (split slash pathname []).getLastD [], r.2.2)) fun r => r.2.2.2 = s ∧
          (r.1 = none → ∀ p ∈ r.2.1, Missing s p r.2.2.1 ∧ ¬Special r.2.2.1) := by
    intro start hne
    refine (h.walk hp _).bind fun r hr => ensures_pure ⟨hr.1, fun hnone p hparent => ?_⟩
    have hmissing := hr.2 hnone p hparent
    obtain ⟨vnode, -, hdot, hdotdot, -⟩ := hmissing
    refine ⟨hr.2 hnone p hparent, fun hspecial => ?_⟩
    rcases hspecial with hEq | hEq | hEq
    · exact hdot hEq
    · exact hdotdot hEq
    · refine ne_nil_of_mem_split pathname (List.getLast_mem hne) ?_
      rwa [List.getLastD_eq_getLast?, List.getLast?_eq_some_getLast hne] at hEq
  rw [Vfs.resolvePath]
  split_ifs with hdot
  · exact ensures_pure ⟨rfl, fun hnone => by cases hnone⟩
  dsimp only
  split_ifs with hnil habs
  · exact ensures_bind fun root _ => ensures_pure ⟨rfl, fun hnone => by cases hnone⟩
  · exact ensures_bind fun root _ => hwalk root hnil
  · exact hwalk _ hnil

end Lookups

/-! ### Creation -/

section Creation

variable {T : ℕ → Option Vnode} {old new : Vnode}

/-- A new inode without children. -/
theorem TmpTree.insert (h : TmpTree T) (hn : T n = none) (htmp : OfTmp new)
    (hchildren : new.children = [])
    (hparent : n ≠ new.root → ∃ p x, new.parent = some p ∧ T p = some x) :
    TmpTree (update T n (some new)) := by
  have hold : ∀ {a x}, T a = some x → update T n (some new) a = some x := by
    intro a x ha
    rw [update_of_ne, ha]
    rintro rfl
    rw [hn] at ha
    cases ha
  have hcases : ∀ {a x}, update T n (some new) a = some x →
      a = n ∧ x = new ∨ T a = some x := by
    intro a x ha
    rcases eq_or_ne a n with rfl | hne
    · rw [update_self] at ha
      exact Or.inl ⟨rfl, (Option.some.inj ha).symm⟩
    · rw [update_of_ne hne] at ha
      exact Or.inr ha
  constructor
  · intro v vnode hv
    rcases hcases hv with ⟨-, rfl⟩ | hv
    · exact htmp
    · exact h.tmp v vnode hv
  · intro v vnode hv hroot
    rcases hcases hv with ⟨rfl, rfl⟩ | hv
    · obtain ⟨p, x, hp, hx⟩ := hparent hroot
      exact ⟨p, x, hp, hold hx⟩
    · obtain ⟨p, x, hp, hx⟩ := h.parent v vnode hv hroot
      exact ⟨p, x, hp, hold hx⟩
  · intro v vnode hv c hc
    rcases hcases hv with ⟨-, rfl⟩ | hv
    · rw [hchildren] at hc
      cases hc
    · obtain ⟨child, hchild, hrest⟩ := h.child v vnode hv c hc
      exact ⟨child, hold hchild, hrest⟩
  · intro v vnode hv
    rcases hcases hv with ⟨-, rfl⟩ | hv
    · rw [hchildren]
      exact List.nodup_nil
    · have hsame : ∀ c ∈ vnode.children,
          (update T n (some new) c).map Vnode.name = (T c).map Vnode.name := by
        intro c hc
        obtain ⟨child, hchild, -⟩ := h.child v vnode hv c hc
        rw [hold hchild, hchild]
      rw [List.map_congr_left hsame]
      exact h.distinct v vnode hv
  · intro v vnode hv hne
    rcases hcases hv with ⟨-, rfl⟩ | hv
    · exact absurd hchildren hne
    · exact h.directory v vnode hv hne

/-- **An inode is overwritten**, with other children perhaps. -/
theorem TmpTree.replace (h : TmpTree T) (hp : T p = some old) (htmp : OfTmp new)
    (hname : new.name = old.name) (hroot : new.root = old.root) (hparent : new.parent = old.parent)
    (hchild : ∀ c ∈ new.children,
      ∃ child, T c = some child ∧ child.parent = some p ∧ c ≠ child.root ∧ ¬Special child.name)
    (hdistinct : (new.children.map fun c => (T c).map Vnode.name).Nodup)
    (hdirectory : new.children ≠ [] → new.isDirectory = true) :
    TmpTree (update T p (some new)) := by
  have hlater : ∀ {a x}, T a = some x → ∃ x', update T p (some new) a = some x' ∧
      x'.name = x.name ∧ x'.root = x.root ∧ x'.parent = x.parent := by
    intro a x ha
    rcases eq_or_ne a p with rfl | hne
    · obtain rfl := Option.some.inj (hp.symm.trans ha)
      exact ⟨new, update_self .., hname, hroot, hparent⟩
    · exact ⟨x, (update_of_ne hne ..).trans ha, rfl, rfl, rfl⟩
  have hcases : ∀ {a x}, update T p (some new) a = some x →
      a = p ∧ x = new ∨ T a = some x := by
    intro a x ha
    rcases eq_or_ne a p with rfl | hne
    · rw [update_self] at ha
      exact Or.inl ⟨rfl, (Option.some.inj ha).symm⟩
    · rw [update_of_ne hne] at ha
      exact Or.inr ha
  -- The children of an inode are what they were, and have the names they had.
  have hlist : ∀ {v vnode}, update T p (some new) v = some vnode →
      (∀ c ∈ vnode.children, ∃ child, T c = some child ∧ child.parent = some v ∧ c ≠ child.root ∧
        ¬Special child.name) ∧ (vnode.children.map fun c => (T c).map Vnode.name).Nodup := by
    intro v vnode hv
    rcases hcases hv with ⟨rfl, rfl⟩ | hv
    · exact ⟨hchild, hdistinct⟩
    · exact ⟨h.child v vnode hv, h.distinct v vnode hv⟩
  constructor
  · intro v vnode hv
    rcases hcases hv with ⟨-, rfl⟩ | hv
    · exact htmp
    · exact h.tmp v vnode hv
  · intro v vnode hv hne
    have hfound : ∃ p x, vnode.parent = some p ∧ T p = some x := by
      rcases hcases hv with ⟨rfl, rfl⟩ | hv
      · rw [hparent]
        exact h.parent _ old hp (hroot ▸ hne)
      · exact h.parent v vnode hv hne
    obtain ⟨q, x, hq, hx⟩ := hfound
    obtain ⟨x', hx', -⟩ := hlater hx
    exact ⟨q, x', hq, hx'⟩
  · intro v vnode hv c hc
    obtain ⟨child, hc', hback, hneroot, hspecial⟩ := (hlist hv).1 c hc
    obtain ⟨child', hchild', hname', hroot', hparent'⟩ := hlater hc'
    exact ⟨child', hchild', hparent'.trans hback, hroot' ▸ hneroot, hname' ▸ hspecial⟩
  · intro v vnode hv
    have hsame : ∀ c ∈ vnode.children,
        (update T p (some new) c).map Vnode.name = (T c).map Vnode.name := by
      intro c hc
      obtain ⟨child, hc', -⟩ := (hlist hv).1 c hc
      obtain ⟨child', hchild', hname', -⟩ := hlater hc'
      rw [hchild', hc', Option.map_some, Option.map_some, hname']
    rw [List.map_congr_left hsame]
    exact (hlist hv).2
  · intro v vnode hv hne
    rcases hcases hv with ⟨-, rfl⟩ | hv
    · exact hdirectory hne
    · exact h.directory v vnode hv hne

/-- A child is added to an inode. -/
theorem OfTmp.addChild (h : OfTmp vnode) (c : ℕ) : OfTmp (vnode.addChild c) ∧
    (vnode.addChild c).name = vnode.name ∧ (vnode.addChild c).root = vnode.root ∧
    (vnode.addChild c).children = vnode.children ++ [c] := by
  obtain ⟨size, mode, dev, impl⟩ := vnode
  obtain ⟨root, name, content, parent, children, himpl⟩ := h
  obtain rfl := himpl
  exact ⟨⟨root, name, content, parent, children ++ [c], rfl⟩, rfl, rfl, rfl⟩

/-- **A child with a new name, of a directory.** -/
theorem TmpTree.createChild (hproper : Proper s) (h : TmpTree s.vnodes) (hmissing : Missing s p name)
    (hspecial : ¬Special name)
    (hdir : ∀ vnode, s.vnodes p = some vnode → vnode.isDirectory = true)
    {content : List UInt8} {mode : ℕ} :
    Ensures (createChild env p name content mode s) fun r => TmpTree r.2.vnodes := by
  obtain ⟨vnode, hp, -, -, hnames⟩ := hmissing
  have hne : p ≠ s.next := hproper.ne_next ⟨vnode, hp⟩
  obtain ⟨root, n, c, parent, children, himpl⟩ := h.tmp p vnode hp
  have hroot : s.Live root := by
    have hlive := (hproper.good.vnodes p vnode hp).root
    rwa [Vnode.root, himpl] at hlive
  rw [Vfs.createChild, readVnode_of_some hp, ok_bind]
  dsimp only
  rw [himpl]
  refine ensures_bind fun _ _ => ensures_pure ?_
  let new : Vnode := ⟨content.length, mode, 0, .tmpfs root name content (some p) []⟩
  have h₁ : TmpTree (update s.vnodes s.next (some new)) :=
    h.insert hproper.vnodes_next ⟨_, _, _, _, _, rfl⟩ rfl fun _ => ⟨p, vnode, rfl, hp⟩
  obtain ⟨htmp, hname, hroot', hchildren⟩ := (h.tmp p vnode hp).addChild s.next
  have hp₁ : update s.vnodes s.next (some new) p = some vnode :=
    (update_of_ne hne ..).trans hp
  change TmpTree (update (update s.vnodes s.next (some new)) p
    (some (vnode.addChild s.next)))
  refine h₁.replace hp₁ htmp hname hroot' (vnode.parent_addChild _) ?_ ?_ fun _ => hdir vnode hp
  · intro a ha
    rw [hchildren] at ha
    rcases List.mem_append.mp ha with ha | ha
    · exact h₁.child p vnode hp₁ a ha
    · obtain rfl := List.mem_singleton.mp ha
      exact ⟨new, update_self .., rfl, (hproper.ne_next hroot).symm, hspecial⟩
  · rw [hchildren, List.map_append]
    refine List.Nodup.append (h₁.distinct p vnode hp₁) (List.nodup_singleton _) ?_
    rw [List.map_singleton, List.disjoint_singleton, update_self]
    intro hmem
    obtain ⟨a, ha, hEq⟩ := List.mem_map.mp hmem
    refine hnames a ha ?_
    obtain ⟨child, hchild, -⟩ := h.child p vnode hp a ha
    rwa [update_of_ne (hproper.ne_next ⟨child, hchild⟩)] at hEq

end Creation

/-! ### Calls -/

section Calls

variable {pathname : Name} (hp : Proper s) (h : TmpTree s.vnodes)

include hp h

theorem TmpTree.create (hdir : UnderDirectory env fuel task pathname s) {content : List UInt8}
    {mode : ℕ} :
    Ensures (create env fuel task pathname content mode s) fun r => TmpTree r.2.vnodes := by
  rw [Vfs.create]
  split_ifs
  · exact ensures_pure h
  refine ensures_bind ?_
  rintro ⟨target, parent, basename, s'⟩ hresolve
  obtain ⟨rfl, hmissing⟩ := h.resolvePath hp _ hresolve
  dsimp only at hresolve hmissing ⊢
  split
  · exact ensures_pure h
  · exact ensures_pure h
  · obtain ⟨hmissing, hspecial⟩ := hmissing rfl _ rfl
    exact h.createChild hp hmissing hspecial (hdir _ _ _ hresolve)

theorem TmpTree.mkdir (hdir : UnderDirectory env fuel task pathname s) :
    Ensures (mkdir env fuel task pathname s) fun r => TmpTree r.2.vnodes :=
  (h.create hp hdir).bind fun _ hr => ensures_pure hr

theorem TmpTree.mknod {mode dev : ℕ}
    (hdir : (TreeCall.mknod env fuel task pathname mode).Careful s) :
    Ensures (mknod env fuel task pathname mode dev s) fun r => TmpTree r.2.vnodes := by
  rw [Vfs.mknod]
  split_ifs with hmode
  · exact ensures_pure h
  refine (h.create hp (hdir hmode)).bind ?_
  rintro ⟨v, s'⟩ h'
  dsimp only at h' ⊢
  split
  · exact ensures_pure h'
  · rename_i v
    refine (ensures_readVnode v s').bind fun vnode hv => ensures_pure ?_
    exact h'.replace hv (h'.tmp v vnode hv) rfl rfl rfl (h'.child v vnode hv)
      (h'.distinct v vnode hv) (h'.directory v vnode hv)

theorem TmpTree.openFile {options : ℕ}
    (hdir : (TreeCall.open env fuel task pathname options).Careful s) :
    Ensures (openFile env fuel task pathname options s) fun r => TmpTree r.2.vnodes := by
  rw [Vfs.openFile]
  refine ensures_bind ?_
  rintro ⟨target, parent, basename, s'⟩ hresolve
  obtain ⟨rfl, -⟩ := h.resolvePath hp _ hresolve
  dsimp only at hresolve ⊢
  refine ensures_bind fun opened hopened => ?_
  split
  · exact ensures_pure h
  · split
    · exact ensures_pure h
    · split_ifs with hcreat
      · exact ensures_pure h
      · exact (h.create hp (hdir hcreat hopened)).bind fun r hr => ensures_pure hr

theorem TmpTree.sysOpen {options : ℕ}
    (hdir : (TreeCall.open env fuel task pathname options).Careful s) :
    Ensures (sysOpen env fuel task pathname options s) fun r => TmpTree r.2.vnodes := by
  refine (h.openFile hp hdir).bind ?_
  rintro ⟨file, s'⟩ h'
  dsimp only at h' ⊢
  split
  · exact ensures_pure h'
  · refine ensures_pure ?_
    rw [allocateFdForFile]
    split
    · exact h'
    · exact h'

theorem TmpTree.newTmpFS : TmpTree (newTmpFS s).2.vnodes :=
  h.insert hp.vnodes_next ⟨_, _, _, _, _, rfl⟩ rfl fun hne => absurd rfl hne

theorem TmpTree.access : Ensures (access env fuel task pathname s) fun r => r.2 = s :=
  (h.resolvePath hp).bind fun _ hr => ensures_pure hr.1

theorem TmpTree.chdir : Ensures (chdir env fuel task pathname s) fun r => TmpTree r.2.vnodes := by
  rw [Vfs.chdir]
  refine (h.access hp).bind ?_
  rintro ⟨found, s'⟩ rfl
  dsimp only
  split
  · exact ensures_pure h
  refine (h.resolvePath hp).bind ?_
  rintro ⟨v, parent, basename, t⟩ ⟨rfl, -⟩
  dsimp only
  split
  · exact ensures_error _
  · refine ensures_bind fun vnode _ => ?_
    split_ifs
    · exact ensures_pure h
    · exact ensures_pure h

theorem TmpTree.mount : Ensures (mount env fuel task pathname .tmpfs s)
    fun r => TmpTree r.2.vnodes := by
  rw [Vfs.mount]
  refine (h.resolvePath hp).bind ?_
  rintro ⟨v, parent, basename, t⟩ ⟨rfl, -⟩
  dsimp only
  split
  · exact ensures_pure h
  · exact ensures_pure (h.newTmpFS hp)

theorem TmpTree.umount : Ensures (umount env fuel task pathname s)
    fun r => TmpTree r.2.vnodes := by
  rw [Vfs.umount]
  refine (h.resolvePath hp).bind ?_
  rintro ⟨v, parent, basename, t⟩ ⟨rfl, -⟩
  dsimp only
  split
  · exact ensures_pure h
  · split
    · exact ensures_pure h
    · exact ensures_pure h

end Calls

/-! ### Runs -/

theorem TreeEvent.step {call : TreeCall} (h : TreeEvent call s s') : Step s s' := by
  cases h with
  | rootTmpFS hx => exact .rootTmpFS hx
  | newTask hnew hx => exact .newTask _ hnew hx
  | fork htask hnew hx => exact .fork _ _ htask hnew hx
  | chdir henv hmay hx => exact .chdir henv _ _ _ hmay hx
  | mount henv hmay hx => exact .mount henv _ _ _ hmay _ hx
  | umount henv hmay hx => exact .umount henv _ _ _ hmay hx
  | create henv hmay hlen hx => exact .create henv _ _ _ hmay _ hlen _ hx
  | mkdir henv hmay hx => exact .mkdir henv _ _ _ hmay hx
  | mknod henv hmay hx => exact .mknod henv _ _ _ hmay _ _ hx
  | «open» henv hmay hx => exact .open henv _ _ _ hmay _ hx

/-- **A call that creates inodes in directories only keeps the tree.** -/
theorem TmpTree.event {call : TreeCall} (hp : Proper s) (h : TmpTree s.vnodes)
    (hcareful : call.Careful s) (hevent : TreeEvent call s s') : TmpTree s'.vnodes := by
  cases hevent with
  | rootTmpFS hx =>
    rw [mountRootfs] at hx
    split at hx
    · cases hx
      exact h.newTmpFS hp
    · cases hx
  | newTask hnew hx =>
    obtain ⟨cwd, -, hx⟩ := bind_eq_ok.mp hx
    cases pure_eq_ok.mp hx
    exact h
  | fork htask hnew hx =>
    obtain ⟨s₁, hs₁, hx⟩ := bind_eq_ok.mp hx
    obtain ⟨cwd, -, hs₁⟩ := bind_eq_ok.mp hs₁
    cases pure_eq_ok.mp hs₁
    cases pure_eq_ok.mp hx
    exact h
  | chdir henv hmay hx => exact h.chdir hp _ hx
  | mount henv hmay hx => exact h.mount hp _ hx
  | umount henv hmay hx => exact h.umount hp _ hx
  | create henv hmay hlen hx => exact h.create hp hcareful _ hx
  | mkdir henv hmay hx => exact h.mkdir hp hcareful _ hx
  | mknod henv hmay hx => exact h.mknod hp hcareful _ hx
  | «open» henv hmay hx => exact h.sysOpen hp hcareful _ hx

/-- **The tree has its shape** in every state that is reached by calls which create inodes in
directories only. -/
theorem shaped_of_run (hrun : Run CarefulTreeStep init s) : Shaped s := by
  have hinv : Proper s ∧ TmpTree s.vnodes := by
    refine hrun.invariant (P := fun s => Proper s ∧ TmpTree s.vnodes) ⟨?_, ?_⟩ ?_
    · exact proper_of_run Relation.ReflTransGen.refl
    · exact ⟨nofun, nofun, nofun, nofun, nofun⟩
    · rintro a b ⟨hp, h⟩ ⟨call, hcareful, hevent⟩
      exact ⟨hp.step hevent.step, h.event hp hcareful hevent⟩
  exact hinv.2.shaped

/-! ### Two runs -/

/-- What a lookup shows about the parent. -/
theorem underDirectory_of_check {pathname : Name}
    (h : check (fun r => r.2.1.all fun p => (s.vnodes p).all Vnode.isDirectory)
      (resolvePath env fuel task pathname s) = true) : UnderDirectory env fuel task pathname s := by
  intro parent basename s' hresolve vnode hv
  obtain ⟨r, hr, hall⟩ := exists_ok_of_check h
  rw [hresolve] at hr
  cases hr
  dsimp only at hall
  rw [Option.all_some, hv] at hall
  exact hall

/-- In an empty TmpFS `/d` and `/d/e` are made. -/
theorem shaped_of_run_directories : ∃ s vnode, Run CarefulTreeStep init s ∧
    s.vnodes 2 = some vnode ∧ vnode.children = [3] ∧ Shaped s := by
  have hcheck : check (fun s => check (fun r => r.2.1.all fun p => (s.vnodes p).all Vnode.isDirectory)
        (resolvePath noDisk 1 1 [slash, 100] s) &&
      check (fun r => check (fun r' => r'.2.1.all fun p => (r.2.vnodes p).all Vnode.isDirectory)
          (resolvePath noDisk 1 1 [slash, 100, slash, 101] r.2) &&
        check (fun r' => decide ((r'.2.vnodes 2).map Vnode.children = some [3]))
          (mkdir noDisk 1 1 [slash, 100, slash, 101] r.2)) (mkdir noDisk 1 1 [slash, 100] s))
      (mountRootfs (newTmpFS init).1 (newTmpFS init).2) = true := by decide +kernel
  obtain ⟨s₁, h₁, htest⟩ := exists_ok_of_check hcheck
  simp only [Bool.and_eq_true] at htest
  obtain ⟨hdir₁, htest⟩ := htest
  obtain ⟨⟨ret₂, s₂⟩, h₂, htest⟩ := exists_ok_of_check htest
  obtain ⟨hdir₂, htest⟩ := Bool.and_eq_true_iff.mp htest
  obtain ⟨⟨ret₃, s₃⟩, h₃, htest⟩ := exists_ok_of_check htest
  obtain ⟨vnode, hv, hchildren⟩ := Option.map_eq_some_iff.mp (of_decide_eq_true htest)
  have hrun : Run CarefulTreeStep init s₃ :=
    ((Relation.ReflTransGen.single ⟨.other, trivial, .rootTmpFS h₁⟩).tail
      ⟨.create noDisk 1 1 _, underDirectory_of_check hdir₁,
        .mkdir onDisk_noDisk (Or.inl rfl) h₂⟩).tail
          ⟨.create noDisk 1 1 _, underDirectory_of_check hdir₂,
            .mkdir onDisk_noDisk (Or.inl rfl) h₃⟩
  exact ⟨s₃, vnode, hrun, hv, hchildren, shaped_of_run hrun⟩

/-- A task opens a new file `/f`, and makes the directory `/f/x`: the file has a child. -/
theorem not_shaped_of_file : ∃ s, Run TreeStep init s ∧ ¬Shaped s := by
  have hcheck : check (fun s₁ => check (fun s₂ => check (fun r => check (fun r' =>
        (r'.2.vnodes 3).any fun vnode => !vnode.isDirectory && decide (vnode.children ≠ []))
        (mkdir noDisk 1 1 [slash, 102, slash, 120] r.2))
      (sysOpen noDisk 1 1 [slash, 102] oCreat s₂)) (newTask 1 s₁))
      (mountRootfs (newTmpFS init).1 (newTmpFS init).2) = true := by decide +kernel
  obtain ⟨s₁, h₁, htest⟩ := exists_ok_of_check hcheck
  obtain ⟨s₂, h₂, htest⟩ := exists_ok_of_check htest
  obtain ⟨⟨ret₃, s₃⟩, h₃, htest⟩ := exists_ok_of_check htest
  obtain ⟨⟨ret₄, s₄⟩, h₄, htest⟩ := exists_ok_of_check htest
  have hrun : Run TreeStep init s₄ :=
    (((Relation.ReflTransGen.single ⟨_, .rootTmpFS h₁⟩).tail ⟨_, .newTask (no_fds h₁) h₂⟩).tail
      ⟨_, .open onDisk_noDisk (Or.inl rfl) h₃⟩).tail ⟨_, .mkdir onDisk_noDisk (Or.inl rfl) h₄⟩
  refine ⟨s₄, hrun, fun hshaped => ?_⟩
  obtain ⟨vnode, hv, hfile⟩ := (Option.any_eq_true _ _).mp htest
  simp only [Bool.and_eq_true, Bool.not_eq_true', decide_eq_true_eq] at hfile
  have hdir := hshaped.directory 3 vnode hv hfile.2
  rw [hfile.1] at hdir
  cases hdir

end Valkyrie.Vfs
