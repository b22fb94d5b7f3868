import Valkyrie.Base.Loop
import Valkyrie.Fs.Fat32.Entry

/-!
# Directories of a FAT32 volume

The part of `FAT32Inode` that reads directories. A directory is a chain of clusters with sixteen
entries each. `iterate_children` goes through the entries up to the end marker: it collects the
characters of the long-name entries, and at the directory entry that follows it hands a *view* to
its callback. Looking up a child by name, by its number, and counting the children are three
callbacks.

For a chain that ends and whose clusters are on the disk, the entries are a list
(`Valkyrie.Fat32.items`), and so are the views (`Valkyrie.Fat32.viewsFrom`). They are the same for
all three traversals (`Valkyrie.Fat32.iterateChildren_eq`).
-/

namespace Valkyrie

namespace Fat32

open Exec

/-- `FAT32Inode`, without the buffer of its content. -/
structure Inode where
  name : Name
  firstCluster : ℕ
  /-- The cluster that the directory entry is in. -/
  parentCluster : ℕ
  /-- Where in this cluster the directory entry is. -/
  parentOffset : ℕ
  size : ℕ
  mode : ℕ
deriving DecidableEq

/-- `FAT32::DirectoryEntryView`. -/
structure View where
  name : Name
  dentry : Entry
  /-- The number of the child. -/
  index : ℕ
  parentCluster : ℕ
  parentOffset : ℕ

namespace Inode

/-- The vnode that an inode is, in the file system with this root. -/
def vnode (root : ℕ) (inode : Inode) : Vnode :=
  ⟨inode.size, inode.mode, 0,
    .fat32 root inode.name inode.firstCluster inode.parentCluster inode.parentOffset⟩

def isDirectory (inode : Inode) : Bool := inode.mode &&& sIfmt == sIfdir

def isRegularFile (inode : Inode) : Bool := inode.mode &&& sIfmt == sIfreg

/-- `hash_code`. -/
def hashCode (inode : Inode) : ℕ := (inode.vnode 0).hashCode

end Inode

/-- The next cluster, for a number that was read from the table. -/
def link (n : ℕ) : Option ℕ := if IsEoc n then none else some n

/-- Where the entries of a cluster are. -/
def slots : List ℕ := (List.range 16).map (32 * ·)

section

variable (v : Volume)

/-- `_root_inode`. The name is `/`. -/
def rootInode : Inode := ⟨[47], v.rootCluster, eocMax, 0, 0, sIfdir⟩

/-- `is_root_vnode`. -/
def isRootVnode (inode : Inode) : Bool := inode.hashCode == (rootInode v).hashCode

/-- `dir_first_cluster_number`. -/
def dirFirstClusterNumber (inode : Inode) : ℕ :=
  if inode.firstCluster ≠ 0 then inode.firstCluster else v.rootCluster

variable {σ : Type}

/-- The two loops that go through the entries of a directory: along the clusters, and through the
entries of each. The buffer of the cluster is one and the same. -/
def eachEntry (d : Disk) (body : ℕ → ℕ → Entry → σ → Exec (Bool × σ)) (fuel n : ℕ) (buf : Block)
    (x : σ) : Exec (Block × σ) :=
  followLinks (fun n _ => link (fatRead v n d)) (fun n (t : Block × σ) => do
    let cluster := clusterRead v n t.1 d
    let (stop, x) ← untilStop (fun o => body n o (entryAt cluster o)) slots t.2
    return (stop, cluster, x)) fuel (link n) (buf, x)

/-- The view of a directory entry, after the long-name entries in front of it. -/
def viewOf (name : Name) (index n o : ℕ) (e : Entry) : View where
  name := if name = [] then e.shortName else name
  dentry := e.setFirstClusterNumber
    (if e.firstClusterNumber ≠ 0 then e.firstClusterNumber else v.rootCluster)
  index := index
  parentCluster := n
  parentOffset := o

/-- What `iterate_children` does with an entry. The state is the name so far, the number of the
next child, and the state of the callback. -/
def scanEntry (f : View → σ → Bool × σ) (n o : ℕ) (e : Entry) :
    Name × ℕ × σ → Exec (Bool × Name × ℕ × σ)
  | (name, index, x) =>
    if e.IsDeleted then return (false, name, index, x)
    else if e.IsTheEnd then return (true, name, index, x)
    else if e.IsLfn then do return (false, (← e.getFilename) ++ name, index, x)
    else
      let (stop, x) := f (viewOf v name index n o e) x
      if stop then return (true, name, index, x) else return (false, [], u32 (index + 1), x)

/-- `iterate_children`. -/
def iterateChildren (inode : Inode) (fuel : ℕ) (f : View → σ → Bool × σ) (x : σ) (d : Disk) :
    Exec σ :=
  if inode.isDirectory then do
    let (_, _, _, x) ← eachEntry v d (scanEntry v f) fuel (dirFirstClusterNumber v inode)
      (fun _ => 0) ([], 0, x)
    return x
  else return x

/-- The inode of a child. -/
def inodeOf (view : View) : Inode where
  name := view.name
  firstCluster := view.dentry.firstClusterNumber
  parentCluster := view.parentCluster
  parentOffset := view.parentOffset
  size := view.dentry.size
  mode := if view.dentry 11 &&& attrDirectory ≠ 0 then sIfdir else sIfreg

/-- `find_child_if`. A view with the number `-1` is none. -/
def findChildIf (inode : Inode) (fuel : ℕ) (p : View → Bool) (d : Disk) : Exec (Option Inode) := do
  let found ← iterateChildren v inode fuel
    (fun view found => if p view then (true, some view) else (false, found)) none d
  return (found.filter fun view => view.index ≠ noCluster).map inodeOf

/-- What a lookup returns: the root inode, which is there all the time, or a new inode. -/
inductive Child where
  | root : Child
  | made (inode : Inode) : Child

/-- `get_child`. The names are `.` and `..`. -/
def getChild (inode : Inode) (fuel : ℕ) (name : Name) (d : Disk) : Exec (Option Child) :=
  if isRootVnode v inode ∧ (name = [46] ∨ name = [46, 46]) then return some .root
  else do return (← findChildIf v inode fuel (fun view => view.name = name) d).map .made

/-- `get_ith_child`. -/
def getIthChild (inode : Inode) (fuel i : ℕ) (d : Disk) : Exec (Option Child) :=
  if isRootVnode v inode ∧ i < 2 then return some .root
  else
    let i := if isRootVnode v inode then i - 2 else i
    do return (← findChildIf v inode fuel (fun view => view.index = i) d).map .made

/-- `get_children_count`. -/
def getChildrenCount (inode : Inode) (fuel : ℕ) (d : Disk) : Exec ℕ :=
  iterateChildren v inode fuel (fun _ ret => (false, ret + 1))
    (if isRootVnode v inode then 2 else 0) d

/-- What `iterate_children` hands to its callback, one view after the other. -/
def listChildren (inode : Inode) (fuel : ℕ) (d : Disk) : Exec (List View) :=
  iterateChildren v inode fuel (fun view l => (false, l ++ [view])) [] d

end

/-! ### The entries of a directory -/

section

variable {σ : Type} {v : Volume} {d : Disk} {n fuel : ℕ} {cs : List ℕ} {inode : Inode}

/-- **The clusters from a number on**, up to the mark at the end of the chain. They are on the
disk. -/
structure Clusters (v : Volume) (d : Disk) (n : ℕ) (cs : List ℕ) : Prop where
  chain : Chain (fun n => link (fatRead v n d)) (link n) cs
  onDisk : ∀ n ∈ cs, v.HasCluster n

/-- An entry of a directory, with its place: a cluster and an offset. -/
structure Item where
  cluster : ℕ
  offset : ℕ
  entry : Entry

/-- The entries of a cluster. -/
def itemsOf (v : Volume) (d : Disk) (n : ℕ) : List Item :=
  slots.map fun o => ⟨n, o, entryAt (d (v.place n)) o⟩

/-- **The entries of a directory.** -/
def items (v : Volume) (d : Disk) (cs : List ℕ) : List Item := cs.flatMap (itemsOf v d)

/-- **The loops through the entries of a directory**, and what they leave in the buffer. -/
theorem eachEntry_eq (hv : v.Valid) (hcs : Clusters v d n cs) (hfuel : cs.length < fuel)
    (body : ℕ → ℕ → Entry → σ → Exec (Bool × σ)) (buf : Block) (x : σ) :
    Prod.snd <$> eachEntry v d body fuel n buf x =
      Prod.snd <$> untilStop (fun i => body i.cluster i.offset i.entry) (items v d cs) x := by
  have hforget : (fun r : Bool × Block × σ => (r.1, r.2.2)) <$>
      untilStop (fun n (t : Block × σ) => do
        let cluster := clusterRead v n t.1 d
        let (stop, x) ← untilStop (fun o => body n o (entryAt cluster o)) slots t.2
        return (stop, cluster, x)) cs (buf, x) =
      untilStop (fun n => untilStop (fun i => body i.cluster i.offset i.entry) (itemsOf v d n)) cs
        x := by
    refine untilStop_forget (I := fun _ => True) Prod.snd cs
      (fun n hn t _ => ⟨?_, fun _ _ => trivial⟩) trivial
    dsimp only
    rw [clusterRead_eq hv (hcs.onDisk n hn).2, itemsOf, untilStop_map, map_bind]
    exact bind_pure _
  rw [eachEntry, followLinks_eq hcs.chain hfuel, items, untilStop_flatMap, ← hforget]
  simp only [Functor.map_map]

theorem exists_eachEntry (hv : v.Valid) (hcs : Clusters v d n cs) (hfuel : cs.length < fuel)
    {body : ℕ → ℕ → Entry → σ → Exec (Bool × σ)} (buf : Block) {x y : σ} {stop : Bool}
    (h : untilStop (fun i => body i.cluster i.offset i.entry) (items v d cs) x = .ok (stop, y)) :
    ∃ buf', eachEntry v d body fuel n buf x = .ok (buf', y) := by
  have heq := eachEntry_eq hv hcs hfuel body buf x
  rw [h] at heq
  rcases he : eachEntry v d body fuel n buf x with e | ⟨buf', y'⟩
  · rw [he] at heq
    cases heq
  · rw [he] at heq
    exact ⟨buf', congrArg (fun y => Except.ok (buf', y)) (Except.ok.inj heq)⟩

/-! ### The children of a directory -/

/-- **The views of the children**, for the entries of a directory, the characters of a name so far,
and the number of the next child. -/
def viewsFrom (v : Volume) : List Item → Name → ℕ → Exec (List View)
  | [], _, _ => return []
  | i :: l, name, index =>
    if i.entry.IsDeleted then viewsFrom v l name index
    else if i.entry.IsTheEnd then return []
    else if i.entry.IsLfn then do viewsFrom v l ((← i.entry.getFilename) ++ name) index
    else do
      return viewOf v name index i.cluster i.offset i.entry :: (← viewsFrom v l [] (u32 (index + 1)))

/-- A callback is called with one view after the other, until it says that it has enough. -/
def visit (f : View → σ → Bool × σ) : List View → σ → σ
  | [], x => x
  | view :: views, x => if (f view x).1 then (f view x).2 else visit f views (f view x).2

/-- **Every callback sees the views**, if the names can be read. -/
theorem untilStop_scanEntry (f : View → σ → Bool × σ) (l : List Item) :
    ∀ {name : Name} {index : ℕ} {views : List View} (x : σ), viewsFrom v l name index = .ok views →
      ∃ stop name' index', untilStop (fun i => scanEntry v f i.cluster i.offset i.entry) l
        (name, index, x) = .ok (stop, name', index', visit f views x) := by
  induction l with
  | nil =>
    intro name index views x h
    cases pure_eq_ok.mp h
    exact ⟨false, name, index, rfl⟩
  | cons i l ih =>
    intro name index views x h
    rw [viewsFrom] at h
    rw [untilStop, scanEntry]
    by_cases hdel : i.entry.IsDeleted
    · rw [if_pos hdel] at h ⊢
      exact ih x h
    rw [if_neg hdel] at h ⊢
    by_cases hend : i.entry.IsTheEnd
    · rw [if_pos hend] at h ⊢
      cases pure_eq_ok.mp h
      exact ⟨true, name, index, rfl⟩
    rw [if_neg hend] at h ⊢
    by_cases hlfn : i.entry.IsLfn
    · rw [if_pos hlfn] at h ⊢
      obtain ⟨part, hpart, h⟩ := bind_eq_ok.mp h
      rw [hpart]
      exact ih x h
    rw [if_neg hlfn] at h ⊢
    obtain ⟨rest, hrest, h⟩ := bind_eq_ok.mp h
    cases pure_eq_ok.mp h
    rw [visit]
    rcases hf : f (viewOf v name index i.cluster i.offset i.entry) x with ⟨stop, x'⟩
    cases stop with
    | true => exact ⟨true, name, index, rfl⟩
    | false => exact ih x' hrest

/-- A callback that never has enough gets to every name, also to one that cannot be read. -/
theorem untilStop_scanEntry_error (f : View → σ → σ) (l : List Item) :
    ∀ {name : Name} {index : ℕ} {e : Stop} (x : σ), viewsFrom v l name index = .error e →
      untilStop (fun i => scanEntry v (fun view x => (false, f view x)) i.cluster i.offset i.entry) l
        (name, index, x) = .error e := by
  induction l with
  | nil =>
    intro name index e x h
    cases h
  | cons i l ih =>
    intro name index e x h
    rw [viewsFrom] at h
    rw [untilStop, scanEntry]
    by_cases hdel : i.entry.IsDeleted
    · rw [if_pos hdel] at h ⊢
      exact ih x h
    rw [if_neg hdel] at h ⊢
    by_cases hend : i.entry.IsTheEnd
    · rw [if_pos hend] at h
      cases h
    rw [if_neg hend] at h ⊢
    by_cases hlfn : i.entry.IsLfn
    · rw [if_pos hlfn] at h ⊢
      rcases bind_eq_error.mp h with hpart | ⟨part, hpart, h⟩
      · rw [hpart]
        rfl
      · rw [hpart]
        exact ih x h
    rw [if_neg hlfn] at h ⊢
    rcases bind_eq_error.mp h with hrest | ⟨rest, -, h⟩
    · exact ih _ hrest
    · cases h

/-- The entries in front of the end marker. -/
def beforeEnd (l : List Item) : List Item := l.takeWhile fun i => ¬i.entry.IsTheEnd

/-- **The names can be read**: what a long-name entry holds takes 26 bytes at most. -/
def Readable (l : List Item) : Prop := ∀ i ∈ beforeEnd l, ¬i.entry.IsDeleted → i.entry.IsLfn →
  (ucs2utf i.entry.units).length ≤ 26

theorem Entry.IsDeleted.not_isTheEnd {e : Entry} (h : e.IsDeleted) : ¬e.IsTheEnd := fun hend => by
  have hEq : (0xe5 : UInt8) = 0 := h.symm.trans hend
  exact absurd hEq (by decide)

theorem readable_cons_of_end {i : Item} {l : List Item} (h : i.entry.IsTheEnd) :
    Readable (i :: l) := by
  intro j hj
  rw [beforeEnd, List.takeWhile_cons_of_neg (by simpa using h)] at hj
  cases hj

theorem readable_cons {i : Item} {l : List Item} (h : ¬i.entry.IsTheEnd) :
    Readable (i :: l) ↔ (¬i.entry.IsDeleted → i.entry.IsLfn →
      (ucs2utf i.entry.units).length ≤ 26) ∧ Readable l := by
  rw [Readable, beforeEnd, List.takeWhile_cons_of_pos (by simpa using h), List.forall_mem_cons]
  rfl

theorem getFilename_eq (e : Entry) : e.getFilename =
    if (ucs2utf e.units).length ≤ 26 then .ok (ucs2utf e.units) else .error .wild :=
  if_congr Nat.succ_le_succ_iff rfl rfl

/-- There are views exactly if the names can be read. -/
theorem exists_viewsFrom_iff (l : List Item) : ∀ (name : Name) (index : ℕ),
    (∃ views, viewsFrom v l name index = .ok views) ↔ Readable l := by
  induction l with
  | nil => exact fun _ _ => iff_of_true ⟨[], rfl⟩ fun i hi => by cases hi
  | cons i l ih =>
    intro name index
    rw [viewsFrom]
    by_cases hdel : i.entry.IsDeleted
    · rw [if_pos hdel, readable_cons hdel.not_isTheEnd, ih]
      exact (and_iff_right fun hnot => absurd hdel hnot).symm
    rw [if_neg hdel]
    by_cases hend : i.entry.IsTheEnd
    · rw [if_pos hend]
      exact iff_of_true ⟨[], rfl⟩ (readable_cons_of_end hend)
    rw [if_neg hend, readable_cons hend]
    by_cases hlfn : i.entry.IsLfn
    · rw [if_pos hlfn, getFilename_eq]
      by_cases hlen : (ucs2utf i.entry.units).length ≤ 26
      · rw [if_pos hlen, Exec.ok_bind, ih]
        exact (and_iff_right fun _ _ => hlen).symm
      · rw [if_neg hlen]
        exact iff_of_false (fun ⟨views, h⟩ => by cases h) fun h => hlen (h.1 hdel hlfn)
    · rw [if_neg hlfn, ← ih [] (u32 (index + 1)), and_iff_right fun _ h => absurd h hlfn]
      constructor
      · rintro ⟨views, h⟩
        obtain ⟨rest, hrest, -⟩ := bind_eq_ok.mp h
        exact ⟨rest, hrest⟩
      · rintro ⟨rest, hrest⟩
        exact ⟨_, by rw [hrest]; rfl⟩

/-- The directory is a chain of clusters on the disk. -/
structure IsDirectory (v : Volume) (d : Disk) (inode : Inode) (cs : List ℕ) : Prop where
  valid : v.Valid
  directory : inode.isDirectory = true
  clusters : Clusters v d (dirFirstClusterNumber v inode) cs

/-- **The views of the children of a directory.** -/
def views (v : Volume) (d : Disk) (cs : List ℕ) : Exec (List View) :=
  viewsFrom v (items v d cs) [] 0

/-- **Every callback sees the views** of a directory. -/
theorem iterateChildren_eq (h : IsDirectory v d inode cs) (hfuel : cs.length < fuel)
    {l : List View} (hl : views v d cs = .ok l) (f : View → σ → Bool × σ) (x : σ) :
    iterateChildren v inode fuel f x d = .ok (visit f l x) := by
  obtain ⟨stop, name, index, heq⟩ := untilStop_scanEntry f (items v d cs) x hl
  obtain ⟨buf, hrun⟩ := exists_eachEntry h.valid h.clusters hfuel (fun _ => 0) heq
  rw [iterateChildren, if_pos h.directory, hrun]
  rfl

theorem iterateChildren_error (h : IsDirectory v d inode cs) (hfuel : cs.length < fuel) {e : Stop}
    (he : views v d cs = .error e) (f : View → σ → σ) (x : σ) :
    iterateChildren v inode fuel (fun view x => (false, f view x)) x d = .error e := by
  have heq := eachEntry_eq h.valid h.clusters hfuel (scanEntry v fun view x => (false, f view x))
    (fun _ => 0) ([], 0, x)
  rw [untilStop_scanEntry_error f (items v d cs) x he] at heq
  rw [iterateChildren, if_pos h.directory]
  generalize eachEntry v d _ fuel _ _ _ = r at heq ⊢
  cases r with
  | error e' => exact congrArg Except.error (Except.error.inj heq)
  | ok r => cases heq

theorem visit_find (p : View → Bool) (l : List View) :
    visit (fun view found => if p view then (true, some view) else (false, found)) l none =
      l.find? p := by
  induction l with
  | nil => rfl
  | cons view l ih =>
    rw [visit, List.find?_cons]
    cases p view with
    | true => rfl
    | false => exact ih

theorem visit_list (l : List View) (x : List View) :
    visit (fun view l => (false, l ++ [view])) l x = x ++ l := by
  induction l generalizing x with
  | nil => exact (List.append_nil x).symm
  | cons view l ih => exact (ih (x ++ [view])).trans (List.append_assoc x [view] l)

/-- **What is listed** are the views. -/
theorem listChildren_eq (h : IsDirectory v d inode cs) (hfuel : cs.length < fuel) :
    listChildren v inode fuel d = views v d cs := by
  rcases hl : views v d cs with e | l
  · exact iterateChildren_error h hfuel hl (fun view l => l ++ [view]) _
  · rw [listChildren, iterateChildren_eq h hfuel hl, visit_list, List.nil_append]

/-! ### The numbers of the children -/

theorem length_items (v : Volume) (d : Disk) (cs : List ℕ) :
    (items v d cs).length = 16 * cs.length := by
  rw [items, List.length_flatMap]
  induction cs with
  | nil => rfl
  | cons n cs ih =>
    rw [List.map_cons, List.sum_cons, ih, List.length_cons]
    change 16 + _ = _
    omega

theorem length_viewsFrom (l : List Item) : ∀ {name : Name} {index : ℕ} {views : List View},
    viewsFrom v l name index = .ok views → views.length ≤ l.length := by
  induction l with
  | nil =>
    intro name index views h
    cases pure_eq_ok.mp h
    exact le_rfl
  | cons i l ih =>
    intro name index views h
    rw [viewsFrom] at h
    rw [List.length_cons]
    split_ifs at h
    · exact (ih h).trans (Nat.le_succ _)
    · cases pure_eq_ok.mp h
      exact Nat.zero_le _
    · obtain ⟨part, -, h⟩ := bind_eq_ok.mp h
      exact (ih h).trans (Nat.le_succ _)
    · obtain ⟨rest, hrest, h⟩ := bind_eq_ok.mp h
      cases pure_eq_ok.mp h
      exact Nat.succ_le_succ (ih hrest)

/-- The children are numbered one after the other. -/
theorem index_viewsFrom (l : List Item) : ∀ {name : Name} {index : ℕ} {views : List View},
    viewsFrom v l name index = .ok views → index + views.length ≤ 2 ^ 32 →
      views.map View.index = List.range' index views.length := by
  induction l with
  | nil =>
    intro name index views h hlt
    cases pure_eq_ok.mp h
    rfl
  | cons i l ih =>
    intro name index views h hlt
    rw [viewsFrom] at h
    split_ifs at h
    · exact ih h hlt
    · cases pure_eq_ok.mp h
      rfl
    · obtain ⟨part, -, h⟩ := bind_eq_ok.mp h
      exact ih h hlt
    · obtain ⟨rest, hrest, h⟩ := bind_eq_ok.mp h
      cases pure_eq_ok.mp h
      rw [List.length_cons] at hlt
      cases rest with
      | nil => rfl
      | cons view rest =>
        rw [List.length_cons] at hlt
        have hu32 : u32 (index + 1) = index + 1 := Nat.mod_eq_of_lt (by omega)
        rw [hu32] at hrest
        have hrange := ih hrest (by rw [List.length_cons]; omega)
        rw [List.map_cons, hrange, List.length_cons (a := viewOf ..), List.range'_succ]
        rfl

/-- A chain of clusters has fewer entries than there are numbers. -/
theorem Clusters.length_lt (hv : v.Valid) (hcs : Clusters v d n cs) :
    16 * cs.length + 1 < 2 ^ 32 := by
  have hsub : cs ⊆ List.range (v.clusters + 2) := fun m hm =>
    List.mem_range.mpr (hcs.onDisk m hm).2
  have hle := (hcs.chain.nodup.subperm hsub).length_le
  have hbelow := hv.below_eoc
  rw [List.length_range] at hle
  rw [eocMin] at hbelow
  omega

theorem length_views_lt (h : IsDirectory v d inode cs) {l : List View} (hl : views v d cs = .ok l) :
    l.length + 1 < 2 ^ 32 := by
  have hle := length_viewsFrom _ hl
  have hlt := h.clusters.length_lt h.valid
  rw [length_items] at hle
  omega

theorem index_of_views (h : IsDirectory v d inode cs) {l : List View} (hl : views v d cs = .ok l) :
    l.map View.index = List.range l.length := by
  have hlt := length_views_lt h hl
  rw [List.range_eq_range']
  exact index_viewsFrom _ hl (by omega)

theorem index_lt_of_mem (h : IsDirectory v d inode cs) {l : List View} (hl : views v d cs = .ok l)
    {view : View} (hview : view ∈ l) : view.index < l.length := by
  have hmem : view.index ∈ l.map View.index := List.mem_map_of_mem hview
  rw [index_of_views h hl] at hmem
  exact List.mem_range.mp hmem

/-- **`find_child_if`** finds the first view with the property. -/
theorem findChildIf_eq (h : IsDirectory v d inode cs) (hfuel : cs.length < fuel) {l : List View}
    (hl : views v d cs = .ok l) (p : View → Bool) :
    findChildIf v inode fuel p d = .ok ((l.find? p).map inodeOf) := by
  have hfilter : ((l.find? p).filter fun view => view.index ≠ noCluster) = l.find? p := by
    rcases hfind : l.find? p with _ | view
    · rfl
    · have hlt := index_lt_of_mem h hl (List.mem_of_find?_eq_some hfind)
      have hlen := length_views_lt h hl
      refine if_pos (decide_eq_true ?_)
      rw [noCluster]
      omega
  rw [findChildIf, iterateChildren_eq h hfuel hl, visit_find, Exec.ok_bind, hfilter]
  rfl

end

/-! ### The root directory of the small volume -/

theorem isDirectory_smallVolume {d : Disk} (h : link (fatRead smallVolume 2 d) = none) :
    IsDirectory smallVolume d (rootInode smallVolume) [2] where
  valid := valid_smallVolume
  directory := rfl
  clusters := ⟨⟨rfl, h⟩, fun n hn => List.mem_singleton.mp hn ▸ ⟨le_rfl, by decide⟩⟩

end Fat32

namespace Vfs

/-- The inode that a FAT32 vnode is. -/
def inodeOfVnode (vnode : Vnode) : Fat32.Inode :=
  match vnode.impl with
  | .fat32 _ name first parent offset => ⟨name, first, parent, offset, vnode.size, vnode.mode⟩
  | _ => ⟨vnode.name, 0, 0, 0, vnode.size, vnode.mode⟩

end Vfs

end Valkyrie
