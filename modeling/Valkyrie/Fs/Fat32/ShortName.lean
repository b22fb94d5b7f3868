import Mathlib.Data.List.TakeWhile
import Valkyrie.Fs.Fat32.Directory

/-!
# Names of eight and three characters

A directory entry without long-name entries has a name of eleven bytes: eight of the base and three
of the extension, both filled up with blanks. `iterate_children` takes all eleven as a string and
cuts it at the first blank. So the period is never there, and behind a base of fewer than eight
characters the extension is lost; two files that differ in it have one name, and `get_child` only
reaches the first (`Valkyrie.Fat32.keepsShortNames_iff`).
-/

namespace Valkyrie.Fat32

open Exec

/-! ### The children and their entries -/

/-- The entry is that of a child. -/
def Entry.IsChild (e : Entry) : Prop := ¬e.IsDeleted ∧ ¬e.IsTheEnd ∧ ¬e.IsLfn

instance (e : Entry) : Decidable e.IsChild := inferInstanceAs (Decidable (_ ∧ _))

/-- The entries that were not deleted. -/
def notDeleted (l : List Item) : List Item := l.filter fun i => ¬i.entry.IsDeleted

/-- The number of children. -/
def childCount (l : List Item) : ℕ := l.countP fun i => i.entry.IsChild

/-- **The entry of the `k`-th child**, in front of which there are no long-name entries. -/
structure Bare (l : List Item) (k : ℕ) (i : Item) : Prop where
  split : ∃ pre post, l = pre ++ i :: post ∧ (∀ j ∈ pre, ¬j.entry.IsTheEnd) ∧
    childCount pre = k ∧ ∀ j ∈ (notDeleted pre).getLast?, ¬j.entry.IsLfn
  isChild : i.entry.IsChild

section

variable {v : Volume} {l pre post : List Item} {i : Item} {k : ℕ} {views : List View}

theorem notDeleted_cons_of_deleted (h : i.entry.IsDeleted) :
    notDeleted (i :: l) = notDeleted l :=
  List.filter_cons_of_neg (by simpa using h)

theorem notDeleted_cons (h : ¬i.entry.IsDeleted) : notDeleted (i :: l) = i :: notDeleted l :=
  List.filter_cons_of_pos (by simpa using h)

theorem childCount_cons (h : i.entry.IsChild) : childCount (i :: l) = childCount l + 1 :=
  List.countP_cons_of_pos (decide_eq_true h)

theorem childCount_cons_of_not (h : ¬i.entry.IsChild) : childCount (i :: l) = childCount l :=
  List.countP_cons_of_neg (by simpa using h)

/-- The view of an entry is where it should be. Its name is empty so far if the last entry in front
of it was not a long-name entry. -/
theorem getElem?_viewsFrom (hi : i.entry.IsChild) :
    ∀ {name : Name} {index : ℕ} {views : List View}, (∀ j ∈ pre, ¬j.entry.IsTheEnd) →
      (∀ j ∈ (notDeleted pre).getLast?, ¬j.entry.IsLfn) → (notDeleted pre = [] → name = []) →
      viewsFrom v (pre ++ i :: post) name index = .ok views →
      ∃ index', views[childCount pre]? =
        some (viewOf v [] index' i.cluster i.offset i.entry) := by
  induction pre with
  | nil =>
    intro name index views _ _ hname h
    obtain rfl := hname rfl
    rw [List.nil_append, viewsFrom, if_neg hi.1, if_neg hi.2.1, if_neg hi.2.2] at h
    obtain ⟨rest, -, h⟩ := bind_eq_ok.mp h
    cases pure_eq_ok.mp h
    exact ⟨index, rfl⟩
  | cons j pre ih =>
    intro name index views hend hlast hname h
    have hend' : ∀ j ∈ pre, ¬j.entry.IsTheEnd := fun j' hj' => hend j' (List.mem_cons_of_mem j hj')
    rw [List.cons_append, viewsFrom] at h
    by_cases hdel : j.entry.IsDeleted
    · rw [notDeleted_cons_of_deleted hdel] at hlast hname
      rw [if_pos hdel] at h
      rw [childCount_cons_of_not fun hc => hc.1 hdel]
      exact ih hend' hlast hname h
    rw [notDeleted_cons hdel] at hlast
    rw [if_neg hdel, if_neg (hend j List.mem_cons_self)] at h
    have hlast' : ∀ j ∈ (notDeleted pre).getLast?, ¬j.entry.IsLfn := by
      intro j' hj'
      refine hlast j' ?_
      rw [List.getLast?_cons, Option.mem_def.mp hj']
      rfl
    by_cases hlfn : j.entry.IsLfn
    · rw [if_pos hlfn] at h
      obtain ⟨part, -, h⟩ := bind_eq_ok.mp h
      rw [childCount_cons_of_not fun hc => hc.2.2 hlfn]
      refine ih hend' hlast' (fun hnil => ?_) h
      rw [hnil] at hlast
      exact absurd hlfn (hlast j rfl)
    · rw [if_neg hlfn] at h
      obtain ⟨rest, hrest, h⟩ := bind_eq_ok.mp h
      cases pure_eq_ok.mp h
      rw [childCount_cons ⟨hdel, hend j List.mem_cons_self, hlfn⟩, List.getElem?_cons_succ]
      exact ih hend' hlast' (fun _ => rfl) hrest

/-- **A child without long-name entries is reported under its short name.** -/
theorem Bare.name_eq (h : Bare l k i) {index : ℕ} (hviews : viewsFrom v l [] index = .ok views) :
    (views[k]?).map View.name = some i.entry.shortName := by
  obtain ⟨pre, post, rfl, hend, rfl, hlast⟩ := h.split
  obtain ⟨index', hget⟩ := getElem?_viewsFrom h.isChild hend hlast (fun _ => rfl) hviews
  rw [hget]
  rfl

end

/-! ### Names of two parts -/

/-- The eleven bytes of a name. -/
def Entry.nameBytes (e : Entry) : List UInt8 := (List.range 11).map e.mem

/-- **The name has a base and an extension**, which are filled up with blanks. The base has no blank
in it. -/
structure Is83 (e : Entry) (base ext : List UInt8) : Prop where
  eq : e.nameBytes = base ++ List.replicate (8 - base.length) 32 ++
    (ext ++ List.replicate (3 - ext.length) 32)
  base_le : base.length ≤ 8
  ext_le : ext.length ≤ 3
  noBlank : 32 ∉ base
  last : ext.getLast? ≠ some 32

/-- The name that should be reported. -/
def fullName (base ext : List UInt8) : Name := if ext = [] then base else base ++ 46 :: ext

section

variable {v : Volume} {d : Disk} {cs : List ℕ} {inode : Inode} {fuel : ℕ} {e e' : Entry}
  {base ext base' ext' : List UInt8}

theorem length_takeWhile_append_le {α : Type} {p : α → Bool} {a b : List α}
    (h : ∀ x ∈ b.head?, p x = false) : ((a ++ b).takeWhile p).length ≤ a.length := by
  have hb : b.takeWhile p = [] := by
    cases b with
    | nil => rfl
    | cons x b => exact List.takeWhile_cons_of_neg (by rw [h x rfl]; exact Bool.false_ne_true)
  rw [List.takeWhile_append]
  split_ifs with hall
  · rw [hb, List.append_nil]
  · exact (List.takeWhile_prefix p).length_le

theorem Entry.shortName_eq (e : Entry) :
    e.shortName = e.nameBytes.takeWhile fun c => c ≠ 0 ∧ c ≠ 32 := rfl

theorem Entry.zero_notMem_shortName (e : Entry) : 0 ∉ e.shortName := by
  intro h
  have hp := List.mem_takeWhile_imp h
  simp at hp

/-- The period is missing, and may be the extension. -/
theorem Is83.length_shortName_le (h : Is83 e base ext) :
    e.shortName.length ≤ base.length + ext.length := by
  rw [e.shortName_eq, h.eq]
  rcases h.base_le.lt_or_eq with hlt | heq
  · obtain ⟨n, hn⟩ : ∃ n, 8 - base.length = n + 1 := ⟨7 - base.length, by omega⟩
    rw [hn, List.replicate_succ, List.append_assoc]
    refine (length_takeWhile_append_le fun x hx => ?_).trans (Nat.le_add_right _ _)
    cases hx
    rfl
  · rw [heq, Nat.sub_self, List.replicate_zero, List.append_nil, ← List.append_assoc,
      ← heq, ← List.length_append]
    refine length_takeWhile_append_le fun x hx => ?_
    rw [List.eq_of_mem_replicate (List.mem_of_mem_head? hx)]
    rfl

/-- **When a short name is what it should be**: there is no extension, and no null character. -/
theorem Is83.shortName_eq_iff (h : Is83 e base ext) :
    e.shortName = fullName base ext ↔ ext = [] ∧ 0 ∉ base := by
  constructor
  · intro hname
    have hle := h.length_shortName_le
    by_cases hext : ext = []
    · rw [fullName, if_pos hext] at hname
      exact ⟨hext, hname ▸ e.zero_notMem_shortName⟩
    · rw [hname, fullName, if_neg hext, List.length_append, List.length_cons] at hle
      omega
  · rintro ⟨rfl, hzero⟩
    have hall : ∀ c ∈ base, decide (c ≠ 0 ∧ c ≠ 32) = true := fun c hc =>
      decide_eq_true ⟨fun h0 => hzero (h0 ▸ hc), fun h32 => h.noBlank (h32 ▸ hc)⟩
    have hblank : (List.replicate (8 - base.length) (32 : UInt8) ++ List.replicate 3 32).takeWhile
        (fun c => decide (c ≠ 0 ∧ c ≠ 32)) = [] := by
      rw [List.replicate_append_replicate]
      exact List.takeWhile_cons_of_neg (by decide)
    rw [e.shortName_eq, h.eq, fullName, if_pos rfl, List.append_assoc,
      List.takeWhile_append_of_pos hall, List.nil_append]
    exact (congrArg (base ++ ·) hblank).trans (List.append_nil base)

theorem Is83.base_ne (h : Is83 e base []) (h' : Is83 e' base' [])
    (hne : e.nameBytes ≠ e'.nameBytes) : base ≠ base' := by
  rintro rfl
  exact hne (h.eq.trans h'.eq.symm)

/-- **Children without long-name entries keep their names**: they are reported with base and
extension, under different names if their names are different, and `get_child` reaches each of them
unless a child in front of it is reported under its name. -/
structure KeepsShortNames (v : Volume) (inode : Inode) (fuel : ℕ) (d : Disk) (its : List Item)
    (l : List View) : Prop where
  name : ∀ k i base ext, Bare its k i → Is83 i.entry base ext →
    (l[k]?).map View.name = some (fullName base ext)
  distinct : ∀ k i base ext k' i' base' ext', Bare its k i → Is83 i.entry base ext →
    Bare its k' i' → Is83 i'.entry base' ext' → i.entry.nameBytes ≠ i'.entry.nameBytes →
    (l[k]?).map View.name ≠ (l[k']?).map View.name
  reached : ∀ k i base ext, Bare its k i → Is83 i.entry base ext →
    (∀ k' < k, (l[k']?).map View.name ≠ some (fullName base ext)) →
    ¬(isRootVnode v inode ∧ (fullName base ext = [46] ∨ fullName base ext = [46, 46])) →
    getChild v inode fuel (fullName base ext) d =
      .ok ((l[k]?).map fun view => .made (inodeOf view))

/-- What is listed keeps the short names if no child without long-name entries has an extension, or
a null character in its base. -/
theorem keepsShortNames_iff_of_views (h : IsDirectory v d inode cs) (hfuel : cs.length < fuel)
    {l : List View} (hl : views v d cs = .ok l) :
    KeepsShortNames v inode fuel d (items v d cs) l ↔
      ∀ k i base ext, Bare (items v d cs) k i → Is83 i.entry base ext → ext = [] ∧ 0 ∉ base := by
  constructor
  · intro hkeeps k i base ext hbare h83
    have hname := hkeeps.name k i base ext hbare h83
    rw [hbare.name_eq hl] at hname
    exact h83.shortName_eq_iff.mp (Option.some.inj hname)
  · intro hall
    have hname : ∀ {k i base ext}, Bare (items v d cs) k i → Is83 i.entry base ext →
        (l[k]?).map View.name = some base := by
      intro k i base ext hbare h83
      obtain ⟨rfl, hzero⟩ := hall k i base ext hbare h83
      rw [hbare.name_eq hl, h83.shortName_eq_iff.mpr ⟨rfl, hzero⟩]
      rfl
    refine ⟨fun k i base ext hbare h83 => ?_, ?_, fun k i base ext hbare h83 hfront hroot => ?_⟩
    · obtain ⟨rfl, -⟩ := hall k i base ext hbare h83
      exact hname hbare h83
    · intro k i base ext k' i' base' ext' hbare h83 hbare' h83' hbytes
      obtain ⟨rfl, -⟩ := hall k i base ext hbare h83
      obtain ⟨rfl, -⟩ := hall k' i' base' ext' hbare' h83'
      rw [hname hbare h83, hname hbare' h83']
      exact fun heq => h83.base_ne h83' hbytes (Option.some.inj heq)
    · obtain ⟨rfl, -⟩ := hall k i base ext hbare h83
      obtain ⟨view, hview, hviewName⟩ := Option.map_eq_some_iff.mp (hname hbare h83)
      have hfind : l.find? (fun view => view.name = base) = some view := by
        obtain ⟨hk, hget⟩ := List.getElem?_eq_some_iff.mp hview
        rw [List.find?_eq_some_iff_getElem]
        refine ⟨decide_eq_true hviewName, k, hk, hget, fun j hj => ?_⟩
        have hother := hfront j hj
        rw [List.getElem?_eq_getElem (hj.trans hk)] at hother
        simpa [fullName] using hother
      rw [getChild, if_neg hroot, findChildIf_eq h hfuel hl, Exec.ok_bind, Option.map_map, hview]
      change pure (((l.find? fun view => view.name = base)).map _) = _
      rw [hfind]
      rfl

/-- **When short names are kept**: the names of the directory can be read, and no child without
long-name entries has an extension, or a null character in its base. -/
theorem keepsShortNames_iff (h : IsDirectory v d inode cs) (hfuel : cs.length < fuel) :
    (∃ l, listChildren v inode fuel d = .ok l ∧
      KeepsShortNames v inode fuel d (items v d cs) l) ↔
      Readable (items v d cs) ∧
        ∀ k i base ext, Bare (items v d cs) k i → Is83 i.entry base ext → ext = [] ∧ 0 ∉ base := by
  rw [listChildren_eq h hfuel, ← exists_viewsFrom_iff (v := v) (items v d cs) [] 0]
  constructor
  · rintro ⟨l, hl, hkeeps⟩
    exact ⟨⟨l, hl⟩, (keepsShortNames_iff_of_views h hfuel hl).mp hkeeps⟩
  · rintro ⟨⟨l, hl⟩, hall⟩
    exact ⟨l, hl, (keepsShortNames_iff_of_views h hfuel hl).mpr hall⟩

end

/-- A disk with this root directory. -/
def rootDisk (entries : List Entry) : Disk :=
  smallDisk (fun i => if i < 3 then eocMax else 0) fun n x =>
    if n = 2 then (entries.getD (x / 32) fun _ => 0).mem (x % 32) else 0

/-- A directory entry of a regular file with this name. -/
def namedEntry (name : List UInt8) : Entry := Entry.setName (fun _ => 0) name

/-- "README.TXT" and "README.MD". -/
def twoReadmes : Disk := rootDisk
  [namedEntry [82, 69, 65, 68, 77, 69, 32, 32, 84, 88, 84],
    namedEntry [82, 69, 65, 68, 77, 69, 32, 32, 77, 68, 32]]

theorem isDirectory_rootDisk (entries : List Entry) :
    IsDirectory smallVolume (rootDisk entries) (rootInode smallVolume) [2] := by
  have htable : fatRead smallVolume 2 (rootDisk entries) = fatRead smallVolume 2 (rootDisk []) :=
    rfl
  refine isDirectory_smallVolume ?_
  rw [htable]
  decide +kernel

/-- A file "KERNEL" without an extension. -/
def oneKernel : Disk := rootDisk [namedEntry [75, 69, 82, 78, 69, 76, 32, 32, 32, 32, 32]]

/-- The extension of a name that ends with blanks. -/
theorem Is83.ext_eq_nil {e : Entry} {base ext : List UInt8} (h : Is83 e base ext)
    (hblank : e.nameBytes.drop 8 = [32, 32, 32]) : ext = [] := by
  have hdrop : e.nameBytes.drop 8 = ext ++ List.replicate (3 - ext.length) 32 := by
    have hlen : (base ++ List.replicate (8 - base.length) (32 : UInt8)).length = 8 := by
      have hle := h.base_le
      rw [List.length_append, List.length_replicate]
      omega
    rw [h.eq, List.drop_append_of_le_length hlen.ge, List.drop_eq_nil_of_le hlen.le,
      List.nil_append]
  rw [hblank] at hdrop
  by_contra hne
  refine h.last ?_
  rw [List.getLast?_eq_some_getLast hne]
  have hmem : ext.getLast hne ∈ [(32 : UInt8), 32, 32] := by
    rw [hdrop]
    exact List.mem_append_left _ (List.getLast_mem hne)
  simpa using hmem

theorem keepsShortNames_oneKernel :
    ∃ l, listChildren smallVolume (rootInode smallVolume) 2 oneKernel = .ok l ∧
      KeepsShortNames smallVolume (rootInode smallVolume) 2 oneKernel
        (items smallVolume oneKernel [2]) l := by
  obtain ⟨post, hitems⟩ : ∃ post, items smallVolume oneKernel [2] =
      ⟨2, 0, entryAt (oneKernel (smallVolume.place 2)) 0⟩ ::
        ⟨2, 32, entryAt (oneKernel (smallVolume.place 2)) 32⟩ :: post := ⟨_, rfl⟩
  have hend : (entryAt (oneKernel (smallVolume.place 2)) 32).IsTheEnd := by decide +kernel
  have hdir : IsDirectory smallVolume oneKernel (rootInode smallVolume) [2] :=
    isDirectory_rootDisk _
  refine (keepsShortNames_iff hdir (by decide)).mpr
    ⟨?_, fun k i base ext hbare h83 => ?_⟩
  · rw [hitems, readable_cons (by decide +kernel)]
    exact ⟨fun _ h => absurd h (by decide +kernel), readable_cons_of_end hend⟩
  · have hi : i = ⟨2, 0, entryAt (oneKernel (smallVolume.place 2)) 0⟩ := by
      obtain ⟨pre, post', heq, hpre, -⟩ := hbare.split
      rw [hitems] at heq
      rcases pre with _ | ⟨j, _ | ⟨j', pre⟩⟩
      · exact (List.cons.inj heq).1.symm
      · have hsecond := (List.cons.inj (List.cons.inj heq).2).1
        exact absurd (hsecond ▸ hend) hbare.isChild.2.1
      · have hsecond := (List.cons.inj (List.cons.inj heq).2).1
        exact absurd (hsecond ▸ hend) (hpre j' (List.mem_cons_of_mem j List.mem_cons_self))
    subst hi
    refine ⟨h83.ext_eq_nil (by decide +kernel), fun hzero => ?_⟩
    have hmem : (0 : UInt8) ∈ (entryAt (oneKernel (smallVolume.place 2)) 0).nameBytes := by
      rw [h83.eq]
      exact List.mem_append_left _ (List.mem_append_left _ hzero)
    exact absurd hmem (by decide +kernel)

/-- The two files have one name, and neither is found under its own. -/
theorem not_keepsShortNames_twoReadmes :
    (fun l : List View => l.map View.name) <$>
        listChildren smallVolume (rootInode smallVolume) 2 twoReadmes =
      .ok [[82, 69, 65, 68, 77, 69], [82, 69, 65, 68, 77, 69]] ∧
    Option.isSome <$> getChild smallVolume (rootInode smallVolume) 2
        [82, 69, 65, 68, 77, 69, 46, 84, 88, 84] twoReadmes = .ok false ∧
    ¬∃ l, listChildren smallVolume (rootInode smallVolume) 2 twoReadmes = .ok l ∧
      KeepsShortNames smallVolume (rootInode smallVolume) 2 twoReadmes
        (items smallVolume twoReadmes [2]) l := by
  have hdir : IsDirectory smallVolume twoReadmes (rootInode smallVolume) [2] :=
    isDirectory_rootDisk _
  refine ⟨by decide +kernel, by decide +kernel, ?_⟩
  rintro ⟨l, hl, hkeeps⟩
  rw [listChildren_eq hdir (by decide)] at hl
  obtain ⟨post, hitems⟩ : ∃ post, items smallVolume twoReadmes [2] =
      ⟨2, 0, entryAt (twoReadmes (smallVolume.place 2)) 0⟩ :: post := ⟨_, rfl⟩
  have hbare : Bare (items smallVolume twoReadmes [2]) 0
      ⟨2, 0, entryAt (twoReadmes (smallVolume.place 2)) 0⟩ :=
    ⟨⟨[], post, hitems, fun _ hj => (by cases hj), rfl, fun _ hj => (by cases hj)⟩,
      by decide +kernel⟩
  have h83 : Is83 (entryAt (twoReadmes (smallVolume.place 2)) 0) [82, 69, 65, 68, 77, 69]
      [84, 88, 84] := ⟨by decide +kernel, by decide, by decide, by decide, by decide⟩
  have hall := (keepsShortNames_iff_of_views hdir (by decide) hl).mp hkeeps 0 _ _ _ hbare h83
  cases hall.1

end Valkyrie.Fat32
