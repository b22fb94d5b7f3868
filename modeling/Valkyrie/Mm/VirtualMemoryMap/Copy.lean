import Valkyrie.Mm.VirtualMemoryMap.Count

/-!
# Copying the page tables of a map

`dfs_copy_page_tables` builds a second tree of page tables beside a first one. At the last
level both trees end in the same frames: the descriptors of both are overwritten with the
one that a shared frame gets, and the count of the frame goes up by one.

The loop over the entries of a table handles one entry after the other, so what was done is
stated for a list of entries (`Valkyrie.VMMap.Copied`): the paths that start with an entry
of the list are copied, the others are as before.
-/

namespace Valkyrie.VMMap

open Exec MemoryManager Finset

variable {m m' : Mem} {s s' s₁ s₂ : State} {d pt ptOld ptNew q a p f fuel : ℕ} {i j : Fin 512}
  {e : Descriptor} {pages fresh fresh' : List ℕ} {chunks : List (ℕ × ℕ)} {l l₁ l₂ : List (Fin 512)}

/-! ### Shared descriptors -/

theorem frame_share (h : IsFrame (frame e)) : frame (share e) = frame e :=
  frame_descriptor h (by decide)

theorem isValid_share (h : IsFrame (frame e)) : isValid (share e) = true := by
  rw [share, isValid_descriptor h]
  decide

/-! ### What a copy is -/

/-- How many of the paths that start with an entry of the list lead to a frame. -/
def heldBelow (f d pt : ℕ) (l : List (Fin 512)) (m : Mem) : ℕ :=
  ∑ path : Path d, if path.head ∈ l then points f (look d pt m path) else 0

/-- **What can be copied**: two trees that have nothing in common, the second one with no
tables where the copy goes. -/
structure Ready (d ptOld ptNew : ℕ) (l : List (Fin 512)) (pages : List ℕ) (m : Mem) : Prop where
  distinct : ∀ q, occupies q d ptOld m + occupies q d ptNew m ≤ 1
  mem : ∀ q, 0 < occupies q d ptOld m + occupies q d ptNew m → q ∈ pages
  empty : ∀ i ∈ l, isValid (entry m ptNew i) = false
  frames : ∀ path e, look d ptOld m path = some e → IsFrame (frame e)

/-- **What was copied.** -/
structure Copied (d ptOld ptNew : ℕ) (l : List (Fin 512)) (fresh pages : List ℕ)
    (chunks : List (ℕ × ℕ)) (s s' : State) : Prop where
  owned : Pages s' (fresh ++ pages) chunks
  lookOld : ∀ path, look d ptOld s'.mem path =
    if path.head ∈ l then (look d ptOld s.mem path).map share else look d ptOld s.mem path
  lookNew : ∀ path, look d ptNew s'.mem path =
    if path.head ∈ l then (look d ptOld s.mem path).map share else look d ptNew s.mem path
  occupiesOld : ∀ q, occupies q d ptOld s'.mem = occupies q d ptOld s.mem
  occupiesNew : ∀ q, occupies q d ptNew s'.mem = occupies q d ptNew s.mem + fresh.count q
  entries : ∀ j, j ∉ l → entry s'.mem ptNew j = entry s.mem ptNew j
  refs : ∀ f, IsFrame f → refCount f s' = refCount f s + heldBelow f d ptOld l s.mem
  agree : ∀ q, pageSize ∣ q → occupies q d ptOld s.mem = 0 → q ≠ ptNew → q ∉ fresh →
    Agree s.mem s'.mem q

theorem Ready.aligned (h : Ready d ptOld ptNew l pages s.mem) (hpages : Pages s pages chunks) :
    Aligned d ptOld s.mem ∧ Aligned d ptNew s.mem :=
  ⟨fun q hq => hpages.dvd (h.mem q (Nat.add_pos_left hq _)),
    fun q hq => hpages.dvd (h.mem q (Nat.add_pos_right _ hq))⟩

theorem Ready.distinctOld (h : Ready d ptOld ptNew l pages m) : Distinct d ptOld m := fun q =>
  (Nat.le_add_right _ _).trans (h.distinct q)

theorem Ready.distinctNew (h : Ready d ptOld ptNew l pages m) : Distinct d ptNew m := fun q =>
  (Nat.le_add_left _ _).trans (h.distinct q)

/-- A table of one tree is no table of the other. -/
theorem Ready.old_eq_zero (h : Ready d ptOld ptNew l pages m) (hq : 0 < occupies q d ptNew m) :
    occupies q d ptOld m = 0 := by
  have := h.distinct q
  omega

theorem Ready.new_eq_zero (h : Ready d ptOld ptNew l pages m) (hq : 0 < occupies q d ptOld m) :
    occupies q d ptNew m = 0 := by
  have := h.distinct q
  omega

theorem Ready.subset (h : Ready d ptOld ptNew l pages m) (hsub : l₁ ⊆ l) :
    Ready d ptOld ptNew l₁ pages m := ⟨h.distinct, h.mem, fun i hi => h.empty i (hsub hi), h.frames⟩

theorem Copied.refl (hpages : Pages s pages chunks) :
    Copied d ptOld ptNew [] [] pages chunks s s where
  owned := hpages
  lookOld _ := rfl
  lookNew _ := rfl
  occupiesOld _ := rfl
  occupiesNew _ := rfl
  entries _ _ := rfl
  refs f _ := by simp [heldBelow]
  agree _ _ _ _ _ := Agree.rfl

theorem heldBelow_append (hdis : List.Disjoint l₁ l₂) :
    heldBelow f d pt (l₁ ++ l₂) m = heldBelow f d pt l₁ m + heldBelow f d pt l₂ m := by
  rw [heldBelow, heldBelow, heldBelow, ← sum_add_distrib]
  refine sum_congr rfl fun path _ => ?_
  by_cases h₁ : path.head ∈ l₁
  · rw [if_pos (List.mem_append_left _ h₁), if_pos h₁, if_neg (hdis h₁), Nat.add_zero]
  · rw [if_neg h₁, Nat.zero_add]
    exact if_congr (by rw [List.mem_append]; tauto) rfl rfl

/-- **One list of entries after another.** -/
theorem Copied.trans (hdis : List.Disjoint l₁ l₂)
    (h₁ : Copied d ptOld ptNew l₁ fresh pages chunks s s₁)
    (h₂ : Copied d ptOld ptNew l₂ fresh' (fresh ++ pages) chunks s₁ s₂) :
    Copied d ptOld ptNew (l₁ ++ l₂) (fresh' ++ fresh) pages chunks s s₂ where
  owned := (List.append_assoc fresh' fresh pages).symm ▸ h₂.owned
  lookOld path := by
    rw [h₂.lookOld, h₁.lookOld]
    by_cases hl₁ : path.head ∈ l₁
    · rw [if_neg (hdis hl₁), if_pos hl₁, if_pos (List.mem_append_left _ hl₁)]
    · simp only [List.mem_append, hl₁, false_or, if_false]
  lookNew path := by
    rw [h₂.lookNew, h₁.lookNew, h₁.lookOld]
    by_cases hl₁ : path.head ∈ l₁
    · rw [if_neg (hdis hl₁), if_pos hl₁, if_pos (List.mem_append_left _ hl₁)]
    · simp only [List.mem_append, hl₁, false_or, if_false]
  occupiesOld q := (h₂.occupiesOld q).trans (h₁.occupiesOld q)
  occupiesNew q := by
    rw [h₂.occupiesNew, h₁.occupiesNew, List.count_append]
    omega
  entries j hj := by
    obtain ⟨hj₁, hj₂⟩ := not_or.mp (mt List.mem_append.mpr hj)
    exact (h₂.entries j hj₂).trans (h₁.entries j hj₁)
  refs f hf := by
    have hsame : heldBelow f d ptOld l₂ s₁.mem = heldBelow f d ptOld l₂ s.mem := by
      refine sum_congr rfl fun path _ => ?_
      by_cases hl₂ : path.head ∈ l₂
      · rw [h₁.lookOld, if_neg fun hl₁ => hdis hl₁ hl₂]
      · rw [if_neg hl₂, if_neg hl₂]
    rw [h₂.refs f hf, h₁.refs f hf, hsame, heldBelow_append hdis]
    push_cast
    ring
  agree q hq hocc hne hin := by
    obtain ⟨hin', hin⟩ := not_or.mp (mt List.mem_append.mpr hin)
    refine (h₁.agree q hq hocc hne hin).trans (h₂.agree q hq ?_ hne hin')
    rw [h₁.occupiesOld, hocc]

/-- What is still to be copied can be. -/
theorem Copied.ready (h : Copied d ptOld ptNew l₁ fresh pages chunks s s₁) (hdis : List.Disjoint l₁ l₂)
    (hready : Ready d ptOld ptNew (l₁ ++ l₂) pages s.mem) :
    Ready d ptOld ptNew l₂ (fresh ++ pages) s₁.mem where
  distinct q := by
    rw [h.occupiesOld, h.occupiesNew]
    have hle := hready.distinct q
    by_cases hin : q ∈ fresh
    · have hnot : ¬0 < occupies q d ptOld s.mem + occupies q d ptNew s.mem := fun hpos =>
        List.disjoint_of_nodup_append h.owned.nodup hin (hready.mem q hpos)
      have hone := List.nodup_iff_count_le_one.mp (List.Nodup.of_append_left h.owned.nodup) q
      omega
    · rw [List.count_eq_zero_of_not_mem hin]
      exact hle
  mem q hq := by
    rw [h.occupiesOld, h.occupiesNew] at hq
    by_cases hin : q ∈ fresh
    · exact List.mem_append_left _ hin
    · rw [List.count_eq_zero_of_not_mem hin] at hq
      exact List.mem_append_right _ (hready.mem q hq)
  empty i hi := by
    rw [h.entries i fun hi₁ => hdis hi₁ hi]
    exact hready.empty i (List.mem_append_right _ hi)
  frames path e he := by
    rw [h.lookOld] at he
    split_ifs at he
    · obtain ⟨e', he', rfl⟩ := Option.map_eq_some_iff.mp he
      have hframe := hready.frames path e' he'
      rwa [frame_share hframe]
    · exact hready.frames path e he

/-! ### One entry -/

theorem look_of_head_invalid {path : Path d} (h : isValid (entry m pt path.head) = false) :
    look d pt m path = none := by
  cases d with
  | zero =>
    rw [Path.head_zero] at h
    exact if_neg (by rw [h]; exact Bool.false_ne_true)
  | succ d => exact branchLook_of_invalid h path.2

/-- An entry that leads nowhere. -/
theorem copied_of_invalid (hpages : Pages s pages chunks)
    (hready : Ready d ptOld ptNew [i] pages s.mem) (hv : isValid (entry s.mem ptOld i) = false) :
    Copied d ptOld ptNew [i] [] pages chunks s s := by
  have hnone : ∀ path : Path d, path.head ∈ [i] → look d ptOld s.mem path = none := by
    intro path hpath
    refine look_of_head_invalid ?_
    rw [List.mem_singleton.mp hpath, hv]
  refine ⟨hpages, fun path => ?_, fun path => ?_, fun q => rfl, fun q => rfl, fun j _ => rfl,
    fun f _ => ?_, fun q _ _ _ _ => Agree.rfl⟩
  · split_ifs with hpath
    · rw [hnone path hpath, Option.map_none]
    · rfl
  · split_ifs with hpath
    · rw [hnone path hpath, Option.map_none]
      refine look_of_head_invalid ?_
      rw [List.mem_singleton.mp hpath]
      exact hready.empty i (List.mem_singleton_self i)
    · rfl
  · have hzero : heldBelow f d ptOld [i] s.mem = 0 := by
      refine sum_eq_zero fun path _ => ?_
      split_ifs with hpath
      · rw [hnone path hpath, points_none]
      · rfl
    rw [hzero, Nat.cast_zero, add_zero]

/-- **A descriptor of a frame** is shared. -/
theorem copied_of_leaf (hpages : Pages s pages chunks)
    (hready : Ready 0 ptOld ptNew [i] pages s.mem) (hv : isValid (entry s.mem ptOld i) = true) :
    Copied 0 ptOld ptNew [i] [] pages chunks s
      (((s.setDescriptor (slot ptNew i) (share (entry s.mem ptOld i))).setDescriptor (slot ptOld i)
        (share (entry s.mem ptOld i))).addRef (frame (entry s.mem ptOld i)) 1) := by
  set e := entry s.mem ptOld i with he
  obtain ⟨halOld, halNew⟩ := hready.aligned hpages
  have hlook : look 0 ptOld s.mem i = some e := if_pos hv
  have hframe := hready.frames i e hlook
  have hne : ptOld ≠ ptNew := fun hEq => by
    have hone := hready.distinct ptNew
    rw [hEq, occupies, if_pos rfl] at hone
    omega
  -- The descriptor goes to the new table first, then to the old one.
  set m₁ := s.mem.writeWord (slot ptNew i) (share e)
  set m₂ := m₁.writeWord (slot ptOld i) (share e)
  have hagree₁ : ∀ q, pageSize ∣ q → q ≠ ptNew → Agree s.mem m₁ q := fun q hq hqn =>
    agree_writeWord halNew.self hq hqn (slot_lt ptNew i) _
  have hagree₂ : ∀ q, pageSize ∣ q → q ≠ ptOld → Agree m₁ m₂ q := fun q hq hqn =>
    agree_writeWord halOld.self hq hqn (slot_lt ptOld i) _
  have hself : entry m₂ ptOld i = share e ∧ entry m₂ ptNew i = share e := by
    refine ⟨entry_writeWord_self, ?_⟩
    rw [entry_congr (hagree₂ ptNew halNew.self hne.symm)]
    exact entry_writeWord_self
  have hother : ∀ j, j ≠ i → entry m₂ ptOld j = entry s.mem ptOld j ∧
      entry m₂ ptNew j = entry s.mem ptNew j := by
    intro j hj
    constructor
    · rw [entry_writeWord_of_ne hj.symm, entry_congr (hagree₁ ptOld halOld.self hne)]
    · rw [entry_congr (hagree₂ ptNew halNew.self hne.symm), entry_writeWord_of_ne hj.symm]
  have hshare : ∀ {pt}, entry m₂ pt i = share e → look 0 pt m₂ i = some (share e) := fun h => by
    rw [look, h, if_pos (isValid_share hframe)]
  refine ⟨((hpages.setDescriptor _ _).setDescriptor _ _).addRef _ _, fun j => ?_, fun j => ?_,
    fun q => rfl, fun q => rfl, fun j hj => ?_, fun f hf => ?_, fun q hq hocc hqn _ => ?_⟩
  · change look 0 ptOld m₂ j = _
    rcases eq_or_ne j i with rfl | hj
    · rw [hshare hself.1, Path.head_zero, if_pos (List.mem_singleton_self _), hlook, Option.map_some]
    · rw [Path.head_zero, if_neg (mt List.mem_singleton.mp hj), look, look, (hother j hj).1]
  · change look 0 ptNew m₂ j = _
    rcases eq_or_ne j i with rfl | hj
    · rw [hshare hself.2, Path.head_zero, if_pos (List.mem_singleton_self _), hlook, Option.map_some]
    · rw [Path.head_zero, if_neg (mt List.mem_singleton.mp hj), look, look, (hother j hj).2]
  · exact (hother j (mt List.mem_singleton.mpr hj)).2
  · -- There is one more descriptor of the frame, and one more reference.
    have hheld : heldBelow f 0 ptOld [i] s.mem = points f (some e) := by
      rw [heldBelow, sum_eq_single (a := (i : Path 0))]
      · rw [Path.head_zero, if_pos (List.mem_singleton_self _), hlook]
      · exact fun j _ hj => if_neg (mt List.mem_singleton.mp hj)
      · exact fun hnot => absurd (mem_univ _) hnot
    rw [refCount_addRef hf hframe, hheld, points_some, refCount_setDescriptor, refCount_setDescriptor]
    rcases eq_or_ne f (frame e) with hfe | hfe
    · rw [if_pos hfe, if_pos hfe.symm, Nat.cast_one]
    · rw [if_neg hfe, if_neg hfe.symm, Nat.cast_zero]
  · have hqo : q ≠ ptOld := fun hEq => by
      rw [hEq, occupies, if_pos rfl] at hocc
      exact Nat.one_ne_zero hocc
    exact (hagree₁ q hq hqn).trans (hagree₂ q hq hqo)

theorem heldBelow_singleton (f : ℕ) (hv : isValid (entry m pt i) = true) :
    heldBelow f (d + 1) pt [i] m = holders f (look d (frame (entry m pt i)) m) := by
  have hprod : heldBelow f (d + 1) pt [i] m = ∑ j, ∑ path : Path d,
      if j ∈ [i] then points f (look (d + 1) pt m (j, path)) else 0 := Fintype.sum_prod_type _
  rw [hprod, sum_eq_single i]
  · refine sum_congr rfl fun path _ => ?_
    rw [if_pos (List.mem_singleton_self i), look_succ, branchLook, if_pos hv]
  · intro j _ hj
    exact sum_eq_zero fun _ _ => if_neg (mt List.mem_singleton.mp hj)
  · exact fun hnot => absurd (mem_univ _) hnot

theorem heldBelow_finRange (f : ℕ) :
    heldBelow f d pt (List.finRange 512) m = holders f (look d pt m) :=
  sum_congr rfl fun _ _ => if_pos (List.mem_finRange _)

section Table

variable (hpages : Pages s pages chunks) (hready : Ready (d + 1) ptOld ptNew [i] pages s.mem)
  (hp : IsFrame p) (hnew : p ∉ pages)
  (hmem₁ : s₁.mem = (s.mem.fill p pageSize 0).writeWord (slot ptNew i) (descriptor p pdTable))
include hpages hready hp hnew hmem₁

/-- A new table for the second tree leaves the first tree alone. -/
theorem old_agree : ∀ q, 0 < occupies q (d + 1) ptOld s.mem → Agree s.mem s₁.mem q := by
  intro q hq
  obtain ⟨halOld, halNew⟩ := hready.aligned hpages
  have hmemOld := hready.mem q (Nat.add_pos_left hq _)
  have hptNew := hready.mem ptNew (Nat.add_pos_right _ (occupies_self_pos _ ptNew _))
  have hne : ptNew ≠ p := fun hEq => hnew (hEq ▸ hptNew)
  obtain ⟨hagree, -⟩ := table_written hp.bounds.2.2 halNew.self hne hmem₁
  refine hagree q (halOld q hq) (fun hEq => hnew (hEq ▸ hmemOld)) ?_
  rintro rfl
  exact (occupies_self_pos (d + 1) q s.mem).ne' (hready.new_eq_zero hq)

variable (hv : isValid (entry s.mem ptOld i) = true)
include hv

theorem child_congr : entry s₁.mem ptOld i = entry s.mem ptOld i ∧
    look d (frame (entry s.mem ptOld i)) s₁.mem = look d (frame (entry s.mem ptOld i)) s.mem ∧
    ∀ q, occupies q d (frame (entry s.mem ptOld i)) s₁.mem =
      occupies q d (frame (entry s.mem ptOld i)) s.mem := by
  have hagree := old_agree hpages hready hp hnew hmem₁
  refine ⟨entry_congr (hagree ptOld (occupies_self_pos _ ptOld _)) i, look_congr d fun q hq => ?_⟩
  exact hagree q (lt_of_lt_of_le (branchOccupies_of_valid hv ▸ hq) (branchOccupies_le i))

/-- The new table is ready for what is below the old one. -/
theorem Ready.child : Ready d (frame (entry s.mem ptOld i)) p (List.finRange 512) (p :: pages)
    s₁.mem := by
  obtain ⟨-, hlook, hocc⟩ := child_congr hpages hready hp hnew hmem₁ hv
  obtain ⟨-, halNew⟩ := hready.aligned hpages
  have hptNew := hready.mem ptNew (Nat.add_pos_right _ (occupies_self_pos _ ptNew _))
  have hne : ptNew ≠ p := fun hEq => hnew (hEq ▸ hptNew)
  obtain ⟨-, -, -, hempty⟩ := table_written hp.bounds.2.2 halNew.self hne hmem₁
  have hbelow : ∀ q, 0 < occupies q d (frame (entry s.mem ptOld i)) s.mem → q ∈ pages := by
    intro q hq
    refine hready.mem q (Nat.add_pos_left (lt_of_lt_of_le ?_ (branchOccupies_le i)) _)
    rwa [branchOccupies_of_valid hv]
  refine ⟨fun q => ?_, fun q hq => ?_, fun j _ => hempty j, fun path e he => ?_⟩
  · have hone := hready.distinctOld.branch hv q
    have hzero : p = q → ¬0 < occupies q d (frame (entry s.mem ptOld i)) s.mem := fun hEq hpos =>
      hnew (hEq ▸ hbelow q hpos)
    rw [hocc, occupies_of_empty hempty]
    split_ifs with hEq
    · have := hzero hEq
      omega
    · exact hone
  · rw [hocc, occupies_of_empty hempty] at hq
    split_ifs at hq with hEq
    · exact hEq ▸ List.mem_cons_self
    · exact List.mem_cons_of_mem _ (hbelow q hq)
  · refine hready.frames (i, path) e ?_
    rw [look_succ, branchLook, if_pos hv, ← hlook, he]

/-- **What is below a table** is copied with it. -/
theorem Copied.lift (hrefs : s₁.mm.refCounts = s.mm.refCounts)
    (h : Copied d (frame (entry s.mem ptOld i)) p (List.finRange 512) fresh (p :: pages) chunks s₁ s₂) :
    Copied (d + 1) ptOld ptNew [i] (fresh ++ [p]) pages chunks s s₂ := by
  obtain ⟨halOld, halNew⟩ := hready.aligned hpages
  obtain ⟨-, hlook₁, hocc₁⟩ := child_congr hpages hready hp hnew hmem₁ hv
  have hold := old_agree hpages hready hp hnew hmem₁
  have hptNew := hready.mem ptNew (Nat.add_pos_right _ (occupies_self_pos _ ptNew _))
  have hne : ptNew ≠ p := fun hEq => hnew (hEq ▸ hptNew)
  obtain ⟨hagree₁, hentry₁, hentry_i, hempty⟩ := table_written hp.bounds.2.2 halNew.self hne hmem₁
  have hfresh : ∀ q ∈ pages, q ∉ fresh := fun q hq hin =>
    List.disjoint_of_nodup_append h.owned.nodup hin (List.mem_cons_of_mem _ hq)
  have hbranch : ∀ q, branchOccupies q d (entry s.mem ptOld i) s.mem =
      occupies q d (frame (entry s.mem ptOld i)) s₁.mem := fun q => by
    rw [branchOccupies_of_valid hv, hocc₁]
  -- What neither serves as a table below the entry nor is new is left alone by the copy.
  have hagree₂ : ∀ q ∈ pages, branchOccupies q d (entry s.mem ptOld i) s.mem = 0 →
      Agree s₁.mem s₂.mem q := by
    intro q hq hzero
    refine h.agree q (hpages.dvd hq) (by rw [← hbranch, hzero]) ?_ (hfresh q hq)
    rintro rfl
    exact hnew hq
  have hpagesOld : ∀ q, 0 < occupies q (d + 1) ptOld s.mem → q ∈ pages := fun q hq =>
    hready.mem q (Nat.add_pos_left hq _)
  have hzeroNew : ∀ q, 0 < occupies q (d + 1) ptNew s.mem →
      branchOccupies q d (entry s.mem ptOld i) s.mem = 0 := fun q hq =>
    Nat.le_zero.mp ((branchOccupies_le i).trans (hready.old_eq_zero hq).le)
  -- The first tree: only what is below the entry has changed.
  have hself := occupies_self_pos (d + 1) ptOld s.mem
  have hentryOld : ∀ j, entry s₂.mem ptOld j = entry s.mem ptOld j := fun j =>
    entry_congr ((hold ptOld hself).trans
      (hagree₂ ptOld (hpagesOld ptOld hself) (hready.distinctOld.branchOccupies_self i))) j
  obtain ⟨hlookOld, hsumOld⟩ := branch_change (i := i) (fun j _ => hentryOld j) fun j hj q hq =>
    have hq' := lt_of_lt_of_le hq (branchOccupies_le j)
    (hold q hq').trans
      (hagree₂ q (hpagesOld q hq') (hready.distinctOld.branchOccupies_of_ne hj hq))
  -- The second tree: the entry leads to the new table.
  have hselfNew := occupies_self_pos (d + 1) ptNew s.mem
  have hentryNew : ∀ j, entry s₂.mem ptNew j = entry s₁.mem ptNew j :=
    entry_congr (hagree₂ ptNew hptNew (hzeroNew ptNew hselfNew))
  obtain ⟨hlookNew, hsumNew⟩ := branch_change (d := d) (i := i)
    (fun j hj => (hentryNew j).trans (hentry₁ j hj)) fun j _ q hq => by
      have hq' := lt_of_lt_of_le hq (branchOccupies_le j)
      have hmem := hready.mem q (Nat.add_pos_right _ hq')
      refine (hagree₁ q (halNew q hq') (fun hEq => hnew (hEq ▸ hmem)) ?_).trans
        (hagree₂ q hmem (hzeroNew q hq'))
      rintro rfl
      exact hq.ne' (hready.distinctNew.branchOccupies_self j)
  have hshared : ∀ path : Path d, (look d (frame (entry s.mem ptOld i)) s₁.mem path).map share =
      (look (d + 1) ptOld s.mem (i, path)).map share := fun path => by
    rw [look_succ, branchLook, if_pos hv, hlook₁]
  refine ⟨?_, ?_, ?_, fun q => ?_, fun q => ?_, fun j hj => ?_, fun f hf => ?_,
    fun q hq hocc hqn hin => ?_⟩
  · rw [List.append_assoc]
    exact h.owned
  · rintro ⟨j, path⟩
    rw [Path.head_succ]
    rcases eq_or_ne j i with rfl | hj
    · rw [if_pos (List.mem_singleton_self _), look_succ, hentryOld, branchLook, if_pos hv, h.lookOld,
        if_pos (List.mem_finRange _), hshared]
    · rw [if_neg (mt List.mem_singleton.mp hj), hlookOld j hj]
  · rintro ⟨j, path⟩
    rw [Path.head_succ]
    rcases eq_or_ne j i with rfl | hj
    · rw [if_pos (List.mem_singleton_self _), look_succ, hentryNew, hentry_i, branchLook,
        if_pos (isValid_table hp), frame_table hp, h.lookNew, if_pos (List.mem_finRange _), hshared]
    · rw [if_neg (mt List.mem_singleton.mp hj), hlookNew j hj]
  · have hsum := hsumOld q
    rw [hentryOld, branchOccupies_of_valid hv, branchOccupies_of_valid hv, h.occupiesOld, hocc₁] at hsum
    exact Nat.add_right_cancel hsum
  · have hsum := hsumNew q
    rw [branchOccupies_of_invalid (hready.empty i (List.mem_singleton_self i)), hentryNew, hentry_i,
      branchOccupies_of_valid (isValid_table hp), frame_table hp, h.occupiesNew,
      occupies_of_empty hempty] at hsum
    rw [List.count_append, List.count_singleton]
    simp only [beq_iff_eq]
    omega
  · exact (hentryNew j).trans (hentry₁ j (mt List.mem_singleton.mpr hj))
  · rw [h.refs f hf, refCount_eq_of_refCounts hrefs, heldBelow_finRange, heldBelow_singleton f hv,
      hlook₁]
  · obtain ⟨hin, hqp⟩ := not_or.mp (mt List.mem_append.mpr hin)
    have hqp' : q ≠ p := mt List.mem_singleton.mpr hqp
    refine (hagree₁ q hq hqp' hqn).trans (h.agree q hq ?_ hqp' hin)
    rw [← hbranch]
    exact Nat.le_zero.mp ((branchOccupies_le i).trans hocc.le)

end Table

/-! ### All entries -/

/-- **The loop over the entries of a table.** -/
theorem ensures_copyEntries {body : State → Fin 512 → Exec State}
    (hbody : ∀ i s pages, Pages s pages chunks → Ready d ptOld ptNew [i] pages s.mem →
      Ensures (body s i) fun s' => ∃ fresh, Copied d ptOld ptNew [i] fresh pages chunks s s')
    (hpages : Pages s pages chunks) (hready : Ready d ptOld ptNew (List.finRange 512) pages s.mem) :
    Ensures ((List.finRange 512).foldlM body s) fun s' =>
      ∃ fresh, Copied d ptOld ptNew (List.finRange 512) fresh pages chunks s s' := by
  let I : List (Fin 512) → State → Prop := fun l a => ∃ done fresh, done ++ l = List.finRange 512 ∧
    Copied d ptOld ptNew done fresh pages chunks s a
  have hstep : ∀ i l a, I (i :: l) a → Ensures (body a i) (I l) := by
    rintro i l a ⟨done, fresh, hdone, hcopied⟩
    have hnodup := hdone ▸ List.nodup_finRange 512
    have hdis : List.Disjoint done [i] := by
      have hdis := List.disjoint_of_nodup_append hnodup
      exact fun j hj hji => hdis hj (List.mem_singleton.mp hji ▸ List.mem_cons_self)
    have hready' := hcopied.ready hdis (hready.subset fun _ _ => List.mem_finRange _)
    refine (hbody i a (fresh ++ pages) hcopied.owned hready').mono ?_
    rintro a' ⟨fresh', hcopied'⟩
    exact ⟨done ++ [i], fresh' ++ fresh, by rw [List.append_assoc]; exact hdone,
      hcopied.trans hdis hcopied'⟩
  refine (ensures_foldlM hstep _ s ⟨[], [], List.nil_append _, Copied.refl hpages⟩).mono ?_
  rintro s' ⟨done, fresh, hdone, hcopied⟩
  rw [List.append_nil] at hdone
  exact ⟨fresh, hdone ▸ hcopied⟩

/-- **`dfs_copy_page_tables`** copies all that is below a page table. -/
theorem ensures_dfsCopyPageTables (fuel d : ℕ) :
    ∀ {ptOld ptNew : ℕ} {s : State} {pages : List ℕ}, Pages s pages chunks →
      Ready d ptOld ptNew (List.finRange 512) pages s.mem →
        Ensures (dfsCopyPageTables fuel d ptOld ptNew s) fun s' =>
          ∃ fresh, Copied d ptOld ptNew (List.finRange 512) fresh pages chunks s s' := by
  induction d with
  | zero =>
    intro ptOld ptNew s pages hpages hready
    refine ensures_copyEntries (fun i s pages hpages hready => ?_) hpages hready
    rw [copyEntry]
    dsimp only
    split_ifs with hv
    · have hframe := hready.frames i _ (if_pos hv)
      rw [incPageRefCount_eq hframe]
      exact ensures_ok ⟨[], copied_of_leaf hpages hready hv⟩
    · exact ensures_pure ⟨[], copied_of_invalid hpages hready (Bool.eq_false_iff.mpr hv)⟩
  | succ d ih =>
    intro ptOld ptNew s pages hpages hready
    refine ensures_copyEntries (fun i s pages hpages hready => ?_) hpages hready
    rw [copyEntry]
    dsimp only
    split_ifs with hv
    · refine hpages.newTable.bind ?_
      rintro ⟨p, s₁⟩ htable
      dsimp only at htable ⊢
      obtain ⟨hp, hnew, hpages₁, hrefs, hmem₁⟩ := htable
      refine (ih hpages₁ (hready.child hpages hp hnew hmem₁ hv)).mono ?_
      rintro s₂ ⟨fresh, hcopied⟩
      exact ⟨fresh ++ [p], hcopied.lift hpages hready hp hnew hmem₁ hv hrefs⟩
    · exact ensures_pure ⟨[], copied_of_invalid hpages hready (Bool.eq_false_iff.mpr hv)⟩

end Valkyrie.VMMap
