import Valkyrie.Mm.VirtualMemoryMap.Walk

/-!
# Counting the descriptors of a page frame

The memory manager keeps a count for each page frame. What it is meant to count are the
descriptors of the last level that lead to the frame. For one map these are counted by
`Valkyrie.VMMap.holders`, a sum over all paths; this file says what `map` and
`copy_page_frame` do to the two counts.
-/

namespace Valkyrie.VMMap

open Exec MemoryManager Function Finset

variable {m m' : Mem} {s s' : State} {d pt pgd q a p f v fuel : ℕ} {i j : Fin 512}
  {e attr : Descriptor} {pages : List ℕ} {chunks : List (ℕ × ℕ)}

/-! ### The descriptors of one map -/

/-- Whether a descriptor leads to a frame, as a number. -/
def points (f : ℕ) (x : Option Descriptor) : ℕ := if x.map frame = some f then 1 else 0

/-- **How many of the paths lead to a frame.** -/
def holders (f : ℕ) (L : Path d → Option Descriptor) : ℕ := ∑ path, points f (L path)

@[simp] theorem points_none : points f none = 0 := rfl

@[simp] theorem points_some : points f (some e) = if frame e = f then 1 else 0 := by
  simp [points]

theorem holders_congr {L L' : Path d → Option Descriptor}
    (h : ∀ path, (L' path).map frame = (L path).map frame) : holders f L' = holders f L :=
  sum_congr rfl fun path _ => by rw [points, points, h path]

/-- One path leads somewhere else. -/
theorem holders_update (L : Path d → Option Descriptor) (path : Path d) (x : Option Descriptor) :
    holders f (update L path x) + points f (L path) = holders f L + points f x := by
  have hsum := add_sum_erase univ (fun path => points f (L path))
    (mem_univ path)
  have hsum' := add_sum_erase univ
    (fun path' => points f (update L path x path')) (mem_univ path)
  have hrest : ∑ path' ∈ univ.erase path, points f (update L path x path') =
      ∑ path' ∈ univ.erase path, points f (L path') :=
    sum_congr rfl fun path' hne => by
      rw [update_of_ne (mem_erase.mp hne).1]
  rw [update_self, hrest] at hsum'
  rw [holders, holders, ← hsum, ← hsum']
  omega

theorem points_le_holders (L : Path d → Option Descriptor) (path : Path d) :
    points f (L path) ≤ holders f L :=
  single_le_sum (f := fun path => points f (L path)) (fun _ _ => Nat.zero_le _)
    (mem_univ path)

/-- A frame that a path leads to is counted. -/
theorem holders_pos {L : Path d → Option Descriptor} {path : Path d} (h : L path = some e) :
    0 < holders (frame e) L := by
  have hle := points_le_holders (f := frame e) L path
  rw [h, points_some, if_pos rfl] at hle
  exact hle

/-- A frame that is counted is one that a path leads to. -/
theorem exists_of_holders_pos {L : Path d → Option Descriptor} (h : 0 < holders f L) :
    ∃ path e, L path = some e ∧ frame e = f := by
  obtain ⟨path, -, hpath⟩ := exists_ne_zero_of_sum_ne_zero h.ne'
  rw [points] at hpath
  split_ifs at hpath with hmap
  · obtain ⟨e, he, hframe⟩ := Option.map_eq_some_iff.mp hmap
    exact ⟨path, e, he, hframe⟩
  · exact absurd rfl hpath

theorem holders_eq_zero {L : Path d → Option Descriptor} (h : ∀ path, L path = none) :
    holders f L = 0 :=
  sum_eq_zero fun path _ => by rw [h path, points_none]

/-- The paths through one descriptor after the other. -/
theorem holders_look_succ : holders f (look (d + 1) pt m) =
    ∑ i, holders f (branchLook d (entry m pt i) m) :=
  Fintype.sum_prod_type _

/-! ### The counts of the memory manager -/

/-- `get_page_ref_count`, for a frame of the first zone. -/
def refCount (f : ℕ) (s : State) : ℤ := s.mm.refCounts ((f - zone0Begin) / pageSize)

/-- The count of a frame is changed. -/
def State.addRef (p : ℕ) (k : ℤ) (s : State) : State :=
  let refCounts := update s.mm.refCounts ((p - zone0Begin) / pageSize) (refCount p s + k)
  { s with mm := { s.mm with refCounts := refCounts } }

theorem Pages.addRef (h : Pages s pages chunks) (p : ℕ) (k : ℤ) : Pages (s.addRef p k) pages chunks :=
  ⟨⟨h.mm.zone0, h.mm.chunk, h.mm.noted⟩, h.live⟩

theorem Pages.setDescriptor (h : Pages s pages chunks) (a : ℕ) (e : Descriptor) :
    Pages (s.setDescriptor a e) pages chunks := ⟨h.mm, h.live⟩

/-- Different frames have different counters. -/
theorem refIdx_injective (hf : IsFrame f) (hp : IsFrame p)
    (h : (f - zone0Begin) / pageSize = (p - zone0Begin) / pageSize) : f = p := by
  obtain ⟨i, -, rfl⟩ := hf
  obtain ⟨j, -, rfl⟩ := hp
  have hpos : 0 < pageSize := by decide
  rw [Nat.add_sub_cancel_left, Nat.add_sub_cancel_left, Nat.mul_div_cancel _ hpos,
    Nat.mul_div_cancel _ hpos] at h
  rw [h]

theorem refCount_addRef (hf : IsFrame f) (hp : IsFrame p) (k : ℤ) :
    refCount f (s.addRef p k) = refCount f s + if f = p then k else 0 := by
  rw [refCount, State.addRef]
  dsimp only
  rcases eq_or_ne f p with rfl | hne
  · rw [update_self, if_pos rfl]
  · rw [update_of_ne fun hEq => hne (refIdx_injective hf hp hEq), if_neg hne, add_zero,
      refCount]

theorem refCount_setDescriptor : refCount f (s.setDescriptor a e) = refCount f s := rfl

theorem getPageRefIdx_eq (hp : IsFrame p) : getPageRefIdx p = .ok ((p - zone0Begin) / pageSize) := by
  obtain ⟨hlo, hhi, hdvd⟩ := hp.bounds
  have hpos : 0 < pageSize := by decide
  have hal : pageIsAligned p = true := pageIsAligned_iff.mpr hdvd
  rw [getPageRefIdx, if_neg (by omega), if_neg (by rw [hal]; exact fun h => h rfl)]

theorem incPageRefCount_eq (hp : IsFrame p) : incPageRefCount p s = .ok (s.addRef p 1) := by
  rw [VMMap.incPageRefCount, MemoryManager.incPageRefCount, getPageRefIdx_eq hp]
  rfl

theorem decPageRefCount_eq (hp : IsFrame p) :
    decPageRefCount p s = .ok (refCount p s - 1, s.addRef p (-1)) := by
  rw [VMMap.decPageRefCount, MemoryManager.decPageRefCount, getPageRefIdx_eq hp]
  rfl

theorem getPageRefCount_eq (hp : IsFrame p) : getPageRefCount p s.mm = .ok (refCount p s) := by
  rw [getPageRefCount, getPageRefIdx_eq hp]
  rfl

theorem refCount_eq_of_refCounts (h : s'.mm.refCounts = s.mm.refCounts) :
    refCount f s' = refCount f s := by rw [refCount, refCount, h]

/-! ### `map` -/

/-- **The page tables of a map**: pages that are live, each in one place only. -/
structure Tables (d pt : ℕ) (pages : List ℕ) (m : Mem) : Prop where
  distinct : Distinct d pt m
  mem : ∀ q, 0 < occupies q d pt m → q ∈ pages

theorem Tables.aligned (h : Tables d pt pages s.mem) (hpages : Pages s pages chunks) :
    Aligned d pt s.mem := fun q hq => hpages.dvd (h.mem q hq)

theorem makeCow_mask (h : attr &&& pdPageMask = 0) : makeCow attr &&& pdPageMask = 0 := by
  rw [makeCow]
  split_ifs
  · exact h
  · rw [BitVec.and_comm] at h ⊢
    rw [BitVec.and_or_distrib_left, h]
    decide

theorem isAttr_makeCow (h : IsAttr attr) : IsAttr (makeCow attr) := by
  refine ⟨?_, makeCow_mask h.mask⟩
  rw [makeCow]
  split_ifs
  · exact h.valid
  · have hvalid := h.valid
    rw [isValid, bne_iff_ne, BitVec.and_comm] at hvalid ⊢
    rw [BitVec.and_or_distrib_left]
    have hzero : (1 : Descriptor) &&& pdCowPage = 0 := by decide
    rw [hzero]
    exact fun hEq => hvalid (BitVec.or_zero.symm.trans hEq)

/-- **What `map` does** to a map, whatever the attributes: the last descriptor of the path is
written, and it counts if it is valid. -/
structure Placed (pgd v p : ℕ) (attr : Descriptor) (fresh pages : List ℕ) (chunks : List (ℕ × ℕ))
    (s s' : State) : Prop where
  pages : Pages s' (fresh ++ pages) chunks
  unmapped : look 3 pgd s.mem (pathOf v) = none
  look : look 3 pgd s'.mem =
    update (look 3 pgd s.mem) (pathOf v) (validOnly (descriptor p (makeCow attr)))
  read : ∃ a, slotAt 3 pgd s'.mem (pathOf v) = some a ∧
    s'.mem.readWord a = descriptor p (makeCow attr)
  occupies : ∀ q, occupies q 3 pgd s'.mem = occupies q 3 pgd s.mem + fresh.count q
  refs : ∀ f, IsFrame f → refCount f s' = refCount f s + if f = p then 1 else 0
  agree : ∀ q, pageSize ∣ q → VMMap.occupies q 3 pgd s.mem = 0 → q ∉ fresh → Agree s.mem s'.mem q

theorem ensures_map_placed (hpages : Pages s pages chunks) (htables : Tables 3 pgd pages s.mem)
    (hp : IsFrame p) : Ensures (map fuel pgd v p attr s) fun s' =>
      ∃ fresh, Placed pgd v p attr fresh pages chunks s s' := by
  refine (walkFrom_true 3 hpages htables.distinct htables.mem).bind ?_
  rintro ⟨pte, s₁⟩ ⟨a, fresh, hpte, hslot, hgrown⟩
  obtain rfl : pte = some a := hpte
  dsimp only at hslot hgrown ⊢
  split_ifs with hv
  · exact ensures_error _
  rw [incPageRefCount_eq hp]
  obtain ⟨hdist, hmem⟩ := hgrown.distinct htables.distinct htables.mem
  have hal : Aligned 3 pgd s₁.mem := fun q hq => hgrown.pages.dvd (hmem q hq)
  obtain ⟨hlook, hocc, hslot', t, ht, hta⟩ :=
    look_writeWord (descriptor p (makeCow attr)) 3 hdist hal hslot
  refine ensures_ok ⟨fresh, (hgrown.pages.setDescriptor a _).addRef p 1, ?_, ?_,
    ⟨a, hslot', Mem.readWord_writeWord_self _⟩, ?_, ?_, ?_⟩
  · rw [← hgrown.look, look_eq_slotAt, hslot, Option.bind_some, validOnly, if_neg hv]
  · rw [← hgrown.look]
    exact hlook
  · exact fun q => (hocc q).trans (hgrown.occupies q)
  · intro f hf
    rw [refCount_addRef hf hp]
    exact congrArg (· + _) (refCount_eq_of_refCounts hgrown.refs)
  · intro q hq hfree hfresh
    -- The descriptor that is written is in a table of the map, an old one or a new one.
    refine (hgrown.agree q hq hfree hfresh).trans (agree_writeWord (hal t ht) hq ?_ hta _)
    rintro rfl
    rw [hgrown.occupies, hfree, List.count_eq_zero_of_not_mem hfresh] at ht
    exact lt_irrefl _ ht

/-- **What `map` does** to a map, with attributes that a page can be mapped with. -/
structure Mapped (pgd v p : ℕ) (attr : Descriptor) (fresh pages : List ℕ) (chunks : List (ℕ × ℕ))
    (s s' : State) : Prop where
  pages : Pages s' (fresh ++ pages) chunks
  unmapped : look 3 pgd s.mem (pathOf v) = none
  look : look 3 pgd s'.mem =
    update (look 3 pgd s.mem) (pathOf v) (some (descriptor p (makeCow attr)))
  occupies : ∀ q, occupies q 3 pgd s'.mem = occupies q 3 pgd s.mem + fresh.count q
  refs : ∀ f, IsFrame f → refCount f s' = refCount f s + if f = p then 1 else 0
  agree : ∀ q, pageSize ∣ q → VMMap.occupies q 3 pgd s.mem = 0 → q ∉ fresh → Agree s.mem s'.mem q

theorem ensures_map (hpages : Pages s pages chunks) (htables : Tables 3 pgd pages s.mem)
    (hp : IsFrame p) (hattr : IsAttr attr) : Ensures (map fuel pgd v p attr s) fun s' =>
      ∃ fresh, Mapped pgd v p attr fresh pages chunks s s' := by
  refine (ensures_map_placed hpages htables hp).mono ?_
  rintro s' ⟨fresh, h⟩
  have hvalid : isValid (descriptor p (makeCow attr)) = true := by
    rw [isValid_descriptor hp, (isAttr_makeCow hattr).valid]
  refine ⟨fresh, h.pages, h.unmapped, ?_, h.occupies, h.refs, h.agree⟩
  rw [h.look, validOnly, if_pos hvalid]

/-! ### `copy_page_frame` -/

/-- The descriptor of a page that is made writable in place. -/
def unshare (e : Descriptor) : Descriptor := e &&& ~~~pdCowPage &&& ~~~pdRdonly

/-- The descriptor of a copy of a page. -/
def ownCopy (n : ℕ) (e : Descriptor) : Descriptor := descriptor n (e &&& pdAttrMask) &&& ~~~pdRdonly

theorem frame_unshare : frame (unshare e) = frame e := by
  rw [unshare, frame_and (by decide), frame_and (by decide)]

theorem isValid_unshare : isValid (unshare e) = isValid e := by
  rw [unshare, isValid_and (by decide), isValid_and (by decide)]

theorem frame_ownCopy (hp : IsFrame p) : frame (ownCopy p e) = p := by
  rw [ownCopy, frame_and (by decide), frame_descriptor hp]
  rw [BitVec.and_assoc]
  have hzero : pdAttrMask &&& pdPageMask = 0 := by decide
  rw [hzero]
  exact BitVec.and_zero

theorem isValid_ownCopy (hp : IsFrame p) : isValid (ownCopy p e) = isValid e := by
  rw [ownCopy, isValid_and (by decide), isValid_descriptor hp, isValid_and (by decide)]

/-- **What `copy_page_frame` does** to a map: the path leads to a page with the same bytes.
It is the same page if nobody else has it, and else a new one. -/
structure Resolved (pgd v : ℕ) (e e' : Descriptor) (fresh pages : List ℕ) (chunks : List (ℕ × ℕ))
    (s s' : State) : Prop where
  pages : Pages s' (fresh ++ pages) chunks
  cases : fresh = [] ∧ refCount (frame e) s = 1 ∧ e' = unshare e ∨
    fresh = [frame e'] ∧ refCount (frame e) s ≠ 1 ∧ e' = ownCopy (frame e') e
  isFrame : IsFrame (frame e')
  look : look 3 pgd s'.mem = update (look 3 pgd s.mem) (pathOf v) (some e')
  occupies : ∀ q, occupies q 3 pgd s'.mem = occupies q 3 pgd s.mem
  refs : ∀ f, IsFrame f → refCount f s' + (if f = frame e then 1 else 0) =
    refCount f s + if f = frame e' then 1 else 0
  content : ∀ k < pageSize, s'.mem (frame e' + k) = s.mem (frame e + k)
  agree : ∀ q, pageSize ∣ q → VMMap.occupies q 3 pgd s.mem = 0 → q ∉ fresh → Agree s.mem s'.mem q

theorem ensures_copyPageFrame (hpages : Pages s pages chunks) (htables : Tables 3 pgd pages s.mem)
    (hlook : look 3 pgd s.mem (pathOf v) = some e) (hframe : IsFrame (frame e))
    (hfree : occupies (frame e) 3 pgd s.mem = 0) :
    Ensures (copyPageFrame fuel pgd v s) fun s' =>
      ∃ e' fresh, Resolved pgd v e e' fresh pages chunks s s' := by
  obtain ⟨a, hslot, hread, hvalid⟩ := slotAt_of_look hlook
  have hal := htables.aligned hpages
  rw [copyPageFrame, walk, walkFrom_false, hslot, ok_bind]
  dsimp only
  rw [hread, getPageRefCount_eq hframe, ok_bind]
  split_ifs with hcount
  · obtain ⟨hlook', hocc, -, t, ht, hta⟩ := look_writeWord (unshare e) 3 htables.distinct hal hslot
    rw [validOnly, isValid_unshare, if_pos hvalid] at hlook'
    have hagree : ∀ q, pageSize ∣ q → occupies q 3 pgd s.mem = 0 →
        Agree s.mem (s.mem.writeWord a (unshare e)) q := fun q hq hq0 =>
      agree_writeWord (hal t ht) hq (fun hEq => ht.ne' (hEq ▸ hq0)) hta _
    refine ensures_pure ⟨unshare e, [], hpages.setDescriptor a _, Or.inl ⟨rfl, hcount, rfl⟩,
      by rwa [frame_unshare], hlook', hocc, fun f _ => ?_, fun k hk => ?_, fun q hq hq0 _ => ?_⟩
    · rw [frame_unshare]
      rfl
    · rw [frame_unshare]
      exact hagree _ hframe.bounds.2.2 hfree k hk
    · exact hagree q hq hq0
  · refine hpages.getFreePage.bind ?_
    rintro ⟨n, s₁⟩ hpage
    dsimp only at hpage ⊢
    obtain ⟨hmem, hrefs, hpage⟩ := hpage
    refine ensures_bind fun s₂ hcopy => ?_
    obtain ⟨hnew, hfresh, hpages₂, hrefs₂, hmem₂⟩ : IsFrame n ∧ n ∉ pages ∧
        Pages s₂ (n :: pages) chunks ∧ s₂.mm.refCounts = s.mm.refCounts ∧
          s₂.mem = s.mem.copy n (frame e) pageSize := by
      rw [copyPage] at hcopy
      split_ifs at hcopy with hn
      obtain rfl := Except.ok.inj hcopy
      obtain ⟨hnew, hfresh, hpages₁⟩ := hpage.resolve_left fun hnull => hn hnull.1
      exact ⟨hnew, hfresh, ⟨hpages₁.mm, hpages₁.live⟩, hrefs, hmem ▸ rfl⟩
    rw [decPageRefCount_eq hframe, ok_bind]
    dsimp only
    rw [incPageRefCount_eq hnew]
    -- The copy goes to a page that is no page table.
    have hcopied : ∀ q, pageSize ∣ q → q ≠ n → Agree s.mem s₂.mem q := fun q hq hqn => by
      rw [hmem₂]
      exact agree_copy hnew.bounds.2.2 hq hqn _
    have htable : ∀ q, 0 < occupies q 3 pgd s.mem → Agree s.mem s₂.mem q := fun q hq =>
      hcopied q (hal q hq) fun hEq => hfresh (hEq ▸ htables.mem q hq)
    obtain ⟨hlook₂, hocc₂⟩ := look_congr 3 htable
    have hdist₂ : Distinct 3 pgd s₂.mem := fun q => (hocc₂ q).trans_le (htables.distinct q)
    have hal₂ : Aligned 3 pgd s₂.mem := fun q hq => hal q (hocc₂ q ▸ hq)
    have hslot₂ := (slotAt_congr 3 (pathOf v) htable).trans hslot
    obtain ⟨hlook', hocc', -, t, ht, hta⟩ := look_writeWord (ownCopy n e) 3 hdist₂ hal₂ hslot₂
    rw [validOnly, isValid_ownCopy hnew, if_pos hvalid, hlook₂] at hlook'
    have hwritten : ∀ q, pageSize ∣ q → occupies q 3 pgd s.mem = 0 →
        Agree s₂.mem (s₂.mem.writeWord a (ownCopy n e)) q := by
      intro q hq hq0
      refine agree_writeWord (hal₂ t ht) hq (fun hEq => ?_) hta _
      rw [hocc₂, ← hEq, hq0] at ht
      exact lt_irrefl _ ht
    have hn0 : occupies n 3 pgd s.mem = 0 := by
      by_contra hne0
      exact hfresh (htables.mem n (Nat.pos_of_ne_zero hne0))
    have hframe' := frame_ownCopy (e := e) hnew
    refine ensures_ok ⟨ownCopy n e, [n],
      ((hpages₂.setDescriptor a (ownCopy n e)).addRef (frame e) (-1)).addRef n 1,
      Or.inr ⟨?_, hcount, ?_⟩, ?_, hlook', fun q => (hocc' q).trans (hocc₂ q), fun f hf => ?_,
      fun k hk => ?_, fun q hq hq0 hin => ?_⟩
    · rw [hframe']
    · rw [hframe']
    · rwa [hframe']
    · rw [refCount_addRef hf hnew, refCount_addRef hf hframe, hframe', refCount_setDescriptor,
        refCount_eq_of_refCounts hrefs₂]
      split_ifs <;> omega
    · rw [hframe']
      refine (hwritten n hnew.bounds.2.2 hn0 k hk).trans ?_
      rw [hmem₂]
      exact Mem.copy_add hk
    · refine (hcopied q hq fun hEq => hin (List.mem_singleton.mpr hEq)).trans ?_
      exact hwritten q hq hq0

end Valkyrie.VMMap
