import Valkyrie.Mm.VirtualMemoryMap.Copy
import Valkyrie.Mm.VirtualMemoryMap.Free

/-!
# Runs of the maps of all tasks

The maps of all tasks live in one memory and take their pages from one allocator. A step is
a call on one of them, a store by a user program, or whatever the rest of the kernel does
with memory of its own.

The invariant (`Valkyrie.VMMap.Inv`) is a balance of two accounts. The live blocks of the
first zone are those of the rest of the kernel, the page tables of the maps, and the frames
that some descriptor leads to, each of them once. And the count of each frame is the number
of the descriptors that lead to it, in all maps together.
-/

namespace Valkyrie.VMMap

open Exec MemoryManager

/-- The maps that are there, and who has which memory. -/
structure World where
  s : State
  /-- The blocks of the first zone in the hands of the rest of the kernel. -/
  others : List ℕ
  /-- The live chunks of the second zone. -/
  chunks : List (ℕ × ℕ)
  /-- `_pgd` of the maps that are there. -/
  maps : List ℕ

/-- What happens in a step. -/
inductive Event where
  /-- A new map. -/
  | construct (pgd : ℕ) : Event
  /-- `map(v, p, attr)`. -/
  | map (pgd v p : ℕ) (attr : Descriptor) : Event
  /-- `copy_from`. -/
  | copyFrom (pgd r : ℕ) : Event
  /-- `copy_page_frame`. -/
  | copyPageFrame (pgd v : ℕ) : Event
  /-- `reset`. -/
  | reset (pgd : ℕ) : Event
  /-- The destructor. -/
  | destruct (pgd : ℕ) : Event
  /-- A byte is stored by the user program with this map. -/
  | store (pgd v : ℕ) (b : UInt8) : Event
  /-- The kernel writes to memory. -/
  | write : Event
  /-- The rest of the kernel calls the memory manager. -/
  | manage : Event

/-- **One step.** The kernel's own writes go anywhere but to page tables. What the rest of
the kernel obtains and gives back is its own. -/
inductive Step : World → Event → World → Prop
  | construct {w : World} {s' : State} {pgd : ℕ} (fuel : ℕ) (h : construct fuel w.s = .ok (pgd, s')) :
      Step w (.construct pgd)
        { w with
          s := s'
          maps := if pgd = 0 then w.maps else pgd :: w.maps }
  | map {w : World} {s' : State} {pgd v p : ℕ} {attr : Descriptor} (fuel : ℕ)
      (hpgd : pgd ∈ w.maps) (hp : p ∈ w.others) (hattr : IsAttr attr)
      (h : map fuel pgd v p attr w.s = .ok s') :
      Step w (.map pgd v p attr)
        { w with
          s := s'
          others := w.others.erase p }
  | copyFrom {w : World} {s' : State} {pgd r : ℕ} (fuel : ℕ) (hpgd : pgd ∈ w.maps) (hr : r ∈ w.maps)
      (hne : pgd ≠ r) (hfresh : ∀ i, isValid (entry w.s.mem pgd i) = false)
      (h : copyFrom fuel pgd r w.s = .ok s') : Step w (.copyFrom pgd r) { w with s := s' }
  | copyPageFrame {w : World} {s' : State} {pgd v : ℕ} {e : Descriptor} (fuel : ℕ)
      (hpgd : pgd ∈ w.maps) (hlook : look 3 pgd w.s.mem (pathOf v) = some e)
      (hcow : has pdCowPage e = true) (h : copyPageFrame fuel pgd v w.s = .ok s') :
      Step w (.copyPageFrame pgd v) { w with s := s' }
  | reset {w : World} {s' : State} {pgd : ℕ} (fuel : ℕ) (hpgd : pgd ∈ w.maps)
      (h : reset fuel pgd w.s = .ok s') : Step w (.reset pgd) { w with s := s' }
  | destruct {w : World} {s' : State} {pgd : ℕ} (fuel : ℕ) (hpgd : pgd ∈ w.maps)
      (h : destruct fuel pgd w.s = .ok s') :
      Step w (.destruct pgd)
        { w with
          s := s'
          maps := w.maps.erase pgd }
  | store {w : World} {pgd v : ℕ} {e : Descriptor} (b : UInt8) (hpgd : pgd ∈ w.maps)
      (hlook : look 3 pgd w.s.mem (pathOf v) = some e) (hwrite : has pdRdonly e = false) :
      Step w (.store pgd v b)
        { w with s := { w.s with mem := Function.update w.s.mem (frame e + pageOffset v) b } }
  | write {w : World} {mem : Mem}
      (h : ∀ pgd ∈ w.maps, ∀ q, 0 < occupies q 3 pgd w.s.mem → Agree w.s.mem mem q) :
      Step w .write { w with s := { w.s with mem := mem } }
  | manage {w : World} {mm : MemoryManager.State} {live others : List ℕ} {chunks : List (ℕ × ℕ)}
      (h : MemoryManager.Step (fun _ _ _ _ => True) (w.s.mm, w.s.live, w.chunks) (mm, live, chunks))
      (hothers : ∀ f, others.count f + w.s.live.count f = w.others.count f + live.count f) :
      Step w .manage
        { w with
          s := { w.s with mm := mm, live := live }
          others := others
          chunks := chunks }

-- The tables are never unfolded below: what they are is said by the lemmas on one call.
attribute [local irreducible] look occupies holders

/-! ### The two accounts -/

/-- How often a page serves as a page table, in all of the maps. -/
def tablesOf (maps : List ℕ) (m : Mem) (f : ℕ) : ℕ := (maps.map fun pgd => occupies f 3 pgd m).sum

/-- How many descriptors lead to a frame, in all of the maps. -/
def ptesOf (maps : List ℕ) (m : Mem) (f : ℕ) : ℕ :=
  (maps.map fun pgd => holders f (look 3 pgd m)).sum

/-- **The two accounts are balanced.** -/
structure Inv (w : World) : Prop where
  owned : Pages w.s w.s.live w.chunks
  live : ∀ f, w.s.live.count f =
    w.others.count f + tablesOf w.maps w.s.mem f + if 0 < ptesOf w.maps w.s.mem f then 1 else 0
  refs : ∀ f, IsFrame f → refCount f w.s = ptesOf w.maps w.s.mem f

section Accounts

variable {m m' : Mem} {maps maps' changed changed' rest : List ℕ} {pgd f q : ℕ}

theorem tablesOf_perm (h : maps.Perm maps') : tablesOf maps m f = tablesOf maps' m f :=
  (h.map _).sum_eq

theorem ptesOf_perm (h : maps.Perm maps') : ptesOf maps m f = ptesOf maps' m f :=
  (h.map _).sum_eq

theorem tablesOf_append : tablesOf (changed ++ rest) m f = tablesOf changed m f + tablesOf rest m f := by
  rw [tablesOf, List.map_append, List.sum_append, tablesOf, tablesOf]

theorem ptesOf_append : ptesOf (changed ++ rest) m f = ptesOf changed m f + ptesOf rest m f := by
  rw [ptesOf, List.map_append, List.sum_append, ptesOf, ptesOf]

theorem tablesOf_nil : tablesOf [] m f = 0 := rfl

theorem ptesOf_nil : ptesOf [] m f = 0 := rfl

theorem tablesOf_singleton : tablesOf [pgd] m f = occupies f 3 pgd m := by
  rw [tablesOf, List.map_singleton, List.sum_singleton]

theorem ptesOf_singleton : ptesOf [pgd] m f = holders f (look 3 pgd m) := by
  rw [ptesOf, List.map_singleton, List.sum_singleton]

theorem occupies_le_tablesOf (h : pgd ∈ maps) : occupies f 3 pgd m ≤ tablesOf maps m f :=
  List.le_sum_of_mem (List.mem_map_of_mem h)

theorem holders_le_ptesOf (h : pgd ∈ maps) : holders f (look 3 pgd m) ≤ ptesOf maps m f :=
  List.le_sum_of_mem (List.mem_map_of_mem h)

/-- Maps whose page tables are left alone. -/
theorem accounts_congr (h : ∀ pgd ∈ rest, ∀ q, 0 < occupies q 3 pgd m → Agree m m' q) :
    tablesOf rest m' f = tablesOf rest m f ∧ ptesOf rest m' f = ptesOf rest m f := by
  constructor
  · exact congrArg List.sum (List.map_congr_left fun pgd hpgd => (look_congr 3 (h pgd hpgd)).2 f)
  · refine congrArg List.sum (List.map_congr_left fun pgd hpgd => ?_)
    rw [(look_congr 3 (h pgd hpgd)).1]

end Accounts

section Balance

variable {w w' : World} {changed changed' rest : List ℕ} {pgd f q v : ℕ} {e : Descriptor}

/-- **A change to some of the maps**, with the others left alone. -/
theorem Inv.change (h : Inv w) (changed changed' : List ℕ) (hmaps : w.maps.Perm (changed ++ rest))
    (hmaps' : w'.maps.Perm (changed' ++ rest)) (howned : Pages w'.s w'.s.live w'.chunks)
    (hagree : ∀ pgd ∈ rest, ∀ q, 0 < occupies q 3 pgd w.s.mem → Agree w.s.mem w'.s.mem q)
    (hlive : ∀ f, w'.s.live.count f + w.others.count f + tablesOf changed w.s.mem f +
        (if 0 < ptesOf changed w.s.mem f + ptesOf rest w.s.mem f then 1 else 0) =
      w.s.live.count f + w'.others.count f + tablesOf changed' w'.s.mem f +
        if 0 < ptesOf changed' w'.s.mem f + ptesOf rest w.s.mem f then 1 else 0)
    (hrefs : ∀ f, IsFrame f → refCount f w'.s + ptesOf changed w.s.mem f =
      refCount f w.s + ptesOf changed' w'.s.mem f) : Inv w' := by
  have hrest := fun f => accounts_congr (f := f) hagree
  refine ⟨howned, fun f => ?_, fun f hf => ?_⟩
  · have hold := h.live f
    have hbal := hlive f
    rw [tablesOf_perm hmaps, ptesOf_perm hmaps, tablesOf_append, ptesOf_append] at hold
    rw [tablesOf_perm hmaps', ptesOf_perm hmaps', tablesOf_append, ptesOf_append, (hrest f).1,
      (hrest f).2]
    omega
  · have hold := h.refs f hf
    have hbal := hrefs f hf
    rw [ptesOf_perm hmaps, ptesOf_append] at hold
    rw [ptesOf_perm hmaps', ptesOf_append, (hrest f).2]
    push_cast at hold ⊢
    omega

/-- No page is in two places. -/
theorem Inv.le_one (h : Inv w) (f : ℕ) : w.others.count f + tablesOf w.maps w.s.mem f +
    (if 0 < ptesOf w.maps w.s.mem f then 1 else 0) ≤ 1 := by
  rw [← h.live f]
  exact List.nodup_iff_count_le_one.mp h.owned.nodup f

theorem Inv.tables (h : Inv w) (hpgd : pgd ∈ w.maps) : Tables 3 pgd w.s.live w.s.mem where
  distinct q := by
    have hle := occupies_le_tablesOf (m := w.s.mem) (f := q) hpgd
    have hone := h.le_one q
    omega
  mem q hq := by
    have hle := occupies_le_tablesOf (m := w.s.mem) (f := q) hpgd
    have hlive := h.live q
    exact List.count_pos_iff.mp (by omega)

theorem Inv.isFrame_pgd (h : Inv w) (hpgd : pgd ∈ w.maps) : IsFrame pgd :=
  h.owned.isFrame ((h.tables hpgd).mem pgd (occupies_self_pos 3 pgd _))

/-- **A frame that a descriptor leads to** is a live page, and no page table. -/
theorem Inv.mapped_frame (h : Inv w) {path : Path 3} (hpgd : pgd ∈ w.maps)
    (hlook : look 3 pgd w.s.mem path = some e) : IsFrame (frame e) ∧ frame e ∈ w.s.live ∧
      w.others.count (frame e) = 0 ∧ tablesOf w.maps w.s.mem (frame e) = 0 := by
  have hpos := lt_of_lt_of_le (holders_pos hlook) (holders_le_ptesOf hpgd)
  have hlive := h.live (frame e)
  have hone := h.le_one (frame e)
  rw [if_pos hpos] at hlive hone
  have hmem : frame e ∈ w.s.live := List.count_pos_iff.mp (by omega)
  exact ⟨h.owned.isFrame hmem, hmem, by omega, by omega⟩

theorem Inv.mapped_not_table (h : Inv w) {path : Path 3} {pgd' : ℕ} (hpgd : pgd ∈ w.maps)
    (hlook : look 3 pgd w.s.mem path = some e) (hpgd' : pgd' ∈ w.maps) :
    occupies (frame e) 3 pgd' w.s.mem = 0 := by
  have hle := occupies_le_tablesOf (m := w.s.mem) (f := frame e) hpgd'
  have hzero := (h.mapped_frame hpgd hlook).2.2.2
  omega

/-- **A block of the rest of the kernel** is no page table and no frame of a map. -/
theorem Inv.of_others (h : Inv w) {p : ℕ} (hp : p ∈ w.others) : IsFrame p ∧
    w.others.count p = 1 ∧ tablesOf w.maps w.s.mem p = 0 ∧ ptesOf w.maps w.s.mem p = 0 := by
  have hcount := List.count_pos_iff.mpr hp
  have hlive := h.live p
  have hone := h.le_one p
  have hmem : p ∈ w.s.live := List.count_pos_iff.mp (by omega)
  refine ⟨h.owned.isFrame hmem, by omega, by omega, ?_⟩
  by_contra hne
  rw [if_pos (Nat.pos_of_ne_zero hne)] at hone
  omega

/-- A page table of one map is none of the others. -/
theorem Inv.rest_free (h : Inv w) (changed : List ℕ) (hmaps : w.maps.Perm (changed ++ rest)) {pgd' : ℕ}
    (hpgd' : pgd' ∈ rest) (hq : 0 < occupies q 3 pgd' w.s.mem) :
    q ∈ w.s.live ∧ pageSize ∣ q ∧ tablesOf changed w.s.mem q = 0 := by
  have hmem := (h.tables (hmaps.mem_iff.mpr (List.mem_append_right _ hpgd'))).mem q hq
  refine ⟨hmem, h.owned.dvd hmem, ?_⟩
  have hle := occupies_le_tablesOf (m := w.s.mem) (f := q) hpgd'
  have hone := h.le_one q
  rw [tablesOf_perm hmaps, tablesOf_append] at hone
  omega

end Balance

/-! ### One step -/

section Step

variable {s s' : State} {w w' : World} {pages live others : List ℕ} {chunks : List (ℕ × ℕ)}
  {pgd r p f q v fuel : ℕ} {e attr : Descriptor}

theorem Pages.self (h : Pages s pages chunks) : Pages s s.live chunks := by
  rw [h.live]
  exact h

/-- The constructor obtains one page, and there is nothing in it. -/
theorem ensures_construct (h : Pages s pages chunks) : Ensures (construct fuel s) fun r =>
    r.2.mm.refCounts = s.mm.refCounts ∧ (r.1 = 0 ∧ Pages r.2 pages chunks ∧ r.2.mem = s.mem ∨
      IsFrame r.1 ∧ r.1 ∉ pages ∧ Pages r.2 (r.1 :: pages) chunks ∧
        r.2.mem = s.mem.fill r.1 pageSize 0) := by
  refine h.getFreePage.bind ?_
  rintro ⟨p, s₁⟩ hpage
  dsimp only at hpage ⊢
  obtain ⟨hmem, hrefs, hpage⟩ := hpage
  split_ifs with hp
  · rcases hpage with ⟨-, hpages⟩ | ⟨hframe, -⟩
    · exact ensures_pure ⟨hrefs, Or.inl ⟨rfl, hpages, hmem⟩⟩
    · exact absurd (hp ▸ hframe) not_isFrame_zero
  · obtain ⟨hframe, hnew, hpages⟩ := hpage.resolve_left fun hnull => hp hnull.1
    rw [clearPage, if_neg hp]
    refine ensures_ok ⟨hrefs, Or.inr ⟨hframe, hnew, ⟨hpages.mm, hpages.live⟩, ?_⟩⟩
    exact congrArg (Mem.fill · p pageSize 0) hmem

/-- A page of zeros is a map of nothing. -/
theorem empty_of_fill (m : Mem) (pgd f : ℕ) :
    tablesOf [pgd] (m.fill pgd pageSize 0) f = (if pgd = f then 1 else 0) ∧
      ptesOf [pgd] (m.fill pgd pageSize 0) f = 0 := by
  have hempty : ∀ i, isValid (entry (m.fill pgd pageSize 0) pgd i) = false := fun i => by
    rw [entry_fill_zero]
    decide
  rw [tablesOf_singleton, ptesOf_singleton]
  exact ⟨occupies_of_empty hempty, holders_eq_zero fun path => look_of_empty hempty path⟩

theorem Inv.construct (h : Inv w) (hcall : construct fuel w.s = .ok (pgd, s')) :
    Inv { w with
          s := s'
          maps := if pgd = 0 then w.maps else pgd :: w.maps } := by
  obtain ⟨hrefs, hpage⟩ := ensures_construct h.owned _ hcall
  rcases hpage with ⟨rfl, howned, hmem⟩ | ⟨hframe, hnew, howned, hmem⟩
  · refine h.change [] [] (List.Perm.refl _) (List.Perm.refl _) howned.self (fun _ _ q _ => ?_)
      (fun f => ?_) fun f _ => ?_
    · rw [hmem]
      exact Agree.rfl
    · rw [howned.live, tablesOf_nil, tablesOf_nil, ptesOf_nil, ptesOf_nil]
    · rw [refCount_eq_of_refCounts hrefs, ptesOf_nil, ptesOf_nil]
  · have hne : pgd ≠ 0 := fun hEq => not_isFrame_zero (hEq ▸ hframe)
    refine h.change [] [pgd] (List.Perm.refl _) ?_ howned.self (fun pgd' hpgd' q hq => ?_)
      (fun f => ?_) fun f _ => ?_
    · rw [if_neg hne]
      exact List.Perm.refl _
    · have hmemq := (h.tables hpgd').mem q hq
      rw [hmem]
      exact agree_fill hframe.bounds.2.2 (h.owned.dvd hmemq) (fun hEq => hnew (hEq ▸ hmemq)) 0
    · rw [howned.live, hmem, (empty_of_fill _ pgd f).1, (empty_of_fill _ pgd f).2, List.count_cons]
      simp only [beq_iff_eq, tablesOf_nil, ptesOf_nil, Nat.zero_add]
      omega
    · rw [refCount_eq_of_refCounts hrefs, hmem, (empty_of_fill _ pgd f).2, ptesOf_nil]

/-- What `map` does in a world that is balanced. -/
theorem Inv.mapped (h : Inv w) (hpgd : pgd ∈ w.maps) (hp : p ∈ w.others) (hattr : IsAttr attr)
    (hcall : VMMap.map fuel pgd v p attr w.s = .ok s') :
    ∃ fresh, Mapped pgd v p attr fresh w.s.live w.chunks w.s s' :=
  ensures_map h.owned (h.tables hpgd) (h.of_others hp).1 hattr _ hcall

theorem Inv.map (h : Inv w) (hpgd : pgd ∈ w.maps) (hp : p ∈ w.others) (hattr : IsAttr attr)
    (hcall : map fuel pgd v p attr w.s = .ok s') :
    Inv { w with
          s := s'
          others := w.others.erase p } := by
  obtain ⟨hframe, hcount, -, hptes⟩ := h.of_others hp
  obtain ⟨fresh, hmapped⟩ := h.mapped hpgd hp hattr hcall
  have hmaps := List.perm_cons_erase hpgd
  have hpte : frame (descriptor p (makeCow attr)) = p :=
    frame_descriptor hframe (isAttr_makeCow hattr).mask
  have hholders : ∀ f, holders f (look 3 pgd s'.mem) =
      holders f (look 3 pgd w.s.mem) + if p = f then 1 else 0 := fun f => by
    have hupdate := holders_update (f := f) (look 3 pgd w.s.mem) (pathOf v)
      (some (descriptor p (makeCow attr)))
    rw [hmapped.unmapped, points_none, points_some, hpte, Nat.add_zero] at hupdate
    rw [hmapped.look, hupdate]
  refine h.change [pgd] [pgd] hmaps hmaps hmapped.pages.self
    (fun pgd' hpgd' q hq => ?_) (fun f => ?_) fun f hf => ?_
  · obtain ⟨hlive, hdvd, hfree⟩ := h.rest_free [pgd] hmaps hpgd' hq
    rw [tablesOf_singleton] at hfree
    exact hmapped.agree q hdvd hfree fun hin =>
      List.disjoint_of_nodup_append hmapped.pages.nodup hin hlive
  · rw [hmapped.pages.live, List.count_append, tablesOf_singleton, tablesOf_singleton,
      ptesOf_singleton, ptesOf_singleton, hmapped.occupies, hholders, List.count_erase]
    have hfree : p = f → holders f (look 3 pgd w.s.mem) + ptesOf (w.maps.erase pgd) w.s.mem f = 0 := by
      rintro rfl
      rw [ptesOf_perm hmaps] at hptes
      rwa [← ptesOf_singleton, ← ptesOf_append]
    have hothers : p = f → w.others.count f = 1 := fun hEq => hEq ▸ hcount
    generalize holders f (look 3 pgd w.s.mem) = R at hfree ⊢
    generalize ptesOf (w.maps.erase pgd) w.s.mem f = Q at hfree ⊢
    generalize occupies f 3 pgd w.s.mem = T
    simp only [beq_iff_eq]
    split_ifs <;> omega
  · rw [hmapped.refs f hf, ptesOf_singleton, ptesOf_singleton, hholders]
    split_ifs <;> omega

/-- What `copy_page_frame` does in a world that is balanced. -/
theorem Inv.resolved (h : Inv w) (hpgd : pgd ∈ w.maps)
    (hlook : look 3 pgd w.s.mem (pathOf v) = some e)
    (hcall : VMMap.copyPageFrame fuel pgd v w.s = .ok s') :
    ∃ e' fresh, Resolved pgd v e e' fresh w.s.live w.chunks w.s s' :=
  ensures_copyPageFrame h.owned (h.tables hpgd) hlook (h.mapped_frame hpgd hlook).1
    (h.mapped_not_table hpgd hlook hpgd) _ hcall

/-- The references to a page are the descriptors of one map and those of the others. -/
theorem Inv.refs_erase (h : Inv w) (hpgd : pgd ∈ w.maps) (hf : IsFrame f) : refCount f w.s =
    holders f (look 3 pgd w.s.mem) + ptesOf (w.maps.erase pgd) w.s.mem f := by
  have hmaps : w.maps.Perm ([pgd] ++ w.maps.erase pgd) := List.perm_cons_erase hpgd
  rw [h.refs f hf, ptesOf_perm hmaps, ptesOf_append, ptesOf_singleton, Nat.cast_add]

theorem Inv.copyPageFrame (h : Inv w) (hpgd : pgd ∈ w.maps)
    (hlook : look 3 pgd w.s.mem (pathOf v) = some e)
    (hcall : copyPageFrame fuel pgd v w.s = .ok s') : Inv { w with s := s' } := by
  obtain ⟨hframe, -⟩ := h.mapped_frame hpgd hlook
  obtain ⟨e', fresh, hres⟩ := h.resolved hpgd hlook hcall
  have hmaps : w.maps.Perm ([pgd] ++ w.maps.erase pgd) := List.perm_cons_erase hpgd
  have hholders : ∀ f, holders f (look 3 pgd s'.mem) + (if frame e = f then 1 else 0) =
      holders f (look 3 pgd w.s.mem) + if frame e' = f then 1 else 0 := fun f => by
    have hupdate := holders_update (f := f) (look 3 pgd w.s.mem) (pathOf v) (some e')
    rwa [hlook, points_some, points_some, ← hres.look] at hupdate
  have hpos : 0 < holders (frame e) (look 3 pgd w.s.mem) := holders_pos hlook
  refine h.change [pgd] [pgd] hmaps hmaps hres.pages.self (fun pgd' hpgd' q hq => ?_)
    (fun f => ?_) fun f hf => ?_
  · obtain ⟨hlive, hdvd, hfree⟩ := h.rest_free [pgd] hmaps hpgd' hq
    rw [tablesOf_singleton] at hfree
    exact hres.agree q hdvd hfree fun hin =>
      List.disjoint_of_nodup_append hres.pages.nodup hin hlive
  · rw [hres.pages.live, List.count_append, tablesOf_singleton, tablesOf_singleton,
      ptesOf_singleton, ptesOf_singleton, hres.occupies]
    have hcount := hholders f
    have hold : frame e = f → 0 < holders f (look 3 pgd w.s.mem) := fun hEq => hEq ▸ hpos
    have href : frame e = f → refCount (frame e) w.s =
        holders f (look 3 pgd w.s.mem) + ptesOf (w.maps.erase pgd) w.s.mem f := fun hEq => by
      rw [h.refs_erase hpgd hframe, hEq]
    rcases hres.cases with ⟨rfl, -, rfl⟩ | ⟨rfl, hmany, -⟩
    · -- The page was the only one, and keeps its frame.
      rw [frame_unshare] at hcount
      rw [Nat.add_right_cancel hcount, List.count_nil, Nat.zero_add]
    · -- The new page is nobody's, and the old one has another descriptor.
      have hnew : frame e' = f → holders f (look 3 pgd w.s.mem) +
          ptesOf (w.maps.erase pgd) w.s.mem f = 0 := by
        rintro rfl
        have hnot : frame e' ∉ w.s.live := (List.nodup_cons.mp hres.pages.nodup).1
        have hlive := h.live (frame e')
        rw [List.count_eq_zero_of_not_mem hnot, ptesOf_perm hmaps, ptesOf_append,
          ptesOf_singleton] at hlive
        by_contra hne
        rw [if_pos (Nat.pos_of_ne_zero hne)] at hlive
        omega
      rw [List.count_singleton]
      generalize holders f (look 3 pgd s'.mem) = R' at hcount ⊢
      generalize holders f (look 3 pgd w.s.mem) = R at hcount hold href hnew ⊢
      generalize ptesOf (w.maps.erase pgd) w.s.mem f = Q at href hnew ⊢
      generalize occupies f 3 pgd w.s.mem = T
      simp only [beq_iff_eq] at hcount ⊢
      split_ifs at hcount ⊢ <;> omega
  · have hcount := hholders f
    have href := hres.refs f hf
    rw [ptesOf_singleton, ptesOf_singleton]
    dsimp only
    generalize holders f (look 3 pgd s'.mem) = R' at hcount ⊢
    generalize holders f (look 3 pgd w.s.mem) = R at hcount ⊢
    simp only [eq_comm (a := f)] at href
    split_ifs at hcount href <;> omega

theorem pair_accounts (pgd r : ℕ) (m : Mem) (f : ℕ) :
    tablesOf [pgd, r] m f = occupies f 3 pgd m + occupies f 3 r m ∧
      ptesOf [pgd, r] m f = holders f (look 3 pgd m) + holders f (look 3 r m) := by
  rw [show [pgd, r] = [pgd] ++ [r] from rfl, tablesOf_append, tablesOf_singleton,
    tablesOf_singleton, ptesOf_append, ptesOf_singleton, ptesOf_singleton]
  exact ⟨rfl, rfl⟩

theorem perm_pair (hpgd : pgd ∈ w.maps) (hr : r ∈ w.maps) (hne : pgd ≠ r) :
    w.maps.Perm ([pgd, r] ++ (w.maps.erase pgd).erase r) := by
  have hr' : r ∈ w.maps.erase pgd := (List.mem_erase_of_ne hne.symm).mpr hr
  exact (List.perm_cons_erase hpgd).trans ((List.perm_cons_erase hr').cons pgd)

/-- What `copy_from` does in a world that is balanced. -/
theorem Inv.copied (h : Inv w) (hpgd : pgd ∈ w.maps) (hr : r ∈ w.maps) (hne : pgd ≠ r)
    (hfresh : ∀ i, isValid (entry w.s.mem pgd i) = false)
    (hcall : VMMap.copyFrom fuel pgd r w.s = .ok s') :
    ∃ fresh, Copied 3 r pgd (List.finRange 512) fresh w.s.live w.chunks w.s s' := by
  have hboth : ∀ q, occupies q 3 pgd w.s.mem + occupies q 3 r w.s.mem ≤
      tablesOf w.maps w.s.mem q := fun q => by
    rw [tablesOf_perm (perm_pair hpgd hr hne), tablesOf_append, (pair_accounts pgd r w.s.mem q).1]
    exact Nat.le_add_right _ _
  refine ensures_dfsCopyPageTables fuel 3 h.owned ⟨fun q => ?_, fun q hq => ?_,
    fun i _ => hfresh i, fun path e he => (h.mapped_frame hr he).1⟩ _ hcall
  · have hle := hboth q
    have hone := h.le_one q
    omega
  · have hle := hboth q
    have hlive := h.live q
    exact List.count_pos_iff.mp (by omega)

theorem Inv.copyFrom (h : Inv w) (hpgd : pgd ∈ w.maps) (hr : r ∈ w.maps) (hne : pgd ≠ r)
    (hfresh : ∀ i, isValid (entry w.s.mem pgd i) = false)
    (hcall : copyFrom fuel pgd r w.s = .ok s') : Inv { w with s := s' } := by
  have hmaps := perm_pair hpgd hr hne
  have hpair := fun m f => (pair_accounts pgd r m f).1
  have hpair' := fun m f => (pair_accounts pgd r m f).2
  obtain ⟨fresh, hcopied⟩ := h.copied hpgd hr hne hfresh hcall
  have hshare : ∀ path, ((look 3 r w.s.mem path).map share).map frame =
      (look 3 r w.s.mem path).map frame := fun path => by
    cases hlook : look 3 r w.s.mem path with
    | none => rfl
    | some e => exact congrArg some (frame_share (h.mapped_frame hr hlook).1)
  -- Both maps have the descriptors that the old one had, and the new one had none before.
  have hold : ∀ f, holders f (look 3 r s'.mem) = holders f (look 3 r w.s.mem) := fun f =>
    holders_congr fun path => by
      rw [hcopied.lookOld, if_pos (List.mem_finRange _), hshare]
  have hnew : ∀ f, holders f (look 3 pgd s'.mem) = holders f (look 3 r w.s.mem) := fun f =>
    holders_congr fun path => by
      rw [hcopied.lookNew, if_pos (List.mem_finRange _), hshare]
  have hzero : ∀ f, holders f (look 3 pgd w.s.mem) = 0 := fun f =>
    holders_eq_zero fun path => look_of_empty hfresh path
  refine h.change [pgd, r] [pgd, r] hmaps hmaps hcopied.owned.self (fun pgd' hpgd' q hq => ?_)
    (fun f => ?_) fun f hf => ?_
  · obtain ⟨hlive, hdvd, hfree⟩ := h.rest_free [pgd, r] hmaps hpgd' hq
    rw [hpair] at hfree
    have hpos := occupies_self_pos 3 pgd w.s.mem
    refine hcopied.agree q hdvd (by omega) (fun hEq => ?_) fun hin =>
      List.disjoint_of_nodup_append hcopied.owned.nodup hin hlive
    rw [hEq] at hfree
    omega
  · rw [hcopied.owned.live, List.count_append, hpair, hpair, hpair', hpair', hzero, hold, hnew,
      hcopied.occupiesOld, hcopied.occupiesNew]
    dsimp only
    generalize holders f (look 3 r w.s.mem) = R
    generalize ptesOf ((w.maps.erase pgd).erase r) w.s.mem f = Q
    generalize occupies f 3 pgd w.s.mem = T
    generalize occupies f 3 r w.s.mem = T'
    split_ifs <;> omega
  · rw [hcopied.refs f hf, heldBelow_finRange, hpair', hpair', hzero, hold, hnew]
    generalize holders f (look 3 r w.s.mem) = R
    push_cast
    ring

/-- The pages of a map can be given back. -/
theorem Inv.canFree (h : Inv w) (hpgd : pgd ∈ w.maps) {T : ℕ → ℕ}
    (hT : ∀ f, T f ≤ occupies f 3 pgd w.s.mem) :
    CanFree T (fun f => holders f (look 3 pgd w.s.mem)) w.s.live w.s := by
  have hframe : ∀ f, 0 < holders f (look 3 pgd w.s.mem) → IsFrame f := by
    intro f hf
    obtain ⟨path, e, hlook, rfl⟩ := exists_of_holders_pos hf
    exact (h.mapped_frame hpgd hlook).1
  refine ⟨fun f => ?_, hframe, fun f hf => ?_⟩
  · have hle := (hT f).trans (occupies_le_tablesOf hpgd)
    have hlive := h.live f
    have hptes := holders_le_ptesOf (m := w.s.mem) (f := f) hpgd
    rw [last]
    generalize holders f (look 3 pgd w.s.mem) = R at hptes ⊢
    generalize ptesOf w.maps w.s.mem f = Q at hlive hptes
    split_ifs at hlive ⊢ <;> omega
  · rw [h.refs f (hframe f hf)]
    exact_mod_cast holders_le_ptesOf hpgd

/-- What is given back is balanced. -/
theorem Inv.freed (h : Inv w) (w' : World) (hpgd : pgd ∈ w.maps) {T : ℕ → ℕ} (changed' : List ℕ)
    (hmaps' : w'.maps.Perm (changed' ++ w.maps.erase pgd)) (hothers : w'.others = w.others)
    (hchunks : w'.chunks = w.chunks)
    (hT : ∀ f, T f + tablesOf changed' (w.s.cleared pgd).mem f = occupies f 3 pgd w.s.mem)
    (hnone : ∀ f, ptesOf changed' (w.s.cleared pgd).mem f = 0)
    (hfreed : Freed T (fun f => holders f (look 3 pgd w.s.mem)) w.s.live live w.chunks
      (w.s.cleared pgd) w'.s) : Inv w' := by
  have hmaps : w.maps.Perm ([pgd] ++ w.maps.erase pgd) := List.perm_cons_erase hpgd
  have hcan := h.canFree hpgd (T := T) fun f => by
    rw [← hT f]
    exact Nat.le_add_right _ _
  refine h.change [pgd] changed' hmaps hmaps' ?_ (fun pgd' hpgd' q hq => ?_) (fun f => ?_)
    fun f hf => ?_
  · rw [hchunks]
    exact hfreed.owned.self
  · obtain ⟨-, hdvd, hfree⟩ := h.rest_free [pgd] hmaps hpgd' hq
    rw [hfreed.mem]
    refine agree_fill (h.isFrame_pgd hpgd).bounds.2.2 hdvd (fun hEq => ?_) 0
    rw [tablesOf_singleton, hEq] at hfree
    exact (occupies_self_pos 3 pgd w.s.mem).ne' hfree
  · have hlive := hfreed.live f
    have hsum := hT f
    have href := fun hf => h.refs_erase hpgd (hcan.isFrame f hf)
    have hsame : refCount f (w.s.cleared pgd) = refCount f w.s := rfl
    rw [hfreed.owned.live, hothers, hfreed.mem, tablesOf_singleton, ptesOf_singleton, hnone]
    rw [last, hsame] at hlive
    generalize holders f (look 3 pgd w.s.mem) = R at hlive href ⊢
    generalize ptesOf (w.maps.erase pgd) w.s.mem f = Q at href ⊢
    generalize occupies f 3 pgd w.s.mem = O at hsum ⊢
    generalize tablesOf changed' (w.s.cleared pgd).mem f = T' at hsum ⊢
    split_ifs at hlive ⊢ <;> omega
  · have hsame : refCount f (w.s.cleared pgd) = refCount f w.s := rfl
    rw [hfreed.refs f hf, hsame, hfreed.mem, ptesOf_singleton, hnone]
    omega

theorem tablesBelow_add (pgd : ℕ) (m : Mem) (f : ℕ) :
    tablesBelow f 3 pgd m + (if pgd = f then 1 else 0) = occupies f 3 pgd m := by
  rw [occupies_eq_tablesBelow, Nat.add_comm]

/-- What `reset` does in a world that is balanced. -/
theorem Inv.freed_reset (h : Inv w) (hpgd : pgd ∈ w.maps)
    (hcall : VMMap.reset fuel pgd w.s = .ok s') : ∃ live,
      Freed (fun f => tablesBelow f 3 pgd w.s.mem) (fun f => holders f (look 3 pgd w.s.mem))
        w.s.live live w.chunks (w.s.cleared pgd) s' :=
  (safe_reset h.owned (h.isFrame_pgd hpgd) (h.canFree hpgd fun f =>
    (Nat.le_add_right _ _).trans_eq (tablesBelow_add pgd w.s.mem f))).ensures _ hcall

theorem Inv.reset (h : Inv w) (hpgd : pgd ∈ w.maps) (hcall : reset fuel pgd w.s = .ok s') :
    Inv { w with s := s' } := by
  obtain ⟨live, hfreed⟩ := h.freed_reset hpgd hcall
  refine h.freed { w with s := s' } hpgd [pgd] (List.perm_cons_erase hpgd) rfl rfl ?_
    (fun f => (empty_of_fill _ pgd f).2) hfreed
  intro f
  rw [← tablesBelow_add]
  exact congrArg (_ + ·) (empty_of_fill _ pgd f).1

/-- What the destructor does in a world that is balanced. -/
theorem Inv.freed_destruct (h : Inv w) (hpgd : pgd ∈ w.maps)
    (hcall : VMMap.destruct fuel pgd w.s = .ok s') : ∃ live,
      Freed (fun f => occupies f 3 pgd w.s.mem) (fun f => holders f (look 3 pgd w.s.mem))
        w.s.live live w.chunks (w.s.cleared pgd) s' :=
  (safe_destruct h.owned (h.isFrame_pgd hpgd) (h.canFree hpgd fun _ => le_refl _)).ensures _ hcall

theorem Inv.destruct (h : Inv w) (hpgd : pgd ∈ w.maps) (hcall : destruct fuel pgd w.s = .ok s') :
    Inv { w with
          s := s'
          maps := w.maps.erase pgd } := by
  obtain ⟨live, hfreed⟩ := h.freed_destruct hpgd hcall
  exact h.freed _ hpgd [] (List.Perm.refl _) rfl rfl (fun f => rfl) (fun f => rfl) hfreed

theorem Inv.write {mem : Mem} (h : Inv w)
    (hagree : ∀ pgd ∈ w.maps, ∀ q, 0 < occupies q 3 pgd w.s.mem → Agree w.s.mem mem q) :
    Inv { w with s := { w.s with mem := mem } } := by
  refine h.change [] [] (List.Perm.refl _) (List.Perm.refl _) ⟨h.owned.mm, h.owned.live⟩ hagree
    (fun f => ?_) fun f _ => ?_
  · rw [tablesOf_nil, tablesOf_nil, ptesOf_nil, ptesOf_nil]
  · rw [ptesOf_nil, ptesOf_nil]
    rfl

/-- A user program does not get at page tables. -/
theorem Inv.agree_store (h : Inv w) (hpgd : pgd ∈ w.maps)
    (hlook : look 3 pgd w.s.mem (pathOf v) = some e) (b : UInt8) {pgd' : ℕ} (hpgd' : pgd' ∈ w.maps)
    (hq : 0 < occupies q 3 pgd' w.s.mem) :
    Agree w.s.mem (Function.update w.s.mem (frame e + pageOffset v) b) q := by
  refine fun k hk => Function.update_of_ne ?_ _ _
  have hne : q ≠ frame e := fun hEq =>
    hq.ne' (hEq ▸ h.mapped_not_table hpgd hlook hpgd')
  have hdis := disjoint_of_dvd (h.mapped_frame hpgd hlook).1.bounds.2.2
    (h.owned.dvd ((h.tables hpgd').mem q hq)) hne
  have hoff := pageOffset_lt v
  omega

theorem Inv.store (h : Inv w) (hpgd : pgd ∈ w.maps)
    (hlook : look 3 pgd w.s.mem (pathOf v) = some e) (b : UInt8) :
    Inv { w with s := { w.s with mem := Function.update w.s.mem (frame e + pageOffset v) b } } :=
  h.write fun _ hpgd' _ hq => h.agree_store hpgd hlook b hpgd' hq

/-- The reference counts are no business of the allocators. -/
theorem refCounts_step {ok : MemoryManager.State → List ℕ → List (ℕ × ℕ) → Call → Prop}
    {r r' : MemoryManager.State × List ℕ × List (ℕ × ℕ)} (h : MemoryManager.Step ok r r') :
    r'.1.refCounts = r.1.refCounts := by
  cases h with
  | getFreePage fuel physical _ hcall =>
    obtain ⟨ret, zone0, -, -, -, rfl⟩ := getFreePage_eq_ok hcall
    rfl
  | kmalloc fuel size _ _ hcall =>
    obtain ⟨-, ⟨zone0, -, rfl⟩ | ⟨-, slob1, zone1, -, rfl⟩⟩ := kmalloc_eq_ok hcall
    · rfl
    · rfl
  | kfreePage fuel _ _ hcall => exact refCounts_kfree hcall
  | kfreeChunk fuel _ _ hcall => exact refCounts_kfree hcall
  | kfreeStale fuel _ _ _ hcall => exact refCounts_kfree hcall
  | store _ => rfl

/-- **One step** keeps the two accounts balanced. -/
theorem Inv.step {ev : Event} (h : Inv w) (hstep : Step w ev w') : Inv w' := by
  cases hstep with
  | construct fuel hcall => exact h.construct hcall
  | map fuel hpgd hp hattr hcall => exact h.map hpgd hp hattr hcall
  | copyFrom fuel hpgd hr hne hfresh hcall => exact h.copyFrom hpgd hr hne hfresh hcall
  | copyPageFrame fuel hpgd hlook _ hcall => exact h.copyPageFrame hpgd hlook hcall
  | reset fuel hpgd hcall => exact h.reset hpgd hcall
  | destruct fuel hpgd hcall => exact h.destruct hpgd hcall
  | store b hpgd hlook _ => exact h.store hpgd hlook b
  | write hagree => exact h.write hagree
  | manage hcall hothers =>
    refine ⟨⟨(tracked_step h.owned.mm hcall).1, rfl⟩, fun f => ?_, fun f hf => ?_⟩
    · have hbal := hothers f
      have hlive := h.live f
      dsimp only
      omega
    · exact (refCount_eq_of_refCounts (refCounts_step hcall)).trans (h.refs f hf)

end Step

/-! ### Runs -/

/-- The start: no map, and no memory in anyone's hands. -/
def World.init (next : ℕ → Option ℕ) (index prevChunkSize : ℕ → ℤ) (mem : Mem) : World where
  s := { mm := MemoryManager.init next index prevChunkSize, mem := mem, live := [] }
  others := []
  chunks := []
  maps := []

theorem inv_init (next : ℕ → Option ℕ) (index prevChunkSize : ℕ → ℤ) (mem : Mem) :
    Inv (World.init next index prevChunkSize mem) :=
  ⟨⟨tracked_init next index prevChunkSize, rfl⟩, fun _ => rfl, fun _ _ => rfl⟩

/-- Any step. -/
def AnyStep (w w' : World) : Prop := ∃ ev, Step w ev w'

theorem inv_of_run {next : ℕ → Option ℕ} {index prevChunkSize : ℕ → ℤ} {mem : Mem} {w : World}
    (h : Run AnyStep (World.init next index prevChunkSize mem) w) : Inv w :=
  h.invariant (inv_init next index prevChunkSize mem) fun _ _ hinv ⟨_, hstep⟩ => hinv.step hstep

/-- **The pages of the maps are accounted for.** In every run, the count of each frame is the
number of descriptors that lead to it. The blocks that are live are those of the rest of the
kernel, the page tables of the maps, and the frames with a positive count, each of them
once. And taking a map down gives back nothing that is not live. -/
theorem accounted_of_run {next : ℕ → Option ℕ} {index prevChunkSize : ℕ → ℤ} {mem : Mem} {w : World}
    (h : Run AnyStep (World.init next index prevChunkSize mem) w) :
    (∀ f, IsFrame f → refCount f w.s = ptesOf w.maps w.s.mem f) ∧
      (∀ f, w.s.live.count f = w.others.count f + tablesOf w.maps w.s.mem f +
        if 0 < ptesOf w.maps w.s.mem f then 1 else 0) ∧
      w.s.live.Nodup ∧
      ∀ pgd ∈ w.maps, ∀ fuel,
        reset fuel pgd w.s ≠ .error .wild ∧ destruct fuel pgd w.s ≠ .error .wild := by
  have hinv := inv_of_run h
  refine ⟨hinv.refs, hinv.live, hinv.owned.nodup, fun pgd hpgd fuel => ?_⟩
  have hframe := hinv.isFrame_pgd hpgd
  have hbelow : ∀ f, tablesBelow f 3 pgd w.s.mem ≤ occupies f 3 pgd w.s.mem := fun f =>
    (Nat.le_add_right _ _).trans_eq (tablesBelow_add pgd w.s.mem f)
  exact ⟨(safe_reset hinv.owned hframe (hinv.canFree hpgd hbelow)).ne_wild,
    (safe_destruct hinv.owned hframe (hinv.canFree hpgd fun _ => le_refl _)).ne_wild⟩

/-- The start, with a memory of zeros. -/
def World.zero : World := World.init (fun _ => none) (fun _ => 0) (fun _ => 0) fun _ => 0

/-- The calls that make a map with one page. -/
def onePage (attr : Descriptor) : Exec (ℕ × ℕ × State × MemoryManager.State × State) := do
  let (pgd, s₁) ← construct 20 World.zero.s
  let (p, mm) ← MemoryManager.getFreePage 20 true s₁.mm
  let s₂ ← map 20 pgd 0 p attr { s₁ with mm := mm, live := p :: s₁.live }
  return (pgd, p, s₁, mm, s₂)

/-- The rest of the kernel obtains a page. -/
theorem step_getFreePage {w : World} {fuel p : ℕ} {mm : MemoryManager.State}
    (hpage : MemoryManager.getFreePage fuel true w.s.mm = .ok (p, mm)) (hp : p ≠ 0)
    (hphys : toPhysical p = p) : Step w .manage
      { w with
        s := { w.s with mm := mm, live := p :: w.s.live }
        others := p :: w.others } := by
  have hmanage : MemoryManager.Step (fun _ _ _ _ => True) (w.s.mm, w.s.live, w.chunks) _ :=
    .getFreePage fuel true trivial hpage
  rw [hphys, if_neg hp] at hmanage
  refine .manage hmanage fun f => ?_
  rw [List.count_cons, List.count_cons]
  omega

/-- The steps that give a map a page: the page is obtained, and mapped. -/
theorem steps_of_page {w : World} {attr : Descriptor} {fuel pgd v p : ℕ} {s' : State}
    {mm : MemoryManager.State} (hpage : MemoryManager.getFreePage fuel true w.s.mm = .ok (p, mm))
    (hmap : map fuel pgd v p attr { w.s with mm := mm, live := p :: w.s.live } = .ok s')
    (hpgd : pgd ∈ w.maps) (hp : p ≠ 0) (hphys : toPhysical p = p) (hattr : IsAttr attr) :
    let w₁ : World :=
      { w with s := { w.s with mm := mm, live := p :: w.s.live }, others := p :: w.others }
    Step w .manage w₁ ∧ Step w₁ (.map pgd v p attr) { w with s := s' } := by
  intro w₁
  have hstep := Step.map (w := w₁) fuel hpgd List.mem_cons_self hattr hmap
  rw [show w₁.others.erase p = w.others from List.erase_cons_head p _] at hstep
  exact ⟨step_getFreePage hpage hp hphys, hstep⟩

/-- The steps that make a map with one page. -/
theorem steps_of_onePage {attr : Descriptor} {pgd p : ℕ} {s₁ s₂ : State}
    {mm : MemoryManager.State} (h : onePage attr = .ok (pgd, p, s₁, mm, s₂)) (hpgd : pgd ≠ 0)
    (hp : p ≠ 0) (hphys : toPhysical p = p) (hattr : IsAttr attr) :
    let w₁ : World := ⟨s₁, [], [], [pgd]⟩
    let w₂ : World := ⟨{ s₁ with mm := mm, live := p :: s₁.live }, [p], [], [pgd]⟩
    Step World.zero (.construct pgd) w₁ ∧ Step w₁ .manage w₂ ∧
      Step w₂ (.map pgd 0 p attr) ⟨s₂, [], [], [pgd]⟩ := by
  obtain ⟨⟨pgd', s₁'⟩, h₁, h⟩ := bind_eq_ok.mp h
  obtain ⟨⟨p', mm'⟩, h₂, h⟩ := bind_eq_ok.mp h
  obtain ⟨s₂', h₃, h⟩ := bind_eq_ok.mp h
  cases pure_eq_ok.mp h
  intro w₁ w₂
  have hstep := Step.construct (w := World.zero) 20 h₁
  rw [if_neg hpgd] at hstep
  exact ⟨hstep, steps_of_page (w := w₁) h₂ h₃ (List.mem_singleton_self pgd) hp hphys hattr⟩

end Valkyrie.VMMap
