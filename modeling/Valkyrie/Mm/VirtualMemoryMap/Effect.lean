import Valkyrie.Mm.VirtualMemoryMap.Run

/-!
# What a step leaves alone

A call on one map changes the page tables of this map, and of the map it copies from. What the
other maps see is what they saw before (`Valkyrie.VMMap.Inv.step_look`), since no page serves as
a table in two maps. And the calls on maps write to page tables and to pages that nobody had:
the bytes of a page that is in use for something else are left alone
(`Valkyrie.VMMap.Inv.step_bytes`). All that user programs and the rest of the kernel do to the
bytes of pages is in the two events that write.
-/

namespace Valkyrie.VMMap

open Exec MemoryManager Function

attribute [local irreducible] look occupies holders

variable {w w' : World} {s' : State} {ev : Event} {m : Mem}
  {pgd pgd' r p f q v fuel : ℕ} {e : Descriptor} {path path' : Path 3}

/-! ### Two maps -/

/-- A page table of one map is no page table of another. -/
theorem Inv.occupies_eq_zero (h : Inv w) (hpgd : pgd ∈ w.maps) (hpgd' : pgd' ∈ w.maps)
    (hne : pgd ≠ pgd') (hq : 0 < occupies q 3 pgd w.s.mem) : occupies q 3 pgd' w.s.mem = 0 := by
  have hone := h.le_one q
  rw [tablesOf_perm (perm_pair hpgd hpgd' hne), tablesOf_append,
    (pair_accounts pgd pgd' w.s.mem q).1] at hone
  omega

theorem occupies_eq_zero_of_tablesOf (hpgd : pgd ∈ w.maps) (hq : tablesOf w.maps w.s.mem q = 0) :
    occupies q 3 pgd w.s.mem = 0 := by
  have hle := occupies_le_tablesOf (m := w.s.mem) (f := q) hpgd
  omega

theorem Inv.nodup_maps (h : Inv w) : w.maps.Nodup := by
  refine List.nodup_iff_count_le_one.mpr fun pgd => ?_
  by_contra hmany
  obtain ⟨hpgd, hagain⟩ : pgd ∈ w.maps ∧ pgd ∈ w.maps.erase pgd := by
    constructor
    · exact List.count_pos_iff.mp (by omega)
    · refine List.count_pos_iff.mp ?_
      rw [List.count_erase_self]
      omega
  have hone := h.le_one pgd
  have hpos := occupies_self_pos 3 pgd w.s.mem
  have hle := occupies_le_tablesOf (m := w.s.mem) (f := pgd) hagain
  rw [tablesOf_perm (List.perm_cons_erase hpgd), ← List.singleton_append, tablesOf_append,
    tablesOf_singleton] at hone
  omega

/-- **A frame with one descriptor** is found at one place. -/
theorem eq_of_ptesOf_le_one (h : ptesOf w.maps w.s.mem (frame e) ≤ 1) (hpgd : pgd ∈ w.maps)
    (hpgd' : pgd' ∈ w.maps) {e' : Descriptor} (hlook : look 3 pgd w.s.mem path = some e)
    (hlook' : look 3 pgd' w.s.mem path' = some e') (hframe : frame e' = frame e) :
    pgd' = pgd ∧ path' = path := by
  have hpos := holders_pos hlook
  have hpos' := holders_pos hlook'
  rw [hframe] at hpos'
  have hmap : pgd' = pgd := by
    by_contra hne
    rw [ptesOf_perm (perm_pair hpgd' hpgd hne), ptesOf_append,
      (pair_accounts pgd' pgd w.s.mem _).2] at h
    omega
  subst hmap
  refine ⟨rfl, ?_⟩
  by_contra hne
  -- Without its first descriptor the map still has the second one.
  have hupdate := holders_update (f := frame e) (look 3 pgd' w.s.mem) path none
  have hrest : 0 < holders (frame e) (update (look 3 pgd' w.s.mem) path none) := by
    have hkept : update (look 3 pgd' w.s.mem) path none path' = some e' := by
      rw [update_of_ne hne, hlook']
    rw [← hframe]
    exact holders_pos hkept
  have hle := holders_le_ptesOf (m := w.s.mem) (f := frame e) hpgd'
  rw [hlook, points_some, points_none, if_pos rfl] at hupdate
  omega

/-! ### The maps that a step is about -/

/-- The maps whose page tables are written. -/
def Event.changed : Event → List ℕ
  | .map pgd _ _ _ | .copyPageFrame pgd _ | .reset pgd | .destruct pgd => [pgd]
  | .copyFrom pgd r => [pgd, r]
  | .construct _ | .store _ _ _ | .write | .manage => []

/-- The bytes of pages in use are written. -/
def Event.Writes : Event → Prop
  | .store _ _ _ | .write => True
  | _ => False

theorem Step.mem_of_changed (hstep : Step w ev w') (h : pgd ∈ ev.changed) : pgd ∈ w.maps := by
  cases hstep with
  | map _ hpgd _ _ _ => exact List.mem_singleton.mp h ▸ hpgd
  | copyFrom _ hpgd hr _ _ _ =>
    rcases List.mem_cons.mp h with rfl | h
    · exact hpgd
    · exact List.mem_singleton.mp h ▸ hr
  | copyPageFrame _ hpgd _ _ _ => exact List.mem_singleton.mp h ▸ hpgd
  | reset _ hpgd _ => exact List.mem_singleton.mp h ▸ hpgd
  | destruct _ hpgd _ => exact List.mem_singleton.mp h ▸ hpgd
  | construct _ _ | store _ _ _ _ | write _ | manage _ _ => cases h

/-- A map that is cleared. -/
theorem Inv.agree_cleared (h : Inv w) (hpgd : pgd ∈ w.maps) (hmem : m = (w.s.cleared pgd).mem)
    (hq : q ∈ w.s.live) (htable : occupies q 3 pgd w.s.mem = 0) : Agree w.s.mem m q := by
  rw [hmem]
  refine agree_fill (h.isFrame_pgd hpgd).bounds.2.2 (h.owned.dvd hq) (fun hEq => ?_) 0
  rw [hEq] at htable
  exact (occupies_self_pos 3 pgd w.s.mem).ne' htable

/-- A call on maps writes to their page tables, and to pages that nobody had. -/
theorem Inv.step_agree (h : Inv w) (hstep : Step w ev w') (hev : ¬ev.Writes) (hq : q ∈ w.s.live)
    (hchanged : ∀ pgd ∈ ev.changed, occupies q 3 pgd w.s.mem = 0) : Agree w.s.mem w'.s.mem q := by
  cases hstep with
  | construct fuel hcall =>
    obtain ⟨-, ⟨rfl, -, hmem⟩ | ⟨hframe, hnew, -, hmem⟩⟩ := ensures_construct h.owned _ hcall
    · dsimp only at hmem ⊢
      rw [hmem]
      exact Agree.rfl
    · dsimp only at hmem ⊢
      rw [hmem]
      exact agree_fill hframe.bounds.2.2 (h.owned.dvd hq) (fun hEq => hnew (hEq ▸ hq)) 0
  | map fuel hpgd hp hattr hcall =>
    obtain ⟨fresh, hmapped⟩ := h.mapped hpgd hp hattr hcall
    exact hmapped.agree q (h.owned.dvd hq) (hchanged _ (List.mem_singleton_self _)) fun hin =>
      List.disjoint_of_nodup_append hmapped.pages.nodup hin hq
  | @copyFrom _ pgd r fuel hpgd hr hne hfresh hcall =>
    obtain ⟨fresh, hcopied⟩ := h.copied hpgd hr hne hfresh hcall
    have hnew := hchanged pgd List.mem_cons_self
    have hold := hchanged r (List.mem_cons_of_mem _ List.mem_cons_self)
    refine hcopied.agree q (h.owned.dvd hq) hold (fun hEq => ?_) fun hin =>
      List.disjoint_of_nodup_append hcopied.owned.nodup hin hq
    have hpos := occupies_self_pos 3 pgd w.s.mem
    rw [hEq] at hnew
    omega
  | copyPageFrame fuel hpgd hlook _ hcall =>
    obtain ⟨e', fresh, hres⟩ := h.resolved hpgd hlook hcall
    exact hres.agree q (h.owned.dvd hq) (hchanged _ (List.mem_singleton_self _)) fun hin =>
      List.disjoint_of_nodup_append hres.pages.nodup hin hq
  | reset fuel hpgd hcall =>
    obtain ⟨live, hfreed⟩ := h.freed_reset hpgd hcall
    exact h.agree_cleared hpgd hfreed.mem hq (hchanged _ (List.mem_singleton_self _))
  | destruct fuel hpgd hcall =>
    obtain ⟨live, hfreed⟩ := h.freed_destruct hpgd hcall
    exact h.agree_cleared hpgd hfreed.mem hq (hchanged _ (List.mem_singleton_self _))
  | store _ _ _ _ => exact absurd trivial hev
  | write _ => exact absurd trivial hev
  | manage _ _ => exact Agree.rfl

/-- **The bytes of a page that is no page table** are left alone. -/
theorem Inv.step_bytes (h : Inv w) (hstep : Step w ev w') (hev : ¬ev.Writes) (hq : q ∈ w.s.live)
    (htable : tablesOf w.maps w.s.mem q = 0) : Agree w.s.mem w'.s.mem q :=
  h.step_agree hstep hev hq fun _ hpgd =>
    occupies_eq_zero_of_tablesOf (hstep.mem_of_changed hpgd) htable

/-- The page tables of the other maps are left alone. -/
theorem Inv.step_tables (h : Inv w) (hstep : Step w ev w') (hpgd : pgd ∈ w.maps)
    (hother : pgd ∉ ev.changed) (hq : 0 < occupies q 3 pgd w.s.mem) : Agree w.s.mem w'.s.mem q := by
  by_cases hev : ev.Writes
  · cases hstep with
    | store b hpgd' hlook _ => exact h.agree_store hpgd' hlook b hpgd hq
    | write hagree => exact hagree pgd hpgd q hq
    | _ => exact absurd hev id
  · refine h.step_agree hstep hev ((h.tables hpgd).mem q hq) fun pgd' hpgd' => ?_
    refine h.occupies_eq_zero hpgd (hstep.mem_of_changed hpgd') ?_ hq
    rintro rfl
    exact hother hpgd'

/-- **What the other maps see** is what they saw. -/
theorem Inv.step_look (h : Inv w) (hstep : Step w ev w') (hpgd : pgd ∈ w.maps)
    (hother : pgd ∉ ev.changed) : look 3 pgd w'.s.mem = look 3 pgd w.s.mem ∧
      ∀ q, occupies q 3 pgd w'.s.mem = occupies q 3 pgd w.s.mem :=
  look_congr 3 fun _ hq => h.step_tables hstep hpgd hother hq

/-! ### The descriptors that a step writes -/

/-- A step overwrites the descriptor at the end of a path. -/
def Event.Overwrites (pgd' : ℕ) (path : Path 3) : Event → Prop
  | .map pgd v _ _ | .copyPageFrame pgd v => pgd' = pgd ∧ path = pathOf v
  | .copyFrom pgd r => pgd' = pgd ∨ pgd' = r
  | .construct pgd | .reset pgd | .destruct pgd => pgd' = pgd
  | .store _ _ _ | .write | .manage => False

/-- **What is found at a path that was overwritten.** A descriptor that `copy_page_frame` writes
leads to the bytes that the old one led to: they are in the same frame, which has no other
descriptor, or in a page that nobody had. -/
inductive Written (w w' : World) (path : Path 3) : Event → Option Descriptor → Prop
  | construct {pgd : ℕ} : Written w w' path (.construct pgd) none
  | map {pgd v p : ℕ} {attr : Descriptor} (hp : p ∈ w.others) (hattr : IsAttr attr) :
      Written w w' path (.map pgd v p attr) (some (descriptor p (makeCow attr)))
  | share {pgd r : ℕ} (hr : r ∈ w.maps) :
      Written w w' path (.copyFrom pgd r) ((look 3 r w.s.mem path).map share)
  | unshare {pgd v : ℕ} {e : Descriptor} (hpgd : pgd ∈ w.maps)
      (hlook : look 3 pgd w.s.mem path = some e) (hcow : has pdCowPage e = true)
      (hone : ptesOf w.maps w.s.mem (frame e) = 1) (hbytes : Agree w.s.mem w'.s.mem (frame e)) :
      Written w w' path (.copyPageFrame pgd v) (some (unshare e))
  | ownCopy {pgd v p : ℕ} {e : Descriptor} (hpgd : pgd ∈ w.maps)
      (hlook : look 3 pgd w.s.mem path = some e) (hcow : has pdCowPage e = true)
      (hmany : ptesOf w.maps w.s.mem (frame e) ≠ 1) (hframe : IsFrame p) (hnew : p ∉ w.s.live)
      (hbytes : ∀ k < pageSize, w'.s.mem (p + k) = w.s.mem (frame e + k)) :
      Written w w' path (.copyPageFrame pgd v) (some (ownCopy p e))
  | reset {pgd : ℕ} : Written w w' path (.reset pgd) none

theorem look_of_fill : look 3 pgd (m.fill pgd pageSize 0) path = none :=
  look_of_empty (fun i => by
    rw [entry_fill_zero]
    decide) path

/-- **What is not overwritten** is found as before. -/
theorem Inv.step_kept (h : Inv w) (hstep : Step w ev w') (hpgd : pgd ∈ w'.maps)
    (hnot : ¬ev.Overwrites pgd path) :
    pgd ∈ w.maps ∧ look 3 pgd w'.s.mem path = look 3 pgd w.s.mem path := by
  have hmem : pgd ∈ w.maps := by
    cases hstep with
    | construct fuel hcall =>
      dsimp only at hpgd
      split_ifs at hpgd
      · exact hpgd
      · exact (List.mem_cons.mp hpgd).resolve_left hnot
    | destruct _ _ _ => exact List.mem_of_mem_erase hpgd
    | _ => exact hpgd
  refine ⟨hmem, ?_⟩
  by_cases hchanged : pgd ∈ ev.changed
  · -- The map is written to at another path.
    cases hstep with
    | map fuel hpgd' hp hattr hcall =>
      obtain rfl := List.mem_singleton.mp hchanged
      obtain ⟨fresh, hmapped⟩ := h.mapped hpgd' hp hattr hcall
      rw [hmapped.look, update_of_ne fun hEq => hnot ⟨rfl, hEq⟩]
    | copyPageFrame fuel hpgd' hlook _ hcall =>
      obtain rfl := List.mem_singleton.mp hchanged
      obtain ⟨e', fresh, hres⟩ := h.resolved hpgd' hlook hcall
      rw [hres.look, update_of_ne fun hEq => hnot ⟨rfl, hEq⟩]
    | copyFrom _ _ _ _ _ _ =>
      rcases List.mem_cons.mp hchanged with rfl | hr
      · exact absurd (Or.inl rfl) hnot
      · exact absurd (Or.inr (List.mem_singleton.mp hr)) hnot
    | reset _ _ _ => exact absurd (List.mem_singleton.mp hchanged) hnot
    | destruct _ _ _ => exact absurd (List.mem_singleton.mp hchanged) hnot
    | construct _ _ | store _ _ _ _ | write _ | manage _ _ => cases hchanged
  · rw [(h.step_look hstep hmem hchanged).1]

/-- **What is overwritten** is found as it was written. -/
theorem Inv.step_written (h : Inv w) (hstep : Step w ev w') (hpgd : pgd ∈ w'.maps)
    (hover : ev.Overwrites pgd path) : Written w w' path ev (look 3 pgd w'.s.mem path) := by
  cases hstep with
  | construct fuel hcall =>
    obtain rfl : pgd = _ := hover
    obtain ⟨-, ⟨rfl, -⟩ | ⟨-, -, -, hmem⟩⟩ := ensures_construct h.owned _ hcall
    · exact absurd (h.isFrame_pgd hpgd) not_isFrame_zero
    · dsimp only at hmem ⊢
      rw [hmem, look_of_fill]
      exact .construct
  | map fuel hpgd' hp hattr hcall =>
    obtain ⟨rfl, rfl⟩ := hover
    obtain ⟨fresh, hmapped⟩ := h.mapped hpgd' hp hattr hcall
    rw [hmapped.look, update_self]
    exact .map hp hattr
  | copyFrom fuel hpgd' hr hne hfresh hcall =>
    obtain ⟨fresh, hcopied⟩ := h.copied hpgd' hr hne hfresh hcall
    rcases hover with rfl | rfl
    · rw [hcopied.lookNew, if_pos (List.mem_finRange _)]
      exact .share hr
    · rw [hcopied.lookOld, if_pos (List.mem_finRange _)]
      exact .share hr
  | @copyPageFrame _ _ v e fuel hpgd' hlook hcow hcall =>
    obtain ⟨rfl, rfl⟩ := hover
    obtain ⟨e', fresh, hres⟩ := h.resolved hpgd' hlook hcall
    have hframe := (h.mapped_frame hpgd' hlook).1
    rw [hres.look, update_self]
    -- The last descriptor of the frame keeps it; otherwise there is a copy.
    rcases hres.cases with ⟨-, hone, rfl⟩ | ⟨rfl, hmany, hEq⟩
    · refine .unshare hpgd' hlook hcow ?_ fun k hk => ?_
      · rw [h.refs _ hframe] at hone
        omega
      · have hcontent := hres.content k hk
        rwa [frame_unshare] at hcontent
    · rw [hEq]
      refine .ownCopy hpgd' hlook hcow ?_ hres.isFrame ?_ hres.content
      · rw [h.refs _ hframe] at hmany
        omega
      · exact (List.nodup_cons.mp hres.pages.nodup).1
  | reset fuel hpgd' hcall =>
    obtain rfl : pgd = _ := hover
    obtain ⟨live, hfreed⟩ := h.freed_reset hpgd' hcall
    rw [hfreed.mem, State.cleared, look_of_fill]
    exact .reset
  | destruct fuel hpgd' hcall =>
    obtain rfl : pgd = _ := hover
    exact absurd hpgd (h.nodup_maps.not_mem_erase)
  | store _ _ _ _ | write _ | manage _ _ => exact absurd hover id

/-! ### Descriptors that are alone -/

/-- **The descriptors with a property** are the only ones to their frames. -/
def Sole (P : Descriptor → Prop) (w : World) : Prop :=
  ∀ ⦃pgd pgd' path path' e e'⦄, pgd ∈ w.maps → look 3 pgd w.s.mem path = some e → P e →
    pgd' ∈ w.maps → look 3 pgd' w.s.mem path' = some e' → frame e' = frame e →
      pgd' = pgd ∧ path' = path

variable {P : Descriptor → Prop} {attr e' : Descriptor}

/-- The frame of a page that the kernel maps is found at no path yet. -/
theorem Inv.frame_ne_of_others (h : Inv w) (hpgd : pgd ∈ w.maps)
    (hlook : look 3 pgd w.s.mem path = some e) (hp : p ∈ w.others) (hattr : IsAttr attr) :
    frame e ≠ frame (descriptor p (makeCow attr)) := by
  rw [frame_descriptor (h.of_others hp).1 (isAttr_makeCow hattr).mask]
  rintro rfl
  exact (List.count_pos_iff.mpr hp).ne' (h.mapped_frame hpgd hlook).2.2.1

/-- A page that nobody had is found at no path yet. -/
theorem Inv.frame_ne_of_new (h : Inv w) (hpgd : pgd ∈ w.maps)
    (hlook : look 3 pgd w.s.mem path = some e) (hframe : IsFrame p) (hnew : p ∉ w.s.live) :
    frame e ≠ frame (ownCopy p e') := by
  rw [frame_ownCopy hframe]
  rintro rfl
  exact hnew (h.mapped_frame hpgd hlook).2.1

/-- **One step** keeps such descriptors apart from all others, as long as none of them is a
descriptor that `copy_from` writes. -/
theorem Sole.step (hshare : ∀ e, IsFrame (frame e) → ¬P (share e)) (h : Sole P w) (hinv : Inv w)
    (hstep : Step w ev w') : Sole P w' := by
  intro pgd pgd' path path' e e' hpgd hlook hP hpgd' hlook' hframe
  by_cases hover : ev.Overwrites pgd path
  · have hwritten := hinv.step_written hstep hpgd hover
    generalize look 3 pgd w'.s.mem path = x at hwritten hlook
    by_cases hover' : ev.Overwrites pgd' path'
    · -- Both places were overwritten: they are one place, unless the frames are shared.
      cases hwritten with
      | map _ _ | unshare _ _ _ _ _ | ownCopy _ _ _ _ _ _ _ =>
        exact ⟨hover'.1.trans hover.1.symm, hover'.2.trans hover.2.symm⟩
      | share hr =>
        obtain ⟨e₀, hlook₀, rfl⟩ := Option.map_eq_some_iff.mp hlook
        exact absurd hP (hshare e₀ (hinv.mapped_frame hr hlook₀).1)
      | construct | reset => cases hlook
    · obtain ⟨hmem', hkept'⟩ := hinv.step_kept hstep hpgd' hover'
      rw [hkept'] at hlook'
      cases hwritten with
      | map hp hattr =>
        obtain rfl := Option.some.inj hlook
        exact absurd hframe (hinv.frame_ne_of_others hmem' hlook' hp hattr)
      | share hr =>
        obtain ⟨e₀, hlook₀, rfl⟩ := Option.map_eq_some_iff.mp hlook
        exact absurd hP (hshare e₀ (hinv.mapped_frame hr hlook₀).1)
      | unshare hpgd₀ hlook₀ _ hone _ =>
        obtain rfl := Option.some.inj hlook
        rw [frame_unshare] at hframe
        obtain ⟨hpgd, rfl⟩ := eq_of_ptesOf_le_one hone.le hpgd₀ hmem' hlook₀ hlook' hframe
        exact ⟨hpgd.trans hover.1.symm, rfl⟩
      | ownCopy _ _ _ _ hp hnew _ =>
        obtain rfl := Option.some.inj hlook
        exact absurd hframe (hinv.frame_ne_of_new hmem' hlook' hp hnew)
      | construct | reset => cases hlook
  · obtain ⟨hmem, hkept⟩ := hinv.step_kept hstep hpgd hover
    rw [hkept] at hlook
    by_cases hover' : ev.Overwrites pgd' path'
    · have hwritten := hinv.step_written hstep hpgd' hover'
      generalize look 3 pgd' w'.s.mem path' = x at hwritten hlook'
      cases hwritten with
      | map hp hattr =>
        obtain rfl := Option.some.inj hlook'
        exact absurd hframe.symm (hinv.frame_ne_of_others hmem hlook hp hattr)
      | share hr =>
        -- The only descriptor to the frame would be the one that was overwritten.
        obtain ⟨e₀, hlook₀, rfl⟩ := Option.map_eq_some_iff.mp hlook'
        rw [frame_share (hinv.mapped_frame hr hlook₀).1] at hframe
        obtain ⟨rfl, -⟩ := h hmem hlook hP hr hlook₀ hframe
        exact absurd (Or.inr rfl) hover
      | unshare hpgd₀ hlook₀ _ _ _ =>
        obtain rfl := Option.some.inj hlook'
        rw [frame_unshare] at hframe
        obtain ⟨rfl, rfl⟩ := h hmem hlook hP hpgd₀ hlook₀ hframe
        exact absurd ⟨rfl, hover'.2⟩ hover
      | ownCopy _ _ _ _ hp hnew _ =>
        obtain rfl := Option.some.inj hlook'
        exact absurd hframe.symm (hinv.frame_ne_of_new hmem hlook hp hnew)
      | construct | reset => cases hlook'
    · obtain ⟨hmem', hkept'⟩ := hinv.step_kept hstep hpgd' hover'
      rw [hkept'] at hlook'
      exact h hmem hlook hP hmem' hlook' hframe

/-- A frame with such a descriptor has no other one. -/
theorem Sole.ptesOf_eq_one (h : Sole P w) (hinv : Inv w) (hpgd : pgd ∈ w.maps)
    (hlook : look 3 pgd w.s.mem path = some e) (hP : P e) :
    ptesOf w.maps w.s.mem (frame e) = 1 := by
  have hrest : ptesOf (w.maps.erase pgd) w.s.mem (frame e) = 0 := by
    refine List.sum_eq_zero fun n hn => ?_
    obtain ⟨pgd', hpgd', rfl⟩ := List.mem_map.mp hn
    by_contra hpos
    obtain ⟨path', e', hlook', hframe⟩ := exists_of_holders_pos (Nat.pos_of_ne_zero hpos)
    obtain ⟨rfl, -⟩ := h hpgd hlook hP (List.mem_of_mem_erase hpgd') hlook' hframe
    exact hinv.nodup_maps.not_mem_erase hpgd'
  -- Without the one descriptor the map would not lead to the frame.
  have hself : holders (frame e) (update (look 3 pgd w.s.mem) path none) = 0 := by
    by_contra hpos
    obtain ⟨path', e', hlook', hframe⟩ := exists_of_holders_pos (Nat.pos_of_ne_zero hpos)
    by_cases hne : path' = path
    · rw [hne, update_self] at hlook'
      cases hlook'
    · rw [update_of_ne hne] at hlook'
      exact hne (h hpgd hlook hP hpgd hlook' hframe).2
  have hupdate := holders_update (f := frame e) (look 3 pgd w.s.mem) path none
  rw [hlook, points_some, points_none, if_pos rfl, hself] at hupdate
  rw [ptesOf_perm (List.perm_cons_erase hpgd), ← List.singleton_append, ptesOf_append,
    ptesOf_singleton, hrest]
  omega

end Valkyrie.VMMap
