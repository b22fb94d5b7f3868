import Valkyrie.Mm.VirtualMemoryMap.Plenty

/-!
# A map is a finite map

What `map` puts into the tables is what `get_physical_address` finds there, and what is in
the tables already stays. The four indices of an address split it without loss, and the
tables that `walk` creates on the way are pages that are in no table yet, so the path of
one page never runs through the descriptor of another
(`Valkyrie.VMMap.map_translates`).

For this the pages that are mapped do not matter: they may belong to anyone, and a page may
be mapped as often as one likes. What matters is that no page serves as a page table twice,
in all of the maps together. `Valkyrie.VMMap.Apart` says so, and the steps of
`Valkyrie.VMMap.Mapping` keep it: new maps, calls of `map` with any arguments, and whatever
the rest of the kernel does as long as it leaves the page tables alone.

The one thing that `map` insists on is that the page has a reference count. For an address
outside of the first zone it stops the kernel, after the descriptor was written
(`Valkyrie.VMMap.map_outside_panics`).
-/

namespace Valkyrie.VMMap

open Exec MemoryManager

variable {m : Mem} {s s' : State} {w w' : World} {fuel pgd v v' p q a f : ℕ}
  {attr e : Descriptor} {ok : Descriptor → Prop}

-- The tables are never unfolded below: what they are is said by the lemmas on one call.
attribute [local irreducible] look occupies holders

/-! ### The steps -/

/-- **The steps that build maps**: new maps, calls of `map` with attributes that are allowed, and
the rest of the kernel, which calls the memory manager and writes to memory, but does not give
back or overwrite the page tables. -/
inductive Mapping (ok : Descriptor → Prop) : World → World → Prop
  | construct {w : World} {s' : State} {pgd : ℕ} (fuel : ℕ) (h : construct fuel w.s = .ok (pgd, s')) :
      Mapping ok w
        { w with
          s := s'
          maps := if pgd = 0 then w.maps else pgd :: w.maps }
  | map {w : World} {s' : State} {pgd v p : ℕ} {attr : Descriptor} (fuel : ℕ) (hpgd : pgd ∈ w.maps)
      (hattr : ok attr) (h : map fuel pgd v p attr w.s = .ok s') : Mapping ok w { w with s := s' }
  | manage {w : World} {mm : MemoryManager.State} {live : List ℕ} {chunks : List (ℕ × ℕ)}
      (h : MemoryManager.Step (fun _ _ _ _ => True) (w.s.mm, w.s.live, w.chunks) (mm, live, chunks))
      (hkeep : ∀ pgd ∈ w.maps, ∀ q, 0 < occupies q 3 pgd w.s.mem → q ∈ live) :
      Mapping ok w
        { w with
          s := { w.s with mm := mm, live := live }
          chunks := chunks }
  | write {w : World} {mem : Mem}
      (h : ∀ pgd ∈ w.maps, ∀ q, 0 < occupies q 3 pgd w.s.mem → Agree w.s.mem mem q) :
      Mapping ok w { w with s := { w.s with mem := mem } }

/-- **The page tables are apart**: each is a live page, and no page serves as one twice. -/
structure Apart (w : World) : Prop where
  owned : Pages w.s w.s.live w.chunks
  once : ∀ f, tablesOf w.maps w.s.mem f ≤ 1
  live : ∀ f, 0 < tablesOf w.maps w.s.mem f → f ∈ w.s.live

theorem Apart.tables (h : Apart w) (hpgd : pgd ∈ w.maps) : Tables 3 pgd w.s.live w.s.mem where
  distinct _ := (occupies_le_tablesOf hpgd).trans (h.once _)
  mem q hq := h.live q (hq.trans_le (occupies_le_tablesOf hpgd))

/-- A page that is not live is no page table. -/
theorem Apart.tablesOf_eq_zero (h : Apart w) (hf : f ∉ w.s.live) :
    tablesOf w.maps w.s.mem f = 0 := by
  by_contra hne
  exact hf (h.live f (Nat.pos_of_ne_zero hne))

theorem apart_init (next : ℕ → Option ℕ) (index prevChunkSize : ℕ → ℤ) (mem : Mem) :
    Apart (World.init next index prevChunkSize mem) where
  owned := ⟨tracked_init next index prevChunkSize, rfl⟩
  once _ := Nat.zero_le 1
  live _ hf := absurd hf (lt_irrefl 0)

/-- **Pages that become page tables** were not live before, so that none is one twice. -/
theorem Apart.grow (h : Apart w) (fresh : List ℕ)
    (howned : Pages w'.s (fresh ++ w.s.live) w'.chunks)
    (htables : ∀ f, tablesOf w'.maps w'.s.mem f = tablesOf w.maps w.s.mem f + fresh.count f) :
    Apart w' := by
  have hnodup := howned.nodup
  refine ⟨howned.self, fun f => ?_, fun f hf => ?_⟩
  · rw [htables]
    by_cases hin : f ∈ fresh
    · rw [h.tablesOf_eq_zero fun hlive => List.disjoint_of_nodup_append hnodup hin hlive,
        Nat.zero_add]
      exact List.nodup_iff_count_le_one.mp (List.Nodup.of_append_left hnodup) f
    · rw [List.count_eq_zero_of_not_mem hin]
      exact h.once f
  · rw [howned.live]
    by_cases hin : f ∈ fresh
    · exact List.mem_append_left _ hin
    · rw [htables, List.count_eq_zero_of_not_mem hin] at hf
      exact List.mem_append_right _ (h.live f hf)

theorem Apart.construct (h : Apart w) (hcall : construct fuel w.s = .ok (pgd, s')) :
    Apart { w with
            s := s'
            maps := if pgd = 0 then w.maps else pgd :: w.maps } := by
  obtain ⟨-, hpage⟩ := ensures_construct h.owned _ hcall
  rcases hpage with ⟨rfl, howned, hmem⟩ | ⟨hframe, hnew, howned, hmem⟩
  · refine h.grow [] howned fun f => ?_
    dsimp only
    rw [if_pos rfl, hmem]
    rfl
  · have hne : pgd ≠ 0 := fun hEq => not_isFrame_zero (hEq ▸ hframe)
    refine h.grow [pgd] howned fun f => ?_
    dsimp only
    have hrest : tablesOf w.maps (w.s.mem.fill pgd pageSize 0) f = tablesOf w.maps w.s.mem f :=
      (accounts_congr fun pgd' hpgd' q hq => by
        have hq' := (h.tables hpgd').mem q hq
        exact agree_fill hframe.bounds.2.2 (h.owned.dvd hq') (fun hEq => hnew (hEq ▸ hq')) 0).1
    rw [if_neg hne, hmem, ← List.singleton_append, tablesOf_append, hrest,
      (empty_of_fill _ pgd f).1, List.count_singleton]
    simp only [beq_iff_eq]
    omega

/-- The addresses that have a reference count are those of the frames. -/
theorem isFrame_of_getPageRefIdx {idx : ℕ} (h : getPageRefIdx p = .ok idx) : IsFrame p := by
  rw [getPageRefIdx] at h
  split_ifs at h with hzone hal
  have hdvd : p % pageSize = 0 := by simpa [pageIsAligned] using hal
  refine ⟨(p - zone0Begin) / pageSize, ?_, ?_⟩
  · rw [BuddyAllocator.maxOrderNrPages_eq]
    simp only [zone0Begin, zone1Begin, SlobAllocator.pageSize_lit] at *
    omega
  · simp only [zone0Begin, zone1Begin, SlobAllocator.pageSize_lit] at *
    omega

/-- `map` returns for pages with a reference count only. -/
theorem isFrame_of_map (hcall : VMMap.map fuel pgd v p attr s = .ok s') : IsFrame p := by
  obtain ⟨⟨pte, s₁⟩, -, hcall⟩ := bind_eq_ok.mp hcall
  cases pte with
  | none => cases hcall
  | some a =>
    dsimp only at hcall
    split_ifs at hcall
    obtain ⟨⟨count, mm⟩, hinc, -⟩ := bind_eq_ok.mp hcall
    obtain ⟨idx, hidx, -⟩ := bind_eq_ok.mp hinc
    exact isFrame_of_getPageRefIdx hidx

theorem Apart.map (h : Apart w) (hpgd : pgd ∈ w.maps)
    (hcall : VMMap.map fuel pgd v p attr w.s = .ok s') : Apart { w with s := s' } := by
  obtain ⟨fresh, hplaced⟩ := ensures_map_placed h.owned (h.tables hpgd) (isFrame_of_map hcall) _ hcall
  refine h.grow _ hplaced.pages fun f => ?_
  have hmaps : w.maps.Perm ([pgd] ++ w.maps.erase pgd) := List.perm_cons_erase hpgd
  have hrest : tablesOf (w.maps.erase pgd) s'.mem f = tablesOf (w.maps.erase pgd) w.s.mem f := by
    refine (accounts_congr fun pgd' hpgd' q hq => ?_).1
    have hlive := (h.tables (List.mem_of_mem_erase hpgd')).mem q hq
    refine hplaced.agree q (h.owned.dvd hlive) ?_ fun hin =>
      List.disjoint_of_nodup_append hplaced.pages.nodup hin hlive
    -- A page table of another map is none of this one.
    have hle := occupies_le_tablesOf (m := w.s.mem) (f := q) hpgd'
    have hone := h.once q
    rw [tablesOf_perm hmaps, tablesOf_append, tablesOf_singleton] at hone
    omega
  dsimp only
  rw [tablesOf_perm hmaps, tablesOf_perm hmaps, tablesOf_append, tablesOf_append, hrest,
    tablesOf_singleton, tablesOf_singleton, hplaced.occupies]
  omega

theorem Apart.step (h : Apart w) (hstep : Mapping ok w w') : Apart w' := by
  cases hstep with
  | construct fuel hcall => exact h.construct hcall
  | map fuel hpgd _ hcall => exact h.map hpgd hcall
  | manage hcall hkeep =>
    refine ⟨⟨(tracked_step h.owned.mm hcall).1, rfl⟩, h.once, fun f hf => ?_⟩
    obtain ⟨n, hn, hpos⟩ := List.exists_mem_ne_zero_of_sum_ne_zero hf.ne'
    obtain ⟨pgd, hpgd, rfl⟩ := List.mem_map.mp hn
    exact hkeep pgd hpgd f (Nat.pos_of_ne_zero hpos)
  | write hagree =>
    have htables := fun f => (accounts_congr (f := f) hagree).1
    exact ⟨⟨h.owned.mm, h.owned.live⟩, fun f => (htables f).trans_le (h.once f),
      fun f hf => h.live f ((htables f).symm ▸ hf)⟩

theorem apart_of_run {next : ℕ → Option ℕ} {index prevChunkSize : ℕ → ℤ} {mem : Mem}
    (h : Run (Mapping ok) (World.init next index prevChunkSize mem) w) : Apart w :=
  h.invariant (apart_init next index prevChunkSize mem) fun _ _ happ hstep => happ.step hstep

/-! ### Translations -/

/-- **`map` extends the map by one page.** In every run, a call for a page that is not mapped
returns if there is memory for the page tables. Then `get_physical_address` leads from each
address of the page to the address at the same offset in the frame, and the descriptors of
the pages that were mapped are what they were. -/
theorem map_translates {next : ℕ → Option ℕ} {index prevChunkSize : ℕ → ℤ} {mem : Mem}
    (hrun : Run (Mapping fun _ => True) (World.init next index prevChunkSize mem) w) (hpgd : pgd ∈ w.maps)
    (hv : v % pageSize = 0) (hlook : look 3 pgd w.s.mem (pathOf v) = none) (hp : IsFrame p)
    (hattr : attr &&& pdPageMask = 0) :
    (Plenty fuel 3 w.s.mm → ∃ s', VMMap.map fuel pgd v p attr w.s = .ok s') ∧
      ∀ s', VMMap.map fuel pgd v p attr w.s = .ok s' →
        (∀ off < pageSize, ∀ fuel', getPhysicalAddress fuel' pgd (v + off) s' = .ok (p + off)) ∧
          ∀ u e, look 3 pgd w.s.mem (pathOf u) = some e →
            look 3 pgd s'.mem (pathOf u) = some e := by
  have happ := apart_of_run hrun
  refine ⟨fun hplenty => ?_, fun s' hcall => ?_⟩
  · obtain ⟨s', hcall, -⟩ :=
      exists_map (n := 0) happ.owned (happ.tables hpgd) hp attr hlook hplenty
    exact ⟨s', hcall⟩
  · obtain ⟨fresh, hplaced⟩ := ensures_map_placed happ.owned (happ.tables hpgd) hp _ hcall
    refine ⟨fun off hoff fuel' => ?_, fun u e hu => ?_⟩
    · obtain ⟨a, hslot, hread⟩ := hplaced.read
      have hpos : 0 < pageSize := by decide
      have hpath : pathOf (v + off) = pathOf v := by
        obtain ⟨k, rfl⟩ := Nat.dvd_of_mod_eq_zero hv
        refine pathOf_congr ?_
        rw [Nat.mul_add_div hpos, Nat.mul_div_cancel_left k hpos, Nat.div_eq_of_lt hoff]
        rfl
      have hoffset : pageOffset (v + off) = off := by
        rw [pageOffset, Nat.add_mod, hv, Nat.zero_add, Nat.mod_mod, Nat.mod_eq_of_lt hoff]
      rw [← hpath] at hslot
      rw [getPhysicalAddress_of_slot hslot, hread, frame_descriptor hp (makeCow_mask hattr),
        toSize_frame hp, hoffset]
    · have hne : pathOf u ≠ pathOf v := fun hEq => by
        rw [hEq, hlook] at hu
        cases hu
      rw [hplaced.look, Function.update_of_ne hne, hu]

/-- The rest of the kernel obtains a page. -/
theorem Apart.mapping_getFreePage {mm : MemoryManager.State} (h : Apart w)
    (hpage : MemoryManager.getFreePage fuel true w.s.mm = .ok (p, mm)) (hp : p ≠ 0)
    (hphys : toPhysical p = p) :
    Mapping ok w { w with s := { w.s with mm := mm, live := p :: w.s.live } } := by
  have hmanage : MemoryManager.Step (fun _ _ _ _ => True) (w.s.mm, w.s.live, w.chunks) _ :=
    .getFreePage fuel true trivial hpage
  rw [hphys, if_neg hp] at hmanage
  exact .manage hmanage fun pgd hpgd q hq => List.mem_cons_of_mem p ((h.tables hpgd).mem q hq)

/-- The steps that make a map with one page. -/
theorem mapping_onePage {mm : MemoryManager.State} {s₁ s₂ : State}
    (h : onePage attr = .ok (pgd, p, s₁, mm, s₂)) (hpgd : pgd ≠ 0) (hp : p ≠ 0)
    (hphys : toPhysical p = p) (hattr : ok attr) : Run (Mapping ok) World.zero ⟨s₂, [], [], [pgd]⟩ := by
  obtain ⟨⟨pgd', s₁'⟩, h₁, h⟩ := bind_eq_ok.mp h
  obtain ⟨⟨p', mm'⟩, h₂, h⟩ := bind_eq_ok.mp h
  obtain ⟨s₂', h₃, h⟩ := bind_eq_ok.mp h
  cases pure_eq_ok.mp h
  have hstep : Mapping ok World.zero _ := .construct 20 h₁
  rw [if_neg hpgd] at hstep
  have hrun₁ : Run (Mapping ok) World.zero ⟨s₁, [], [], [pgd]⟩ := Relation.ReflTransGen.single hstep
  have hrun₂ := hrun₁.tail ((apart_of_run hrun₁).mapping_getFreePage h₂ hp hphys)
  exact hrun₂.tail (.map 20 (List.mem_singleton_self pgd) hattr h₃)

/-- A page is mapped next to another one. -/
theorem map_translates_second_page : ∃ w pgd p s', Run (Mapping fun _ => True) World.zero w ∧
    pgd ∈ w.maps ∧ look 3 pgd w.s.mem (pathOf 0x1000) = none ∧
      VMMap.map 20 pgd 0x1000 p userPageRX w.s = .ok s' ∧
      getPhysicalAddress 20 pgd 0x1008 s' = .ok (p + 8) := by
  have hcheck : check (fun r => decide (r.1.1 ≠ 0 ∧ r.1.2.1 ≠ 0 ∧ toPhysical r.1.2.1 = r.1.2.1 ∧
      look 3 r.1.1 r.1.2.2.2.2.mem (pathOf 0x1000) = none))
      (do let r ← onePage userPageRW
          let s' ← VMMap.map 20 r.1 0x1000 r.2.1 userPageRX r.2.2.2.2
          return (r, s')) = true := by decide +kernel
  obtain ⟨⟨⟨pgd, p, s₁, mm, s₂⟩, s'⟩, hrun, hr⟩ := exists_ok_of_check hcheck
  obtain ⟨hpgd, hp, hphys, hlook⟩ := of_decide_eq_true hr
  obtain ⟨r, hone, hrun⟩ := bind_eq_ok.mp hrun
  obtain ⟨s'', hmap, hrun⟩ := bind_eq_ok.mp hrun
  cases pure_eq_ok.mp hrun
  have hrun : Run (Mapping fun _ => True) World.zero _ :=
    mapping_onePage hone hpgd hp hphys trivial
  have hmaps : pgd ∈ [pgd] := List.mem_singleton_self pgd
  have hmask : userPageRX &&& pdPageMask = 0 := by decide
  obtain ⟨-, htranslates⟩ := map_translates hrun hmaps (by decide) hlook (isFrame_of_map hmap) hmask
  exact ⟨_, pgd, p, s', hrun, hmaps, hlook, hmap, (htranslates s' hmap).1 8 (by decide) 20⟩

/-- **A page without a reference count**: the descriptor is written, and then the kernel
stops. -/
theorem map_outside_panics : ∃ pgd s, construct 20 World.zero.s = .ok (pgd, s) ∧ pgd ≠ 0 ∧
    look 3 pgd s.mem (pathOf 0x1000) = none ∧ 0x20000000 % pageSize = 0 ∧ 0x20000000 < 2 ^ 47 ∧
      VMMap.map 20 pgd 0x1000 0x20000000 userPageRW s =
        .error (.panic "get_page_ref_idx(): p_addr (0x%p) out of bound\n") := by
  have hcheck : check (fun r => decide (r.1 ≠ 0 ∧ look 3 r.1 r.2.mem (pathOf 0x1000) = none ∧
      stops (.panic "get_page_ref_idx(): p_addr (0x%p) out of bound\n")
        (VMMap.map 20 r.1 0x1000 0x20000000 userPageRW r.2) = true))
      (construct 20 World.zero.s) = true := by decide +kernel
  obtain ⟨⟨pgd, s⟩, hcall, hr⟩ := exists_ok_of_check hcheck
  obtain ⟨hpgd, hlook, hstop⟩ := of_decide_eq_true hr
  exact ⟨pgd, s, hcall, hpgd, hlook, by decide, by decide, eq_error_of_stops hstop⟩

end Valkyrie.VMMap
