import Valkyrie.Mm.VirtualMemoryMap.Translate

/-!
# Addresses that are not mapped

`get_physical_address` returns a null pointer when there is no page table for the address. When
there is one, it takes the last descriptor without asking whether it is valid. The descriptor of
a page that is not mapped is zero, and so the result is the offset of the address in its page: a
null pointer for the first byte of a page only. `Task::v2p` is this function, and the system
calls take what it returns for the address of their buffers.

So which addresses have no translation depends on the pages around them. The last page tables
cover 2 MiB each, and there is one exactly where some page is mapped: it is created for a page,
and no page is ever taken out of a table. `Valkyrie.VMMap.Typed` is the invariant behind this.
It gives each page table its number of levels, without asking that no page serves as a page
table twice, and so it holds for `copy_from` onto any map, the map itself included.
-/

namespace Valkyrie.VMMap

open Exec MemoryManager Function

variable {m : Mem} {s s' : State} {w w' : World} {fuel pgd v p q a d k pt : ℕ} {i j : Fin 512}
  {attr e : Descriptor} {chunks chunks' : List (ℕ × ℕ)} {T T' : ℕ → Option ℕ} {ex ex' : ℕ → Prop}

/-! ### Levels of page tables -/

/-- A page table with a valid descriptor. -/
def Used (m : Mem) (q : ℕ) : Prop := ∃ i, isValid (entry m q i) = true

/-- **Page tables with their levels.** `T` has the number of levels still to go for the pages
that serve as page tables. A valid descriptor leads one level down. In the last level a
descriptor that is not valid is zero, and each table is used, apart from those that are
excepted. -/
structure Typed (T : ℕ → Option ℕ) (ex : ℕ → Prop) (chunks : List (ℕ × ℕ)) (s : State) : Prop where
  pages : Pages s s.live chunks
  live : ∀ {q d}, T q = some d → q ∈ s.live
  below : ∀ {q d i}, T q = some (d + 1) → isValid (entry s.mem q i) = true →
    T (frame (entry s.mem q i)) = some d
  clear : ∀ {q i}, T q = some 0 → isValid (entry s.mem q i) = false → entry s.mem q i = 0
  used : ∀ {q}, T q = some 0 → ¬ex q → Used s.mem q

/-- More pages have a level. -/
def Extends (T T' : ℕ → Option ℕ) : Prop := ∀ q d, T q = some d → T' q = some d

theorem Extends.trans {T'' : ℕ → Option ℕ} (h : Extends T T') (h' : Extends T' T'') :
    Extends T T'' := fun q d hq => h' q d (h q d hq)

theorem Typed.mono (h : Typed T ex chunks s) (hex : ∀ q, ex q → ex' q) : Typed T ex' chunks s :=
  ⟨h.pages, h.live, h.below, h.clear, fun hq hnot => h.used hq fun hin => hnot (hex _ hin)⟩

theorem Typed.dvd (h : Typed T ex chunks s) (hq : T q = some d) : pageSize ∣ q :=
  h.pages.dvd (h.live hq)

/-- **Whatever leaves the page tables alone** leaves their levels alone. -/
theorem Typed.congr (h : Typed T ex chunks s) (hpages : Pages s' s'.live chunks')
    (hlive : ∀ q d, T q = some d → q ∈ s'.live)
    (hagree : ∀ q d, T q = some d → Agree s.mem s'.mem q) : Typed T ex chunks' s' where
  pages := hpages
  live hq := hlive _ _ hq
  below {q d i} hq hv := by
    rw [entry_congr (hagree q _ hq)] at hv ⊢
    exact h.below hq hv
  clear {q i} hq hv := by
    rw [entry_congr (hagree q _ hq)] at hv ⊢
    exact h.clear hq hv
  used {q} hq hnot := by
    obtain ⟨i, hi⟩ := h.used hq hnot
    exact ⟨i, by rwa [entry_congr (hagree q _ hq)]⟩

theorem Typed.addRef (h : Typed T ex chunks s) (p : ℕ) (k : ℤ) :
    Typed T ex chunks (s.addRef p k) :=
  h.congr (h.pages.addRef p k) (fun _ _ hq => h.live hq) fun _ _ _ => Agree.rfl

/-- **A descriptor is written** into a page table. In the last level it is valid, and else it
leads one level down. -/
theorem Typed.write (h : Typed T ex chunks s) (hq : T q = some k) (hleaf : k = 0 → isValid e = true)
    (hbelow : ∀ d, k = d + 1 → T (frame e) = some d) :
    Typed T (fun q' => ex q' ∧ q' ≠ q) chunks (s.setDescriptor (slot q i) e) := by
  -- The other descriptors are what they were.
  have hother : ∀ {q' d} j, T q' = some d → ¬(q' = q ∧ i = j) →
      entry (s.mem.writeWord (slot q i) e) q' j = entry s.mem q' j := by
    intro q' d j hq' hne
    by_cases hEq : q' = q
    · subst hEq
      exact entry_writeWord_of_ne fun hij => hne ⟨rfl, hij⟩
    · exact entry_congr (agree_writeWord (h.dvd hq) (h.dvd hq') hEq (slot_lt q i) e) j
  refine ⟨h.pages.setDescriptor _ _, h.live, fun {q' d j} hq' hv => ?_, fun {q' j} hq' hv => ?_,
    fun {q'} hq' hnot => ?_⟩
  · change isValid (entry (s.mem.writeWord (slot q i) e) q' j) = true at hv
    change T (frame (entry (s.mem.writeWord (slot q i) e) q' j)) = some d
    by_cases hsame : q' = q ∧ i = j
    · obtain ⟨rfl, rfl⟩ := hsame
      rw [entry_writeWord_self]
      exact hbelow d (Option.some.inj (hq.symm.trans hq'))
    · rw [hother j hq' hsame] at hv ⊢
      exact h.below hq' hv
  · change isValid (entry (s.mem.writeWord (slot q i) e) q' j) = false at hv
    change entry (s.mem.writeWord (slot q i) e) q' j = 0
    by_cases hsame : q' = q ∧ i = j
    · obtain ⟨rfl, rfl⟩ := hsame
      rw [entry_writeWord_self, hleaf (Option.some.inj (hq.symm.trans hq'))] at hv
      cases hv
    · rw [hother j hq' hsame] at hv ⊢
      exact h.clear hq' hv
  · change Used (s.mem.writeWord (slot q i) e) q'
    by_cases hEq : q' = q
    · subst hEq
      refine ⟨i, ?_⟩
      rw [entry_writeWord_self]
      exact hleaf (Option.some.inj (hq.symm.trans hq'))
    · obtain ⟨j, hj⟩ := h.used hq' fun hin => hnot ⟨hin, hEq⟩
      exact ⟨j, by rwa [hother j hq' fun hsame => hEq hsame.1]⟩

/-- A valid descriptor is written into a table of the last level. -/
theorem Typed.leaf (h : Typed T ex chunks s) (hq : T q = some 0) (he : isValid e = true) :
    Typed T (fun q' => ex q' ∧ q' ≠ q) chunks (s.setDescriptor (slot q i) e) :=
  h.write hq (fun _ => he) fun d hd => absurd hd.symm (Nat.succ_ne_zero d)

/-- **A page of zeros** that is new can be a page table of any level. -/
theorem Typed.fresh (h : Typed T ex chunks s) (d : ℕ) (hp : IsFrame p) (hnew : p ∉ s.live)
    (hpages : Pages s' (p :: s.live) chunks) (hmem : s'.mem = s.mem.fill p pageSize 0) :
    ∃ T', Extends T T' ∧ T p = none ∧ T' p = some d ∧
      Typed T' (fun q => ex q ∨ d = 0 ∧ q = p) chunks s' := by
  have hfresh : T p = none := by
    cases hT : T p with
    | none => rfl
    | some k => exact absurd (h.live hT) hnew
  have hne : ∀ {q k}, T q = some k → q ≠ p := fun hq hEq => by
    rw [hEq, hfresh] at hq
    cases hq
  have hext : ∀ {q k}, T q = some k → update T p (some d) q = some k := fun hq => by
    rwa [update_of_ne (hne hq)]
  have hinv : ∀ {q k}, update T p (some d) q = some k → q = p ∧ k = d ∨ T q = some k := by
    intro q k hq
    by_cases hEq : q = p
    · rw [hEq, update_self] at hq
      exact Or.inl ⟨hEq, (Option.some.inj hq).symm⟩
    · rw [update_of_ne hEq] at hq
      exact Or.inr hq
  -- The new table has no entries, and the old ones have theirs.
  have hzero : ∀ j, entry s'.mem p j = 0 := fun j => by rw [hmem, entry_fill_zero]
  have hold : ∀ {q k} j, T q = some k → entry s'.mem q j = entry s.mem q j := fun j hq => by
    rw [hmem]
    exact entry_congr (agree_fill hp.bounds.2.2 (h.dvd hq) (hne hq) 0) j
  refine ⟨update T p (some d), fun q k hq => hext hq, hfresh, update_self .., ?_⟩
  refine ⟨hpages.self, fun {q k} hq => ?_, fun {q k j} hq hv => ?_, fun {q j} hq hv => ?_,
    fun {q} hq hnot => ?_⟩
  · rw [hpages.live]
    rcases hinv hq with ⟨rfl, -⟩ | hq
    · exact List.mem_cons_self
    · exact List.mem_cons_of_mem p (h.live hq)
  · rcases hinv hq with ⟨rfl, -⟩ | hq
    · rw [hzero] at hv
      exact absurd hv (by decide)
    · rw [hold j hq] at hv ⊢
      exact hext (h.below hq hv)
  · rcases hinv hq with ⟨rfl, -⟩ | hq
    · exact hzero j
    · rw [hold j hq] at hv ⊢
      exact h.clear hq hv
  · rcases hinv hq with ⟨rfl, rfl⟩ | hq
    · exact absurd (Or.inr ⟨rfl, rfl⟩) hnot
    · obtain ⟨j, hj⟩ := h.used hq fun hin => hnot (Or.inl hin)
      exact ⟨j, by rwa [hold j hq]⟩

/-- **A new page table** has the level that its descriptor says. In the last level it is not used
yet. -/
theorem Typed.newTable (h : Typed T ex chunks s) (hpt : T pt = some (d + 1)) :
    Ensures (newTable fuel (slot pt i) s) fun r => ∃ T', Extends T T' ∧ T r.1 = none ∧
      T' r.1 = some d ∧ Typed T' (fun q => ex q ∨ d = 0 ∧ q = r.1) chunks r.2 := by
  refine h.pages.getFreePage.bind ?_
  rintro ⟨p, s₁⟩ ⟨hmem, -, hpage⟩
  refine ensures_bind fun s₂ hclear => ?_
  dsimp only at hmem hpage hclear
  rw [clearPage] at hclear
  split_ifs at hclear with hn
  obtain rfl := Except.ok.inj hclear
  obtain ⟨hp, hnew, hpages⟩ := hpage.resolve_left fun hnull => hn hnull.1
  have hclean : Pages { s₁ with mem := s₁.mem.fill p pageSize 0 } (p :: s.live) chunks :=
    ⟨hpages.mm, hpages.live⟩
  obtain ⟨T', hext, hfresh, hTp, h'⟩ := h.fresh d hp hnew hclean
    (congrArg (fun mem => mem.fill p pageSize 0) hmem)
  refine ensures_pure ⟨T', hext, hfresh, hTp, (h'.write (hext _ _ hpt) ?_ ?_).mono fun _ hex => hex.1⟩
  · exact fun hd => absurd hd (Nat.succ_ne_zero d)
  · intro k hk
    obtain rfl := Nat.succ.inj hk
    rwa [frame_table hp]

/-! ### The calls -/

/-- **`walk` that creates tables** ends in the last level. The table there may be new. -/
theorem ensures_walkFrom_typed (d : ℕ) : ∀ {pt : ℕ} {path : Path d} {s : State} {T : ℕ → Option ℕ},
    Typed T (fun q => d = 0 ∧ q = pt) chunks s → T pt = some d →
      Ensures (walkFrom fuel true d path pt s) fun r => ∃ T' q i, Extends T T' ∧
        r.1 = some (slot q i) ∧ T' q = some 0 ∧ Typed T' (fun q' => q' = q) chunks r.2 := by
  induction d with
  | zero =>
    intro pt i s T h hpt
    exact ensures_pure ⟨T, pt, i, fun _ _ hq => hq, rfl, hpt, h.mono fun _ hex => hex.2⟩
  | succ d ih =>
    rintro pt ⟨i, path⟩ s T h hpt
    rw [walkFrom]
    dsimp only
    split_ifs with hv hcreate
    · exact ih (h.mono fun _ hex => absurd hex.1 (Nat.succ_ne_zero d)) (h.below hpt hv)
    · refine (h.newTable hpt).bind ?_
      rintro ⟨p, s₁⟩ ⟨T₁, hext₁, -, hp, h₁⟩
      have h₁' : Typed T₁ (fun q => d = 0 ∧ q = p) chunks s₁ :=
        h₁.mono fun q hex => hex.resolve_left fun hex => Nat.succ_ne_zero d hex.1
      refine (ih h₁' hp).mono ?_
      rintro r ⟨T', q, j, hext, hr, hq, htyped⟩
      exact ⟨T', q, j, hext₁.trans hext, hr, hq, htyped⟩
    · exact absurd rfl hcreate

/-- No table is excepted. -/
abbrev Complete (T : ℕ → Option ℕ) (chunks : List (ℕ × ℕ)) (s : State) : Prop :=
  Typed T (fun _ => False) chunks s

theorem Complete.map (h : Complete T chunks s) (hpgd : T pgd = some 3) (hattr : IsAttr attr) :
    Ensures (VMMap.map fuel pgd v p attr s) fun s' => ∃ T', Extends T T' ∧ Complete T' chunks s' := by
  intro s' hcall
  have hp := isFrame_of_map hcall
  obtain ⟨⟨pte, s₁⟩, hwalk, hcall⟩ := bind_eq_ok.mp hcall
  obtain ⟨T', q, i, hext, hpte, hq, h₁⟩ :=
    ensures_walkFrom_typed 3 (h.mono fun _ hex => hex.elim) hpgd _ hwalk
  obtain rfl : pte = some (slot q i) := hpte
  dsimp only at hcall
  split_ifs at hcall
  rw [incPageRefCount_eq hp] at hcall
  cases Except.ok.inj hcall
  have hvalid : isValid (descriptor p (makeCow attr)) = true := by
    rw [isValid_descriptor hp, (isAttr_makeCow hattr).valid]
  exact ⟨T', hext, ((h₁.leaf hq hvalid).mono fun _ hex => hex.2 hex.1).addRef p 1⟩

/-- A path that leads to a descriptor ends in the last level. -/
theorem Typed.slotAt (h : Typed T ex chunks s) (d : ℕ) : ∀ {pt : ℕ} {path : Path d}, T pt = some d →
    VMMap.slotAt d pt s.mem path = some a → ∃ q i, T q = some 0 ∧ a = slot q i := by
  induction d with
  | zero =>
    intro pt i hpt ha
    exact ⟨pt, i, hpt, (Option.some.inj ha).symm⟩
  | succ d ih =>
    rintro pt ⟨i, path⟩ hpt ha
    rw [VMMap.slotAt] at ha
    split_ifs at ha with hv
    exact ih (h.below hpt hv) ha

/-- `copy_page_frame` returns only where a page is mapped. It leaves a valid descriptor there. -/
theorem Complete.copyPageFrame (h : Complete T chunks s) (hpgd : T pgd = some 3) :
    Ensures (VMMap.copyPageFrame fuel pgd v s) (Complete T chunks) := by
  rw [VMMap.copyPageFrame, walk, walkFrom_false, ok_bind]
  dsimp only
  cases hslot : VMMap.slotAt 3 pgd s.mem (pathOf v) with
  | none => exact ensures_error _
  | some a =>
    obtain ⟨q, i, hq, rfl⟩ := h.slotAt 3 hpgd hslot
    dsimp only
    refine ensures_bind fun count hcount => ?_
    obtain ⟨idx, hidx, -⟩ := bind_eq_ok.mp hcount
    have hframe := isFrame_of_getPageRefIdx hidx
    -- A descriptor that is not valid is zero, and the first page has no reference count.
    have hvalid : isValid (entry s.mem q i) = true := by
      by_contra hinvalid
      have hzero := h.clear hq (Bool.eq_false_iff.mpr hinvalid)
      rw [entry] at hzero
      rw [hzero] at hframe
      exact not_isFrame_zero hframe
    have hwritten : ∀ {s' : State} {e : Descriptor}, Complete T chunks s' → isValid e = true →
        Complete T chunks (s'.setDescriptor (slot q i) e) := fun h' he =>
      (h'.leaf hq he).mono fun _ hex => hex.1
    split_ifs with hone
    · exact ensures_pure (hwritten h ((isValid_unshare (e := entry s.mem q i)).trans hvalid))
    · refine h.pages.getFreePage.bind ?_
      rintro ⟨n, s₁⟩ hpage
      dsimp only at hpage ⊢
      obtain ⟨hmem, -, hpage⟩ := hpage
      refine ensures_bind fun s₂ hcopy => ?_
      rw [copyPage] at hcopy
      split_ifs at hcopy with hn
      obtain rfl := Except.ok.inj hcopy
      obtain ⟨hnew, hfresh, hpages₁⟩ := hpage.resolve_left fun hnull => hn hnull.1
      have h₂ : Complete T chunks
          ⟨s₁.mm, s₁.mem.copy n (frame (s.mem.readWord (slot q i))) pageSize, s₁.live⟩ := by
        refine h.congr ⟨hpages₁.self.mm, rfl⟩ (fun q' d hq' => ?_) fun q' d hq' => ?_
        · rw [hpages₁.live]
          exact List.mem_cons_of_mem n (h.live hq')
        · rw [← hmem]
          exact agree_copy hnew.bounds.2.2 (h.dvd hq') (fun hEq => hfresh (hEq ▸ h.live hq')) _
      rw [decPageRefCount_eq hframe, ok_bind]
      dsimp only
      rw [incPageRefCount_eq hnew]
      have hcopied := (isValid_ownCopy (e := entry s.mem q i) hnew).trans hvalid
      exact ensures_ok (((hwritten h₂ hcopied).addRef _ (-1)).addRef n 1)

/-- **`dfs_copy_page_tables`** fills a table of the last level from one that is used. -/
theorem ensures_dfsCopyPageTables_typed (d : ℕ) : ∀ {ptOld ptNew : ℕ} {s : State} {T : ℕ → Option ℕ},
    Typed T (fun q => d = 0 ∧ q = ptNew) chunks s → T ptOld = some d → T ptNew = some d →
      (d = 0 → Used s.mem ptOld) → Ensures (dfsCopyPageTables fuel d ptOld ptNew s) fun s' =>
        ∃ T', Extends T T' ∧ Complete T' chunks s' := by
  induction d with
  | zero =>
    intro ptOld ptNew s T h hold hnew hused
    -- As long as the new table is not used, a valid descriptor is still to come.
    let I : List (Fin 512) → State → Prop := fun l a => Complete T chunks a ∨
      Typed T (fun q => q = ptNew) chunks a ∧ ∃ j ∈ l, isValid (entry a.mem ptOld j) = true
    have hbody : ∀ i l a, I (i :: l) a → Ensures (copyEntry fuel none ptOld ptNew a i) (I l) := by
      intro i l a hI
      rw [copyEntry]
      dsimp only
      split_ifs with hv
      · intro a' hcall
        have hframe : IsFrame (frame (entry a.mem ptOld i)) := by
          obtain ⟨⟨count, mm⟩, hinc, -⟩ := bind_eq_ok.mp hcall
          obtain ⟨idx, hidx, -⟩ := bind_eq_ok.mp hinc
          exact isFrame_of_getPageRefIdx hidx
        rw [incPageRefCount_eq hframe] at hcall
        cases Except.ok.inj hcall
        have hshare := isValid_share hframe
        have h₀ : Typed T (fun q => q = ptNew) chunks a :=
          hI.elim (fun hc => hc.mono fun _ hex => hex.elim) fun hex => hex.1
        refine Or.inl (Typed.addRef ?_ _ _)
        refine ((h₀.leaf hnew hshare).leaf hold hshare).mono ?_
        exact fun _ hex => hex.1.2 hex.1.1
      · rcases hI with hc | ⟨htyped, j, hj, hjv⟩
        · exact ensures_pure (Or.inl hc)
        refine ensures_pure (Or.inr ⟨htyped, j, (List.mem_cons.mp hj).resolve_left fun hEq => ?_, hjv⟩)
        rw [hEq] at hjv
        exact hv hjv
    obtain ⟨j, hj⟩ := hused rfl
    have hstart : I (List.finRange 512) s :=
      Or.inr ⟨h.mono fun _ hex => hex.2, j, List.mem_finRange j, hj⟩
    refine (ensures_foldlM hbody _ s hstart).mono ?_
    rintro s' (hc | ⟨-, j, hj, -⟩)
    · exact ⟨T, fun _ _ hq => hq, hc⟩
    · cases hj
  | succ d ih =>
    intro ptOld ptNew s T h hold hnew _
    let I : List (Fin 512) → State → Prop := fun _ a => ∃ T', Extends T T' ∧ Complete T' chunks a
    have hbody : ∀ i l a, I (i :: l) a →
        Ensures (copyEntry fuel (some (dfsCopyPageTables fuel d)) ptOld ptNew a i) (I l) := by
      rintro i l a ⟨T₁, hext₁, h₁⟩
      rw [copyEntry]
      dsimp only
      split_ifs with hv
      · have hchild := h₁.below (hext₁ _ _ hold) hv
        refine (h₁.newTable (hext₁ _ _ hnew)).bind ?_
        rintro ⟨p, s₂⟩ ⟨T₂, hext₂, hfresh, hp, h₂⟩
        dsimp only at hfresh hp h₂ ⊢
        have h₂' : Typed T₂ (fun q => d = 0 ∧ q = p) chunks s₂ :=
          h₂.mono fun q hex => hex.resolve_left False.elim
        refine (ih h₂' (hext₂ _ _ hchild) hp fun hd => ?_).mono ?_
        · subst hd
          refine h₂'.used (hext₂ _ _ hchild) fun hex => ?_
          rw [hex.2, hfresh] at hchild
          cases hchild
        · rintro s₃ ⟨T₃, hext₃, h₃⟩
          exact ⟨T₃, (hext₁.trans hext₂).trans hext₃, h₃⟩
      · exact ensures_pure ⟨T₁, hext₁, h₁⟩
    exact ensures_foldlM hbody _ s
      ⟨T, fun _ _ hq => hq, h.mono fun _ hex => Nat.succ_ne_zero d hex.1⟩

/-! ### Runs -/

/-- **The steps that build maps**, with copies: calls of `map`, `copy_from` and
`copy_page_frame`, and the rest of the kernel, which leaves the page tables alone. -/
inductive Building : World → World → Prop
  | mapping {w w' : World} (h : Mapping IsAttr w w') : Building w w'
  | copyFrom {w : World} {s' : State} {pgd r : ℕ} (fuel : ℕ) (hpgd : pgd ∈ w.maps) (hr : r ∈ w.maps)
      (h : copyFrom fuel pgd r w.s = .ok s') : Building w { w with s := s' }
  | copyPageFrame {w : World} {s' : State} {pgd v : ℕ} (fuel : ℕ) (hpgd : pgd ∈ w.maps)
      (h : copyPageFrame fuel pgd v w.s = .ok s') : Building w { w with s := s' }

/-- **The page tables of all maps** have levels. -/
structure Built (T : ℕ → Option ℕ) (w : World) : Prop where
  complete : Complete T w.chunks w.s
  maps : ∀ pgd ∈ w.maps, T pgd = some 3

/-- A table below a table of a tree is in the tree. -/
theorem Typed.occupies_below (h : Typed T ex chunks s) (d : ℕ) : ∀ {pt : ℕ}, T pt = some d →
    0 < occupies q d pt s.mem → T q = some (k + 1) → isValid (entry s.mem q i) = true →
      0 < occupies (frame (entry s.mem q i)) d pt s.mem := by
  induction d with
  | zero =>
    intro pt hpt hocc hq
    rw [occupies] at hocc
    split_ifs at hocc with hEq
    · rw [hEq, hq] at hpt
      cases hpt
    · exact absurd hocc (lt_irrefl 0)
  | succ d ih =>
    intro pt hpt hocc hq hv
    by_cases hEq : pt = q
    · subst hEq
      refine lt_of_lt_of_le ?_ (branchOccupies_le i)
      rw [branchOccupies_of_valid hv]
      exact occupies_self_pos d _ s.mem
    · rw [occupies_succ, if_neg hEq, Nat.zero_add] at hocc
      obtain ⟨j, -, hj⟩ := Finset.exists_ne_zero_of_sum_ne_zero hocc.ne'
      rw [branchOccupies] at hj
      split_ifs at hj with hjv
      · have hbelow := ih (h.below hpt hjv) (Nat.pos_of_ne_zero hj) hq hv
        refine lt_of_lt_of_le ?_ (branchOccupies_le j)
        rwa [branchOccupies_of_valid hjv]
      · exact absurd rfl hj

open Classical in
/-- Only the page tables of the maps that are there matter. -/
theorem Built.restrict (h : Built T w) : ∃ T', Built T' w ∧
    ∀ q d, T' q = some d → ∃ pgd ∈ w.maps, 0 < occupies q 3 pgd w.s.mem := by
  let T' : ℕ → Option ℕ := fun q =>
    if ∃ pgd ∈ w.maps, 0 < occupies q 3 pgd w.s.mem then T q else none
  have hof : ∀ {q d}, T' q = some d →
      T q = some d ∧ ∃ pgd ∈ w.maps, 0 < occupies q 3 pgd w.s.mem := by
    intro q d hq
    dsimp only [T'] at hq
    split_ifs at hq with hin
    exact ⟨hq, hin⟩
  have hto : ∀ {q d pgd}, T q = some d → pgd ∈ w.maps → 0 < occupies q 3 pgd w.s.mem →
      T' q = some d := fun hq hpgd hocc => (if_pos ⟨_, hpgd, hocc⟩).trans hq
  refine ⟨T', ⟨⟨h.complete.pages, fun hq => h.complete.live (hof hq).1, fun {q d i} hq hv => ?_,
    fun hq hv => h.complete.clear (hof hq).1 hv, fun hq hnot => h.complete.used (hof hq).1 hnot⟩,
    fun pgd hpgd => ?_⟩, fun q d hq => (hof hq).2⟩
  · obtain ⟨hq, pgd, hpgd, hocc⟩ := hof hq
    exact hto (h.complete.below hq hv) hpgd
      (h.complete.occupies_below 3 (h.maps pgd hpgd) hocc hq hv)
  · exact hto (h.maps pgd hpgd) hpgd (occupies_self_pos 3 pgd _)

/-- A step that leaves the page tables alone. -/
theorem Built.congr (h : Built T w) (hmaps : w'.maps = w.maps)
    (hpages : Pages w'.s w'.s.live w'.chunks)
    (hkeep : ∀ pgd ∈ w.maps, ∀ q ∈ w.s.live, 0 < occupies q 3 pgd w.s.mem →
      q ∈ w'.s.live ∧ Agree w.s.mem w'.s.mem q) : ∃ T', Built T' w' := by
  obtain ⟨T', h', hreached⟩ := h.restrict
  have hall : ∀ q d, T' q = some d → q ∈ w'.s.live ∧ Agree w.s.mem w'.s.mem q := fun q d hq => by
    obtain ⟨pgd, hpgd, hocc⟩ := hreached q d hq
    exact hkeep pgd hpgd q (h'.complete.live hq) hocc
  exact ⟨T', h'.complete.congr hpages (fun q d hq => (hall q d hq).1) fun q d hq => (hall q d hq).2,
    hmaps ▸ h'.maps⟩

theorem Built.construct (h : Built T w) (hcall : construct fuel w.s = .ok (pgd, s')) :
    ∃ T', Built T' { w with
                     s := s'
                     maps := if pgd = 0 then w.maps else pgd :: w.maps } := by
  obtain ⟨-, hpage⟩ := ensures_construct h.complete.pages _ hcall
  rcases hpage with ⟨rfl, howned, hmem⟩ | ⟨hframe, hnew, howned, hmem⟩
  · refine ⟨T, h.complete.congr howned.self (fun q d hq => ?_) fun q d _ => ?_, ?_⟩
    · rw [howned.live]
      exact h.complete.live hq
    · rw [hmem]
      exact Agree.rfl
    · rw [if_pos rfl]
      exact h.maps
  · have hne : pgd ≠ 0 := fun hEq => not_isFrame_zero (hEq ▸ hframe)
    obtain ⟨T', hext, -, hpgd, h'⟩ := h.complete.fresh 3 hframe hnew howned hmem
    refine ⟨T', h'.mono fun _ hex => hex.elim id fun hex => absurd hex.1 (by decide), ?_⟩
    rw [if_neg hne]
    intro pgd' hpgd'
    rcases List.mem_cons.mp hpgd' with rfl | hpgd'
    · exact hpgd
    · exact hext _ _ (h.maps pgd' hpgd')

theorem Built.step (h : Built T w) (hstep : Building w w') : ∃ T', Built T' w' := by
  cases hstep with
  | mapping hstep =>
    cases hstep with
    | construct fuel hcall => exact h.construct hcall
    | map fuel hpgd hattr hcall =>
      obtain ⟨T', hext, hcomplete⟩ := h.complete.map (h.maps _ hpgd) hattr _ hcall
      exact ⟨T', hcomplete, fun pgd hpgd => hext _ _ (h.maps pgd hpgd)⟩
    | manage hcall hkeep =>
      refine h.congr rfl ⟨(tracked_step h.complete.pages.mm hcall).1, rfl⟩ fun pgd hpgd q _ hq => ?_
      exact ⟨hkeep pgd hpgd q hq, Agree.rfl⟩
    | write hagree =>
      refine h.congr rfl ⟨h.complete.pages.mm, rfl⟩ fun pgd hpgd q hlive hq => ?_
      exact ⟨hlive, hagree pgd hpgd q hq⟩
  | copyFrom fuel hpgd hr hcall =>
    obtain ⟨T', hext, hcomplete⟩ := ensures_dfsCopyPageTables_typed 3
      (h.complete.mono fun _ hex => hex.elim) (h.maps _ hr) (h.maps _ hpgd)
      (fun hd => absurd hd (by decide)) _ hcall
    exact ⟨T', hcomplete, fun pgd hpgd => hext _ _ (h.maps pgd hpgd)⟩
  | copyPageFrame fuel hpgd hcall =>
    exact ⟨T, h.complete.copyPageFrame (h.maps _ hpgd) _ hcall, h.maps⟩

theorem built_of_run {next : ℕ → Option ℕ} {index prevChunkSize : ℕ → ℤ} {mem : Mem}
    (h : Run Building (World.init next index prevChunkSize mem) w) : ∃ T, Built T w := by
  refine h.invariant (P := fun w => ∃ T, Built T w) ⟨fun _ => none, ⟨?_, ?_⟩⟩ ?_
  · exact ⟨⟨tracked_init next index prevChunkSize, rfl⟩, nofun, nofun, nofun, nofun⟩
  · exact fun pgd hpgd => absurd hpgd (by simp [World.init])
  · exact fun w w' ⟨T, hbuilt⟩ hstep => hbuilt.step hstep

/-! ### Regions -/

/-- The addresses that one page table of the last level is for have the first three indices in
common. -/
theorem pathOf_region {u : ℕ} (h : u / 2 ^ 21 = v / 2 ^ 21) :
    pathOf u = (pgdIndex v, pudIndex v, pmdIndex v, pteIndex u) := by
  have hshift : ∀ n, 21 ≤ n → u >>> n = v >>> n := by
    intro n hn
    obtain ⟨l, rfl⟩ := Nat.exists_eq_add_of_le hn
    rw [Nat.shiftRight_eq_div_pow, Nat.shiftRight_eq_div_pow, Nat.pow_add,
      ← Nat.div_div_eq_div_mul, ← Nat.div_div_eq_div_mul, h]
  simp only [pathOf, pgdIndex, pudIndex, pmdIndex, hshift 39 (by decide), hshift 30 (by decide),
    hshift 21 (by decide)]

/-- There is an address for each descriptor of a page table of the last level. -/
theorem exists_pteIndex (v : ℕ) (j : Fin 512) : ∃ u, u / 2 ^ 21 = v / 2 ^ 21 ∧ pteIndex u = j := by
  have hj := j.isLt
  refine ⟨v / 2 ^ 21 * 2 ^ 21 + j * 2 ^ 12, by omega, ?_⟩
  rw [pteIndex, Fin.ext_iff, Fin.val_ofNat, Nat.shiftRight_eq_div_pow]
  omega

/-- The last page table on a path is the same for all last indices. -/
theorem Typed.slotAt_last (h : Typed T ex chunks s) (hpgd : T pgd = some 3) {i₁ i₂ i₃ i₄ : Fin 512}
    (ha : VMMap.slotAt 3 pgd s.mem (i₁, i₂, i₃, i₄) = some a) : ∃ q, T q = some 0 ∧ a = slot q i₄ ∧
      ∀ j, VMMap.slotAt 3 pgd s.mem (i₁, i₂, i₃, j) = some (slot q j) := by
  rw [VMMap.slotAt] at ha
  split_ifs at ha with h₁
  rw [VMMap.slotAt] at ha
  split_ifs at ha with h₂
  rw [VMMap.slotAt] at ha
  split_ifs at ha with h₃
  refine ⟨_, h.below (h.below (h.below hpgd h₁) h₂) h₃, (Option.some.inj ha).symm, fun j => ?_⟩
  rw [VMMap.slotAt, if_pos h₁, VMMap.slotAt, if_pos h₂, VMMap.slotAt, if_pos h₃]
  rfl

/-- **When an address that is not mapped has no translation.** In every run and for every map,
`get_physical_address` returns a null pointer for an address whose page is not mapped exactly if
it is the first of its page, or if no page is mapped in the 2 MiB around it. -/
theorem getPhysicalAddress_eq_null_iff {next : ℕ → Option ℕ} {index prevChunkSize : ℕ → ℤ} {mem : Mem}
    (hrun : Run Building (World.init next index prevChunkSize mem) w) (hpgd : pgd ∈ w.maps)
    (hlook : look 3 pgd w.s.mem (pathOf v) = none) :
    getPhysicalAddress fuel pgd v w.s = .ok 0 ↔
      v % pageSize = 0 ∨ ∀ u, u / 2 ^ 21 = v / 2 ^ 21 → look 3 pgd w.s.mem (pathOf u) = none := by
  obtain ⟨T, hbuilt⟩ := built_of_run hrun
  cases hslot : slotAt 3 pgd w.s.mem (pathOf v) with
  | none =>
    rw [getPhysicalAddress_of_none hslot]
    refine iff_of_true rfl (Or.inr fun u hu => ?_)
    -- A table for `u` would be one for `v`.
    rw [look_eq_slotAt, pathOf_region hu]
    cases hu' : slotAt 3 pgd w.s.mem (pgdIndex v, pudIndex v, pmdIndex v, pteIndex u) with
    | none => rfl
    | some a =>
      obtain ⟨q, -, -, hall⟩ := hbuilt.complete.slotAt_last (hbuilt.maps pgd hpgd) hu'
      rw [pathOf, hall] at hslot
      cases hslot
  | some a =>
    obtain ⟨q, hq, rfl, hall⟩ := hbuilt.complete.slotAt_last (hbuilt.maps pgd hpgd) hslot
    -- The descriptor is not valid, so it is zero.
    have hzero : w.s.mem.readWord (slot q (pteIndex v)) = 0 := by
      refine hbuilt.complete.clear hq (Bool.eq_false_iff.mpr fun hvalid => ?_)
      rw [look_eq_slotAt, hslot, Option.bind_some, validOnly] at hlook
      rw [entry] at hvalid
      rw [if_pos hvalid] at hlook
      cases hlook
    have hoff : toSize (frame 0 + pageOffset v) = pageOffset v := by
      have hframe : frame 0 = 0 := by decide
      have hlt : pageSize < sizeMod := by decide
      rw [hframe, Nat.zero_add, toSize_of_lt ((pageOffset_lt v).trans hlt)]
    rw [getPhysicalAddress_of_slot hslot, hzero, hoff]
    constructor
    · exact fun hnull => Or.inl (Except.ok.inj hnull)
    · rintro (hv | hregion)
      · exact congrArg Except.ok hv
      · -- The table is used: there is a page in the region.
        obtain ⟨j, hj⟩ := hbuilt.complete.used hq id
        obtain ⟨u, hu, rfl⟩ := exists_pteIndex v j
        have hnone := hregion u hu
        rw [look_eq_slotAt, pathOf_region hu, hall, Option.bind_some, validOnly] at hnone
        rw [entry] at hj
        rw [if_pos hj] at hnone
        cases hnone

/-- What is found behind the first page of a map with one page. -/
theorem onePage_checks : check (fun r => decide (r.1 ≠ 0 ∧ r.2.1 ≠ 0 ∧ toPhysical r.2.1 = r.2.1 ∧
    look 3 r.1 r.2.2.2.2.mem (pathOf 0x1008) = none ∧
    check (· == 8) (getPhysicalAddress 0 r.1 0x1008 r.2.2.2.2) = true)) (onePage userPageRW) =
      true := by decide +kernel

/-- The steps that make a map with one page. -/
theorem building_onePage {mm : MemoryManager.State} {s₁ s₂ : State}
    (h : onePage attr = .ok (pgd, p, s₁, mm, s₂)) (hpgd : pgd ≠ 0) (hp : p ≠ 0)
    (hphys : toPhysical p = p) (hattr : IsAttr attr) :
    Run Building World.zero ⟨s₂, [], [], [pgd]⟩ :=
  Relation.ReflTransGen.mono (fun _ _ hstep => Building.mapping hstep) _ _
    (mapping_onePage h hpgd hp hphys hattr)

/-- **A null pointer plus eight**: the second page is not mapped, and still an address in it has
a translation. -/
theorem unmapped_translates : ∃ w pgd, Run Building World.zero w ∧ pgd ∈ w.maps ∧
    look 3 pgd w.s.mem (pathOf 0x1008) = none ∧ getPhysicalAddress 0 pgd 0x1008 w.s = .ok 8 := by
  obtain ⟨⟨pgd, p, s₁, mm, s₂⟩, hrun, hr⟩ := exists_ok_of_check onePage_checks
  obtain ⟨hpgd, hp, hphys, hlook, hcall⟩ := of_decide_eq_true hr
  obtain ⟨x, hx, h8⟩ := exists_ok_of_check hcall
  obtain rfl : x = 8 := by simpa using h8
  exact ⟨_, pgd, building_onePage hrun hpgd hp hphys (by decide), List.mem_singleton_self pgd,
    hlook, hx⟩

/-- The first address of the page after the only one that is mapped. -/
theorem getPhysicalAddress_eq_null_iff_second_page : ∃ w pgd, Run Building World.zero w ∧
    pgd ∈ w.maps ∧ look 3 pgd w.s.mem (pathOf 0x1000) = none ∧
      getPhysicalAddress 0 pgd 0x1000 w.s = .ok 0 := by
  obtain ⟨⟨pgd, p, s₁, mm, s₂⟩, hrun, hr⟩ := exists_ok_of_check onePage_checks
  obtain ⟨hpgd, hp, hphys, hlook, -⟩ := of_decide_eq_true hr
  have hpath : pathOf 0x1000 = pathOf 0x1008 := by decide
  rw [← hpath] at hlook
  have hbuilding := building_onePage hrun hpgd hp hphys (by decide)
  have hmem : pgd ∈ [pgd] := List.mem_singleton_self pgd
  exact ⟨_, pgd, hbuilding, hmem, hlook,
    (getPhysicalAddress_eq_null_iff hbuilding hmem hlook).mpr (Or.inl (by decide))⟩

end Valkyrie.VMMap
