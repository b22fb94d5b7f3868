import Valkyrie.Mm.AddressSanitizer
import Valkyrie.Mm.VirtualMemoryMap.Tree

/-!
# Walking the page tables

`walk` goes down a path and returns the address of the last descriptor on it. This file
says what is at that address and what happens when something is written there.
-/

namespace Valkyrie.VMMap

open Exec Function MemoryManager

variable {m m' : Mem} {s s' : State} {d pt q a fuel : ℕ} {i j : Fin 512} {e : Descriptor}
  {pages : List ℕ} {chunks : List (ℕ × ℕ)}

/-! ### The last descriptor of a path -/

/-- The address of the last descriptor of a path, if there is a page table for it. -/
def slotAt : (d : ℕ) → ℕ → Mem → Path d → Option ℕ
  | 0, pt, _, i => some (slot pt i)
  | d + 1, pt, m, (i, path) =>
    if isValid (entry m pt i) then slotAt d (frame (entry m pt i)) m path else none

/-- A descriptor, if it is valid. -/
def validOnly (e : Descriptor) : Option Descriptor := if isValid e then some e else none

theorem look_eq_slotAt (d : ℕ) : ∀ {pt : ℕ} (path : Path d),
    look d pt m path = (slotAt d pt m path).bind fun a => validOnly (m.readWord a) := by
  induction d with
  | zero => exact fun _ => rfl
  | succ d ih =>
    rintro pt ⟨i, path⟩
    rw [look, slotAt]
    split_ifs
    · exact ih path
    · rfl

theorem slotAt_of_look {path : Path d} (h : look d pt m path = some e) :
    ∃ a, slotAt d pt m path = some a ∧ m.readWord a = e ∧ isValid e = true := by
  rw [look_eq_slotAt] at h
  obtain ⟨a, ha, hvalid⟩ := Option.bind_eq_some_iff.mp h
  rw [validOnly] at hvalid
  split_ifs at hvalid with hv
  obtain rfl := Option.some.inj hvalid
  exact ⟨a, ha, rfl, hv⟩

/-- The way down is through the page tables only. -/
theorem slotAt_congr (d : ℕ) : ∀ {pt : ℕ} (path : Path d),
    (∀ q, 0 < occupies q d pt m → Agree m m' q) → slotAt d pt m' path = slotAt d pt m path := by
  induction d with
  | zero => exact fun _ _ => rfl
  | succ d ih =>
    rintro pt ⟨i, path⟩ h
    rw [slotAt, slotAt, entry_congr (h pt (occupies_self_pos (d + 1) pt m))]
    split_ifs with hv
    · refine ih path fun q hq => h q ?_
      exact lt_of_lt_of_le (branchOccupies_of_valid hv ▸ hq) (branchOccupies_le i)
    · rfl

/-- `walk` without creating tables. -/
theorem walkFrom_false (d : ℕ) : ∀ {pt : ℕ} (path : Path d),
    walkFrom fuel false d path pt s = .ok (slotAt d pt s.mem path, s) := by
  induction d with
  | zero => exact fun _ => rfl
  | succ d ih =>
    rintro pt ⟨i, path⟩
    rw [walkFrom, slotAt]
    dsimp only
    split
    · exact ih path
    · rfl

/-! ### `get_physical_address` -/

/-- A path is 36 bits of an address. -/
theorem pathOf_eq_iff_mod {u v : ℕ} : pathOf u = pathOf v ↔
    u / pageSize % 2 ^ 36 = v / pageSize % 2 ^ 36 := by
  simp only [pathOf, pgdIndex, pudIndex, pmdIndex, pteIndex, Prod.mk.injEq, Fin.ext_iff,
    Fin.val_ofNat, Nat.shiftRight_eq_div_pow, pageSize]
  omega

/-- Addresses of one page have one path. -/
theorem pathOf_congr {v v' : ℕ} (h : v' / pageSize = v / pageSize) : pathOf v' = pathOf v :=
  pathOf_eq_iff_mod.mpr (by rw [h])

theorem pageOffset_lt (v : ℕ) : pageOffset v < pageSize := Nat.mod_lt _ (by decide)

section PhysicalAddress

variable {pgd v p : ℕ}

/-- An address in a frame is below the bound of the machine word. -/
theorem toSize_frame (hp : IsFrame p) (v : ℕ) :
    toSize (p + pageOffset v) = p + pageOffset v := by
  have hbound := hp.bounds.2.1
  have hoff := pageOffset_lt v
  have hlt : zone1Begin + pageSize < sizeMod := by decide
  exact toSize_of_lt (by omega)

/-- `get_physical_address` where there is no page table. -/
theorem getPhysicalAddress_of_none (hslot : slotAt 3 pgd s.mem (pathOf v) = none) :
    getPhysicalAddress fuel pgd v s = .ok 0 := by
  rw [getPhysicalAddress, walk, walkFrom_false, hslot, ok_bind]
  rfl

/-- `get_physical_address` where there is a page table: the last descriptor is taken as it is,
valid or not. -/
theorem getPhysicalAddress_of_slot (hslot : slotAt 3 pgd s.mem (pathOf v) = some a) :
    getPhysicalAddress fuel pgd v s =
      .ok (toSize (frame (s.mem.readWord a) + pageOffset v)) := by
  rw [getPhysicalAddress, walk, walkFrom_false, hslot, ok_bind]
  rfl

theorem exists_getPhysicalAddress : ∃ p, getPhysicalAddress fuel pgd v s = .ok p := by
  cases hslot : slotAt 3 pgd s.mem (pathOf v) with
  | none => exact ⟨0, getPhysicalAddress_of_none hslot⟩
  | some a => exact ⟨_, getPhysicalAddress_of_slot hslot⟩

/-- `get_physical_address`, of an address of a page that is mapped. -/
theorem getPhysicalAddress_eq (hlook : look 3 pgd s.mem (pathOf v) = some e)
    (hframe : IsFrame (frame e)) :
    getPhysicalAddress fuel pgd v s = .ok (frame e + pageOffset v) := by
  obtain ⟨a, hslot, hread, -⟩ := slotAt_of_look hlook
  rw [getPhysicalAddress_of_slot hslot, hread, toSize_frame hframe]

end PhysicalAddress

/-! ### Writing the last descriptor -/

/-- The pages of a tree are page-aligned. -/
def Aligned (d pt : ℕ) (m : Mem) : Prop := ∀ q, 0 < occupies q d pt m → pageSize ∣ q

theorem Aligned.branch (h : Aligned (d + 1) pt m) (hv : isValid (entry m pt i) = true) :
    Aligned d (frame (entry m pt i)) m := fun q hq =>
  h q (lt_of_lt_of_le (branchOccupies_of_valid hv ▸ hq) (branchOccupies_le i))

theorem Aligned.self (h : Aligned d pt m) : pageSize ∣ pt := h pt (occupies_self_pos d pt m)

/-- **Writing the last descriptor of a path** changes this path only. -/
theorem look_writeWord (e : Descriptor) (d : ℕ) : ∀ {pt : ℕ} {path : Path d},
    Distinct d pt m → Aligned d pt m → slotAt d pt m path = some a →
      look d pt (m.writeWord a e) = update (look d pt m) path (validOnly e) ∧
        (∀ q, occupies q d pt (m.writeWord a e) = occupies q d pt m) ∧
        slotAt d pt (m.writeWord a e) path = some a ∧
        ∃ q, 0 < occupies q d pt m ∧ q ≤ a ∧ a + 8 ≤ q + pageSize := by
  induction d with
  | zero =>
    intro pt i _ _ ha
    obtain rfl := Option.some.inj ha
    refine ⟨funext fun j => ?_, fun q => rfl, ha, pt, occupies_self_pos 0 pt m, slot_lt pt i⟩
    rcases eq_or_ne j i with rfl | hne
    · rw [update_self]
      exact congrArg validOnly entry_writeWord_self
    · rw [update_of_ne hne]
      exact congrArg validOnly (entry_writeWord_of_ne hne.symm)
  | succ d ih =>
    rintro pt ⟨i, path⟩ hdist hal ha
    rw [slotAt] at ha
    split_ifs at ha with hv
    obtain ⟨hlook, hocc, hslot, q, hq, hqa⟩ := ih (hdist.branch hv) (hal.branch hv) ha
    have hbranch : 0 < branchOccupies q d (entry m pt i) m := by
      rwa [branchOccupies_of_valid hv]
    have hqdvd : pageSize ∣ q := hal q (lt_of_lt_of_le hbranch (branchOccupies_le i))
    -- The page that is written is below the descriptor `i`, so it is nowhere else.
    have hagree : ∀ p, pageSize ∣ p → p ≠ q → Agree m (m.writeWord a e) p := fun p hp hne =>
      agree_writeWord hqdvd hp hne hqa e
    have hself : pt ≠ q := fun hEq => by
      rw [← hEq, hdist.branchOccupies_self i] at hbranch
      exact lt_irrefl _ hbranch
    have hentry := entry_congr (hagree pt hal.self hself)
    obtain ⟨hother, hsum⟩ := branch_change (d := d) (i := i) (fun j _ => hentry j) fun j hj p hp => by
      refine hagree p (hal p (lt_of_lt_of_le hp (branchOccupies_le j))) fun hEq => ?_
      rw [hEq, hdist.branchOccupies_of_ne hj.symm hbranch] at hp
      exact lt_irrefl _ hp
    have hvalid : isValid (entry (m.writeWord a e) pt i) = true := by rw [hentry, hv]
    refine ⟨?_, fun p => ?_, ?_, q, lt_of_lt_of_le hbranch (branchOccupies_le i), hqa⟩
    · funext ⟨j, path'⟩
      rcases eq_or_ne j i with rfl | hne
      · rw [look_succ, branchLook, if_pos hvalid, hentry, hlook, update_apply,
          update_apply, look_succ, branchLook, if_pos hv]
        simp only [Prod.mk.injEq, true_and]
      · rw [hother j hne, update_of_ne]
        exact fun hEq => hne (Prod.mk.inj hEq).1
    · have hp := hsum p
      rw [branchOccupies_of_valid hv, branchOccupies_of_valid hvalid, hentry, hocc] at hp
      exact Nat.add_right_cancel hp
    · rw [slotAt, if_pos hvalid, hentry]
      exact hslot

/-! ### Pages that are obtained -/

/-- **The live blocks of the first zone**, and the live chunks of the second. -/
structure Pages (s : State) (pages : List ℕ) (chunks : List (ℕ × ℕ)) : Prop where
  mm : Tracked s.mm pages chunks
  live : s.live = pages

theorem Pages.nodup (h : Pages s pages chunks) : pages.Nodup := h.mm.zone0.nodup

theorem Pages.isFrame (h : Pages s pages chunks) (hq : q ∈ pages) : IsFrame q :=
  h.mm.zone0.2 q hq

theorem Pages.dvd (h : Pages s pages chunks) (hq : q ∈ pages) : pageSize ∣ q :=
  (h.isFrame hq).bounds.2.2

theorem not_isFrame_zero : ¬IsFrame 0 := fun h => by
  have := h.bounds.1
  exact absurd this (by decide)

/-- **A page that is obtained** is one that nobody has. -/
theorem Pages.getFreePage (h : Pages s pages chunks) : Ensures (getFreePage fuel s) fun r =>
    r.2.mem = s.mem ∧ r.2.mm.refCounts = s.mm.refCounts ∧
      (r.1 = 0 ∧ Pages r.2 pages chunks ∨
        IsFrame r.1 ∧ r.1 ∉ pages ∧ Pages r.2 (r.1 :: pages) chunks) := by
  refine ensures_bind ?_
  rintro ⟨p, mm⟩ hcall
  have hstep : MemoryManager.Step (fun _ _ _ _ => True) (s.mm, pages, chunks) _ :=
    .getFreePage fuel true trivial hcall
  have htracked := (tracked_step h.mm hstep).1
  obtain ⟨ret, zone0, hbuddy, rfl, -, rfl⟩ := getFreePage_eq_ok hcall
  refine ensures_pure ⟨rfl, rfl, ?_⟩
  rcases h.mm.zone0.allocate goodZone0 hbuddy with ⟨rfl, rfl⟩ | ⟨hframe, hnew, -⟩
  · exact Or.inl ⟨rfl, htracked, h.live⟩
  · have hne : p ≠ 0 := fun hEq => not_isFrame_zero (hEq ▸ hframe)
    have hphys : toPhysical p = p :=
      toPhysical_page (Or.inr hframe) true
    rw [hphys, if_neg hne] at htracked
    refine Or.inr ⟨hframe, hnew, htracked, (if_neg hne).trans ?_⟩
    rw [h.live]

/-- A new page table is empty, and a descriptor leads to it. -/
theorem Pages.newTable (h : Pages s pages chunks) : Ensures (newTable fuel a s) fun r =>
    IsFrame r.1 ∧ r.1 ∉ pages ∧ Pages r.2 (r.1 :: pages) chunks ∧
      r.2.mm.refCounts = s.mm.refCounts ∧
      r.2.mem = (s.mem.fill r.1 pageSize 0).writeWord a (descriptor r.1 pdTable) := by
  refine h.getFreePage.bind ?_
  rintro ⟨p, s₁⟩ ⟨hmem, hrefs, hpage⟩
  refine ensures_bind fun s₂ hclear => ?_
  rw [clearPage] at hclear
  split_ifs at hclear with hp
  obtain rfl := Except.ok.inj hclear
  obtain ⟨hframe, hnew, hpages⟩ := hpage.resolve_left fun hnull => hp hnull.1
  refine ensures_pure ⟨hframe, hnew, ⟨hpages.mm, hpages.live⟩, hrefs, ?_⟩
  change (s₁.mem.fill p pageSize 0).writeWord a _ = _
  rw [hmem]

/-- **A tree that has grown**: there are new page tables in it, but they are empty. -/
structure Grown (d pt : ℕ) (pages : List ℕ) (chunks : List (ℕ × ℕ)) (fresh : List ℕ)
    (s s' : State) : Prop where
  pages : Pages s' (fresh ++ pages) chunks
  refs : s'.mm.refCounts = s.mm.refCounts
  look : look d pt s'.mem = look d pt s.mem
  occupies : ∀ q, occupies q d pt s'.mem = occupies q d pt s.mem + fresh.count q
  agree : ∀ q, pageSize ∣ q → VMMap.occupies q d pt s.mem = 0 → q ∉ fresh → Agree s.mem s'.mem q

/-- A page table with no valid descriptor. -/
theorem look_of_empty (h : ∀ i, isValid (entry m pt i) = false) (path : Path d) :
    look d pt m path = none := by
  cases d with
  | zero => exact if_neg (by rw [h]; exact Bool.false_ne_true)
  | succ d =>
    obtain ⟨i, path⟩ := path
    exact branchLook_of_invalid (h i) path

theorem occupies_of_empty (h : ∀ i, isValid (entry m pt i) = false) :
    occupies q d pt m = if pt = q then 1 else 0 := by
  cases d with
  | zero => rfl
  | succ d =>
    rw [occupies_succ, Finset.sum_eq_zero fun i _ => branchOccupies_of_invalid (h i), Nat.add_zero]

section Grown

variable {fresh fresh' : List ℕ} {s'' : State}

theorem Grown.trans (h : Grown d pt pages chunks fresh s s')
    (h' : Grown d pt (fresh ++ pages) chunks fresh' s' s'') :
    Grown d pt pages chunks (fresh' ++ fresh) s s'' where
  pages := (List.append_assoc fresh' fresh pages).symm ▸ h'.pages
  refs := h'.refs.trans h.refs
  look := h'.look.trans h.look
  occupies q := by
    rw [h'.occupies, h.occupies, List.count_append]
    omega
  agree q hq hocc hmem := by
    obtain ⟨hmem', hmem⟩ := not_or.mp (mt List.mem_append.mpr hmem)
    have hocc' : VMMap.occupies q d pt s'.mem = 0 := by
      rw [h.occupies, hocc, List.count_eq_zero_of_not_mem hmem]
    exact (h.agree q hq hocc hmem).trans (h'.agree q hq hocc' hmem')

/-- **A tree grows with its branches.** -/
theorem Grown.lift (hdist : Distinct (d + 1) pt s.mem) (hal : Aligned (d + 1) pt s.mem)
    (hmem : ∀ q, 0 < VMMap.occupies q (d + 1) pt s.mem → q ∈ pages)
    (hv : isValid (entry s.mem pt i) = true)
    (h : Grown d (frame (entry s.mem pt i)) pages chunks fresh s s') :
    Grown (d + 1) pt pages chunks fresh s s' ∧ ∀ j, entry s'.mem pt j = entry s.mem pt j := by
  have hfresh : ∀ q, 0 < VMMap.occupies q (d + 1) pt s.mem → q ∉ fresh := fun q hq hin =>
    List.disjoint_of_nodup_append h.pages.nodup hin (hmem q hq)
  have hchild : ∀ q, branchOccupies q d (entry s.mem pt i) s.mem =
      VMMap.occupies q d (frame (entry s.mem pt i)) s.mem := fun q => branchOccupies_of_valid hv
  have hpt := occupies_self_pos (d + 1) pt s.mem
  have hself : Agree s.mem s'.mem pt := by
    refine h.agree pt (hal pt hpt) ?_ (hfresh pt hpt)
    rw [← hchild, hdist.branchOccupies_self i]
  have hentry := entry_congr hself
  have hother : ∀ j, j ≠ i → ∀ q, 0 < branchOccupies q d (entry s.mem pt j) s.mem →
      Agree s.mem s'.mem q := by
    intro j hj q hq
    have hq' := lt_of_lt_of_le hq (branchOccupies_le j)
    refine h.agree q (hal q hq') ?_ (hfresh q hq')
    rw [← hchild, hdist.branchOccupies_of_ne hj hq]
  obtain ⟨hlook, hsum⟩ := branch_change (fun j _ => hentry j) hother
  refine ⟨⟨h.pages, h.refs, ?_, fun q => ?_, fun q hq hocc hin => ?_⟩, hentry⟩
  · funext ⟨j, path⟩
    rcases eq_or_ne j i with rfl | hne
    · rw [look_succ, look_succ, hentry, branchLook, branchLook, if_pos hv, if_pos hv, h.look]
    · exact hlook j hne path
  · have hq := hsum q
    rw [hentry, hchild, branchOccupies_of_valid hv, h.occupies] at hq
    omega
  · refine h.agree q hq (Nat.le_zero.mp ?_) hin
    rw [← hchild, ← hocc]
    exact branchOccupies_le i

theorem isValid_table {p : ℕ} (hp : IsFrame p) :
    isValid (descriptor p pdTable) = true := by
  rw [isValid_descriptor hp]
  decide

theorem frame_table {p : ℕ} (hp : IsFrame p) : frame (descriptor p pdTable) = p :=
  frame_descriptor hp (by decide)

/-- A new page table is empty, also when its descriptor was written. -/
theorem entry_new_table {p : ℕ} (hp : pageSize ∣ p) (hpt : pageSize ∣ pt) (hne : pt ≠ p) :
    entry ((m.fill p pageSize 0).writeWord (slot pt i) e) p j = 0 := by
  rw [entry_congr (agree_writeWord hpt hp hne.symm (slot_lt pt i) e) j, entry_fill_zero]

/-- What is written for a new page table. -/
theorem table_written {p : ℕ} (hp : pageSize ∣ p) (hpt : pageSize ∣ pt) (hne : pt ≠ p)
    (hmem : m' = (m.fill p pageSize 0).writeWord (slot pt i) (descriptor p pdTable)) :
    (∀ q, pageSize ∣ q → q ≠ p → q ≠ pt → Agree m m' q) ∧
      (∀ j, j ≠ i → entry m' pt j = entry m pt j) ∧ entry m' pt i = descriptor p pdTable ∧
      ∀ j, isValid (entry m' p j) = false := by
  subst hmem
  refine ⟨fun q hq hqp hqpt => ?_, fun j hj => ?_, entry_writeWord_self, fun j => ?_⟩
  · exact (agree_fill hp hq hqp 0).trans (agree_writeWord hpt hq hqpt (slot_lt pt i) _)
  · rw [entry_writeWord_of_ne hj.symm]
    exact entry_congr (agree_fill hp hpt hne 0) j
  · rw [entry_new_table hp hpt hne]
    decide

/-- **A new page table** where there was none. -/
theorem grown_table {p : ℕ} (hp : IsFrame p) (hnew : p ∉ pages)
    (hpages : Pages s' (p :: pages) chunks) (hrefs : s'.mm.refCounts = s.mm.refCounts)
    (hmem' : s'.mem = (s.mem.fill p pageSize 0).writeWord (slot pt i) (descriptor p pdTable))
    (hal : Aligned (d + 1) pt s.mem) (hmem : ∀ q, 0 < occupies q (d + 1) pt s.mem → q ∈ pages)
    (hdist : Distinct (d + 1) pt s.mem) (hv : isValid (entry s.mem pt i) = false) :
    Grown (d + 1) pt pages chunks [p] s s' ∧ entry s'.mem pt i = descriptor p pdTable ∧
      ∀ j, isValid (entry s'.mem p j) = false := by
  have hpt : pt ≠ p := fun hEq => hnew (hEq ▸ hmem pt (occupies_self_pos _ pt _))
  -- Only the new page and the table above it are written.
  obtain ⟨hagree, hentry, hentry_i, hempty⟩ := table_written hp.bounds.2.2 hal.self hpt hmem'
  obtain ⟨hlook, hsum⟩ := branch_change (d := d) hentry fun j _ q hq => by
    have hq' := lt_of_lt_of_le hq (branchOccupies_le j)
    refine hagree q (hal q hq') (fun hEq => hnew (hEq ▸ hmem q hq')) fun hEq => ?_
    rw [hEq, hdist.branchOccupies_self j] at hq
    exact lt_irrefl _ hq
  refine ⟨⟨hpages, hrefs, ?_, fun q => ?_, fun q hq hocc hin => ?_⟩, hentry_i, hempty⟩
  · funext ⟨j, path⟩
    rcases eq_or_ne j i with rfl | hne
    · rw [look_succ, look_succ, hentry_i, branchLook, if_pos (isValid_table hp), frame_table hp,
        look_of_empty hempty, branchLook_of_invalid hv]
    · exact hlook j hne path
  · have hq := hsum q
    rw [hentry_i, branchOccupies_of_invalid hv, branchOccupies_of_valid (isValid_table hp),
      frame_table hp, occupies_of_empty hempty] at hq
    rw [List.count_singleton]
    simp only [beq_iff_eq]
    omega
  · refine hagree q hq (fun hEq => hin (List.mem_singleton.mpr hEq)) fun hEq => ?_
    subst hEq
    exact (occupies_self_pos (d + 1) q s.mem).ne' hocc

/-- What has grown is still a tree of pages that are there. -/
theorem Grown.distinct (h : Grown d pt pages chunks fresh s s') (hdist : Distinct d pt s.mem)
    (hmem : ∀ q, 0 < VMMap.occupies q d pt s.mem → q ∈ pages) :
    Distinct d pt s'.mem ∧ ∀ q, 0 < VMMap.occupies q d pt s'.mem → q ∈ fresh ++ pages := by
  have hnodup := h.pages.nodup
  constructor
  · intro q
    rw [h.occupies]
    by_cases hin : q ∈ fresh
    · have hzero : VMMap.occupies q d pt s.mem = 0 := by
        by_contra hne
        exact List.disjoint_of_nodup_append hnodup hin (hmem q (Nat.pos_of_ne_zero hne))
      have hone := List.nodup_iff_count_le_one.mp (List.Nodup.of_append_left hnodup) q
      omega
    · rw [List.count_eq_zero_of_not_mem hin]
      exact hdist q
  · intro q hq
    rw [h.occupies] at hq
    by_cases hin : q ∈ fresh
    · exact List.mem_append_left _ hin
    · rw [List.count_eq_zero_of_not_mem hin] at hq
      exact List.mem_append_right _ (hmem q hq)

end Grown

/-- **`walk` that creates tables** leaves all paths as they were, and the path it was asked
for leads somewhere. -/
theorem walkFrom_true (d : ℕ) : ∀ {pt : ℕ} {path : Path d} {s : State} {pages : List ℕ},
    Pages s pages chunks → Distinct d pt s.mem → (∀ q, 0 < occupies q d pt s.mem → q ∈ pages) →
      Ensures (walkFrom fuel true d path pt s) fun r =>
        ∃ a fresh, r.1 = some a ∧ slotAt d pt r.2.mem path = some a ∧
          Grown d pt pages chunks fresh s r.2 := by
  induction d with
  | zero =>
    intro pt i s pages hpages _ _
    exact ensures_pure ⟨_, [], rfl, rfl, hpages, rfl, rfl, fun q => rfl, fun q _ _ _ => Agree.rfl⟩
  | succ d ih =>
    rintro pt ⟨i, path⟩ s pages hpages hdist hmem
    have hal : Aligned (d + 1) pt s.mem := fun q hq => hpages.dvd (hmem q hq)
    rw [walkFrom]
    dsimp only
    split_ifs with hv hcreate
    · -- The table is there, and what grows below it grows below the whole.
      have hchild : ∀ q, 0 < occupies q d (frame (entry s.mem pt i)) s.mem → q ∈ pages := fun q hq =>
        hmem q (lt_of_lt_of_le (branchOccupies_of_valid hv ▸ hq) (branchOccupies_le i))
      refine (ih hpages (hdist.branch hv) hchild).mono ?_
      rintro r ⟨a, fresh, hr, hslot, hgrown⟩
      obtain ⟨hlift, hentry⟩ := hgrown.lift hdist hal hmem hv
      refine ⟨a, fresh, hr, ?_, hlift⟩
      rw [slotAt, hentry, if_pos hv]
      exact hslot
    · -- A new table has no entries, so no path goes through it before the walk goes on.
      refine hpages.newTable.bind ?_
      rintro ⟨p, s₁⟩ hnew
      dsimp only at hnew ⊢
      obtain ⟨hp, hnew, hpages₁, hrefs, hmem₁⟩ := hnew
      obtain ⟨hgrown, hentry, hempty⟩ := grown_table hp hnew hpages₁ hrefs hmem₁ hal hmem hdist
        (Bool.eq_false_iff.mpr hv)
      obtain ⟨hdist₁, hmem₁'⟩ := hgrown.distinct hdist hmem
      have hv₁ : isValid (entry s₁.mem pt i) = true := by rw [hentry, isValid_table hp]
      have hframe : frame (entry s₁.mem pt i) = p := by rw [hentry, frame_table hp]
      refine (ih hpages₁ (fun q => ?_) fun q hq => ?_).mono ?_
      · rw [occupies_of_empty hempty]
        split_ifs <;> decide
      · rw [occupies_of_empty hempty] at hq
        split_ifs at hq with hEq
        · exact hEq ▸ List.mem_cons_self
        · exact absurd hq (lt_irrefl 0)
      · rintro r ⟨a, fresh, hr, hslot, hgrown'⟩
        have hgrown' : Grown d (frame (entry s₁.mem pt i)) (p :: pages) chunks fresh s₁ r.2 :=
          hframe.symm ▸ hgrown'
        rw [← hframe] at hslot
        have hal₁ : Aligned (d + 1) pt s₁.mem := fun q hq => hpages₁.dvd (hmem₁' q hq)
        obtain ⟨hlift, hentry'⟩ := Grown.lift hdist₁ hal₁ hmem₁' hv₁ hgrown'
        refine ⟨a, fresh ++ [p], hr, ?_, hgrown.trans hlift⟩
        rw [slotAt, hentry', if_pos hv₁]
        exact hslot
    · exact absurd rfl hcreate

end Valkyrie.VMMap
