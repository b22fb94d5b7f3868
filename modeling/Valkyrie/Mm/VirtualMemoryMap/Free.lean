import Valkyrie.Mm.VirtualMemoryMap.Count

/-!
# Giving back the pages of a map

`dfs_kfree_page` goes through the page tables of a map. It takes one from the count of the
frame of each descriptor it meets and gives the frame back when the count comes to zero;
and it gives back each page table after what is below it.

What is given back is described by two functions (`Valkyrie.VMMap.Freed`): how often each
page is a page table below, and how many descriptors lead to each frame. A frame is given
back when these are all the descriptors that its count counts. Described this way the
effects of two calls add up, which is what the loop over the entries of a table and the
recursion over the levels both need.
-/

namespace Valkyrie.VMMap

open Exec MemoryManager

variable {m : Mem} {s s' s₁ s₂ : State} {d pt pgd q p f fuel : ℕ} {i : Fin 512} {e : Descriptor}
  {pages pages₁ pages₂ : List ℕ} {chunks : List (ℕ × ℕ)} {T T₁ T₂ R R₁ R₂ : ℕ → ℕ}

/-! ### What is given back -/

/-- Whether the frame goes with its last descriptors, as a number. -/
def last (R : ℕ → ℕ) (f : ℕ) (s : State) : ℕ := if 0 < R f ∧ refCount f s = R f then 1 else 0

/-- **What can be given back**: page tables and frames that are live, and descriptors that
are counted. -/
structure CanFree (T R : ℕ → ℕ) (pages : List ℕ) (s : State) : Prop where
  live : ∀ f, T f + last R f s ≤ pages.count f
  isFrame : ∀ f, 0 < R f → IsFrame f
  counted : ∀ f, 0 < R f → R f ≤ refCount f s

/-- **What was given back.** The memory is left as it is. -/
structure Freed (T R : ℕ → ℕ) (pages pages' : List ℕ) (chunks : List (ℕ × ℕ)) (s s' : State) :
    Prop where
  owned : Pages s' pages' chunks
  mem : s'.mem = s.mem
  live : ∀ f, pages'.count f + T f + last R f s = pages.count f
  refs : ∀ f, IsFrame f → refCount f s' = refCount f s - R f

theorem CanFree.left (h : CanFree (T₁ + T₂) (R₁ + R₂) pages s) : CanFree T₁ R₁ pages s where
  live f := by
    have hlive := h.live f
    have hcounted := h.counted f
    simp only [last, Pi.add_apply] at hlive hcounted ⊢
    split_ifs at hlive ⊢ <;> omega
  isFrame f hf := h.isFrame f (Nat.add_pos_left hf _)
  counted f hf := by
    have hcounted := h.counted f (Nat.add_pos_left hf _)
    rw [Pi.add_apply] at hcounted
    omega

theorem CanFree.right (h : CanFree (T₁ + T₂) (R₁ + R₂) pages s)
    (h₁ : Freed T₁ R₁ pages pages₁ chunks s s₁) : CanFree T₂ R₂ pages₁ s₁ where
  live f := by
    have hlive := h.live f
    have hlive₁ := h₁.live f
    have hcounted := h.counted f
    have hrefs := fun hf => h₁.refs f (h.isFrame f hf)
    simp only [last, Pi.add_apply] at hlive hlive₁ hcounted hrefs ⊢
    split_ifs at hlive hlive₁ ⊢ <;> omega
  isFrame f hf := h.isFrame f (Nat.add_pos_right _ hf)
  counted f hf := by
    have hpos : 0 < (R₁ + R₂) f := Nat.add_pos_right _ hf
    have hcounted := h.counted f hpos
    have hrefs := h₁.refs f (h.isFrame f hpos)
    rw [Pi.add_apply] at hcounted
    omega

/-- **The effects add up.** -/
theorem Freed.trans (h : CanFree (T₁ + T₂) (R₁ + R₂) pages s)
    (h₁ : Freed T₁ R₁ pages pages₁ chunks s s₁) (h₂ : Freed T₂ R₂ pages₁ pages₂ chunks s₁ s₂) :
    Freed (T₁ + T₂) (R₁ + R₂) pages pages₂ chunks s s₂ where
  owned := h₂.owned
  mem := h₂.mem.trans h₁.mem
  live f := by
    have hlive₁ := h₁.live f
    have hlive₂ := h₂.live f
    have hcounted := h.counted f
    have hrefs := fun hf => h₁.refs f (h.isFrame f hf)
    simp only [last, Pi.add_apply] at hlive₁ hlive₂ hcounted hrefs ⊢
    split_ifs at hlive₁ hlive₂ ⊢ <;> omega
  refs f hf := by
    rw [h₂.refs f hf, h₁.refs f hf, Pi.add_apply]
    omega

theorem Freed.refl (hpages : Pages s pages chunks) : Freed 0 0 pages pages chunks s s where
  owned := hpages
  mem := rfl
  live f := by simp [last]
  refs f _ := by simp

/-! ### A page, a descriptor -/

theorem toPhysical_of_isFrame (hp : IsFrame p) : toPhysical p = p := if_neg (by
  have := hp.lt
  omega)

theorem refCounts_kfree {mm mm' : MemoryManager.State}
    (h : MemoryManager.kfree fuel p mm = .ok mm') : mm'.refCounts = mm.refCounts := by
  obtain ⟨-, ⟨-, zone0, -, rfl⟩ | ⟨-, slob1, -, rfl⟩⟩ := kfree_eq_ok h
  · rfl
  · rfl

/-- `kfree` of a live page. -/
theorem Pages.kfree (h : Pages s pages chunks) (hp : p ∈ pages) :
    Safe (kfree fuel p s) fun s' =>
      s'.mem = s.mem ∧ s'.mm.refCounts = s.mm.refCounts ∧ Pages s' (pages.erase p) chunks := by
  have hphys := toPhysical_of_isFrame (h.isFrame hp)
  have hp' : toPhysical p ∈ pages := by rwa [hphys]
  have hlive : p ∈ s.live := by rwa [h.live]
  rw [VMMap.kfree, if_pos hlive]
  constructor
  · refine ensures_bind fun mm hcall => ensures_pure ⟨rfl, ?_⟩
    have hstep : MemoryManager.Step (fun _ _ _ _ => True) (s.mm, pages, chunks) _ :=
      .kfreePage fuel hp' trivial hcall
    have htracked := (tracked_step h.mm hstep).1
    rw [hphys] at htracked
    exact ⟨refCounts_kfree hcall, htracked, congrArg (List.erase · p) h.live⟩
  · -- The sanitizer may abort, but the buddy allocator takes a live page back.
    intro hwild
    rcases bind_eq_error.mp hwild with hcall | ⟨mm, -, hpure⟩
    · rw [MemoryManager.kfree, hphys] at hcall
      rcases bind_eq_error.mp hcall with hchk | ⟨table, -, hcall⟩
      · rw [AddressSanitizer.markFreeChk] at hchk
        split_ifs at hchk
        cases hchk
      · rw [if_pos (pageIsAligned_iff.mpr (h.dvd hp))] at hcall
        rcases bind_eq_error.mp hcall with hbuddy | ⟨zone0, -, hpure⟩
        · have hfuel := (h.mm.zone0.deallocate goodZone0 hp fuel).error_eq hbuddy
          cases hfuel
        · cases hpure
    · cases hpure

/-- A page table is given back. -/
theorem safe_kfree_table (hpages : Pages s pages chunks)
    (h : CanFree (fun f => if p = f then 1 else 0) 0 pages s) : Safe (kfree fuel p s) fun s' =>
      ∃ pages', Freed (fun f => if p = f then 1 else 0) 0 pages pages' chunks s s' := by
  have hp : p ∈ pages := by
    have hlive := h.live p
    simp only [if_true] at hlive
    exact List.count_pos_iff.mp (by omega)
  refine (hpages.kfree hp).mono ?_
  rintro s' ⟨hmem, hrefs, hpages'⟩
  refine ⟨_, hpages', hmem, fun f => ?_, fun f _ => ?_⟩
  · have hone := List.count_pos_iff.mpr hp
    rw [List.count_erase]
    rcases eq_or_ne p f with rfl | hne
    · simp [last]
      omega
    · simp [last, hne]
  · rw [refCount_eq_of_refCounts hrefs]
    simp

/-- A descriptor of a frame goes, and the frame with it if it was the last one. -/
theorem safe_release (hpages : Pages s pages chunks) (hvalid : isValid (entry s.mem pt i) = true)
    (h : CanFree 0 (fun f => points f (some (entry s.mem pt i))) pages s) :
    Safe (kfreeEntry fuel none pt s i) fun s' =>
      ∃ pages', Freed 0 (fun f => points f (some (entry s.mem pt i))) pages pages' chunks s s' := by
  set e := entry s.mem pt i with he
  have hone : points (frame e) (some e) = 1 := by rw [points_some, if_pos rfl]
  have hframe : IsFrame (frame e) := h.isFrame _ (by rw [hone]; exact Nat.one_pos)
  have hcounted := h.counted (frame e) (by rw [hone]; exact Nat.one_pos)
  rw [hone] at hcounted
  have hrefs : ∀ f, IsFrame f →
      refCount f (s.addRef (frame e) (-1)) = refCount f s - points f (some e) := by
    intro f hf
    rw [refCount_addRef hf hframe, points_some]
    rcases eq_or_ne f (frame e) with rfl | hne
    · simp
      omega
    · simp [hne, hne.symm]
  rw [kfreeEntry]
  dsimp only
  rw [← he, if_neg (by rw [hvalid]; simp), decPageRefCount_eq hframe, ok_bind]
  dsimp only
  split_ifs with hlast
  · have hmem : frame e ∈ pages := by
      have hlive := h.live (frame e)
      rw [last, hone, if_pos ⟨Nat.one_pos, by omega⟩] at hlive
      exact List.count_pos_iff.mp (by omega)
    refine ((hpages.addRef (frame e) (-1)).kfree hmem).mono ?_
    rintro s' ⟨hmem', hrefs', hpages'⟩
    refine ⟨_, hpages', hmem', fun f => ?_, fun f hf => ?_⟩
    · have hpos := List.count_pos_iff.mpr hmem
      rw [List.count_erase, last, points_some]
      rcases eq_or_ne (frame e) f with rfl | hne
      · have : refCount (frame e) s = 1 := by omega
        simp [this]
        omega
      · simp [hne]
    · rw [refCount_eq_of_refCounts hrefs', hrefs f hf]
  · refine safe_pure ⟨pages, hpages.addRef _ _, rfl, fun f => ?_, hrefs⟩
    rw [last, points_some]
    rcases eq_or_ne (frame e) f with rfl | hne
    · have : refCount (frame e) s ≠ 1 := by omega
      simp [this]
    · simp [hne]

/-! ### All that is below a page table -/

/-- How often a page is a page table below another. -/
def tablesBelow (q : ℕ) : ℕ → ℕ → Mem → ℕ
  | 0, _, _ => 0
  | d + 1, pt, m => ∑ i, branchOccupies q d (entry m pt i) m

theorem occupies_eq_tablesBelow (q d pt : ℕ) (m : Mem) :
    occupies q d pt m = (if pt = q then 1 else 0) + tablesBelow q d pt m := by
  cases d with
  | zero => rfl
  | succ d => exact occupies_succ

/-- **The loop over the entries of a table.** -/
theorem safe_entries {body : State → Fin 512 → Exec State} {T R : Fin 512 → ℕ → ℕ}
    (hbody : ∀ i s pages, s.mem = m → Pages s pages chunks → CanFree (T i) (R i) pages s →
      Safe (body s i) fun s' => ∃ pages', Freed (T i) (R i) pages pages' chunks s s')
    (hpages : Pages s pages chunks) (hmem : s.mem = m)
    (h : CanFree (fun f => ∑ i, T i f) (fun f => ∑ i, R i f) pages s) :
    Safe ((List.finRange 512).foldlM body s) fun s' => ∃ pages',
      Freed (fun f => ∑ i, T i f) (fun f => ∑ i, R i f) pages pages' chunks s s' := by
  -- What was given back so far, and what is still to come, make up the whole.
  let I : List (Fin 512) → State → Prop := fun l a => ∃ T₁ R₁ pages₁,
    Freed T₁ R₁ pages pages₁ chunks s a ∧
      (fun f => ∑ i, T i f) = T₁ + (fun f => (l.map (T · f)).sum) ∧
      (fun f => ∑ i, R i f) = R₁ + fun f => (l.map (R · f)).sum
  have hstep : ∀ i l a, I (i :: l) a → Safe (body a i) (I l) := by
    rintro i l a ⟨T₁, R₁, pages₁, hfreed, hT, hR⟩
    have hT' : (fun f => ∑ i, T i f) = T₁ + T i + fun f => (l.map (T · f)).sum := by
      rw [hT]
      funext f
      simp only [Pi.add_apply, List.map_cons, List.sum_cons]
      omega
    have hR' : (fun f => ∑ i, R i f) = R₁ + R i + fun f => (l.map (R · f)).sum := by
      rw [hR]
      funext f
      simp only [Pi.add_apply, List.map_cons, List.sum_cons]
      omega
    have hcan := h
    rw [hT', hR'] at hcan
    replace hcan := hcan.left
    refine (hbody i a pages₁ (hfreed.mem.trans hmem) hfreed.owned (hcan.right hfreed)).mono ?_
    rintro a' ⟨pages₂, hfreed'⟩
    exact ⟨_, _, pages₂, hfreed.trans hcan hfreed', hT', hR'⟩
  have hstart : I (List.finRange 512) s := by
    refine ⟨0, 0, pages, Freed.refl hpages, ?_, ?_⟩ <;>
    · rw [zero_add]
      exact funext fun f => Fin.sum_univ_def _
  refine (safe_foldlM hstep _ s hstart).mono ?_
  rintro s' ⟨T₁, R₁, pages₁, hfreed, hT, hR⟩
  rw [hT, hR]
  exact ⟨pages₁, hfreed⟩

/-- **`dfs_kfree_page`** gives back what is below a page table. -/
theorem safe_dfsKfreePage (fuel d : ℕ) : ∀ {pt : ℕ} {s : State} {pages : List ℕ},
    Pages s pages chunks →
      CanFree (fun f => tablesBelow f d pt s.mem) (fun f => holders f (look d pt s.mem)) pages s →
        Safe (dfsKfreePage fuel d pt s) fun s' => ∃ pages',
          Freed (fun f => tablesBelow f d pt s.mem) (fun f => holders f (look d pt s.mem))
            pages pages' chunks s s' := by
  induction d with
  | zero =>
    -- The entries of the last level are pages: each gives up one reference, and no table.
    intro pt s pages hpages h
    have hzero : (fun f => tablesBelow f 0 pt s.mem) =
        fun f => ∑ _i : Fin 512, (fun _ _ => 0 : Fin 512 → ℕ → ℕ) _i f := by
      funext f
      simp [tablesBelow]
    rw [hzero] at h ⊢
    refine safe_entries (R := fun i f => points f (look 0 pt s.mem i)) ?_ hpages rfl h
    intro i s₁ pages₁ hmem hpages₁ hcan
    rw [look, ← hmem] at hcan ⊢
    by_cases hv : isValid (entry s₁.mem pt i) = true
    · simp only [if_pos hv] at hcan ⊢
      exact safe_release hpages₁ hv hcan
    · simp only [if_neg hv, points_none]
      rw [kfreeEntry]
      dsimp only
      rw [if_pos hv]
      exact safe_pure ⟨pages₁, Freed.refl hpages₁⟩
  | succ d ih =>
    intro pt s pages hpages h
    simp only [holders_look_succ, tablesBelow] at h ⊢
    refine safe_entries (T := fun i f => branchOccupies f d (entry s.mem pt i) s.mem)
      (R := fun i f => holders f (branchLook d (entry s.mem pt i) s.mem)) ?_ hpages rfl h
    intro i s₁ pages₁ hmem hpages₁ hcan
    rw [← hmem] at hcan ⊢
    rw [kfreeEntry]
    by_cases hv : isValid (entry s₁.mem pt i) = true
    · -- First what is below the table goes, then the table.
      rw [if_neg (by rw [hv]; exact fun hne => hne rfl)]
      set c := frame (entry s₁.mem pt i) with hc
      have hT : (fun f => branchOccupies f d (entry s₁.mem pt i) s₁.mem) =
          (fun f => tablesBelow f d c s₁.mem) + fun f => if c = f then 1 else 0 := by
        funext f
        rw [branchOccupies_of_valid hv, occupies_eq_tablesBelow, Nat.add_comm]
        rfl
      have hR : (fun f => holders f (branchLook d (entry s₁.mem pt i) s₁.mem)) =
          (fun f => holders f (look d c s₁.mem)) + 0 := by
        funext f
        exact congrArg (holders f) (funext fun path => if_pos hv)
      rw [hT, hR] at hcan ⊢
      refine (ih hpages₁ hcan.left).bind ?_
      rintro s₂ ⟨pages₂, hfreed⟩
      refine (safe_kfree_table hfreed.owned (hcan.right hfreed)).mono ?_
      rintro s₃ ⟨pages₃, hfreed'⟩
      exact ⟨pages₃, hfreed.trans hcan hfreed'⟩
    · rw [if_pos hv]
      have hv' : isValid (entry s₁.mem pt i) = false := Bool.eq_false_iff.mpr hv
      have hT : (fun f => branchOccupies f d (entry s₁.mem pt i) s₁.mem) = 0 :=
        funext fun f => branchOccupies_of_invalid hv'
      have hR : (fun f => holders f (branchLook d (entry s₁.mem pt i) s₁.mem)) = 0 :=
        funext fun f => holders_eq_zero fun path => branchLook_of_invalid hv' path
      rw [hT, hR]
      exact safe_pure ⟨pages₁, Freed.refl hpages₁⟩

/-! ### `reset` and the destructor -/

/-- The page table of the highest level is overwritten with zeros. -/
def State.cleared (pgd : ℕ) (s : State) : State := { s with mem := s.mem.fill pgd pageSize 0 }

section Reset

variable (hpages : Pages s pages chunks) (hpgd : IsFrame pgd)
include hpages hpgd

theorem safe_reset
    (h : CanFree (fun f => tablesBelow f 3 pgd s.mem) (fun f => holders f (look 3 pgd s.mem)) pages s) :
    Safe (reset fuel pgd s) fun s' => ∃ pages',
      Freed (fun f => tablesBelow f 3 pgd s.mem) (fun f => holders f (look 3 pgd s.mem))
        pages pages' chunks (s.cleared pgd) s' := by
  refine (safe_dfsKfreePage fuel 3 hpages h).bind ?_
  rintro s₁ ⟨pages₁, hfreed⟩
  have hne : pgd ≠ 0 := fun hEq => not_isFrame_zero (hEq ▸ hpgd)
  rw [clearPage, if_neg hne]
  refine safe_ok ⟨pages₁, ⟨hfreed.owned.mm, hfreed.owned.live⟩, ?_,
    hfreed.live, hfreed.refs⟩
  exact congrArg (Mem.fill · pgd pageSize 0) hfreed.mem

theorem safe_destruct
    (h : CanFree (fun f => occupies f 3 pgd s.mem) (fun f => holders f (look 3 pgd s.mem)) pages s) :
    Safe (destruct fuel pgd s) fun s' => ∃ pages',
      Freed (fun f => occupies f 3 pgd s.mem) (fun f => holders f (look 3 pgd s.mem))
        pages pages' chunks (s.cleared pgd) s' := by
  have hT : (fun f => occupies f 3 pgd s.mem) =
      (fun f => tablesBelow f 3 pgd s.mem) + fun f => if pgd = f then 1 else 0 := by
    funext f
    rw [occupies_eq_tablesBelow, Nat.add_comm]
    rfl
  rw [hT, ← add_zero fun f => holders f (look 3 pgd s.mem)] at h ⊢
  have hcleared : CanFree _ _ pages (s.cleared pgd) := ⟨h.live, h.isFrame, h.counted⟩
  refine (safe_reset hpages hpgd h.left).bind ?_
  rintro s₁ ⟨pages₁, hfreed⟩
  refine (safe_kfree_table hfreed.owned (hcleared.right hfreed)).mono ?_
  rintro s₂ ⟨pages₂, hfreed'⟩
  exact ⟨pages₂, hfreed.trans hcleared hfreed'⟩

end Reset

end Valkyrie.VMMap
