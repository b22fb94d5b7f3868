import Valkyrie.Mm.VirtualMemoryMap.Run

/-!
# Calls that have enough memory

`walk` obtains a page for each level that is missing, at most three, and it writes to them
without looking whether it got them. `Valkyrie.VMMap.Plenty` says that the next calls of
`get_free_page` will succeed; under it `walk` and `map` return.
-/

namespace Valkyrie.VMMap

open Exec MemoryManager

variable {s : State} {pages : List ℕ} {chunks : List (ℕ × ℕ)} {fuel pgd v p n : ℕ}

/-- **There are pages**: so many calls of `get_free_page` in a row return one. -/
def Plenty (fuel : ℕ) : ℕ → MemoryManager.State → Prop
  | 0, _ => True
  | n + 1, mm => ∃ p mm', MemoryManager.getFreePage fuel true mm = .ok (p, mm') ∧ p ≠ 0 ∧
      Plenty fuel n mm'

instance Plenty.instDecidable (fuel : ℕ) :
    (n : ℕ) → (mm : MemoryManager.State) → Decidable (Plenty fuel n mm)
  | 0, _ => isTrue trivial
  | n + 1, mm =>
    match h : MemoryManager.getFreePage fuel true mm with
    | .error _ => isFalse fun ⟨_, _, hpage, _⟩ => by rw [h] at hpage; cases hpage
    | .ok (p, mm') =>
      have := Plenty.instDecidable fuel n mm'
      decidable_of_iff (p ≠ 0 ∧ Plenty fuel n mm')
        ⟨fun hrest => ⟨p, mm', h, hrest⟩, fun ⟨_, _, hpage, hrest⟩ => by
          rw [h] at hpage
          cases hpage
          exact hrest⟩

theorem Plenty.mono : ∀ {n k : ℕ} {mm : MemoryManager.State},
    Plenty fuel n mm → k ≤ n → Plenty fuel k mm
  | _, 0, _, _, _ => trivial
  | _ + 1, _ + 1, _, ⟨p, mm', hpage, hp, hrest⟩, hle =>
    ⟨p, mm', hpage, hp, hrest.mono (Nat.le_of_succ_le_succ hle)⟩

/-- The reference counts do not matter to `get_free_page`. -/
theorem Plenty.withRefCounts : ∀ {n : ℕ} {mm : MemoryManager.State} {refCounts : ℕ → ℤ},
    Plenty fuel n mm → Plenty fuel n { mm with refCounts := refCounts }
  | 0, _, _, _ => trivial
  | n + 1, mm, refCounts, ⟨p, mm', hpage, hp, hrest⟩ => by
    obtain ⟨ret, zone0, hbuddy, rfl, hfresh, rfl⟩ := getFreePage_eq_ok hpage
    refine ⟨p, _, ?_, hp, @Plenty.withRefCounts n _ refCounts hrest⟩
    rw [MemoryManager.getFreePage, hbuddy, ok_bind]
    dsimp only
    rw [AddressSanitizer.markAllocated, if_neg hfresh]
    rfl

theorem getFreePage_eq {mm : MemoryManager.State}
    (hpage : MemoryManager.getFreePage fuel true s.mm = .ok (p, mm)) (hp : p ≠ 0) :
    getFreePage fuel s = .ok (p, { s with mm := mm, live := p :: s.live }) := by
  rw [getFreePage, hpage, ok_bind]
  dsimp only
  rw [if_neg hp]
  rfl

/-- `walk` needs a page for each level, at most. -/
theorem Plenty.walkFrom : ∀ {d n pt : ℕ} {path : Path d} {s : State}, Plenty fuel (n + d) s.mm →
    ∃ a s', walkFrom fuel true d path pt s = .ok (some a, s') ∧ Plenty fuel n s'.mm
  | 0, _, pt, i, s, h => ⟨slot pt i, s, rfl, h⟩
  | d + 1, n, pt, (i, path), s, h => by
    rw [VMMap.walkFrom]
    dsimp only
    split_ifs with hv hcreate
    · exact Plenty.walkFrom (h.mono (by omega))
    · obtain ⟨p, mm, hpage, hp, hrest⟩ := h
      obtain ⟨a, s', hwalk, hrest'⟩ : ∃ a s', VMMap.walkFrom fuel true d path p _ = .ok (some a, s') ∧
          Plenty fuel n s'.mm := Plenty.walkFrom (s := State.setDescriptor (slot pt i)
            (descriptor p pdTable) ⟨mm, s.mem.fill p pageSize 0, p :: s.live⟩) hrest
      refine ⟨a, s', ?_, hrest'⟩
      rw [newTable, getFreePage_eq hpage hp, ok_bind]
      dsimp only
      rw [clearPage, if_neg hp]
      exact hwalk
    · exact absurd rfl hcreate

/-- **`map` returns** where nothing is mapped, for a frame that has a reference count. -/
theorem exists_map (hpages : Pages s pages chunks) (htables : Tables 3 pgd pages s.mem)
    (hp : IsFrame p) (attr : Descriptor) (hlook : look 3 pgd s.mem (pathOf v) = none)
    (hplenty : Plenty fuel (n + 3) s.mm) :
    ∃ s', map fuel pgd v p attr s = .ok s' ∧ Plenty fuel n s'.mm := by
  obtain ⟨a, s₁, hwalk, hrest⟩ :
      ∃ a s₁, walkFrom fuel true 3 (pathOf v) pgd s = .ok (some a, s₁) ∧ Plenty fuel n s₁.mm :=
    hplenty.walkFrom
  obtain ⟨a', fresh, hpte, hslot, hgrown⟩ :=
    walkFrom_true 3 hpages htables.distinct htables.mem _ hwalk
  obtain rfl := Option.some.inj hpte
  have hinvalid : isValid (s₁.mem.readWord a) = false := by
    have hnone : look 3 pgd s₁.mem (pathOf v) = none := by rw [hgrown.look, hlook]
    rw [look_eq_slotAt, hslot, Option.bind_some, validOnly] at hnone
    split_ifs at hnone with hv
    exact Bool.eq_false_iff.mpr hv
  refine ⟨(s₁.setDescriptor a (descriptor p (makeCow attr))).addRef p 1, ?_,
    Plenty.withRefCounts hrest⟩
  rw [map, walk, hwalk, ok_bind]
  dsimp only
  rw [hinvalid, if_neg Bool.false_ne_true, incPageRefCount_eq hp]

theorem Inv.exists_map {w : World} (h : Inv w) (hpgd : pgd ∈ w.maps) (hp : p ∈ w.others)
    (attr : Descriptor) (hlook : look 3 pgd w.s.mem (pathOf v) = none)
    (hplenty : Plenty fuel (n + 3) w.s.mm) :
    ∃ s', VMMap.map fuel pgd v p attr w.s = .ok s' ∧ Plenty fuel n s'.mm :=
  VMMap.exists_map h.owned (h.tables hpgd) (h.of_others hp).1 attr hlook hplenty

end Valkyrie.VMMap
