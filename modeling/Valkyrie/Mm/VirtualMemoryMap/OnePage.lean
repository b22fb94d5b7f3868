import Valkyrie.Mm.VirtualMemoryMap.Run

/-!
# Maps with one page

The loops over the 512 entries of a table go by entries that are not valid. In a map with one
page, at the address `0`, only the first entry of each table is valid, and what is left of `map`
and of `copy_from` is the way down: one new table at each level, and a descriptor at the end.

This file says so (`Valkyrie.VMMap.map_of_fresh`, `Valkyrie.VMMap.copyFrom_of_spine`). Runs with
such maps can then be computed call by call, without the loops.
-/

namespace Valkyrie.VMMap

open Exec MemoryManager

variable {m m' : Mem} {s s' s₁ s₂ s₃ : State} {pt q p fuel a b c d n₀ n₁ n₂ n₃ : ℕ}
  {e e' attr : Descriptor}

/-! ### Tables with one entry -/

/-- The first entry of a table, with no other one that is valid. -/
structure Single (m : Mem) (pt : ℕ) (e : Descriptor) : Prop where
  first : entry m pt 0 = e
  rest : ∀ i, i ≠ 0 → isValid (entry m pt i) = false

theorem Single.agree (h : Single m pt e) (hagree : Agree m m' pt) : Single m' pt e where
  first := (entry_congr hagree 0).trans h.first
  rest i hi := by
    rw [entry_congr hagree]
    exact h.rest i hi

theorem Single.write (h : ∀ i, i ≠ 0 → isValid (entry m pt i) = false) (e : Descriptor) :
    Single (m.writeWord (slot pt 0) e) pt e where
  first := entry_writeWord_self
  rest i hi := by
    rw [entry_writeWord_of_ne hi.symm]
    exact h i hi

/-- What `newTable` writes. -/
theorem newTable_mem (h : newTable fuel q s = .ok (p, s')) :
    s'.mem = (s.mem.fill p pageSize 0).writeWord q (descriptor p pdTable) := by
  obtain ⟨⟨p', s₁⟩, hpage, h⟩ := bind_eq_ok.mp h
  obtain ⟨s₂, hclear, h⟩ := bind_eq_ok.mp h
  obtain ⟨⟨p'', mm⟩, -, hpage⟩ := bind_eq_ok.mp hpage
  cases pure_eq_ok.mp hpage
  rw [clearPage] at hclear
  split_ifs at hclear
  cases hclear
  cases pure_eq_ok.mp h
  rfl

theorem incPageRefCount_mem (h : incPageRefCount p s = .ok s') : s'.mem = s.mem := by
  obtain ⟨⟨count, mm⟩, -, h⟩ := bind_eq_ok.mp h
  cases pure_eq_ok.mp h
  rfl

/-- On the way down, where there is no table yet. -/
theorem walkFrom_of_invalid {k : ℕ} {i : Fin 512} {path : Path k}
    (h : isValid (entry s.mem pt i) = false) : walkFrom fuel true (k + 1) (i, path) pt s = (do
      let (next, s) ← newTable fuel (slot pt i) s
      walkFrom fuel true k path next s) := by
  rw [walkFrom]
  dsimp only
  rw [h, if_neg Bool.false_ne_true, if_pos rfl]

/-- Four tables, each below the first entry of the one before, and a descriptor at the end. -/
structure Spine (m : Mem) (a b c d : ℕ) (e : Descriptor) : Prop where
  first : Single m a (descriptor b pdTable)
  second : Single m b (descriptor c pdTable)
  third : Single m c (descriptor d pdTable)
  last : Single m d e

theorem Spine.agree (h : Spine m a b c d e) (hagree : ∀ q ∈ [a, b, c, d], Agree m m' q) :
    Spine m' a b c d e :=
  ⟨h.first.agree (hagree a (by simp)), h.second.agree (hagree b (by simp)),
    h.third.agree (hagree c (by simp)), h.last.agree (hagree d (by simp))⟩

/-- The descriptor at the end is found at the address `0`. -/
theorem Spine.look (h : Spine m a b c d e) (hframe : ∀ q ∈ [b, c, d], IsFrame q)
    (hvalid : isValid e = true) : look 3 a m (pathOf 0) = some e := by
  have htable : ∀ q ∈ [b, c, d], isValid (descriptor q pdTable) = true ∧
      frame (descriptor q pdTable) = q := fun q hq =>
    ⟨isValid_table (hframe q hq), frame_table (hframe q hq)⟩
  obtain ⟨hb, hb'⟩ := htable b (by simp)
  obtain ⟨hc, hc'⟩ := htable c (by simp)
  obtain ⟨hd, hd'⟩ := htable d (by simp)
  change VMMap.look 3 a m (0, 0, 0, 0) = some e
  rw [look_succ, h.first.first, branchLook, if_pos hb, hb', look_succ, h.second.first, branchLook,
    if_pos hc, hc', look_succ, h.third.first, branchLook, if_pos hd, hd', VMMap.look, h.last.first,
    if_pos hvalid]

/-- Three new tables, each below the first entry of the one before. -/
def newTables (fuel a : ℕ) (s : State) : Exec (ℕ × ℕ × ℕ × State) := do
  let (b, s) ← newTable fuel (slot a 0) s
  let (c, s) ← newTable fuel (slot b 0) s
  let (d, s) ← newTable fuel (slot c 0) s
  return (b, c, d, s)

/-- What is in memory after a new table was put below the first entry of an empty one. -/
theorem newTable_below (h : newTable fuel (slot a 0) s = .ok (b, s'))
    (hempty : ∀ i, isValid (entry s.mem a i) = false) (ha : pageSize ∣ a) (hb : pageSize ∣ b)
    (hne : a ≠ b) :
    Single s'.mem a (descriptor b pdTable) ∧ (∀ i, isValid (entry s'.mem b i) = false) ∧
      ∀ q, pageSize ∣ q → q ≠ b → q ≠ a → Agree s.mem s'.mem q := by
  obtain ⟨hagree, hrest, hfirst, hnew⟩ := table_written hb ha hne (newTable_mem h)
  refine ⟨⟨hfirst, fun i hi => ?_⟩, hnew, hagree⟩
  rw [hrest i hi]
  exact hempty i

section NewTables

variable (h : newTables fuel a s = .ok (b, c, d, s'))
  (hempty : ∀ i, isValid (entry s.mem a i) = false) (hnodup : [a, b, c, d].Nodup)
  (hdvd : ∀ q ∈ [a, b, c, d], pageSize ∣ q)
include h hempty hnodup hdvd

/-- **Three new tables** are one below the other, and nothing else was written to. -/
theorem spine_of_newTables : (∀ e, Spine (s'.mem.writeWord (slot d 0) e) a b c d e) ∧
    (∀ i, isValid (entry s'.mem d i) = false) ∧
    ∀ q, pageSize ∣ q → q ∉ [a, b, c, d] → Agree s.mem s'.mem q := by
  obtain ⟨⟨b', s₁⟩, h₁, h⟩ := bind_eq_ok.mp h
  obtain ⟨⟨c', s₂⟩, h₂, h⟩ := bind_eq_ok.mp h
  obtain ⟨⟨d', s₃⟩, h₃, h⟩ := bind_eq_ok.mp h
  cases pure_eq_ok.mp h
  simp only [List.forall_mem_cons] at hdvd
  obtain ⟨ha, hb, hc, hd, -⟩ := hdvd
  simp only [List.nodup_cons, List.mem_cons, List.not_mem_nil, or_false, not_or] at hnodup
  obtain ⟨⟨hab, hac, had⟩, ⟨hbc, hbd⟩, hcd, -⟩ := hnodup
  obtain ⟨hfirst, hempty₁, hagree₁⟩ := newTable_below h₁ hempty ha hb hab
  obtain ⟨hsecond, hempty₂, hagree₂⟩ := newTable_below h₂ hempty₁ hb hc hbc
  obtain ⟨hthird, hempty₃, hagree₃⟩ := newTable_below h₃ hempty₂ hc hd hcd
  refine ⟨fun e => ⟨?_, ?_, ?_, ?_⟩, hempty₃, fun q hq hnot => ?_⟩
  · exact ((hfirst.agree (hagree₂ a ha hac hab)).agree (hagree₃ a ha had hac)).agree
      (agree_writeWord hd ha had (slot_lt d 0) e)
  · exact (hsecond.agree (hagree₃ b hb hbd hbc)).agree (agree_writeWord hd hb hbd (slot_lt d 0) e)
  · exact hthird.agree (agree_writeWord hd hc hcd (slot_lt d 0) e)
  · exact Single.write (fun i _ => hempty₃ i) e
  · simp only [List.mem_cons, List.not_mem_nil, or_false, not_or] at hnot
    obtain ⟨hqa, hqb, hqc, hqd⟩ := hnot
    exact ((hagree₁ q hq hqb hqa).trans (hagree₂ q hq hqc hqb)).trans (hagree₃ q hq hqd hqc)

/-- **`map`, at the address `0`** of a map with nothing in it. -/
theorem map_of_fresh : map fuel a 0 p attr s =
    incPageRefCount p (s'.setDescriptor (slot d 0) (descriptor p (makeCow attr))) := by
  have hlast := (spine_of_newTables h hempty hnodup hdvd).2.1
  obtain ⟨⟨b', s₁⟩, h₁, h⟩ := bind_eq_ok.mp h
  obtain ⟨⟨c', s₂⟩, h₂, h⟩ := bind_eq_ok.mp h
  obtain ⟨⟨d', s₃⟩, h₃, h⟩ := bind_eq_ok.mp h
  cases pure_eq_ok.mp h
  simp only [List.forall_mem_cons] at hdvd
  obtain ⟨ha, hb, hc, hd, -⟩ := hdvd
  simp only [List.nodup_cons, List.mem_cons, List.not_mem_nil, or_false, not_or] at hnodup
  obtain ⟨⟨hab, -, -⟩, ⟨hbc, -⟩, -⟩ := hnodup
  obtain ⟨-, hempty₁, -⟩ := newTable_below h₁ hempty ha hb hab
  obtain ⟨-, hempty₂, -⟩ := newTable_below h₂ hempty₁ hb hc hbc
  have hwalk : walk fuel true a 0 s = .ok (some (slot d 0), s') := by
    change walkFrom fuel true 3 (0, 0, 0, 0) a s = _
    rw [walkFrom_of_invalid (hempty 0), h₁, ok_bind]
    dsimp only
    rw [walkFrom_of_invalid (hempty₁ 0), h₂, ok_bind]
    dsimp only
    rw [walkFrom_of_invalid (hempty₂ 0), h₃, ok_bind]
    rfl
  rw [map, hwalk, ok_bind]
  dsimp only
  exact if_neg (by rw [show s'.mem.readWord (slot d 0) = entry s'.mem d 0 from rfl, hlast]; simp)

end NewTables

/-! ### Copying one entry -/

/-- The loop goes by the entries that are not valid. -/
theorem foldlM_copyEntry_of_invalid {next : Option (ℕ → ℕ → State → Exec State)} (l : List (Fin 512))
    (h : ∀ i ∈ l, isValid (entry s.mem a i) = false) :
    l.foldlM (copyEntry fuel next a n₀) s = .ok s := by
  induction l with
  | nil => rfl
  | cons i l ih =>
    have hi : copyEntry fuel next a n₀ s i = .ok s := by
      unfold copyEntry
      dsimp only
      rw [h i List.mem_cons_self]
      rfl
    rw [List.foldlM_cons, hi]
    exact ih fun j hj => h j (List.mem_cons_of_mem i hj)

/-- Only the first entry is copied. -/
theorem foldlM_copyEntry {next : Option (ℕ → ℕ → State → Exec State)}
    (h : copyEntry fuel next a n₀ s 0 = .ok s')
    (hrest : ∀ i, i ≠ 0 → isValid (entry s'.mem a i) = false) :
    (List.finRange 512).foldlM (copyEntry fuel next a n₀) s = .ok s' := by
  have hfirst : List.finRange 512 = 0 :: (List.finRange 511).map Fin.succ := List.finRange_succ
  rw [hfirst, List.foldlM_cons, h, ok_bind]
  refine foldlM_copyEntry_of_invalid _ fun i hi => hrest i ?_
  obtain ⟨j, -, rfl⟩ := List.mem_map.mp hi
  exact Fin.succ_ne_zero j

theorem dfsCopyPageTables_succ {k : ℕ} (hsingle : Single s.mem a (descriptor b pdTable))
    (hb : IsFrame b) (hnew : newTable fuel (slot n₀ 0) s = .ok (n₁, s₁))
    (hnext : dfsCopyPageTables fuel k b n₁ s₁ = .ok s')
    (hrest : ∀ i, i ≠ 0 → isValid (entry s'.mem a i) = false) :
    dfsCopyPageTables fuel (k + 1) a n₀ s = .ok s' := by
  refine foldlM_copyEntry ?_ hrest
  unfold copyEntry
  dsimp only
  rw [hsingle.first, isValid_table hb, if_neg (by decide), hnew, frame_table hb]
  exact hnext

/-- **`copy_from`, of a map with one page.** -/
theorem copyFrom_of_spine (hspine : Spine s.mem a b c d e) (hvalid : isValid e = true)
    (h : newTables fuel n₀ s = .ok (n₁, n₂, n₃, s₁))
    (hempty : ∀ i, isValid (entry s.mem n₀ i) = false)
    (hnodup : [a, b, c, d, n₀, n₁, n₂, n₃].Nodup)
    (hframe : ∀ q ∈ [a, b, c, d, n₀, n₁, n₂, n₃], IsFrame q)
    (hcall : incPageRefCount (frame e)
      ((s₁.setDescriptor (slot n₃ 0) (share e)).setDescriptor (slot d 0) (share e)) = .ok s') :
    copyFrom fuel n₀ a s = .ok s' ∧ Spine s'.mem n₀ n₁ n₂ n₃ (share e) := by
  have happend : [a, b, c, d, n₀, n₁, n₂, n₃] = [a, b, c, d] ++ [n₀, n₁, n₂, n₃] := rfl
  rw [happend] at hnodup hframe
  obtain ⟨hold, hnew, -⟩ := List.nodup_append.mp hnodup
  have hdis := List.disjoint_of_nodup_append hnodup
  have hdvd : ∀ q ∈ [a, b, c, d] ++ [n₀, n₁, n₂, n₃], pageSize ∣ q := fun q hq =>
    (hframe q hq).bounds.2.2
  obtain ⟨hspine', -, hagree⟩ := spine_of_newTables h hempty hnew fun q hq =>
    hdvd q (List.mem_append_right _ hq)
  have hd := hdvd d (by simp)
  have hcopied : s'.mem = (s₁.mem.writeWord (slot n₃ 0) (share e)).writeWord (slot d 0) (share e) :=
    incPageRefCount_mem hcall
  -- The tables of the old map are as before, but for the last descriptor.
  have hkept : ∀ q ∈ [a, b, c, d], q ≠ d → Agree s.mem s'.mem q := by
    intro q hq hne
    have hq' := hdvd q (List.mem_append_left _ hq)
    rw [hcopied]
    refine ((hagree q hq' (hdis hq)).trans (agree_writeWord (hdvd n₃ (by simp)) hq' ?_
      (slot_lt n₃ 0) _)).trans (agree_writeWord hd hq' hne (slot_lt d 0) _)
    rintro rfl
    exact hdis hq (by simp)
  simp only [List.nodup_cons, List.mem_cons, List.not_mem_nil, or_false, not_or] at hold
  obtain ⟨⟨-, -, had⟩, ⟨-, hbd⟩, hcd, -⟩ := hold
  obtain ⟨⟨n₁', t₁⟩, h₁, h⟩ := bind_eq_ok.mp h
  obtain ⟨⟨n₂', t₂⟩, h₂, h⟩ := bind_eq_ok.mp h
  obtain ⟨⟨n₃', t₃⟩, h₃, h⟩ := bind_eq_ok.mp h
  cases pure_eq_ok.mp h
  refine ⟨?_, hcopied ▸ (hspine' (share e)).agree fun q hq =>
    agree_writeWord hd (hdvd q (List.mem_append_right _ hq)) ?_ (slot_lt d 0) _⟩
  swap
  · rintro rfl
    exact hdis (by simp) hq
  have hmem : ∀ q ∈ [a, b, c, d], q ≠ n₀ ∧ q ≠ n₁ ∧ q ≠ n₂ ∧ q ≠ n₃ := fun q hq => by
    have hnot : q ∉ [n₀, n₁, n₂, n₃] := fun hin => hdis hq hin
    simp only [List.mem_cons, List.not_mem_nil, or_false, not_or] at hnot
    exact hnot
  simp only [List.nodup_cons, List.mem_cons, List.not_mem_nil, or_false, not_or] at hnew
  obtain ⟨⟨hn₀₁, -, -⟩, ⟨hn₁₂, -⟩, hn₂₃, -⟩ := hnew
  obtain ⟨-, hempty₁, hagree₁⟩ := newTable_below h₁ hempty (hdvd n₀ (by simp)) (hdvd n₁ (by simp)) hn₀₁
  obtain ⟨-, hempty₂, hagree₂⟩ := newTable_below h₂ hempty₁ (hdvd n₁ (by simp)) (hdvd n₂ (by simp)) hn₁₂
  obtain ⟨-, -, hagree₃⟩ := newTable_below h₃ hempty₂ (hdvd n₂ (by simp)) (hdvd n₃ (by simp)) hn₂₃
  obtain ⟨hb₀, hb₁, -, -⟩ := hmem b (by simp)
  obtain ⟨hc₀, hc₁, hc₂, -⟩ := hmem c (by simp)
  obtain ⟨hd₀, hd₁, hd₂, hd₃⟩ := hmem d (by simp)
  have hb := hdvd b (by simp)
  have hc := hdvd c (by simp)
  refine dfsCopyPageTables_succ hspine.first (hframe b (by simp)) h₁ (dfsCopyPageTables_succ
    (hspine.second.agree (hagree₁ b hb hb₁ hb₀)) (hframe c (by simp)) h₂ (dfsCopyPageTables_succ
      ((hspine.third.agree (hagree₁ c hc hc₁ hc₀)).agree (hagree₂ c hc hc₂ hc₁))
      (hframe d (by simp)) h₃ ?_ ?_) ?_) ?_
  · have hlast : Single s₁.mem d e := ((hspine.last.agree (hagree₁ d hd hd₁ hd₀)).agree
      (hagree₂ d hd hd₂ hd₁)).agree (hagree₃ d hd hd₃ hd₂)
    refine foldlM_copyEntry ?_ fun i hi => ?_
    · unfold copyEntry
      dsimp only
      rw [hlast.first, hvalid, if_neg (by decide)]
      exact hcall
    · rw [hcopied, entry_writeWord_of_ne hi.symm, entry_congr (agree_writeWord
        (hdvd n₃ (by simp)) hd hd₃ (slot_lt n₃ 0) _)]
      exact hlast.rest i hi
  · exact (hspine.third.agree (hkept c (by simp) hcd)).rest
  · exact (hspine.second.agree (hkept b (by simp) hbd)).rest
  · exact (hspine.first.agree (hkept a (by simp) had)).rest

/-! ### A fork -/

/-- The calls that make a map with one page and copy it, and the tables that they obtain. -/
def forkedPage (attr : Descriptor) :
    Exec (List ℕ × ℕ × ℕ × ℕ × State × MemoryManager.State × State × State × State) := do
  let (pgd, s₁) ← construct 20 World.zero.s
  let (p, mm) ← MemoryManager.getFreePage 20 true s₁.mm
  let (b, c, d, s₂) ← newTables 20 pgd { s₁ with mm := mm, live := p :: s₁.live }
  let s₃ ← incPageRefCount p (s₂.setDescriptor (slot d 0) (descriptor p (makeCow attr)))
  let (child, s₄) ← construct 20 s₃
  let (n₁, n₂, n₃, s₅) ← newTables 20 child s₄
  let e := share (descriptor p (makeCow attr))
  let s₆ ← incPageRefCount p ((s₅.setDescriptor (slot n₃ 0) e).setDescriptor (slot d 0) e)
  return ([pgd, b, c, d, child, n₁, n₂, n₃], pgd, p, child, s₁, mm, s₃, s₄, s₆)

instance : DecidablePred IsFrame := fun p =>
  inferInstanceAs (Decidable (∃ i, i < BuddyAllocator.maxOrderNrPages ∧ p = zone0Begin + i * pageSize))

theorem construct_eq_ok (h : construct fuel s = .ok (p, s')) (hp : p ≠ 0) :
    s'.mem = s.mem.fill p pageSize 0 := by
  obtain ⟨⟨p', s₁⟩, hpage, h⟩ := bind_eq_ok.mp h
  obtain ⟨⟨p'', mm⟩, -, hpage⟩ := bind_eq_ok.mp hpage
  cases pure_eq_ok.mp hpage
  dsimp only at h
  split_ifs at h with hnull
  · cases pure_eq_ok.mp h
    exact absurd rfl hp
  · obtain ⟨s₂, hclear, h⟩ := bind_eq_ok.mp h
    rw [clearPage, if_neg hnull] at hclear
    cases hclear
    cases pure_eq_ok.mp h
    rfl

theorem empty_of_construct (h : construct fuel s = .ok (p, s')) (hp : p ≠ 0) (i : Fin 512) :
    isValid (entry s'.mem p i) = false := by
  rw [construct_eq_ok h hp, entry_fill_zero]
  decide

/-- **The steps of a fork** with one page. -/
theorem steps_of_forkedPage {tables : List ℕ} {pgd child : ℕ} {mm : MemoryManager.State} {s₄ s₆ : State}
    (h : forkedPage attr = .ok (tables, pgd, p, child, s₁, mm, s₃, s₄, s₆)) (hnodup : tables.Nodup)
    (hframe : ∀ q ∈ p :: tables, IsFrame q) (hattr : IsAttr attr) : ∃ w₁ w₂ w₃ w₄,
    (Step World.zero (.construct pgd) w₁ ∧ Step w₁ .manage w₂ ∧ Step w₂ (.map pgd 0 p attr) w₃ ∧
      Step w₃ (.construct child) w₄ ∧ Step w₄ (.copyFrom child pgd) ⟨s₆, [], [], [child, pgd]⟩) ∧
    pgd ≠ 0 ∧ child ≠ 0 ∧ pgd ≠ child ∧
    look 3 child s₆.mem (pathOf 0) = some (share (descriptor p (makeCow attr))) := by
  obtain ⟨⟨pgd', s₁'⟩, h₁, h⟩ := bind_eq_ok.mp h
  obtain ⟨⟨p', mm'⟩, h₂, h⟩ := bind_eq_ok.mp h
  obtain ⟨⟨b, c, d, s₂⟩, h₃, h⟩ := bind_eq_ok.mp h
  obtain ⟨s₃', h₄, h⟩ := bind_eq_ok.mp h
  obtain ⟨⟨child', s₄'⟩, h₅, h⟩ := bind_eq_ok.mp h
  obtain ⟨⟨n₁, n₂, n₃, s₅⟩, h₆, h⟩ := bind_eq_ok.mp h
  obtain ⟨s₆', h₇, h⟩ := bind_eq_ok.mp h
  cases pure_eq_ok.mp h
  have hne : ∀ q ∈ p :: [pgd, b, c, d, child, n₁, n₂, n₃], q ≠ 0 := fun q hq hEq =>
    not_isFrame_zero (hEq ▸ hframe q hq)
  have hdvd : ∀ q ∈ [pgd, b, c, d, child, n₁, n₂, n₃], pageSize ∣ q := fun q hq =>
    (hframe q (List.mem_cons_of_mem p hq)).bounds.2.2
  have hp := hframe p List.mem_cons_self
  have hnodup₁ : [pgd, b, c, d].Nodup := (List.nodup_append.mp (show
    ([pgd, b, c, d] ++ [child, n₁, n₂, n₃]).Nodup from hnodup)).1
  have hempty := empty_of_construct h₁ (hne pgd (by simp))
  have hdvd₁ : ∀ q ∈ [pgd, b, c, d], pageSize ∣ q := fun q hq =>
    hdvd q (List.mem_append_left [child, n₁, n₂, n₃] hq)
  have hmap : map 20 pgd 0 p attr _ = _ := map_of_fresh h₃ hempty hnodup₁ hdvd₁
  have hone : onePage attr = .ok (pgd, p, s₁, mm, s₃) := by
    rw [onePage, h₁, ok_bind]
    dsimp only
    rw [h₂, ok_bind]
    dsimp only
    rw [hmap, h₄]
    rfl
  obtain ⟨hstep₁, hstep₂, hstep₃⟩ := steps_of_onePage hone (hne pgd (by simp)) (hne p (by simp))
    (toPhysical_of_isFrame hp) hattr
  have hstep₄ := Step.construct (w := ⟨s₃, [], [], [pgd]⟩) 20 h₅
  rw [if_neg (hne child (by simp))] at hstep₄
  -- The map of the parent, before and after the child got its first table.
  have hchild : ∀ q ∈ [pgd, b, c, d], q ≠ child := by
    rintro q hq rfl
    have hdisjoint : [pgd, b, c, d].Disjoint [q, n₁, n₂, n₃] := List.disjoint_of_nodup_append hnodup
    exact hdisjoint hq List.mem_cons_self
  have hspine := (spine_of_newTables h₃ hempty hnodup₁ hdvd₁).1 (descriptor p (makeCow attr))
  have hmem : s₃.mem = s₂.mem.writeWord (slot d 0) (descriptor p (makeCow attr)) :=
    incPageRefCount_mem h₄
  rw [← hmem] at hspine
  have hagree : ∀ q ∈ [pgd, b, c, d], Agree s₃.mem s₄.mem q := fun q hq => by
    rw [construct_eq_ok h₅ (hne child (by simp))]
    exact agree_fill (hdvd child (by simp)) (hdvd₁ q hq) (hchild q hq) 0
  have hspine' := hspine.agree hagree
  have hempty' := empty_of_construct h₅ (hne child (by simp))
  have hattr' := isAttr_makeCow hattr
  have hcopy := copyFrom_of_spine hspine' ((isValid_descriptor hp).trans hattr'.valid) h₆
    hempty' hnodup (fun q hq => hframe q (List.mem_cons_of_mem p hq))
    (by rw [frame_descriptor hp hattr'.mask]; exact h₇)
  have hother := hchild pgd List.mem_cons_self
  refine ⟨_, _, _, _, ⟨hstep₁, hstep₂, hstep₃, hstep₄, .copyFrom 20 List.mem_cons_self
    (List.mem_cons_of_mem child List.mem_cons_self) hother.symm hempty' hcopy.1⟩,
    hne pgd (by simp), hne child (by simp), hother, ?_⟩
  refine hcopy.2.look (fun q hq => hframe q ?_) (isValid_share ?_)
  · exact List.mem_cons_of_mem p (List.mem_append_right [pgd, b, c, d, child] hq)
  · rwa [frame_descriptor hp hattr'.mask]

/-- A page that two tasks share after a fork. -/
theorem accounted_of_run_fork :
    ∃ w, Run AnyStep (World.init (fun _ => none) (fun _ => 0) (fun _ => 0) fun _ => 0) w ∧
      w.maps.length = 2 ∧ (∃ f, IsFrame f ∧ ptesOf w.maps w.s.mem f = 2) ∧ w.s.live.Nodup := by
  have hcheck : check (fun r => decide (r.1.Nodup ∧ (∀ q ∈ r.2.2.1 :: r.1, IsFrame q) ∧
      refCount r.2.2.1 r.2.2.2.2.2.2.2.2 = 2)) (forkedPage userPageRW) = true := by decide +kernel
  obtain ⟨⟨tables, pgd, p, child, s₁, mm, s₃, s₄, s₆⟩, hrun, hr⟩ := exists_ok_of_check hcheck
  obtain ⟨hnodup, hframe, hcount⟩ := of_decide_eq_true hr
  obtain ⟨w₁, w₂, w₃, w₄, ⟨hstep₁, hstep₂, hstep₃, hstep₄, hstep₅⟩, -⟩ :=
    steps_of_forkedPage hrun hnodup hframe (by decide)
  have hrun₃ : Run AnyStep World.zero w₃ :=
    ((Relation.ReflTransGen.single ⟨_, hstep₁⟩).tail ⟨_, hstep₂⟩).tail ⟨_, hstep₃⟩
  have hrun₅ : Run AnyStep World.zero ⟨s₆, [], [], [child, pgd]⟩ :=
    (hrun₃.tail ⟨_, hstep₄⟩).tail ⟨_, hstep₅⟩
  obtain ⟨hrefs, -, hlive, -⟩ := accounted_of_run hrun₅
  have hp := hframe p List.mem_cons_self
  have hshared := (hrefs p hp).symm.trans hcount
  exact ⟨_, hrun₅, rfl, ⟨p, hp, by exact_mod_cast hshared⟩, hlive⟩

end Valkyrie.VMMap
