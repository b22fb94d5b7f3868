import Valkyrie.Mm.Slob.Split

/-!
# Allocation

The page allocator behind the slob allocator is a parameter with a contract,
`Valkyrie.SlobAllocator.PageAllocator`: it hands out null, or a page-aligned
frame that it has not handed out before. The invariant of the slob allocator is
then kept by `allocate`, whichever of its five sources the chunk comes from
(`Valkyrie.SlobAllocator.Inv.allocate`), unless the call is one that
`Valkyrie.SlobAllocator.Clobbers` describes: the first chunk of the unsorted bin
that is large enough has exactly the requested size, and a chunk stands behind it.
-/

namespace Valkyrie

namespace SlobAllocator

open Exec

/-- **A page allocator**: it hands out null, or a good frame that it has not handed
out before, and it returns when its loops are given enough rounds. -/
structure PageAllocator (π : Type) where
  /-- `allocate_one_page_frame`. -/
  allocateOnePageFrame : ℕ → π → Exec (ℕ × π)
  /-- The frames that were handed out. -/
  held : π → List ℕ
  /-- How many rounds are enough. -/
  enough : ℕ
  meets : ∀ fuel b, Meets (allocateOnePageFrame fuel b) (enough ≤ fuel) fun r =>
    (r.1 = 0 ∧ held r.2 = held b) ∨ (GoodFrame r.1 ∧ r.1 ∉ held b ∧ held r.2 = r.1 :: held b)

/-- **The request overwrites a header.** The first chunk of the unsorted bin that is
large enough has exactly the requested size, and the address behind it belongs to
a chunk. -/
def Clobbers (s : State) (pages : List ℕ) (n : ℕ) : Prop :=
  ∃ U a, Chain s.next (s.bins .unsorted) U ∧ U.find? (fun a => n ≤ getSize s a) = some a ∧
    getSize s a = n ∧ Used s pages (a + n)

/-! ### The searches -/

/-- The search of the unsorted bin finds the first chunk that is large enough. -/
theorem meets_findUnsorted {s : State} {n : ℕ} {h : Option ℕ} {l : List ℕ}
    (hl : Chain s.next h l) (fuel : ℕ) :
    Meets (findUnsorted s n fuel h) (l.length ≤ fuel) fun r =>
      r = l.find? fun a => n ≤ getSize s a := by
  induction l generalizing h fuel with
  | nil =>
    rw [Chain.nil_iff.mp hl]
    cases fuel <;> exact meets_ok.mpr rfl
  | cons a l ih =>
    rw [hl.1]
    cases fuel with
    | zero => exact meets_outOfFuel.mpr (by simp)
    | succ fuel =>
      rw [findUnsorted, List.find?_cons]
      by_cases hfit : n ≤ getSize s a
      · rw [if_pos hfit, decide_eq_true hfit]
        exact meets_ok.mpr rfl
      · rw [if_neg hfit, decide_eq_false hfit]
        refine (ih hl.2 fuel).weaken fun hlen => ?_
        simpa using hlen

/-- The search of the larger bins finds the front of one of them. -/
theorem findLarger_eq_some {s : State} {idx k a : ℕ} (h : findLarger s idx k = some a) :
    ∃ j, idx ≤ j ∧ j < idx + k ∧ s.bins (.regular j) = some a := by
  induction k generalizing idx with
  | zero => cases h
  | succ k ih =>
    rw [findLarger] at h
    cases hb : s.bins (.regular idx) with
    | some c =>
      rw [hb] at h
      cases h
      exact ⟨idx, le_rfl, by omega, hb⟩
    | none =>
      rw [hb] at h
      obtain ⟨j, h1, h2, h3⟩ := ih h
      exact ⟨j, by omega, by omega, h3⟩

/-- Empty bins serve no request. -/
theorem takeFromBins_of_empty {s : State} (hregular : ∀ k < nrBins, s.bins (.regular k) = none)
    (hunsorted : s.bins .unsorted = none) {fuel n : ℕ} :
    takeFromBins fuel n s = if getBinIndex n < 0 then .error .wild else .ok none := by
  have hlarger : ∀ idx, findLarger s idx (nrBins - idx) = none := by
    intro idx
    cases hfind : findLarger s idx (nrBins - idx) with
    | none => rfl
    | some a =>
      obtain ⟨j, hle, hj, hbin⟩ := findLarger_eq_some hfind
      rw [hregular j (by omega)] at hbin
      cases hbin
  have hnone : findUnsorted s n fuel none = .ok none := by
    cases fuel <;> rfl
  rw [takeFromBins]
  by_cases hneg : getBinIndex n < 0
  · rw [if_pos hneg, if_pos hneg]
    rfl
  · have hexact : (if getBinIndex n < nrBins then s.bins (.regular (getBinIndex n).toNat)
        else none) = none := by
      split_ifs
      · exact hregular _ (by omega)
      · rfl
    rw [if_neg hneg, if_neg hneg]
    simp only [hexact, hunsorted, hnone, hlarger]
    rfl

/-- A chunk at the front of a regular bin has the size of the bin. -/
theorem eq_of_binOf_regular {n k : ℕ} (h : binOf n = .regular k) (h32 : 32 ≤ n) (h16 : 16 ∣ n) :
    n = 16 * (k + 2) ∧ n < 0x90 := by
  rw [binOf] at h
  split_ifs at h with hbig
  have hk : n / 16 - 2 = k := Bin.regular.inj h
  omega

/-- `bin_del_head` does not look at the flags. -/
theorem binDelHead_setAllocated (fuel a d : ℕ) (flag : Bool) (s : State) :
    binDelHead fuel a (setAllocated flag d s) =
      (do let t ← binDelHead fuel a s; return setAllocated flag d t) := by
  by_cases h0 : a = 0
  · simp only [binDelHead, if_pos h0]
    rfl
  by_cases hbig : (nrBins : ℤ) ≤ s.index a
  · have hbig' : (nrBins : ℤ) ≤ (setAllocated flag d s).index a := hbig
    simp only [binDelHead, if_neg h0, if_pos hbig, if_pos hbig', binDelEntry, binGetHead,
      ok_bind]
    by_cases hfront : s.bins .unsorted = some a
    · have hfront' : (setAllocated flag d s).bins .unsorted = some a := hfront
      simp only [if_pos hfront, if_pos hfront']
      rfl
    · have hfront' : ¬(setAllocated flag d s).bins .unsorted = some a := hfront
      simp only [if_neg hfront, if_neg hfront']
      change _ = (unlinkLoop s.next a fuel none (s.bins .unsorted) >>= _) >>= _
      change unlinkLoop s.next a fuel none (s.bins .unsorted) >>= _ = _
      cases unlinkLoop s.next a fuel none (s.bins .unsorted) <;> rfl
  · have hbig' : ¬(nrBins : ℤ) ≤ (setAllocated flag d s).index a := hbig
    simp only [binDelHead, if_neg h0, if_neg hbig, if_neg hbig']
    by_cases hneg : s.index a < 0
    · have hneg' : (setAllocated flag d s).index a < 0 := hneg
      simp only [if_pos hneg, if_pos hneg']
      rfl
    · have hbins : (setAllocated flag d s).bins = s.bins := rfl
      have hindex : (setAllocated flag d s).index = s.index := rfl
      simp only [if_neg hneg, hbins, hindex]
      cases s.bins (.regular (s.index a).toNat) with
      | none => rfl
      | some head => rfl

namespace Inv

variable {s : State} {pages : List ℕ} {C : List Span} {B : Bin → List ℕ}
  {live : List (ℕ × ℕ)} {c : Span} {b : Bin} {n : ℕ}

/-- **A chunk of exactly the requested size is taken from its bin.** -/
theorem takeExact (h : Inv s pages C B live) (hc : c ∈ C) (hmem : c.start ∈ B b)
    (hhead : c.size < 0x90 → s.bins (binOf c.size) = some c.start) (fuel : ℕ) :
    Meets (binDelHead fuel c.start (setAllocated true c.start s)) (∀ b, (B b).length ≤ fuel)
      fun t => Taken t pages live c.start c.size := by
  have h32 := (h.binned.bin_eq hc hmem).2
  rw [binDelHead_setAllocated]
  refine (h.binned.binDelHead hc h32 (h.start_ne_zero hc) (h.tiling.tagged c hc).index hhead
    fuel).bind ?_
  rintro _ ⟨next, bins, rfl, hb⟩
  refine meets_ok.mpr ⟨C, fun b => (B b).erase c.start, ?_, hc, isAllocated_setAllocated_self,
    h.binned.notMem_erase c.start, h.notMem_live_of_binned hmem⟩
  have hgrow : ∀ d, isAllocated s d →
      isAllocated (setAllocated true c.start { s with next := next, bins := bins }) d := by
    intro d hd
    by_cases hEq : d = c.start
    · rw [hEq]
      exact isAllocated_setAllocated_self
    · rw [isAllocated_setAllocated_of_ne hEq]
      exact hd
  refine ⟨h.tiling.congr rfl rfl rfl (fun _ _ => rfl) fun d _ _ => getPrevChunkSize_setAllocated,
    ⟨fun d hd e he hde hal hd0 he0 => ?_, fun d hd hstop hal hd0 => ?_, h.settled.topPrev,
      fun d hd hfree => h.settled.large d hd fun hal => hfree (hgrow _ hal)⟩, ?_, ?_⟩
  · exact (h.settled.apart d hd e he hde hal hd0 he0).imp (hgrow _) (hgrow _)
  · exact hgrow _ (h.settled.top d hd hstop hal hd0)
  · refine hb.retile h.binned.starts rfl (fun _ _ _ => rfl) (fun _ _ hd _ => hd) fun b x hx => ?_
    have hne : x ≠ c.start := fun hEq => h.binned.notMem_erase c.start b (hEq ▸ hx)
    exact isAllocated_setAllocated_of_ne hne
  · refine h.owned.retile fun d hd hal hout _ => ⟨hd, hgrow _ hal, fun b' hb' => ?_⟩
    exact hout b' (List.mem_of_mem_erase hb')

/-- A chunk behind the first chunk that fits exactly would be overwritten. -/
theorem start_ne_stop_of_not_clobbers (h : Inv s pages C B live) (hc : c ∈ C)
    (hfind : (B .unsorted).find? (fun a => n ≤ getSize s a) = some c.start)
    (hclob : ¬Clobbers s pages n) (hn : c.size = n) : ∀ d ∈ C, d.start ≠ c.stop := by
  intro d hd hEq
  refine hclob ⟨B .unsorted, c.start, h.binned.chain .unsorted, hfind, ?_, ?_⟩
  · rw [h.tiling.getSize_eq hc, hn]
  · have hused := h.tiling.covering.inside d hd _ (Span.covers_start (h.tiling.tagged d hd).pos)
    rw [hEq, Span.stop, hn] at hused
    exact hused

/-- A bin holds no more entries than there are chunks. -/
theorem length_le (h : Inv s pages C B live) (b : Bin) : (B b).length ≤ C.length := by
  have hsub : B b ⊆ C.map Span.start := by
    intro a ha
    obtain ⟨c, hc, hs, -⟩ := h.binned.sound b a ha
    exact List.mem_map.mpr ⟨c, hc, hs⟩
  have hle := (List.subperm_of_subset (h.binned.chain b).nodup hsub).length_le
  rwa [List.length_map] at hle

/-- The chunks of the unsorted bin are large. -/
theorem exists_of_mem_unsorted (h : Inv s pages C B live) {a : ℕ} (ha : a ∈ B .unsorted) :
    ∃ c ∈ C, c.start = a ∧ 0x90 ≤ c.size := by
  obtain ⟨c, hc, hs, -, hbin⟩ := h.binned.sound _ _ ha
  refine ⟨c, hc, hs, ?_⟩
  by_contra hsmall
  rw [binOf, if_neg hsmall] at hbin
  cases hbin

/-- A search that overwrites a header still finds a chunk of the requested size. -/
theorem takeFromBins_of_clobbers (h : Inv s pages C B live) (hclob : Clobbers s pages n)
    (fuel : ℕ) :
    Meets (SlobAllocator.takeFromBins fuel n s) (∀ b, (B b).length ≤ fuel) fun r =>
      ∃ v t, r = some (v, t) ∧ ⟨v, n⟩ ∈ C ∧ getSize t v = n := by
  obtain ⟨U, a, hU, hfind, hsize, -⟩ := hclob
  obtain rfl : U = B .unsorted := hU.unique (h.binned.chain .unsorted)
  obtain ⟨c, hc, rfl, hbig⟩ := h.exists_of_mem_unsorted (List.mem_of_find?_eq_some hfind)
  rw [h.tiling.getSize_eq hc] at hsize
  subst hsize
  obtain ⟨-, h16, -, hpage, -⟩ := h.tiling.bounds hc
  have hidx : getBinIndex c.size = (c.size / 16 : ℕ) - 2 := getBinIndex_of_dvd h16 (by omega)
  have hbins : nrBins = 7 := rfl
  rw [SlobAllocator.takeFromBins, if_neg (by rw [hidx]; omega), if_neg (by rw [hidx]; omega)]
  refine ((meets_findUnsorted hU fuel).weaken fun hf => hf _).bind ?_
  rintro found rfl
  rw [hfind]
  refine (h.splitFromChunk_size hc hbig fuel).bind ?_
  rintro ⟨v, t⟩ ⟨rfl, ht⟩
  exact meets_ok.mpr ⟨c.start, t, rfl, hc, ht⟩

/-- **The searches of `allocate`** find a chunk and take it, or change nothing. -/
theorem takeFromBins (h : Inv s pages C B live) (hn : 32 ≤ n) (hn16 : 16 ∣ n) (hn' : n ≤ pageSize)
    (hclob : ¬Clobbers s pages n) (fuel : ℕ) :
    Meets (SlobAllocator.takeFromBins fuel n s) (∀ b, (B b).length ≤ fuel) fun r =>
      ∀ v t, r = some (v, t) → Taken t pages live v n := by
  have hidx : getBinIndex n = (n / 16 : ℕ) - 2 :=
    getBinIndex_of_dvd hn16 (lt_of_le_of_lt hn' (by decide))
  have hnat : (getBinIndex n).toNat = n / 16 - 2 := by
    rw [hidx]
    omega
  have hbins : nrBins = 7 := rfl
  rw [SlobAllocator.takeFromBins, if_neg (show ¬getBinIndex n < 0 by rw [hidx]; omega), hnat]
  -- The front of a regular bin is a chunk of the size of the bin.
  have hregular : ∀ k a, s.bins (.regular k) = some a →
      ∃ c ∈ C, c.start = a ∧ a ∈ B (.regular k) ∧ c.size = 16 * (k + 2) ∧
        (c.size < 0x90 → s.bins (binOf c.size) = some c.start) := by
    intro k a ha
    have hch := h.binned.chain (.regular k)
    rw [ha] at hch
    obtain ⟨t, ht, -⟩ := hch.exists_cons
    have hmem : a ∈ B (.regular k) := by simp [ht]
    obtain ⟨c, hc, hs, h32, hbin⟩ := h.binned.sound _ a hmem
    obtain ⟨hsize, -⟩ := eq_of_binOf_regular hbin h32 (h.tiling.tagged c hc).sizeAligned
    exact ⟨c, hc, hs, hmem, hsize, fun _ => by rw [hbin, hs, ha]⟩
  cases hexact : (if getBinIndex n < nrBins then s.bins (.regular (n / 16 - 2)) else none) with
  | some victim =>
    have hfront : s.bins (.regular (n / 16 - 2)) = some victim := by
      split_ifs at hexact
      exact hexact
    obtain ⟨c, hc, rfl, hmem, hsize, hhead⟩ := hregular _ _ hfront
    refine (h.takeExact hc hmem hhead fuel).bind fun t ht => ?_
    refine meets_ok.mpr fun v t' hvt => ?_
    obtain ⟨rfl, rfl⟩ : c.start = v ∧ t = t' := by simpa using hvt
    rwa [show n = c.size by omega]
  | none =>
    refine ((meets_findUnsorted (h.binned.chain .unsorted) fuel).weaken fun hf => hf _).bind ?_
    rintro found hfound
    cases found with
    | some chunk =>
      have hmem : chunk ∈ B .unsorted := List.mem_of_find?_eq_some hfound.symm
      obtain ⟨c, hc, rfl, hbig⟩ := h.exists_of_mem_unsorted hmem
      have hfit : n ≤ c.size := by
        have := List.find?_some hfound.symm
        rw [decide_eq_true_eq, h.tiling.getSize_eq hc] at this
        exact this
      refine (h.splitFromChunk hc hmem (fun hlt => absurd hbig (by omega)) hn hn16 hfit
        (h.start_ne_stop_of_not_clobbers hc hfound.symm hclob) fuel).bind ?_
      rintro ⟨v, t⟩ ⟨rfl, ht⟩
      refine meets_ok.mpr fun v' t' hvt => ?_
      obtain ⟨rfl, rfl⟩ : c.start = v' ∧ t = t' := by simpa using hvt
      exact ht
    | none =>
      cases hlarger : findLarger s (n / 16 - 2) (nrBins - (n / 16 - 2)) with
      | none => exact meets_ok.mpr fun v t hvt => by cases hvt
      | some chunk =>
        obtain ⟨j, hj, hj', hfront⟩ := findLarger_eq_some hlarger
        obtain ⟨c, hc, rfl, hmem, hsize, hhead⟩ := hregular _ _ hfront
        -- The bin of the requested size is empty, so the chunk is larger.
        have hne : c.size ≠ n := by
          intro hEq
          have hjn : j = n / 16 - 2 := by omega
          rw [if_pos (by rw [hidx]; omega), ← hjn, hfront] at hexact
          cases hexact
        refine (h.splitFromChunk hc hmem hhead hn hn16 (by omega) (fun hEq => absurd hEq hne)
          fuel).bind ?_
        rintro ⟨v, t⟩ ⟨rfl, ht⟩
        refine meets_ok.mpr fun v' t' hvt => ?_
        obtain ⟨rfl, rfl⟩ : c.start = v' ∧ t = t' := by simpa using hvt
        exact ht

end Inv

/-! ### The top chunk -/

section Top

variable {π : Type} (P : PageAllocator π) {s : State} {b : π} {C : List Span} {B : Bin → List ℕ}
  {live : List (ℕ × ℕ)} {n : ℕ}

/-- **`request_new_page_frame`**, when the top chunk is used up. -/
theorem Inv.requestNewPageFrame (h : Inv s (P.held b) C B live)
    (hused : s.topChunk = s.pageFrameAllocatableEnd) (fuel : ℕ) :
    Meets (SlobAllocator.requestNewPageFrame P.allocateOnePageFrame fuel s b)
      (P.enough ≤ fuel) fun r =>
      Inv r.2.1 (P.held r.2.2) C B live ∧
        (∀ a, isAllocated r.2.1 a = isAllocated s a) ∧
        (r.1 = true → r.2.1.topChunk + pageSize ≤ r.2.1.pageFrameAllocatableEnd) := by
  rw [SlobAllocator.requestNewPageFrame]
  refine (P.meets fuel b).bind ?_
  rintro ⟨p, b'⟩ (⟨hp, hheld⟩ | ⟨hp, hfresh, hheld⟩)
  · obtain rfl : p = 0 := hp
    refine meets_ok.mpr ⟨?_, fun _ => rfl, fun hc => by cases hc⟩
    rw [hheld]
    exact h
  · have hp0 : p ≠ 0 := hp.pos.ne'
    have hend : toSize (p + pageSize) = p + pageSize := toSize_of_lt hp.lt
    simp only [if_neg hp0, meets_pure, hend]
    rw [hheld]
    have htiling := h.tiling.newPage hused hp hfresh
    refine ⟨⟨htiling, ⟨fun c hc d hd => h.settled.apart c hc d hd, fun c _ _ hal => ?_,
      fun c _ _ hal => ?_, h.settled.large⟩, ?_, ?_⟩, fun _ => rfl, fun _ => le_rfl⟩
    · exact absurd hp.aligned hal
    · exact absurd hp.aligned hal
    · exact h.binned.retile h.binned.starts rfl (fun _ _ _ => rfl) (fun _ _ hd _ => hd)
        fun _ _ _ => rfl
    · exact h.owned.retile fun c hc hal hout _ => ⟨hc, hal, hout⟩

/-- **What a request served from the top chunk can change.** The old top chunk may
have become a chunk, and a new chunk may have been cut; only if the old top chunk
was large enough for a bin may the bins have changed. -/
structure FromTop (s t : State) (C C' : List Span) (B B' : Bin → List ℕ) (n : ℕ)
    (victim : Option ℕ) : Prop where
  chunks : ∀ c ∈ C', c ∈ C ∧ isAllocated t c.start = isAllocated s c.start ∨
    isAllocated t c.start ∧
      (c.size = getTopChunkSize s ∧ getTopChunkSize s < n ∨ victim = some c.start)
  bins : B' = B ∨ 32 ≤ getTopChunkSize s ∧ getTopChunkSize s < n

/-- **The top chunk is made large enough.** -/
theorem Inv.renewTopChunk (h : Inv s (P.held b) C B live) (n fuel : ℕ) :
    Meets (SlobAllocator.renewTopChunk P.allocateOnePageFrame fuel n s b) (P.enough ≤ fuel)
      fun r => ∃ C' B', Inv r.2.1 (P.held r.2.2) C' B' live ∧
        (n ≤ pageSize → r.1 = true → r.2.1.topChunk + n ≤ r.2.1.pageFrameAllocatableEnd) ∧
        FromTop s r.2.1 C C' B B' n none := by
  obtain ⟨htop, hle, -⟩ := h.tiling.getTopChunkSize_eq
  rw [SlobAllocator.renewTopChunk]
  by_cases hzero : getTopChunkSize s = 0
  · rw [if_pos hzero]
    refine (h.requestNewPageFrame P (by omega) fuel).mono ?_
    rintro ⟨fresh, t, b'⟩ ⟨hinv, hflag, hroom⟩
    refine ⟨C, B, hinv, fun hn hf => ?_, fun c hc => Or.inl ⟨hc, hflag _⟩, Or.inl rfl⟩
    have := hroom hf
    simp only at this ⊢
    omega
  rw [if_neg hzero]
  by_cases hsmall : getTopChunkSize s < n
  · have hlt : s.topChunk < s.pageFrameAllocatableEnd := by omega
    obtain ⟨t, B', hretire, hinv, hused, hflag, hB⟩ := h.retireTopChunk hlt
    simp only [if_pos hsmall, hretire, ok_bind]
    refine (hinv.requestNewPageFrame P hused fuel).mono ?_
    rintro ⟨fresh, t', b'⟩ ⟨hinv', hflag', hroom⟩
    refine ⟨_, B', hinv', fun hn hf => ?_, fun c hc => ?_, ?_⟩
    · have := hroom hf
      simp only at this ⊢
      omega
    · rw [hflag', hflag]
      rcases List.mem_cons.mp hc with rfl | hc
      · exact Or.inr ⟨isAllocated_topCut_self, Or.inl ⟨rfl, hsmall⟩⟩
      · have hne : c.start ≠ s.topChunk := fun hEq =>
          h.tiling.start_lt_top hc ⟨hEq.ge, hEq ▸ hlt⟩
        exact Or.inl ⟨hc, isAllocated_topCut_of_ne hne⟩
    · by_cases h32 : getTopChunkSize s < 32
      · exact Or.inl (hB h32)
      · exact Or.inr ⟨by omega, hsmall⟩
  · rw [if_neg hsmall]
    exact meets_ok.mpr
      ⟨C, B, h, fun _ _ => by simp only; omega, fun c hc => Or.inl ⟨hc, rfl⟩, Or.inl rfl⟩

/-- **A chunk is cut from the top chunk**, or there is no page left. -/
theorem Inv.takeFromTop (h : Inv s (P.held b) C B live) (hn : 0 < n) (hn16 : 16 ∣ n)
    (hn' : n ≤ pageSize) (fuel : ℕ) :
    Meets (SlobAllocator.takeFromTop P.allocateOnePageFrame fuel n s b) (P.enough ≤ fuel)
      fun r => ∃ C' B', Inv r.2.1 (P.held r.2.2) C' B' live ∧ FromTop s r.2.1 C C' B B' n r.1 ∧
        ∀ v, r.1 = some v → ⟨v, n⟩ ∈ C' ∧ isAllocated r.2.1 v ∧ (∀ k, v ∉ B' k) ∧
          v + chunkHeaderSize ∉ live.map Prod.fst := by
  rw [SlobAllocator.takeFromTop]
  refine (h.renewTopChunk P n fuel).bind ?_
  rintro ⟨fresh, t, b'⟩ ⟨C', B', hinv, hroom, hfrom⟩
  cases fresh with
  | false => exact meets_ok.mpr ⟨C', B', hinv, hfrom, fun v hv => by cases hv⟩
  | true =>
    have hle : t.topChunk + n ≤ t.pageFrameAllocatableEnd := hroom hn' rfl
    have hlt : t.topChunk < t.pageFrameAllocatableEnd := by omega
    simp only [if_true, hinv.tiling.splitFromTopChunk_eq hn hn16 hle, ok_bind]
    refine meets_ok.mpr ⟨_, B', hinv.topCut hn hn16 hle, ⟨?_, hfrom.bins⟩, fun v hv => ?_⟩
    · refine List.forall_mem_cons.mpr ⟨Or.inr ⟨isAllocated_topCut_self, Or.inr rfl⟩, ?_⟩
      intro c hc
      have hne : c.start ≠ t.topChunk := fun hEq =>
        hinv.tiling.start_lt_top hc ⟨hEq.ge, hEq ▸ hlt⟩
      simp only [isAllocated_topCut_of_ne hne]
      refine (hfrom.chunks c hc).imp_right (And.imp_right ?_)
      rintro (hold | hnone)
      · exact Or.inl hold
      · cases hnone
    · obtain rfl : t.topChunk = v := by simpa using hv
      exact ⟨by simp, isAllocated_topCut_self, hinv.notMem_of_top hlt, hinv.notMem_live_of_top hlt⟩

end Top

/-! ### The call -/

/-- The size of the chunk for a request: with the header, rounded up. -/
def chunkSizeOf (size : ℕ) : ℕ :=
  (max (toSize (chunkHeaderSize + size)) smallestChunkSize + 15) / 16 * 16

/-- **The size of a chunk** as `allocate` computes it. -/
theorem meets_normalizeSize {size : ℕ} (h : toSize (chunkHeaderSize + size) ≤ pageSize) (fuel : ℕ) :
    Meets (normalizeSize fuel (toSize (chunkHeaderSize + size))) (256 ≤ fuel) fun n =>
      n = chunkSizeOf size := by
  simp only [pageSize_lit] at h
  have hsm : smallestChunkSize = 32 := rfl
  refine ((meets_roundUpToMultipleOfN (n := 16) ?_ ?_ fuel).weaken fun hf => ?_).mono ?_
  · omega
  · rw [sizeMod_lit]
    omega
  · omega
  · rintro n ⟨h1, h2, h3⟩
    rw [chunkSizeOf]
    omega

/-- The size of a chunk for a request that fits in a page. -/
theorem chunkSizeOf_spec {size : ℕ} (h : toSize (chunkHeaderSize + size) ≤ pageSize) :
    32 ≤ chunkSizeOf size ∧ 16 ∣ chunkSizeOf size ∧ chunkSizeOf size ≤ pageSize ∧
      toSize (chunkHeaderSize + size) ≤ chunkSizeOf size := by
  simp only [pageSize_lit] at h ⊢
  have hsm : smallestChunkSize = 32 := rfl
  rw [chunkSizeOf]
  omega

section Allocate

variable {π : Type} (P : PageAllocator π) {s : State} {b : π} {C : List Span} {B : Bin → List ℕ}
  {live : List (ℕ × ℕ)} {n size : ℕ}

/-- The payload of a chunk is in its page, behind the first byte. -/
theorem Inv.payload {pages : List ℕ} (h : Inv s pages C B live) {v : ℕ} (hv : ⟨v, n⟩ ∈ C)
    (hn : 32 ≤ n) : toSize (v + chunkHeaderSize) = v + chunkHeaderSize ∧
      pageIsAligned (v + chunkHeaderSize) = false :=
  h.tiling.payload hv hn

/-- A chunk that was taken is handed out as its payload. -/
theorem Inv.Taken.grant {pages : List ℕ} {v : ℕ} (h : Inv.Taken s pages live v n) (hn : 32 ≤ n)
    (hsize : toSize (chunkHeaderSize + size) ≤ n) :
    pageIsAligned (toSize (v + chunkHeaderSize)) = false ∧ toSize (v + chunkHeaderSize) ≠ 0 ∧
      ∃ C B, Inv s pages C B ((toSize (v + chunkHeaderSize), size) :: live) := by
  obtain ⟨C, B, hinv, hmem, hal, hout, hdead⟩ := h
  obtain ⟨hv, haligned⟩ := hinv.payload hmem hn
  rw [hv]
  have hhdr : chunkHeaderSize = 16 := rfl
  exact ⟨haligned, by omega, C, B, hinv.grant hmem hsize hn hal hout hdead⟩

/-- **What a call of `allocate` does.** It hands out nothing, or the payload of a
chunk that is large enough. -/
theorem Inv.allocate (h : Inv s (P.held b) C B live)
    (hsize : toSize (chunkHeaderSize + size) ≤ pageSize)
    (hclob : ¬Clobbers s (P.held b) (chunkSizeOf size)) (fuel : ℕ) :
    Meets (SlobAllocator.allocate P.allocateOnePageFrame fuel size s b)
      ((∀ k, (B k).length ≤ fuel) ∧ P.enough ≤ fuel ∧ 256 ≤ fuel) fun r =>
      ∃ C' B', Inv r.2.1 (P.held r.2.2) C' B'
        (if r.1 = 0 then live else (r.1, size) :: live) := by
  obtain ⟨hn, hn16, hn', hfit⟩ := chunkSizeOf_spec hsize
  rw [SlobAllocator.allocate]
  by_cases hzero : size = 0
  · rw [if_pos hzero]
    exact meets_ok.mpr ⟨C, B, h⟩
  rw [if_neg hzero]
  refine ((meets_normalizeSize hsize fuel).weaken fun hf => hf.2.2).bind ?_
  rintro n rfl
  -- What is left to do with the victim.
  have hout : ∀ (v : ℕ) (t : State) (b' : π),
      Inv.Taken t (P.held b') live v (chunkSizeOf size) →
      ∃ C' B', Inv t (P.held b') C' B' (if toSize (v + chunkHeaderSize) = 0 then live
        else (toSize (v + chunkHeaderSize), size) :: live) ∧
        pageIsAligned (toSize (v + chunkHeaderSize)) = false := by
    intro v t b' ht
    obtain ⟨hal, hne, C', B', hinv⟩ := ht.grant hn hfit
    rw [if_neg hne]
    exact ⟨C', B', hinv, hal⟩
  refine ((h.takeFromBins hn hn16 hn' hclob fuel).weaken fun hf => hf.1).bind ?_
  rintro (_ | ⟨v, t⟩) htaken
  · refine ((h.takeFromTop P (by omega) hn16 hn' fuel).weaken fun hf => hf.2.1).bind ?_
    rintro ⟨_ | v, t, b'⟩ ⟨C', B', hinv, -, htop⟩
    · exact meets_ok.mpr ⟨C', B', hinv⟩
    · obtain ⟨C', B', hinv, hal⟩ := hout v t b' ⟨C', B', hinv, htop v rfl⟩
      simp only [hal, Bool.false_eq_true, if_false]
      exact meets_ok.mpr ⟨C', B', hinv⟩
  · obtain ⟨C', B', hinv, hal⟩ := hout v t b (htaken v t rfl)
    change Meets (if pageIsAligned (toSize (v + chunkHeaderSize)) = true then _ else _) _ _
    simp only [hal, Bool.false_eq_true, if_false]
    exact meets_ok.mpr ⟨C', B', hinv⟩

/-- **What `allocate` hands out is large enough**, also by a call that overwrites a
header. -/
theorem Inv.allocate_size (h : Inv s (P.held b) C B live)
    (hsize : toSize (chunkHeaderSize + size) ≤ pageSize) (fuel : ℕ) :
    Meets (SlobAllocator.allocate P.allocateOnePageFrame fuel size s b)
      ((∀ k, (B k).length ≤ fuel) ∧ P.enough ≤ fuel ∧ 256 ≤ fuel) fun r => r.1 ≠ 0 →
        pageIsAligned r.1 = false ∧
          toSize (chunkHeaderSize + size) ≤ getSize r.2.1 (r.1 - chunkHeaderSize) := by
  by_cases hclob : Clobbers s (P.held b) (chunkSizeOf size)
  · obtain ⟨hn, -, -, hfit⟩ := chunkSizeOf_spec hsize
    rw [SlobAllocator.allocate]
    by_cases hzero : size = 0
    · rw [if_pos hzero]
      exact meets_ok.mpr fun h0 => absurd rfl h0
    rw [if_neg hzero]
    refine ((meets_normalizeSize hsize fuel).weaken fun hf => hf.2.2).bind ?_
    rintro n rfl
    refine ((h.takeFromBins_of_clobbers hclob fuel).weaken fun hf => hf.1).bind ?_
    rintro _ ⟨v, t, rfl, hmem, ht⟩
    obtain ⟨hv, hal⟩ := h.payload hmem hn
    change Meets (if pageIsAligned (toSize (v + chunkHeaderSize)) = true then _ else _) _ _
    simp only [hv, hal, Bool.false_eq_true, if_false]
    refine meets_ok.mpr fun _ => ⟨hal, ?_⟩
    simp only [Nat.add_sub_cancel, ht]
    exact hfit
  · refine (h.allocate P hsize hclob fuel).mono ?_
    rintro ⟨p, t, b'⟩ ⟨C', B', hinv⟩ hp
    rw [if_neg hp] at hinv
    obtain ⟨c, hc, hcp, hfit, h32, -⟩ := hinv.owned.chunk _ List.mem_cons_self
    obtain rfl : c.start + chunkHeaderSize = p := hcp
    refine ⟨(hinv.payload hc h32).2, ?_⟩
    simp only [Nat.add_sub_cancel, hinv.tiling.getSize_eq hc]
    exact hfit

/-- **What `allocate` returns is not the address of a page**, in whatever state the
allocator is. -/
theorem allocate_not_aligned {f : ℕ → π → Exec (ℕ × π)} {fuel p : ℕ} {t : State} {b' : π}
    (h : SlobAllocator.allocate f fuel size s b = .ok (p, t, b')) :
    p = 0 ∨ pageIsAligned p = false := by
  rw [SlobAllocator.allocate] at h
  by_cases hzero : size = 0
  · rw [if_pos hzero] at h
    cases h
    exact Or.inl rfl
  rw [if_neg hzero] at h
  obtain ⟨n, -, h⟩ := bind_eq_ok.mp h
  obtain ⟨found, -, h⟩ := bind_eq_ok.mp h
  -- Whichever way the victim was found, the last check looks at its payload.
  have hlast : ∀ (v : ℕ) (s' : State) (c : π),
      (if pageIsAligned (toSize (v + chunkHeaderSize)) = true then
        (.error (.panic "fatal error: _top_chunk = 0x%x, _page_frame_allocatable_begin = 0x%x, req_size = 0x%x, victim = 0x%x\n") : Exec (ℕ × State × π))
      else .ok (toSize (v + chunkHeaderSize), s', c)) = .ok (p, t, b') →
      p = 0 ∨ pageIsAligned p = false := by
    intro v s' c hv
    split_ifs at hv with hal
    cases hv
    exact Or.inr (by simpa using hal)
  cases found with
  | some vt => exact hlast vt.1 vt.2 b h
  | none =>
    obtain ⟨⟨victim, s', c⟩, -, h⟩ := bind_eq_ok.mp h
    cases victim with
    | none =>
      cases h
      exact Or.inl rfl
    | some v => exact hlast v s' c h

end Allocate

end SlobAllocator

end Valkyrie
