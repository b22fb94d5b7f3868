import Valkyrie.Mm.Slob.Invariant

/-!
# Splitting a free chunk

`split_from_chunk` cuts a chunk of the requested size from the front of a chunk
that is on a bin. What remains goes to a bin of its own, or is discarded when it
is too small for one. `Valkyrie.SlobAllocator.Inv.splitFromChunk` is its
specification: the invariant is kept when something remains, and when nothing
remains it is kept if no chunk starts behind the chunk that is split.
-/

namespace Valkyrie

namespace SlobAllocator

open Function Exec

/-- The checks of `split_from_chunk` pass. -/
theorem Layout.splitFromChunk_eq {s : State} {pages : List ℕ} {C : List Span} {c : Span} {n : ℕ}
    (h : Layout s pages C) (hc : c ∈ C) (hn : 32 ≤ n) (hle : n ≤ c.size) (fuel : ℕ) :
    splitFromChunk fuel c.start n s = (do
      let s ← binDelHead fuel c.start (writeRemainder (c.start + n) n (c.size - n) s)
      let s ←
        if isChunkSizeUsable (c.size - n) then
          binAddHead (c.start + n) (setAllocated false (c.start + n) s)
        else
          pure (setAllocated true (c.start + n) s)
      return (c.start, writeChunk c.start n (c.size - n) s)) := by
  obtain ⟨-, -, -, -, hpos, hlt, -⟩ := h.bounds hc
  have hneg : ¬s.index c.start < 0 := by
    rw [(h.tagged c hc).index]
    omega
  have husable : ¬¬isChunkSizeUsable n = true := not_not.mpr (isChunkSizeUsable_iff.mpr hn)
  have hfit : ¬getSize s c.start < n := by
    rw [h.getSize_eq hc]
    omega
  rw [splitFromChunk, if_neg (by omega), if_neg husable, if_neg hneg, if_neg hfit,
    h.getSize_eq hc, subSize_of_le hle (by omega), toSize_of_lt (show c.start + n < _ by omega)]

namespace Inv

variable {s t : State} {pages : List ℕ} {C : List Span} {B B' : Bin → List ℕ}
  {live : List (ℕ × ℕ)} {c : Span} {b : Bin} {a n m : ℕ}

/-- The order of the chunks does not matter. -/
theorem perm (h : Inv s pages C B live) {C' : List Span} (hp : C.Perm C') :
    Inv s pages C' B live where
  tiling := h.tiling.perm hp
  settled := h.settled.perm hp
  binned := h.binned.perm hp
  owned := h.owned.perm hp

/-- No chunk starts at the null pointer. -/
theorem start_ne_zero (h : Inv s pages C B live) (hc : c ∈ C) : c.start ≠ 0 := by
  have := h.tiling.bounds hc
  omega

/-- A chunk on a bin is not the last one before the top chunk. -/
theorem dvd_top_of_binned (h : Inv s pages C B live) (hc : c ∈ C) (hmem : c.start ∈ B b)
    (hstop : c.stop = s.topChunk) : pageSize ∣ s.topChunk := by
  by_contra hal
  have hflag := h.settled.top c hc hstop hal (h.start_ne_zero hc)
  exact hal (hstop ▸ h.binned.flag b c hc hmem hflag)

/-- The chunk behind a chunk on a bin is allocated. -/
theorem isAllocated_next_of_binned (h : Inv s pages C B live) (hc : c ∈ C) (hmem : c.start ∈ B b)
    {d : Span} (hd : d ∈ C) (hcd : c.stop = d.start) (hal : ¬pageSize ∣ d.start) :
    isAllocated s d.start := by
  rcases h.settled.apart c hc d hd hcd hal (h.start_ne_zero hc) (h.start_ne_zero hd) with hf | hf
  · exact absurd (hcd ▸ h.binned.flag b c hc hmem hf) hal
  · exact hf

/-- A chunk on a bin is not live. -/
theorem notMem_live_of_binned (h : Inv s pages C B live) (hmem : a ∈ B b) :
    a + chunkHeaderSize ∉ live.map Prod.fst := by
  intro hlive
  obtain ⟨e, he, hEq⟩ := List.mem_map.mp hlive
  obtain ⟨c, -, hs, -, -, -, hout⟩ := h.owned.chunk e he
  have hca : c.start = a := by omega
  exact hout b (hca ▸ hmem)

/-- **A chunk on a bin is split**: what the headers and the bins have to be
afterwards. -/
theorem split (h : Inv s pages (⟨a, n + m⟩ :: C) B live) (hmem : a ∈ B b) (hn : 0 < n)
    (hn16 : 16 ∣ n) (hm : 0 < m)
    (hbegin : t.pageFrameAllocatableBegin = s.pageFrameAllocatableBegin)
    (htop : t.topChunk = s.topChunk)
    (hend : t.pageFrameAllocatableEnd = s.pageFrameAllocatableEnd)
    (htopPrev : t.topChunkPrevChunkSize = s.topChunkPrevChunkSize)
    (hia : t.index a = (n / 16 : ℕ) - 2) (hir : t.index (a + n) = (m / 16 : ℕ) - 2)
    (hi : ∀ d ∈ C, t.index d.start = s.index d.start)
    (hpa : getPrevChunkSize t a = getPrevChunkSize s a) (hpr : getPrevChunkSize t (a + n) = n)
    (hpn : ∀ d ∈ C, d.start = a + (n + m) → ¬pageSize ∣ d.start → getPrevChunkSize t d.start = m)
    (hp : ∀ d ∈ C, d.start ≠ a + (n + m) → getPrevChunkSize t d.start = getPrevChunkSize s d.start)
    (hfa : isAllocated t a) (hfr : ¬isAllocated t (a + n) → 32 ≤ m)
    (hf : ∀ d ∈ C, isAllocated t d.start = isAllocated s d.start)
    (hbinned : Binned t (⟨a, n⟩ :: ⟨a + n, m⟩ :: C) B')
    (hB : ∀ b, ∀ x ∈ B' b, x = a + n ∨ x ∈ B b) :
    Inv t pages (⟨a, n⟩ :: ⟨a + n, m⟩ :: C) B' live := by
  have hself : (⟨a, n + m⟩ : Span) ∈ (⟨a, n + m⟩ :: C : List Span) := by simp
  have htiling : Tiling t pages (⟨a, n⟩ :: ⟨a + n, m⟩ :: C) :=
    h.tiling.cut hbegin htop hend hn hn16 hm hia hir hi (fun _ => hpa) hpr hpn
      fun d hd hne _ => hp d hd hne
  have hlast : (⟨a + n, m⟩ : Span).stop = (⟨a, n + m⟩ : Span).stop := by
    simp only [Span.stop]
    omega
  have hmid : (⟨a + n, m⟩ : Span) ∈ (⟨a, n⟩ :: ⟨a + n, m⟩ :: C : List Span) := by simp
  refine ⟨htiling, ⟨fun c hc d hd hcd hal _ _ => ?_, fun c hc hstop hal _ => ?_,
    fun c hc hstop hal _ => ?_, fun c hc hfree => ?_⟩, hbinned, ?_⟩
  · rcases List.mem_cons.mp hc with rfl | hc
    · exact Or.inl hfa
    rcases List.mem_cons.mp hd with rfl | hd
    · exact Or.inr hfa
    rcases List.mem_cons.mp hd with rfl | hd
    · -- The remainder comes right behind the chunk it was cut from.
      have : c = ⟨a, n⟩ := htiling.eq_of_stop (by simp [hc]) (by simp) hcd
      rw [this]
      exact Or.inl hfa
    rcases List.mem_cons.mp hc with rfl | hc
    · refine Or.inr ?_
      rw [hf d hd]
      exact h.isAllocated_next_of_binned hself hmem (by simp [hd]) (hlast ▸ hcd) hal
    · rw [hf c hc, hf d hd]
      exact h.settled.apart c (by simp [hc]) d (by simp [hd]) hcd hal
        (h.start_ne_zero (by simp [hc])) (h.start_ne_zero (by simp [hd]))
  · rw [htop] at hstop hal
    rcases List.mem_cons.mp hc with rfl | hc
    · exact hfa
    rcases List.mem_cons.mp hc with rfl | hc
    · exact absurd (h.dvd_top_of_binned hself hmem (hlast ▸ hstop)) hal
    · rw [hf c hc]
      exact h.settled.top c (by simp [hc]) hstop hal (h.start_ne_zero (by simp [hc]))
  · rw [htop] at hstop hal
    rw [htopPrev]
    rcases List.mem_cons.mp hc with rfl | hc
    · -- The chunk in front of the remainder does not touch the top chunk.
      have hcov := h.tiling.covering.inside _ hself (a + n) ⟨by simp only; omega, by simp only; omega⟩
      obtain ⟨-, hle, -⟩ := h.tiling.getTopChunkSize_eq
      simp only [Span.stop] at hstop
      have hdvd := h.tiling.dvd_end
      rcases Nat.eq_or_lt_of_le hle with heq | hlt
      · exact absurd (heq ▸ hdvd) hal
      · exact absurd ⟨hstop.ge, hstop ▸ hlt⟩ hcov.2
    rcases List.mem_cons.mp hc with rfl | hc
    · exact absurd (h.dvd_top_of_binned hself hmem (hlast ▸ hstop)) hal
    · exact h.settled.topPrev c (by simp [hc]) hstop hal (h.start_ne_zero (by simp [hc]))
  · rcases List.mem_cons.mp hc with rfl | hc
    · exact absurd hfa hfree
    rcases List.mem_cons.mp hc with rfl | hc
    · exact hfr hfree
    · exact h.settled.large c (by simp [hc]) (hf c hc ▸ hfree)
  · -- A live chunk is not the one that is split, since that one is on a bin.
    refine h.owned.retile fun c hc hal hout hlive => ?_
    have hne : c.start ≠ a := fun hEq => hout b (hEq ▸ hmem)
    have hcC : c ∈ C := by
      rcases List.mem_cons.mp hc with rfl | hc
      · exact absurd rfl hne
      · exact hc
    refine ⟨by simp [hcC], (hf c hcC).trans hal, fun b' hb' => ?_⟩
    rcases hB b' _ hb' with hEq | hb'
    · have hcr : c = ⟨a + n, m⟩ := htiling.eq_of_start (by simp [hcC]) hmid hEq
      have hin : Span.Covers ⟨a, n + m⟩ c.start := ⟨by simp only; omega, by simp only; omega⟩
      have := h.tiling.start_eq_of_covers hself (by simp [hcC]) hin
      rw [hcr] at this
      simp only [Span.mk.injEq] at this
      omega
    · exact hout b' hb'

/-- What a call hands back when it has found a chunk: the chunk is at least as
large as asked for, and nobody else knows of it. -/
def Taken (s : State) (pages : List ℕ) (live : List (ℕ × ℕ)) (a n : ℕ) : Prop :=
  ∃ C B, Inv s pages C B live ∧ (⟨a, n⟩ : Span) ∈ C ∧ isAllocated s a ∧ (∀ b, a ∉ B b) ∧
    a + chunkHeaderSize ∉ live.map Prod.fst

end Inv

/-! ### The header of the remainder -/

/-- The header at `r` is the one of a remainder of size `m` behind a chunk of size
`n`, and no other header has changed but for its link. -/
structure RemainderWritten (s t : State) (r n m : ℕ) : Prop where
  pageBegin : t.pageFrameAllocatableBegin = s.pageFrameAllocatableBegin
  topChunk : t.topChunk = s.topChunk
  pageEnd : t.pageFrameAllocatableEnd = s.pageFrameAllocatableEnd
  topPrev : t.topChunkPrevChunkSize = s.topChunkPrevChunkSize
  index : ∀ d, d ≠ r → t.index d = s.index d
  indexSelf : t.index r = (m / 16 : ℕ) - 2
  prev : ∀ d, d ≠ r → getPrevChunkSize t d = getPrevChunkSize s d
  prevSelf : getPrevChunkSize t r = n
  flag : ∀ d, d ≠ r → isAllocated t d = isAllocated s d

/-- What `split_from_chunk` does to the remainder, whatever it does to the bins. -/
theorem remainderWritten {s : State} {r n m : ℕ} (hn : 2 ∣ n) (hn' : n < 2 ^ 31) (hm : 16 ∣ m)
    (hm' : m < 2 ^ 24) (flag : Bool) (next : ℕ → Option ℕ) (bins : Bin → Option ℕ) :
    RemainderWritten s
      { setAllocated flag r (writeRemainder r n m s) with next := next, bins := bins } r n m where
  pageBegin := rfl
  topChunk := rfl
  pageEnd := rfl
  topPrev := rfl
  index d hd := update_of_ne hd _ _
  indexSelf := (update_self ..).trans (getBinIndex_of_dvd hm hm')
  prev d hd := by
    change getPrevChunkSize (setAllocated flag r (writeRemainder r n m s)) d = _
    rw [getPrevChunkSize_setAllocated]
    simp only [getPrevChunkSize, writeRemainder, update_of_ne hd]
  prevSelf := by
    change getPrevChunkSize (setAllocated flag r (writeRemainder r n m s)) r = _
    rw [getPrevChunkSize_setAllocated]
    simp only [getPrevChunkSize, writeRemainder, update_self, toInt_of_lt hn']
    omega
  flag d hd := by
    change isAllocated (setAllocated flag r (writeRemainder r n m s)) d = _
    rw [isAllocated_setAllocated_of_ne hd]
    simp only [isAllocated, writeRemainder, update_of_ne hd]

namespace Inv

variable {s t : State} {pages : List ℕ} {C : List Span} {B B' : Bin → List ℕ}
  {live : List (ℕ × ℕ)} {c : Span} {b : Bin} {a n m : ℕ}

/-- The bins when the header of a remainder is written inside the chunk that is
split, or where no chunk starts. -/
theorem binned_writeRemainder (h : Inv s pages C B live) {r k l : ℕ} (hr : ∀ d ∈ C, d.start ≠ r) :
    Binned (writeRemainder r k l s) C B := by
  refine h.binned.retile h.binned.starts rfl (fun b x hx => ?_) (fun _ _ hd _ => hd)
    fun b x hx => ?_
  · obtain ⟨d, hd, rfl, -⟩ := h.binned.sound b x hx
    exact update_of_ne (hr d hd) _ _
  · obtain ⟨d, hd, rfl, -⟩ := h.binned.sound b x hx
    simp only [isAllocated, writeRemainder, update_of_ne (hr d hd)]

/-- No chunk starts inside the chunk that is split. -/
theorem start_ne_remainder (h : Inv s pages (⟨a, n + m⟩ :: C) B live) (hn : 0 < n) (hm : 0 < m) :
    ∀ d ∈ (⟨a, n + m⟩ :: C : List Span), d.start ≠ a + n := by
  intro d hd hEq
  have hd' := h.tiling.start_eq_of_covers (c := ⟨a, n + m⟩) (by simp) hd
    ⟨by rw [hEq]; simp only; omega, by rw [hEq]; simp only; omega⟩
  rw [← hd'] at hEq
  simp only at hEq
  omega

/-- No other chunk starts where a chunk starts. -/
theorem start_ne_head (h : Inv s pages (c :: C) B live) : ∀ d ∈ C, d.start ≠ c.start :=
  fun d hd hEq => h.tiling.covering.not_covers hd
    (Span.covers_start (h.tiling.tagged c (by simp)).pos)
    (hEq ▸ Span.covers_start (h.tiling.tagged d (by simp [hd])).pos)

/-- The starts of the two parts of a chunk are new and different. -/
theorem starts_cut (h : Inv s pages (⟨a, n + m⟩ :: C) B live) (hn : 0 < n) (hm : 0 < m) :
    ∀ d ∈ (⟨a, n⟩ :: ⟨a + n, m⟩ :: C : List Span),
      ∀ e ∈ (⟨a, n⟩ :: ⟨a + n, m⟩ :: C : List Span), d.start = e.start → d = e := by
  have hcov := (Covering.cut_iff (Tiling.covers_cut a n m) (Tiling.not_covers_cut a n m)).mpr
    h.tiling.covering
  refine fun d hd e he => Span.start_inj hcov (fun x hx => ?_) hd he
  rcases List.mem_cons.mp hx with rfl | hx
  · exact hn
  rcases List.mem_cons.mp hx with rfl | hx
  · exact hm
  · exact (h.tiling.tagged x (by simp [hx])).pos

/-- **The last part of `split_from_chunk`**, when something remains. -/
theorem taken_writeChunk (h : Inv s pages (⟨a, n + m⟩ :: C) B live) (hmem : a ∈ B b)
    (hn : 0 < n) (hn16 : 16 ∣ n) (hm : 0 < m) (ht : RemainderWritten s t (a + n) n m)
    (hfr : ¬isAllocated t (a + n) → 32 ≤ m)
    (hbinned : Binned t (⟨a, n⟩ :: ⟨a + n, m⟩ :: C) B')
    (hB : ∀ b, ∀ x ∈ B' b, x = a + n ∨ x ∈ (B b).erase a) :
    Taken (writeChunk a n m t) pages live a n := by
  have hself : (⟨a, n + m⟩ : Span) ∈ (⟨a, n + m⟩ :: C : List Span) := by simp
  obtain ⟨-, h16, -, hpage, -, hlt, -⟩ := h.tiling.bounds hself
  simp only at h16 hpage hlt
  have hr := h.start_ne_remainder hn hm
  have hra : a ≠ a + n := hr _ hself
  have hCr : ∀ d ∈ C, d.start ≠ a + n := fun d hd => hr d (by simp [hd])
  have hCa : ∀ d ∈ C, d.start ≠ a := h.start_ne_head
  obtain ⟨hbins, hbegin, htop, hend, htopPrev⟩ := writeChunk_same (a := a) (n := n) (m := m) (s := t)
  have hnext : getNextChunk t a = a + (n + m) := by
    have hidx : t.index a = ((n + m) / 16 : ℕ) - 2 :=
      (ht.index a hra).trans (h.tiling.tagged _ hself).index
    rw [getNextChunk, getSize_of_index (by omega) hidx]
    exact (toSize_of_lt (by omega)).trans (by omega)
  have haB : ∀ b, a ∉ B' b := fun b' hb' => by
    rcases hB b' a hb' with hEq | hin
    · exact hra hEq
    · exact h.binned.notMem_erase a b' hin
  have hflag : ∀ d, d ≠ a → isAllocated (writeChunk a n m t) d = isAllocated t d := fun d hd => by
    rw [isAllocated_writeChunk, if_neg hd]
  have hfa : isAllocated (writeChunk a n m t) a := by
    rw [isAllocated_writeChunk, if_pos rfl]
  have hindex : ∀ d, d ≠ a → (writeChunk a n m t).index d = t.index d := fun d hd => by
    rw [index_writeChunk, update_of_ne hd]
  refine ⟨⟨a, n⟩ :: ⟨a + n, m⟩ :: C, B', ?_, by simp, hfa, haB, h.notMem_live_of_binned hmem⟩
  refine h.split hmem hn hn16 hm (hbegin.trans ht.pageBegin) (htop.trans ht.topChunk)
    (hend.trans ht.pageEnd) (htopPrev.trans ht.topPrev) ?_ ?_ (fun d hd => ?_) ?_ ?_
    (fun d hd hEq hal => ?_) (fun d hd hne => ?_) hfa
    (fun hfree => hfr (hflag _ hra.symm ▸ hfree)) (fun d hd => ?_) ?_ fun b x hx => ?_
  · rw [index_writeChunk, update_self]
    exact getBinIndex_of_dvd hn16 (by omega)
  · rw [hindex _ hra.symm, ht.indexSelf]
  · rw [hindex _ (hCa d hd), ht.index _ (hCr d hd)]
  · rw [getPrevChunkSize_writeChunk_of_ne (by omega), ht.prev a hra]
  · rw [getPrevChunkSize_writeChunk_of_ne (by omega), ht.prevSelf]
  · -- The chunk behind learns the size of the remainder; the top chunk is not behind.
    have hnt : getNextChunk t a ≠ t.topChunk := by
      rw [hnext, ht.topChunk]
      intro hstop
      exact hal (hEq ▸ hstop ▸ h.dvd_top_of_binned hself hmem hstop)
    rw [hEq, ← hnext]
    exact getPrevChunkSize_writeChunk_next (by omega) (by omega) hnt
  · rw [getPrevChunkSize_writeChunk_of_ne (hnext ▸ hne), ht.prev _ (hCr d hd)]
  · rw [hflag _ (hCa d hd), ht.flag _ (hCr d hd)]
  · refine hbinned.retile hbinned.starts hbins (fun b x hx => ?_) (fun _ _ hd _ => hd)
      fun b x hx => hflag x fun hEq => haB b (hEq ▸ hx)
    have hxa : x ≠ a := fun hEq => haB b (hEq ▸ hx)
    rw [next_writeChunk, update_of_ne hxa]
  · exact (hB b x hx).imp_right List.mem_of_mem_erase

/-! ### The call -/

/-- **`split_from_chunk` when something remains.** -/
theorem splitFromChunk_of_lt (h : Inv s pages (⟨a, n + m⟩ :: C) B live) (hmem : a ∈ B b)
    (hhead : n + m < 0x90 → s.bins (binOf (n + m)) = some a) (hn : 32 ≤ n) (hn16 : 16 ∣ n)
    (hm : 0 < m) (fuel : ℕ) :
    Meets (splitFromChunk fuel a n s) (∀ b, (B b).length ≤ fuel) fun r =>
      r.1 = a ∧ Taken r.2 pages live a n := by
  have hself : (⟨a, n + m⟩ : Span) ∈ (⟨a, n + m⟩ :: C : List Span) := by simp
  obtain ⟨-, h16, -, hpage, ha0, hlt, -⟩ := h.tiling.bounds hself
  simp only at h16 hpage hlt ha0
  have hr := h.start_ne_remainder (show 0 < n by omega) hm
  have hEq := h.tiling.splitFromChunk_eq hself hn (show n ≤ n + m by omega) fuel
  simp only [Nat.add_sub_cancel_left] at hEq
  rw [hEq]
  have hidx : (writeRemainder (a + n) n m s).index a = ((n + m) / 16 : ℕ) - 2 := by
    have hra : a ≠ a + n := hr _ hself
    simp only [writeRemainder, update_of_ne hra]
    exact (h.tiling.tagged _ hself).index
  refine ((h.binned_writeRemainder (k := n) (l := m) hr).binDelHead hself
    (show 32 ≤ n + m by omega) (show a ≠ 0 by omega) hidx hhead fuel).bind ?_
  rintro _ ⟨next, bins, rfl, hb₂⟩
  -- The bins hold chunks of the new tiling too: the chunk that is split is on none.
  have hretile : ∀ flag, Binned
      { setAllocated flag (a + n) (writeRemainder (a + n) n m s) with next := next, bins := bins }
      (⟨a, n⟩ :: ⟨a + n, m⟩ :: C) fun b => (B b).erase a := by
    intro flag
    refine hb₂.retile (h.starts_cut (by omega) hm) rfl (fun _ _ _ => rfl) (fun b d hd hin => ?_)
      fun b x hx => ?_
    · rcases List.mem_cons.mp hd with rfl | hd
      · exact absurd hin (h.binned.notMem_erase a b)
      · simp [hd]
    · obtain ⟨d, hd, rfl, -⟩ := hb₂.sound b x hx
      exact isAllocated_setAllocated_of_ne (hr d hd)
  have hwritten := fun flag next bins => remainderWritten (s := s) (r := a + n) (n := n) (m := m)
    (by omega) (by omega) (by omega) (by omega) flag next bins
  by_cases h32 : 32 ≤ m
  · have hout : ∀ b, a + n ∉ (B b).erase a := by
      intro b hin
      obtain ⟨d, hd, hs, -⟩ := hb₂.sound b _ hin
      exact hr d hd hs
    obtain ⟨next', bins', hadd, hb₃⟩ := (hretile false).binAddHead (c := ⟨a + n, m⟩) (by simp) h32
      (show a + n ≠ 0 by omega) (hwritten false next bins).indexSelf hout
      fun hf => absurd (hf.symm.trans isAllocated_setAllocated_self) (by simp)
    rw [if_pos (isChunkSizeUsable_iff.mpr h32)]
    rw [show SlobAllocator.binAddHead (a + n) (setAllocated false (a + n)
      { writeRemainder (a + n) n m s with next := next, bins := bins }) = _ from hadd]
    refine meets_ok.mpr
      ⟨rfl, h.taken_writeChunk hmem (by omega) hn16 hm (hwritten false next' bins') (fun _ => h32)
        hb₃ ?_⟩
    intro b x hx
    by_cases hb : b = binOf m
    · rw [hb, update_self] at hx
      rw [hb]
      exact List.mem_cons.mp hx
    · rw [update_of_ne hb] at hx
      exact Or.inr hx
  · rw [if_neg (fun hu => h32 (isChunkSizeUsable_iff.mp hu))]
    exact meets_ok.mpr
      ⟨rfl, h.taken_writeChunk hmem (by omega) hn16 hm (hwritten true next bins)
        (fun hfree => absurd isAllocated_setAllocated_self hfree) (hretile true)
        fun b x hx => Or.inr hx⟩

/-- **`split_from_chunk` when nothing remains** and no chunk starts behind the
chunk: the header of the remainder goes where nobody looks. -/
theorem splitFromChunk_of_eq (h : Inv s pages C B live) (hc : c ∈ C) (hmem : c.start ∈ B b)
    (hhead : c.size < 0x90 → s.bins (binOf c.size) = some c.start)
    (hsafe : ∀ d ∈ C, d.start ≠ c.stop) (fuel : ℕ) :
    Meets (splitFromChunk fuel c.start c.size s) (∀ b, (B b).length ≤ fuel) fun r =>
      r.1 = c.start ∧ Taken r.2 pages live c.start c.size := by
  obtain ⟨-, h16, -, hpage, ha0, hlt, -⟩ := h.tiling.bounds hc
  have h32 := (h.binned.bin_eq hc hmem).2
  have hr : ∀ d ∈ C, d.start ≠ c.start + c.size := hsafe
  rw [h.tiling.splitFromChunk_eq hc h32 le_rfl fuel, Nat.sub_self]
  have hidx : (writeRemainder (c.start + c.size) c.size 0 s).index c.start =
      (c.size / 16 : ℕ) - 2 := by
    simp only [writeRemainder, update_of_ne (hr c hc)]
    exact (h.tiling.tagged c hc).index
  refine ((h.binned_writeRemainder (k := c.size) (l := 0) hr).binDelHead hc h32 (by omega) hidx
    hhead fuel).bind ?_
  rintro _ ⟨next, bins, rfl, hb₂⟩
  rw [if_neg (show ¬isChunkSizeUsable 0 = true by decide)]
  refine meets_ok.mpr ⟨rfl, C, fun b => (B b).erase c.start, ?_, hc, ?_, h.binned.notMem_erase c.start,
    h.notMem_live_of_binned hmem⟩
  rotate_left
  · rw [isAllocated_writeChunk, if_pos rfl]
  set t : State := setAllocated true (c.start + c.size)
    { writeRemainder (c.start + c.size) c.size 0 s with next := next, bins := bins } with ht
  have hw : RemainderWritten s t (c.start + c.size) c.size 0 :=
    remainderWritten (by omega) (by omega) (by omega) (by omega) true next bins
  obtain ⟨hbins, hbegin, htop, hend, htopPrev⟩ :=
    writeChunk_same (a := c.start) (n := c.size) (m := 0) (s := t)
  have hnext : getNextChunk t c.start = c.start + c.size := by
    rw [getNextChunk, getSize_of_index (s := t) (by omega) hidx]
    exact (toSize_of_lt (by omega)).trans (by omega)
  -- The flags of the chunks only grow: the chunk itself is now allocated.
  have hflag : ∀ d ∈ C, d.start ≠ c.start →
      isAllocated (writeChunk c.start c.size 0 t) d.start = isAllocated s d.start := by
    intro d hd hne
    rw [isAllocated_writeChunk, if_neg hne, hw.flag _ (hr d hd)]
  have hgrow : ∀ d ∈ C, isAllocated s d.start → isAllocated (writeChunk c.start c.size 0 t) d.start := by
    intro d hd hf
    rw [isAllocated_writeChunk]
    split_ifs with hEq
    · rfl
    · rwa [hw.flag _ (hr d hd)]
  refine ⟨h.tiling.congr (hbegin.trans hw.pageBegin) (htop.trans hw.topChunk)
    (hend.trans hw.pageEnd) (fun d hd => ?_) fun d hd _ => ?_,
    ⟨fun d hd e he hde hal hd0 he0 => ?_, fun d hd hstop hal hd0 => ?_,
      fun d hd hstop hal hd0 => ?_, fun d hd hfree => ?_⟩, ?_, ?_⟩
  · rw [index_writeChunk]
    by_cases hEq : d.start = c.start
    · rw [hEq, update_self, getBinIndex_of_dvd h16 (by omega), (h.tiling.tagged c hc).index]
    · rw [update_of_ne hEq, hw.index _ (hr d hd)]
  · rw [getPrevChunkSize_writeChunk_of_ne (hnext ▸ hr d hd), hw.prev _ (hr d hd)]
  · exact (h.settled.apart d hd e he hde hal hd0 he0).imp (hgrow d hd) (hgrow e he)
  · rw [htop, hw.topChunk] at hstop hal
    exact hgrow d hd (h.settled.top d hd hstop hal hd0)
  · rw [htop, hw.topChunk] at hstop hal
    rw [htopPrev, hw.topPrev]
    exact h.settled.topPrev d hd hstop hal hd0
  · exact h.settled.large d hd fun hal => hfree (hgrow d hd hal)
  · refine hb₂.retile h.binned.starts hbins (fun b x hx => ?_) (fun _ _ hd _ => hd) fun b x hx => ?_
    · have hxc : x ≠ c.start := fun hEq => h.binned.notMem_erase c.start b (hEq ▸ hx)
      rw [next_writeChunk, update_of_ne hxc]
      rfl
    · obtain ⟨d, hd, rfl, -⟩ := hb₂.sound b x hx
      have hxc : d.start ≠ c.start := fun hEq => h.binned.notMem_erase c.start b (hEq ▸ hx)
      rw [hflag d hd hxc]
      simp only [isAllocated, writeRemainder, update_of_ne (hr d hd)]
  · refine h.owned.retile fun d hd hal hout _ => ⟨hd, hgrow d hd hal, fun b' hb' => ?_⟩
    exact hout b' (List.mem_of_mem_erase hb')

/-- **`split_from_chunk`** hands out the front of a chunk on a bin, unless nothing
remains of it and another chunk starts behind it. -/
theorem splitFromChunk (h : Inv s pages C B live) (hc : c ∈ C) (hmem : c.start ∈ B b)
    (hhead : c.size < 0x90 → s.bins (binOf c.size) = some c.start) (hn : 32 ≤ n) (hn16 : 16 ∣ n)
    (hle : n ≤ c.size) (hsafe : c.size = n → ∀ d ∈ C, d.start ≠ c.stop) (fuel : ℕ) :
    Meets (SlobAllocator.splitFromChunk fuel c.start n s) (∀ b, (B b).length ≤ fuel) fun r =>
      r.1 = c.start ∧ Taken r.2 pages live c.start n := by
  rcases Nat.eq_or_lt_of_le hle with rfl | hlt
  · exact h.splitFromChunk_of_eq hc hmem hhead (hsafe rfl) fuel
  · obtain ⟨m, hm⟩ := Nat.exists_eq_add_of_lt hlt
    have hcEq : c = ⟨c.start, n + (m + 1)⟩ := by
      rw [← add_assoc, ← hm]
    have hh := h.perm (List.perm_cons_erase hc)
    rw [hcEq] at hh hhead
    exact hh.splitFromChunk_of_lt hmem hhead hn hn16 (Nat.succ_pos m) fuel

/-- **Where nothing remains, the chunk itself is still in order**, whatever stands
behind it: `split_from_chunk` returns, and the chunk has the size it had. -/
theorem splitFromChunk_size (h : Inv s pages C B live) (hc : c ∈ C) (hbig : 0x90 ≤ c.size)
    (fuel : ℕ) :
    Meets (SlobAllocator.splitFromChunk fuel c.start c.size s) (∀ b, (B b).length ≤ fuel)
      fun r => r.1 = c.start ∧ getSize r.2 c.start = c.size := by
  obtain ⟨-, h16, -, hpage, ha0, hlt, -⟩ := h.tiling.bounds hc
  rw [h.tiling.splitFromChunk_eq hc (by omega) le_rfl fuel, Nat.sub_self]
  set t := writeRemainder (c.start + c.size) c.size 0 s with ht
  have hidx : t.index c.start = (c.size / 16 : ℕ) - 2 := by
    have hne : c.start ≠ c.start + c.size := by omega
    simp only [ht, writeRemainder, update_of_ne hne]
    exact (h.tiling.tagged c hc).index
  have hbins : (nrBins : ℤ) ≤ t.index c.start := by
    rw [hidx, show nrBins = 7 from rfl]
    omega
  have hbin : binGetHead t c.start = .ok .unsorted := by
    rw [binGetHead, if_pos hbins]
  -- The walk over the bin ends even if the header behind the chunk was on it.
  have hdel : Meets (SlobAllocator.binDelHead fuel c.start t) (∀ b, (B b).length ≤ fuel)
      fun _ => True := by
    rw [SlobAllocator.binDelHead, if_neg (by omega), if_pos hbins, SlobAllocator.binDelEntry,
      if_neg (by omega)]
    simp only [hbin, ok_bind]
    split_ifs with hfront
    · exact meets_ok.mpr trivial
    · obtain ⟨l, hlen, hl⟩ := (h.binned.chain .unsorted).truncate (c.start + c.size)
      refine ((hl.unlinkLoop_ends (fun hEq => absurd hEq hfront) fuel).weaken fun hf =>
        hlen.trans (hf .unsorted)).bind fun _ _ => ?_
      exact meets_ok.mpr trivial
  refine hdel.bind fun t' _ => ?_
  rw [if_neg (show ¬isChunkSizeUsable 0 = true by decide)]
  refine meets_ok.mpr ⟨rfl, ?_⟩
  have hnew : (writeChunk c.start c.size 0 (setAllocated true (c.start + c.size) t')).index c.start =
      (c.size / 16 : ℕ) - 2 := by
    rw [index_writeChunk, update_self, getBinIndex_of_dvd h16 (by omega)]
  rw [getSize_of_index (by omega) hnew]
  omega

end Inv

end SlobAllocator

end Valkyrie
