import Valkyrie.Base.Cover
import Valkyrie.Mm.Slob.Basic

/-!
# The chunks of the slob allocator tile its pages

The invariant of the slob allocator is written over a ghost list of *chunks*, one
span of addresses for each. It has two parts.

* `Valkyrie.SlobAllocator.Tiling`: the chunks cover the pages that were obtained,
  without the top chunk, exactly once; none crosses the end of a page; the header
  at the start of each holds its size; and a header that does not stand at the
  start of a page holds the size of the chunk before it.
* `Valkyrie.SlobAllocator.Settled`: no two free chunks of a page stand side by
  side, the top chunk counting as a free one, and the size kept for the chunk
  before the top chunk is right. In the middle of a deallocation one chunk is
  exempt.

Chunks are cut (`Valkyrie.SlobAllocator.Tiling.cut`), joined
(`Valkyrie.SlobAllocator.Tiling.join`), taken from the top chunk
(`Valkyrie.SlobAllocator.Tiling.takeTop`) and given back to it
(`Valkyrie.SlobAllocator.Tiling.giveTop`). Each of the four lemmas asks for the
headers that the change needs, and nothing else, so that it does not matter in
which order the code writes them.
-/

namespace Valkyrie

namespace SlobAllocator

/-! ### Sizes and indices -/

theorem pageSize_lit : pageSize = 4096 := rfl

theorem sizeMod_lit : sizeMod = 18446744073709551616 := by
  unfold sizeMod
  norm_num

/-- **The index of a size** that is a multiple of sixteen. Below the smallest size
the subtraction wraps around, and the conversion to `int` makes the result
negative. -/
theorem getBinIndex_eq {n : ℕ} (hn : n < 2 ^ 20) : getBinIndex (16 * n) = (n : ℤ) - 2 := by
  have hq : subSize (16 * n) smallestChunkSize / chunkSizeGap =
      if 2 ≤ n then n - 2 else 2 ^ 60 + n - 2 := by
    simp only [subSize, smallestChunkSize, chunkSizeGap, sizeMod_lit]
    split_ifs <;> omega
  rw [getBinIndex, hq]
  unfold toInt
  rw [Int.bmod_def]
  split_ifs <;> omega

theorem getBinIndex_of_dvd {n : ℕ} (h16 : 16 ∣ n) (hn : n < 2 ^ 24) :
    getBinIndex n = (n / 16 : ℕ) - 2 := by
  rw [← getBinIndex_eq (n := n / 16) (by omega)]
  congr 1
  omega

theorem isChunkSizeUsable_iff {n : ℕ} : isChunkSizeUsable n = true ↔ 32 ≤ n := decide_eq_true_iff

/-- The size a header gives, from its index. -/
theorem getSize_of_index {s : State} {a n : ℕ} (hn : n < 2 ^ 20) (h : s.index a = (n : ℤ) - 2) :
    getSize s a = 16 * n := by
  have hEq : (smallestChunkSize : ℤ) + s.index a * chunkSizeGap = ((16 * n : ℕ) : ℤ) := by
    rw [h]
    simp only [smallestChunkSize, chunkSizeGap]
    push_cast
    omega
  rw [getSize, hEq]
  exact ofInt_natCast (by rw [sizeMod_lit]; omega)

theorem getPrevChunkSize_withFlag {x : ℤ} (hx : x % 2 = 0) (b : Bool) :
    withFlag x b - withFlag x b % 2 = x := by
  cases b <;> simp only [withFlag] <;> simp <;> omega

/-! ### The invariant -/

/-- The start of the page of an address. -/
def pageOf (f : ℕ) : ℕ := f - f % pageSize

/-- The address belongs to a page that was obtained, and not to the top chunk. -/
def Used (s : State) (pages : List ℕ) (f : ℕ) : Prop :=
  pageOf f ∈ pages ∧ ¬(s.topChunk ≤ f ∧ f < s.pageFrameAllocatableEnd)

/-- A frame a page allocator may hand out. -/
structure GoodFrame (p : ℕ) : Prop where
  aligned : pageSize ∣ p
  pos : 0 < p
  lt : p + pageSize < sizeMod

/-- A chunk as the header at its start describes it. -/
structure Tagged (s : State) (c : Span) : Prop where
  startAligned : 16 ∣ c.start
  sizeAligned : 16 ∣ c.size
  pos : 0 < c.size
  samePage : c.start % pageSize + c.size ≤ pageSize
  index : s.index c.start = (c.size / 16 : ℕ) - 2

theorem Tagged.of_index {s s' : State} {c : Span} (h : Tagged s c)
    (hi : s'.index c.start = s.index c.start) : Tagged s' c :=
  { h with index := hi.trans h.index }

/-- **The chunks lie in the pages side by side**, with the top chunk behind them, and
the header of each gives its size. -/
structure Layout (s : State) (pages : List ℕ) (C : List Span) : Prop where
  frame : ∀ p ∈ pages, GoodFrame p
  current : (pages = [] ∧ s.topChunk = 0 ∧ s.pageFrameAllocatableEnd = 0) ∨
    (s.pageFrameAllocatableBegin ∈ pages ∧
      s.pageFrameAllocatableEnd = s.pageFrameAllocatableBegin + pageSize ∧
      s.pageFrameAllocatableBegin ≤ s.topChunk ∧ s.topChunk ≤ s.pageFrameAllocatableEnd ∧
      16 ∣ s.topChunk)
  covering : Covering Span.Covers (Used s pages) C
  tagged : ∀ c ∈ C, Tagged s c

/-- **The chunks tile the pages**, and the header of each gives the size of the one before it. -/
structure Tiling (s : State) (pages : List ℕ) (C : List Span) : Prop extends Layout s pages C where
  prev : ∀ c ∈ C, ∀ d ∈ C, c.stop = d.start → ¬pageSize ∣ d.start →
    getPrevChunkSize s d.start = c.size

/-- **No two free chunks stand side by side**, and the top chunk is free. The
chunk at `x` is exempt; nothing is exempt when no chunk is there. A free chunk is
large enough for a bin, whether it is on one or not. -/
structure Settled (s : State) (C : List Span) (x : ℕ) : Prop where
  apart : ∀ c ∈ C, ∀ d ∈ C, c.stop = d.start → ¬pageSize ∣ d.start → c.start ≠ x → d.start ≠ x →
    isAllocated s c.start ∨ isAllocated s d.start
  top : ∀ c ∈ C, c.stop = s.topChunk → ¬pageSize ∣ s.topChunk → c.start ≠ x →
    isAllocated s c.start
  topPrev : ∀ c ∈ C, c.stop = s.topChunk → ¬pageSize ∣ s.topChunk → c.start ≠ x →
    s.topChunkPrevChunkSize = c.size
  large : ∀ c ∈ C, ¬isAllocated s c.start → 32 ≤ c.size

/-- The order of the chunks does not matter. -/
theorem Settled.perm {s : State} {C C' : List Span} {x : ℕ} (h : Settled s C x)
    (hp : C.Perm C') : Settled s C' x where
  apart c hc d hd := h.apart c (hp.mem_iff.mpr hc) d (hp.mem_iff.mpr hd)
  top c hc := h.top c (hp.mem_iff.mpr hc)
  topPrev c hc := h.topPrev c (hp.mem_iff.mpr hc)
  large c hc := h.large c (hp.mem_iff.mpr hc)

/-! ### Where the chunks are -/

namespace Layout

variable {s : State} {pages : List ℕ} {C : List Span} {c d : Span} {n : ℕ}

/-- The bounds of a chunk. -/
theorem bounds (h : Layout s pages C) (hc : c ∈ C) :
    16 ∣ c.start ∧ 16 ∣ c.size ∧ 16 ≤ c.size ∧ c.start % 4096 + c.size ≤ 4096 ∧ 4096 ≤ c.start ∧
      c.start + c.size < sizeMod ∧ pageOf c.start ∈ pages := by
  obtain ⟨h1, h2, h3, h4, -⟩ := h.tagged c hc
  rw [pageSize_lit] at h4
  have hpage : pageOf c.start ∈ pages := (h.covering.inside c hc _ (Span.covers_start h3)).1
  obtain ⟨hal, hpos, hlt⟩ := h.frame _ hpage
  rw [pageOf, pageSize_lit] at hpos hlt
  exact ⟨h1, h2, by omega, h4, by omega, by omega, hpage⟩

/-- No chunk starts inside another one. -/
theorem start_eq_of_covers (h : Layout s pages C) (hc : c ∈ C) (hd : d ∈ C)
    (hf : c.Covers d.start) : c = d :=
  h.covering.eq_of_covers hc hd hf (Span.covers_start (h.tagged d hd).pos)

/-- No chunk starts in the top chunk. -/
theorem start_lt_top (h : Layout s pages C) (hc : c ∈ C) :
    ¬(s.topChunk ≤ c.start ∧ c.start < s.pageFrameAllocatableEnd) :=
  (h.covering.inside c hc _ (Span.covers_start (h.tagged c hc).pos)).2

/-- The size that the header of a chunk gives. -/
theorem getSize_eq (h : Layout s pages C) (hc : c ∈ C) : getSize s c.start = c.size := by
  obtain ⟨-, h2, -, h4, -⟩ := h.bounds hc
  rw [getSize_of_index (by omega) (h.tagged c hc).index]
  omega

/-- The end of the current page is the end of a page. -/
theorem dvd_end (h : Layout s pages C) : pageSize ∣ s.pageFrameAllocatableEnd := by
  rcases h.current with ⟨-, -, hend⟩ | ⟨hmem, hend, -⟩
  · rw [hend]
    exact dvd_zero _
  · rw [hend]
    exact (Nat.dvd_add_right (h.frame _ hmem).aligned).mpr dvd_rfl

/-- A top chunk that is not used up belongs to a page. -/
theorem current_of_lt (h : Layout s pages C) (hlt : s.topChunk < s.pageFrameAllocatableEnd) :
    s.pageFrameAllocatableBegin ∈ pages ∧
      s.pageFrameAllocatableEnd = s.pageFrameAllocatableBegin + pageSize ∧
      s.pageFrameAllocatableBegin ≤ s.topChunk ∧ 16 ∣ s.topChunk := by
  rcases h.current with ⟨-, h1, h2⟩ | ⟨h1, h2, h3, -, h5⟩
  · omega
  · exact ⟨h1, h2, h3, h5⟩

/-- The size of the top chunk. -/
theorem getTopChunkSize_eq (h : Layout s pages C) :
    getTopChunkSize s = s.pageFrameAllocatableEnd - s.topChunk ∧
      s.topChunk ≤ s.pageFrameAllocatableEnd ∧ s.pageFrameAllocatableEnd < sizeMod ∧
      16 ∣ s.topChunk ∧ 16 ∣ s.pageFrameAllocatableEnd := by
  have hend : 16 ∣ s.pageFrameAllocatableEnd := (show 16 ∣ pageSize by decide).trans h.dvd_end
  rcases h.current with ⟨-, h1, h2⟩ | ⟨h1, h2, -, h4, h5⟩
  · rw [getTopChunkSize, h1, h2]
    exact ⟨rfl, le_rfl, by decide, dvd_zero _, dvd_zero _⟩
  · have hlt : s.pageFrameAllocatableEnd < sizeMod := h2 ▸ (h.frame _ h1).lt
    exact ⟨subSize_of_le h4 hlt, h4, hlt, h5, hend⟩

/-- The payload of a chunk is in its page, behind the first byte. -/
theorem payload (h : Layout s pages C) (hc : c ∈ C) (h32 : 32 ≤ c.size) :
    toSize (c.start + chunkHeaderSize) = c.start + chunkHeaderSize ∧
      pageIsAligned (c.start + chunkHeaderSize) = false := by
  obtain ⟨-, -, -, hpage, hpos, hlt, -⟩ := h.bounds hc
  have hhdr : chunkHeaderSize = 16 := rfl
  refine ⟨toSize_of_lt (by omega), ?_⟩
  simp only [pageIsAligned, pageSize_lit, beq_eq_false_iff_ne, ne_eq]
  omega

end Layout

namespace Tiling

variable {s s' : State} {pages : List ℕ} {C : List Span} {c d : Span} {a n m f : ℕ}

/-- The order of the chunks does not matter. -/
theorem perm (h : Tiling s pages C) {C' : List Span} (hp : C.Perm C') : Tiling s pages C' where
  frame := h.frame
  current := h.current
  covering := h.covering.perm hp
  tagged c hc := h.tagged c (hp.mem_iff.mpr hc)
  prev c hc d hd := h.prev c (hp.mem_iff.mpr hc) d (hp.mem_iff.mpr hd)

/-- The tiling depends only on the headers of the chunks, and on them not in full. -/
theorem congr (h : Tiling s pages C)
    (hbegin : s'.pageFrameAllocatableBegin = s.pageFrameAllocatableBegin)
    (htop : s'.topChunk = s.topChunk)
    (hend : s'.pageFrameAllocatableEnd = s.pageFrameAllocatableEnd)
    (hi : ∀ c ∈ C, s'.index c.start = s.index c.start)
    (hp : ∀ c ∈ C, ¬pageSize ∣ c.start → getPrevChunkSize s' c.start = getPrevChunkSize s c.start) :
    Tiling s' pages C where
  frame := h.frame
  current := by
    rw [hbegin, htop, hend]
    exact h.current
  covering := h.covering.congr fun f => by rw [Used, Used, htop, hend]
  tagged c hc := (h.tagged c hc).of_index (hi c hc)
  prev c hc d hd hcd hal := (hp d hd hal).trans (h.prev c hc d hd hcd hal)

/-- Two chunks with a common address are equal. -/
theorem eq_of_covers (h : Tiling s pages C) (hc : c ∈ C) (hd : d ∈ C) (hcf : c.Covers f)
    (hdf : d.Covers f) : c = d :=
  h.covering.eq_of_covers hc hd hcf hdf

/-- A chunk is determined by its start. -/
theorem eq_of_start (h : Tiling s pages C) (hc : c ∈ C) (hd : d ∈ C) (hs : c.start = d.start) :
    c = d :=
  h.eq_of_covers hc hd (Span.covers_start (h.tagged c hc).pos)
    (hs ▸ Span.covers_start (h.tagged d hd).pos)

/-- A chunk is determined by where it stops. -/
theorem eq_of_stop (h : Tiling s pages C) (hc : c ∈ C) (hd : d ∈ C) (hs : c.stop = d.stop) :
    c = d := by
  have h1 := (h.tagged c hc).pos
  have h2 := (h.tagged d hd).pos
  simp only [Span.stop] at hs
  exact h.eq_of_covers (f := c.start + c.size - 1) hc hd ⟨by omega, by omega⟩
    ⟨by omega, by omega⟩

/-- The other chunks start elsewhere. -/
theorem start_ne_of_mem (h : Tiling s pages (c :: C)) (hd : d ∈ C) : d.start ≠ c.start := by
  intro hEq
  have hcov := h.covering.not_covers hd (Span.covers_start (h.tagged c (by simp)).pos)
  exact hcov (hEq ▸ Span.covers_start (h.tagged d (by simp [hd])).pos)

theorem start_ne_of_mem_erase (h : Tiling s pages C) (hc : c ∈ C) (hd : d ∈ C.erase c) :
    d.start ≠ c.start :=
  (h.perm (List.perm_cons_erase hc)).start_ne_of_mem hd

/-- The address of the header behind a chunk. -/
theorem getNextChunk_eq (h : Tiling s pages C) (hc : c ∈ C) : getNextChunk s c.start = c.stop := by
  rw [getNextChunk, h.getSize_eq hc]
  exact toSize_of_lt (h.bounds hc).2.2.2.2.2.1

/-- **Behind a chunk there is a chunk**, unless the page or the tiling ends there. -/
theorem exists_next (h : Tiling s pages C) (hc : c ∈ C) (hal : ¬pageSize ∣ c.stop)
    (htop : c.stop ≠ s.topChunk) : ∃ d ∈ C, d.start = c.stop := by
  obtain ⟨-, -, h3, h4, h5, -, hpage⟩ := h.bounds hc
  simp only [Span.stop, pageSize_lit] at hal htop ⊢
  have hlast : c.Covers (c.start + c.size - 1) := ⟨by omega, by omega⟩
  have hused : Used s pages (c.start + c.size) := by
    refine ⟨?_, fun hin => ?_⟩
    · have hEq : pageOf (c.start + c.size) = pageOf c.start := by
        simp only [pageOf, pageSize_lit]
        omega
      rw [hEq]
      exact hpage
    · exact (h.covering.inside c hc _ hlast).2 ⟨by omega, by omega⟩
  obtain ⟨d, hd, hdf⟩ := h.covering.exists_covers hused
  refine ⟨d, hd, ?_⟩
  by_contra hne
  -- A chunk that starts earlier shares the last address of `c`.
  have hcd : c = d := h.eq_of_covers hc hd hlast ⟨by have := hdf.1; omega, by have := hdf.2; omega⟩
  rw [← hcd] at hdf
  exact absurd hdf.2 (lt_irrefl _)

/-- **In front of a chunk there is a chunk**, unless the page starts there. -/
theorem exists_prev (h : Tiling s pages C) (hc : c ∈ C) (hal : ¬pageSize ∣ c.start) :
    ∃ d ∈ C, d.stop = c.start := by
  obtain ⟨-, -, h3, h4, h5, -, hpage⟩ := h.bounds hc
  have hend := h.dvd_end
  have hfirst : c.Covers c.start := ⟨le_rfl, by omega⟩
  have hnot := h.start_lt_top hc
  simp only [pageSize_lit] at hal hend
  have hused : Used s pages (c.start - 1) := by
    refine ⟨?_, fun hin => hnot ⟨by omega, ?_⟩⟩
    · have hEq : pageOf (c.start - 1) = pageOf c.start := by
        simp only [pageOf, pageSize_lit]
        omega
      rw [hEq]
      exact hpage
    · omega
  obtain ⟨d, hd, hdf⟩ := h.covering.exists_covers hused
  refine ⟨d, hd, ?_⟩
  by_contra hne
  have hle : c.start ≤ d.stop := by
    have := hdf.2
    simp only [Span.stop]
    omega
  simp only [Span.stop] at hne hle
  have hcd : c = d := h.eq_of_covers hc hd hfirst ⟨by have := hdf.1; omega, by omega⟩
  rw [← hcd] at hdf
  have := hdf.1
  omega

/-! ### Cutting and joining -/

/-- The parts of a span that is cut in two. -/
theorem covers_cut (a n m f : ℕ) :
    Span.Covers ⟨a, n + m⟩ f ↔ Span.Covers ⟨a, n⟩ f ∨ Span.Covers ⟨a + n, m⟩ f := by
  simp only [Span.Covers]
  omega

/-- The parts of a span that is cut in two are disjoint. -/
theorem not_covers_cut (a n m f : ℕ) :
    ¬(Span.Covers ⟨a, n⟩ f ∧ Span.Covers ⟨a + n, m⟩ f) := by
  simp only [Span.Covers]
  omega

/-- The other chunks do not end inside a chunk. -/
theorem not_stop_within (h : Tiling s pages (c :: C)) (hd : d ∈ C) :
    ¬(c.start < d.stop ∧ d.stop ≤ c.stop) := by
  intro hin
  have hpos := (h.tagged d (by simp [hd])).pos
  simp only [Span.stop] at hin
  have hlast : d.Covers (d.start + d.size - 1) := ⟨by omega, by omega⟩
  exact h.covering.not_covers hd (show c.Covers _ from ⟨by omega, by omega⟩) hlast

/-- **A chunk is cut in two.** -/
theorem cut (h : Tiling s pages (⟨a, n + m⟩ :: C))
    (hbegin : s'.pageFrameAllocatableBegin = s.pageFrameAllocatableBegin)
    (htop : s'.topChunk = s.topChunk)
    (hend : s'.pageFrameAllocatableEnd = s.pageFrameAllocatableEnd)
    (hn : 0 < n) (hn16 : 16 ∣ n) (hm : 0 < m)
    (hia : s'.index a = (n / 16 : ℕ) - 2) (hir : s'.index (a + n) = (m / 16 : ℕ) - 2)
    (hi : ∀ d ∈ C, s'.index d.start = s.index d.start)
    (hpa : ¬pageSize ∣ a → getPrevChunkSize s' a = getPrevChunkSize s a)
    (hpr : getPrevChunkSize s' (a + n) = n)
    (hpn : ∀ d ∈ C, d.start = a + (n + m) → ¬pageSize ∣ d.start →
      getPrevChunkSize s' d.start = m)
    (hp : ∀ d ∈ C, d.start ≠ a + (n + m) → ¬pageSize ∣ d.start →
      getPrevChunkSize s' d.start = getPrevChunkSize s d.start) :
    Tiling s' pages (⟨a, n⟩ :: ⟨a + n, m⟩ :: C) where
  frame := h.frame
  current := by
    rw [hbegin, htop, hend]
    exact h.current
  covering := by
    refine (Covering.cut_iff (covers_cut a n m) (not_covers_cut a n m)).mpr ?_
    exact h.covering.congr fun f => by rw [Used, Used, htop, hend]
  tagged c hc := by
    obtain ⟨h1, h2, h3, h4, -⟩ := h.tagged ⟨a, n + m⟩ (by simp)
    simp only [pageSize_lit] at h4
    rcases List.mem_cons.mp hc with rfl | hc
    · exact ⟨h1, hn16, hn, by simp only [pageSize_lit]; omega, hia⟩
    rcases List.mem_cons.mp hc with rfl | hc
    · refine ⟨?_, ?_, hm, ?_, hir⟩
      · exact (Nat.dvd_add_right h1).mpr hn16
      · exact (Nat.dvd_add_right hn16).mp h2
      · simp only [pageSize_lit]
        omega
    · exact (h.tagged c (by simp [hc])).of_index (hi c hc)
  prev c hc d hd hcd hal := by
    have hself : (⟨a, n + m⟩ : Span) ∈ (⟨a, n + m⟩ :: C : List Span) := by simp
    -- A chunk of the rest neither starts nor ends inside the chunk that is cut.
    have hstart : ∀ x ∈ C, ¬(a ≤ x.start ∧ x.start < a + (n + m)) := fun x hx hin =>
      h.covering.not_covers hx (show Span.Covers ⟨a, n + m⟩ x.start from hin)
        (Span.covers_start (h.tagged x (by simp [hx])).pos)
    have hstop : ∀ x ∈ C, ¬(a < x.stop ∧ x.stop ≤ a + (n + m)) := fun x hx => h.not_stop_within hx
    rcases List.mem_cons.mp hd with rfl | hd
    · rcases List.mem_cons.mp hc with rfl | hc
      · simp only [Span.stop] at hcd
        omega
      rcases List.mem_cons.mp hc with rfl | hc
      · simp only [Span.stop] at hcd
        omega
      · rw [hpa hal]
        exact h.prev c (by simp [hc]) _ hself hcd hal
    rcases List.mem_cons.mp hd with rfl | hd
    · rcases List.mem_cons.mp hc with rfl | hc
      · exact hpr
      rcases List.mem_cons.mp hc with rfl | hc
      · simp only [Span.stop] at hcd
        omega
      · exact absurd ⟨by rw [hcd]; simp only; omega, by rw [hcd]; simp only; omega⟩ (hstop c hc)
    · rcases List.mem_cons.mp hc with rfl | hc
      · exact absurd ⟨by rw [← hcd]; simp only [Span.stop]; omega,
          by rw [← hcd]; simp only [Span.stop]; omega⟩ (hstart d hd)
      rcases List.mem_cons.mp hc with rfl | hc
      · exact hpn d hd (by rw [← hcd]; simp only [Span.stop]; omega) hal
      · have hne : d.start ≠ a + (n + m) := fun he =>
          hstop c hc ⟨by rw [hcd, he]; omega, by rw [hcd, he]⟩
        rw [hp d hd hne hal]
        exact h.prev c (by simp [hc]) d (by simp [hd]) hcd hal

/-- **Two chunks of a page that stand side by side are joined.** -/
theorem join (h : Tiling s pages (⟨a, n⟩ :: ⟨a + n, m⟩ :: C)) (hpage : ¬pageSize ∣ a + n)
    (hbegin : s'.pageFrameAllocatableBegin = s.pageFrameAllocatableBegin)
    (htop : s'.topChunk = s.topChunk)
    (hend : s'.pageFrameAllocatableEnd = s.pageFrameAllocatableEnd)
    (hia : s'.index a = ((n + m) / 16 : ℕ) - 2)
    (hi : ∀ d ∈ C, s'.index d.start = s.index d.start)
    (hpa : ¬pageSize ∣ a → getPrevChunkSize s' a = getPrevChunkSize s a)
    (hpn : ∀ d ∈ C, d.start = a + (n + m) → ¬pageSize ∣ d.start →
      getPrevChunkSize s' d.start = (n + m : ℕ))
    (hp : ∀ d ∈ C, d.start ≠ a + (n + m) → ¬pageSize ∣ d.start →
      getPrevChunkSize s' d.start = getPrevChunkSize s d.start) :
    Tiling s' pages (⟨a, n + m⟩ :: C) where
  frame := h.frame
  current := by
    rw [hbegin, htop, hend]
    exact h.current
  covering := by
    refine (Covering.cut_iff (covers_cut a n m) (not_covers_cut a n m)).mp ?_
    exact h.covering.congr fun f => by rw [Used, Used, htop, hend]
  tagged c hc := by
    rcases List.mem_cons.mp hc with rfl | hc
    · obtain ⟨h1, h2, h3, h4, -⟩ := h.tagged ⟨a, n⟩ (by simp)
      obtain ⟨-, g2, g3, g4, -⟩ := h.tagged ⟨a + n, m⟩ (by simp)
      simp only [pageSize_lit] at h1 h2 h3 h4 g2 g3 g4 hpage
      refine ⟨h1, (Nat.dvd_add_right h2).mpr g2, Nat.add_pos_left h3 m, ?_, hia⟩
      simp only [pageSize_lit]
      omega
    · exact (h.tagged c (by simp [hc])).of_index (hi c hc)
  prev c hc d hd hcd hal := by
    have hcn : 0 < n := (h.tagged ⟨a, n⟩ (by simp)).pos
    have hcm : 0 < m := (h.tagged ⟨a + n, m⟩ (by simp)).pos
    rcases List.mem_cons.mp hd with rfl | hd
    · rcases List.mem_cons.mp hc with rfl | hc
      · simp only [Span.stop] at hcd
        omega
      · rw [hpa hal]
        exact h.prev c (by simp [hc]) ⟨a, n⟩ (by simp) hcd hal
    · rcases List.mem_cons.mp hc with rfl | hc
      · exact hpn d hd hcd.symm hal
      · have hne : d.start ≠ a + (n + m) := by
          intro he
          have h2 : Tiling s pages (⟨a + n, m⟩ :: ⟨a, n⟩ :: C) := h.perm (List.Perm.swap _ _ _)
          refine h2.not_stop_within (d := c) (by simp [hc]) ?_
          rw [hcd, he]
          simp only [Span.stop]
          omega
        rw [hp d hd hne hal]
        exact h.prev c (by simp [hc]) d (by simp [hd]) hcd hal

/-! ### The top chunk -/

/-- **A chunk is taken from the top chunk.** -/
theorem takeTop (h : Tiling s pages C) (hn : 0 < n) (hn16 : 16 ∣ n)
    (hle : s.topChunk + n ≤ s.pageFrameAllocatableEnd)
    (hbegin : s'.pageFrameAllocatableBegin = s.pageFrameAllocatableBegin)
    (htop : s'.topChunk = s.topChunk + n)
    (hend : s'.pageFrameAllocatableEnd = s.pageFrameAllocatableEnd)
    (hit : s'.index s.topChunk = (n / 16 : ℕ) - 2)
    (hi : ∀ d ∈ C, s'.index d.start = s.index d.start)
    (hpt : ∀ c ∈ C, c.stop = s.topChunk → ¬pageSize ∣ s.topChunk →
      getPrevChunkSize s' s.topChunk = c.size)
    (hp : ∀ d ∈ C, ¬pageSize ∣ d.start →
      getPrevChunkSize s' d.start = getPrevChunkSize s d.start) :
    Tiling s' pages (⟨s.topChunk, n⟩ :: C) := by
  obtain ⟨hmem, hpe, hbt, h16⟩ := h.current_of_lt (by omega)
  obtain ⟨hal, hpos, hlt⟩ := h.frame _ hmem
  have hin : ∀ f, Span.Covers ⟨s.topChunk, n⟩ f → pageOf f = s.pageFrameAllocatableBegin := by
    rintro f ⟨hf1, hf2⟩
    simp only [pageOf, pageSize_lit] at hf1 hf2 hpe hal ⊢
    omega
  refine ⟨⟨h.frame, Or.inr ⟨?_, ?_, ?_, ?_, ?_⟩, ?_, fun c hc => ?_⟩, fun c hc d hd hcd hald => ?_⟩
  · rwa [hbegin]
  · rw [hbegin, hend, hpe]
  · rw [hbegin, htop]
    omega
  · rw [htop, hend]
    exact hle
  · rw [htop]
    exact (Nat.dvd_add_right h16).mpr hn16
  · -- What is in use now is what was in use before, and the bytes of the new chunk.
    refine (h.covering.cons fun f hf hused => ?_).congr fun f => ?_
    · exact hused.2 ⟨hf.1, by have := hf.2; simp only at this; omega⟩
    · constructor
      · rintro ⟨h1, h2⟩
        by_cases hf : Span.Covers ⟨s.topChunk, n⟩ f
        · exact Or.inr hf
        · refine Or.inl ⟨h1, fun hc => ?_⟩
          simp only [Span.Covers] at hf
          exact h2 ⟨by rw [htop]; omega, by rw [hend]; omega⟩
      · rintro (⟨h1, h2⟩ | hf)
        · refine ⟨h1, fun hc => h2 ⟨?_, ?_⟩⟩
          · rw [htop] at hc
            omega
          · rw [hend] at hc
            omega
        · refine ⟨by rw [hin f hf]; exact hmem, fun hc => ?_⟩
          rw [htop] at hc
          have := hf.2
          simp only at this
          omega
  · rcases List.mem_cons.mp hc with rfl | hc
    · refine ⟨h16, hn16, hn, ?_, hit⟩
      simp only [pageSize_lit] at hpe hal ⊢
      omega
    · exact (h.tagged c hc).of_index (hi c hc)
  · rcases List.mem_cons.mp hd with rfl | hd
    · rcases List.mem_cons.mp hc with rfl | hc
      · simp only [Span.stop] at hcd
        omega
      · exact hpt c hc hcd hald
    · rcases List.mem_cons.mp hc with rfl | hc
      · -- Behind the new chunk there is only the top chunk, or another page.
        simp only [Span.stop] at hcd
        have hnot := h.start_lt_top hd
        simp only [pageSize_lit] at hald hpe hal
        omega
      · rw [hp d hd hald]
        exact h.prev c hc d hd hcd hald

/-- **The last chunk of the current page is given back to the top chunk.** -/
theorem giveTop (h : Tiling s pages (c :: C)) (hstop : c.stop = s.topChunk)
    (hpage : ¬pageSize ∣ s.topChunk)
    (hbegin : s'.pageFrameAllocatableBegin = s.pageFrameAllocatableBegin)
    (htop : s'.topChunk = c.start)
    (hend : s'.pageFrameAllocatableEnd = s.pageFrameAllocatableEnd)
    (hi : ∀ d ∈ C, s'.index d.start = s.index d.start)
    (hp : ∀ d ∈ C, ¬pageSize ∣ d.start →
      getPrevChunkSize s' d.start = getPrevChunkSize s d.start) :
    Tiling s' pages C := by
  obtain ⟨h1, -, h3, h4, -⟩ := h.bounds (c := c) (by simp)
  obtain ⟨hmem, hpe, hbt, hte, -⟩ : s.pageFrameAllocatableBegin ∈ pages ∧
      s.pageFrameAllocatableEnd = s.pageFrameAllocatableBegin + pageSize ∧
      s.pageFrameAllocatableBegin ≤ s.topChunk ∧ s.topChunk ≤ s.pageFrameAllocatableEnd ∧
      16 ∣ s.topChunk := by
    rcases h.current with ⟨-, h0, -⟩ | hcur
    · simp [h0] at hpage
    · exact hcur
  have hal := (h.frame _ hmem).aligned
  simp only [Span.stop, pageSize_lit] at hstop hpage hpe hal
  refine ⟨⟨h.frame, Or.inr ⟨?_, ?_, ?_, ?_, ?_⟩, ?_, fun d hd => ?_⟩, fun d hd e he hde hale => ?_⟩
  · rwa [hbegin]
  · rw [hbegin, hend, hpe, pageSize_lit]
  · rw [hbegin, htop]
    omega
  · rw [htop, hend]
    omega
  · rw [htop]
    exact h1
  · refine h.covering.uncons.congr fun f => ?_
    constructor
    · rintro ⟨g1, g2⟩
      rw [htop, hend] at g2
      refine ⟨⟨g1, fun hc => g2 ⟨by omega, hc.2⟩⟩, fun hc => g2 ⟨hc.1, ?_⟩⟩
      have := hc.2
      omega
    · rintro ⟨⟨g1, g2⟩, g3⟩
      refine ⟨g1, fun hc => ?_⟩
      rw [htop, hend] at hc
      by_cases hf : f < s.topChunk
      · exact g3 ⟨hc.1, by omega⟩
      · exact g2 ⟨by omega, hc.2⟩
  · exact (h.tagged d (by simp [hd])).of_index (hi d hd)
  · rw [hp e he hale]
    exact h.prev d (by simp [hd]) e (by simp [he]) hde hale

/-- **A new page** is all top chunk, when the old top chunk is used up. -/
theorem newPage (h : Tiling s pages C) (hused : s.topChunk = s.pageFrameAllocatableEnd) {p : ℕ}
    (hp : GoodFrame p) (hfresh : p ∉ pages) :
    Tiling { s with
      pageFrameAllocatableBegin := p
      topChunk := p
      pageFrameAllocatableEnd := p + pageSize } (p :: pages) C where
  frame q hq := by
    rcases List.mem_cons.mp hq with rfl | hq
    · exact hp
    · exact h.frame q hq
  current := by
    refine Or.inr ⟨by simp, rfl, le_rfl, Nat.le_add_right _ _, ?_⟩
    exact (show 16 ∣ pageSize by decide).trans hp.aligned
  covering := h.covering.congr fun f => by
    have hal := hp.aligned
    have hpf : pageOf f = p ↔ p ≤ f ∧ f < p + pageSize := by
      simp only [pageOf, pageSize_lit] at hal ⊢
      omega
    simp only [Used, List.mem_cons, hpf]
    constructor
    · rintro ⟨h1, h2⟩
      exact ⟨h1.resolve_left h2, fun hc => by omega⟩
    · rintro ⟨h1, -⟩
      refine ⟨Or.inr h1, fun hc => hfresh ?_⟩
      rwa [hpf.mpr hc] at h1
  tagged c hc := (h.tagged c hc).of_index rfl
  prev := h.prev

end Tiling

end SlobAllocator

end Valkyrie
