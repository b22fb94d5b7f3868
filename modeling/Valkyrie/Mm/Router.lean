import Valkyrie.Mm.MemoryManager

/-!
# Requests to a well-formed heap

`kfree` is not told whether a pointer is a page or a chunk. It looks at the address: a
page-aligned one goes back to the buddy allocator, any other one to the slob
allocator. This is right as long as `SlobAllocator::allocate` never returns a
page-aligned pointer, and the last check of `allocate` is there to abort when it would.

Here the check is shown to be idle. `Valkyrie.SlobAllocator.WellFormed` asks much less
of a heap than the invariant of the runs does: the chunks tile the pages and the
headers give their sizes, and the bins hold chunks under the bin of their size. Nothing
is said about flags, about the sizes noted for the chunk before, or about who owns what.
From every such heap a request of `1` to `4079` bytes passes all checks on each of the
five routes, and what it returns is a chunk in one page that does not end behind its
header (`Valkyrie.MemoryManager.allocate_routed`).
-/

namespace Valkyrie

namespace SlobAllocator

open Function Exec

/-- **A well-formed heap.** The pages are tiled by chunks of multiples of sixteen bytes
and by the top chunk; the bins are lists of different chunks, each of at least `32` bytes
and under the bin of its size, so that the discarded remainders of `16` bytes are on
none. -/
structure WellFormed (s : State) (pages : List ℕ) (C : List Span) (B : Bin → List ℕ) : Prop where
  layout : Layout s pages C
  chain : ∀ b, Chain s.next (s.bins b) (B b)
  sound : ∀ b, ∀ a ∈ B b, ∃ c ∈ C, c.start = a ∧ 32 ≤ c.size ∧ binOf c.size = b

/-- The invariant of the runs makes the heap well-formed. -/
theorem Inv.wellFormed {s : State} {pages : List ℕ} {C : List Span} {B : Bin → List ℕ}
    {live : List (ℕ × ℕ)} (h : Inv s pages C B live) : WellFormed s pages C B :=
  ⟨h.tiling.toLayout, h.binned.chain, h.binned.sound⟩

/-- **A chunk for a request**: its header gives at least the size, and it lies in one
page. -/
structure Fit (s : State) (v n : ℕ) : Prop where
  size : getSize s v = n
  large : 32 ≤ n
  pos : 0 < v
  samePage : v % pageSize + n ≤ pageSize
  lt : v + n < sizeMod

/-- The payload of such a chunk is not the address of a page. -/
theorem Fit.payload {s : State} {v n : ℕ} (h : Fit s v n) :
    toSize (v + chunkHeaderSize) = v + chunkHeaderSize ∧
      pageIsAligned (v + chunkHeaderSize) = false := by
  obtain ⟨-, h1, h2, h3, h4⟩ := h
  have hhdr : chunkHeaderSize = 16 := rfl
  refine ⟨toSize_of_lt (by omega), ?_⟩
  simp only [pageSize_lit] at h3
  simp only [pageIsAligned, pageSize_lit, beq_eq_false_iff_ne, ne_eq]
  omega

namespace WellFormed

variable {s : State} {pages : List ℕ} {C : List Span} {B : Bin → List ℕ} {c : Span} {b : Bin}
  {a n : ℕ}

/-- A bin holds no more entries than there are chunks. -/
theorem length_le (h : WellFormed s pages C B) (b : Bin) : (B b).length ≤ C.length := by
  have hsub : B b ⊆ C.map Span.start := by
    intro a ha
    obtain ⟨c, hc, hs, -⟩ := h.sound b a ha
    exact List.mem_map.mpr ⟨c, hc, hs⟩
  have hle := (List.subperm_of_subset (h.chain b).nodup hsub).length_le
  rwa [List.length_map] at hle

/-- The chunk in front of a bin. -/
theorem mem_of_front (h : WellFormed s pages C B) (hfront : s.bins b = some a) : a ∈ B b := by
  have hch := h.chain b
  rw [hfront] at hch
  obtain ⟨t, ht, -⟩ := hch.exists_cons
  simp [ht]

/-- What is behind the chunk in front of a bin. -/
theorem mem_of_next (h : WellFormed s pages C B) {a' : ℕ} (hfront : s.bins b = some a)
    (hnext : s.next a = some a') : a' ∈ B b := by
  have hch := h.chain b
  rw [hfront] at hch
  obtain ⟨t, ht, htail⟩ := hch.exists_cons
  rw [hnext] at htail
  obtain ⟨t', ht', -⟩ := htail.exists_cons
  simp [ht, ht']

/-- A part of a chunk at its front lies in its page. -/
theorem fit (h : WellFormed s pages C B) (hc : c ∈ C) (hn : 32 ≤ n) (hle : n ≤ c.size) {t : State}
    (hsize : getSize t c.start = n) : Fit t c.start n := by
  obtain ⟨-, -, -, hpage, hpos, hlt, -⟩ := h.layout.bounds hc
  exact ⟨hsize, hn, by omega, by rw [pageSize_lit]; omega, by omega⟩

/-! ### Taking a chunk off its bin -/

/-- **`bin_del_head` in `split_from_chunk`.** The header of the remainder was written
before, possibly over the header of another chunk of the same bin; the walk ends all
the same, and in front of the bins there are still chunks that were on them. -/
theorem binDelHead (h : WellFormed s pages C B) (hc : c ∈ C) (h32 : 32 ≤ c.size)
    (hhead : c.size < 0x90 → s.bins (binOf c.size) = some c.start) {r k l : ℕ}
    (hr : c.start ≠ r) (fuel : ℕ) :
    Meets (SlobAllocator.binDelHead fuel c.start (writeRemainder r k l s))
      (∀ b, (B b).length ≤ fuel) fun t =>
      ∃ next bins, t = { writeRemainder r k l s with next := next, bins := bins } ∧
        ∀ b a, bins b = some a → a ∈ B b := by
  obtain ⟨-, -, -, -, hpos, -⟩ := h.layout.bounds hc
  have h0 : c.start ≠ 0 := by omega
  have hidx : (writeRemainder r k l s).index c.start = (c.size / 16 : ℕ) - 2 := by
    simp only [writeRemainder, update_of_ne hr]
    exact (h.layout.tagged c hc).index
  have hnext : (writeRemainder r k l s).next c.start = s.next c.start :=
    update_of_ne hr _ _
  have hbins : nrBins = 7 := rfl
  -- Taking the front chunk off a bin brings the chunk behind it to the front.
  have hfront : ∀ b', s.bins b' = some c.start → ∀ b a,
      update s.bins b' (s.next c.start) b = some a → a ∈ B b := by
    intro b' hb' b a hba
    by_cases hb : b = b'
    · rw [hb, update_self] at hba
      rw [hb]
      exact h.mem_of_next hb' hba
    · rw [update_of_ne hb] at hba
      exact h.mem_of_front hba
  rw [SlobAllocator.binDelHead, if_neg h0]
  by_cases hbig : 0x90 ≤ c.size
  · rw [if_pos (by rw [hidx]; omega), binDelEntry, if_neg h0]
    simp only [binGetHead_eq h32 hidx, ok_bind]
    by_cases hb : s.bins (binOf c.size) = some c.start
    · have hb' : (writeRemainder r k l s).bins (binOf c.size) = some c.start := hb
      rw [if_pos hb']
      refine meets_ok.mpr ⟨_, _, rfl, ?_⟩
      rw [hnext]
      exact hfront _ hb
    · have hb' : (writeRemainder r k l s).bins (binOf c.size) ≠ some c.start := hb
      rw [if_neg hb']
      obtain ⟨l', hlen, hl'⟩ := (h.chain (binOf c.size)).truncate r
      refine ((hl'.unlinkLoop_ends (fun hEq => absurd hEq hb) fuel).weaken fun hf =>
        hlen.trans (hf _)).bind fun next _ => ?_
      exact meets_ok.mpr ⟨next, s.bins, rfl, fun b a hba => h.mem_of_front hba⟩
  · have hbin : Bin.regular ((writeRemainder r k l s).index c.start).toNat = binOf c.size := by
      rw [binOf, if_neg hbig, hidx]
      congr 1
      omega
    rw [if_neg (by rw [hidx]; omega), if_neg (by rw [hidx]; omega)]
    have hb := hhead (by omega)
    have hb' : (writeRemainder r k l s).bins (binOf c.size) = some c.start := hb
    simp only [hbin, hb', hnext]
    exact meets_ok.mpr ⟨_, _, rfl, hfront _ hb⟩

/-- **`split_from_chunk`** on a chunk of a bin passes its checks, and what it returns has
the requested size. -/
theorem splitFromChunk (h : WellFormed s pages C B) (hc : c ∈ C)
    (hhead : c.size < 0x90 → s.bins (binOf c.size) = some c.start) (hn : 32 ≤ n) (hn16 : 16 ∣ n)
    (hle : n ≤ c.size) (fuel : ℕ) :
    Meets (SlobAllocator.splitFromChunk fuel c.start n s) (∀ b, (B b).length ≤ fuel)
      fun r => r.1 = c.start ∧ Fit r.2 c.start n := by
  obtain ⟨-, h16, -, hpage, hpos, hlt, -⟩ := h.layout.bounds hc
  -- The last write to the header of the chunk gives it the requested size.
  have hsize : ∀ t : State, Fit (writeChunk c.start n (c.size - n) t) c.start n := by
    intro t
    refine h.fit hc hn hle ?_
    have hidx : (writeChunk c.start n (c.size - n) t).index c.start = (n / 16 : ℕ) - 2 := by
      rw [index_writeChunk, update_self, getBinIndex_of_dvd hn16 (by omega)]
    rw [getSize_of_index (by omega) hidx]
    omega
  rw [h.layout.splitFromChunk_eq hc hn hle fuel]
  refine (h.binDelHead hc (by omega) hhead (by omega) fuel).bind ?_
  rintro _ ⟨next, bins, rfl, hbins⟩
  by_cases h32 : 32 ≤ c.size - n
  · rw [if_pos (isChunkSizeUsable_iff.mpr h32)]
    have hidx : (setAllocated false (c.start + n)
        { writeRemainder (c.start + n) n (c.size - n) s with next := next, bins := bins }).index
        (c.start + n) = ((c.size - n) / 16 : ℕ) - 2 := by
      simp only [setAllocated, writeRemainder, update_self]
      exact getBinIndex_of_dvd (by omega) (by omega)
    -- The remainder lies inside the chunk, so it is not in front of a bin.
    have hfront : bins (binOf (c.size - n)) ≠ some (c.start + n) := by
      intro hEq
      obtain ⟨d, hd, hs, -⟩ := h.sound _ _ (hbins _ _ hEq)
      have hcd := h.layout.start_eq_of_covers hc hd (by rw [hs]; exact ⟨by omega, by omega⟩)
      rw [← hcd] at hs
      omega
    have hfront' : (setAllocated false (c.start + n)
        { writeRemainder (c.start + n) n (c.size - n) s with next := next, bins := bins }).bins
        (binOf (c.size - n)) ≠ some (c.start + n) := hfront
    rw [binAddHead, if_neg (show c.start + n ≠ 0 by omega)]
    simp only [binGetHead_eq h32 hidx, ok_bind, if_neg hfront']
    exact meets_ok.mpr ⟨rfl, hsize _⟩
  · rw [if_neg (fun hu => h32 (isChunkSizeUsable_iff.mp hu))]
    exact meets_ok.mpr ⟨rfl, hsize _⟩

/-! ### The routes -/

/-- **The routes over the bins**: the bin of exactly this size, the unsorted bin, the bins
of larger sizes. -/
theorem takeFromBins (h : WellFormed s pages C B) (hn : 32 ≤ n) (hn16 : 16 ∣ n)
    (hn' : n ≤ pageSize) (fuel : ℕ) :
    Meets (SlobAllocator.takeFromBins fuel n s) (∀ b, (B b).length ≤ fuel) fun r =>
      ∀ v t, r = some (v, t) → Fit t v n := by
  rw [pageSize_lit] at hn'
  have hbins : nrBins = 7 := rfl
  have hidx : getBinIndex n = (n / 16 : ℕ) - 2 := getBinIndex_of_dvd hn16 (by omega)
  have hnat : (((n / 16 : ℕ) : ℤ) - 2).toNat = n / 16 - 2 := by omega
  rw [SlobAllocator.takeFromBins]
  simp only [hidx, hnat]
  rw [if_neg (by omega)]
  cases hexact : (if ((n / 16 : ℕ) : ℤ) - 2 < nrBins then s.bins (.regular (n / 16 - 2)) else none) with
  | some victim =>
    -- The chunks of the bin have the size of the request. The first one is taken as it is.
    obtain ⟨hsmall, hfront⟩ : ((n / 16 : ℕ) : ℤ) - 2 < nrBins ∧
        s.bins (.regular (n / 16 - 2)) = some victim := by
      split_ifs at hexact with hsmall
      exact ⟨hsmall, hexact⟩
    obtain ⟨c, hc, rfl, h32, hbin⟩ := h.sound _ _ (h.mem_of_front hfront)
    have hcn : c.size = n := by
      have := (eq_of_binOf_regular hbin h32 (h.layout.bounds hc).2.1).1
      omega
    have hpos := (h.layout.bounds hc).2.2.2.2.1
    set s' := setAllocated true c.start s with hs'
    have hcidx : s'.index c.start = (c.size / 16 : ℕ) - 2 := (h.layout.tagged c hc).index
    have hfront' : s'.bins (.regular (s'.index c.start).toNat) = some c.start := by
      rw [hcidx, hcn, hnat]
      exact hfront
    have hdel : ∃ t, SlobAllocator.binDelHead fuel c.start s' = .ok t ∧ t.index = s.index := by
      rw [SlobAllocator.binDelHead, if_neg (by omega), if_neg (by omega), if_neg (by omega)]
      simp only [hfront']
      exact ⟨_, rfl, rfl⟩
    obtain ⟨t, hdel, htidx⟩ := hdel
    change Meets (SlobAllocator.binDelHead fuel c.start s' >>= _) _ _
    rw [hdel, ok_bind]
    refine meets_ok.mpr ?_
    rintro v t' hvt
    obtain ⟨rfl, rfl⟩ := Prod.mk.inj (Option.some.inj hvt)
    refine h.fit hc hn hcn.ge ?_
    rw [getSize, htidx]
    exact (h.layout.getSize_eq hc).trans hcn
  | none =>
    dsimp only
    refine ((meets_findUnsorted (h.chain .unsorted) fuel).weaken fun hf => hf _).bind ?_
    rintro _ rfl
    cases hfind : (B .unsorted).find? fun a => n ≤ getSize s a with
    | some a =>
      obtain ⟨c, hc, rfl, h32, hbin⟩ := h.sound _ _ (List.mem_of_find?_eq_some hfind)
      have hfit := List.find?_some hfind
      rw [decide_eq_true_eq, h.layout.getSize_eq hc] at hfit
      -- A chunk of the unsorted bin has no regular bin, so it need not be the front of one.
      have hbig : 0x90 ≤ c.size := by
        by_contra hsmall
        rw [binOf, if_neg hsmall] at hbin
        cases hbin
      refine (h.splitFromChunk hc (fun hc' => absurd hc' (by omega)) hn hn16 hfit fuel).bind ?_
      rintro ⟨v, t⟩ ⟨rfl, hfit'⟩
      refine meets_ok.mpr ?_
      rintro v' t' hvt
      obtain ⟨rfl, rfl⟩ := Prod.mk.inj (Option.some.inj hvt)
      exact hfit'
    | none =>
      dsimp only
      cases hlarger : findLarger s (n / 16 - 2) (nrBins - (n / 16 - 2)) with
      | some a =>
        obtain ⟨j, hj, -, hfront⟩ := findLarger_eq_some hlarger
        obtain ⟨c, hc, rfl, h32, hbin⟩ := h.sound _ _ (h.mem_of_front hfront)
        obtain ⟨hcj, -⟩ := eq_of_binOf_regular hbin h32 (h.layout.bounds hc).2.1
        refine (h.splitFromChunk hc (fun _ => hbin ▸ hfront) hn hn16 (by omega) fuel).bind ?_
        rintro ⟨v, t⟩ ⟨rfl, hfit'⟩
        refine meets_ok.mpr ?_
        rintro v' t' hvt
        obtain ⟨rfl, rfl⟩ := Prod.mk.inj (Option.some.inj hvt)
        exact hfit'
      | none => exact meets_ok.mpr fun v t hvt => by cases hvt

/-- **A top chunk that is too small is given up.** -/
theorem retireTopChunk (h : WellFormed s pages C B)
    (hlt : s.topChunk < s.pageFrameAllocatableEnd) :
    ∃ t, SlobAllocator.retireTopChunk s = .ok t := by
  obtain ⟨htop, -, -, h16, h16'⟩ := h.layout.getTopChunkSize_eq
  obtain ⟨hmem, hend, hbegin, -⟩ := h.layout.current_of_lt hlt
  rw [pageSize_lit] at hend
  set n := getTopChunkSize s with hn
  have hidx : (topCut n s).index s.topChunk = (n / 16 : ℕ) - 2 := update_self ..
  have hsize : getSize (topCut n s) s.topChunk = n := by
    rw [getSize_of_index (by omega) hidx]
    omega
  rw [SlobAllocator.retireTopChunk, ← hn,
    h.layout.splitFromTopChunk_eq (by omega) (by omega) (by omega)]
  simp only [ok_bind, hsize]
  by_cases h32 : 32 ≤ n
  · rw [if_pos (isChunkSizeUsable_iff.mpr h32)]
    have hpos := (h.layout.frame _ hmem).pos
    have hfront : (topCut n s).bins (binOf n) ≠ some s.topChunk := by
      intro hEq
      obtain ⟨d, hd, hs, -⟩ := h.sound _ _ (h.mem_of_front (b := binOf n) hEq)
      exact h.layout.start_lt_top hd ⟨hs.ge, hs ▸ hlt⟩
    rw [binAddHead, if_neg (by omega)]
    simp only [binGetHead_eq h32 hidx, ok_bind, if_neg hfront]
    exact ⟨_, rfl⟩
  · rw [if_neg (fun hu => h32 (isChunkSizeUsable_iff.mp hu))]
    exact ⟨_, rfl⟩

end WellFormed

/-- A chunk is cut from the front of the top chunk. -/
theorem Layout.fit_topCut {s : State} {pages : List ℕ} {C : List Span} {n : ℕ}
    (h : Layout s pages C) (hn : 32 ≤ n) (hn16 : 16 ∣ n)
    (hle : s.topChunk + n ≤ s.pageFrameAllocatableEnd) : Fit (topCut n s) s.topChunk n := by
  obtain ⟨hmem, hend, hbegin, -⟩ := h.current_of_lt (by omega)
  obtain ⟨hal, hpos, hlt⟩ := h.frame _ hmem
  rw [pageSize_lit] at hal hend hlt
  refine ⟨?_, hn, by omega, by rw [pageSize_lit]; omega, by omega⟩
  have hidx : (topCut n s).index s.topChunk = (n / 16 : ℕ) - 2 := update_self ..
  rw [getSize_of_index (by omega) hidx]
  omega

/-- A page of which nothing is cut yet. -/
theorem layout_newPage {s : State} {p : ℕ} (hp : GoodFrame p) :
    Layout { s with
      pageFrameAllocatableBegin := p
      topChunk := p
      pageFrameAllocatableEnd := p + pageSize } [p] [] where
  frame q hq := by
    rw [List.mem_singleton.mp hq]
    exact hp
  current := Or.inr ⟨by simp, rfl, le_rfl, Nat.le_add_right _ _,
    (show 16 ∣ pageSize by decide).trans hp.aligned⟩
  covering := by
    refine ⟨fun a ha => absurd ha (by simp), ?_⟩
    rintro f ⟨hf, htop⟩
    have hpage : f - f % pageSize = p := List.mem_singleton.mp hf
    have hlt : f % pageSize < pageSize := Nat.mod_lt _ (by decide)
    have hle : f % pageSize ≤ f := Nat.mod_le _ _
    exact absurd ⟨by dsimp only; omega, by dsimp only; omega⟩ htop
  tagged c hc := by cases hc

section Top

variable {π : Type} (P : PageAllocator π) {s : State} {pages : List ℕ} {C : List Span}
  {B : Bin → List ℕ} {n : ℕ}

/-- **The top chunk is large enough**, or the page allocator has given up. -/
def Renewed (fuel n : ℕ) (b : π) (r : Bool × State × π) : Prop :=
  if r.1 then ∃ pages C, Layout r.2.1 pages C ∧ r.2.1.topChunk + n ≤ r.2.1.pageFrameAllocatableEnd
  else P.allocateOnePageFrame fuel b = .ok (0, r.2.2)

/-- **`request_new_page_frame`** in any state. -/
theorem meets_requestNewPageFrame (hn : n ≤ pageSize) (fuel : ℕ) (s : State) (b : π) :
    Meets (requestNewPageFrame P.allocateOnePageFrame fuel s b) (P.enough ≤ fuel)
      (Renewed P fuel n b) := by
  rw [requestNewPageFrame]
  cases hcall : P.allocateOnePageFrame fuel b with
  | error e =>
    obtain ⟨rfl, hf⟩ := (P.meets fuel b).of_eq_error hcall
    exact meets_outOfFuel.mpr hf
  | ok r =>
    obtain ⟨p, b'⟩ := r
    rw [ok_bind]
    rcases (P.meets fuel b).of_eq_ok hcall with ⟨hp, -⟩ | ⟨hp, -, -⟩
    · obtain rfl : p = 0 := hp
      exact meets_ok.mpr hcall
    · have hp0 : p ≠ 0 := hp.pos.ne'
      have hend : toSize (p + pageSize) = p + pageSize := toSize_of_lt hp.lt
      simp only [if_neg hp0, meets_pure, hend]
      exact ⟨_, _, layout_newPage hp, Nat.add_le_add_left hn p⟩

/-- **The top chunk is renewed** when it is too small. -/
theorem WellFormed.renewTopChunk (h : WellFormed s pages C B) (hn : n ≤ pageSize) (fuel : ℕ)
    (b : π) :
    Meets (SlobAllocator.renewTopChunk P.allocateOnePageFrame fuel n s b) (P.enough ≤ fuel)
      (Renewed P fuel n b) := by
  obtain ⟨htop, hle, -⟩ := h.layout.getTopChunkSize_eq
  rw [SlobAllocator.renewTopChunk]
  by_cases hzero : getTopChunkSize s = 0
  · rw [if_pos hzero]
    exact meets_requestNewPageFrame P hn fuel s b
  rw [if_neg hzero]
  by_cases hsmall : getTopChunkSize s < n
  · obtain ⟨t, ht⟩ := h.retireTopChunk (by omega)
    rw [if_pos hsmall, ht, ok_bind]
    exact meets_requestNewPageFrame P hn fuel t b
  · rw [if_neg hsmall]
    exact meets_ok.mpr ⟨pages, C, h.layout, by dsimp only; omega⟩

/-- **The route over the top chunk.** -/
theorem WellFormed.takeFromTop (h : WellFormed s pages C B) (hn : 32 ≤ n) (hn16 : 16 ∣ n)
    (hn' : n ≤ pageSize) (fuel : ℕ) (b : π) :
    Meets (SlobAllocator.takeFromTop P.allocateOnePageFrame fuel n s b) (P.enough ≤ fuel)
      fun r => match r.1 with
        | none => P.allocateOnePageFrame fuel b = .ok (0, r.2.2)
        | some v => Fit r.2.1 v n := by
  rw [SlobAllocator.takeFromTop]
  refine (h.renewTopChunk P hn' fuel b).bind ?_
  rintro ⟨fresh, t, b'⟩ hrenewed
  cases fresh with
  | false => exact meets_ok.mpr hrenewed
  | true =>
    obtain ⟨pages', C', hlayout, hroom⟩ := hrenewed
    simp only [if_true, hlayout.splitFromTopChunk_eq (by omega) hn16 hroom, ok_bind]
    exact meets_ok.mpr (hlayout.fit_topCut hn hn16 hroom)

/-- **A request to a well-formed heap** gets a chunk that fits, or nothing because the
page allocator has none. -/
theorem WellFormed.allocate (h : WellFormed s pages C B) {size : ℕ} (hpos : 0 < size)
    (hsize : size ≤ 4079) (fuel : ℕ) (b : π) :
    Meets (SlobAllocator.allocate P.allocateOnePageFrame fuel size s b)
      ((∀ k, (B k).length ≤ fuel) ∧ P.enough ≤ fuel ∧ 256 ≤ fuel) fun r =>
      r.1 = 0 ∧ P.allocateOnePageFrame fuel b = .ok (0, r.2.2) ∨
        ∃ v n, r.1 = v + chunkHeaderSize ∧ pageIsAligned r.1 = false ∧ size + 16 ≤ n ∧
          Fit r.2.1 v n := by
  have hhdr : toSize (chunkHeaderSize + size) = 16 + size := by
    have h16 : chunkHeaderSize = 16 := rfl
    rw [h16]
    exact toSize_of_lt (by rw [sizeMod_lit]; omega)
  have hle : toSize (chunkHeaderSize + size) ≤ pageSize := by
    rw [hhdr, pageSize_lit]
    omega
  obtain ⟨hn, hn16, hn', hfit⟩ := chunkSizeOf_spec hle
  rw [hhdr] at hfit
  rw [SlobAllocator.allocate, if_neg hpos.ne']
  refine ((meets_normalizeSize hle fuel).weaken fun hf => hf.2.2).bind ?_
  rintro n rfl
  -- The last check, whichever way the victim was found.
  have hlast : ∀ (v : ℕ) (t : State) (b' : π), Fit t v (chunkSizeOf size) →
      pageIsAligned (toSize (v + chunkHeaderSize)) = false ∧
        ∃ w n, toSize (v + chunkHeaderSize) = w + chunkHeaderSize ∧
          pageIsAligned (toSize (v + chunkHeaderSize)) = false ∧ size + 16 ≤ n ∧ Fit t w n := by
    intro v t b' hv
    obtain ⟨hEq, hal⟩ := hv.payload
    rw [hEq]
    exact ⟨hal, v, _, rfl, hal, by omega, hv⟩
  refine ((h.takeFromBins hn hn16 hn' fuel).weaken fun hf => hf.1).bind ?_
  rintro (_ | ⟨v, t⟩) htaken
  · refine ((h.takeFromTop P hn hn16 hn' fuel b).weaken fun hf => hf.2.1).bind ?_
    rintro ⟨_ | v, t, b'⟩ htop
    · exact meets_ok.mpr (Or.inl ⟨rfl, htop⟩)
    · obtain ⟨hal, hres⟩ := hlast v t b' htop
      simp only [hal, Bool.false_eq_true, if_false]
      exact meets_ok.mpr (Or.inr hres)
  · obtain ⟨hal, hres⟩ := hlast v t b (htaken v t rfl)
    change Meets (if pageIsAligned (toSize (v + chunkHeaderSize)) = true then _ else _) _ _
    simp only [hal, Bool.false_eq_true, if_false]
    exact meets_ok.mpr (Or.inr hres)

end Top

end SlobAllocator

/-! ### The router -/

namespace MemoryManager

/-- **`kfree` gives the pointer to the slob allocator** of the second zone, by whichever
of its addresses it is named. -/
def FreedBySlob (p : ℕ) : Prop :=
  ∀ (fuel q : ℕ) (s : State), toPhysical q = p → kfree fuel q s = (do
    let table ← AddressSanitizer.markFreeChk p s.allocatedPointers
    let slob1 ← SlobAllocator.deallocate fuel p s.slob1
    return { s with slob1 := slob1, allocatedPointers := table })

/-- **`kfree` gives the pointer to the buddy allocator** of the first zone. -/
def FreedByBuddy (p : ℕ) : Prop :=
  ∀ (fuel q : ℕ) (s : State), toPhysical q = p → kfree fuel q s = (do
    let table ← AddressSanitizer.markFreeChk p s.allocatedPointers
    let zone0 ← BuddyAllocator.deallocate fuel p s.zone0
    return { s with zone0 := zone0, allocatedPointers := table })

theorem freedBySlob {p : ℕ} (h : pageIsAligned p = false) : FreedBySlob p := by
  rintro fuel q s rfl
  simp only [kfree, h, Bool.false_eq_true, if_false]

theorem freedByBuddy {p : ℕ} (h : pageIsAligned p = true) : FreedByBuddy p := by
  rintro fuel q s rfl
  simp only [kfree, h, if_true]

/-- **The slob allocator is safe for the router.** From every well-formed heap, a request
of `1` to `4079` bytes aborts nowhere and returns. It returns null only if the page
allocator does; otherwise it returns the payload of a chunk of at least `16` bytes more,
in one page, which is not page-aligned and so goes back to the slob allocator. The
pointers of a buddy allocator go back to the buddy allocator. -/
theorem allocate_routed {π : Type} (P : SlobAllocator.PageAllocator π) {s : SlobAllocator.State}
    {pages : List ℕ} {C : List Span} {B : SlobAllocator.Bin → List ℕ}
    (h : SlobAllocator.WellFormed s pages C B) {size : ℕ} (hpos : 0 < size) (hle : size ≤ 4079)
    (b : π) :
    (∀ fuel e, SlobAllocator.allocate P.allocateOnePageFrame fuel size s b = .error e →
      e = .outOfFuel) ∧
    (∃ enough, ∀ fuel, enough ≤ fuel →
      ∃ r, SlobAllocator.allocate P.allocateOnePageFrame fuel size s b = .ok r) ∧
    (∀ fuel p t b', SlobAllocator.allocate P.allocateOnePageFrame fuel size s b = .ok (p, t, b') →
      p = 0 ∧ P.allocateOnePageFrame fuel b = .ok (0, b') ∨
      pageIsAligned p = false ∧ FreedBySlob p ∧
        ∃ v, p = v + SlobAllocator.chunkHeaderSize ∧ size + 16 ≤ SlobAllocator.getSize t v ∧
          v % pageSize + SlobAllocator.getSize t v ≤ pageSize) ∧
    ∀ z, BuddyAllocator.GoodZone z → ∀ buddy live,
      Run BuddyAllocator.Step (BuddyAllocator.init z, []) (buddy, live) →
        ∀ p ∈ live, pageIsAligned p = true ∧ FreedByBuddy p := by
  refine ⟨fun fuel e he => (h.allocate P hpos hle fuel b).error_eq he, ?_,
    fun fuel p t b' hcall => ?_, fun z hz buddy live hrun p hp => ?_⟩
  · refine ⟨C.length + P.enough + 256, fun fuel hf => ?_⟩
    obtain ⟨r, hr, -⟩ := (h.allocate P hpos hle fuel b).exists_ok
      ⟨fun k => (h.length_le k).trans (by omega), by omega, by omega⟩
    exact ⟨r, hr⟩
  · rcases (h.allocate P hpos hle fuel b).of_eq_ok hcall with hnull | ⟨v, n, hp, hal, hn, hfit⟩
    · exact Or.inl hnull
    · refine Or.inr ⟨hal, freedBySlob hal, v, hp, ?_⟩
      rw [hfit.size]
      exact ⟨hn, hfit.samePage⟩
  · obtain ⟨i, -, rfl⟩ := (BuddyAllocator.runInv_of_run hz hrun).2 p hp
    have hal : pageIsAligned (z + i * pageSize) = true :=
      pageIsAligned_iff.mpr ((Nat.dvd_add_right hz.aligned).mpr (dvd_mul_left _ _))
    exact ⟨hal, freedByBuddy hal⟩

/-- The largest request that goes to the slob allocator, on a fresh heap. -/
theorem allocate_routed_whole_page :
    ∃ fuel p t b, SlobAllocator.allocate SlobAllocator.counter.allocateOnePageFrame fuel 4079
      SlobAllocator.fresh.1 0 = .ok (p, t, b) ∧ pageIsAligned p = false ∧ FreedBySlob p := by
  have hinv := SlobAllocator.inv_init (fun _ => none) (fun _ => 0) fun _ => 0
  obtain ⟨-, ⟨enough, hreturns⟩, hresult, -⟩ :=
    allocate_routed SlobAllocator.counter hinv.wellFormed (show 0 < 4079 by decide) le_rfl 0
  obtain ⟨⟨p, t, b⟩, hcall⟩ := hreturns enough le_rfl
  refine ⟨enough, p, t, b, hcall, ?_⟩
  rcases hresult _ _ _ _ hcall with ⟨-, hfail⟩ | ⟨hal, hslob, -⟩
  · have hfirst : SlobAllocator.counter.allocateOnePageFrame enough 0 = .ok (0x10200000, 1) := rfl
    rw [hfirst] at hfail
    cases hfail
  · exact ⟨hal, hslob⟩

end MemoryManager

end Valkyrie
