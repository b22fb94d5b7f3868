import Valkyrie.Mm.Slob.Bins

/-!
# The invariant of the slob allocator

`Valkyrie.SlobAllocator.Inv` puts the parts together: the chunks tile the pages,
free chunks stand apart, the bins hold free chunks, and every live pointer is the
payload of a chunk of its own that is large enough and on no bin. The operations
of `mm/SlobAllocator.cc` keep it, with one exception.

The exception is `split_from_chunk` on a chunk of exactly the requested size. It
writes the header of a remainder that does not exist, at the address behind the
chunk; if another chunk starts there, its header is lost.
`Valkyrie.SlobAllocator.Inv.splitFromChunk` therefore asks for a remainder, or
for an address behind the chunk at which no chunk starts.
-/

namespace Valkyrie

namespace SlobAllocator

open Function

/-- **Every live pointer is the payload of a chunk of its own.** An entry is the
pointer and the size that was asked for. -/
structure Owned (s : State) (C : List Span) (B : Bin → List ℕ) (live : List (ℕ × ℕ)) : Prop where
  chunk : ∀ e ∈ live, ∃ c ∈ C, c.start + chunkHeaderSize = e.1 ∧
    toSize (chunkHeaderSize + e.2) ≤ c.size ∧ 32 ≤ c.size ∧ isAllocated s c.start ∧
    ∀ b, c.start ∉ B b
  nodup : (live.map Prod.fst).Nodup

/-- The invariant of the slob allocator. -/
structure Inv (s : State) (pages : List ℕ) (C : List Span) (B : Bin → List ℕ)
    (live : List (ℕ × ℕ)) : Prop where
  tiling : Tiling s pages C
  settled : Settled s C 0
  binned : Binned s C B
  owned : Owned s C B live

section Flags

variable {s : State} {a d : ℕ} {x : ℤ} {b : Bool}

theorem withFlag_emod_two (x : ℤ) (b : Bool) : withFlag x b % 2 = if b then 1 else 0 := by
  rw [withFlag]
  split_ifs <;> omega

@[simp] theorem isAllocated_setAllocated_self : isAllocated (setAllocated b a s) a = b := by
  simp only [isAllocated, setAllocated, update_self, withFlag_emod_two]
  cases b <;> rfl

theorem isAllocated_setAllocated_of_ne (h : d ≠ a) :
    isAllocated (setAllocated b a s) d = isAllocated s d := by
  simp only [isAllocated, setAllocated, update_of_ne h]

/-- The flag is not part of the size. -/
@[simp] theorem getPrevChunkSize_setAllocated :
    getPrevChunkSize (setAllocated b a s) d = getPrevChunkSize s d := by
  by_cases h : d = a
  · subst h
    simp only [getPrevChunkSize, setAllocated, update_self, withFlag]
    split_ifs <;> omega
  · simp only [getPrevChunkSize, setAllocated, update_of_ne h]

/-- The size is not part of the flag. -/
@[simp] theorem isAllocated_setPrevChunkSize :
    isAllocated (setPrevChunkSize x a s) d = isAllocated s d := by
  by_cases h : d = a
  · subst h
    simp only [isAllocated, setPrevChunkSize, update_self, withFlag_emod_two]
    split_ifs with hf
    · exact hf.symm
    · simpa using hf
  · simp only [isAllocated, setPrevChunkSize, update_of_ne h]

theorem getPrevChunkSize_setPrevChunkSize_self (hx : x % 2 = 0) :
    getPrevChunkSize (setPrevChunkSize x a s) a = x := by
  simp only [getPrevChunkSize, setPrevChunkSize, update_self]
  exact getPrevChunkSize_withFlag hx _

theorem getPrevChunkSize_setPrevChunkSize_of_ne (h : d ≠ a) :
    getPrevChunkSize (setPrevChunkSize x a s) d = getPrevChunkSize s d := by
  simp only [getPrevChunkSize, setPrevChunkSize, update_of_ne h]

end Flags

/-- The state after a chunk was cut from the top chunk. -/
def topCut (n : ℕ) (s : State) : State :=
  { s with
    next := update s.next s.topChunk none
    index := update s.index s.topChunk ((n / 16 : ℕ) - 2)
    prevChunkSize :=
      update s.prevChunkSize s.topChunk (withFlag s.topChunkPrevChunkSize true)
    topChunk := s.topChunk + n
    topChunkPrevChunkSize := n }

theorem isAllocated_topCut_self {n : ℕ} {s : State} : isAllocated (topCut n s) s.topChunk := by
  simp [isAllocated, topCut, withFlag_emod_two]

theorem isAllocated_topCut_of_ne {n d : ℕ} {s : State} (h : d ≠ s.topChunk) :
    isAllocated (topCut n s) d = isAllocated s d := by
  simp only [isAllocated, topCut, update_of_ne h]

/-- **`split_from_top_chunk`** cuts a chunk that fits into the top chunk. -/
theorem Layout.splitFromTopChunk_eq {s : State} {pages : List ℕ} {C : List Span}
    (h : Layout s pages C) {n : ℕ} (hn : 0 < n) (hn16 : 16 ∣ n)
    (hle : s.topChunk + n ≤ s.pageFrameAllocatableEnd) :
    splitFromTopChunk n s = .ok (s.topChunk, topCut n s) := by
  obtain ⟨htop, -, hlt, -⟩ := h.getTopChunkSize_eq
  obtain ⟨-, hpe, hbt, -⟩ := h.current_of_lt (by omega)
  rw [pageSize_lit] at hpe
  rw [splitFromTopChunk, if_neg (by omega)]
  simp only [setAllocated, update_self, update_idem,
    getBinIndex_of_dvd hn16 (show n < 2 ^ 24 by omega),
    toInt_of_lt (show n < 2 ^ 31 by omega),
    toSize_of_lt (show s.topChunk + n < sizeMod by omega)]
  rfl

/-! ### Splitting a chunk -/

section Headers

variable {s : State} {a d n m : ℕ}

/-- The header behind a chunk that is split, and the header of the chunk. -/
theorem isAllocated_writeChunk :
    isAllocated (writeChunk a n m s) d = if d = a then true else isAllocated s d := by
  rw [writeChunk]
  by_cases hd : d = a
  · rw [if_pos hd, hd]
    exact isAllocated_setAllocated_self
  · rw [if_neg hd, isAllocated_setAllocated_of_ne hd]
    split_ifs
    · exact isAllocated_setPrevChunkSize
    · rfl

theorem index_writeChunk :
    (writeChunk a n m s).index = update s.index a (getBinIndex n) := by
  rw [writeChunk]
  split_ifs <;> rfl

theorem next_writeChunk : (writeChunk a n m s).next = update s.next a none := by
  rw [writeChunk]
  split_ifs <;> rfl

theorem writeChunk_same : (writeChunk a n m s).bins = s.bins ∧
    (writeChunk a n m s).pageFrameAllocatableBegin = s.pageFrameAllocatableBegin ∧
    (writeChunk a n m s).topChunk = s.topChunk ∧
    (writeChunk a n m s).pageFrameAllocatableEnd = s.pageFrameAllocatableEnd ∧
    (writeChunk a n m s).topChunkPrevChunkSize = s.topChunkPrevChunkSize := by
  rw [writeChunk]
  split_ifs <;> exact ⟨rfl, rfl, rfl, rfl, rfl⟩

theorem getPrevChunkSize_writeChunk_of_ne (h : d ≠ getNextChunk s a) :
    getPrevChunkSize (writeChunk a n m s) d = getPrevChunkSize s d := by
  rw [writeChunk, getPrevChunkSize_setAllocated]
  split_ifs
  · exact getPrevChunkSize_setPrevChunkSize_of_ne h
  · rfl

theorem getPrevChunkSize_writeChunk_next (hm : 2 ∣ m) (hm' : m < 2 ^ 31)
    (h : getNextChunk s a ≠ s.topChunk) :
    getPrevChunkSize (writeChunk a n m s) (getNextChunk s a) = m := by
  rw [writeChunk, getPrevChunkSize_setAllocated, if_pos h, toInt_of_lt hm']
  exact getPrevChunkSize_setPrevChunkSize_self (by omega)

end Headers

namespace Owned

variable {s s' : State} {C C' : List Span} {B B' : Bin → List ℕ} {live : List (ℕ × ℕ)}

/-- The tiling and the bins may change around the live chunks. -/
theorem retile (h : Owned s C B live)
    (hkeep : ∀ c ∈ C, isAllocated s c.start → (∀ b, c.start ∉ B b) →
      (∃ e ∈ live, c.start + chunkHeaderSize = e.1) →
      c ∈ C' ∧ isAllocated s' c.start ∧ ∀ b, c.start ∉ B' b) : Owned s' C' B' live where
  chunk e he := by
    obtain ⟨c, hc, h1, h2, h3, h4, h5⟩ := h.chunk e he
    obtain ⟨g1, g2, g3⟩ := hkeep c hc h4 h5 ⟨e, he, h1⟩
    exact ⟨c, g1, h1, h2, h3, g2, g3⟩
  nodup := h.nodup

/-- The order of the chunks does not matter. -/
theorem perm (h : Owned s C B live) (hp : C.Perm C') : Owned s C' B live :=
  h.retile fun _ hc hal hout _ => ⟨hp.mem_iff.mp hc, hal, hout⟩

/-- A free chunk is not live. -/
theorem notMem_of_free (h : Owned s C B live) {a : ℕ} (hfree : ¬isAllocated s a) :
    a + chunkHeaderSize ∉ live.map Prod.fst := by
  intro hmem
  obtain ⟨e, he, hEq⟩ := List.mem_map.mp hmem
  obtain ⟨c, -, hs, -, -, hal, -⟩ := h.chunk e he
  have hca : c.start = a := by omega
  exact hfree (hca ▸ hal)

/-- **A live pointer is given back.** -/
theorem release (h : Owned s C B live) {e : ℕ × ℕ} (he : e ∈ live) {a : ℕ}
    (ha : a + chunkHeaderSize = e.1) : Owned (setAllocated false a s) C B (live.erase e) where
  chunk e' he' := by
    obtain ⟨c, hc, h1, h2, h3, h4, h5⟩ := h.chunk e' (List.mem_of_mem_erase he')
    refine ⟨c, hc, h1, h2, h3, ?_, h5⟩
    have hne : c.start ≠ a := by
      rintro rfl
      have hnd := h.nodup
      rw [((List.perm_cons_erase he).map Prod.fst).nodup_iff, List.map_cons] at hnd
      exact (List.nodup_cons.mp hnd).1 (List.mem_map.mpr ⟨e', he', h1.symm.trans ha⟩)
    rwa [isAllocated_setAllocated_of_ne hne]
  nodup := ((List.erase_sublist).map Prod.fst).nodup h.nodup

end Owned

namespace Inv

variable {s : State} {pages : List ℕ} {C : List Span} {B : Bin → List ℕ} {live : List (ℕ × ℕ)}

/-- **A chunk is handed out.** -/
theorem grant (h : Inv s pages C B live) {c : Span} (hc : c ∈ C) {size : ℕ}
    (hsize : toSize (chunkHeaderSize + size) ≤ c.size) (h32 : 32 ≤ c.size)
    (hal : isAllocated s c.start) (hout : ∀ b, c.start ∉ B b)
    (hnew : c.start + chunkHeaderSize ∉ live.map Prod.fst) :
    Inv s pages C B ((c.start + chunkHeaderSize, size) :: live) where
  tiling := h.tiling
  settled := h.settled
  binned := h.binned
  owned := by
    refine ⟨fun e he => ?_, List.nodup_cons.mpr ⟨hnew, h.owned.nodup⟩⟩
    rcases List.mem_cons.mp he with rfl | he
    · exact ⟨c, hc, rfl, hsize, h32, hal, hout⟩
    · exact h.owned.chunk e he

/-- No chunk on a bin starts where the top chunk starts. -/
theorem notMem_of_top (h : Inv s pages C B live)
    (hlt : s.topChunk < s.pageFrameAllocatableEnd) (b : Bin) : s.topChunk ∉ B b := by
  intro hmem
  obtain ⟨c, hc, hs, -⟩ := h.binned.sound b _ hmem
  exact h.tiling.start_lt_top hc ⟨hs.ge, hs ▸ hlt⟩

/-- No live chunk starts where the top chunk starts. -/
theorem notMem_live_of_top (h : Inv s pages C B live)
    (hlt : s.topChunk < s.pageFrameAllocatableEnd) :
    s.topChunk + chunkHeaderSize ∉ live.map Prod.fst := by
  intro hmem
  obtain ⟨e, he, hEq⟩ := List.mem_map.mp hmem
  obtain ⟨c, hc, hs, -⟩ := h.owned.chunk e he
  have hcs : c.start = s.topChunk := by omega
  exact h.tiling.start_lt_top hc ⟨hcs.ge, hcs ▸ hlt⟩

/-- **A chunk is taken from the top chunk.** -/
theorem topCut (h : Inv s pages C B live) {n : ℕ} (hn : 0 < n) (hn16 : 16 ∣ n)
    (hle : s.topChunk + n ≤ s.pageFrameAllocatableEnd) :
    Inv (topCut n s) pages (⟨s.topChunk, n⟩ :: C) B live := by
  have hlt : s.topChunk < s.pageFrameAllocatableEnd := by omega
  have hne : ∀ c ∈ C, c.start ≠ s.topChunk := fun c hc hEq =>
    h.tiling.start_lt_top hc ⟨hEq.ge, hEq ▸ hlt⟩
  have hflag : ∀ c ∈ C, isAllocated (SlobAllocator.topCut n s) c.start = isAllocated s c.start :=
    fun c hc => isAllocated_topCut_of_ne (hne c hc)
  have hnew : isAllocated (SlobAllocator.topCut n s) s.topChunk := isAllocated_topCut_self
  have htiling : Tiling (SlobAllocator.topCut n s) pages (⟨s.topChunk, n⟩ :: C) := by
    refine h.tiling.takeTop hn hn16 hle rfl rfl rfl (update_self ..) (fun d hd => ?_)
      (fun c hc hstop hal => ?_) fun d hd _ => ?_
    · exact update_of_ne (hne d hd) _ _
    · have hprev := h.settled.topPrev c hc hstop hal (by have := h.tiling.bounds hc; omega)
      have h16 := (h.tiling.tagged c hc).sizeAligned
      simp only [getPrevChunkSize, SlobAllocator.topCut, update_self, hprev]
      exact getPrevChunkSize_withFlag (by omega) _
    · simp only [getPrevChunkSize, SlobAllocator.topCut, update_of_ne (hne d hd)]
  refine ⟨htiling, ⟨fun c hc d hd hcd hal _ _ => ?_, fun c hc hstop hal _ => ?_,
    fun c hc hstop hal _ => ?_, fun c hc hfree => ?_⟩, ?_, ?_⟩
  · rcases List.mem_cons.mp hd with rfl | hd
    · exact Or.inr hnew
    · rcases List.mem_cons.mp hc with rfl | hc
      · exact Or.inl hnew
      · rw [hflag c hc, hflag d hd]
        refine h.settled.apart c hc d hd hcd hal ?_ ?_
        · have := h.tiling.bounds hc
          omega
        · have := h.tiling.bounds hd
          omega
  · obtain rfl : c = ⟨s.topChunk, n⟩ := htiling.eq_of_stop hc (by simp) hstop
    exact hnew
  · obtain rfl : c = ⟨s.topChunk, n⟩ := htiling.eq_of_stop hc (by simp) hstop
    rfl
  · rcases List.mem_cons.mp hc with rfl | hc
    · exact absurd hnew hfree
    · exact h.settled.large c hc (hflag c hc ▸ hfree)
  · refine h.binned.retile (fun c hc d hd => htiling.eq_of_start hc hd) rfl (fun b a ha => ?_)
      (fun b c hc _ => by simp [hc]) fun b a ha => ?_
    · have hne' : a ≠ s.topChunk := fun hEq => h.notMem_of_top hlt b (hEq ▸ ha)
      exact update_of_ne hne' _ _
    · obtain ⟨c, hc, rfl, -⟩ := h.binned.sound b a ha
      exact hflag c hc
  · exact h.owned.retile fun c hc hal hout _ => ⟨by simp [hc], (hflag c hc).trans hal, hout⟩

/-- **A chunk of the tiling is put on its bin.** -/
theorem binAddHead (h : Inv s pages C B live) {c : Span} (hc : c ∈ C) (h32 : 32 ≤ c.size)
    (hout : ∀ b, c.start ∉ B b) (hflag : isAllocated s c.start → pageSize ∣ c.stop)
    (hdead : c.start + chunkHeaderSize ∉ live.map Prod.fst) :
    ∃ next bins, SlobAllocator.binAddHead c.start s = .ok { s with next := next, bins := bins } ∧
      Inv { s with next := next, bins := bins } pages C
        (update B (binOf c.size) (c.start :: B (binOf c.size))) live := by
  have hpos : c.start ≠ 0 := by
    have := h.tiling.bounds hc
    omega
  obtain ⟨next, bins, hadd, hbinned⟩ :=
    h.binned.binAddHead hc h32 hpos (h.tiling.tagged c hc).index hout hflag
  refine ⟨next, bins, hadd, h.tiling.congr rfl rfl rfl (fun _ _ => rfl) fun _ _ _ => rfl,
    ⟨h.settled.apart, h.settled.top, h.settled.topPrev, h.settled.large⟩, hbinned,
    h.owned.retile fun d hd hal hnot hlive => ⟨hd, hal, fun b hmem => ?_⟩⟩
  by_cases hb : b = binOf c.size
  · rw [hb, update_self] at hmem
    rcases List.mem_cons.mp hmem with hEq | hmem
    · obtain ⟨e, he, hde⟩ := hlive
      exact hdead (List.mem_map.mpr ⟨e, he, by rw [← hde, hEq]⟩)
    · exact hnot _ hmem
  · rw [update_of_ne hb] at hmem
    exact hnot b hmem

/-- **A top chunk that is too small is given up.** It becomes the last chunk of its
page; if it is large enough it goes to a bin, flagged as allocated. -/
theorem retireTopChunk (h : Inv s pages C B live)
    (hlt : s.topChunk < s.pageFrameAllocatableEnd) :
    ∃ s' B', SlobAllocator.retireTopChunk s = .ok s' ∧
      Inv s' pages (⟨s.topChunk, getTopChunkSize s⟩ :: C) B' live ∧
      s'.topChunk = s'.pageFrameAllocatableEnd ∧
      (∀ a, isAllocated s' a = isAllocated (SlobAllocator.topCut (getTopChunkSize s) s) a) ∧
      (getTopChunkSize s < 32 → B' = B) := by
  obtain ⟨htop, -, -, h16, h16'⟩ := h.tiling.getTopChunkSize_eq
  set n := getTopChunkSize s with hn
  have hcut := h.topCut (n := n) (by omega) (by omega) (by omega)
  have hself : (⟨s.topChunk, n⟩ : Span) ∈ (⟨s.topChunk, n⟩ :: C : List Span) := by simp
  have hsize : getSize (SlobAllocator.topCut n s) s.topChunk = n := hcut.tiling.getSize_eq hself
  have hend : (SlobAllocator.topCut n s).topChunk =
      (SlobAllocator.topCut n s).pageFrameAllocatableEnd := by
    change s.topChunk + n = s.pageFrameAllocatableEnd
    omega
  rw [SlobAllocator.retireTopChunk, ← hn,
    h.tiling.splitFromTopChunk_eq (by omega) (by omega) (by omega)]
  simp only [Exec.ok_bind, hsize, isChunkSizeUsable, smallestChunkSize]
  by_cases h32 : 32 ≤ n
  · have hstop : pageSize ∣ Span.stop ⟨s.topChunk, n⟩ := by
      change pageSize ∣ s.topChunk + n
      rw [show s.topChunk + n = s.pageFrameAllocatableEnd by omega]
      exact h.tiling.dvd_end
    obtain ⟨next, bins, hadd, hinv⟩ := hcut.binAddHead hself h32 (h.notMem_of_top hlt)
      (fun _ => hstop) (h.notMem_live_of_top hlt)
    rw [if_pos (by simpa using h32)]
    exact ⟨_, _, hadd, hinv, hend, fun _ => rfl, fun hc => absurd h32 (by omega)⟩
  · have hflag : setAllocated true s.topChunk (SlobAllocator.topCut n s) =
        SlobAllocator.topCut n s := by
      simp only [setAllocated, SlobAllocator.topCut, update_self, update_idem,
        State.mk.injEq, true_and, and_true]
      congr 1
      simp only [withFlag]
      split_ifs <;> omega
    rw [if_neg (by simpa using h32), hflag]
    exact ⟨_, B, rfl, hcut, hend, fun _ => rfl, fun _ => rfl⟩

end Inv

end SlobAllocator

end Valkyrie
