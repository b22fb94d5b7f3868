import Valkyrie.Mm.Slob.Run

/-!
# What becomes of freed chunks

A chunk that nobody owns should be found again: it should be part of the top
chunk, or on the bin that its index names, unless it is one of the remainders that
are too small for any bin. And the flag in the header should say which chunks are
on a bin. This is `Valkyrie.SlobAllocator.Recycled`.

The allocator recycles less than that. `deallocate` joins a chunk to a free chunk
before it, to the top chunk or to a free chunk behind it, and only the last of
these puts it on a bin: a chunk between two live ones is lost
(`Valkyrie.SlobAllocator.not_recycled_of_free_between_live`). And a top chunk that
`allocate` gives up goes to its bin with the flag still set.

Since chunks get to the bins in no other way, the runs in which nothing is lost are
those that never use the bins: chunks are freed last in, first out, and no top
chunk of a size for a bin is given up (`Valkyrie.SlobAllocator.Reclaims`). In these
runs nothing is lost indeed (`Valkyrie.SlobAllocator.recycled_of_run`).
-/

namespace Valkyrie.SlobAllocator

open Exec

/-- The chunk is on the bin. -/
def OnBin (s : State) (b : Bin) (a : ℕ) : Prop := ∃ l, Chain s.next (s.bins b) l ∧ a ∈ l

/-- The bin that the index of a chunk names. -/
def indexBin (s : State) (a : ℕ) : Bin :=
  if (nrBins : ℤ) ≤ s.index a then .unsorted else .regular (s.index a).toNat

/-- **No freed memory is lost.** Of the chunks on the way through a page, those that
are not live and not too small are on the bin of their index and on no other, and
the flag is clear exactly for those on a bin. -/
def Recycled (s : State) (pages : List ℕ) (live : List (ℕ × ℕ)) : Prop :=
  ∀ p ∈ pages, ∃ l, Walk s none p (pageEnd s p) l ∧ ∀ a ∈ l,
    (a + chunkHeaderSize ∉ live.map Prod.fst → smallestChunkSize ≤ getSize s a →
      ∀ b, OnBin s b a ↔ b = indexBin s a) ∧
    ((∃ b, OnBin s b a) ↔ isAllocated s a = false)

/-- **The call gives everything back to the top chunk.** It frees the last chunk
before the top chunk, in a page that is not used up; or it is a request for which
no top chunk of a size for a bin has to be given up. -/
def Reclaims (s : State) (_ : List ℕ) : Call → Prop
  | .allocate size => size ≠ 0 →
    ¬(smallestChunkSize ≤ getTopChunkSize s ∧ getTopChunkSize s < chunkSizeOf size)
  | .deallocate p => getNextChunk s (p - chunkHeaderSize) = s.topChunk ∧ ¬pageSize ∣ s.topChunk

/-- **Every chunk is in use**: the bins are empty, and every chunk is flagged as
allocated and live, or too small for a bin. -/
structure InUse (s : State) (pages : List ℕ) (C : List Span) (live : List (ℕ × ℕ)) : Prop where
  inv : Inv s pages C (fun _ => []) live
  used : ∀ c ∈ C, isAllocated s c.start ∧
    (c.size < smallestChunkSize ∨ c.start + chunkHeaderSize ∈ live.map Prod.fst)

section InUse

variable {s : State} {pages : List ℕ} {C : List Span} {live : List (ℕ × ℕ)}

/-- The bins are empty. -/
theorem InUse.bins_eq (h : InUse s pages C live) (b : Bin) : s.bins b = none :=
  Chain.nil_iff.mp (h.inv.binned.chain b)

/-- **Where every chunk is in use, nothing is lost.** -/
theorem InUse.recycled (h : InUse s pages C live) : Recycled s pages live := by
  have hoff : ∀ b a, ¬OnBin s b a := by
    rintro b a ⟨l, hl, ha⟩
    rw [h.bins_eq b] at hl
    rw [hl.eq_nil] at ha
    cases ha
  intro p hp
  obtain ⟨l, hl, -, hstart⟩ := h.inv.tiling.exists_walk hp
  refine ⟨l, hl, fun a ha => ?_⟩
  obtain ⟨c, hc, rfl⟩ := hstart a ha
  obtain ⟨hal, huse⟩ := h.used c hc
  refine ⟨fun hdead hsize => ?_, fun ⟨b, hb⟩ => absurd hb (hoff b _), fun hfree => ?_⟩
  · rw [h.inv.tiling.getSize_eq hc] at hsize
    rcases huse with hsmall | hlive
    · omega
    · exact absurd hlive hdead
  · rw [hfree] at hal
    cases hal

/-! ### Allocation -/

variable {π : Type} {P : PageAllocator π} {b b' : π} {t : State} {n fuel : ℕ} {v : Option ℕ}

/-- What is cut from the top chunk is in use, once it is handed out. -/
theorem InUse.fromTop (h : InUse s (P.held b) C live) {C' : List Span} {B' : Bin → List ℕ}
    (hsmall : ¬(smallestChunkSize ≤ getTopChunkSize s ∧ getTopChunkSize s < n))
    (hinv : Inv t (P.held b') C' B' live) (hfrom : FromTop s t C C' (fun _ => []) B' n v) :
    Inv t (P.held b') C' (fun _ => []) live ∧ ∀ c ∈ C', isAllocated t c.start ∧
      (c.size < smallestChunkSize ∨ c.start + chunkHeaderSize ∈ live.map Prod.fst ∨
        v = some c.start) := by
  obtain rfl : B' = fun _ => [] := hfrom.bins.resolve_right hsmall
  refine ⟨hinv, fun c hc => ?_⟩
  rcases hfrom.chunks c hc with ⟨hold, hflag⟩ | ⟨hal, ⟨hsize, hlt⟩ | hnew⟩
  · obtain ⟨hal, huse⟩ := h.used c hold
    exact ⟨hflag.trans hal, huse.imp_right Or.inl⟩
  · -- The old top chunk has become a chunk: it is too small for a bin.
    refine ⟨hal, Or.inl ?_⟩
    by_contra hbig
    exact hsmall ⟨by omega, hlt⟩
  · exact ⟨hal, Or.inr (Or.inr hnew)⟩

/-- The top chunk is not larger than a page. -/
theorem Tiling.getTopChunkSize_le (h : Tiling s pages C) : getTopChunkSize s ≤ pageSize := by
  obtain ⟨htop, -⟩ := h.getTopChunkSize_eq
  rcases h.current with ⟨-, h1, h2⟩ | ⟨-, hend, hbt, -⟩ <;> omega

/-- A request that does not fit in a page is not served. -/
theorem Inv.takeFromTop_of_gt {B : Bin → List ℕ} (h : Inv s (P.held b) C B live)
    (hn : pageSize < n)
    (hcall : SlobAllocator.takeFromTop P.allocateOnePageFrame fuel n s b = .ok (v, t, b')) :
    v = none ∧ ∃ C' B', Inv t (P.held b') C' B' live ∧ FromTop s t C C' B B' n none := by
  rw [SlobAllocator.takeFromTop] at hcall
  obtain ⟨⟨fresh, t', b''⟩, hrenew, hrest⟩ := bind_eq_ok.mp hcall
  obtain ⟨C', B', hinv, -, hfrom⟩ := (h.renewTopChunk P n fuel).of_eq_ok hrenew
  cases fresh with
  | false =>
    obtain ⟨rfl, rfl, rfl⟩ : none = v ∧ t' = t ∧ b'' = b' := by simpa using hrest
    exact ⟨rfl, C', B', hinv, hfrom⟩
  | true =>
    -- The page that was asked for is too small, and the cut aborts.
    have hsmall : getTopChunkSize t' < n := hinv.tiling.getTopChunkSize_le.trans_lt hn
    simp only [if_true, splitFromTopChunk, if_pos hsmall] at hrest
    cases hrest

/-- **A request that gives up no top chunk of a size for a bin** leaves every chunk
in use. -/
theorem InUse.allocate (h : InUse s (P.held b) C live) {size p : ℕ}
    (hok : Reclaims s (P.held b) (.allocate size))
    (hcall : allocate P.allocateOnePageFrame fuel size s b = .ok (p, t, b')) :
    ∃ C', InUse t (P.held b') C' (if p = 0 then live else (p, size) :: live) := by
  rw [SlobAllocator.allocate] at hcall
  by_cases hzero : size = 0
  · rw [if_pos hzero] at hcall
    obtain ⟨rfl, rfl, rfl⟩ : 0 = p ∧ s = t ∧ b = b' := by simpa using hcall
    exact ⟨C, h⟩
  rw [if_neg hzero] at hcall
  have hsmall := hok hzero
  obtain ⟨n, hn, hcall⟩ := bind_eq_ok.mp hcall
  obtain ⟨found, hfound, hcall⟩ := bind_eq_ok.mp hcall
  rw [takeFromBins_of_empty (fun _ _ => h.bins_eq _) (h.bins_eq _)] at hfound
  obtain rfl : found = none := by
    split_ifs at hfound
    exact (Except.ok.inj hfound).symm
  obtain ⟨⟨v, t', b''⟩, htop, hcall⟩ := bind_eq_ok.mp hcall
  -- When no chunk was cut, the rest of the chunks is in use.
  have hnull : ∀ m C' B', ¬(smallestChunkSize ≤ getTopChunkSize s ∧ getTopChunkSize s < m) →
      Inv t' (P.held b'') C' B' live → FromTop s t' C C' (fun _ => []) B' m none → v = none →
      ∃ C', InUse t (P.held b') C' (if p = 0 then live else (p, size) :: live) := by
    rintro m C' B' hm hinv hfrom rfl
    obtain ⟨hinv', hused⟩ := h.fromTop hm hinv hfrom
    obtain ⟨rfl, rfl, rfl⟩ : 0 = p ∧ t' = t ∧ b'' = b' := by simpa using hcall
    refine ⟨C', hinv', fun c hc => ?_⟩
    obtain ⟨hal, huse⟩ := hused c hc
    exact ⟨hal, huse.imp_right fun hl => hl.resolve_right (by simp)⟩
  by_cases hsize : toSize (chunkHeaderSize + size) ≤ pageSize
  · obtain rfl := (meets_normalizeSize hsize fuel).of_eq_ok hn
    obtain ⟨h32, h16, hle, hfit⟩ := chunkSizeOf_spec hsize
    obtain ⟨C', B', hinv, hfrom, hnew⟩ :=
      (h.inv.takeFromTop P (by omega) h16 hle fuel).of_eq_ok htop
    cases v with
    | none => exact hnull _ C' B' hsmall hinv hfrom rfl
    | some v =>
      obtain ⟨hinv', hused⟩ := h.fromTop hsmall hinv hfrom
      obtain ⟨hmem, hal, -, hdead⟩ := hnew v rfl
      obtain ⟨hv, haligned⟩ := hinv'.payload hmem h32
      simp only [hv, haligned, Bool.false_eq_true, if_false] at hcall
      obtain ⟨rfl, rfl, rfl⟩ : v + chunkHeaderSize = p ∧ t' = t ∧ b'' = b' := by simpa using hcall
      have hhdr : chunkHeaderSize = 16 := rfl
      rw [if_neg (show v + chunkHeaderSize ≠ 0 by omega)]
      refine ⟨C', hinv'.grant hmem hfit h32 hal (by simp) hdead, fun c hc => ?_⟩
      obtain ⟨halc, huse⟩ := hused c hc
      refine ⟨halc, huse.imp_right ?_⟩
      rintro (hl | hEq)
      · exact List.mem_cons_of_mem _ hl
      · rw [Option.some.inj hEq]
        exact List.mem_cons_self
  · -- A request that does not fit in a page is larger than any top chunk.
    have hgt : pageSize < n := by
      have := le_of_roundUpToMultipleOfN hn
      omega
    obtain ⟨hv, C', B', hinv, hfrom⟩ := h.inv.takeFromTop_of_gt hgt htop
    have hgt' : pageSize < chunkSizeOf size := by
      rw [chunkSizeOf]
      simp only [pageSize_lit] at hsize ⊢
      omega
    refine hnull n C' B' (fun hc => hsmall ⟨hc.1, ?_⟩) hinv hfrom hv
    exact h.inv.tiling.getTopChunkSize_le.trans_lt hgt'

/-! ### Deallocation -/

/-- A chunk whose neighbour on the left is allocated is not joined to it. -/
theorem freeToPrev_of_left {c : Span} {prev : ℕ}
    (hprev : ¬pageSize ∣ c.start → ∃ d ∈ C, d.stop = c.start ∧ prev = d.start)
    (hleft : LeftAllocated s C c) (m : ℕ) :
    SlobAllocator.freeToPrev fuel c.start prev m c.size s = .ok (c.start, c.size, s) := by
  rw [SlobAllocator.freeToPrev, if_neg]
  rintro ⟨hfree, hal⟩
  have hal' : ¬pageSize ∣ c.start := fun hd => hal (pageIsAligned_iff.mpr hd)
  obtain ⟨d, hd, hdc, rfl⟩ := hprev hal'
  exact hfree (hleft d hd hdc hal')

/-- **Freeing the last chunk before the top chunk** leaves every chunk in use. -/
theorem InUse.deallocate (h : InUse s pages C live) {e : ℕ × ℕ} (he : e ∈ live)
    (hok : Reclaims s pages (.deallocate e.1)) (hcall : deallocate fuel e.1 s = .ok t) :
    ∃ C', InUse t pages C' (live.erase e) := by
  obtain ⟨c, hc, hce, -, h32, -, hout⟩ := h.inv.owned.chunk e he
  obtain ⟨-, -, -, -, hpos, hlt, -⟩ := h.inv.tiling.bounds hc
  have hhdr : chunkHeaderSize = 16 := rfl
  have hmid : subSize e.1 chunkHeaderSize = c.start := by
    rw [← hce, subSize_of_le (by omega) (by omega)]
    omega
  obtain ⟨htop, hal⟩ := hok
  rw [show e.1 - chunkHeaderSize = c.start by omega, h.inv.tiling.getNextChunk_eq hc] at htop
  rw [SlobAllocator.deallocate, if_neg (by omega)] at hcall
  simp only [hmid, h.inv.tiling.getNextChunk_eq hc, h.inv.tiling.getSize_eq hc] at hcall
  have hfreed := h.inv.free he hc hce h32 hout
  have hflag : ∀ d ∈ C, d ≠ c → isAllocated (setAllocated false c.start s) d.start := by
    intro d hd hne
    rw [isAllocated_setAllocated_of_ne fun hEq => hne (h.inv.tiling.eq_of_start hd hc hEq)]
    exact (h.used d hd).1
  have hleft : LeftAllocated (setAllocated false c.start s) C c := by
    refine fun d hd hdc _ => hflag d hd ?_
    rintro rfl
    simp only [Span.stop] at hdc
    omega
  obtain ⟨r, hprev, hnext⟩ := bind_eq_ok.mp hcall
  rw [freeToPrev_of_left (Inv.getPrevChunk_eq h.inv.tiling hc) hleft] at hprev
  cases hprev
  change freeToNext fuel c.start c.stop c.size (setAllocated false c.start s) = .ok t at hnext
  rw [freeToNext, if_neg (by simpa [pageIsAligned_iff, htop] using hal),
    if_pos (show c.stop = (setAllocated false c.start s).topChunk from htop)] at hnext
  cases hnext
  refine ⟨C.erase c, hfreed.giveTop hleft htop hal, fun d hd => ?_⟩
  have hne : d.start ≠ c.start := h.inv.tiling.start_ne_of_mem_erase hc hd
  have hdC := List.mem_of_mem_erase hd
  refine ⟨hflag d hdC fun hEq => hne (congrArg Span.start hEq), (h.used d hdC).2.imp_right ?_⟩
  intro hlive
  obtain ⟨e', he', hde⟩ := List.mem_map.mp hlive
  have hne' : e' ≠ e := by
    rintro rfl
    omega
  exact List.mem_map.mpr ⟨e', (List.mem_erase_of_ne hne').mpr he', hde⟩

/-- Writing to live payloads leaves every chunk in use. -/
theorem InUse.store (h : InUse s pages C live) (hst : Stores live s t) : InUse t pages C live := by
  have hsame := h.inv.isAllocated_of_stores hst
  exact ⟨h.inv.store hst, fun c hc => ⟨(hsame c hc).trans (h.used c hc).1, (h.used c hc).2⟩⟩

/-! ### Runs -/

/-- **A step that gives everything back** leaves every chunk in use. -/
theorem inUse_step {r r' : State × π × List (ℕ × ℕ)}
    (h : ∃ C, InUse r.1 (P.held r.2.1) C r.2.2) (hstep : Step P Reclaims r r') :
    ∃ C, InUse r'.1 (P.held r'.2.1) C r'.2.2 := by
  obtain ⟨C, h⟩ := h
  cases hstep with
  | allocate fuel size hok hcall => exact h.allocate hok hcall
  | deallocate fuel hp hok hcall => exact h.deallocate hp hok hcall
  | store hst => exact ⟨C, h.store hst⟩

/-- **In every run that gives everything back to the top chunk, nothing is lost** in
any state reached, whatever was in memory at the start. -/
theorem recycled_of_run {b₀ : π} (h₀ : P.held b₀ = []) {next : ℕ → Option ℕ}
    {index prevChunkSize : ℕ → ℤ}
    (h : Run (Step P Reclaims) (init next index prevChunkSize, b₀, []) (s, b, live)) :
    Recycled s (P.held b) live := by
  have hinit : ∃ C, InUse (init next index prevChunkSize) (P.held b₀) C [] := by
    refine ⟨[], ?_, by simp⟩
    rw [h₀]
    exact inv_init next index prevChunkSize
  obtain ⟨C, hinv⟩ := h.invariant hinit fun _ _ => inUse_step
  exact hinv.recycled

end InUse

/-- **A chunk between two live ones is lost.** Two chunks are taken and the first is
freed: its flag is clear, but it is on no bin, and no later request will find it. -/
theorem not_recycled_of_free_between_live :
    ∃ s b live, Run (Step counter fun _ _ call => call.Fits) fresh (s, b, live) ∧
      0x10200010 ∉ live.map Prod.fst ∧ getSize s 0x10200000 = 32 ∧
      s.bins (indexBin s 0x10200000) = none ∧ ¬Recycled s (counter.held b) live := by
  have hexec : check (fun (s, b, live) => decide (0x10200010 ∉ live.map Prod.fst ∧
      getSize s 0x10200000 = 32 ∧ s.bins (indexBin s 0x10200000) = none ∧
      pageEnd s 0x10200000 = 0x10200040 ∧ 0x10200000 ∈ counter.held b))
      (runCalls counter (fun _ call => decide call.Fits) 20
        [.allocate 16, .allocate 16, .deallocate 0x10200010] fresh) = true := by
    decide +kernel
  obtain ⟨⟨s, b, live⟩, hrun, hcheck⟩ := exists_ok_of_check hexec
  obtain ⟨hdead, hsize, hbin, hend, hpage⟩ := of_decide_eq_true hcheck
  refine ⟨s, b, live, run_of_runCalls (fun _ _ _ => of_decide_eq_true) hrun, hdead, hsize, hbin,
    fun hrecycled => ?_⟩
  obtain ⟨l, hl, hlost⟩ := hrecycled _ hpage
  rw [hend] at hl
  -- The first chunk on the way is the one that was freed.
  cases l with
  | nil => exact absurd (show (0x10200000 : ℕ) = 0x10200040 from hl) (by decide)
  | cons c l =>
    obtain ⟨rfl, -⟩ := hl
    obtain ⟨m, hm, hmem⟩ := ((hlost _ List.mem_cons_self).1 hdead hsize.ge _).mpr rfl
    rw [hbin] at hm
    rw [hm.eq_nil] at hmem
    cases hmem

/-- A run of one allocation, and of the deallocation that takes it back. -/
theorem recycled_of_run_one_chunk :
    ∃ s t b, allocate counter.allocateOnePageFrame 20 16 fresh.1 0 = .ok (0x10200010, s, b) ∧
      deallocate 20 0x10200010 s = .ok t ∧ Recycled t (counter.held b) [] := by
  have hexec : check (fun (p, s, _) => decide (p = 0x10200010 ∧
      (getNextChunk s 0x10200000 = s.topChunk ∧ ¬pageSize ∣ s.topChunk)) &&
      check (fun _ => true) (deallocate 20 0x10200010 s))
      (allocate counter.allocateOnePageFrame 20 16 fresh.1 0) = true := by
    decide +kernel
  obtain ⟨⟨p, s, b⟩, hrun, hcheck⟩ := exists_ok_of_check hexec
  rw [Bool.and_eq_true] at hcheck
  obtain ⟨rfl, hback⟩ := of_decide_eq_true hcheck.1
  obtain ⟨t, hfree, -⟩ := exists_ok_of_check hcheck.2
  have hfirst : Step counter Reclaims fresh (s, b, [(0x10200010, 16)]) :=
    .allocate 20 16 (fun _ => by decide) hrun
  have hsecond : Step counter Reclaims (s, b, [(0x10200010, 16)]) (t, b, []) :=
    .deallocate 20 List.mem_cons_self hback hfree
  exact ⟨s, t, b, hrun, hfree, recycled_of_run rfl ((Relation.ReflTransGen.single hfirst).tail hsecond)⟩

end Valkyrie.SlobAllocator
