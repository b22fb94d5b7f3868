import Valkyrie.Mm.Slob.Allocate

/-!
# Deallocation

`deallocate` clears the flag of a chunk and joins it to its free neighbours: to
the chunk before it, and then to the top chunk or the chunk behind it. Between
these steps the chunk in question is free but its neighbours need not be
allocated: `Valkyrie.SlobAllocator.Freed` is the invariant with this one chunk
exempt. The exemption ends when both sides are seen to
(`Valkyrie.SlobAllocator.Freed.settle`).
-/

namespace Valkyrie

namespace SlobAllocator

open Function Exec

/-- **The invariant in the middle of a deallocation**: the chunk is free, and on no
bin. -/
structure Freed (s : State) (pages : List ℕ) (C : List Span) (B : Bin → List ℕ)
    (live : List (ℕ × ℕ)) (c : Span) : Prop where
  tiling : Tiling s pages C
  settled : Settled s C c.start
  binned : Binned s C B
  owned : Owned s C B live
  mem : c ∈ C
  size : 32 ≤ c.size
  free : ¬isAllocated s c.start
  out : ∀ b, c.start ∉ B b

/-- The chunk before it in its page, if there is one, is allocated. -/
def LeftAllocated (s : State) (C : List Span) (c : Span) : Prop :=
  ∀ d ∈ C, d.stop = c.start → ¬pageSize ∣ c.start → isAllocated s d.start

namespace Freed

variable {s t : State} {pages : List ℕ} {C : List Span} {B : Bin → List ℕ}
  {live : List (ℕ × ℕ)} {c : Span} {a n m : ℕ}

/-- **The exemption ends** when the neighbours on both sides are allocated. -/
theorem settle (h : Freed s pages C B live c) (hleft : LeftAllocated s C c)
    (hright : ∀ d ∈ C, c.stop = d.start → ¬pageSize ∣ d.start → isAllocated s d.start)
    (htop : c.stop = s.topChunk → pageSize ∣ s.topChunk) : Inv s pages C B live := by
  refine ⟨h.tiling, ⟨fun d hd e he hde hal _ _ => ?_, fun d hd hstop hal _ => ?_,
    fun d hd hstop hal _ => ?_, h.settled.large⟩, h.binned, h.owned⟩
  · by_cases hdc : d.start = c.start
    · obtain rfl : d = c := h.tiling.eq_of_start hd h.mem hdc
      exact Or.inr (hright e he hde hal)
    by_cases hec : e.start = c.start
    · obtain rfl : e = c := h.tiling.eq_of_start he h.mem hec
      exact Or.inl (hleft d hd hde hal)
    · exact h.settled.apart d hd e he hde hal hdc hec
  · by_cases hdc : d.start = c.start
    · obtain rfl : d = c := h.tiling.eq_of_start hd h.mem hdc
      exact absurd (htop hstop) hal
    · exact h.settled.top d hd hstop hal hdc
  · by_cases hdc : d.start = c.start
    · obtain rfl : d = c := h.tiling.eq_of_start hd h.mem hdc
      exact absurd (htop hstop) hal
    · exact h.settled.topPrev d hd hstop hal hdc

/-- **Two neighbours are joined**, of which one is exempt and neither is on a bin.
The header of the left one gets the new size, and the header behind is told. -/
theorem join {x : ℕ} (htiling : Tiling s pages (⟨a, n⟩ :: ⟨a + n, m⟩ :: C))
    (hsettled : Settled s (⟨a, n⟩ :: ⟨a + n, m⟩ :: C) x)
    (hbinned : Binned s (⟨a, n⟩ :: ⟨a + n, m⟩ :: C) B)
    (howned : Owned s (⟨a, n⟩ :: ⟨a + n, m⟩ :: C) B live) (hx : x = a ∨ x = a + n)
    (hpage : ¬pageSize ∣ a + n) (hn : 32 ≤ n) (hfa : ¬isAllocated s a)
    (hfr : ¬isAllocated s (a + n)) (hBa : ∀ b, a ∉ B b) (hBr : ∀ b, a + n ∉ B b)
    (link : Option ℕ) :
    Freed (setPrevChunkSize (n + m : ℕ) (a + (n + m)) { s with
      next := update s.next a link
      index := update s.index a (((n + m) / 16 : ℕ) - 2) })
      pages (⟨a, n + m⟩ :: C) B live ⟨a, n + m⟩ := by
  set t : State := setPrevChunkSize (n + m : ℕ) (a + (n + m)) { s with
    next := update s.next a link
    index := update s.index a (((n + m) / 16 : ℕ) - 2) } with ht
  have hflag : ∀ d, isAllocated t d = isAllocated s d := fun d => isAllocated_setPrevChunkSize
  have hL := htiling.bounds (c := ⟨a, n⟩) (by simp)
  have hR := htiling.bounds (c := ⟨a + n, m⟩) (by simp)
  simp only at hL hR
  have hCa : ∀ d ∈ C, d.start ≠ a := fun d hd => htiling.start_ne_of_mem (by simp [hd])
  have hCr : ∀ d ∈ C, d.start ≠ a + n := fun d hd =>
    (htiling.perm (List.Perm.swap _ _ _)).start_ne_of_mem (by simp [hd])
  have hCx : ∀ d ∈ C, d.start ≠ x := fun d hd => by
    rcases hx with rfl | rfl
    · exact hCa d hd
    · exact hCr d hd
  have htiling' : Tiling t pages (⟨a, n + m⟩ :: C) := by
    refine htiling.join hpage rfl rfl rfl (update_self ..) (fun d hd => ?_) (fun _ => ?_)
      (fun d _ hEq _ => ?_) fun d hd hne _ => ?_
    · exact update_of_ne (hCa d hd) _ _
    · exact getPrevChunkSize_setPrevChunkSize_of_ne (by omega)
    · rw [hEq]
      exact getPrevChunkSize_setPrevChunkSize_self (by omega)
    · exact getPrevChunkSize_setPrevChunkSize_of_ne hne
  refine ⟨htiling', ⟨fun c hc d hd hcd hal hc0 hd0 => ?_, fun c hc hstop hal hc0 => ?_,
    fun c hc hstop hal hc0 => ?_, fun c hc hfree => ?_⟩, ?_, ?_, by simp,
    show 32 ≤ n + m by omega, fun hf => hfa (hflag a ▸ hf), hBa⟩
  · rcases List.mem_cons.mp hc with rfl | hc
    · exact absurd rfl hc0
    rcases List.mem_cons.mp hd with rfl | hd
    · exact absurd rfl hd0
    rw [hflag, hflag]
    exact hsettled.apart c (by simp [hc]) d (by simp [hd]) hcd hal (hCx c hc) (hCx d hd)
  · rcases List.mem_cons.mp hc with rfl | hc
    · exact absurd rfl hc0
    rw [hflag]
    exact hsettled.top c (by simp [hc]) hstop hal (hCx c hc)
  · rcases List.mem_cons.mp hc with rfl | hc
    · exact absurd rfl hc0
    exact hsettled.topPrev c (by simp [hc]) hstop hal (hCx c hc)
  · rcases List.mem_cons.mp hc with rfl | hc
    · exact Nat.le_add_right_of_le hn
    · exact hsettled.large c (by simp [hc]) (hflag c.start ▸ hfree)
  · -- The links of the bins lie elsewhere: neither of the two chunks is on a bin.
    refine hbinned.retile (fun c hc d hd => htiling'.eq_of_start hc hd) rfl (fun b y hy => ?_)
      (fun b d hd hmem => ?_) fun b y _ => hflag y
    · exact update_of_ne (show y ≠ a from fun hEq => hBa b (hEq ▸ hy)) _ _
    · rcases List.mem_cons.mp hd with rfl | hd
      · exact absurd hmem (hBa b)
      rcases List.mem_cons.mp hd with rfl | hd
      · exact absurd hmem (hBr b)
      · simp [hd]
  · refine howned.retile fun d hd hal hout _ => ⟨?_, (hflag _).trans hal, hout⟩
    rcases List.mem_cons.mp hd with rfl | hd
    · exact absurd hal hfa
    rcases List.mem_cons.mp hd with rfl | hd
    · exact absurd hal hfr
    · simp [hd]

/-- The links and the heads of the bins say nothing about where the chunks are. -/
theorem relink (h : Freed s pages C B live c) (next : ℕ → Option ℕ) (bins : Bin → Option ℕ)
    {B' : Bin → List ℕ} (hB : ∀ b, ∀ a ∈ B' b, a ∈ B b) :
    Tiling { s with next := next, bins := bins } pages C ∧
      Settled { s with next := next, bins := bins } C c.start ∧
      Owned { s with next := next, bins := bins } C B' live :=
  ⟨h.tiling.congr rfl rfl rfl (fun _ _ => rfl) fun _ _ _ => rfl,
    ⟨h.settled.apart, h.settled.top, h.settled.topPrev, h.settled.large⟩,
    h.owned.retile fun _ hd hal hout _ => ⟨hd, hal, fun b hmem => hout b (hB b _ hmem)⟩⟩

/-- Two chunks of a list can be brought to its front. -/
theorem exists_perm_cons_cons {d : Span} (hd : d ∈ C) (hc : c ∈ C) (hne : c ≠ d) :
    ∃ C₀, C.Perm (d :: c :: C₀) :=
  ⟨(C.erase d).erase c, (List.perm_cons_erase hd).trans
    ((List.perm_cons_erase ((List.mem_erase_of_ne hne).mpr hc)).cons d)⟩

/-- **The chunk is joined to the free chunk before it.** -/
theorem mergePrev (h : Freed s pages C B live c) {d : Span} (hd : d ∈ C) (hdc : d.stop = c.start)
    (hal : ¬pageSize ∣ c.start) (hfree : ¬isAllocated s d.start) (fuel : ℕ) :
    Meets (SlobAllocator.mergePrev fuel d.start c.stop c.size s) (∀ b, (B b).length ≤ fuel)
      fun r => r.1 = d.size + c.size ∧ r.2.topChunk = s.topChunk ∧
        ∃ C' B', Freed r.2 pages C' B' live ⟨d.start, d.size + c.size⟩ ∧
          LeftAllocated r.2 C' ⟨d.start, d.size + c.size⟩ ∧ ∀ b, (B' b).length ≤ (B b).length := by
  obtain ⟨-, hd16, hd16', hdpage, hd0, hdlt, -⟩ := h.tiling.bounds hd
  obtain ⟨-, hc16, hc16', hcpage, -, hclt, -⟩ := h.tiling.bounds h.mem
  have hne : c ≠ d := by
    rintro rfl
    simp only [Span.stop] at hdc
    omega
  simp only [Span.stop] at hdc
  rw [SlobAllocator.mergePrev]
  refine (h.binned.binDelEntry hd (h.settled.large d hd hfree) (by omega)
    (h.tiling.tagged d hd).index fuel).bind ?_
  rintro _ ⟨next, bins, rfl, hb⟩
  obtain ⟨C₀, hp⟩ := exists_perm_cons_cons hd h.mem hne
  have hc : c = ⟨d.start + d.size, c.size⟩ := by rw [hdc]
  have hout : ∀ b, c.start ∉ (B b).erase d.start := fun b hmem =>
    h.out b (List.mem_of_mem_erase hmem)
  -- The header of the chunk before, as the code finds it.
  have hsize : getSize { s with next := next, bins := bins } d.start = d.size :=
    h.tiling.getSize_eq hd
  have hsum : toSize (c.size + d.size) = d.size + c.size := by
    rw [toSize_of_lt (by omega), add_comm]
  have hindex : getBinIndex (d.size + c.size) = ((d.size + c.size) / 16 : ℕ) - 2 :=
    getBinIndex_of_dvd (by omega) (by omega)
  have hint : toInt (d.size + c.size) = (d.size + c.size : ℕ) := toInt_of_lt (by omega)
  have hstop : c.stop = d.start + (d.size + c.size) := by
    simp only [Span.stop]
    omega
  simp only [hsize, hsum, hindex, hint, hstop]
  rw [hc] at hp
  obtain ⟨htiling, hsettled, howned⟩ := h.relink next bins fun b a => List.mem_of_mem_erase
  have hjoined := join (htiling.perm hp) (hsettled.perm hp) (hb.perm hp) (howned.perm hp)
    (Or.inr hdc.symm) (by rwa [hdc]) (h.settled.large d hd hfree) hfree
    (by rw [hdc]; exact h.free) (h.binned.notMem_erase d.start) (by rw [hdc]; exact hout)
    (some (d.start + (d.size + c.size)))
  refine meets_ok.mpr ⟨rfl, rfl, _, _, hjoined, ?_, fun b => List.length_erase_le⟩
  intro e he hstop' hal'
  rw [isAllocated_setPrevChunkSize]
  rcases List.mem_cons.mp he with rfl | he
  · simp only [Span.stop] at hstop'
    omega
  · have heC : e ∈ C := hp.mem_iff.mpr (by simp [he])
    have hec : e.start ≠ c.start := hdc ▸
      ((h.tiling.perm hp).perm (List.Perm.swap _ _ _)).start_ne_of_mem (d := e) (by simp [he])
    have hdc' : d.start ≠ c.start := by omega
    exact (h.settled.apart e heC d hd hstop' hal' hec hdc').resolve_right hfree

/-- **The free chunk behind is joined to the chunk**, which then goes to a bin. -/
theorem mergeNext (h : Freed s pages C B live c) (hleft : LeftAllocated s C c) {d : Span}
    (hd : d ∈ C) (hcd : c.stop = d.start) (hal : ¬pageSize ∣ d.start)
    (hfree : ¬isAllocated s d.start) (fuel : ℕ) :
    Meets (SlobAllocator.mergeNext fuel c.start d.start c.size s) (∀ b, (B b).length ≤ fuel)
      fun t => ∃ C' B', Inv t pages C' B' live := by
  obtain ⟨-, hd16, hd16', hdpage, hd0, hdlt, -⟩ := h.tiling.bounds hd
  obtain ⟨-, hc16, hc16', hcpage, -, hclt, -⟩ := h.tiling.bounds h.mem
  have hne : d ≠ c := by
    rintro rfl
    simp only [Span.stop] at hcd
    omega
  simp only [Span.stop] at hcd
  rw [SlobAllocator.mergeNext]
  refine (h.binned.binDelEntry hd (h.settled.large d hd hfree) (by omega)
    (h.tiling.tagged d hd).index fuel).bind ?_
  rintro _ ⟨next, bins, rfl, hb⟩
  obtain ⟨C₀, hp⟩ := exists_perm_cons_cons h.mem hd hne
  have hdEq : d = ⟨c.start + c.size, d.size⟩ := by rw [hcd]
  have hout : ∀ b, c.start ∉ (B b).erase d.start := fun b hmem =>
    h.out b (List.mem_of_mem_erase hmem)
  have hsize : getSize { s with next := next, bins := bins } d.start = d.size :=
    h.tiling.getSize_eq hd
  have hsum : toSize (c.size + d.size) = c.size + d.size := toSize_of_lt (by omega)
  have hindex : getBinIndex (c.size + d.size) = ((c.size + d.size) / 16 : ℕ) - 2 :=
    getBinIndex_of_dvd (by omega) (by omega)
  have hint : toInt (c.size + d.size) = (c.size + d.size : ℕ) := toInt_of_lt (by omega)
  have hbehind : toSize (d.start + d.size) = c.start + (c.size + d.size) := by
    rw [toSize_of_lt (by omega)]
    omega
  simp only [hsize, hsum, hindex, hint, hbehind]
  rw [hdEq] at hp
  obtain ⟨htiling, hsettled, howned⟩ := h.relink next bins fun b a => List.mem_of_mem_erase
  have hjoined := join (htiling.perm hp) (hsettled.perm hp) (hb.perm hp) (howned.perm hp)
    (Or.inl rfl) (by rwa [hcd]) h.size h.free (by rw [hcd]; exact hfree) hout
    (by rw [hcd]; exact h.binned.notMem_erase d.start) (some (c.start + (c.size + d.size)))
  have hmem₀ : ∀ e ∈ C₀, e ∈ C := fun e he => hp.mem_iff.mpr (by simp [he])
  have hinv := hjoined.settle (fun e he hstop hal' => ?_) (fun e he hstop hal' => ?_) fun hstop => ?_
  rotate_left
  · -- On the left nothing has changed.
    rw [isAllocated_setPrevChunkSize]
    rcases List.mem_cons.mp he with rfl | he
    · simp only [Span.stop] at hstop
      omega
    · exact hleft e (hmem₀ e he) hstop hal'
  · -- On the right there is what was behind the other chunk.
    rw [isAllocated_setPrevChunkSize]
    rcases List.mem_cons.mp he with rfl | he
    · simp only [Span.stop] at hstop
      omega
    · have hec : e.start ≠ c.start := (h.tiling.perm hp).start_ne_of_mem (by simp [he])
      refine (h.settled.apart d hd e (hmem₀ e he) ?_ hal' (by omega) hec).resolve_left hfree
      simp only [Span.stop] at hstop ⊢
      omega
  · by_contra hal'
    refine hfree (h.settled.top d hd ?_ hal' (by omega))
    change c.start + (c.size + d.size) = s.topChunk at hstop
    simp only [Span.stop]
    omega
  obtain ⟨next', bins', hadd, hinv'⟩ := hinv.binAddHead (c := ⟨c.start, c.size + d.size⟩) (by simp)
    hjoined.size hjoined.out (fun hf => absurd hf hjoined.free)
    (hjoined.owned.notMem_of_free hjoined.free)
  rw [hadd]
  exact meets_ok.mpr ⟨_, _, hinv'⟩

/-- **The chunk is given to the top chunk** behind it. -/
theorem giveTop (h : Freed s pages C B live c) (hleft : LeftAllocated s C c)
    (hstop : c.stop = s.topChunk) (hal : ¬pageSize ∣ s.topChunk) :
    Inv { s with
      topChunk := c.start
      topChunkPrevChunkSize := getPrevChunkSize s c.start } pages (C.erase c) B live := by
  have hp := List.perm_cons_erase h.mem
  have hmem : ∀ d ∈ C.erase c, d ∈ C := fun d => List.mem_of_mem_erase
  have hne : ∀ d ∈ C.erase c, d.start ≠ c.start := fun d => h.tiling.start_ne_of_mem_erase h.mem
  have htiling : Tiling { s with
      topChunk := c.start
      topChunkPrevChunkSize := getPrevChunkSize s c.start } pages (C.erase c) :=
    (h.tiling.perm hp).giveTop hstop hal rfl rfl rfl (fun _ _ => rfl) fun _ _ _ => rfl
  refine ⟨htiling, ⟨fun d hd e he hde hal' _ _ => ?_, fun d hd hstop' hal' _ => ?_,
    fun d hd hstop' hal' _ => ?_, fun d hd hfree => ?_⟩, ?_, ?_⟩
  · exact h.settled.apart d (hmem d hd) e (hmem e he) hde hal' (hne d hd) (hne e he)
  · exact hleft d (hmem d hd) hstop' hal'
  · exact h.tiling.prev d (hmem d hd) c h.mem hstop' hal'
  · exact h.settled.large d (hmem d hd) hfree
  · refine h.binned.retile (fun d hd e he => htiling.eq_of_start hd he) rfl (fun _ _ _ => rfl)
      (fun b d hd hin => ?_) fun _ _ _ => rfl
    have hne' : d ≠ c := fun hEq => h.out b (hEq ▸ hin)
    exact (List.mem_erase_of_ne hne').mpr hd
  · refine h.owned.retile fun d hd hal' hout _ => ⟨?_, hal', hout⟩
    have hne' : d ≠ c := fun hEq => h.free (hEq ▸ hal')
    exact (List.mem_erase_of_ne hne').mpr hd

/-- **The first half of `deallocate`.** -/
theorem freeToPrev (h : Freed s pages C B live c) {prev : ℕ}
    (hprev : ¬pageSize ∣ c.start → ∃ d ∈ C, d.stop = c.start ∧ prev = d.start) (fuel : ℕ) :
    Meets (SlobAllocator.freeToPrev fuel c.start prev c.stop c.size s)
      (∀ b, (B b).length ≤ fuel) fun r => r.2.2.topChunk = s.topChunk ∧
        ∃ c' C' B', r.1 = c'.start ∧ r.2.1 = c'.size ∧ c'.stop = c.stop ∧
          Freed r.2.2 pages C' B' live c' ∧ LeftAllocated r.2.2 C' c' ∧
          ∀ b, (B' b).length ≤ (B b).length := by
  rw [SlobAllocator.freeToPrev]
  by_cases hmerge : ¬isAllocated s prev = true ∧ ¬pageIsAligned c.start = true
  · have hal : ¬pageSize ∣ c.start := fun hd => hmerge.2 (pageIsAligned_iff.mpr hd)
    obtain ⟨d, hd, hdc, rfl⟩ := hprev hal
    rw [if_pos hmerge]
    refine (h.mergePrev hd hdc hal hmerge.1 fuel).bind ?_
    rintro ⟨n, t⟩ ⟨hn, htop, C', B', hfreed, hleft, hlen⟩
    refine meets_ok.mpr ⟨htop, ⟨d.start, d.size + c.size⟩, C', B', rfl, hn, ?_, hfreed, hleft,
      hlen⟩
    simp only [Span.stop] at hdc ⊢
    omega
  · rw [if_neg hmerge]
    refine meets_ok.mpr ⟨rfl, c, C, B, rfl, rfl, rfl, h, fun d hd hdc hal => ?_,
      fun _ => le_rfl⟩
    obtain ⟨d', hd', hdc', rfl⟩ := hprev hal
    obtain rfl : d = d' := h.tiling.eq_of_stop hd hd' (hdc.trans hdc'.symm)
    by_contra hfree
    exact hmerge ⟨hfree, fun hc => hal (pageIsAligned_iff.mp hc)⟩

/-- **The second half of `deallocate`.** -/
theorem freeToNext (h : Freed s pages C B live c) (hleft : LeftAllocated s C c) (fuel : ℕ) :
    Meets (SlobAllocator.freeToNext fuel c.start c.stop c.size s) (∀ b, (B b).length ≤ fuel)
      fun t => ∃ C' B', Inv t pages C' B' live := by
  rw [SlobAllocator.freeToNext]
  by_cases hal : pageSize ∣ c.stop
  · rw [if_pos (pageIsAligned_iff.mpr hal)]
    refine meets_ok.mpr ⟨C, B, h.settle hleft (fun d _ hEq hal' => ?_) fun hEq => hEq ▸ hal⟩
    exact absurd (hEq ▸ hal) hal'
  rw [if_neg (fun hc => hal (pageIsAligned_iff.mp hc))]
  by_cases htop : c.stop = s.topChunk
  · rw [if_pos htop]
    exact meets_ok.mpr ⟨_, B, h.giveTop hleft htop (htop ▸ hal)⟩
  rw [if_neg htop]
  obtain ⟨d, hd, hds⟩ := h.tiling.exists_next h.mem hal htop
  rw [← hds]
  by_cases hfree : isAllocated s d.start = true
  · rw [if_neg (not_not.mpr hfree)]
    refine meets_ok.mpr ⟨C, B, h.settle hleft (fun e he hEq _ => ?_) fun hEq => absurd hEq htop⟩
    rwa [← hEq, ← hds]
  · rw [if_pos hfree]
    exact h.mergeNext hleft hd hds.symm (hds ▸ hal) hfree fuel

end Freed

namespace Inv

variable {s : State} {pages : List ℕ} {C : List Span} {B : Bin → List ℕ}
  {live : List (ℕ × ℕ)} {c : Span} {e : ℕ × ℕ}

/-- **The flag of a live chunk is cleared.** -/
theorem free (h : Inv s pages C B live) (he : e ∈ live) (hc : c ∈ C)
    (hce : c.start + chunkHeaderSize = e.1) (h32 : 32 ≤ c.size) (hout : ∀ b, c.start ∉ B b) :
    Freed (setAllocated false c.start s) pages C B (live.erase e) c := by
  have hflag : ∀ d, d ≠ c.start →
      isAllocated (setAllocated false c.start s) d = isAllocated s d := fun d hd =>
    isAllocated_setAllocated_of_ne hd
  refine ⟨h.tiling.congr rfl rfl rfl (fun _ _ => rfl) fun _ _ _ => getPrevChunkSize_setAllocated,
    ⟨fun d hd d' hd' hdd hal hd0 hd0' => ?_, fun d hd hstop hal hd0 => ?_,
      fun d hd hstop hal hd0 => ?_, fun d hd hfree => ?_⟩, ?_, h.owned.release he hce, hc, h32,
    by simp, hout⟩
  · rw [hflag _ hd0, hflag _ hd0']
    exact h.settled.apart d hd d' hd' hdd hal (h.start_ne_zero hd) (h.start_ne_zero hd')
  · rw [hflag _ hd0]
    exact h.settled.top d hd hstop hal (h.start_ne_zero hd)
  · exact h.settled.topPrev d hd hstop hal (h.start_ne_zero hd)
  · by_cases hdc : d.start = c.start
    · obtain rfl : d = c := h.tiling.eq_of_start hd hc hdc
      exact h32
    · exact h.settled.large d hd (hflag _ hdc ▸ hfree)
  · exact h.binned.retile h.binned.starts rfl (fun _ _ _ => rfl) (fun _ _ hd _ => hd)
      fun b a ha => hflag a fun hEq => hout b (hEq ▸ ha)

/-- The chunk before a chunk, as the header says. -/
theorem getPrevChunk_eq (h : Tiling s pages C) (hc : c ∈ C) (hal : ¬pageSize ∣ c.start) :
    ∃ d ∈ C, d.stop = c.start ∧ getPrevChunk s c.start = d.start := by
  obtain ⟨d, hd, hdc⟩ := h.exists_prev hc hal
  refine ⟨d, hd, hdc, ?_⟩
  obtain ⟨-, -, -, -, -, hlt, -⟩ := h.bounds hd
  have hEq : (c.start : ℤ) - getPrevChunkSize s c.start = (d.start : ℕ) := by
    rw [h.prev d hd c hc hdc hal, ← hdc]
    simp only [Span.stop]
    push_cast
    omega
  rw [getPrevChunk, hEq]
  exact ofInt_natCast (by omega)

/-- **What a call of `deallocate` does** on a live pointer. -/
theorem deallocate (h : Inv s pages C B live) (he : e ∈ live) (fuel : ℕ) :
    Meets (SlobAllocator.deallocate fuel e.1 s) (∀ b, (B b).length ≤ fuel) fun t =>
      ∃ C' B', Inv t pages C' B' (live.erase e) := by
  obtain ⟨c, hc, hce, -, h32, -, hout⟩ := h.owned.chunk e he
  obtain ⟨-, -, -, -, hpos, hlt, -⟩ := h.tiling.bounds hc
  have hhdr : chunkHeaderSize = 16 := rfl
  have hmid : subSize e.1 chunkHeaderSize = c.start := by
    rw [← hce, subSize_of_le (by omega) (by omega)]
    omega
  rw [SlobAllocator.deallocate, if_neg (by omega)]
  simp only [hmid, h.tiling.getNextChunk_eq hc, h.tiling.getSize_eq hc]
  have hfreed := h.free he hc hce h32 hout
  refine (hfreed.freeToPrev (fun hal => ?_) fuel).bind ?_
  · obtain ⟨d, hd, hdc, hprev⟩ := getPrevChunk_eq h.tiling hc hal
    exact ⟨d, hd, hdc, hprev⟩
  · rintro ⟨chunk, n, t⟩ ⟨-, c', C', B', hchunk, hn, hstop, hfreed', hleft, hlen⟩
    obtain rfl : chunk = c'.start := hchunk
    obtain rfl : n = c'.size := hn
    rw [← hstop]
    exact (hfreed'.freeToNext hleft fuel).weaken fun hf b => (hlen b).trans (hf b)

end Inv

end SlobAllocator

end Valkyrie
