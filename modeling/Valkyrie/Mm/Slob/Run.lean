import Valkyrie.Mm.Slob.Deallocate

/-!
# Runs of the slob allocator

A run is a sequence of calls of `allocate`, with sizes that fit in a page, and of
`deallocate` on live pointers. Between the calls the owners of the live payloads
write to them. `Valkyrie.SlobAllocator.Sound` is what the allocator owes to them:
following the sizes in the headers from the first byte of a page leads exactly to
its end, or to the top chunk in the current page; the headers agree with their
neighbours; and every live pointer is the payload of a chunk on the way that is
still as large as it was asked for.

The allocator does not keep its word. When the unsorted bin serves a request with
a chunk of exactly the requested size, `split_from_chunk` writes the header of an
empty remainder over the header of the chunk behind
(`Valkyrie.SlobAllocator.not_sound_of_exact_fit`). In every run without such a call
it does (`Valkyrie.SlobAllocator.sound_of_run`).
-/

namespace Valkyrie.SlobAllocator

open Exec

/-! ### What the allocator owes to its callers -/

/-- Where the chunks of a page end. -/
def pageEnd (s : State) (p : ℕ) : ℕ :=
  if p = s.pageFrameAllocatableBegin then s.topChunk else p + pageSize

/-- **Following `get_size`** from the address `a` leads to the address `e`, by the
headers of the list. Each header but the first holds the size of the one before;
the first one does if a size is given. -/
def Walk (s : State) : Option ℕ → ℕ → ℕ → List ℕ → Prop
  | _, a, e, [] => a = e
  | prev, a, e, c :: l => c = a ∧ 0 < getSize s a ∧ a + getSize s a ≤ e ∧
    (∀ n, prev = some n → getPrevChunkSize s a = n) ∧
    Walk s (some (getSize s a)) (a + getSize s a) e l

/-- The address is one of the payload of the chunk behind a pointer. -/
def InPayload (s : State) (p f : ℕ) : Prop :=
  p ≤ f ∧ f < p - chunkHeaderSize + getSize s (p - chunkHeaderSize)

/-- **What the allocator owes to its callers.** -/
structure Sound (s : State) (pages : List ℕ) (live : List (ℕ × ℕ)) : Prop where
  tiled : ∀ p ∈ pages, ∃ l, Walk s none p (pageEnd s p) l
  chunk : ∀ e ∈ live, ∃ p ∈ pages, ∃ l, Walk s none p (pageEnd s p) l ∧
    ∃ a ∈ l, a + chunkHeaderSize = e.1 ∧ chunkHeaderSize + e.2 ≤ getSize s a
  disjoint : live.Pairwise fun e e' => ∀ f, ¬(InPayload s e.1 f ∧ InPayload s e'.1 f)

section Walk

variable {s : State} {pages : List ℕ} {C : List Span} {p a : ℕ}

/-- The chunks of a page end inside it. -/
theorem Tiling.pageEnd_le (h : Tiling s pages C) (hp : p ∈ pages) :
    p ≤ pageEnd s p ∧ pageEnd s p ≤ p + pageSize := by
  rw [pageEnd]
  split_ifs with hcur
  · rcases h.current with ⟨hnil, -⟩ | ⟨-, hend, h1, h2, -⟩
    · rw [hnil] at hp
      simp at hp
    · omega
  · omega

/-- Between the start of a page and the end of its chunks every address is used. -/
theorem Tiling.used_of_lt (h : Tiling s pages C) (hp : p ∈ pages) {f : ℕ} (h1 : p ≤ f)
    (h2 : f < pageEnd s p) : Used s pages f := by
  have hal := (h.frame p hp).aligned
  have hle := (h.pageEnd_le hp).2
  have hpf : pageOf f = p := by
    simp only [pageOf, pageSize_lit] at hal hle ⊢
    omega
  refine ⟨hpf.symm ▸ hp, fun htop => ?_⟩
  rw [pageEnd] at h2
  split_ifs at h2 with hcur
  · omega
  · -- The top chunk is in another page.
    rcases h.current with ⟨-, ht, he⟩ | ⟨hb, hend, hbt, -⟩
    · omega
    · have halb := (h.frame _ hb).aligned
      simp only [pageSize_lit] at hal halb hend h2
      omega

/-- Where a chunk of a page ends and another follows, there is a chunk. -/
theorem Tiling.exists_start (h : Tiling s pages C) (hp : p ∈ pages) (h1 : p ≤ a)
    (h2 : a < pageEnd s p) (hstart : a = p ∨ ∃ c ∈ C, c.stop = a) : ∃ c ∈ C, c.start = a := by
  have hal := (h.frame p hp).aligned
  have hle := (h.pageEnd_le hp).2
  obtain ⟨c, hc, hca⟩ := h.covering.exists_covers (h.used_of_lt hp h1 h2)
  obtain ⟨-, -, h16, hpage, -, -, -⟩ := h.bounds hc
  obtain ⟨hc1, hc2⟩ := hca
  refine ⟨c, hc, ?_⟩
  rcases hstart with rfl | ⟨d, hd, hda⟩
  · simp only [pageSize_lit] at hal
    omega
  · by_contra hne
    have hdpos := (h.tagged d hd).pos
    simp only [Span.stop] at hda
    have hEq : c = d := h.eq_of_covers (f := a - 1) hc hd ⟨by omega, by omega⟩ ⟨by omega, by omega⟩
    rw [← hEq] at hda
    omega

/-- The chunks of a page end where the chunks of the page end. -/
theorem Tiling.stop_le_pageEnd (h : Tiling s pages C) {c : Span} (hc : c ∈ C)
    (hpc : pageOf c.start = p) : c.stop ≤ pageEnd s p := by
  obtain ⟨-, -, h16, hpage, -, -, hmem⟩ := h.bounds hc
  simp only [pageOf, Span.stop, pageSize_lit] at hpc ⊢
  rw [pageEnd]
  split_ifs with hcur
  · have hlast : c.Covers (c.start + c.size - 1) := ⟨by omega, by omega⟩
    have hout := (h.covering.inside c hc _ hlast).2
    rcases h.current with ⟨hnil, -⟩ | ⟨-, hend, h1, h2, -⟩
    · rw [hnil] at hmem
      simp at hmem
    · rw [pageSize_lit] at hend
      omega
  · rw [pageSize_lit]
    omega

/-- **Following the sizes leads to the end of the page**, by all its chunks and
nothing else. -/
theorem Tiling.exists_walk (h : Tiling s pages C) (hp : p ∈ pages) :
    ∃ l, Walk s none p (pageEnd s p) l ∧ (∀ c ∈ C, pageOf c.start = p → c.start ∈ l) ∧
      ∀ a ∈ l, ∃ c ∈ C, c.start = a := by
  -- The distance to the end shrinks with every chunk.
  suffices key : ∀ n a, pageEnd s p - a ≤ n → p ≤ a → a ≤ pageEnd s p →
      ∀ prev : Option ℕ, (a = p ∧ prev = none ∨ p < a ∧ ∃ c ∈ C, c.stop = a ∧ prev = some c.size) →
      ∃ l, Walk s prev a (pageEnd s p) l ∧
        (∀ c ∈ C, pageOf c.start = p → a ≤ c.start → c.start ∈ l) ∧
        ∀ a ∈ l, ∃ c ∈ C, c.start = a by
    obtain ⟨l, hl, hmem, hstart⟩ :=
      key _ p le_rfl le_rfl (h.pageEnd_le hp).1 none (Or.inl ⟨rfl, rfl⟩)
    refine ⟨l, hl, fun c hc hpc => hmem c hc hpc ?_, hstart⟩
    rw [← hpc, pageOf]
    omega
  have hal := (h.frame p hp).aligned
  have hle := (h.pageEnd_le hp).2
  -- At the end of the page no chunk is left.
  have hdone : ∀ a, a = pageEnd s p → ∀ prev : Option ℕ, ∃ l, Walk s prev a (pageEnd s p) l ∧
      (∀ c ∈ C, pageOf c.start = p → a ≤ c.start → c.start ∈ l) ∧
      ∀ a ∈ l, ∃ c ∈ C, c.start = a := by
    rintro a rfl prev
    refine ⟨[], rfl, fun c hc hpc hac => ?_, by simp⟩
    have hstop := h.stop_le_pageEnd hc hpc
    have hpos := (h.tagged c hc).pos
    simp only [Span.stop] at hstop
    omega
  intro n
  induction n with
  | zero => exact fun a hn h1 h2 prev _ => hdone a (by omega) prev
  | succ n ih =>
    intro a hn h1 h2 prev hprev
    rcases Nat.eq_or_lt_of_le h2 with hEq | hlt
    · exact hdone a hEq prev
    · have hfront : a = p ∨ ∃ c ∈ C, c.stop = a := by
        rcases hprev with ⟨hEq, -⟩ | ⟨-, c, hc, hs, -⟩
        · exact Or.inl hEq
        · exact Or.inr ⟨c, hc, hs⟩
      obtain ⟨c, hc, rfl⟩ := h.exists_start hp h1 hlt hfront
      have hsize := h.getSize_eq hc
      have hpos := (h.tagged c hc).pos
      have hpc : pageOf c.start = p := by
        simp only [pageOf, pageSize_lit] at hal hle ⊢
        omega
      have hstop : c.start + c.size ≤ pageEnd s p := h.stop_le_pageEnd hc hpc
      obtain ⟨l, hl, hmem, hstart⟩ := ih (c.start + c.size) (by omega) (by omega) hstop
        (some c.size) (Or.inr ⟨by omega, c, hc, rfl, rfl⟩)
      refine ⟨c.start :: l, ⟨rfl, by omega, by omega, fun k hk => ?_, ?_⟩, fun d hd hpd hcd => ?_,
        List.forall_mem_cons.mpr ⟨⟨c, hc, rfl⟩, hstart⟩⟩
      · -- A chunk with a predecessor is not the first of its page.
        rcases hprev with ⟨-, hnone⟩ | ⟨hgt, d, hd, hdc, hsome⟩
        · rw [hnone] at hk
          cases hk
        · obtain rfl : d.size = k := Option.some.inj (hsome.symm.trans hk)
          refine h.prev d hd c hc hdc fun hdvd => ?_
          simp only [pageSize_lit] at hal hle hdvd
          omega
      · rw [hsize]
        exact hl
      · by_cases hEq : d.start = c.start
        · rw [hEq]
          exact List.mem_cons_self
        · refine List.mem_cons_of_mem _ (hmem d hd hpd ?_)
          by_contra hlt'
          have hcd' := h.start_eq_of_covers hc hd ⟨hcd, by omega⟩
          exact hEq (by rw [hcd'])

end Walk

/-- **The invariant gives the callers what they are owed.** -/
theorem Inv.sound {s : State} {pages : List ℕ} {C : List Span} {B : Bin → List ℕ}
    {live : List (ℕ × ℕ)} (h : Inv s pages C B live) (hsize : ∀ e ∈ live, e.2 < pageSize) :
    Sound s pages live := by
  have hhdr : chunkHeaderSize = 16 := rfl
  refine ⟨fun p hp => ?_, fun e he => ?_, ?_⟩
  · obtain ⟨l, hl, -⟩ := h.tiling.exists_walk hp
    exact ⟨l, hl⟩
  · obtain ⟨c, hc, hce, hfit, -⟩ := h.owned.chunk e he
    obtain ⟨-, -, -, -, -, -, hpage⟩ := h.tiling.bounds hc
    obtain ⟨l, hl, hmem, -⟩ := h.tiling.exists_walk hpage
    refine ⟨_, hpage, l, hl, c.start, hmem c hc rfl, hce, ?_⟩
    have hlt := hsize e he
    rw [h.tiling.getSize_eq hc]
    rwa [toSize_of_lt (by rw [pageSize_lit] at hlt; rw [sizeMod_lit]; omega)] at hfit
  · refine (List.pairwise_map.mp h.owned.nodup).imp_of_mem fun {e e'} he he' hne f hf => hne ?_
    obtain ⟨c, hc, hce, -⟩ := h.owned.chunk e he
    obtain ⟨c', hc', hce', -⟩ := h.owned.chunk e' he'
    have hin : ∀ {d : Span} {p : ℕ}, d ∈ C → d.start + chunkHeaderSize = p → InPayload s p f →
        d.Covers f := by
      rintro d p hd rfl ⟨h1, h2⟩
      rw [Nat.add_sub_cancel, h.tiling.getSize_eq hd] at h2
      exact ⟨by omega, h2⟩
    obtain rfl : c = c' := h.tiling.eq_of_covers hc hc' (hin hc hce hf.1) (hin hc' hce' hf.2)
    exact hce.symm.trans hce'

/-! ### Runs -/

/-- A call of the allocator. -/
inductive Call where
  /-- `allocate(size)`. -/
  | allocate (size : ℕ) : Call
  /-- `deallocate(p)`. -/
  | deallocate (p : ℕ) : Call

/-- A request for a chunk that fits in a page. -/
def Call.Fits : Call → Prop
  | .allocate size => 0 < size ∧ size ≤ 4079
  | .deallocate _ => True

/-- The owners of the live payloads have written to them: the headers elsewhere are
as they were. -/
def Stores (live : List (ℕ × ℕ)) (s t : State) : Prop :=
  ∃ next index prevChunkSize, t = { s with
    next := next
    index := index
    prevChunkSize := prevChunkSize } ∧
    ∀ a, (∀ e ∈ live, ¬InPayload s e.1 a) →
      next a = s.next a ∧ index a = s.index a ∧ prevChunkSize a = s.prevChunkSize a

/-- **One step**, on the allocator, the page allocator and the live pointers with
the sizes that were asked for. The calls are restricted by `ok`. -/
inductive Step {π : Type} (P : PageAllocator π) (ok : State → List ℕ → Call → Prop) :
    State × π × List (ℕ × ℕ) → State × π × List (ℕ × ℕ) → Prop
  | allocate {s s' : State} {b b' : π} {live : List (ℕ × ℕ)} {p : ℕ} (fuel size : ℕ)
      (hok : ok s (P.held b) (.allocate size))
      (h : allocate P.allocateOnePageFrame fuel size s b = .ok (p, s', b')) :
      Step P ok (s, b, live) (s', b', if p = 0 then live else (p, size) :: live)
  | deallocate {s s' : State} {b : π} {live : List (ℕ × ℕ)} {p n : ℕ} (fuel : ℕ)
      (hp : (p, n) ∈ live) (hok : ok s (P.held b) (.deallocate p))
      (h : deallocate fuel p s = .ok s') :
      Step P ok (s, b, live) (s', b, live.erase (p, n))
  | store {s s' : State} {b : π} {live : List (ℕ × ℕ)} (h : Stores live s s') :
      Step P ok (s, b, live) (s', b, live)

/-- The request fits in a page, and it does not take a chunk of exactly its size from
the unsorted bin when another chunk stands behind it. -/
def KeepsHeaders (s : State) (pages : List ℕ) (call : Call) : Prop :=
  call.Fits ∧ ∀ size, call = .allocate size → ¬Clobbers s pages (chunkSizeOf size)

section Run

variable {π : Type} {P : PageAllocator π} {s t : State} {b : π} {pages : List ℕ} {C : List Span}
  {B : Bin → List ℕ} {live : List (ℕ × ℕ)}

/-- Nothing is owed by an allocator that has no page. -/
theorem inv_init (next : ℕ → Option ℕ) (index prevChunkSize : ℕ → ℤ) :
    Inv (init next index prevChunkSize) [] [] (fun _ => []) [] := by
  refine ⟨⟨⟨by simp, Or.inl ⟨rfl, rfl, rfl⟩, ⟨by simp, fun f hf => ?_⟩, by simp⟩, by simp⟩,
    ⟨by simp, by simp, by simp, by simp⟩, ⟨by simp, fun _ => rfl, by simp, by simp⟩,
    ⟨by simp, by simp⟩⟩
  simp [Used] at hf

/-- Writing to live payloads changes no header of a chunk. -/
theorem Inv.header_of_stores (h : Inv s pages C B live) (hst : Stores live s t) {c : Span}
    (hc : c ∈ C) : t.next c.start = s.next c.start ∧ t.index c.start = s.index c.start ∧
      t.prevChunkSize c.start = s.prevChunkSize c.start := by
  obtain ⟨next, index, prev, rfl, hsame⟩ := hst
  have hhdr : chunkHeaderSize = 16 := rfl
  refine hsame c.start fun e he hin => ?_
  obtain ⟨d, hd, hde, -⟩ := h.owned.chunk e he
  obtain ⟨h1, h2⟩ := hin
  rw [← hde, Nat.add_sub_cancel, h.tiling.getSize_eq hd] at h2
  have hEq := h.tiling.start_eq_of_covers hd hc ⟨by omega, h2⟩
  rw [hEq] at hde
  omega

theorem Inv.isAllocated_of_stores (h : Inv s pages C B live) (hst : Stores live s t) (c : Span)
    (hc : c ∈ C) : isAllocated t c.start = isAllocated s c.start := by
  simp only [isAllocated, (h.header_of_stores hst hc).2.2]

/-- **Writing to live payloads** keeps the invariant. -/
theorem Inv.store (h : Inv s pages C B live) (hst : Stores live s t) : Inv t pages C B live := by
  have hout := fun c hc => h.header_of_stores (c := c) hst hc
  have hflag := h.isAllocated_of_stores hst
  obtain ⟨next, index, prev, rfl, -⟩ := hst
  refine ⟨h.tiling.congr rfl rfl rfl (fun c hc => (hout c hc).2.1) fun c hc _ => ?_,
    ⟨fun c hc d hd => ?_, fun c hc => ?_, h.settled.topPrev, fun c hc => ?_⟩, ?_, ?_⟩
  · have hprev : prev c.start = s.prevChunkSize c.start := (hout c hc).2.2
    simp only [getPrevChunkSize, hprev]
  · rw [hflag c hc, hflag d hd]
    exact h.settled.apart c hc d hd
  · rw [hflag c hc]
    exact h.settled.top c hc
  · rw [hflag c hc]
    exact h.settled.large c hc
  · refine h.binned.retile h.binned.starts rfl (fun b a ha => ?_) (fun _ _ hc _ => hc) fun b a ha => ?_
    · obtain ⟨c, hc, rfl, -⟩ := h.binned.sound b a ha
      exact (hout c hc).1
    · obtain ⟨c, hc, rfl, -⟩ := h.binned.sound b a ha
      exact hflag c hc
  · exact h.owned.retile fun c hc hal hnot _ => ⟨hc, (hflag c hc).trans hal, hnot⟩

/-- The invariant of a run. -/
def RunInv (P : PageAllocator π) (r : State × π × List (ℕ × ℕ)) : Prop :=
  (∃ C B, Inv r.1 (P.held r.2.1) C B r.2.2) ∧ ∀ e ∈ r.2.2, e.2 < pageSize

/-- A request that a run may make fits in a page. -/
theorem toSize_header_le {size : ℕ} (hle : size ≤ 4079) :
    toSize (chunkHeaderSize + size) ≤ pageSize := by
  have hhdr : chunkHeaderSize = 16 := rfl
  rw [toSize_of_lt (by rw [sizeMod_lit]; omega), pageSize_lit]
  omega

/-- **A step that keeps the headers keeps the invariant.** -/
theorem runInv_step {r r' : State × π × List (ℕ × ℕ)} (h : RunInv P r)
    (hstep : Step P KeepsHeaders r r') : RunInv P r' := by
  cases hstep with
  | @allocate s s' b b' live p fuel size hok hcall =>
    obtain ⟨⟨C, B, hinv⟩, hsize⟩ := h
    obtain ⟨⟨-, hle⟩, hclob⟩ := hok
    obtain ⟨C', B', hinv'⟩ :=
      (hinv.allocate P (toSize_header_le hle) (hclob size rfl) fuel).of_eq_ok hcall
    refine ⟨⟨C', B', hinv'⟩, fun e he => ?_⟩
    split_ifs at he with hp
    · exact hsize e he
    · rcases List.mem_cons.mp he with rfl | he
      · rw [pageSize_lit]
        omega
      · exact hsize e he
  | @deallocate s s' b live p n fuel hp hok hcall =>
    obtain ⟨⟨C, B, hinv⟩, hsize⟩ := h
    obtain ⟨C', B', hinv'⟩ := (hinv.deallocate hp fuel).of_eq_ok hcall
    exact ⟨⟨C', B', hinv'⟩, fun e he => hsize e (List.mem_of_mem_erase he)⟩
  | @store s s' b live hst =>
    obtain ⟨⟨C, B, hinv⟩, hsize⟩ := h
    exact ⟨⟨C, B, hinv.store hst⟩, hsize⟩

/-- **In every run whose requests keep the headers, the callers get what they are
owed** in every state reached, whatever was in memory at the start. -/
theorem sound_of_run {b₀ : π} (h₀ : P.held b₀ = []) {next : ℕ → Option ℕ}
    {index prevChunkSize : ℕ → ℤ}
    (h : Run (Step P KeepsHeaders) (init next index prevChunkSize, b₀, []) (s, b, live)) :
    Sound s (P.held b) live := by
  have hinit : RunInv P (init next index prevChunkSize, b₀, []) := by
    refine ⟨⟨[], fun _ => [], ?_⟩, by simp⟩
    rw [h₀]
    exact inv_init next index prevChunkSize
  obtain ⟨⟨C, B, hinv⟩, hsize⟩ := h.invariant hinit fun _ _ => runInv_step
  exact hinv.sound hsize

end Run

/-! ### Executing a run -/

/-- The first frames that a counter has handed out, from the second zone of the
kernel on. -/
def countedFrames : ℕ → List ℕ
  | 0 => []
  | k + 1 => (0x10200000 + k * pageSize) :: countedFrames k

theorem lt_of_mem_countedFrames {k p : ℕ} (h : p ∈ countedFrames k) :
    p < 0x10200000 + k * pageSize := by
  induction k with
  | zero => simp [countedFrames] at h
  | succ k ih =>
    rcases List.mem_cons.mp h with hp | h
    · rw [hp, Nat.succ_mul, pageSize_lit]
      omega
    · have hlt := ih h
      rw [Nat.succ_mul]
      omega

/-- The simplest page allocator that meets the contract: it hands out the `512`
frames of a zone in order. -/
def counter : PageAllocator ℕ where
  allocateOnePageFrame _ k :=
    .ok (if k < 512 then (0x10200000 + k * pageSize, k + 1) else (0, k))
  held := countedFrames
  enough := 0
  meets fuel k := by
    refine meets_ok.mpr ?_
    split_ifs with hk
    · refine Or.inr ⟨⟨?_, ?_, ?_⟩, fun hmem => ?_, rfl⟩
      · rw [pageSize_lit]
        omega
      · rw [pageSize_lit]
        omega
      · rw [pageSize_lit, sizeMod_lit]
        omega
      · exact absurd (lt_of_mem_countedFrames hmem) (lt_irrefl _)
    · exact Or.inl ⟨rfl, rfl⟩

/-- The calls of the list, one after the other. A call that does not pass the test, or that frees a
pointer that is not live, stops the execution. -/
def runCalls {π : Type} (P : PageAllocator π) (test : State → Call → Bool) (fuel : ℕ) :
    List Call → State × π × List (ℕ × ℕ) → Exec (State × π × List (ℕ × ℕ))
  | [], r => .ok r
  | .allocate size :: calls, (s, b, live) =>
    if test s (.allocate size) then do
      let (p, s, b) ← allocate P.allocateOnePageFrame fuel size s b
      runCalls P test fuel calls (s, b, if p = 0 then live else (p, size) :: live)
    else .error .wild
  | .deallocate p :: calls, (s, b, live) =>
    match live.find? fun e => e.1 = p with
    | none => .error .wild
    | some e =>
      if test s (.deallocate p) then do
        let s ← deallocate fuel p s
        runCalls P test fuel calls (s, b, live.erase e)
      else .error .wild

/-- **An execution is a run.** -/
theorem run_of_runCalls {π : Type} {P : PageAllocator π} {test : State → Call → Bool} {fuel : ℕ}
    {ok : State → List ℕ → Call → Prop} (hok : ∀ s pages call, test s call → ok s pages call)
    {calls : List Call} {r r' : State × π × List (ℕ × ℕ)}
    (h : runCalls P test fuel calls r = .ok r') : Run (Step P ok) r r' := by
  induction calls generalizing r with
  | nil =>
    obtain rfl : r = r' := Except.ok.inj h
    exact Relation.ReflTransGen.refl
  | cons call calls ih =>
    obtain ⟨s, b, live⟩ := r
    cases call with
    | allocate size =>
      rw [runCalls] at h
      split_ifs at h with htest
      obtain ⟨⟨p, s', b'⟩, hcall, h⟩ := bind_eq_ok.mp h
      exact Relation.ReflTransGen.head (.allocate fuel size (hok _ _ _ htest) hcall) (ih h)
    | deallocate p =>
      rw [runCalls] at h
      cases hfind : live.find? fun e => e.1 = p with
      | none =>
        rw [hfind] at h
        cases h
      | some e =>
        rw [hfind] at h
        dsimp only at h
        split_ifs at h with htest
        obtain ⟨s', hcall, hrest⟩ := bind_eq_ok.mp h
        obtain rfl : e.1 = p := by simpa using List.find?_some hfind
        exact Relation.ReflTransGen.head
          (.deallocate fuel (List.mem_of_find?_eq_some hfind) (hok _ _ _ htest) hcall) (ih hrest)

instance : DecidablePred Call.Fits
  | .allocate size => inferInstanceAs (Decidable (0 < size ∧ size ≤ 4079))
  | .deallocate _ => inferInstanceAs (Decidable True)

/-- A test for `KeepsHeaders`, by the search that the call makes itself. -/
def keepsHeaders (s : State) : Call → Bool
  | .deallocate _ => true
  | .allocate size => decide (Call.allocate size).Fits &&
    match findUnsorted s (chunkSizeOf size) 20 (s.bins .unsorted) with
    | .ok r => r.all fun a => getSize s a ≠ chunkSizeOf size
    | .error _ => false

theorem keepsHeaders_of_test {s : State} (pages : List ℕ) {call : Call} (h : keepsHeaders s call) :
    KeepsHeaders s pages call := by
  cases call with
  | deallocate p => exact ⟨trivial, fun size hEq => by cases hEq⟩
  | allocate size =>
    rw [keepsHeaders, Bool.and_eq_true, decide_eq_true_eq] at h
    obtain ⟨hfits, htest⟩ := h
    refine ⟨hfits, ?_⟩
    rintro size' hEq ⟨U, a, hU, hfind, hsize, -⟩
    obtain rfl := Call.allocate.inj hEq
    cases hsearch : findUnsorted s (chunkSizeOf size) 20 (s.bins .unsorted) with
    | error e => simp [hsearch] at htest
    | ok r =>
      obtain rfl := (meets_findUnsorted hU 20).of_eq_ok hsearch
      simp [hsearch, hfind, hsize] at htest

/-- An allocator over memory full of zeros. -/
def fresh : State × ℕ × List (ℕ × ℕ) := (init (fun _ => none) (fun _ => 0) (fun _ => 0), 0, [])

/-- **An exact fit destroys a header.** Three chunks are taken from a page; the
second and then the first are freed, which joins them to a chunk of `256` bytes on
the unsorted bin; and a request of exactly this size gets it. The third chunk is
still live, but the size in its header is gone. -/
theorem not_sound_of_exact_fit :
    ∃ s b live, Run (Step counter fun _ _ call => call.Fits) fresh (s, b, live) ∧
      (0x10200110, 112) ∈ live ∧ getSize s 0x10200100 = 0 ∧ ¬Sound s (counter.held b) live := by
  have hexec : check (fun (s, b, live) => decide ((0x10200110, 112) ∈ live ∧
      getSize s 0x10200000 = 256 ∧ getSize s 0x10200100 = 0 ∧
      pageEnd s 0x10200000 = 0x10200180 ∧ 0x10200000 ∈ counter.held b))
      (runCalls counter (fun _ call => decide call.Fits) 20 [.allocate 112, .allocate 112, .allocate 112,
        .deallocate 0x10200090, .deallocate 0x10200010, .allocate 240] fresh) = true := by
    decide +kernel
  obtain ⟨⟨s, b, live⟩, hrun, hcheck⟩ := exists_ok_of_check hexec
  obtain ⟨hlive, hfirst, hzero, hend, hpage⟩ := of_decide_eq_true hcheck
  refine ⟨s, b, live, run_of_runCalls (fun _ _ _ => of_decide_eq_true) hrun, hlive, hzero,
    fun hsound => ?_⟩
  obtain ⟨l, hl⟩ := hsound.tiled _ hpage
  rw [hend] at hl
  -- The walk leaves the first chunk and finds no size at the second header.
  cases l with
  | nil => exact absurd (show (0x10200000 : ℕ) = 0x10200180 from hl) (by decide)
  | cons c l =>
    obtain ⟨-, -, -, -, hl⟩ := hl
    rw [hfirst] at hl
    cases l with
    | nil => exact absurd (show (0x10200000 + 256 : ℕ) = 0x10200180 from hl) (by decide)
    | cons d l =>
      have hpos : 0 < getSize s 0x10200100 := hl.2.1
      omega

/-- Two of three chunks are given back, which joins them, and one is cut off again. -/
theorem sound_of_run_split : ∃ s b,
    runCalls counter keepsHeaders 20 [.allocate 112, .allocate 112, .allocate 112,
        .deallocate 0x10200090, .deallocate 0x10200010, .allocate 112] fresh =
      .ok (s, b, [(0x10200010, 112), (0x10200110, 112)]) ∧
    Sound s (counter.held b) [(0x10200010, 112), (0x10200110, 112)] := by
  have hexec : check (fun r => decide (r.2.2 = [(0x10200010, 112), (0x10200110, 112)]))
      (runCalls counter keepsHeaders 20 [.allocate 112, .allocate 112, .allocate 112,
        .deallocate 0x10200090, .deallocate 0x10200010, .allocate 112] fresh) = true := by
    decide +kernel
  obtain ⟨⟨s, b, live⟩, hrun, hcheck⟩ := exists_ok_of_check hexec
  obtain rfl : live = _ := of_decide_eq_true hcheck
  exact ⟨s, b, hrun,
    sound_of_run rfl (run_of_runCalls (fun _ pages _ => keepsHeaders_of_test pages) hrun)⟩

end Valkyrie.SlobAllocator
