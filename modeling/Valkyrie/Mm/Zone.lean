import Valkyrie.Mm.Buddy.Run
import Valkyrie.Mm.Slob.Run

/-!
# A zone: the slob allocator over its buddy allocator

`mm/Zone.h`. The slob allocator of a zone takes its pages from the buddy allocator
of the same zone. In the model of `Valkyrie.SlobAllocator.allocate` the source of
pages is a parameter, and its invariant rests on a contract
(`Valkyrie.SlobAllocator.PageAllocator`). Here the contract is met: a buddy
allocator that has only been asked for single pages is a page allocator
(`Valkyrie.Zone.pageAllocator`), and since the slob allocator sees of it no more
than the frames it returns, what holds over the one holds over the other
(`Valkyrie.SlobAllocator.allocate_map`).
-/

namespace Valkyrie

/-! ### The slob allocator sees only the frames -/

namespace SlobAllocator

variable {π π' : Type} {f : ℕ → π → Exec (ℕ × π)} {f' : ℕ → π' → Exec (ℕ × π')} {φ : π' → π}

/-- The result, with what the page allocator has become seen from outside. -/
def mapPages {α : Type} (φ : π' → π) (r : Exec (α × State × π')) : Exec (α × State × π) :=
  r.map fun r => (r.1, r.2.1, φ r.2.2)

theorem requestNewPageFrame_map
    (h : ∀ fuel b, f fuel (φ b) = (f' fuel b).map fun r => (r.1, φ r.2)) (fuel : ℕ) (s : State)
    (b : π') :
    requestNewPageFrame f fuel s (φ b) = mapPages φ (requestNewPageFrame f' fuel s b) := by
  rw [requestNewPageFrame, requestNewPageFrame, h]
  cases f' fuel b with
  | error e => rfl
  | ok r =>
    by_cases hp : r.1 = 0 <;> simp only [Except.map, Exec.ok_bind, hp, if_true, if_false] <;> rfl

theorem renewTopChunk_map (h : ∀ fuel b, f fuel (φ b) = (f' fuel b).map fun r => (r.1, φ r.2))
    (fuel n : ℕ) (s : State) (b : π') :
    renewTopChunk f fuel n s (φ b) = mapPages φ (renewTopChunk f' fuel n s b) := by
  rw [renewTopChunk, renewTopChunk]
  split_ifs
  · exact requestNewPageFrame_map h fuel s b
  · cases retireTopChunk s with
    | error e => rfl
    | ok t => exact requestNewPageFrame_map h fuel t b
  · rfl

theorem takeFromTop_map (h : ∀ fuel b, f fuel (φ b) = (f' fuel b).map fun r => (r.1, φ r.2))
    (fuel n : ℕ) (s : State) (b : π') :
    takeFromTop f fuel n s (φ b) = mapPages φ (takeFromTop f' fuel n s b) := by
  rw [takeFromTop, takeFromTop, renewTopChunk_map h]
  cases renewTopChunk f' fuel n s b with
  | error e => rfl
  | ok r =>
    obtain ⟨fresh, t, b'⟩ := r
    cases fresh with
    | false => rfl
    | true =>
      simp only [mapPages, Except.map, Exec.ok_bind, if_true]
      cases splitFromTopChunk n t <;> rfl

/-- **Two page allocators that return the same frames serve the same requests.** -/
theorem allocate_map (h : ∀ fuel b, f fuel (φ b) = (f' fuel b).map fun r => (r.1, φ r.2))
    (fuel size : ℕ) (s : State) (b : π') :
    allocate f fuel size s (φ b) = mapPages φ (allocate f' fuel size s b) := by
  rw [allocate, allocate]
  split_ifs
  · rfl
  cases normalizeSize fuel (toSize (chunkHeaderSize + size)) with
  | error e => rfl
  | ok n =>
    rw [Exec.ok_bind, Exec.ok_bind]
    cases takeFromBins fuel n s with
    | error e => rfl
    | ok found =>
      rw [Exec.ok_bind, Exec.ok_bind]
      cases found with
      | some vt =>
        by_cases hal : pageIsAligned (toSize (vt.1 + chunkHeaderSize)) = true
        · simp only [pure_bind, if_pos hal]
          rfl
        · simp only [pure_bind, if_neg hal]
          rfl
      | none =>
        simp only [takeFromTop_map h]
        cases takeFromTop f' fuel n s b with
        | error e => rfl
        | ok r =>
          obtain ⟨victim, t, b'⟩ := r
          cases victim with
          | none => rfl
          | some v =>
            simp only [mapPages, Except.map, Exec.ok_bind]
            by_cases hal : pageIsAligned (toSize (v + chunkHeaderSize)) = true
            · simp only [if_pos hal]
              rfl
            · simp only [if_neg hal]
              rfl

end SlobAllocator

/-! ### A buddy allocator as a page allocator -/

namespace Zone

open BuddyAllocator (GoodZone RunInv blockOf maxOrderNrPages)

/-- **A buddy allocator that has only handed out single pages**, with the pages it
has handed out. -/
structure Pages (z : ℕ) where
  /-- The allocator. -/
  buddy : BuddyAllocator.State
  /-- The pages. -/
  pages : List ℕ
  run : RunInv z (buddy, pages)
  single : ∀ p ∈ pages, (blockOf z buddy p).order = 0

variable {z : ℕ}

/-- **A request for a page** gets none, or one that was not handed out. -/
theorem Pages.step (hz : GoodZone z) (b : Pages z) {fuel p : ℕ} {s : BuddyAllocator.State}
    (h : BuddyAllocator.allocateOnePageFrame fuel b.buddy = .ok (p, s)) :
    p = 0 ∧ s = b.buddy ∨ (∃ i, i < maxOrderNrPages ∧ p = z + i * pageSize) ∧ p ∉ b.pages ∧
      ∀ q ∈ p :: b.pages, (blockOf z s q).order = 0 := by
  rcases b.run.allocate hz h with hnone | ⟨hp, hfresh, -, hord, hkeep⟩
  · exact Or.inl hnone
  refine Or.inr ⟨hp, hfresh, List.forall_mem_cons.mpr ⟨?_, fun q hq => ?_⟩⟩
  · exact hord.unique BuddyAllocator.order_pageSize
  · rw [hkeep q hq]
    exact b.single q hq

/-- `allocate_one_page_frame`, with the list of the pages kept up to date. -/
def Pages.allocateOnePageFrame (hz : GoodZone z) (fuel : ℕ) (b : Pages z) : Exec (ℕ × Pages z) :=
  match h : BuddyAllocator.allocateOnePageFrame fuel b.buddy with
  | .error e => .error e
  | .ok (p, s) => .ok (p, {
      buddy := s
      pages := if p = 0 then b.pages else p :: b.pages
      run := BuddyAllocator.runInv_step hz b.run (.allocate fuel pageSize h)
      single := by
        rcases b.step hz h with ⟨rfl, rfl⟩ | ⟨⟨i, hi, hp⟩, -, hsingle⟩
        · rw [if_pos rfl]
          exact b.single
        · have hpos := hz.pos
          rw [if_neg (by omega)]
          exact hsingle })

/-- It returns what `allocate_one_page_frame` returns. -/
theorem Pages.allocateOnePageFrame_buddy (hz : GoodZone z) (fuel : ℕ) (b : Pages z) :
    BuddyAllocator.allocateOnePageFrame fuel b.buddy =
      (b.allocateOnePageFrame hz fuel).map fun r => (r.1, r.2.buddy) := by
  rw [Pages.allocateOnePageFrame]
  split
  · next e h => exact h
  · next p s h => exact h

/-- **The buddy allocator of a zone is a page allocator.** -/
def pageAllocator (hz : GoodZone z) (hlt : z + maxOrderNrPages * pageSize < sizeMod) :
    SlobAllocator.PageAllocator (Pages z) where
  allocateOnePageFrame := Pages.allocateOnePageFrame hz
  held := Pages.pages
  enough := maxOrderNrPages
  meets fuel b := by
    obtain ⟨⟨L, hinv⟩, -⟩ := b.run
    have hpos := hz.pos
    rw [Pages.allocateOnePageFrame]
    split
    · next e h =>
      obtain ⟨rfl, hfuel⟩ := (hinv.allocate fuel pageSize).of_eq_error h
      refine Exec.meets_outOfFuel.mpr fun hf => hfuel ⟨⟨0, ?_⟩, hf⟩
      exact BuddyAllocator.order_pageSize.mono (le_trans (by decide) hf)
    · next p s h =>
      refine Exec.meets_ok.mpr ?_
      rcases b.step hz h with ⟨rfl, -⟩ | ⟨⟨i, hi, rfl⟩, hfresh, -⟩
      · exact Or.inl ⟨rfl, rfl⟩
      · refine Or.inr ⟨⟨?_, by omega, ?_⟩, hfresh, if_neg (by omega)⟩
        · exact (Nat.dvd_add_right hz.aligned).mpr (dvd_mul_left _ _)
        · rw [BuddyAllocator.maxOrderNrPages_eq] at hi hlt
          have hmul : i * pageSize + pageSize ≤ 512 * pageSize := by
            rw [← Nat.succ_mul]
            exact Nat.mul_le_mul_right _ hi
          change z + i * pageSize + pageSize < sizeMod
          omega

/-! ### The invariant of a zone -/

/-- The frames of a zone that are handed out. -/
def frames (z : ℕ) (b : BuddyAllocator.State) : List ℕ :=
  ((List.range maxOrderNrPages).filter fun i => b.frameArray i = .allocated).map fun i =>
    z + i * pageSize

/-- The frame array knows the pages that were handed out. -/
theorem Pages.mem_frames (b : Pages z) {p : ℕ} : p ∈ frames z b.buddy ↔ p ∈ b.pages := by
  obtain ⟨⟨L, hinv⟩, hptr⟩ := b.run
  simp only [frames, List.mem_map, List.mem_filter, List.mem_range, decide_eq_true_eq]
  constructor
  · rintro ⟨i, ⟨hi, hframe⟩, rfl⟩
    obtain ⟨c, hc, hcov⟩ := hinv.tiles.covering.exists_covers hi
    rcases List.mem_append.mp (List.nil_append _ ▸ hc) with hfree | hused
    · -- A frame of a free block is not marked as allocated.
      by_cases hstart : i = c.start
      · rw [hstart, hinv.head c hfree] at hframe
        cases hframe
      · rw [hinv.rest c hfree i hcov hstart] at hframe
        cases hframe
    · obtain ⟨q, hq, rfl⟩ := List.mem_map.mp hused
      obtain ⟨j, -, rfl⟩ := hptr q hq
      obtain ⟨h1, h2⟩ := hcov
      rw [b.single _ hq, blockOf, BuddyAllocator.frame_div] at h2
      rw [blockOf, BuddyAllocator.frame_div] at h1
      simp only [pow_zero] at h1 h2
      obtain rfl : i = j := by omega
      exact hq
  · intro hp
    obtain ⟨i, hi, rfl⟩ := hptr p hp
    refine ⟨i, ⟨hi, hinv.allocated _ (List.mem_map_of_mem hp) i ?_⟩, rfl⟩
    rw [blockOf, BuddyAllocator.frame_div]
    exact ⟨le_rfl, Nat.lt_add_of_pos_right (Nat.two_pow_pos _)⟩

/-- **The invariant of a zone** whose pages are all in the hands of its slob
allocator. -/
def Inv (z : ℕ) (buddy : BuddyAllocator.State) (slob : SlobAllocator.State)
    (live : List (ℕ × ℕ)) : Prop :=
  ∃ b : Pages z, b.buddy = buddy ∧ ∃ C B, SlobAllocator.Inv slob b.pages C B live

/-- A fresh zone. -/
theorem inv_init (z : ℕ) (next : ℕ → Option ℕ) (index prevChunkSize : ℕ → ℤ) :
    Inv z (BuddyAllocator.init z) (SlobAllocator.init next index prevChunkSize) [] :=
  ⟨⟨BuddyAllocator.init z, [], ⟨⟨_, BuddyAllocator.inv_init z⟩, by simp⟩, by simp⟩, rfl, [],
    fun _ => [], SlobAllocator.inv_init next index prevChunkSize⟩

section Calls

variable {buddy : BuddyAllocator.State} {slob : SlobAllocator.State} {live : List (ℕ × ℕ)}
  {size : ℕ}

/-- A request over the buddy allocator is one over the page allocator. -/
theorem allocate_eq (hz : GoodZone z) (hlt : z + maxOrderNrPages * pageSize < sizeMod)
    (b : Pages z) (fuel size : ℕ) (slob : SlobAllocator.State) :
    SlobAllocator.allocate BuddyAllocator.allocateOnePageFrame fuel size slob b.buddy =
      SlobAllocator.mapPages Pages.buddy
        (SlobAllocator.allocate (pageAllocator hz hlt).allocateOnePageFrame fuel size slob b) :=
  SlobAllocator.allocate_map (Pages.allocateOnePageFrame_buddy hz · ·) fuel size slob b

/-- How many rounds are enough for a request. -/
theorem enough_of_le (hz : GoodZone z) (hlt : z + maxOrderNrPages * pageSize < sizeMod)
    {pages : List ℕ} {C : List Span} {B : SlobAllocator.Bin → List ℕ}
    (h : SlobAllocator.Inv slob pages C B live) {fuel : ℕ}
    (hf : C.length + maxOrderNrPages ≤ fuel) :
    (∀ k, (B k).length ≤ fuel) ∧ (pageAllocator hz hlt).enough ≤ fuel ∧ 256 ≤ fuel := by
  refine ⟨fun k => (h.length_le k).trans (by omega), ?_, ?_⟩
  · change maxOrderNrPages ≤ fuel
    omega
  · rw [BuddyAllocator.maxOrderNrPages_eq] at hf
    omega

/-- **A request that keeps the headers keeps the invariant of the zone**, and it
returns. -/
theorem Inv.allocate (hz : GoodZone z) (hlt : z + maxOrderNrPages * pageSize < sizeMod)
    (h : Inv z buddy slob live) (hsize : toSize (SlobAllocator.chunkHeaderSize + size) ≤ pageSize)
    (hclob : ¬SlobAllocator.Clobbers slob (frames z buddy) (SlobAllocator.chunkSizeOf size)) :
    ∃ enough, ∀ fuel, Exec.Meets
      (SlobAllocator.allocate BuddyAllocator.allocateOnePageFrame fuel size slob buddy)
      (enough ≤ fuel) fun r => Inv z r.2.2 r.2.1 (if r.1 = 0 then live else (r.1, size) :: live) := by
  obtain ⟨b, rfl, C, B, hinv⟩ := h
  refine ⟨C.length + maxOrderNrPages, fun fuel => ?_⟩
  rw [allocate_eq hz hlt]
  refine Exec.Meets.map (((hinv.allocate (pageAllocator hz hlt) hsize ?_ fuel).weaken
    fun hf => ?_).mono ?_)
  · rintro ⟨U, a, hU, hfind, hfit, hpage, htop⟩
    exact hclob ⟨U, a, hU, hfind, hfit, b.mem_frames.mpr hpage, htop⟩
  · exact enough_of_le hz hlt hinv hf
  · rintro ⟨p, slob', b'⟩ ⟨C', B', hinv'⟩
    exact ⟨b', rfl, C', B', hinv'⟩

/-- **What a request gets is large enough.** -/
theorem Inv.allocate_size (hz : GoodZone z) (hlt : z + maxOrderNrPages * pageSize < sizeMod)
    (h : Inv z buddy slob live)
    (hsize : toSize (SlobAllocator.chunkHeaderSize + size) ≤ pageSize) :
    ∃ enough, ∀ fuel, Exec.Meets
      (SlobAllocator.allocate BuddyAllocator.allocateOnePageFrame fuel size slob buddy)
      (enough ≤ fuel) fun r => r.1 ≠ 0 → pageIsAligned r.1 = false ∧
        toSize (SlobAllocator.chunkHeaderSize + size) ≤
          SlobAllocator.getSize r.2.1 (r.1 - SlobAllocator.chunkHeaderSize) := by
  obtain ⟨b, rfl, C, B, hinv⟩ := h
  refine ⟨C.length + maxOrderNrPages, fun fuel => ?_⟩
  rw [allocate_eq hz hlt]
  exact Exec.Meets.map ((hinv.allocate_size (pageAllocator hz hlt) hsize fuel).weaken
    (enough_of_le hz hlt hinv))

/-- **Giving a chunk back** keeps the invariant of the zone, and it returns. -/
theorem Inv.deallocate (h : Inv z buddy slob live) {e : ℕ × ℕ} (he : e ∈ live) :
    ∃ enough, ∀ fuel, Exec.Meets (SlobAllocator.deallocate fuel e.1 slob) (enough ≤ fuel)
      fun slob' => Inv z buddy slob' (live.erase e) := by
  obtain ⟨b, rfl, C, B, hinv⟩ := h
  refine ⟨C.length, fun fuel => ((hinv.deallocate he fuel).weaken fun hf k => ?_).mono ?_⟩
  · exact (hinv.length_le k).trans hf
  · rintro slob' ⟨C', B', hinv'⟩
    exact ⟨b, rfl, C', B', hinv'⟩

/-- A live chunk is not taken for a page. -/
theorem Inv.pageIsAligned_eq (h : Inv z buddy slob live) {e : ℕ × ℕ} (he : e ∈ live) :
    pageIsAligned e.1 = false := by
  obtain ⟨b, rfl, C, B, hinv⟩ := h
  obtain ⟨c, hc, hce, -, h32, -⟩ := hinv.owned.chunk e he
  rw [← hce]
  exact (hinv.payload hc h32).2

/-- Writing to live payloads keeps the invariant of the zone. -/
theorem Inv.store (h : Inv z buddy slob live) {slob' : SlobAllocator.State}
    (hst : SlobAllocator.Stores live slob slob') : Inv z buddy slob' live := by
  obtain ⟨b, rfl, C, B, hinv⟩ := h
  exact ⟨b, rfl, C, B, hinv.store hst⟩

end Calls

end Zone

end Valkyrie
