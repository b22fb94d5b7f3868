import Valkyrie.Mm.Buddy.Invariant

/-!
# Every run of the buddy allocator

What a call of `allocate` and of `deallocate` does to a zone in order, and from
that, by induction over the calls, what holds in every state the allocator can be
brought to.

A run is a sequence of calls together with the pointers that are *live*: returned
by a call of `allocate` and not yet given back. `deallocate` is called on live
pointers only; `allocate` on any size, and the calls that return are the ones a
run goes through.
-/

namespace Valkyrie.BuddyAllocator

open Exec

/-- The addresses a zone may begin at: it is a page boundary, it is not the null
pointer, and the zone ends within the address space. The kernel makes two zones,
at `0x10000000` and at `0x10200000`. -/
structure GoodZone (z : ℕ) : Prop where
  aligned : pageSize ∣ z
  pos : 0 < z
  le : z + maxOrderNrPages * pageSize ≤ sizeMod

/-- The block behind a pointer. -/
def blockOf (z : ℕ) (s : State) (p : ℕ) : Block :=
  ⟨(p - z) / pageSize, s.headerOrder ((p - z) / pageSize)⟩

section Pointers

variable {z i : ℕ}

theorem pageSize_eq : pageSize = 4096 := rfl

/-- The address of a frame of the zone does not wrap. -/
theorem toSize_frame (hz : GoodZone z) (hi : i < maxOrderNrPages) :
    toSize (z + i * pageSize) = z + i * pageSize := by
  refine toSize_of_lt (lt_of_lt_of_le ?_ hz.le)
  have hpos : 0 < pageSize := by decide
  exact Nat.add_lt_add_left (Nat.mul_lt_mul_of_pos_right hi hpos) z

/-- The frame at the address of a frame. -/
theorem frame_div (z i : ℕ) : (z + i * pageSize - z) / pageSize = i := by
  rw [Nat.add_sub_cancel_left]
  exact Nat.mul_div_cancel i (by decide)

/-- `get_block_header` finds the header of a frame from its address. -/
theorem getBlockHeader_eq (hz : GoodZone z) {s : State} (hs : s.zoneBegin = z)
    (hi : i < maxOrderNrPages) : getBlockHeader s (z + i * pageSize) = .ok i := by
  have hal : pageIsAligned (z + i * pageSize) = true :=
    pageIsAligned_iff.mpr ((Nat.dvd_add_right hz.aligned).mpr (dvd_mul_left _ _))
  have hlt : z + i * pageSize < sizeMod := by
    refine lt_of_lt_of_le ?_ hz.le
    exact Nat.add_lt_add_left (Nat.mul_lt_mul_of_pos_right hi (by decide)) z
  have hidx : toInt (subSize (z + i * pageSize) z / pageSize) = i := by
    rw [subSize_of_le (Nat.le_add_right _ _) hlt, frame_div]
    rw [maxOrderNrPages_eq] at hi
    exact toInt_of_lt (by omega)
  simp only [getBlockHeader, hal, hs, hidx]
  rw [if_neg (by simp), if_neg (by omega)]
  rfl

end Pointers

/-! ### A call of `allocate` -/

section Allocate

variable {z : ℕ} {s : State} {L : ℕ → List ℕ} {A : List Block} {i k : ℕ}

/-- The search finds the first block of the first list that has one. -/
theorem findFreeList_eq_some {order n victim : ℕ} (h : findFreeList s order n = some victim) :
    ∃ k, order ≤ k ∧ k < order + n ∧ s.freeLists k = some victim := by
  induction n generalizing order with
  | zero => simp [findFreeList] at h
  | succ n ih =>
    rw [findFreeList] at h
    cases hl : s.freeLists order with
    | some v =>
      rw [hl] at h
      obtain rfl : v = victim := Option.some.inj h
      exact ⟨order, le_rfl, by omega, hl⟩
    | none =>
      rw [hl] at h
      obtain ⟨k, hk, hk', hv⟩ := ih h
      exact ⟨k, by omega, by omega, hv⟩

/-- A search that finds nothing has looked at every list. -/
theorem findFreeList_eq_none {order n : ℕ} (h : findFreeList s order n = none) {k : ℕ}
    (hk : order ≤ k) (hk' : k < order + n) : s.freeLists k = none := by
  induction n generalizing order with
  | zero => omega
  | succ n ih =>
    rw [findFreeList] at h
    cases hl : s.freeLists order with
    | some v =>
      rw [hl] at h
      cases h
    | none =>
      rw [hl] at h
      rcases Nat.eq_or_lt_of_le hk with rfl | hlt
      · exact hl
      · exact ih h hlt (by omega)

/-- The end of `allocate` turns the loose block into an allocated one. -/
theorem Inv.hit (h : Inv z s L A [⟨i, k⟩]) :
    ∃ s', BuddyAllocator.hit s i = .ok (toSize (z + i * pageSize), s') ∧
      Inv z s' L (⟨i, k⟩ :: A) [] := by
  obtain ⟨ho, -, hle, -⟩ := h.loose_facts
  refine ⟨_, ?_, h.grant⟩
  rw [BuddyAllocator.hit, markBlockAsAllocated_eq (h.index i) ho hle, ok_bind]
  simp only [getPageFrame, markedAllocated, h.index, h.zone]
  rfl

/-- The size of a request is rounded and turned into an order. -/
def Order (fuel size order : ℕ) : Prop :=
  ∃ size', normalizeSize fuel size = .ok size' ∧ size' ≠ 0 ∧ sizeToOrder fuel size' = .ok order

/-- More rounds do not change the order. -/
theorem Order.mono {fuel fuel' size order : ℕ} (h : Order fuel size order) (hle : fuel ≤ fuel') :
    Order fuel' size order := by
  obtain ⟨size', hs, hne, ho⟩ := h
  exact ⟨size', roundUpToPowOf2_mono hs hle, hne, log2_mono ho hle⟩

/-- A size has one order. -/
theorem Order.unique {fuel fuel' size order order' : ℕ} (h : Order fuel size order)
    (h' : Order fuel' size order') : order = order' := by
  obtain ⟨size', hs, -, ho⟩ := h.mono (le_max_left fuel fuel')
  obtain ⟨size'', hs', -, ho'⟩ := h'.mono (le_max_right fuel fuel')
  obtain rfl : size' = size'' := Except.ok.inj (hs.symm.trans hs')
  exact Except.ok.inj (ho.symm.trans ho')

/-- One page has the order `0`. -/
theorem order_pageSize : Order 64 pageSize 0 := ⟨4096, rfl, by decide, rfl⟩

/-- **What a call of `allocate` does**: it hands out a block of the order it
computed from the size; or it hands out nothing and leaves the zone as it was,
and then there is no block of that order or a larger one. It does not abort, it
leaves no buddies on the lists, and with enough rounds it returns if the computation
of the order does. -/
theorem Inv.allocate (h : Inv z s L A []) (fuel size : ℕ) :
    Meets (BuddyAllocator.allocate fuel size s)
      ((∃ order, Order fuel size order) ∧ maxOrderNrPages ≤ fuel) fun r =>
      (r = (0, s) ∧ ∀ order, Order fuel size order →
        ∀ k, order ≤ k → k < maxOrder → s.freeLists k = none) ∨
      ∃ order i L', Order fuel size order ∧ r.1 = toSize (z + i * pageSize) ∧
        Inv z r.2 L' (⟨i, order⟩ :: A) [] ∧ (Coalesced L → Coalesced L') := by
  rw [BuddyAllocator.allocate]
  refine (meets_self (fun _ => roundUpToPowOf2_error) ?_).bind fun size' hsize' => ?_
  · rintro ⟨⟨order, size', hs, -, -⟩, -⟩
    exact ⟨size', hs⟩
  have hsame : ∀ {order' : ℕ}, Order fuel size order' → size' ≠ 0 ∧
      sizeToOrder fuel size' = .ok order' := by
    rintro order' ⟨size'', hs, hne, ho⟩
    obtain rfl : size' = size'' := Except.ok.inj (hsize'.symm.trans hs)
    exact ⟨hne, ho⟩
  refine (meets_self (fun _ => log2_error) ?_).bind fun order horder => ?_
  · rintro ⟨⟨order, hord⟩, -⟩
    exact ⟨order, (hsame hord).2⟩
  by_cases hzero : size' = 0
  · rw [if_pos hzero]
    exact meets_ok.mpr <| Or.inl ⟨rfl, fun order' hord => absurd hzero (hsame hord).1⟩
  rw [if_neg hzero]
  have hord : Order fuel size order := ⟨size', hsize', hzero, horder⟩
  have huniq : ∀ order', Order fuel size order' → order' = order := fun order' h' =>
    Except.ok.inj ((hsame h').2.symm.trans horder)
  by_cases hbig : maxOrder ≤ order
  · simp only [if_pos hbig]
    exact meets_ok.mpr <| Or.inl ⟨rfl, fun order' h' k hk hk' => absurd (huniq order' h') (by omega)⟩
  simp only [if_neg hbig]
  cases hlist : s.freeLists order with
  | some victim =>
    -- A block of this order is free: nothing is split.
    obtain ⟨t, s₁, hL, hdel, hinv⟩ := h.freeListDelHead (by omega) hlist
    obtain ⟨s₂, hhit, hinv'⟩ := hinv.hit
    simp only [hdel, ok_bind, hhit]
    have hL' : L order = [] ++ victim :: t := hL
    exact meets_ok.mpr <| Or.inr ⟨order, victim, _, hord, rfl, hinv', fun hc => hc.erase hL'⟩
  | none =>
    cases hfind : findFreeList s order (maxOrder - order) with
    | none =>
      refine meets_ok.mpr <| Or.inl ⟨rfl, fun order' h' k hk hk' => ?_⟩
      rw [huniq order' h'] at hk
      exact findFreeList_eq_none hfind hk (by omega)
    | some victim =>
      -- A larger block is loose while it is split down to the order.
      obtain ⟨k, hok, hk, hfront⟩ := findFreeList_eq_some hfind
      have hmem : victim ∈ L k := by
        have hch := h.chain k (by omega)
        rw [hfront] at hch
        obtain ⟨t, ht, -⟩ := hch.exists_cons
        simp [ht]
      refine ((h.freeListDelEntry (by omega) hmem fuel).weaken fun hf => hf.2).bind ?_
      rintro s₁ ⟨l₁, l₂, hL, hinv⟩
      obtain ⟨ho, hklt, -⟩ := hinv.loose_facts
      obtain ⟨s₂, L₂, hsplit, hinv₂, hco⟩ := hinv.splitLoop order hklt.le
      have hmin : min k order = order := min_eq_right hok
      rw [hmin] at hinv₂
      obtain ⟨s₃, hhit, hinv₃⟩ := hinv₂.hit
      have hsplit' : splitBlock s₁ victim order = .ok s₂ := by
        rw [splitBlock, ho, if_neg (by omega)]
        exact hsplit
      have horder' : sizeToOrder fuel size' = .ok order := horder
      simp only [horder', ok_bind, hsplit', hhit]
      exact meets_ok.mpr <|
        Or.inr ⟨order, victim, _, hord, rfl, hinv₃, fun hc => hco (hc.erase hL)⟩

/-! ### A call of `deallocate` -/

/-- **What a call of `deallocate` does** to a block in use: it returns, the block is
in use no more, and no buddies are left on the lists. -/
theorem Inv.deallocate (hz : GoodZone z) (h : Inv z s L (⟨i, k⟩ :: A) []) (fuel : ℕ) :
    Meets (BuddyAllocator.deallocate fuel (z + i * pageSize) s) (maxOrderNrPages ≤ fuel)
      fun s' => ∃ L', Inv z s' L' A [] ∧ (Coalesced L → Coalesced L') := by
  have hloose := h.loosen
  have hi : i < maxOrderNrPages := hloose.tiles.lt_of_mem (b := ⟨i, k⟩) (by simp)
  have hp : z + i * pageSize ≠ 0 := by
    have := hz.pos
    omega
  rw [BuddyAllocator.deallocate, if_neg hp, getBlockHeader_eq hz h.zone hi, ok_bind]
  refine (hloose.mergeLoop fuel (Nat.le_add_left _ _)).bind ?_
  rintro ⟨i', s₁⟩ ⟨L₁, k', hinv, hco, hlast⟩
  obtain ⟨ho, hk', hle, -⟩ := hinv.loose_facts
  have hadd := freeListAddHead_eq ho hk' hinv.front_ne
  have hmark : markBlockAsAllocatable (pushed s₁ ⟨i', k'⟩) i' =
      .ok (pushed (markedAllocatable s₁ ⟨i', k'⟩) ⟨i', k'⟩) :=
    markBlockAsAllocatable_eq (s := pushed s₁ ⟨i', k'⟩) (hinv.index i') ho hle
  simp only [hadd, ok_bind, hmark]
  exact meets_ok.mpr ⟨_, hinv.release, fun hc => (hco hc).push hlast⟩

end Allocate

/-! ### Whole runs -/

/-- **One call**, on the allocator and the pointers that are live. -/
inductive Step : State × List ℕ → State × List ℕ → Prop
  /-- A call of `allocate` that returns; what it returns is live unless it is the
  null pointer. -/
  | allocate {s s' : State} {live : List ℕ} {p : ℕ} (fuel size : ℕ)
      (h : allocate fuel size s = .ok (p, s')) :
      Step (s, live) (s', if p = 0 then live else p :: live)
  /-- A call of `deallocate` on a live pointer. -/
  | deallocate {s s' : State} {live : List ℕ} {p : ℕ} (fuel : ℕ) (hp : p ∈ live)
      (h : deallocate fuel p s = .ok s') : Step (s, live) (s', live.erase p)

/-- The invariant of a run: the blocks in use are the ones behind the live
pointers. -/
def RunInv (z : ℕ) (r : State × List ℕ) : Prop :=
  (∃ L, Inv z r.1 L (r.2.map (blockOf z r.1)) []) ∧
    ∀ p ∈ r.2, ∃ i, i < maxOrderNrPages ∧ p = z + i * pageSize

section Run

variable {z : ℕ} {s s' : State} {L : ℕ → List ℕ} {A : List Block} {live : List ℕ}

/-- The headers of the blocks in use are not touched by calls on other blocks. -/
theorem map_blockOf_eq (hlive : ∀ p ∈ live, (blockOf z s p) ∈ A)
    (horder : ∀ b ∈ A, s'.headerOrder b.start = b.order) :
    live.map (blockOf z s') = live.map (blockOf z s) := by
  refine List.map_congr_left fun p hp => ?_
  exact congrArg (Block.mk _) (horder _ (hlive p hp))

/-- One of the blocks in use, and the others. -/
theorem RunInv.exists_inv (h : RunInv z (s, live)) {p : ℕ} (hp : p ∈ live) :
    ∃ L i, p = z + i * pageSize ∧
      Inv z s L (⟨i, s.headerOrder i⟩ :: (live.erase p).map (blockOf z s)) [] := by
  obtain ⟨⟨L, hinv⟩, hptr⟩ := h
  obtain ⟨i, -, hpi⟩ := hptr p hp
  have hblock : blockOf z s p = ⟨i, s.headerOrder i⟩ := by
    rw [blockOf, hpi, frame_div]
  have hperm := (List.perm_cons_erase hp).map (blockOf z s)
  rw [List.map_cons, hblock] at hperm
  exact ⟨L, i, hpi, hinv.perm hperm⟩

/-- **A call keeps the invariant of a run.** -/
theorem runInv_step (hz : GoodZone z) {r r' : State × List ℕ} (h : RunInv z r) (hstep : Step r r') :
    RunInv z r' := by
  cases hstep with
  | @allocate s s' live p fuel size hcall =>
    obtain ⟨⟨L, hinv⟩, hptr⟩ := h
    rcases (hinv.allocate fuel size).of_eq_ok hcall with ⟨hnone, -⟩ | ⟨k, i, L', -, hp, hinv', -⟩
    · obtain ⟨rfl, rfl⟩ : p = 0 ∧ s' = s := by simpa using hnone
      rw [if_pos rfl]
      exact ⟨⟨L, hinv⟩, hptr⟩
    · have hi : i < maxOrderNrPages := hinv'.tiles.lt_of_mem (b := ⟨i, k⟩) (by simp)
      have hp' : p = z + i * pageSize := hp.trans (toSize_frame hz hi)
      have hne : p ≠ 0 := by
        have := hz.pos
        omega
      have hmap : live.map (blockOf z s') = live.map (blockOf z s) :=
        map_blockOf_eq (fun q hq => List.mem_map_of_mem hq)
          fun b hb => hinv'.order b (by simp [hb])
      have hblock : blockOf z s' p = ⟨i, k⟩ := by
        have ho : s'.headerOrder i = k := hinv'.order ⟨i, k⟩ (by simp)
        rw [blockOf, hp', frame_div, ho]
      rw [if_neg hne]
      refine ⟨⟨L', ?_⟩, fun q hq => ?_⟩
      · change Inv z s' L' (blockOf z s' p :: live.map (blockOf z s')) []
        rw [hmap, hblock]
        exact hinv'
      · rcases List.mem_cons.mp hq with rfl | hq
        · exact ⟨i, hi, hp'⟩
        · exact hptr q hq
  | @deallocate s s' live p fuel hp hcall =>
    obtain ⟨L, i, hpi, hinv⟩ := h.exists_inv hp
    rw [hpi] at hcall
    obtain ⟨L', hinv', -⟩ := (hinv.deallocate hz fuel).of_eq_ok hcall
    have hmap : (live.erase p).map (blockOf z s') = (live.erase p).map (blockOf z s) :=
      map_blockOf_eq (fun q hq => List.mem_map_of_mem hq) fun b hb => hinv'.order b (by simp [hb])
    refine ⟨⟨L', ?_⟩, fun q hq => h.2 q (List.mem_of_mem_erase hq)⟩
    change Inv z s' L' ((live.erase p).map (blockOf z s')) []
    rw [hmap]
    exact hinv'

/-- No pointer is live twice. -/
theorem RunInv.nodup (h : RunInv z (s, live)) : live.Nodup := by
  obtain ⟨⟨L, hinv⟩, -⟩ := h
  have hcount : ∀ f, coverCount Block.Covers (live.map (blockOf z s)) f ≤ 1 := fun f =>
    (List.sublist_append_right _ _).countP_le.trans (hinv.tiles.covering.coverCount_le_one f)
  refine (List.pairwise_map.mp (pairwise_of_coverCount_le_one hcount)).imp fun {p q} hdisj hEq => ?_
  have hself : (blockOf z s p).Covers (blockOf z s p).start :=
    ⟨le_rfl, Nat.lt_add_of_pos_right (Nat.two_pow_pos _)⟩
  exact hdisj _ ⟨hself, hEq ▸ hself⟩

/-- **A request** gets nothing and changes nothing, or it gets the address of a frame
that heads no live block; the other live blocks are what they were. -/
theorem RunInv.allocate (hz : GoodZone z) (h : RunInv z (s, live)) {fuel size p : ℕ}
    (hcall : BuddyAllocator.allocate fuel size s = .ok (p, s')) :
    p = 0 ∧ s' = s ∨ (∃ i, i < maxOrderNrPages ∧ p = z + i * pageSize) ∧ p ∉ live ∧
      RunInv z (s', p :: live) ∧ Order fuel size (blockOf z s' p).order ∧
      ∀ q ∈ live, blockOf z s' q = blockOf z s q := by
  have hstep := runInv_step hz h (Step.allocate fuel size hcall)
  obtain ⟨⟨L, hinv⟩, -⟩ := h
  rcases (hinv.allocate fuel size).of_eq_ok hcall with ⟨hnone, -⟩ | ⟨k, i, L', hord, hp, hinv', -⟩
  · exact Or.inl (by simpa using hnone)
  have hi : i < maxOrderNrPages := hinv'.tiles.lt_of_mem (b := ⟨i, k⟩) (by simp)
  obtain rfl : p = z + i * pageSize := hp.trans (toSize_frame hz hi)
  have hpos := hz.pos
  rw [if_neg (by omega)] at hstep
  refine Or.inr ⟨⟨i, hi, rfl⟩, (List.nodup_cons.mp hstep.nodup).1, hstep, ?_, fun q hq => ?_⟩
  · rw [blockOf, frame_div]
    have ho : s'.headerOrder i = k := hinv'.order ⟨i, k⟩ (by simp)
    rwa [ho]
  · exact congrArg _ (hinv'.order (blockOf z s q) (by simp [List.mem_map_of_mem hq]))

/-- **A live pointer can be given back.** -/
theorem RunInv.deallocate (hz : GoodZone z) (h : RunInv z (s, live)) {p : ℕ} (hp : p ∈ live)
    (fuel : ℕ) : Meets (BuddyAllocator.deallocate fuel p s) (maxOrderNrPages ≤ fuel)
      fun _ => True := by
  obtain ⟨L, i, hpi, hinv⟩ := h.exists_inv hp
  rw [hpi]
  exact (hinv.deallocate hz fuel).mono fun _ _ => trivial

/-- **The invariant holds along every run** from the constructor. -/
theorem runInv_of_run (hz : GoodZone z) {r : State × List ℕ} (h : Run Step (init z, []) r) :
    RunInv z r :=
  h.invariant ⟨⟨_, inv_init z⟩, by simp⟩ fun _ _ => runInv_step hz

end Run

/-- **The records of a zone are consistent**: the free lists are finite lists of
headers of their own order, the blocks on them and the blocks behind the live
pointers are aligned and cover each frame once, and the frame array says so. -/
structure Consistent (z : ℕ) (s : State) (live : List ℕ) (L : ℕ → List ℕ) : Prop where
  list : ∀ k, k < maxOrder → Chain s.headerNext (s.freeLists k) (L k)
  listOrder : ∀ k, k < maxOrder → ∀ i ∈ L k, s.headerOrder i = k
  cover : ∀ f, f < maxOrderNrPages →
    coverCount Block.Covers (freeBlocks L ++ live.map (blockOf z s)) f = 1
  aligned : ∀ b ∈ freeBlocks L ++ live.map (blockOf z s), 2 ^ b.order ∣ b.start
  free : ∀ k, k < maxOrder → ∀ i ∈ L k, s.frameArray i = .order k ∧
    ∀ f, i < f → f < i + 2 ^ k → s.frameArray f = .dontAllocate
  used : ∀ p ∈ live, ∀ f, (blockOf z s p).Covers f → s.frameArray f = .allocated

/-- The invariant makes the records consistent. -/
theorem Inv.consistent {z : ℕ} {s : State} {live : List ℕ} {L : ℕ → List ℕ}
    (h : Inv z s L (live.map (blockOf z s)) []) : Consistent z s live L where
  list := h.chain
  listOrder k hk i hi := h.order ⟨i, k⟩ (by simp [mem_freeBlocks, hk, hi])
  cover := h.tiles.cover
  aligned := h.tiles.aligned
  free k hk i hi := by
    have hmem : (⟨i, k⟩ : Block) ∈ freeBlocks L := mem_freeBlocks.mpr ⟨hk, hi⟩
    exact ⟨h.head _ hmem, fun f h1 h2 => h.rest _ hmem f ⟨h1.le, h2⟩ h1.ne'⟩
  used p hp f hf := h.allocated _ (List.mem_map_of_mem hp) f hf

/-- The byte belongs to the block behind a pointer. -/
def Owns (z : ℕ) (s : State) (p a : ℕ) : Prop :=
  p ≤ a ∧ a < p + 2 ^ (blockOf z s p).order * pageSize

/-- A byte of a block lies in a frame of it. -/
theorem covers_of_owns {z i p a : ℕ} {s : State} (hp : p = z + i * pageSize) (h : Owns z s p a) :
    (blockOf z s p).Covers ((a - z) / pageSize) := by
  obtain ⟨h1, h2⟩ := h
  have hstart : (blockOf z s p).start = i := by
    rw [blockOf, hp, frame_div]
  have hza : z ≤ a := by omega
  refine ⟨?_, ?_⟩
  · rw [hstart, Nat.le_div_iff_mul_le (by decide)]
    omega
  · rw [hstart, Nat.div_lt_iff_lt_mul (by decide), Nat.add_mul]
    omega

/-- **Every run of the buddy allocator keeps its records consistent.** In every
state reached from the constructor, the blocks on the free lists and the blocks
behind the live pointers tile the zone, with the lists, the orders and the frame
array in agreement; no two live pointers share a byte; and no call on that state
aborts or leaves its arrays – a call of `deallocate` on a live pointer returns,
and a call of `allocate` returns unless the size makes it run forever. -/
theorem consistent_of_run {z : ℕ} (hz : GoodZone z) {s : State} {live : List ℕ}
    (h : Run Step (init z, []) (s, live)) :
    (∃ L, Consistent z s live L) ∧
      live.Pairwise (fun p q => ∀ a, ¬(Owns z s p a ∧ Owns z s q a)) ∧
      (∀ fuel size e, allocate fuel size s = .error e → e = .outOfFuel) ∧
      (∀ p ∈ live, ∀ fuel e, deallocate fuel p s = .error e → e = .outOfFuel) ∧
      ∀ p ∈ live, ∀ fuel, maxOrderNrPages ≤ fuel → ∃ s', deallocate fuel p s = .ok s' := by
  have hrun := runInv_of_run hz h
  have hdealloc := fun p hp => hrun.deallocate hz (p := p) hp
  obtain ⟨⟨L, hinv⟩, hptr⟩ := hrun
  refine ⟨⟨L, hinv.consistent⟩, ?_, fun fuel size e he => (hinv.allocate fuel size).error_eq he,
    fun p hp fuel e he => (hdealloc p hp fuel).error_eq he, fun p hp fuel hf => ?_⟩
  · have hcount : ∀ f, coverCount Block.Covers (live.map (blockOf z s)) f ≤ 1 := by
      intro f
      have hsub : (live.map (blockOf z s)).Sublist (freeBlocks L ++ live.map (blockOf z s)) :=
        List.sublist_append_right _ _
      exact hsub.countP_le.trans (hinv.tiles.covering.coverCount_le_one f)
    have hpair := List.pairwise_map.mp (pairwise_of_coverCount_le_one hcount)
    refine hpair.imp_of_mem fun {p q} hp hq hdisj a hown => ?_
    obtain ⟨i, -, hpi⟩ := hptr p hp
    obtain ⟨j, -, hqj⟩ := hptr q hq
    exact hdisj _ ⟨covers_of_owns hpi hown.1, covers_of_owns hqj hown.2⟩
  · obtain ⟨s', hs', -⟩ := (hdealloc p hp fuel).exists_ok hf
    exact ⟨s', hs'⟩

/-- A fresh zone serves every request of an order that it has. -/
theorem allocate_init {z : ℕ} (hz : GoodZone z) {fuel size order : ℕ}
    (hf : maxOrderNrPages ≤ fuel) (hord : Order fuel size order) (ho : order < maxOrder) :
    ∃ p s, allocate fuel size (init z) = .ok (p, s) ∧ p ≠ 0 := by
  obtain ⟨⟨p, s⟩, hs, hcase⟩ := ((inv_init z).allocate fuel size).exists_ok ⟨⟨order, hord⟩, hf⟩
  refine ⟨p, s, hs, ?_⟩
  rcases hcase with ⟨-, hnone⟩ | ⟨k, i, L', -, hp, hinv, -⟩
  · exact absurd (hnone order hord 9 (Nat.le_of_lt_succ ho) (by decide)) (by simp [init, maxOrder])
  · have hi : i < maxOrderNrPages := hinv.tiles.lt_of_mem (b := ⟨i, k⟩) (by simp)
    have hpi : p = z + i * pageSize := hp.trans (toSize_frame hz hi)
    have := hz.pos
    omega

/-- The run that takes one page of a fresh zone. -/
theorem exists_run_onePage (hz : GoodZone z) :
    ∃ p s, allocate 512 pageSize (init z) = .ok (p, s) ∧ p ≠ 0 ∧
      Run Step (init z, []) (s, [p]) := by
  have hord : Order 512 pageSize 0 := ⟨4096, rfl, by decide, rfl⟩
  obtain ⟨p, s, hs, hp⟩ := allocate_init hz le_rfl hord (by decide)
  have hstep : Step (init z, []) (s, if p = 0 then [] else [p]) := Step.allocate 512 pageSize hs
  rw [if_neg hp] at hstep
  exact ⟨p, s, hs, hp, Relation.ReflTransGen.single hstep⟩

/-- The first zone of the kernel, after one page has been taken from it. -/
theorem consistent_of_run_one_page :
    ∃ p s L, allocate 512 pageSize (init 0x10000000) = .ok (p, s) ∧ p ≠ 0 ∧
      Consistent 0x10000000 s [p] L := by
  have hz : GoodZone 0x10000000 := ⟨by decide, by decide, by decide⟩
  obtain ⟨p, s, hs, hp, hrun⟩ := exists_run_onePage hz
  obtain ⟨⟨L, hL⟩, -⟩ := consistent_of_run hz hrun
  exact ⟨p, s, L, hs, hp, hL⟩

end Valkyrie.BuddyAllocator
