import Valkyrie.Mm.Buddy.Run

/-!
# Free blocks are merged as far as they can be

Two free blocks of one order that are buddies never stay side by side: a block that
is split keeps one half in use, and a block that is given back is merged until its
buddy is in use or has been split itself. So in every state a run of the allocator
reaches, the free lists are `Valkyrie.BuddyAllocator.Coalesced`
(`Valkyrie.BuddyAllocator.coalesced_of_run`).

What follows is about frames and not about lists. An aligned run of frames none of
which is in use is not hidden in smaller blocks
(`Valkyrie.Tiles.exists_covers_run`), hence a zone without live blocks is the one
block it began as, and `allocate` fails exactly when no aligned run of the length it
needs is free (`Valkyrie.BuddyAllocator.allocate_eq_null_iff`).
-/

namespace Valkyrie.BuddyAllocator

/-! ### The lists of a state -/

/-- **The free lists of a state have no buddies.** The lists are what the links of
the header pool make of them, so any family that follows the links will do. -/
def NoBuddies (s : State) : Prop :=
  ∀ L, (∀ k, k < maxOrder → Chain s.headerNext (s.freeLists k) (L k)) → Coalesced L

section NoBuddies

variable {z : ℕ} {s : State} {L : ℕ → List ℕ} {A loose : List Block}

theorem Inv.noBuddies (h : Inv z s L A loose) (hc : Coalesced L) : NoBuddies s := by
  intro L' hL' k hk
  have hk' : k < maxOrder := by omega
  rw [(hL' k hk').unique (h.chain k hk')]
  exact hc k hk

/-- No two blocks of a zone without buddies are buddies; of the greatest order there
is only one block to begin with. -/
theorem Inv.not_buddies (h : Inv z s L A loose) (hc : Coalesced L) {i k : ℕ}
    (hi : ⟨i, k⟩ ∈ freeBlocks L) : (⟨i ^^^ 2 ^ k, k⟩ : Block) ∉ freeBlocks L := by
  intro hi'
  obtain ⟨hk, hmem⟩ := mem_freeBlocks.mp hi
  obtain ⟨-, hmem'⟩ := mem_freeBlocks.mp hi'
  rcases Nat.lt_or_ge k (maxOrder - 1) with hlt | hge
  · exact hc k hlt i hmem hmem'
  · have hle := h.tiles.le ⟨i, k⟩ (by simp [hi])
    have hle' := h.tiles.le ⟨i ^^^ 2 ^ k, k⟩ (by simp [hi'])
    obtain rfl : k = 9 := by
      change k < 10 at hk
      change 9 ≤ k at hge
      omega
    dsimp only at hle hle'
    rw [maxOrderNrPages_eq] at hle hle'
    obtain rfl : i = 0 := by omega
    rw [Nat.zero_xor] at hle'
    omega

/-- **A call leaves no buddies on the lists.** -/
theorem noBuddies_step (hz : GoodZone z) {r r' : State × List ℕ} (h : RunInv z r)
    (hc : NoBuddies r.1) (hstep : Step r r') : NoBuddies r'.1 := by
  cases hstep with
  | @allocate s s' live p fuel size hcall =>
    obtain ⟨⟨L, hinv⟩, -⟩ := h
    rcases (hinv.allocate fuel size).of_eq_ok hcall with ⟨hnone, -⟩ | ⟨k, i, L', -, -, hinv', hco⟩
    · obtain ⟨-, rfl⟩ : p = 0 ∧ s' = s := by simpa using hnone
      exact hc
    · exact hinv'.noBuddies (hco (hc L hinv.chain))
  | @deallocate s s' live p fuel hp hcall =>
    obtain ⟨L, i, hpi, hinv⟩ := h.exists_inv hp
    rw [hpi] at hcall
    obtain ⟨L', hinv', hco⟩ := (hinv.deallocate hz fuel).of_eq_ok hcall
    exact hinv'.noBuddies (hco (hc L hinv.chain))

/-- **No run leaves buddies on the lists.** -/
theorem exists_inv_of_run (hz : GoodZone z) {live : List ℕ}
    (h : Run Step (init z, []) (s, live)) :
    ∃ L, Inv z s L (live.map (blockOf z s)) [] ∧ Coalesced L := by
  have hboth : RunInv z (s, live) ∧ NoBuddies s := by
    refine h.invariant (P := fun r => RunInv z r ∧ NoBuddies r.1) ?_ fun r r' hr hstep => ?_
    · exact ⟨⟨⟨_, inv_init z⟩, by simp⟩, (inv_init z).noBuddies Coalesced.init⟩
    · exact ⟨runInv_step hz hr.1 hstep, noBuddies_step hz hr.1 hr.2 hstep⟩
  obtain ⟨⟨⟨L, hinv⟩, -⟩, hno⟩ := hboth
  exact ⟨L, hinv, hno L hinv.chain⟩

end NoBuddies

/-! ### Free runs of frames -/

/-- **An aligned run of `2 ^ k` frames of the zone** none of which belongs to a live
block. -/
structure FreeRun (z : ℕ) (s : State) (live : List ℕ) (i k : ℕ) : Prop where
  aligned : 2 ^ k ∣ i
  le : i + 2 ^ k ≤ maxOrderNrPages
  free : ∀ f, i ≤ f → f < i + 2 ^ k → ∀ p ∈ live, ¬(blockOf z s p).Covers f

section FreeRun

variable {z : ℕ} {s : State} {L : ℕ → List ℕ} {live : List ℕ} {i k : ℕ}

/-- **A free run lies in one free block**, where no buddies are left. -/
theorem FreeRun.exists_block (hrun : FreeRun z s live i k)
    (h : Inv z s L (live.map (blockOf z s)) []) (hc : Coalesced L) :
    ∃ b ∈ freeBlocks L, k ≤ b.order ∧ b.Covers i := by
  obtain ⟨b, -, hb, hkb, hbi⟩ := h.tiles.exists_covers_run (P := (· ∈ freeBlocks L))
    (fun i k _ hi _ => h.not_buddies hc hi) hrun.aligned hrun.le fun b hb f h1 h2 hbf => by
      rw [List.nil_append] at hb
      rcases List.mem_append.mp hb with hb | hb
      · exact hb
      · obtain ⟨p, hp, rfl⟩ := List.mem_map.mp hb
        exact absurd hbf (hrun.free f h1 h2 p hp)
  exact ⟨b, hb, hkb, hbi⟩

/-- A free block is a free run. -/
theorem Inv.freeRun (h : Inv z s L (live.map (blockOf z s)) []) {b : Block}
    (hb : b ∈ freeBlocks L) : FreeRun z s live b.start b.order := by
  refine ⟨h.tiles.aligned b (by simp [hb]), h.tiles.le b (by simp [hb]),
    fun f h1 h2 p hp hpf => ?_⟩
  have hpair := pairwise_of_coverCount_le_one h.tiles.covering.coverCount_le_one
  rw [List.nil_append] at hpair
  exact (List.pairwise_append.mp hpair).2.2 b hb _ (List.mem_map_of_mem hp) f ⟨⟨h1, h2⟩, hpf⟩

/-- **No free run that has the start of a free block is longer.** -/
theorem FreeRun.le_order {j m : ℕ} (hrun : FreeRun z s live j m)
    (h : Inv z s L (live.map (blockOf z s)) []) (hc : Coalesced L) (hi : ⟨i, k⟩ ∈ freeBlocks L)
    (h1 : j ≤ i) (h2 : i < j + 2 ^ m) : m ≤ k := by
  obtain ⟨b, hb, hm, hbj⟩ := hrun.exists_block h hc
  have hal : b.Aligned := h.tiles.aligned b (by simp [hb])
  have hin := hal.covers_run hrun.aligned hm ⟨le_rfl, h1.trans_lt h2⟩ hbj
  obtain rfl : b = ⟨i, k⟩ := h.tiles.covering.eq_of_covers (by simp [hb]) (by simp [hi])
    ⟨hin.1.trans h1, h2.trans_le hin.2⟩ (Block.covers_start ⟨i, k⟩)
  exact hm

/-- **A zone of which nothing is in use is one free block.** -/
theorem Inv.freeBlocks_eq (h : Inv z s L [] []) (hc : Coalesced L) {b : Block} :
    b ∈ freeBlocks L ↔ b = ⟨0, maxOrder - 1⟩ := by
  have hall : FreeRun z s [] 0 (maxOrder - 1) :=
    ⟨dvd_zero _, by rw [Nat.zero_add]; exact le_rfl, fun _ _ _ _ hp => absurd hp (by simp)⟩
  obtain ⟨⟨start, order⟩, hmem, hle, hcov⟩ := hall.exists_block h hc
  have hlt : order < maxOrder := (mem_freeBlocks.mp hmem).1
  obtain rfl : start = 0 := Nat.le_zero.mp hcov.1
  obtain rfl : order = maxOrder - 1 := by
    change maxOrder - 1 ≤ order at hle
    omega
  refine ⟨fun hb => ?_, fun hb => hb ▸ hmem⟩
  have hstart : b.start < maxOrderNrPages := h.tiles.lt_of_mem (by simp [hb])
  refine h.tiles.covering.eq_of_covers (by simp [hb]) (by simp [hmem]) b.covers_start ⟨?_, ?_⟩
  · exact Nat.zero_le _
  · rw [Nat.zero_add]
    exact hstart

end FreeRun

/-- **Maximal coalescing.** In every state a run from the constructor reaches, no two
blocks on the free lists below the greatest order are buddies; and when no pointer is
live any more, the free lists are what the constructor made them: header `0` alone on
the last list, and nothing on the others. -/
theorem coalesced_of_run {z : ℕ} (hz : GoodZone z) {s : State} {live : List ℕ}
    (h : Run Step (init z, []) (s, live)) :
    (∃ L, Consistent z s live L ∧
      ∀ k, k < maxOrder - 1 → ∀ i ∈ L k, ∀ j ∈ L k, j ≠ i ^^^ 2 ^ k) ∧
    (live = [] → s.freeLists (maxOrder - 1) = some 0 ∧ s.headerNext 0 = none ∧
      ∀ k, k < maxOrder - 1 → s.freeLists k = none) := by
  obtain ⟨L, hinv, hc⟩ := exists_inv_of_run hz h
  refine ⟨⟨L, hinv.consistent, fun k hk i hi j hj he => hc k hk i hi (he ▸ hj)⟩, ?_⟩
  rintro rfl
  have hmem : ∀ k, k < maxOrder → ∀ i, i ∈ L k ↔ i = 0 ∧ k = maxOrder - 1 := by
    intro k hk i
    have hiff := hinv.freeBlocks_eq hc (b := ⟨i, k⟩)
    rw [mem_freeBlocks, Block.mk.injEq] at hiff
    rw [← hiff]
    exact (and_iff_right hk).symm
  have hlast := hinv.chain (maxOrder - 1) (by decide)
  have hsingle : L (maxOrder - 1) = [0] := by
    refine List.perm_singleton.mp ((List.perm_ext_iff_of_nodup hlast.nodup (by simp)).mpr ?_)
    intro i
    rw [hmem _ (by decide), List.mem_singleton, and_iff_left rfl]
  rw [hsingle] at hlast
  refine ⟨hlast.1, hlast.2, fun k hk => ?_⟩
  have hnil : L k = [] :=
    List.eq_nil_iff_forall_not_mem.mpr fun i hi => hk.ne ((hmem k (by omega) i).mp hi).2
  exact Chain.nil_iff.mp (hnil ▸ hinv.chain k (by omega))

/-- The first zone of the kernel, after a page has been taken from it and given back. -/
theorem coalesced_of_run_one_page :
    ∃ p s s', allocate 512 pageSize (init 0x10000000) = .ok (p, s) ∧ p ≠ 0 ∧
      deallocate 512 p s = .ok s' ∧ s'.freeLists (maxOrder - 1) = some 0 ∧
      s'.headerNext 0 = none ∧ ∀ k, k < maxOrder - 1 → s'.freeLists k = none := by
  have hz : GoodZone 0x10000000 := ⟨by decide, by decide, by decide⟩
  obtain ⟨p, s, hs, hp, hrun⟩ := exists_run_onePage hz
  have hmem : p ∈ [p] := List.mem_singleton_self p
  obtain ⟨s', hs', -⟩ := ((runInv_of_run hz hrun).deallocate hz hmem 512).exists_ok le_rfl
  have hstep' : Step (s, [p]) (s', [p].erase p) := Step.deallocate 512 hmem hs'
  rw [List.erase_cons_head] at hstep'
  exact ⟨p, s, s', hs, hp, hs', (coalesced_of_run hz (hrun.tail hstep')).2 rfl⟩

/-- **The free lists are the longest free runs.** In every state a run from the
constructor reaches, header `i` is on the list of order `k` if and only if the `2 ^ k`
frames from `i` are an aligned run without a frame in use, and no longer such run has
frame `i`. So the lists depend on which frames are in use, and not on the calls that
led there. -/
theorem mem_freeList_iff {z : ℕ} (hz : GoodZone z) {s : State} {live : List ℕ}
    (h : Run Step (init z, []) (s, live)) :
    ∃ L : ℕ → List ℕ, (∀ k, k < maxOrder → Chain s.headerNext (s.freeLists k) (L k)) ∧
      ∀ k, k < maxOrder → ∀ i, i ∈ L k ↔ FreeRun z s live i k ∧
        ∀ j m, FreeRun z s live j m → j ≤ i → i < j + 2 ^ m → m ≤ k := by
  obtain ⟨L, hinv, hc⟩ := exists_inv_of_run hz h
  refine ⟨L, hinv.chain, fun k hk i => ⟨fun hi => ?_, ?_⟩⟩
  · have hmem : (⟨i, k⟩ : Block) ∈ freeBlocks L := mem_freeBlocks.mpr ⟨hk, hi⟩
    exact ⟨hinv.freeRun hmem, fun j m hrun => hrun.le_order hinv hc hmem⟩
  · rintro ⟨hrun, hmax⟩
    -- The block that has the run is a free run with frame `i`, hence no longer than it.
    obtain ⟨b, hb, hkb, hbi⟩ := hrun.exists_block hinv hc
    have hbrun := hinv.freeRun hb
    obtain rfl : b.order = k := le_antisymm (hmax _ _ hbrun hbi.1 hbi.2) hkb
    obtain rfl : b.start = i := Block.Aligned.start_eq hbrun.aligned hrun.aligned hbi
    exact (mem_freeBlocks.mp hb).2

/-- A page is taken from the first zone of the kernel, and its frame is on no list. -/
theorem mem_freeList_iff_one_page :
    ∃ p s, ∃ L : ℕ → List ℕ, allocate 512 pageSize (init 0x10000000) = .ok (p, s) ∧
      (∀ k, k < maxOrder → Chain s.headerNext (s.freeLists k) (L k)) ∧
      ∀ k, k < maxOrder → ∀ i ∈ L k, ¬(blockOf 0x10000000 s p).Covers i := by
  have hz : GoodZone 0x10000000 := ⟨by decide, by decide, by decide⟩
  obtain ⟨p, s, hs, -, hrun⟩ := exists_run_onePage hz
  obtain ⟨L, hL, hmem⟩ := mem_freeList_iff hz hrun
  refine ⟨p, s, L, hs, hL, fun k hk i hi => ?_⟩
  exact ((hmem k hk i).mp hi).1.free i le_rfl (by simp) p (by simp)

/-! ### Requests that cannot be served -/

/-- **The order of a request** is the least one whose blocks are long enough. -/
theorem order_of_least {fuel size k : ℕ} (hk : k < maxOrder)
    (hle : size ≤ pageSize * 2 ^ k) (hleast : ∀ j < k, pageSize * 2 ^ j < size)
    (hf : maxOrderNrPages ≤ fuel) : Order fuel size k := by
  rw [maxOrderNrPages_eq] at hf
  rw [maxOrder_eq] at hk
  have hpage : pageSize = 2 ^ 12 := rfl
  rw [hpage, ← pow_add] at hle
  obtain ⟨j, hj, hsize, hlow⟩ := exists_least_two_pow hle
  refine ⟨2 ^ j, roundUpToPowOf2_eq (by omega) hsize hlow (by omega),
    (Nat.two_pow_pos j).ne', ?_⟩
  rw [sizeToOrder, hpage]
  rcases Nat.lt_or_ge j 12 with hlt | hge
  · -- A request below one page is rounded to less than a page, and has the order `0`.
    obtain rfl : k = 0 := by
      by_contra hne
      have hone := hleast 0 (Nat.pos_of_ne_zero hne)
      rw [hpage, pow_zero, mul_one] at hone
      exact absurd (hone.trans_le hsize) (not_lt.mpr (Nat.pow_le_pow_right (by norm_num) hlt.le))
    rw [Nat.div_eq_of_lt (Nat.pow_lt_pow_right (by norm_num) hlt)]
    exact log2_zero (by omega)
  · obtain ⟨m, rfl⟩ := Nat.exists_eq_add_of_le hge
    obtain rfl : m = k := by
      refine le_antisymm (by omega) (not_lt.mp fun hmk => ?_)
      have hone := hleast m hmk
      rw [hpage, ← pow_add] at hone
      omega
    have hdiv : 2 ^ (12 + m) / 2 ^ 12 = 2 ^ m := by
      rw [pow_add, Nat.mul_div_cancel_left _ (by norm_num)]
    have hint : toInt (2 ^ m) = 2 ^ m := by
      rw [toInt_of_lt (Nat.pow_lt_pow_right (by norm_num) (by omega))]
      push_cast
      rfl
    rw [hdiv, hint]
    exact log2_two_pow m (by omega)

/-- **Allocation fails only when it must.** In every state a run from the constructor
reaches, a request of at most `2` MiB returns; with `k` the least order that is
large enough for it, it returns the null pointer if and only if no aligned run of
`2 ^ k` frames is free of live blocks, and otherwise the address of such a run, which
is then a live block of order `k`. -/
theorem allocate_eq_null_iff {z : ℕ} (hz : GoodZone z) {s : State} {live : List ℕ}
    (h : Run Step (init z, []) (s, live)) {size k fuel : ℕ} (hsize : size ≤ 2 * 1024 * 1024)
    (hle : size ≤ pageSize * 2 ^ k) (hleast : ∀ j < k, pageSize * 2 ^ j < size)
    (hf : maxOrderNrPages ≤ fuel) :
    ∃ p s', allocate fuel size s = .ok (p, s') ∧
      (p = 0 ↔ ¬∃ i, FreeRun z s live i k) ∧
      (p ≠ 0 → ∃ i, FreeRun z s live i k ∧ p = z + i * pageSize ∧ blockOf z s' p = ⟨i, k⟩ ∧
        Step (s, live) (s', p :: live)) := by
  have hk : k < maxOrder := by
    rw [maxOrder_eq]
    by_contra hge
    have := hleast 9 (by omega)
    rw [pageSize_eq] at this
    omega
  have hord := order_of_least hk hle hleast hf
  obtain ⟨L, hinv, hc⟩ := exists_inv_of_run hz h
  obtain ⟨⟨p, s'⟩, hcall, hcase⟩ := (hinv.allocate fuel size).exists_ok ⟨⟨k, hord⟩, hf⟩
  refine ⟨p, s', hcall, ?_⟩
  rcases hcase with ⟨hnone, hempty⟩ | ⟨order, i, L', hord', hp, hinv', -⟩
  · obtain ⟨rfl, rfl⟩ : p = 0 ∧ s' = s := by simpa using hnone
    refine ⟨iff_of_true rfl ?_, fun hne => absurd rfl hne⟩
    -- A free run would lie in a block of a list that the search has found empty.
    rintro ⟨i, hrun⟩
    obtain ⟨b, hb, hkb, -⟩ := hrun.exists_block hinv hc
    obtain ⟨hlt, hmem⟩ := mem_freeBlocks.mp hb
    have hchain := hinv.chain b.order hlt
    rw [hempty k hord b.order hkb hlt] at hchain
    rw [hchain.eq_nil] at hmem
    cases hmem
  · obtain rfl : order = k := hord'.unique hord
    have hi : i < maxOrderNrPages := hinv'.tiles.lt_of_mem (b := ⟨i, order⟩) (by simp)
    obtain rfl : p = z + i * pageSize := hp.trans (toSize_frame hz hi)
    have hne : z + i * pageSize ≠ 0 := by
      have := hz.pos
      omega
    have hrun : FreeRun z s live i order := by
      refine ⟨hinv'.tiles.aligned ⟨i, order⟩ (by simp), hinv'.tiles.le ⟨i, order⟩ (by simp),
        fun f h1 h2 q hq hqf => ?_⟩
      have htiles : Tiles maxOrderNrPages (⟨i, order⟩ :: (freeBlocks L' ++ live.map (blockOf z s))) :=
        hinv'.tiles.perm List.perm_middle
      exact htiles.covering.not_covers (by simp [List.mem_map_of_mem hq]) ⟨h1, h2⟩ hqf
    have hstep : Step (s, live)
        (s', if z + i * pageSize = 0 then live else (z + i * pageSize) :: live) :=
      Step.allocate fuel size hcall
    rw [if_neg hne] at hstep
    refine ⟨iff_of_false hne (not_not.mpr ⟨i, hrun⟩), fun _ => ⟨i, hrun, rfl, ?_, hstep⟩⟩
    have ho : s'.headerOrder i = order := hinv'.order ⟨i, order⟩ (by simp)
    rw [blockOf, frame_div, ho]

/-- Five pages of a fresh zone get a block of eight. -/
theorem allocate_eq_null_iff_five_pages :
    ∃ p s, allocate 512 (5 * pageSize) (init 0x10000000) = .ok (p, s) ∧ p ≠ 0 ∧
      ∃ i, blockOf 0x10000000 s p = ⟨i, 3⟩ := by
  have hz : GoodZone 0x10000000 := ⟨by decide, by decide, by decide⟩
  obtain ⟨p, s, hcall, hnull, hsome⟩ := allocate_eq_null_iff hz Relation.ReflTransGen.refl
    (show 5 * pageSize ≤ 2 * 1024 * 1024 by decide) (show 5 * pageSize ≤ pageSize * 2 ^ 3 by decide)
    (by decide) (le_refl 512)
  have hrun : FreeRun 0x10000000 (init 0x10000000) [] 0 3 :=
    ⟨dvd_zero _, by decide, fun _ _ _ _ hp => absurd hp (by simp)⟩
  have hne : p ≠ 0 := fun hp => hnull.mp hp ⟨0, hrun⟩
  obtain ⟨i, -, -, hblock, -⟩ := hsome hne
  exact ⟨p, s, hcall, hne, i, hblock⟩

end Valkyrie.BuddyAllocator
