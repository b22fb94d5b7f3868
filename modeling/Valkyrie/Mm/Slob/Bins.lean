import Valkyrie.Mm.Slob.Tiling

/-!
# The bins of the slob allocator

The ghost state of the bins is a list of chunk starts for each bin.
`Valkyrie.SlobAllocator.Binned` says that the links in memory run along these
lists, that every entry is the start of a chunk of a size the bin is for, and
that an entry whose chunk is flagged as allocated reaches to the end of its page.
(Such entries exist: the rest of a page that is given up for a new one is put on
a bin as it is.)

A chunk need not be on a bin to be free. `bin_del_entry` is called on every free
neighbour of a chunk that is freed, so what it does is stated for both cases at
once: it takes the chunk off its bin if it is there
(`Valkyrie.SlobAllocator.Binned.binDelEntry`).
-/

namespace Valkyrie

namespace SlobAllocator

open Function Exec

/-- The bin for chunks of a size. -/
def binOf (n : ℕ) : Bin := if 0x90 ≤ n then .unsorted else .regular (n / 16 - 2)

/-- **The links run along the ghost lists.** -/
structure Binned (s : State) (C : List Span) (B : Bin → List ℕ) : Prop where
  starts : ∀ c ∈ C, ∀ d ∈ C, c.start = d.start → c = d
  chain : ∀ b, Chain s.next (s.bins b) (B b)
  sound : ∀ b, ∀ a ∈ B b, ∃ c ∈ C, c.start = a ∧ 32 ≤ c.size ∧ binOf c.size = b
  flag : ∀ b, ∀ c ∈ C, c.start ∈ B b → isAllocated s c.start → pageSize ∣ c.stop

/-- The bin that the index of a chunk names. -/
theorem binGetHead_eq {s : State} {a n : ℕ} (hn : 32 ≤ n) (h : s.index a = (n / 16 : ℕ) - 2) :
    binGetHead s a = .ok (binOf n) := by
  rw [binGetHead, binOf, h]
  have hbins : nrBins = 7 := rfl
  by_cases hbig : 0x90 ≤ n
  · rw [if_pos hbig, if_pos (by omega)]
  · rw [if_neg hbig, if_neg (by omega), if_neg (by omega)]
    have hEq : ((n / 16 : ℕ) - 2 : ℤ).toNat = n / 16 - 2 := by omega
    rw [hEq]

namespace Binned

variable {s s' : State} {C C' : List Span} {B : Bin → List ℕ} {c d : Span} {b : Bin}

/-- A chunk is on no bin but its own. -/
theorem bin_eq (h : Binned s C B) (hc : c ∈ C) (hmem : c.start ∈ B b) :
    b = binOf c.size ∧ 32 ≤ c.size := by
  obtain ⟨d, hd, hs, h32, hbin⟩ := h.sound b _ hmem
  obtain rfl : d = c := h.starts d hd c hc hs
  exact ⟨hbin.symm, h32⟩

/-- **The tiling may change around the chunks on the bins**, and so may all links
and flags but theirs. -/
theorem retile (h : Binned s C B) (hstarts : ∀ c ∈ C', ∀ d ∈ C', c.start = d.start → c = d)
    (hbins : s'.bins = s.bins) (hnext : ∀ b, ∀ a ∈ B b, s'.next a = s.next a)
    (hkeep : ∀ b, ∀ c ∈ C, c.start ∈ B b → c ∈ C')
    (hflag : ∀ b, ∀ a ∈ B b, isAllocated s' a = isAllocated s a) : Binned s' C' B where
  starts := hstarts
  chain b := by
    rw [hbins]
    exact (h.chain b).congr (hnext b)
  sound b a ha := by
    obtain ⟨c, hc, hs, h32, hbin⟩ := h.sound b a ha
    exact ⟨c, hkeep b c hc (hs ▸ ha), hs, h32, hbin⟩
  flag b c hc hmem hal := by
    obtain ⟨d, hd, hs, -⟩ := h.sound b _ hmem
    obtain rfl : d = c := hstarts d (hkeep b d hd (hs ▸ hmem)) c hc hs
    exact h.flag b d hd hmem ((hflag b _ hmem).symm.trans hal)

/-- The order of the chunks does not matter. -/
theorem perm (h : Binned s C B) (hp : C.Perm C') : Binned s C' B :=
  h.retile (fun c hc d hd => h.starts c (hp.mem_iff.mpr hc) d (hp.mem_iff.mpr hd)) rfl
    (fun _ _ _ => rfl) (fun _ _ hc _ => hp.mem_iff.mp hc) fun _ _ _ => rfl

/-- Taking a chunk off its bin, whatever the links become. -/
theorem detach (h : Binned s C B) (hc : c ∈ C) {next : ℕ → Option ℕ} {bins : Bin → Option ℕ}
    (hchain : Chain next (bins (binOf c.size)) ((B (binOf c.size)).erase c.start))
    (hnext : ∀ a, a ∉ B (binOf c.size) → a ≠ c.start → next a = s.next a)
    (hbins : ∀ b, b ≠ binOf c.size → bins b = s.bins b) :
    Binned { s with next := next, bins := bins } C fun b => (B b).erase c.start where
  starts := h.starts
  chain b := by
    by_cases hb : b = binOf c.size
    · rw [hb]
      exact hchain
    · have hout : c.start ∉ B b := fun hmem => hb (h.bin_eq hc hmem).1
      change Chain next (bins b) ((B b).erase c.start)
      rw [hbins b hb, List.erase_of_not_mem hout]
      refine (h.chain b).congr fun a ha => hnext a (fun hmem => hb ?_) fun he => hout (he ▸ ha)
      obtain ⟨d, hd, rfl, -, hbin⟩ := h.sound b a ha
      exact hbin.symm.trans (h.bin_eq hd hmem).1.symm
  sound b a ha := h.sound b a (List.mem_of_mem_erase ha)
  flag b d hd hmem := h.flag b d hd (List.mem_of_mem_erase hmem)

/-- A chunk that was taken off its bin is on none. -/
theorem notMem_erase (h : Binned s C B) (a : ℕ) (b : Bin) : a ∉ (B b).erase a :=
  (h.chain b).nodup.not_mem_erase

theorem detach_head (h : Binned s C B) (hc : c ∈ C) (hhead : s.bins (binOf c.size) = some c.start) :
    Binned { s with
      next := update s.next c.start none
      bins := update s.bins (binOf c.size) (s.next c.start) } C fun b => (B b).erase c.start := by
  have hch := h.chain (binOf c.size)
  rw [hhead] at hch
  obtain ⟨t, ht, htail⟩ := hch.exists_cons
  have hnd := hch.nodup
  rw [ht] at hnd
  refine h.detach hc ?_ (fun a _ hne => update_of_ne hne _ _) fun b hb => update_of_ne hb _ _
  rw [ht, List.erase_cons_head, update_self]
  exact htail.update (List.nodup_cons.mp hnd).1 none

/-- **`bin_del_entry`** takes a chunk off its bin, if it is there. -/
theorem binDelEntry (h : Binned s C B) (hc : c ∈ C) (h32 : 32 ≤ c.size) (hpos : c.start ≠ 0)
    (hidx : s.index c.start = (c.size / 16 : ℕ) - 2) (fuel : ℕ) :
    Meets (SlobAllocator.binDelEntry fuel c.start s) (∀ b, (B b).length ≤ fuel) fun s' =>
      ∃ next bins, s' = { s with next := next, bins := bins } ∧
        Binned s' C fun b => (B b).erase c.start := by
  simp only [SlobAllocator.binDelEntry, if_neg hpos, binGetHead_eq h32 hidx, ok_bind]
  have hch := h.chain (binOf c.size)
  by_cases hhead : s.bins (binOf c.size) = some c.start
  · simp only [if_pos hhead]
    exact meets_ok.mpr ⟨_, _, rfl, h.detach_head hc hhead⟩
  · simp only [if_neg hhead]
    by_cases hmem : c.start ∈ B (binOf c.size)
    · obtain ⟨l, l₂, hl⟩ := List.append_of_mem hmem
      cases l with
      | nil =>
        rw [hl] at hch
        exact absurd hch.1 hhead
      | cons p l₁ =>
        rw [hl] at hch
        have hnd := hch.nodup
        refine ((hch.meets_unlinkLoop fuel).weaken fun hf => ?_).bind fun next hnext => ?_
        · have := hf (binOf c.size)
          rw [hl] at this
          simp only [List.cons_append, List.length_cons, List.length_append] at this
          omega
        · refine meets_ok.mpr ⟨next, s.bins, rfl, h.detach hc ?_ (fun a ha _ => ?_) fun b _ => rfl⟩
          · have hout : c.start ∉ p :: l₁ := fun hin =>
              (List.nodup_append.mp (show (p :: l₁ ++ c.start :: l₂).Nodup from hnd)).2.2 _ hin _
                (by simp) rfl
            rw [hl, List.erase_append_right _ hout, List.erase_cons_head]
            exact hnext.1
          · rw [hl] at ha
            exact hnext.2 a ha
    · -- The loop goes through the whole bin and changes nothing.
      refine ((hch.meets_unlinkLoop_of_notMem hmem fuel none).weaken fun hf => hf _).bind ?_
      rintro next rfl
      refine meets_ok.mpr ⟨s.next, s.bins, rfl, h.detach hc ?_ (fun a _ _ => rfl) fun b _ => rfl⟩
      rw [List.erase_of_not_mem hmem]
      exact hch

/-- **`bin_del_head`** takes the front chunk off a regular bin, or any chunk off
the unsorted bin. -/
theorem binDelHead (h : Binned s C B) (hc : c ∈ C) (h32 : 32 ≤ c.size) (hpos : c.start ≠ 0)
    (hidx : s.index c.start = (c.size / 16 : ℕ) - 2)
    (hhead : c.size < 0x90 → s.bins (binOf c.size) = some c.start) (fuel : ℕ) :
    Meets (SlobAllocator.binDelHead fuel c.start s) (∀ b, (B b).length ≤ fuel) fun s' =>
      ∃ next bins, s' = { s with next := next, bins := bins } ∧
        Binned s' C fun b => (B b).erase c.start := by
  have hbins : nrBins = 7 := rfl
  rw [SlobAllocator.binDelHead, if_neg hpos]
  by_cases hbig : 0x90 ≤ c.size
  · rw [if_pos (by rw [hidx]; omega)]
    exact h.binDelEntry hc h32 hpos hidx fuel
  · have hb : Bin.regular (s.index c.start).toNat = binOf c.size := by
      rw [binOf, if_neg hbig, hidx]
      congr 1
      omega
    rw [if_neg (by rw [hidx]; omega), if_neg (by rw [hidx]; omega)]
    have hfront := hhead (by omega)
    simp only [hb, hfront]
    exact meets_ok.mpr ⟨_, _, rfl, h.detach_head hc hfront⟩

/-- **`bin_add_head`** puts a chunk that is on no bin on its own. -/
theorem binAddHead (h : Binned s C B) (hc : c ∈ C) (h32 : 32 ≤ c.size) (hpos : c.start ≠ 0)
    (hidx : s.index c.start = (c.size / 16 : ℕ) - 2) (hout : ∀ b, c.start ∉ B b)
    (hflag : isAllocated s c.start → pageSize ∣ c.stop) :
    ∃ next bins, SlobAllocator.binAddHead c.start s = .ok { s with next := next, bins := bins } ∧
      Binned { s with next := next, bins := bins } C
        (update B (binOf c.size) (c.start :: B (binOf c.size))) := by
  have hfront : s.bins (binOf c.size) ≠ some c.start := by
    intro hc'
    have hch := h.chain (binOf c.size)
    rw [hc'] at hch
    obtain ⟨t, ht, -⟩ := hch.exists_cons
    exact hout (binOf c.size) (by simp [ht])
  refine ⟨update s.next c.start (s.bins (binOf c.size)),
    update s.bins (binOf c.size) (some c.start), ?_, ?_⟩
  · simp only [SlobAllocator.binAddHead, if_neg hpos, binGetHead_eq h32 hidx, ok_bind,
      if_neg hfront]
    rfl
  refine ⟨h.starts, fun b => ?_, fun b a ha => ?_, fun b d hd hmem hal => ?_⟩
  · dsimp only
    by_cases hb : b = binOf c.size
    · rw [hb, update_self, update_self]
      exact (h.chain _).push (hout _)
    · rw [update_of_ne hb, update_of_ne hb]
      exact (h.chain b).update (hout b) _
  · by_cases hb : b = binOf c.size
    · rw [hb, update_self] at ha
      rcases List.mem_cons.mp ha with rfl | ha
      · exact ⟨c, hc, rfl, h32, hb.symm⟩
      · rw [hb]
        exact h.sound _ a ha
    · rw [update_of_ne hb] at ha
      exact h.sound b a ha
  · by_cases hs : d.start = c.start
    · obtain rfl : d = c := h.starts d hd c hc hs
      exact hflag hal
    · refine h.flag b d hd ?_ hal
      by_cases hb : b = binOf c.size
      · rw [hb, update_self] at hmem
        rw [hb]
        exact (List.mem_cons.mp hmem).resolve_left hs
      · rwa [update_of_ne hb] at hmem

end Binned

end SlobAllocator

end Valkyrie
