import Valkyrie.Base.Dyadic
import Valkyrie.Mm.Buddy.Basic

/-!
# The three records of a zone agree

The invariant of the buddy allocator, and what each of its operations does to it.

`Valkyrie.BuddyAllocator.Inv z s L A loose` ties the state `s` of the zone at `z`
to a tiling of it: `L k` are the starts of the free blocks of order `k` in the order of their
list, `A` are the allocated blocks, and `loose` are the blocks that are neither –
the block `allocate` is cutting down and the block `deallocate` is growing are
loose for as long as they are worked on. The blocks of the three kinds together
tile the zone, the header at the start of each carries its order, and the frame
array says of a free block and of an allocated block what it should. Nothing is
said about the header of a frame at which no block starts, nor about the frames
of a loose block: those are the stale headers and the frames not yet marked.

Every operation moves one block:

| operation | the block goes | theorem |
|---|---|---|
| `free_list_del_head`, `free_list_del_entry` | from a list to loose | `Inv.freeListDelEntry` |
| `mark_block_as_allocatable`, `free_list_add_head` | from loose to a list | `Inv.release` |
| `mark_block_as_allocated` | from loose to allocated | `Inv.markBlockAsAllocated` |
| a round of `split_block` | one half of it to a list | `Inv.splitLoop` |
| a round of the merge | and its buddy join | `Inv.mergeLoop` |

The test of the merge looks at the header of the buddy, which may be stale. That
it decides correctly is `Valkyrie.Tiles.buddy_mem`: at the buddy of a block there
starts a block, so its header is not stale after all.
-/

namespace Valkyrie

namespace BuddyAllocator

open Function Exec

theorem maxOrder_eq : maxOrder = 10 := rfl

theorem maxOrderNrPages_eq : maxOrderNrPages = 512 := rfl

/-! ### The free blocks of a family of lists -/

/-- The blocks on the free lists. -/
def freeBlocks (L : ℕ → List ℕ) : List Block :=
  (List.range maxOrder).flatMap fun k => (L k).map fun i => ⟨i, k⟩

theorem mem_freeBlocks {L : ℕ → List ℕ} {b : Block} :
    b ∈ freeBlocks L ↔ b.order < maxOrder ∧ b.start ∈ L b.order := by
  simp only [freeBlocks, List.mem_flatMap, List.mem_range, List.mem_map]
  constructor
  · rintro ⟨k, hk, i, hi, rfl⟩
    exact ⟨hk, hi⟩
  · rintro ⟨hk, hi⟩
    exact ⟨b.order, hk, b.start, hi, rfl⟩

/-- Two families that differ by one element of one list. -/
theorem freeBlocks_perm {L L' : ℕ → List ℕ} {k i : ℕ} (hk : k < maxOrder)
    (hp : (L k).Perm (i :: L' k)) (hne : ∀ k', k' ≠ k → L k' = L' k') :
    (freeBlocks L).Perm (⟨i, k⟩ :: freeBlocks L') := by
  refine flatMap_perm_cons List.nodup_range (List.mem_range.mpr hk) ?_ fun k' hk' => ?_
  · exact hp.map fun i => (⟨i, k⟩ : Block)
  · rw [hne k' hk']

/-! ### Families without buddies -/

/-- **No two blocks of one list are buddies**: nothing is left to merge. -/
def Coalesced (L : ℕ → List ℕ) : Prop :=
  ∀ k, k < maxOrder - 1 → ∀ i ∈ L k, i ^^^ 2 ^ k ∉ L k

namespace Coalesced

variable {L : ℕ → List ℕ} {i k : ℕ}

/-- Taking a block off its list leaves no buddies. -/
theorem erase (h : Coalesced L) {l₁ l₂ : List ℕ} (hL : L k = l₁ ++ i :: l₂) :
    Coalesced (update L k (l₁ ++ l₂)) := by
  intro k' hk' j hj hj'
  by_cases hkk : k' = k
  · subst hkk
    have hsub : ∀ a ∈ l₁ ++ l₂, a ∈ L k' := by
      intro a ha
      rw [hL]
      exact (List.Sublist.append_left (List.sublist_cons_self i l₂) l₁).mem ha
    rw [update_self] at hj hj'
    exact h k' hk' j (hsub j hj) (hsub _ hj')
  · rw [update_of_ne hkk] at hj hj'
    exact h k' hk' j hj hj'

/-- A block whose buddy is not on the list may be linked to it. -/
theorem push (h : Coalesced L) (hi : k < maxOrder - 1 → i ^^^ 2 ^ k ∉ L k) :
    Coalesced (update L k (i :: L k)) := by
  intro k' hk' j hj hj'
  by_cases hkk : k' = k
  · subst hkk
    have hne : ∀ a : ℕ, a ^^^ 2 ^ k' ≠ a := by
      intro a hc
      have hbit := congrArg (fun x => x.testBit k') hc
      simp at hbit
    rw [update_self] at hj hj'
    rcases List.mem_cons.mp hj with rfl | hj <;> rcases List.mem_cons.mp hj' with he | hj'
    · exact hne _ he
    · exact hi hk' hj'
    · rw [← he, Nat.xor_xor_cancel_right] at hi
      exact hi hk' hj
    · exact h k' hk' j hj hj'
  · rw [update_of_ne hkk] at hj hj'
    exact h k' hk' j hj hj'

/-- The one block of a fresh zone has no buddy. -/
theorem init : Coalesced fun k => if k = maxOrder - 1 then [0] else [] := by
  intro k hk i hi
  dsimp only at hi
  rw [if_neg hk.ne] at hi
  cases hi

end Coalesced

/-! ### The invariant -/

/-- **The three records of the zone agree** with a tiling of it by free, allocated
and loose blocks. -/
structure Inv (z : ℕ) (s : State) (L : ℕ → List ℕ) (A loose : List Block) : Prop where
  zone : s.zoneBegin = z
  chain : ∀ k, k < maxOrder → Chain s.headerNext (s.freeLists k) (L k)
  tiles : Tiles maxOrderNrPages (loose ++ (freeBlocks L ++ A))
  order : ∀ b ∈ loose ++ (freeBlocks L ++ A), s.headerOrder b.start = b.order
  index : ∀ i, s.headerIndex i = i
  head : ∀ b ∈ freeBlocks L, s.frameArray b.start = .order b.order
  rest : ∀ b ∈ freeBlocks L, ∀ f, b.Covers f → f ≠ b.start → s.frameArray f = .dontAllocate
  allocated : ∀ b ∈ A, ∀ f, b.Covers f → s.frameArray f = .allocated

/-- A block of a tiling of a zone has one of the orders of the free lists. -/
theorem order_lt_of_tiles {l : List Block} (h : Tiles maxOrderNrPages l) {b : Block} (hb : b ∈ l) :
    b.order < maxOrder := by
  have hle : 2 ^ b.order ≤ 2 ^ 9 := by
    have := h.le b hb
    rw [maxOrderNrPages_eq] at this
    omega
  have := (Nat.pow_le_pow_iff_right (by norm_num : 1 < 2)).mp hle
  rw [maxOrder_eq]
  omega

/-- The constructor starts with one free block. -/
theorem inv_init (z : ℕ) :
    Inv z (init z) (fun k => if k = maxOrder - 1 then [0] else []) [] [] := by
  have hblocks : freeBlocks (fun k => if k = maxOrder - 1 then [0] else []) = [⟨0, 9⟩] := by decide
  refine ⟨rfl, fun k _ => ?_, ?_, ?_, fun _ => rfl, ?_, ?_, by simp⟩
  · simp only [init]
    by_cases hk : k = maxOrder - 1
    · rw [if_pos hk, if_pos hk]
      exact ⟨rfl, rfl⟩
    · rw [if_neg hk, if_neg hk]
      exact rfl
  · rw [hblocks]
    exact Tiles.single 9
  · rw [hblocks]
    simp [init, maxOrder_eq]
  · rw [hblocks]
    simp [init, maxOrder_eq]
  · rw [hblocks]
    intro b hb f _ hf
    rw [List.mem_singleton.mp hb] at hf
    exact if_neg hf

/-! ### The states the operations lead to -/

/-- **The loop over the frame array** writes the entries of a run of frames. -/
theorem setFrames_eq (v : Frame) {i n : ℕ} (h : i + n ≤ maxOrderNrPages) (frames : ℕ → Frame) :
    setFrames v i n frames = .ok fun f => if i ≤ f ∧ f < i + n then v else frames f := by
  induction n generalizing i frames with
  | zero =>
    refine congrArg Except.ok (funext fun f => ?_)
    rw [if_neg (by omega)]
  | succ n ih =>
    have hset : setFrame frames i v = .ok (update frames i v) := if_pos (by omega)
    rw [setFrames, hset]
    change setFrames v (i + 1) n (update frames i v) = _
    rw [ih (by omega)]
    refine congrArg Except.ok (funext fun f => ?_)
    by_cases hfi : f = i
    · rw [hfi, update_self, if_neg (by omega), if_pos (by omega)]
    · rw [update_of_ne hfi]
      exact if_congr (by omega) rfl rfl

/-- The state after a block has been marked as allocated. -/
def markedAllocated (s : State) (b : Block) : State :=
  { s with frameArray := fun f => if b.Covers f then .allocated else s.frameArray f }

/-- The state after a block has been marked as allocatable. -/
def markedAllocatable (s : State) (b : Block) : State :=
  { s with frameArray := fun f =>
      if f = b.start then .order b.order
      else if b.Covers f then .dontAllocate else s.frameArray f }

theorem markBlockAsAllocated_eq {s : State} {i k : ℕ} (hx : s.headerIndex i = i)
    (ho : s.headerOrder i = k) (hle : i + 2 ^ k ≤ maxOrderNrPages) :
    markBlockAsAllocated s i = .ok (markedAllocated s ⟨i, k⟩) := by
  simp only [markBlockAsAllocated, hx, ho, pow_eq, setFrames_eq _ hle]
  rfl

theorem markBlockAsAllocatable_eq {s : State} {i k : ℕ} (hx : s.headerIndex i = i)
    (ho : s.headerOrder i = k) (hle : i + 2 ^ k ≤ maxOrderNrPages) :
    markBlockAsAllocatable s i = .ok (markedAllocatable s ⟨i, k⟩) := by
  have hpos := Nat.two_pow_pos k
  have hset : setFrame s.frameArray i (.order k) = .ok (update s.frameArray i (.order k)) :=
    if_pos (by omega)
  have hrest := setFrames_eq .dontAllocate (i := i + 1) (n := 2 ^ k - 1) (by omega)
    (update s.frameArray i (.order k))
  simp only [markBlockAsAllocatable, hx, ho, pow_eq, hset, ok_bind, hrest]
  refine congrArg Except.ok (congrArg (fun fr => { s with frameArray := fr }) (funext fun f => ?_))
  by_cases hf : f = i
  · rw [if_neg (by omega), hf, update_self, if_pos rfl]
  · rw [update_of_ne hf, if_neg hf]
    exact if_congr (by simp only [Block.Covers]; omega) rfl rfl

/-- The state after a block has been linked in front of the list of an order. -/
def pushed (s : State) (b : Block) : State :=
  { s with
    headerNext := update s.headerNext b.start (s.freeLists b.order)
    freeLists := update s.freeLists b.order (some b.start) }

theorem freeListAddHead_eq {s : State} {i k : ℕ} (ho : s.headerOrder i = k) (hk : k < maxOrder)
    (hne : s.freeLists k ≠ some i) : freeListAddHead s i = .ok (pushed s ⟨i, k⟩) := by
  simp only [freeListAddHead, ho]
  rw [if_neg (by omega), if_neg hne]
  rfl

/-- The state after a block has been cut in half: both halves have the lower
order. -/
def halved (s : State) (i k : ℕ) : State :=
  { s with headerOrder := update (update s.headerOrder i k) (i ^^^ 2 ^ k) k }

/-- The state after two buddies have been merged: the lower one has the higher
order. -/
def merged (s : State) (i k : ℕ) : State :=
  { s with headerOrder := update s.headerOrder i (k + 1) }

namespace Inv

variable {z : ℕ} {s : State} {L : ℕ → List ℕ} {A A' loose : List Block} {i k : ℕ}

/-- The allocated blocks are a set: their order does not matter. -/
theorem perm (h : Inv z s L A loose) (hp : A.Perm A') : Inv z s L A' loose where
  zone := h.zone
  chain := h.chain
  tiles := h.tiles.perm ((hp.append_left _).append_left _)
  order b hb := h.order b (((hp.append_left _).append_left _).mem_iff.mpr hb)
  index := h.index
  head := h.head
  rest := h.rest
  allocated b hb := h.allocated b (hp.mem_iff.mpr hb)

/-- An allocated block may be taken in hand. -/
theorem loosen (h : Inv z s L (⟨i, k⟩ :: A) loose) : Inv z s L A (⟨i, k⟩ :: loose) := by
  have hperm : (loose ++ (freeBlocks L ++ ⟨i, k⟩ :: A)).Perm
      (⟨i, k⟩ :: (loose ++ (freeBlocks L ++ A))) :=
    (List.perm_middle.append_left loose).trans List.perm_middle
  exact ⟨h.zone, h.chain, h.tiles.perm hperm, fun b hb => h.order b (hperm.mem_iff.mpr hb), h.index,
    h.head, h.rest, fun b hb => h.allocated b (by simp [hb])⟩

/-- What a loose block is: its header, its order, its alignment. -/
theorem loose_facts (h : Inv z s L A (⟨i, k⟩ :: loose)) :
    s.headerOrder i = k ∧ k < maxOrder ∧ i + 2 ^ k ≤ maxOrderNrPages ∧ 2 ^ k ∣ i :=
  ⟨h.order ⟨i, k⟩ (by simp), order_lt_of_tiles h.tiles (b := ⟨i, k⟩) (by simp),
    h.tiles.le ⟨i, k⟩ (by simp), h.tiles.aligned ⟨i, k⟩ (by simp)⟩

/-- A loose block is on no free list. -/
theorem notMem_of_loose (h : Inv z s L A (⟨i, k⟩ :: loose)) {k' : ℕ} (hk' : k' < maxOrder) :
    i ∉ L k' := by
  intro hi
  have hmem : (⟨i, k'⟩ : Block) ∈ loose ++ (freeBlocks L ++ A) := by
    simp [mem_freeBlocks, hk', hi]
  exact h.tiles.start_ne hmem rfl

/-- **A loose block becomes an allocated one.** -/
theorem grant (h : Inv z s L A (⟨i, k⟩ :: loose)) :
    Inv z (markedAllocated s ⟨i, k⟩) L (⟨i, k⟩ :: A) loose := by
  have hperm : (⟨i, k⟩ :: (loose ++ (freeBlocks L ++ A))).Perm
      (loose ++ (freeBlocks L ++ ⟨i, k⟩ :: A)) :=
    ((List.perm_middle.append_left loose).trans List.perm_middle).symm
  have hout : ∀ b ∈ freeBlocks L ++ A, ∀ f, b.Covers f → ¬Block.Covers ⟨i, k⟩ f :=
    fun b hb f hf hc => h.tiles.covering.not_covers (List.mem_append_right loose hb) hc hf
  refine ⟨h.zone, h.chain, h.tiles.perm hperm, fun b hb => h.order b (hperm.mem_iff.mpr hb), h.index,
    fun b hb => ?_, fun b hb f hf hne => ?_, fun b hb f hf => ?_⟩
  · exact (if_neg (hout b (by simp [hb]) _ b.covers_start)).trans (h.head b hb)
  · exact (if_neg (hout b (by simp [hb]) f hf)).trans (h.rest b hb f hf hne)
  · rcases List.mem_cons.mp hb with rfl | hb
    · exact if_pos hf
    · exact (if_neg (hout b (by simp [hb]) f hf)).trans (h.allocated b hb f hf)

/-! ### The free lists -/

/-- A loose block is not in front of the list of its order. -/
theorem front_ne (h : Inv z s L A (⟨i, k⟩ :: loose)) : s.freeLists k ≠ some i := by
  obtain ⟨-, hk, -⟩ := h.loose_facts
  intro hc
  have hch := h.chain k hk
  rw [hc] at hch
  obtain ⟨t, ht, -⟩ := hch.exists_cons
  exact h.notMem_of_loose hk (by simp [ht])

/-- **A loose block goes to its free list**, marked and linked in either order. -/
theorem release (h : Inv z s L A (⟨i, k⟩ :: loose)) :
    Inv z (pushed (markedAllocatable s ⟨i, k⟩) ⟨i, k⟩) (update L k (i :: L k)) A loose := by
  obtain ⟨-, hk, -, -⟩ := h.loose_facts
  have hfree : (freeBlocks (update L k (i :: L k))).Perm (⟨i, k⟩ :: freeBlocks L) := by
    refine freeBlocks_perm hk ?_ fun k' hk' => update_of_ne hk' _ _
    rw [update_self]
  have hperm : (⟨i, k⟩ :: (loose ++ (freeBlocks L ++ A))).Perm
      (loose ++ (freeBlocks (update L k (i :: L k)) ++ A)) :=
    List.perm_middle.symm.trans ((hfree.symm.append_right A).append_left loose)
  have hout : ∀ b ∈ freeBlocks L ++ A, ∀ f, b.Covers f →
      (markedAllocatable s ⟨i, k⟩).frameArray f = s.frameArray f := by
    intro b hb f hf
    have hnc : ¬Block.Covers ⟨i, k⟩ f :=
      fun hc => h.tiles.covering.not_covers (List.mem_append_right loose hb) hc hf
    have hne : f ≠ i := fun hc => hnc (hc ▸ Block.covers_start ⟨i, k⟩)
    exact (if_neg hne).trans (if_neg hnc)
  refine ⟨h.zone, fun k' hk' => ?_, h.tiles.perm hperm, fun b hb => h.order b (hperm.mem_iff.mpr hb),
    h.index, fun b hb => ?_, fun b hb f hf hne => ?_, fun b hb f hf => ?_⟩
  · have hnot := h.notMem_of_loose hk'
    by_cases hkk : k' = k
    · rw [hkk] at hnot ⊢
      simp only [pushed, update_self]
      exact (h.chain k hk).push hnot
    · simp only [pushed, update_of_ne hkk]
      exact (h.chain k' hk').update hnot _
  · rcases List.mem_cons.mp (hfree.mem_iff.mp hb) with rfl | hb
    · exact if_pos rfl
    · exact (hout b (by simp [hb]) _ b.covers_start).trans (h.head b hb)
  · rcases List.mem_cons.mp (hfree.mem_iff.mp hb) with rfl | hb
    · exact (if_neg hne).trans (if_pos hf)
    · exact (hout b (by simp [hb]) f hf).trans (h.rest b hb f hf hne)
  · exact (hout b (by simp [hb]) f hf).trans (h.allocated b hb f hf)

/-- The cells of different lists are different. -/
theorem notMem_of_ne (h : Inv z s L A loose) {k k' : ℕ} (hk : k < maxOrder) (hk' : k' < maxOrder)
    (hne : k' ≠ k) (hi : i ∈ L k) : i ∉ L k' := by
  intro hi'
  have h1 := h.order ⟨i, k⟩ (by simp [mem_freeBlocks, hk, hi])
  have h2 := h.order ⟨i, k'⟩ (by simp [mem_freeBlocks, hk', hi'])
  exact hne (h2.symm.trans h1)

/-- **A block leaves its free list** and is loose. The hypotheses are what the
two ways of unlinking have in common. -/
theorem detach (h : Inv z s L A loose) (hk : k < maxOrder) {l₁ l₂ : List ℕ}
    (hL : L k = l₁ ++ i :: l₂) {next : ℕ → Option ℕ} {lists : ℕ → Option ℕ}
    (hchain : Chain next (lists k) (l₁ ++ l₂)) (hnext : ∀ a, a ∉ L k → next a = s.headerNext a)
    (hlists : ∀ k', k' ≠ k → lists k' = s.freeLists k') :
    Inv z { s with headerNext := next, freeLists := lists } (update L k (l₁ ++ l₂)) A
      (⟨i, k⟩ :: loose) := by
  have hfree : (freeBlocks L).Perm (⟨i, k⟩ :: freeBlocks (update L k (l₁ ++ l₂))) := by
    refine freeBlocks_perm hk ?_ fun k' hk' => (update_of_ne hk' _ _).symm
    rw [update_self, hL]
    exact List.perm_middle
  have hperm : (loose ++ (freeBlocks L ++ A)).Perm
      (⟨i, k⟩ :: (loose ++ (freeBlocks (update L k (l₁ ++ l₂)) ++ A))) :=
    ((hfree.append_right A).append_left loose).trans List.perm_middle
  have hmem : ∀ b ∈ freeBlocks (update L k (l₁ ++ l₂)), b ∈ freeBlocks L :=
    fun b hb => hfree.mem_iff.mpr (List.mem_cons_of_mem _ hb)
  refine ⟨h.zone, fun k' hk' => ?_, h.tiles.perm hperm, fun b hb => h.order b (hperm.mem_iff.mpr hb),
    h.index, fun b hb => h.head b (hmem b hb), fun b hb => h.rest b (hmem b hb), h.allocated⟩
  by_cases hkk : k' = k
  · rw [hkk, update_self]
    exact hchain
  · rw [update_of_ne hkk]
    change Chain next (lists k') (L k')
    rw [hlists k' hkk]
    exact (h.chain k' hk').congr fun a ha => hnext a (h.notMem_of_ne hk' hk (Ne.symm hkk) ha)

/-- `free_list_del_head` on the block in front of a list. -/
theorem freeListDelHead (h : Inv z s L A loose) (hk : k < maxOrder)
    (hi : s.freeLists k = some i) :
    ∃ t s', L k = i :: t ∧ BuddyAllocator.freeListDelHead s i = .ok s' ∧
      Inv z s' (update L k t) A (⟨i, k⟩ :: loose) := by
  have hch := h.chain k hk
  rw [hi] at hch
  obtain ⟨t, ht, htail⟩ := hch.exists_cons
  have hit : i ∉ t := by
    have hnd := (h.chain k hk).nodup
    rw [ht] at hnd
    exact (List.nodup_cons.mp hnd).1
  have ho : s.headerOrder i = k := h.order ⟨i, k⟩ (by simp [mem_freeBlocks, hk, ht])
  refine ⟨t, { s with
    freeLists := update s.freeLists k (s.headerNext i)
    headerNext := update s.headerNext i none }, ht, ?_, ?_⟩
  · simp only [BuddyAllocator.freeListDelHead, ho, hi]
    exact if_neg (by omega)
  · refine h.detach hk (show L k = [] ++ i :: t from ht) ?_ (fun a ha => ?_) fun k' hk' => ?_
    · rw [update_self]
      exact htail.update hit none
    · exact update_of_ne (fun hc => ha (by simp [ht, hc])) _ _
    · exact update_of_ne hk' _ _

/-- A list of starts of blocks is at most as long as the zone. -/
theorem length_le (h : Inv z s L A loose) (hk : k < maxOrder) : (L k).length ≤ maxOrderNrPages := by
  have hsub : L k ⊆ List.range maxOrderNrPages := by
    intro i hi
    exact List.mem_range.mpr (h.tiles.lt_of_mem (b := ⟨i, k⟩) (by simp [mem_freeBlocks, hk, hi]))
  have hlen := ((h.chain k hk).nodup.subperm hsub).length_le
  rwa [List.length_range] at hlen

/-- **`free_list_del_entry`** on a block of a list. -/
theorem freeListDelEntry (h : Inv z s L A loose) (hk : k < maxOrder) (hi : i ∈ L k) (fuel : ℕ) :
    Meets (BuddyAllocator.freeListDelEntry fuel s i) (maxOrderNrPages ≤ fuel) fun s' =>
      ∃ l₁ l₂, L k = l₁ ++ i :: l₂ ∧
        Inv z s' (update L k (l₁ ++ l₂)) A (⟨i, k⟩ :: loose) := by
  have ho : s.headerOrder i = k := h.order ⟨i, k⟩ (by simp [mem_freeBlocks, hk, hi])
  simp only [BuddyAllocator.freeListDelEntry, ho]
  rw [if_neg (by omega)]
  by_cases hhead : s.freeLists k = some i
  · rw [if_pos hhead]
    obtain ⟨t, s', ht, hs', hinv⟩ := h.freeListDelHead hk hhead
    rw [hs']
    exact meets_ok.mpr ⟨[], t, ht, hinv⟩
  · rw [if_neg hhead]
    -- The block is not in front, so the walk meets at least one block before it.
    obtain ⟨l₁, l₂, hL⟩ := List.append_of_mem hi
    have hch := h.chain k hk
    have hlen := h.length_le hk
    rw [hL] at hch hlen
    cases l₁ with
    | nil => exact absurd hch.1 hhead
    | cons p l₁ =>
      have hwalk := Chain.meets_unlinkLoop hch fuel
      have hlong : l₁.length + 2 ≤ maxOrderNrPages := by
        simp only [List.cons_append, List.length_cons, List.length_append] at hlen
        omega
      refine Meets.bind (Meets.weaken hwalk fun hf => hlong.trans hf) fun next hnext => ?_
      refine meets_ok.mpr ⟨p :: l₁, l₂, hL, ?_⟩
      refine h.detach hk hL hnext.1 (fun a ha => hnext.2 a ?_) fun _ _ => rfl
      rwa [hL] at ha

/-! ### Cutting a block down -/

/-- The buddy of a loose block below the greatest order is in the pool. -/
theorem buddy_lt (h : Inv z s L A (⟨i, k⟩ :: loose)) (hk : k + 1 < maxOrder) :
    i ^^^ 2 ^ k < maxOrderNrPages := by
  obtain ⟨-, -, hle, -⟩ := h.loose_facts
  have hpos := Nat.two_pow_pos k
  rw [maxOrderNrPages_eq] at hle
  rw [maxOrder_eq] at hk
  exact Nat.xor_lt_two_pow (n := 9) (by omega) (Nat.pow_lt_pow_right (by norm_num) (by omega))

/-- **A loose block becomes two loose halves.** -/
theorem halve (h : Inv z s L A (⟨i, k + 1⟩ :: loose)) :
    Inv z (halved s i k) L A (⟨i ^^^ 2 ^ k, k⟩ :: ⟨i, k⟩ :: loose) := by
  have htiles := h.tiles.split
  refine ⟨h.zone, h.chain, htiles, fun b hb => ?_, h.index, h.head, h.rest, h.allocated⟩
  rcases List.mem_cons.mp hb with rfl | hb
  · exact update_self _ _ _
  · have hne : b.start ≠ i ^^^ 2 ^ k := htiles.start_ne hb
    refine (update_of_ne hne _ _).trans ?_
    rcases List.mem_cons.mp hb with rfl | hb
    · exact update_self _ _ _
    · have hne' : b.start ≠ i := h.tiles.start_ne hb
      exact (update_of_ne hne' _ _).trans (h.order b (List.mem_cons_of_mem _ hb))

/-- One round of the loop of `split_block`: the upper half goes to its list. -/
theorem splitLoop_succ (h : Inv z s L A (⟨i, k + 1⟩ :: loose)) {t : ℕ} (ht : t < k + 1) (n : ℕ) :
    BuddyAllocator.splitLoop t (n + 1) s i =
      BuddyAllocator.splitLoop t n
        (pushed (markedAllocatable (halved s i k) ⟨i ^^^ 2 ^ k, k⟩) ⟨i ^^^ 2 ^ k, k⟩) i := by
  obtain ⟨ho, hk, -⟩ := h.loose_facts
  have hhalf := h.halve
  obtain ⟨hho, hhk, hhle, -⟩ := hhalf.loose_facts
  have hbuddy : getBuddy { s with headerOrder := update s.headerOrder i k } i =
      .ok (i ^^^ 2 ^ k) := by
    have hlt : i ^^^ 2 ^ k < maxOrderNrPages := hhalf.tiles.lt_of_mem (b := ⟨i ^^^ 2 ^ k, k⟩) (by simp)
    simp only [getBuddy, h.index, update_self, Nat.one_shiftLeft]
    exact if_pos hlt
  have hadd : freeListAddHead (markedAllocatable (halved s i k) ⟨i ^^^ 2 ^ k, k⟩) (i ^^^ 2 ^ k) =
      .ok (pushed (markedAllocatable (halved s i k) ⟨i ^^^ 2 ^ k, k⟩) ⟨i ^^^ 2 ^ k, k⟩) :=
    freeListAddHead_eq hho hhk hhalf.front_ne
  rw [BuddyAllocator.splitLoop, ho, if_pos ⟨Nat.succ_pos k, ht⟩]
  simp only [Nat.add_sub_cancel, hbuddy, ok_bind, update_self]
  change (markBlockAsAllocatable (halved s i k) (i ^^^ 2 ^ k) >>= _) = _
  rw [markBlockAsAllocatable_eq (hhalf.index _) hho hhle, ok_bind, hadd, ok_bind]

/-- **The loop of `split_block`** leaves the block with the target order, or with
its own if that is smaller. The half that goes to its list is the buddy of the half
that does not. -/
theorem splitLoop (t : ℕ) {n : ℕ} (h : Inv z s L A (⟨i, k⟩ :: loose)) (hn : k ≤ n) :
    ∃ s' L', BuddyAllocator.splitLoop t n s i = .ok s' ∧
      Inv z s' L' A (⟨i, min k t⟩ :: loose) ∧ (Coalesced L → Coalesced L') := by
  induction n generalizing s L k with
  | zero =>
    obtain ⟨ho, -⟩ := h.loose_facts
    obtain rfl : k = 0 := by omega
    refine ⟨s, L, ?_, by rwa [Nat.zero_min], id⟩
    rw [BuddyAllocator.splitLoop, if_neg (by omega)]
  | succ n ih =>
    obtain ⟨ho, -⟩ := h.loose_facts
    rcases Nat.lt_or_ge t k with htk | htk
    · obtain ⟨k, rfl⟩ := Nat.exists_eq_succ_of_ne_zero (by omega : k ≠ 0)
      rw [h.splitLoop_succ htk]
      obtain ⟨s', L', hs', hinv, hco⟩ := ih h.halve.release (by omega)
      have hmin : min k t = min (k + 1) t := by omega
      refine ⟨s', L', hs', hmin ▸ hinv, fun hc => hco (hc.push fun hk => ?_)⟩
      rw [Nat.xor_xor_cancel_right]
      exact h.notMem_of_loose (by omega)
    · refine ⟨s, L, ?_, by rwa [min_eq_left htk], id⟩
      rw [BuddyAllocator.splitLoop, ho, if_neg (by omega)]

/-! ### Growing a block -/

/-- **A loose block and its loose buddy become one loose block.** -/
theorem join (h : Inv z s L A (⟨i ^^^ 2 ^ k, k⟩ :: ⟨i, k⟩ :: loose)) :
    Inv z (merged s (min i (i ^^^ 2 ^ k)) k) L A (⟨min i (i ^^^ 2 ^ k), k + 1⟩ :: loose) := by
  have htiles := (h.tiles.perm (List.Perm.swap _ _ _)).merge
  refine ⟨h.zone, h.chain, htiles, fun b hb => ?_, h.index, h.head, h.rest, h.allocated⟩
  rcases List.mem_cons.mp hb with rfl | hb
  · exact update_self _ _ _
  · have hne : b.start ≠ min i (i ^^^ 2 ^ k) := htiles.start_ne hb
    exact (update_of_ne hne _ _).trans
      (h.order b (List.mem_cons_of_mem _ (List.mem_cons_of_mem _ hb)))

/-- **The test of the merge decides whether the buddy is a free block of the same
order.** The buddy of a block starts a block of the tiling; if that one is not
allocated then its header tells the order of a free block. -/
theorem mem_of_buddy_free (h : Inv z s L A [⟨i, k⟩]) (hk : k + 1 < maxOrder)
    (hfree : ¬(isBlockAllocated s (i ^^^ 2 ^ k) = true ∨ k ≠ s.headerOrder (i ^^^ 2 ^ k))) :
    i ^^^ 2 ^ k ∈ L k := by
  obtain ⟨m, -, hm⟩ := Tiles.buddy_mem h.tiles (h.buddy_lt hk)
  have ho : s.headerOrder (i ^^^ 2 ^ k) = m :=
    h.order ⟨i ^^^ 2 ^ k, m⟩ (List.mem_cons_of_mem _ hm)
  obtain ⟨hnot, hkm⟩ := not_or.mp hfree
  obtain rfl : k = m := (not_not.mp hkm).trans ho
  rcases List.mem_append.mp (show (⟨i ^^^ 2 ^ k, k⟩ : Block) ∈ freeBlocks L ++ A from hm) with hm | hm
  · exact (mem_freeBlocks.mp hm).2
  · have hmark := h.allocated ⟨i ^^^ 2 ^ k, k⟩ hm (i ^^^ 2 ^ k) (Block.covers_start _)
    refine absurd ?_ hnot
    rw [isBlockAllocated, h.index, hmark]
    rfl

/-- Where the test stops the merge, the buddy is not a free block of the same order. -/
theorem notMem_of_stop (h : Inv z s L A loose) (hk : k < maxOrder)
    (hstop : isBlockAllocated s (i ^^^ 2 ^ k) = true ∨ k ≠ s.headerOrder (i ^^^ 2 ^ k)) :
    i ^^^ 2 ^ k ∉ L k := by
  intro hmem
  have hfree : (⟨i ^^^ 2 ^ k, k⟩ : Block) ∈ freeBlocks L := mem_freeBlocks.mpr ⟨hk, hmem⟩
  rcases hstop with hall | hne
  · have hmark : s.frameArray (i ^^^ 2 ^ k) = .order k := h.head _ hfree
    rw [isBlockAllocated, h.index, hmark] at hall
    cases hall
  · exact hne (h.order ⟨i ^^^ 2 ^ k, k⟩ (by simp [hfree])).symm

/-- **The loop of `deallocate`** returns a loose block, grown or not, whose buddy is
not a free block of its order. -/
theorem mergeLoop (fuel : ℕ) {n : ℕ} (h : Inv z s L A [⟨i, k⟩]) (hn : maxOrder ≤ k + 1 + n) :
    Meets (BuddyAllocator.mergeLoop fuel n s i) (maxOrderNrPages ≤ fuel) fun r =>
      ∃ L' k', Inv z r.2 L' A [⟨r.1, k'⟩] ∧ (Coalesced L → Coalesced L') ∧
        (k' < maxOrder - 1 → r.1 ^^^ 2 ^ k' ∉ L' k') := by
  induction n generalizing s L i k with
  | zero =>
    obtain ⟨ho, -⟩ := h.loose_facts
    rw [BuddyAllocator.mergeLoop, ho, if_neg (by omega)]
    exact meets_ok.mpr ⟨L, k, h, id, fun hk => absurd hk (by omega)⟩
  | succ n ih =>
    obtain ⟨ho, -⟩ := h.loose_facts
    rw [BuddyAllocator.mergeLoop, ho]
    by_cases hk : k < maxOrder - 1
    · have hlt := h.buddy_lt (by omega)
      have hbuddy : getBuddy s i = .ok (i ^^^ 2 ^ k) := by
        simp only [getBuddy, h.index, ho, Nat.one_shiftLeft]
        exact if_pos hlt
      rw [if_pos hk, hbuddy, ok_bind]
      by_cases hstop : isBlockAllocated s (i ^^^ 2 ^ k) = true ∨ k ≠ s.headerOrder (i ^^^ 2 ^ k)
      · rw [if_pos hstop]
        exact meets_ok.mpr ⟨L, k, h, id, fun _ => h.notMem_of_stop (by omega) hstop⟩
      · rw [if_neg hstop]
        have hmem := h.mem_of_buddy_free (by omega) hstop
        refine (h.freeListDelEntry (by omega) hmem fuel).bind ?_
        rintro s' ⟨l₁, l₂, hL, hinv⟩
        have hmin : (if i ^^^ 2 ^ k < i then i ^^^ 2 ^ k else i) = min i (i ^^^ 2 ^ k) := by
          rw [min_def]
          split_ifs <;> omega
        have horder : s'.headerOrder (min i (i ^^^ 2 ^ k)) = k := by
          rcases min_choice i (i ^^^ 2 ^ k) with he | he
          · rw [he]
            exact hinv.order ⟨i, k⟩ (by simp)
          · rw [he]
            exact hinv.order ⟨i ^^^ 2 ^ k, k⟩ (by simp)
        simp only [hmin, horder]
        refine (ih hinv.join (by omega)).mono ?_
        rintro r ⟨L', k', hinv', hco, hlast⟩
        exact ⟨L', k', hinv', fun hc => hco (hc.erase hL), hlast⟩
    · rw [if_neg hk]
      exact meets_ok.mpr ⟨L, k, h, id, fun hlt => absurd hlt hk⟩

end Inv

end BuddyAllocator

end Valkyrie
