import Valkyrie.Base.Chain
import Valkyrie.Lib.Math

/-!
# The buddy allocator

`mm/BuddyAllocator.cc`. A zone is `512` page frames, handed out in blocks of
`2 ^ k` frames, `k < 10`. The allocator keeps three redundant records of the zone:

* the **frame array**, one entry a frame, which says at the head of a free block
  how large the block is, and marks every other frame as allocated or as
  belonging to a larger free block;
* the **free lists**, one singly linked list of block headers for each order;
* the **header pool**, one header a frame. A header carries the link of its list,
  the order of its block and its own index. Headers are never cleaned, so a
  header that heads no block keeps the order it had when it last did.

A pointer to a header is its index in the pool. The pool is written here field by
field, so that the links of the free lists are one function `headerNext`. Every
index the source computes is checked against its array before it is used: an
access outside the array is `Valkyrie.Stop.wild`.
-/

namespace Valkyrie

open Function

/-- `PAGE_SIZE`. -/
def pageSize : ℕ := 4096

/-- `Page::is_aligned`. -/
def pageIsAligned (addr : ℕ) : Bool := addr % pageSize == 0

theorem pageIsAligned_iff {addr : ℕ} : pageIsAligned addr = true ↔ pageSize ∣ addr := by
  simp [pageIsAligned, Nat.dvd_iff_mod_eq_zero]

/-- `operator new`, on a heap with room. Nothing, or more than the `2` MiB of a zone, is answered
with a null pointer, and that one counts as handed out already. (From `2 ^ 42` bytes on the
request goes on for ever or gets too little; the difference does not matter to the callers.) -/
def operatorNew (size : ℕ) : Exec Unit :=
  if size = 0 ∨ 2 ^ 21 < size then
    .error (.panic "*** kasan: pointer 0x%x is already allocated...\n")
  else .ok ()

theorem operatorNew_eq_ok {size : ℕ} : operatorNew size = .ok () ↔ 0 < size ∧ size ≤ 2 ^ 21 := by
  rw [operatorNew]
  split_ifs with h
  · exact iff_of_false (fun hEq => by cases hEq) (by omega)
  · exact iff_of_true rfl (by omega)

namespace BuddyAllocator

/-- `MAX_ORDER`. -/
def maxOrder : ℕ := 10

/-- `MAX_ORDER_NR_PAGES`. -/
def maxOrderNrPages : ℕ := 2 ^ (maxOrder - 1)

/-- An entry of the frame array. -/
inductive Frame where
  /-- The head of a free block of this order. -/
  | order (k : ℕ) : Frame
  /-- `ALLOCATED`: the frame belongs to an allocated block. -/
  | allocated : Frame
  /-- `DONT_ALLOCATE`: the frame belongs to a free block that starts elsewhere. -/
  | dontAllocate : Frame
deriving DecidableEq

/-- The allocator of one zone. -/
structure State where
  /-- `_zone_begin`, the address of the first frame. -/
  zoneBegin : ℕ
  /-- `_frame_array`. -/
  frameArray : ℕ → Frame
  /-- `_free_lists`, the header in front of each list. -/
  freeLists : ℕ → Option ℕ
  /-- The links of the header pool. -/
  headerNext : ℕ → Option ℕ
  /-- The orders of the header pool. -/
  headerOrder : ℕ → ℕ
  /-- The indices of the header pool. -/
  headerIndex : ℕ → ℕ

/-! ### Sizes and orders -/

/-- `size_to_order`: the quotient is a `size_t`, and `log2` takes an `int`. -/
def sizeToOrder (fuel size : ℕ) : Exec ℕ := log2 fuel (toInt (size / pageSize))

/-- `normalize_size`. -/
def normalizeSize (fuel size : ℕ) : Exec ℕ := roundUpToPowOf2 fuel size

/-- The constructor: one free block of the greatest order. -/
def init (zoneBegin : ℕ) : State where
  zoneBegin := zoneBegin
  frameArray i := if i = 0 then .order (maxOrder - 1) else .dontAllocate
  freeLists k := if k = maxOrder - 1 then some 0 else none
  headerNext _ := none
  headerOrder i := if i = 0 then maxOrder - 1 else 0
  headerIndex i := i

/-! ### Frames and headers -/

/-- `get_block_header`: the index of the frame at an address. -/
def getBlockHeader (s : State) (p : ℕ) : Exec ℕ :=
  if ¬pageIsAligned p then
    .error (.panic "kernel heap corrupted: get_block_header(0x%x) misaligned\n")
  else
    let idx := toInt (subSize p s.zoneBegin / pageSize)
    if idx < 0 ∨ (maxOrderNrPages : ℤ) ≤ idx then
      .error (.panic "kernel heap corrupted: get_block_header(0x%x) idx out of bound: idx = %d for %x\n")
    else .ok idx.toNat

/-- `get_page_frame`: the address of a frame. -/
def getPageFrame (s : State) (index : ℕ) : ℕ := toSize (s.zoneBegin + index * pageSize)

/-- `get_buddy`. -/
def getBuddy (s : State) (block : ℕ) : Exec ℕ :=
  let buddy := s.headerIndex block ^^^ (1 <<< s.headerOrder block)
  if buddy < maxOrderNrPages then .ok buddy else .error .wild

/-- `is_block_allocated`. -/
def isBlockAllocated (s : State) (block : ℕ) : Bool :=
  s.frameArray (s.headerIndex block) == .allocated

/-- Writing one entry of the frame array. -/
def setFrame (frames : ℕ → Frame) (i : ℕ) (v : Frame) : Exec (ℕ → Frame) :=
  if i < maxOrderNrPages then .ok (update frames i v) else .error .wild

/-- The loop that writes `n` entries of the frame array from `i` on. -/
def setFrames (v : Frame) : ℕ → ℕ → (ℕ → Frame) → Exec (ℕ → Frame)
  | _, 0, frames => .ok frames
  | i, n + 1, frames => do
    let frames ← setFrame frames i v
    setFrames v (i + 1) n frames

/-- `mark_block_as_allocated`. -/
def markBlockAsAllocated (s : State) (block : ℕ) : Exec State := do
  let idx := s.headerIndex block
  let len := pow 2 (s.headerOrder block)
  let frames ← setFrames .allocated idx len s.frameArray
  return { s with frameArray := frames }

/-- `mark_block_as_allocatable`. -/
def markBlockAsAllocatable (s : State) (block : ℕ) : Exec State := do
  let idx := s.headerIndex block
  let len := pow 2 (s.headerOrder block)
  let frames ← setFrame s.frameArray idx (.order (s.headerOrder block))
  let frames ← setFrames .dontAllocate (idx + 1) (len - 1) frames
  return { s with frameArray := frames }

/-! ### The free lists -/

/-- `free_list_del_head`. -/
def freeListDelHead (s : State) (block : ℕ) : Exec State :=
  let order := s.headerOrder block
  if maxOrder ≤ order then
    .error (.panic "kernel heap corrupted: block (0x%x) = \x7b0x%x, 0x%x\x7d\n")
  else
    match s.freeLists order with
    | none => .ok s
    | some head =>
      .ok { s with
        freeLists := update s.freeLists order (s.headerNext head)
        headerNext := update s.headerNext block none }

/-- `free_list_add_head`. -/
def freeListAddHead (s : State) (block : ℕ) : Exec State :=
  let order := s.headerOrder block
  if maxOrder ≤ order then
    .error (.panic "kernel heap corrupted: block (0x%x) = \x7b0x%x, 0x%x\x7d\n")
  else if s.freeLists order = some block then .ok s
  else
    -- An empty list gives the null link that the source writes out for it.
    .ok { s with
      headerNext := update s.headerNext block (s.freeLists order)
      freeLists := update s.freeLists order (some block) }

/-- `free_list_del_entry`: the block in front is unlinked from the head, any
other one by a walk. -/
def freeListDelEntry (fuel : ℕ) (s : State) (block : ℕ) : Exec State :=
  let order := s.headerOrder block
  if maxOrder ≤ order then .error .wild
  else if s.freeLists order = some block then freeListDelHead s block
  else do
    let next ← unlinkLoop s.headerNext block fuel none (s.freeLists order)
    return { s with headerNext := next }

/-! ### Allocating -/

/-- The loop of `split_block`: the block keeps its lower half and frees the
upper one until it has the target order. -/
def splitLoop (targetOrder : ℕ) : ℕ → State → ℕ → Exec State
  | 0, s, block =>
    if 0 < s.headerOrder block ∧ targetOrder < s.headerOrder block then .error .outOfFuel
    else .ok s
  | n + 1, s, block =>
    if 0 < s.headerOrder block ∧ targetOrder < s.headerOrder block then do
      let s := { s with
        headerOrder := update s.headerOrder block (s.headerOrder block - 1) }
      let buddy ← getBuddy s block
      let s := { s with headerOrder := update s.headerOrder buddy (s.headerOrder block) }
      let s ← markBlockAsAllocatable s buddy
      let s ← freeListAddHead s buddy
      splitLoop targetOrder n s block
    else .ok s

/-- `split_block`. The order of the block falls with every round, so the loop
makes at most as many rounds as there are orders. -/
def splitBlock (s : State) (block targetOrder : ℕ) : Exec State :=
  if maxOrder ≤ s.headerOrder block then
    .error (.panic "kernel heap corrupted: invalid block->order (%d)\n")
  else splitLoop targetOrder maxOrder s block

/-- The search for the first list from an order on that has a block. -/
def findFreeList (s : State) : ℕ → ℕ → Option ℕ
  | _, 0 => none
  | order, n + 1 =>
    match s.freeLists order with
    | some victim => some victim
    | none => findFreeList s (order + 1) n

/-- The end of `allocate`: mark the block and return the address of its frame. -/
def hit (s : State) (victim : ℕ) : Exec (ℕ × State) := do
  let s ← markBlockAsAllocated s victim
  return (getPageFrame s (s.headerIndex victim), s)

/-- `allocate`. The null pointer is the address `0`. -/
def allocate (fuel requestedSize : ℕ) (s : State) : Exec (ℕ × State) := do
  let requestedSize ← normalizeSize fuel requestedSize
  let order ← sizeToOrder fuel requestedSize
  if requestedSize = 0 then return (0, s)
  if maxOrder ≤ order then return (0, s)
  match s.freeLists order with
  | some victim =>
    let s ← freeListDelHead s victim
    hit s victim
  | none =>
    match findFreeList s order (maxOrder - order) with
    | none => return (0, s)
    | some victim =>
      let s ← freeListDelEntry fuel s victim
      let targetOrder ← sizeToOrder fuel requestedSize
      let s ← splitBlock s victim targetOrder
      hit s victim

/-- `allocate_one_page_frame`. -/
def allocateOnePageFrame (fuel : ℕ) (s : State) : Exec (ℕ × State) := allocate fuel pageSize s

/-! ### Deallocating -/

/-- The loop of `deallocate`: merge the block with its buddy while the buddy is a
free block of the same order. The lower one of the two heads the merged block. -/
def mergeLoop (fuel : ℕ) : ℕ → State → ℕ → Exec (ℕ × State)
  | 0, s, block =>
    if s.headerOrder block < maxOrder - 1 then .error .outOfFuel else .ok (block, s)
  | n + 1, s, block =>
    if s.headerOrder block < maxOrder - 1 then do
      let buddy ← getBuddy s block
      if isBlockAllocated s buddy ∨ s.headerOrder block ≠ s.headerOrder buddy then
        return (block, s)
      else
        let s ← freeListDelEntry fuel s buddy
        let block := if buddy < block then buddy else block
        let s := { s with
          headerOrder := update s.headerOrder block (s.headerOrder block + 1) }
        mergeLoop fuel n s block
    else .ok (block, s)

/-- `deallocate`. The order of the block grows with every merge, so there are
fewer merges than orders. -/
def deallocate (fuel p : ℕ) (s : State) : Exec State :=
  if p = 0 then .ok s
  else do
    let block ← getBlockHeader s p
    let (block, s) ← mergeLoop fuel maxOrder s block
    let s ← freeListAddHead s block
    markBlockAsAllocatable s block

end BuddyAllocator

end Valkyrie
