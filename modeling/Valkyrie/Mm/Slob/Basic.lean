import Valkyrie.Mm.Buddy.Basic

/-!
# The slob allocator

`mm/SlobAllocator.cc`. Small requests are served from *chunks*. A chunk is a
header of sixteen bytes and a payload behind it; the chunks of a page stand side
by side, and a chunk finds its neighbours by arithmetic: the header holds the
size of the chunk (as an index, `size = 32 + 16 * index`) and the size of the
chunk before it. The lowest bit of the second field is the flag *allocated*.

Free chunks are kept on *bins*, singly linked lists: seven regular bins, one for
each size from `0x20` to `0x80`, and the unsorted bin for all larger sizes. What
has not been cut yet of the current page is the *top chunk*, which has no header.

A header is named by its address, and the memory that holds the headers is
written here field by field, as three functions of the address. The header has
the size of the smallest step between two chunks, so two headers at different
multiples of sixteen do not overlap, and all addresses are such multiples
(`Valkyrie.SlobAllocator.Tiling`).

Fields of a header that was never written hold whatever was in memory: the
initial memory is a parameter of the constructor. The frames come from a page
allocator, which is a parameter too; in the kernel it is a
`Valkyrie.BuddyAllocator`.
-/

namespace Valkyrie.SlobAllocator

open Function

/-- `smallest_chunk_size`. -/
def smallestChunkSize : ℕ := 0x20

/-- `largest_chunk_size`. -/
def largestChunkSize : ℕ := 0x80

/-- `chunk_size_gap`. -/
def chunkSizeGap : ℕ := 0x10

/-- `nr_bins`. -/
def nrBins : ℕ := (largestChunkSize - smallestChunkSize) / chunkSizeGap + 1

/-- `get_chunk_header_size`: a pointer and two integers of 32 bits. -/
def chunkHeaderSize : ℕ := 16

/-- The heads of the lists of free chunks. -/
inductive Bin where
  /-- `_bins[k]`. -/
  | regular (k : ℕ) : Bin
  /-- `_unsorted_bin`. -/
  | unsorted : Bin
deriving DecidableEq

/-- The headers in memory, and the allocator. -/
structure State where
  /-- `next` of the header at an address. -/
  next : ℕ → Option ℕ
  /-- `index` of the header at an address. -/
  index : ℕ → ℤ
  /-- `prev_chunk_size` of the header at an address. -/
  prevChunkSize : ℕ → ℤ
  /-- `_page_frame_allocatable_begin`. -/
  pageFrameAllocatableBegin : ℕ
  /-- `_top_chunk`. -/
  topChunk : ℕ
  /-- `_page_frame_allocatable_end`. -/
  pageFrameAllocatableEnd : ℕ
  /-- `_top_chunk_prev_chunk_size`. -/
  topChunkPrevChunkSize : ℤ
  /-- `_bins` and `_unsorted_bin`. -/
  bins : Bin → Option ℕ

/-- The constructor, on a memory with arbitrary contents. -/
def init (next : ℕ → Option ℕ) (index prevChunkSize : ℕ → ℤ) : State where
  next := next
  index := index
  prevChunkSize := prevChunkSize
  pageFrameAllocatableBegin := 0
  topChunk := 0
  pageFrameAllocatableEnd := 0
  topChunkPrevChunkSize := 0
  bins _ := none

/-! ### Headers -/

/-- `ChunkHeader::get_size`. -/
def getSize (s : State) (a : ℕ) : ℕ := ofInt (smallestChunkSize + s.index a * chunkSizeGap)

/-- `ChunkHeader::get_prev_chunk_size`. -/
def getPrevChunkSize (s : State) (a : ℕ) : ℤ := s.prevChunkSize a - s.prevChunkSize a % 2

/-- `ChunkHeader::is_allocated`. -/
def isAllocated (s : State) (a : ℕ) : Bool := s.prevChunkSize a % 2 == 1

/-- `ChunkHeader::get_prev_chunk`. -/
def getPrevChunk (s : State) (a : ℕ) : ℕ := ofInt (a - getPrevChunkSize s a)

/-- `ChunkHeader::get_next_chunk`. -/
def getNextChunk (s : State) (a : ℕ) : ℕ := toSize (a + getSize s a)

/-- The value of `prev_chunk_size` with the lowest bit set or cleared. -/
def withFlag (x : ℤ) (allocated : Bool) : ℤ := x - x % 2 + if allocated then 1 else 0

/-- `ChunkHeader::set_allocated`. -/
def setAllocated (allocated : Bool) (a : ℕ) (s : State) : State :=
  { s with prevChunkSize :=
      update s.prevChunkSize a (withFlag (s.prevChunkSize a) allocated) }

/-- `ChunkHeader::set_prev_chunk_size`: the flag is kept. -/
def setPrevChunkSize (size : ℤ) (a : ℕ) (s : State) : State :=
  { s with prevChunkSize := update s.prevChunkSize a (withFlag size (isAllocated s a)) }

/-- `get_bin_index`. -/
def getBinIndex (size : ℕ) : ℤ := toInt (subSize size smallestChunkSize / chunkSizeGap)

/-- `normalize_size`. -/
def normalizeSize (fuel size : ℕ) : Exec ℕ :=
  roundUpToMultipleOfN fuel (max size smallestChunkSize) 16

/-- `is_chunk_size_usable`. -/
def isChunkSizeUsable (size : ℕ) : Bool := smallestChunkSize ≤ size

/-- `get_top_chunk_size`. -/
def getTopChunkSize (s : State) : ℕ := subSize s.pageFrameAllocatableEnd s.topChunk

/-! ### Bins -/

/-- `bin_get_head`: an index below zero names memory before the array. -/
def binGetHead (s : State) (chunk : ℕ) : Exec Bin :=
  if (nrBins : ℤ) ≤ s.index chunk then .ok .unsorted
  else if s.index chunk < 0 then .error .wild
  else .ok (.regular (s.index chunk).toNat)

/-- `bin_del_entry`. -/
def binDelEntry (fuel chunk : ℕ) (s : State) : Exec State := do
  if chunk = 0 then
    .error (.panic "kernel heap corrupted: bin_del_entry(nullptr)\n")
  let bin ← binGetHead s chunk
  if s.bins bin = some chunk then
    return { s with
      bins := update s.bins bin (s.next chunk)
      next := update s.next chunk none }
  let next ← unlinkLoop s.next chunk fuel none (s.bins bin)
  return { s with next := next }

/-- `bin_del_head`. -/
def binDelHead (fuel chunk : ℕ) (s : State) : Exec State :=
  if chunk = 0 then
    .error (.panic "kernel heap corrupted: bin_del_head(nullptr)\n")
  else if (nrBins : ℤ) ≤ s.index chunk then
    binDelEntry fuel chunk s
  else if s.index chunk < 0 then
    .error .wild
  else
    let bin := Bin.regular (s.index chunk).toNat
    match s.bins bin with
    | none => .ok s
    | some head => .ok { s with
        bins := update s.bins bin (s.next head)
        next := update s.next chunk none }

/-- `bin_add_head`: both branches of the source link the old front, null or not,
behind the chunk. -/
def binAddHead (chunk : ℕ) (s : State) : Exec State := do
  if chunk = 0 then
    .error (.panic "kernel heap corrupted: bin_add_head(nullptr)\n")
  let bin ← binGetHead s chunk
  if s.bins bin = some chunk then
    .error (.panic "kernel heap corrupted: repeated bin_add_head()\n")
  return { s with
    bins := update s.bins bin (some chunk)
    next := update s.next chunk (s.bins bin) }

/-! ### Cutting chunks -/

/-- `split_from_top_chunk`. -/
def splitFromTopChunk (requestedSize : ℕ) (s : State) : Exec (ℕ × State) :=
  if getTopChunkSize s < requestedSize then
    .error (.panic "kernel heap corrupted (unable to split %d bytes from the top chunk)")
  else
    let chunk := s.topChunk
    let s := { s with
      next := update s.next chunk none
      index := update s.index chunk (getBinIndex requestedSize)
      prevChunkSize := update s.prevChunkSize chunk s.topChunkPrevChunkSize }
    let s := setAllocated true chunk s
    .ok (chunk, { s with
      topChunk := toSize (s.topChunk + requestedSize)
      topChunkPrevChunkSize := toInt requestedSize })

/-- The part of `split_from_chunk` that writes the header of the remainder. It does
so in any case, also when nothing remains. -/
def writeRemainder (remainder requestedSize remainderSize : ℕ) (s : State) : State :=
  { s with
    next := update s.next remainder none
    index := update s.index remainder (getBinIndex remainderSize)
    prevChunkSize := update s.prevChunkSize remainder (toInt requestedSize) }

/-- The part of `split_from_chunk` that tells the chunk behind about the remainder
and writes the header of the chunk itself. -/
def writeChunk (chunk requestedSize remainderSize : ℕ) (s : State) : State :=
  let nextChunk := getNextChunk s chunk
  let s :=
    if nextChunk ≠ s.topChunk then setPrevChunkSize (toInt remainderSize) nextChunk s else s
  setAllocated true chunk { s with
    next := update s.next chunk none
    index := update s.index chunk (getBinIndex requestedSize) }

/-- `split_from_chunk`. -/
def splitFromChunk (fuel chunk requestedSize : ℕ) (s : State) : Exec (ℕ × State) := do
  if chunk = 0 then
    .error (.panic "kernel heap corrupted (chunk == nullptr)\n")
  if ¬isChunkSizeUsable requestedSize then
    .error (.panic "kernel heap corrupted (requested_size must contain header size)\n")
  if s.index chunk < 0 then
    .error (.panic "kernel heap corrupted (invalid chunk->index: %d)\n")
  if getSize s chunk < requestedSize then
    .error (.panic "kernel heap corrupted(unable to split %d bytes from a %d byte chunk)")
  let remainderSize := subSize (getSize s chunk) requestedSize
  let remainder := toSize (chunk + requestedSize)
  let s ← binDelHead fuel chunk (writeRemainder remainder requestedSize remainderSize s)
  let s ←
    if isChunkSizeUsable remainderSize then
      binAddHead remainder (setAllocated false remainder s)
    else
      pure (setAllocated true remainder s)
  return (chunk, writeChunk chunk requestedSize remainderSize s)

/-! ### Allocation -/

section Allocate

variable {π : Type} (allocateOnePageFrame : ℕ → π → Exec (ℕ × π))

/-- `request_new_page_frame`. -/
def requestNewPageFrame (fuel : ℕ) (s : State) (b : π) : Exec (Bool × State × π) := do
  let (pageFrame, b) ← allocateOnePageFrame fuel b
  if pageFrame = 0 then
    return (false, s, b)
  return (true, { s with
    pageFrameAllocatableBegin := pageFrame
    topChunk := pageFrame
    pageFrameAllocatableEnd := toSize (pageFrame + pageSize) }, b)

/-- The search of the unsorted bin for a chunk that is large enough. -/
def findUnsorted (s : State) (requestedSize : ℕ) : ℕ → Option ℕ → Exec (Option ℕ)
  | _, none => .ok none
  | 0, some _ => .error .outOfFuel
  | fuel + 1, some chunk =>
    if requestedSize ≤ getSize s chunk then .ok (some chunk)
    else findUnsorted s requestedSize fuel (s.next chunk)

/-- The search of the `n` regular bins from `idx` on for one that is not empty. -/
def findLarger (s : State) : ℕ → ℕ → Option ℕ
  | _, 0 => none
  | idx, n + 1 =>
    match s.bins (.regular idx) with
    | some chunk => some chunk
    | none => findLarger s (idx + 1) n

/-- The part of `allocate` that looks for a free chunk: in the bin of exactly this
size, in the unsorted bin, and in the bins of larger sizes. -/
def takeFromBins (fuel requestedSize : ℕ) (s : State) : Exec (Option (ℕ × State)) := do
  let idx := getBinIndex requestedSize
  if idx < 0 then
    .error .wild
  match if idx < nrBins then s.bins (.regular idx.toNat) else none with
  | some victim =>
    let s ← binDelHead fuel victim (setAllocated true victim s)
    return some (victim, s)
  | none =>
    match ← findUnsorted s requestedSize fuel (s.bins .unsorted) with
    | some chunk => return some (← splitFromChunk fuel chunk requestedSize s)
    | none =>
      match findLarger s idx.toNat (nrBins - idx.toNat) with
      | some chunk => return some (← splitFromChunk fuel chunk requestedSize s)
      | none => return none

/-- The part of `allocate` that gives up a top chunk that is too small: it becomes
a chunk of its own, on its bin if it is large enough for one. -/
def retireTopChunk (s : State) : Exec State := do
  let (chunk, s) ← splitFromTopChunk (getTopChunkSize s) s
  if isChunkSizeUsable (getSize s chunk) then
    binAddHead chunk s
  else
    return setAllocated true chunk s

/-- The part of `allocate` that makes sure that the top chunk is large enough, by
replacing it by a new page if it is not. -/
def renewTopChunk (fuel requestedSize : ℕ) (s : State) (b : π) : Exec (Bool × State × π) :=
  if getTopChunkSize s = 0 then
    requestNewPageFrame allocateOnePageFrame fuel s b
  else if getTopChunkSize s < requestedSize then do
    let s ← retireTopChunk s
    requestNewPageFrame allocateOnePageFrame fuel s b
  else
    .ok (true, s, b)

/-- The part of `allocate` that cuts a chunk from the top chunk. -/
def takeFromTop (fuel requestedSize : ℕ) (s : State) (b : π) :
    Exec (Option ℕ × State × π) := do
  let (fresh, s, b) ← renewTopChunk allocateOnePageFrame fuel requestedSize s b
  if fresh then
    let (victim, s) ← splitFromTopChunk requestedSize s
    return (some victim, s, b)
  else
    return (none, s, b)

/-- `allocate`. -/
def allocate (fuel requestedSize : ℕ) (s : State) (b : π) : Exec (ℕ × State × π) := do
  if requestedSize = 0 then
    return (0, s, b)
  let requestedSize ← normalizeSize fuel (toSize (chunkHeaderSize + requestedSize))
  let (victim, s, b) ←
    match ← takeFromBins fuel requestedSize s with
    | some (victim, s) => pure (some victim, s, b)
    | none => takeFromTop allocateOnePageFrame fuel requestedSize s b
  match victim with
  | none => return (0, s, b)
  | some victim =>
    if pageIsAligned (toSize (victim + chunkHeaderSize)) then
      .error (.panic "fatal error: _top_chunk = 0x%x, _page_frame_allocatable_begin = 0x%x, req_size = 0x%x, victim = 0x%x\n")
    return (toSize (victim + chunkHeaderSize), s, b)

end Allocate

/-! ### Deallocation -/

/-- The part of `deallocate` that joins the chunk to the chunk before it. -/
def mergePrev (fuel prevChunk nextChunk chunkSize : ℕ) (s : State) : Exec (ℕ × State) := do
  let s ← binDelEntry fuel prevChunk s
  let chunkSize := toSize (chunkSize + getSize s prevChunk)
  let s := { s with
    next := update s.next prevChunk (some nextChunk)
    index := update s.index prevChunk (getBinIndex chunkSize) }
  return (chunkSize, setPrevChunkSize (toInt chunkSize) nextChunk s)

/-- The part of `deallocate` that joins the free chunk behind it to the chunk. -/
def mergeNext (fuel chunk nextChunk chunkSize : ℕ) (s : State) : Exec State := do
  let s ← binDelEntry fuel nextChunk s
  let chunkSize := toSize (chunkSize + getSize s nextChunk)
  let behind := toSize (nextChunk + getSize s nextChunk)
  let s := { s with
    next := update s.next chunk (some behind)
    index := update s.index chunk (getBinIndex chunkSize) }
  binAddHead chunk (setPrevChunkSize (toInt chunkSize) behind s)

/-- The first half of `deallocate`: the chunk before is looked at, and joined if it is
free and of the same page. The result is the chunk and its size. -/
def freeToPrev (fuel midChunk prevChunk nextChunk chunkSize : ℕ) (s : State) :
    Exec (ℕ × ℕ × State) :=
  if ¬isAllocated s prevChunk ∧ ¬pageIsAligned midChunk then do
    let (chunkSize, s) ← mergePrev fuel prevChunk nextChunk chunkSize s
    return (prevChunk, chunkSize, s)
  else
    .ok (midChunk, chunkSize, s)

/-- The second half of `deallocate`: what is behind the chunk is looked at. A chunk that
is followed by an allocated chunk or by the end of its page stays where it is. -/
def freeToNext (fuel chunk nextChunk chunkSize : ℕ) (s : State) : Exec State :=
  if pageIsAligned nextChunk then
    .ok s
  else if nextChunk = s.topChunk then
    .ok { s with
      topChunk := chunk
      topChunkPrevChunkSize := getPrevChunkSize s chunk }
  else if ¬isAllocated s nextChunk then
    mergeNext fuel chunk nextChunk chunkSize s
  else
    .ok s

/-- `deallocate`. -/
def deallocate (fuel p : ℕ) (s : State) : Exec State := do
  if p = 0 then
    return s
  let midChunk := subSize p chunkHeaderSize
  let prevChunk := getPrevChunk s midChunk
  let nextChunk := getNextChunk s midChunk
  let chunkSize := getSize s midChunk
  let s := setAllocated false midChunk s
  let (chunk, chunkSize, s) ← freeToPrev fuel midChunk prevChunk nextChunk chunkSize s
  freeToNext fuel chunk nextChunk chunkSize s

end Valkyrie.SlobAllocator
