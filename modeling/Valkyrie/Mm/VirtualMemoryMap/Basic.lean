import Valkyrie.Base.ByteMem
import Valkyrie.Mm.Mmu

/-!
# The virtual memory map of a task

`mm/VirtualMemoryMap.cc`. A `VMMap` is the address of a page table with 512 descriptors.
Three levels of page tables lead to the last one, whose descriptors are of page frames. All
of these lie in physical memory, which is one memory of bytes here: that a page table and a
page frame are different pages is something to be proved, not a matter of types.

The functions that go down the tables (`walk`, `dfs_kfree_page`, `dfs_copy_page_tables`)
take the number of levels still to go. A page table of level `3` in the source is one with
`0` levels to go here.

The state carries one thing that the kernel does not have: the list of the blocks of the
first zone that were handed out and not yet given back. `kfree` of a page that is not on
this list stops with `wild`, where the sanitizer would report a double free. So a call that
never stops this way gives back nothing twice.

What the buddy allocator keeps in the pages that are free is in its own state and not in
the memory here, which nobody reads at a free page.
-/

namespace Valkyrie.VMMap

/-- The memory manager, the physical memory, and the blocks that are live. -/
structure State where
  mm : MemoryManager.State
  mem : Mem
  /-- The blocks of the first zone that were handed out and not given back. -/
  live : List ℕ

/-- The indices of the descriptors on the way down: one for each level. -/
@[reducible] def Path : ℕ → Type
  | 0 => Fin 512
  | d + 1 => Fin 512 × Path d

/-- `pt_indices`. -/
def pathOf (v : ℕ) : Path 3 := (pgdIndex v, pudIndex v, pmdIndex v, pteIndex v)

/-! ### Memory -/

/-- The address of an entry of a page table. -/
def slot (pt : ℕ) (i : Fin 512) : ℕ := pt + 8 * i

/-- `pt[i]`. -/
def entry (m : Mem) (pt : ℕ) (i : Fin 512) : Descriptor := m.readWord (slot pt i)

/-- The descriptor at an address is overwritten. -/
def State.setDescriptor (a : ℕ) (e : Descriptor) (s : State) : State :=
  { s with mem := s.mem.writeWord a e }

/-- `get_free_page(true)`. -/
def getFreePage (fuel : ℕ) (s : State) : Exec (ℕ × State) := do
  let (p, mm) ← MemoryManager.getFreePage fuel true s.mm
  return (p, { s with mm := mm, live := if p = 0 then s.live else p :: s.live })

/-- `kfree` of a page. -/
def kfree (fuel p : ℕ) (s : State) : Exec State :=
  if p ∈ s.live then do
    let mm ← MemoryManager.kfree fuel p s.mm
    return { s with mm := mm, live := s.live.erase p }
  else .error .wild

/-- `memset(page, 0, PAGE_SIZE)`. -/
def clearPage (p : ℕ) (s : State) : Exec State :=
  if p = 0 then .error .wild else .ok { s with mem := s.mem.fill p pageSize 0 }

/-- `memcpy(dst, src, PAGE_SIZE)`. -/
def copyPage (dst src : ℕ) (s : State) : Exec State :=
  if dst = 0 then .error .wild else .ok { s with mem := s.mem.copy dst src pageSize }

/-- `inc_page_ref_count`. -/
def incPageRefCount (p : ℕ) (s : State) : Exec State := do
  let (_, mm) ← MemoryManager.incPageRefCount p s.mm
  return { s with mm := mm }

/-- `dec_page_ref_count`. -/
def decPageRefCount (p : ℕ) (s : State) : Exec (ℤ × State) := do
  let (count, mm) ← MemoryManager.decPageRefCount p s.mm
  return (count, { s with mm := mm })

/-! ### Page tables -/

/-- The constructor: a null pointer if there is no memory. -/
def construct (fuel : ℕ) (s : State) : Exec (ℕ × State) := do
  let (pgd, s) ← getFreePage fuel s
  if pgd = 0 then return (0, s)
  else return (pgd, ← clearPage pgd s)

/-- A page table that is not there yet. -/
def newTable (fuel a : ℕ) (s : State) : Exec (ℕ × State) := do
  let (p, s) ← getFreePage fuel s
  let s ← clearPage p s
  return (p, s.setDescriptor a (descriptor p pdTable))

/-- The loop of `walk`: the address of the last descriptor on the path. -/
def walkFrom (fuel : ℕ) (createPte : Bool) :
    (d : ℕ) → Path d → ℕ → State → Exec (Option ℕ × State)
  | 0, i, pt, s => return (some (slot pt i), s)
  | d + 1, (i, path), pt, s =>
    let e := entry s.mem pt i
    if isValid e then walkFrom fuel createPte d path (frame e) s
    else if createPte then do
      let (next, s) ← newTable fuel (slot pt i) s
      walkFrom fuel createPte d path next s
    else return (none, s)

/-- `walk`. -/
def walk (fuel : ℕ) (createPte : Bool) (pgd v : ℕ) (s : State) : Exec (Option ℕ × State) :=
  walkFrom fuel createPte 3 (pathOf v) pgd s

/-- "Has write permission, so make it copy-on-write." -/
def makeCow (attr : Descriptor) : Descriptor :=
  if has pdRdonly attr then attr else attr ||| pdCowPage

/-- `map`. -/
def map (fuel pgd v p : ℕ) (attr : Descriptor) (s : State) : Exec State := do
  let (pte, s) ← walk fuel true pgd v s
  match pte with
  | none => .error .wild
  | some a =>
    if isValid (s.mem.readWord a) then
      .error (.panic "VMMap::map: v_addr: 0x%p has already been mapped to p_addr: 0x%p\n")
    else incPageRefCount p (s.setDescriptor a (descriptor p (makeCow attr)))

/-- `is_cow_page`. -/
def isCowPage (fuel pgd v : ℕ) (s : State) : Exec Bool := do
  if ¬pageIsAligned v then
    .error (.panic "VMMap::walk(): v_addr unaligned to page boundary: 0x%p\n")
  else
    let (pte, s) ← walk fuel false pgd v s
    match pte with
    | none => return false
    | some a => return has pdCowPage (s.mem.readWord a)

/-- `get_physical_address`. -/
def getPhysicalAddress (fuel pgd v : ℕ) (s : State) : Exec ℕ := do
  let (pte, s) ← walk fuel false pgd v s
  match pte with
  | none => return 0
  | some a => return toSize (frame (s.mem.readWord a) + pageOffset v)

/-- `copy_page_frame`. -/
def copyPageFrame (fuel pgd v : ℕ) (s : State) : Exec State := do
  let (pte, s) ← walk fuel false pgd v s
  match pte with
  | none => .error (.panic "copy_page_frame(): page directory / entry doesn't exist?")
  | some a =>
    let e := s.mem.readWord a
    let oldPageFrame := frame e
    let oldAttr := e &&& pdAttrMask
    let count ← MemoryManager.getPageRefCount oldPageFrame s.mm
    if count = 1 then
      return s.setDescriptor a (e &&& ~~~pdCowPage &&& ~~~pdRdonly)
    else
      let (newPageFrame, s) ← getFreePage fuel s
      let s ← copyPage newPageFrame oldPageFrame s
      let s := s.setDescriptor a (descriptor newPageFrame oldAttr &&& ~~~pdRdonly)
      let (_, s) ← decPageRefCount oldPageFrame s
      incPageRefCount newPageFrame s

/-- The body of the loop of `dfs_kfree_page`, with what is done at the next level. -/
def kfreeEntry (fuel : ℕ) (next : Option (ℕ → State → Exec State)) (pt : ℕ) (s : State)
    (i : Fin 512) : Exec State :=
  let e := entry s.mem pt i
  if ¬isValid e then return s
  else match next with
    | none => do
      let (count, s) ← decPageRefCount (frame e) s
      if count = 0 then kfree fuel (frame e) s else return s
    | some kfreeNext => do
      let s ← kfreeNext (frame e) s
      kfree fuel (frame e) s

/-- `dfs_kfree_page`. -/
def dfsKfreePage (fuel : ℕ) : ℕ → ℕ → State → Exec State
  | 0, pt, s => (List.finRange 512).foldlM (kfreeEntry fuel none pt) s
  | d + 1, pt, s => (List.finRange 512).foldlM (kfreeEntry fuel (some (dfsKfreePage fuel d)) pt) s

/-- The descriptor of a page frame that is shared. -/
def share (e : Descriptor) : Descriptor := descriptor (frame e) (userPageRX ||| pdCowPage)

/-- The body of the loop of `dfs_copy_page_tables`, with what is done at the next level. -/
def copyEntry (fuel : ℕ) (next : Option (ℕ → ℕ → State → Exec State)) (ptOld ptNew : ℕ)
    (s : State) (i : Fin 512) : Exec State :=
  let e := entry s.mem ptOld i
  if ¬isValid e then return s
  else match next with
    | none =>
      let s := s.setDescriptor (slot ptNew i) (share e)
      let s := s.setDescriptor (slot ptOld i) (share e)
      incPageRefCount (frame e) s
    | some copyNext => do
      let (newPageFrame, s) ← newTable fuel (slot ptNew i) s
      copyNext (frame e) newPageFrame s

/-- `dfs_copy_page_tables`. -/
def dfsCopyPageTables (fuel : ℕ) : ℕ → ℕ → ℕ → State → Exec State
  | 0, ptOld, ptNew, s => (List.finRange 512).foldlM (copyEntry fuel none ptOld ptNew) s
  | d + 1, ptOld, ptNew, s =>
    (List.finRange 512).foldlM (copyEntry fuel (some (dfsCopyPageTables fuel d)) ptOld ptNew) s

/-- `copy_from`. -/
def copyFrom (fuel pgd r : ℕ) (s : State) : Exec State := dfsCopyPageTables fuel 3 r pgd s

/-- `reset`. -/
def reset (fuel pgd : ℕ) (s : State) : Exec State := do
  let s ← dfsKfreePage fuel 3 pgd s
  clearPage pgd s

/-- The destructor. -/
def destruct (fuel pgd : ℕ) (s : State) : Exec State := do
  let s ← reset fuel pgd s
  kfree fuel pgd s

end Valkyrie.VMMap
