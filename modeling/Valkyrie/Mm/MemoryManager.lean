import Valkyrie.Mm.Zone

/-!
# The memory manager

`mm/MemoryManager.cc` and `mm/AddressSanitizer.cc`. Two zones of page frames: the
buddy allocator of the first serves the requests for pages and for anything that
does not fit in a page together with a chunk header; all other requests go to the
slob allocator of the second zone. Every pointer that is handed out is noted by a
sanitizer with room for a thousand pointers. It aborts when a pointer is handed out
twice, and when a pointer is given back that it has not noted. A null pointer
counts as handed out twice as long as there is a free entry, so a request that
cannot be served aborts too.

The lock that each of the functions takes is left out: the calls here are those of
one processor with interrupts masked.
-/

namespace Valkyrie

open Exec SlobAllocator BuddyAllocator

/-- `KERNEL_VA_BASE`. -/
def kernelVaBase : ℕ := 0xffff000000000000

namespace AddressSanitizer

/-- `mark_allocated`. When there is no free entry the pointer is not noted. -/
def markAllocated (p : ℕ) (allocatedPointers : List ℕ) : Exec (List ℕ) :=
  if p ∈ allocatedPointers then
    .error (.panic "*** kasan: pointer 0x%x is already allocated...\n")
  else
    .ok (allocatedPointers.replace 0 p)

/-- `mark_free_chk`. -/
def markFreeChk (p : ℕ) (allocatedPointers : List ℕ) : Exec (List ℕ) :=
  if p ∈ allocatedPointers then
    .ok (allocatedPointers.replace p 0)
  else
    .error (.panic "*** kasan: double free detected at 0x%x ***\n")

end AddressSanitizer

namespace MemoryManager

/-- `_zones[0].begin_addr`. -/
def zone0Begin : ℕ := 0x10000000

/-- `_zones[1].begin_addr`. -/
def zone1Begin : ℕ := 0x10200000

/-- The memory manager. Of the slob allocator of the first zone and the buddy
allocator of the second, only the latter is used. -/
structure State where
  /-- `_zones[0].buddy_allocator`. -/
  zone0 : BuddyAllocator.State
  /-- `_zones[1].buddy_allocator`. -/
  zone1 : BuddyAllocator.State
  /-- `_zones[1].slob_allocator`. -/
  slob1 : SlobAllocator.State
  /-- `_ref_counts`. -/
  refCounts : ℕ → ℤ
  /-- `_kasan._allocated_pointers`. -/
  allocatedPointers : List ℕ

/-- The constructor, on a memory with arbitrary contents. -/
def init (next : ℕ → Option ℕ) (index prevChunkSize : ℕ → ℤ) : State where
  zone0 := BuddyAllocator.init zone0Begin
  zone1 := BuddyAllocator.init zone1Begin
  slob1 := SlobAllocator.init next index prevChunkSize
  refCounts _ := 0
  allocatedPointers := List.replicate 1000 0

/-- `get_free_page`. -/
def getFreePage (fuel : ℕ) (physical : Bool) (s : State) : Exec (ℕ × State) := do
  let (ret, zone0) ← allocateOnePageFrame fuel s.zone0
  let allocatedPointers ← AddressSanitizer.markAllocated ret s.allocatedPointers
  return (if physical then ret else toSize (kernelVaBase + ret),
    { s with zone0 := zone0, allocatedPointers := allocatedPointers })

/-- `kmalloc`. -/
def kmalloc (fuel size : ℕ) (s : State) : Exec (ℕ × State) :=
  if pageSize ≤ toSize (size + chunkHeaderSize) then do
    let (ret, zone0) ← BuddyAllocator.allocate fuel size s.zone0
    let allocatedPointers ← AddressSanitizer.markAllocated ret s.allocatedPointers
    return (ret, { s with zone0 := zone0, allocatedPointers := allocatedPointers })
  else do
    let (ret, slob1, zone1) ←
      SlobAllocator.allocate allocateOnePageFrame fuel size s.slob1 s.zone1
    let allocatedPointers ← AddressSanitizer.markAllocated ret s.allocatedPointers
    return (ret,
      { s with slob1 := slob1, zone1 := zone1, allocatedPointers := allocatedPointers })

/-- The physical address of a kernel address. -/
def toPhysical (p : ℕ) : ℕ := if kernelVaBase ≤ p then p - kernelVaBase else p

/-- `kfree`. -/
def kfree (fuel p : ℕ) (s : State) : Exec State := do
  let p := toPhysical p
  let allocatedPointers ← AddressSanitizer.markFreeChk p s.allocatedPointers
  if pageIsAligned p then
    let zone0 ← BuddyAllocator.deallocate fuel p s.zone0
    return { s with zone0 := zone0, allocatedPointers := allocatedPointers }
  else
    let slob1 ← SlobAllocator.deallocate fuel p s.slob1
    return { s with slob1 := slob1, allocatedPointers := allocatedPointers }

/-! ### Reference counts -/

/-- `get_page_ref_idx`. -/
def getPageRefIdx (addr : ℕ) : Exec ℕ :=
  if addr < zone0Begin ∨ zone1Begin ≤ addr then
    .error (.panic "get_page_ref_idx(): p_addr (0x%p) out of bound\n")
  else if ¬pageIsAligned addr then
    .error (.panic "get_page_ref_idx(): p_addr (0x%p) is not a valid page address\n")
  else
    .ok ((addr - zone0Begin) / pageSize)

/-- `inc_page_ref_count`. -/
def incPageRefCount (addr : ℕ) (s : State) : Exec (ℤ × State) := do
  let idx ← getPageRefIdx addr
  let count := s.refCounts idx + 1
  return (count, { s with refCounts := Function.update s.refCounts idx count })

/-- `dec_page_ref_count`. -/
def decPageRefCount (addr : ℕ) (s : State) : Exec (ℤ × State) := do
  let idx ← getPageRefIdx addr
  let count := s.refCounts idx - 1
  return (count, { s with refCounts := Function.update s.refCounts idx count })

/-- `get_page_ref_count`. -/
def getPageRefCount (addr : ℕ) (s : State) : Exec ℤ := do
  let idx ← getPageRefIdx addr
  return s.refCounts idx

/-! ### The invariant -/

/-- **The blocks and the chunks that are live** are in the hands of their owners: the
pages and larger blocks of the first zone, and the chunks of the second with the
sizes they were asked for. -/
structure Inv (s : State) (pages : List ℕ) (chunks : List (ℕ × ℕ)) : Prop where
  zone0 : BuddyAllocator.RunInv zone0Begin (s.zone0, pages)
  zone1 : Zone.Inv zone1Begin s.zone1 s.slob1 chunks

theorem goodZone0 : GoodZone zone0Begin := ⟨by decide, by decide, by decide⟩

theorem goodZone1 : GoodZone zone1Begin := ⟨by decide, by decide, by decide⟩

theorem zone1_lt : zone1Begin + maxOrderNrPages * pageSize < sizeMod := by decide

/-- The constructor hands out nothing. -/
theorem inv_init (next : ℕ → Option ℕ) (index prevChunkSize : ℕ → ℤ) :
    Inv (init next index prevChunkSize) [] [] :=
  ⟨⟨⟨_, BuddyAllocator.inv_init _⟩, by simp⟩, Zone.inv_init _ next index prevChunkSize⟩

/-- The addresses of the frames of the first zone. -/
def IsFrame (p : ℕ) : Prop := ∃ i, i < maxOrderNrPages ∧ p = zone0Begin + i * pageSize

theorem IsFrame.bounds {p : ℕ} (h : IsFrame p) :
    zone0Begin ≤ p ∧ p + pageSize ≤ zone1Begin ∧ pageSize ∣ p := by
  obtain ⟨i, hi, rfl⟩ := h
  rw [maxOrderNrPages_eq] at hi
  refine ⟨by omega, ?_, (Nat.dvd_add_right goodZone0.aligned).mpr (dvd_mul_left _ _)⟩
  simp only [zone0Begin, zone1Begin, pageSize_lit]
  omega

theorem IsFrame.isAligned {p : ℕ} (h : IsFrame p) : pageIsAligned p = true :=
  pageIsAligned_iff.mpr h.bounds.2.2

theorem IsFrame.le_two_pow {p : ℕ} (h : IsFrame p) : p + pageSize ≤ 2 ^ 63 :=
  h.bounds.2.1.trans (by decide)

section Calls

variable {s s' : State} {pages : List ℕ} {chunks : List (ℕ × ℕ)} {fuel p : ℕ}

/-- A pointer that is noted was not in the table. -/
theorem markAllocated_eq_ok {table table' : List ℕ}
    (h : AddressSanitizer.markAllocated p table = .ok table') :
    p ∉ table ∧ table' = table.replace 0 p := by
  rw [AddressSanitizer.markAllocated] at h
  split_ifs at h with hmem
  exact ⟨hmem, (Except.ok.inj h).symm⟩

/-- **What `get_free_page` has done** when it returns: the physical address is noted. -/
theorem getFreePage_eq_ok {physical : Bool} (h : getFreePage fuel physical s = .ok (p, s')) :
    ∃ ret zone0, allocateOnePageFrame fuel s.zone0 = .ok (ret, zone0) ∧
      p = (if physical then ret else toSize (kernelVaBase + ret)) ∧ ret ∉ s.allocatedPointers ∧
      s' = { s with
        zone0 := zone0
        allocatedPointers := s.allocatedPointers.replace 0 ret } := by
  obtain ⟨⟨ret, zone0⟩, hbuddy, h⟩ := bind_eq_ok.mp h
  obtain ⟨table, htable, h⟩ := bind_eq_ok.mp h
  obtain ⟨hfresh, rfl⟩ := markAllocated_eq_ok htable
  cases h
  exact ⟨ret, zone0, hbuddy, rfl, hfresh, rfl⟩

/-- **What `kmalloc` has done** when it returns. -/
theorem kmalloc_eq_ok {size : ℕ} (h : kmalloc fuel size s = .ok (p, s')) :
    p ∉ s.allocatedPointers ∧
      ((∃ zone0, BuddyAllocator.allocate fuel size s.zone0 = .ok (p, zone0) ∧ s' = { s with
          zone0 := zone0
          allocatedPointers := s.allocatedPointers.replace 0 p }) ∨
        toSize (size + chunkHeaderSize) < pageSize ∧ ∃ slob1 zone1,
          SlobAllocator.allocate allocateOnePageFrame fuel size s.slob1 s.zone1 =
            .ok (p, slob1, zone1) ∧ s' = { s with
              slob1 := slob1
              zone1 := zone1
              allocatedPointers := s.allocatedPointers.replace 0 p }) := by
  rw [kmalloc] at h
  split_ifs at h with hbig
  · obtain ⟨⟨ret, zone0⟩, hbuddy, h⟩ := bind_eq_ok.mp h
    obtain ⟨table, htable, h⟩ := bind_eq_ok.mp h
    obtain ⟨hfresh, rfl⟩ := markAllocated_eq_ok htable
    cases h
    exact ⟨hfresh, Or.inl ⟨zone0, hbuddy, rfl⟩⟩
  · obtain ⟨⟨ret, slob1, zone1⟩, hslob, h⟩ := bind_eq_ok.mp h
    obtain ⟨table, htable, h⟩ := bind_eq_ok.mp h
    obtain ⟨hfresh, rfl⟩ := markAllocated_eq_ok htable
    cases h
    exact ⟨hfresh, Or.inr ⟨not_le.mp hbig, slob1, zone1, hslob, rfl⟩⟩

/-- **What `kfree` has done** when it returns: the pointer was in the table, and one of the
allocators is left alone. -/
theorem kfree_eq_ok (h : kfree fuel p s = .ok s') : toPhysical p ∈ s.allocatedPointers ∧
    ((pageIsAligned (toPhysical p) = true ∧ ∃ zone0,
        BuddyAllocator.deallocate fuel (toPhysical p) s.zone0 = .ok zone0 ∧ s' = { s with
          zone0 := zone0
          allocatedPointers := s.allocatedPointers.replace (toPhysical p) 0 }) ∨
      pageIsAligned (toPhysical p) = false ∧ ∃ slob1,
        SlobAllocator.deallocate fuel (toPhysical p) s.slob1 = .ok slob1 ∧ s' = { s with
          slob1 := slob1
          allocatedPointers := s.allocatedPointers.replace (toPhysical p) 0 }) := by
  obtain ⟨table, htable, h⟩ := bind_eq_ok.mp h
  rw [AddressSanitizer.markFreeChk] at htable
  split_ifs at htable with hmem
  obtain rfl := Except.ok.inj htable
  refine ⟨hmem, ?_⟩
  split_ifs at h with hal
  · obtain ⟨zone0, hbuddy, h⟩ := bind_eq_ok.mp h
    cases h
    exact Or.inl ⟨hal, zone0, hbuddy, rfl⟩
  · obtain ⟨slob1, hslob, h⟩ := bind_eq_ok.mp h
    cases h
    exact Or.inr ⟨by simpa using hal, slob1, hslob, rfl⟩

/-- The live blocks of the first zone start at frames. -/
theorem Inv.isFrame (h : Inv s pages chunks) (hp : p ∈ pages) : IsFrame p := h.zone0.2 p hp

/-- **`kfree` of a page** or of a larger block takes it back. -/
theorem Inv.kfree_page (h : Inv s pages chunks) (hp : toPhysical p ∈ pages)
    (hcall : kfree fuel p s = .ok s') :
    s'.refCounts = s.refCounts ∧ Inv s' (pages.erase (toPhysical p)) chunks := by
  obtain ⟨-, ⟨-, zone0, hbuddy, rfl⟩ | ⟨hal, -⟩⟩ := kfree_eq_ok hcall
  swap
  · rw [(h.isFrame hp).isAligned] at hal
    cases hal
  exact ⟨rfl, BuddyAllocator.runInv_step goodZone0 h.zone0 (.deallocate fuel hp hbuddy), h.zone1⟩

/-- **`kfree` of a chunk** takes it back. -/
theorem Inv.kfree_chunk (h : Inv s pages chunks) {n : ℕ} (hp : (toPhysical p, n) ∈ chunks)
    (hcall : kfree fuel p s = .ok s') : Inv s' pages (chunks.erase (toPhysical p, n)) := by
  obtain ⟨-, ⟨hal, -⟩ | ⟨-, slob1, hslob, rfl⟩⟩ := kfree_eq_ok hcall
  · rw [h.zone1.pageIsAligned_eq hp] at hal
    cases hal
  obtain ⟨enough, hmeets⟩ := h.zone1.deallocate hp
  exact ⟨h.zone0, (hmeets fuel).of_eq_ok hslob⟩

end Calls

/-! ### Runs -/

/-- A call of the memory manager. -/
inductive Call where
  /-- `get_free_page(physical)`. -/
  | getFreePage (physical : Bool) : Call
  /-- `kmalloc(size)`. -/
  | kmalloc (size : ℕ) : Call
  /-- `kfree(p)`. -/
  | kfree (p : ℕ) : Call

/-- **One step**, on the memory manager, the live blocks of the first zone and the live
chunks of the second. The calls are restricted by `ok`. A pointer that is given
back need not be live. Between the calls the owners of the chunks write to them. -/
inductive Step (ok : State → List ℕ → List (ℕ × ℕ) → Call → Prop) :
    State × List ℕ × List (ℕ × ℕ) → State × List ℕ × List (ℕ × ℕ) → Prop
  | getFreePage {s s' : State} {pages : List ℕ} {chunks : List (ℕ × ℕ)} {p : ℕ} (fuel : ℕ)
      (physical : Bool) (hok : ok s pages chunks (.getFreePage physical))
      (h : getFreePage fuel physical s = .ok (p, s')) :
      Step ok (s, pages, chunks)
        (s', if toPhysical p = 0 then pages else toPhysical p :: pages, chunks)
  | kmalloc {s s' : State} {pages : List ℕ} {chunks : List (ℕ × ℕ)} {p : ℕ} (fuel size : ℕ)
      (hsize : size < sizeMod) (hok : ok s pages chunks (.kmalloc size))
      (h : kmalloc fuel size s = .ok (p, s')) :
      Step ok (s, pages, chunks)
        (s', if p = 0 ∨ pageIsAligned p = false then pages else p :: pages,
          if p = 0 ∨ pageIsAligned p = true then chunks else (p, size) :: chunks)
  | kfreePage {s s' : State} {pages : List ℕ} {chunks : List (ℕ × ℕ)} {p : ℕ} (fuel : ℕ)
      (hp : toPhysical p ∈ pages) (hok : ok s pages chunks (.kfree p))
      (h : kfree fuel p s = .ok s') :
      Step ok (s, pages, chunks) (s', pages.erase (toPhysical p), chunks)
  | kfreeChunk {s s' : State} {pages : List ℕ} {chunks : List (ℕ × ℕ)} {p n : ℕ} (fuel : ℕ)
      (hp : (toPhysical p, n) ∈ chunks) (hok : ok s pages chunks (.kfree p))
      (h : kfree fuel p s = .ok s') :
      Step ok (s, pages, chunks) (s', pages, chunks.erase (toPhysical p, n))
  | kfreeStale {s s' : State} {pages : List ℕ} {chunks : List (ℕ × ℕ)} {p : ℕ} (fuel : ℕ)
      (hpages : toPhysical p ∉ pages) (hchunks : toPhysical p ∉ chunks.map Prod.fst)
      (hok : ok s pages chunks (.kfree p)) (h : kfree fuel p s = .ok s') :
      Step ok (s, pages, chunks) (s', pages, chunks)
  | store {s : State} {pages : List ℕ} {chunks : List (ℕ × ℕ)} {slob1 : SlobAllocator.State}
      (h : Stores chunks s.slob1 slob1) :
      Step ok (s, pages, chunks) ({ s with slob1 := slob1 }, pages, chunks)

end MemoryManager

end Valkyrie
