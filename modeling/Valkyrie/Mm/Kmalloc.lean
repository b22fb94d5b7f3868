import Valkyrie.Mm.AddressSanitizer

/-!
# Which requests the memory manager can serve

A size goes through `kmalloc` in several widths. The header is added in 64 bits, so
a size close to `2 ^ 64` becomes a small one; the buddy allocator rounds up to a
power of two by doubling, which never reaches a size above `2 ^ 63`; and the number
of pages is converted to a signed integer of 32 bits, so that `2 ^ 31` pages are a
negative number, whose logarithm the loop never finds, and more pages are none at
all, which is the order of a single page.

`Valkyrie.MemoryManager.Serves` says what a request should meet: `kmalloc` comes to
an end, and what it hands out is large enough. Up to `2 ^ 42` bytes it does, in every
state that is reached without a header being overwritten; above, it does not even on
a memory manager that was just constructed (`Valkyrie.MemoryManager.serves_iff`).

To abort is an end too. What is excluded here is to go on for ever, which is why the
bounds of the loops are part of the statement.
-/

namespace Valkyrie

namespace BuddyAllocator

open Exec

variable {size : ℕ}

/-! ### The order of a size -/

theorem two_pow_div_pageSize {j : ℕ} (hj : 12 ≤ j) : 2 ^ j / pageSize = 2 ^ (j - 12) :=
  Nat.pow_div hj (by norm_num)

/-- A size of more than half a page is rounded to a number of pages. -/
theorem le_of_two_pow_ge {j : ℕ} (hsize : 2048 < size) (hj : size ≤ 2 ^ j) : 12 ≤ j := by
  by_contra hlt
  have hle : 2 ^ j ≤ 2 ^ 11 := Nat.pow_le_pow_right (by norm_num) (by omega)
  omega

/-- **Up to `2 ^ 42` bytes the order is that of a block that is large enough.** -/
theorem order_of_le (hsize : 2048 < size) (hle : size ≤ 2 ^ 42) :
    ∃ k, Order 64 size k ∧ size ≤ pageSize * 2 ^ k := by
  obtain ⟨j, hj, hx, hlow⟩ := exists_least_two_pow hle
  have h12 := le_of_two_pow_ge hsize hx
  refine ⟨j - 12, ⟨2 ^ j, roundUpToPowOf2_eq (by omega) hx hlow (by omega), by positivity, ?_⟩, ?_⟩
  · have hlt : 2 ^ (j - 12) < 2 ^ 31 := Nat.pow_lt_pow_right (by norm_num) (by omega)
    rw [sizeToOrder, two_pow_div_pageSize h12, toInt_of_lt hlt, Nat.cast_pow]
    exact log2_two_pow _ (by omega)
  · have hpage : pageSize * 2 ^ (j - 12) = 2 ^ j := by
      rw [show pageSize = 2 ^ 12 from rfl, ← pow_add]
      congr 1
      omega
    rwa [hpage]

/-- **Above `2 ^ 43` bytes the order is that of one page**, if the rounding returns. -/
theorem order_of_gt (hgt : 2 ^ 43 < size) (hle : size ≤ 2 ^ 63) : Order 64 size 0 := by
  obtain ⟨j, hj, hx, hlow⟩ := exists_least_two_pow hle
  have h44 : 44 ≤ j := by
    by_contra hlt
    have hle : 2 ^ j ≤ 2 ^ 43 := Nat.pow_le_pow_right (by norm_num) (by omega)
    omega
  refine ⟨2 ^ j, roundUpToPowOf2_eq (by omega) hx hlow (by omega), by positivity, ?_⟩
  have h32 : 32 ≤ j - 12 := by omega
  rw [sizeToOrder, two_pow_div_pageSize (by omega), toInt_of_dvd (pow_dvd_pow 2 h32)]
  exact log2_zero (by norm_num)

/-- **Between `2 ^ 42` and `2 ^ 43` bytes the logarithm does not return.** -/
theorem allocate_of_negative (hgt : 2 ^ 42 < size) (hle : size ≤ 2 ^ 43) (fuel : ℕ) (s : State) :
    allocate fuel size s = .error .outOfFuel := by
  rw [allocate, normalizeSize]
  cases hround : roundUpToPowOf2 fuel size with
  | error e => rw [roundUpToPowOf2_error hround, error_bind]
  | ok r =>
    have hlow : ∀ k, k < 43 → 2 ^ k < size := fun k hk =>
      lt_of_le_of_lt (Nat.pow_le_pow_right (by norm_num) (by omega)) hgt
    have hmore := roundUpToPowOf2_mono hround (Nat.le_add_right fuel 64)
    rw [roundUpToPowOf2_eq (j := 43) (by decide) hle hlow (by omega)] at hmore
    obtain rfl := Except.ok.inj hmore
    have hneg : toInt (2 ^ 43 / pageSize) < 0 := by decide
    rw [ok_bind, sizeToOrder, log2_of_neg hneg, error_bind]

/-- **Above `2 ^ 63` bytes the rounding does not return.** -/
theorem allocate_of_gt (hgt : 2 ^ 63 < size) (fuel : ℕ) (s : State) :
    allocate fuel size s = .error .outOfFuel := by
  rw [allocate, normalizeSize, roundUpToPowOf2_of_gt hgt, error_bind]

end BuddyAllocator

namespace MemoryManager

open Exec SlobAllocator

/-! ### What a request should meet -/

/-- The bytes of the block behind a pointer: a block of the buddy allocator of its
order, or a chunk of the slob allocator without its header. -/
def capacity (s : State) (p : ℕ) : ℕ :=
  if pageIsAligned p then pageSize * 2 ^ (BuddyAllocator.blockOf zone0Begin s.zone0 p).order
  else getSize s.slob1 (p - chunkHeaderSize) -
    chunkHeaderSize

/-- **The request is served**: `kmalloc` comes to an end, and what it hands out is large
enough. -/
def Serves (s : State) (size : ℕ) : Prop :=
  (∃ enough, ∀ fuel, enough ≤ fuel → kmalloc fuel size s ≠ .error .outOfFuel) ∧
    ∀ fuel p s', kmalloc fuel size s = .ok (p, s') → p ≠ 0 → size ≤ capacity s' p

section Served

variable {s s' : State} {pages : List ℕ} {chunks : List (ℕ × ℕ)} {size : ℕ}

/-- The sanitizer comes to an end. -/
theorem markAllocated_bind_ne {α : Type} (p : ℕ) (table : List ℕ) (f : List ℕ → α) :
    (do return f (← AddressSanitizer.markAllocated p table) : Exec α) ≠ .error .outOfFuel := by
  rw [AddressSanitizer.markAllocated]
  split_ifs
  · exact fun h => by cases h
  · exact fun h => by cases h

/-- A size for which the header is added without wrapping around. -/
theorem toSize_add_header (hle : size ≤ 2 ^ 42) :
    toSize (size + chunkHeaderSize) = size + 16 := by
  refine toSize_of_lt ?_
  rw [sizeMod_lit, chunkHeaderSize]
  omega

/-- A request for pages. -/
theorem Inv.serves_pages (h : Inv s pages chunks)
    (hbig : pageSize ≤ toSize (size + chunkHeaderSize)) (hle : size ≤ 2 ^ 42) :
    Serves s size := by
  have hmin : 4096 ≤ size + 16 := by rwa [toSize_add_header hle] at hbig
  obtain ⟨k, hord, hcap⟩ := BuddyAllocator.order_of_le (by omega) hle
  refine ⟨⟨BuddyAllocator.maxOrderNrPages, fun fuel hf => ?_⟩, fun fuel p s' hcall hp => ?_⟩
  · obtain ⟨⟨L, hinv⟩, -⟩ := h.zone0
    have hf' : 64 ≤ fuel := le_trans (by decide) hf
    obtain ⟨⟨p, zone0⟩, hbuddy, -⟩ :=
      (hinv.allocate fuel size).exists_ok ⟨⟨k, hord.mono hf'⟩, hf⟩
    rw [MemoryManager.kmalloc, if_pos hbig, hbuddy, ok_bind]
    exact markAllocated_bind_ne _ _ _
  · rw [MemoryManager.kmalloc, if_pos hbig] at hcall
    obtain ⟨⟨ret, zone0⟩, hbuddy, hcall⟩ := bind_eq_ok.mp hcall
    obtain ⟨table, -, hcall⟩ := bind_eq_ok.mp hcall
    cases hcall
    rcases h.zone0.allocate goodZone0 hbuddy with ⟨h0, -⟩ | ⟨hframe, -, -, hord', -⟩
    · exact absurd h0 hp
    · rwa [capacity, if_pos (IsFrame.isAligned hframe), hord'.unique hord]

/-- A request for a chunk. -/
theorem Inv.serves_chunk (h : Inv s pages chunks)
    (hsmall : toSize (size + chunkHeaderSize) < pageSize) (hle : size ≤ 2 ^ 42) :
    Serves s size := by
  have hsize := toSize_add_header hle
  obtain ⟨enough, hmeets⟩ := h.zone1.allocate_size goodZone1 zone1_lt
    (show toSize (chunkHeaderSize + size) ≤ pageSize by
      rw [Nat.add_comm]
      exact hsmall.le)
  refine ⟨⟨enough, fun fuel hf => ?_⟩, fun fuel p s' hcall hp => ?_⟩
  · obtain ⟨⟨p, slob1, zone1⟩, hslob, -⟩ := (hmeets fuel).exists_ok hf
    rw [MemoryManager.kmalloc, if_neg (by omega), hslob, ok_bind]
    exact markAllocated_bind_ne _ _ _
  · rw [MemoryManager.kmalloc, if_neg (by omega)] at hcall
    obtain ⟨⟨ret, slob1, zone1⟩, hslob, hcall⟩ := bind_eq_ok.mp hcall
    obtain ⟨table, -, hcall⟩ := bind_eq_ok.mp hcall
    cases hcall
    obtain ⟨hal, hget⟩ := (hmeets fuel).of_eq_ok hslob hp
    rw [Nat.add_comm, hsize] at hget
    rw [capacity, if_neg (by simp [hal])]
    exact Nat.le_sub_of_add_le hget

/-- **What `operator new` refuses**, `kmalloc` refuses in every state of the sanitizer but a
full one. -/
theorem kmalloc_of_operatorNew {e : Stop} {fuel : ℕ} (h : operatorNew size = .error e)
    (hle : size ≤ 2 ^ 42) (h0 : 0 ∈ s.allocatedPointers) (hf : 64 ≤ fuel) :
    kmalloc fuel size s = .error e := by
  rw [operatorNew] at h
  split_ifs at h with hsize
  obtain rfl := Except.error.inj h
  rw [kmalloc, toSize_add_header hle, pageSize_lit]
  rcases hsize with rfl | hgt
  · rw [if_neg (by simp), SlobAllocator.allocate, if_pos rfl]
    simp only [pure_bind, markAllocated_zero, if_pos h0]
    rfl
  · obtain ⟨k, hord, hcap⟩ := BuddyAllocator.order_of_le (by omega) hle
    obtain ⟨r, hround, hr, hord⟩ := hord.mono hf
    have hk : BuddyAllocator.maxOrder ≤ k := by
      by_contra hlt
      rw [BuddyAllocator.maxOrder, not_le] at hlt
      have : 2 ^ k ≤ 2 ^ 9 := Nat.pow_le_pow_right (by norm_num) (by omega)
      rw [pageSize_lit] at hcap
      omega
    rw [if_pos (by omega), BuddyAllocator.allocate, hround, ok_bind]
    simp only [hord, ok_bind, if_neg hr, if_pos hk, pure_bind, markAllocated_zero,
      if_pos h0]
    rfl

end Served

/-! ### Where it fails -/

section Fails

variable {next : ℕ → Option ℕ} {index prevChunkSize : ℕ → ℤ} {size : ℕ}

/-- A request that never comes to an end. -/
theorem kmalloc_of_outOfFuel {s : State}
    (hbig : pageSize ≤ toSize (size + chunkHeaderSize))
    (h : ∀ fuel, BuddyAllocator.allocate fuel size s.zone0 = .error .outOfFuel) (fuel : ℕ) :
    kmalloc fuel size s = .error .outOfFuel := by
  rw [kmalloc, if_pos hbig, h fuel, error_bind]

/-- **More than `2 ^ 43` bytes get one page.** -/
theorem capacity_of_gt (hgt : 2 ^ 43 < size) (hle : size ≤ 2 ^ 63) :
    ∃ fuel p s, kmalloc fuel size (init next index prevChunkSize) = .ok (p, s) ∧ p ≠ 0 ∧
      capacity s p = pageSize := by
  have hord := BuddyAllocator.order_of_gt hgt hle
  obtain ⟨p, zone0, hbuddy, hp⟩ := BuddyAllocator.allocate_init goodZone0 le_rfl
    (hord.mono (by decide)) (by decide)
  have hbig : pageSize ≤ toSize (size + chunkHeaderSize) := by
    rw [chunkHeaderSize, toSize_of_lt (by rw [sizeMod_lit]; omega),
      pageSize_lit]
    omega
  have hfresh : p ∉ (init next index prevChunkSize).allocatedPointers :=
    fun hmem => hp (List.eq_of_mem_replicate hmem)
  refine ⟨BuddyAllocator.maxOrderNrPages, p, { init next index prevChunkSize with
    zone0 := zone0
    allocatedPointers := (List.replicate 1000 0).replace 0 p }, ?_, hp, ?_⟩
  · rw [kmalloc, if_pos hbig]
    simp only [init] at hfresh ⊢
    simp only [hbuddy, ok_bind, AddressSanitizer.markAllocated, if_neg hfresh]
    rfl
  · rcases (inv_init next index prevChunkSize).zone0.allocate goodZone0 hbuddy with
      ⟨h0, -⟩ | ⟨hframe, -, -, hord', -⟩
    · exact absurd h0 hp
    · rw [capacity, if_pos (IsFrame.isAligned hframe), hord'.unique hord, pow_zero, mul_one]

/-- **A size that wraps around gets the smallest chunk.** -/
theorem capacity_of_wrap (hge : sizeMod ≤ size + 16) (hlt : size < sizeMod) :
    ∃ fuel p s, kmalloc fuel size (init next index prevChunkSize) = .ok (p, s) ∧ p ≠ 0 ∧
      capacity s p = 16 := by
  have hwrap : toSize (size + chunkHeaderSize) = size + 16 - sizeMod := by
    rw [toSize, chunkHeaderSize, sizeMod_lit] at *
    omega
  have hsmall : toSize (size + chunkHeaderSize) < 16 := by omega
  have hnorm : SlobAllocator.normalizeSize 100
      (toSize (chunkHeaderSize + size)) = .ok 32 := by
    rw [SlobAllocator.normalizeSize, Nat.add_comm,
      max_eq_right (hsmall.le.trans (by decide : 16 ≤ smallestChunkSize))]
    decide +kernel
  have hne : size ≠ 0 := by
    rintro rfl
    exact absurd hge (by decide)
  obtain ⟨s, hcall, -, -, hindex⟩ := (packed_init next index prevChunkSize).kmalloc
    ⟨hne, hsmall.trans (by decide), hnorm, by decide +kernel, by decide⟩ (by decide) (by decide)
  refine ⟨100, _, s, hcall, by decide, ?_⟩
  rw [capacity, if_neg (by decide)]
  change getSize s.slob1 (zone1Begin + 0) - 16 = 16
  rw [getSize, hindex]
  decide +kernel

end Fails

/-- **The sizes that are served.** A request is served in every state reached without a
header being overwritten, if and only if it asks for `2 ^ 42` bytes at most. -/
theorem serves_iff {size : ℕ} (hlt : size < sizeMod) :
    (∀ next index prevChunkSize s pages chunks,
      Run (Step KeepsHeaders) (init next index prevChunkSize, [], []) (s, pages, chunks) →
        Serves s size) ↔ size ≤ 2 ^ 42 := by
  constructor
  · intro h
    by_contra hgt
    rw [not_le] at hgt
    obtain ⟨⟨enough, hends⟩, hcap⟩ :=
      h (fun _ => none) (fun _ => 0) (fun _ => 0) _ _ _ Relation.ReflTransGen.refl
    rw [sizeMod_lit] at hlt
    -- From one limit to the next: the sign, the width, the rounding, the header.
    rcases Nat.lt_or_ge (2 ^ 43) size with h43 | h43
    · rcases Nat.lt_or_ge (2 ^ 63) size with h63 | h63
      · rcases Nat.lt_or_ge (size + 16) sizeMod with hwrap | hwrap
        · have hbig : pageSize ≤ toSize (size + chunkHeaderSize) := by
            rw [chunkHeaderSize, toSize_of_lt hwrap, pageSize_lit]
            omega
          exact hends enough le_rfl (kmalloc_of_outOfFuel hbig
            (BuddyAllocator.allocate_of_gt h63 · _) enough)
        · obtain ⟨fuel, p, s, hcall, hp, hEq⟩ := capacity_of_wrap hwrap (by
            rwa [sizeMod_lit])
          have := hcap fuel p s hcall hp
          omega
      · obtain ⟨fuel, p, s, hcall, hp, hEq⟩ := capacity_of_gt h43 h63
        have := hcap fuel p s hcall hp
        rw [hEq, pageSize_lit] at this
        omega
    · have hbig : pageSize ≤ toSize (size + chunkHeaderSize) := by
        rw [chunkHeaderSize, toSize_of_lt (by rw [sizeMod_lit]; omega),
          pageSize_lit]
        omega
      exact hends enough le_rfl (kmalloc_of_outOfFuel hbig
        (BuddyAllocator.allocate_of_negative hgt h43 · _) enough)
  · intro hle next index prevChunkSize s pages chunks hrun
    have hinv := inv_of_keepsHeaders (fun _ _ _ _ h => h) hrun
    rcases Nat.lt_or_ge (toSize (size + chunkHeaderSize)) pageSize with hs | hb
    · exact hinv.serves_chunk hs hle
    · exact hinv.serves_pages hb hle

/-- **A size at each limit** on a memory manager just constructed: `2 ^ 43` bytes are
looked for without end, one byte more gets a page, and the greatest size gets sixteen
bytes. -/
theorem not_serves_above_limit :
    (∀ fuel, kmalloc fuel (2 ^ 43) (init (fun _ => none) (fun _ => 0) (fun _ => 0)) =
        .error .outOfFuel) ∧
      (∃ fuel p s, kmalloc fuel (2 ^ 43 + 1) (init (fun _ => none) (fun _ => 0) (fun _ => 0)) =
        .ok (p, s) ∧ p ≠ 0 ∧ capacity s p = 4096) ∧
      (∃ fuel p s, kmalloc fuel (2 ^ 64 - 1) (init (fun _ => none) (fun _ => 0) (fun _ => 0)) =
        .ok (p, s) ∧ p ≠ 0 ∧ capacity s p = 16) :=
  ⟨kmalloc_of_outOfFuel (by decide) (BuddyAllocator.allocate_of_negative (by decide) le_rfl · _),
    capacity_of_gt (by decide) (by decide), capacity_of_wrap (by decide) (by decide)⟩

/-- One page is served, from the constructor on. -/
theorem serves_one_page :
    Serves (init (fun _ => none) (fun _ => 0) (fun _ => 0)) 4096 :=
  (serves_iff (by decide)).mpr (by decide) _ _ _ _ _ _ Relation.ReflTransGen.refl

end MemoryManager

end Valkyrie
