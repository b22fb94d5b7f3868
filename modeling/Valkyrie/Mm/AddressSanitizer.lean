import Valkyrie.Mm.MemoryManager

/-!
# What the sanitizer knows

`mm/AddressSanitizer.cc` keeps a table of the pointers that are live, so that a
pointer that is given back twice is noticed. The table should hold exactly the live
pointers (`Valkyrie.MemoryManager.Exact`). It has a thousand entries, and a pointer
that finds no free entry is dropped without a word; when such a pointer is given
back, the sanitizer takes it for one that was freed before
(`Valkyrie.MemoryManager.not_exact_of_full_table`). In the runs that never have a
thousand live pointers when they ask for another one, the table is exact
(`Valkyrie.MemoryManager.exact_of_run`), and that does not depend on the allocators
behind it.

An entry that is free is a null pointer. A request that cannot be served is noted
like any other, and finds the null pointer in the table: it aborts, unless the table
is full (`Valkyrie.MemoryManager.returns_null_iff`).
-/

namespace Valkyrie.MemoryManager

open Exec SlobAllocator BuddyAllocator

/-! ### The table -/

/-- Replacing one entry of a list changes two counts. -/
theorem count_replace {l : List ℕ} {a : ℕ} (h : a ∈ l) (b q : ℕ) :
    (l.replace a b).count q + (if a = q then 1 else 0) = l.count q + if b = q then 1 else 0 := by
  induction l with
  | nil => simp at h
  | cons x l ih =>
    rw [List.replace_cons]
    by_cases hx : a = x
    · subst hx
      simp only [beq_self_eq_true, List.count_cons, beq_iff_eq]
      omega
    · have hmem : a ∈ l := (List.mem_cons.mp h).resolve_left hx
      have hcount := ih hmem
      simp only [beq_eq_false_iff_ne.mpr hx, List.count_cons, beq_iff_eq]
      omega

theorem mem_replace {l : List ℕ} {a b q : ℕ} (hq : q ∈ l.replace a b) : q = b ∨ q ∈ l := by
  by_cases ha : a ∈ l
  · have hcount := count_replace ha b q
    have hpos := List.count_pos_iff.mpr hq
    by_cases hb : b = q
    · exact Or.inl hb.symm
    · rw [if_neg hb] at hcount
      exact Or.inr (List.count_pos_iff.mp (by omega))
  · rw [List.replace_of_not_mem ha] at hq
    exact Or.inr hq

/-- What `kfree` does to the table. -/
theorem kfree_table {fuel p : ℕ} {s s' : State} (h : kfree fuel p s = .ok s') :
    toPhysical p ∈ s.allocatedPointers ∧
      s'.allocatedPointers = s.allocatedPointers.replace (toPhysical p) 0 := by
  obtain ⟨hmem, ⟨-, zone0, -, rfl⟩ | ⟨-, slob1, -, rfl⟩⟩ := kfree_eq_ok h
  · exact ⟨hmem, rfl⟩
  · exact ⟨hmem, rfl⟩

/-! ### The table is part of the live pointers -/

/-- **The table holds live pointers only**, each once, and it has a thousand
entries. -/
structure Noted (table live : List ℕ) : Prop where
  length : table.length = 1000
  count : ∀ p, p ≠ 0 → table.count p ≤ 1
  isLive : ∀ p ∈ table, p ≠ 0 → p ∈ live

/-- **The table holds the live pointers.** -/
structure Exact (table live : List ℕ) : Prop extends Noted table live where
  noted : ∀ p ∈ live, p ≠ 0 ∧ p ∈ table
  nodup : live.Nodup

section Table

variable {table live live' : List ℕ} {p : ℕ}

/-- The live pointers in another order. -/
theorem Noted.perm (h : Noted table live) (hp : ∀ q, q ∈ live → q ∈ live') : Noted table live' :=
  ⟨h.length, h.count, fun q hq h0 => hp q (h.isLive q hq h0)⟩

theorem Exact.perm (h : Exact table live) (hp : live.Perm live') : Exact table live' where
  toNoted := h.toNoted.perm fun _ => hp.mem_iff.mp
  noted q hq := h.noted q (hp.mem_iff.mpr hq)
  nodup := hp.nodup_iff.mp h.nodup

/-- A null pointer is noted in vain. -/
theorem replace_zero_zero (table : List ℕ) : table.replace 0 0 = table := by
  induction table with
  | nil => rfl
  | cons x l ih =>
    rw [List.replace_cons]
    by_cases hx : (0 : ℕ) = x
    · simp [hx]
    · simp only [beq_eq_false_iff_ne.mpr hx, ih]

/-- A pointer is noted if there is room for it. -/
theorem Noted.alloc (h : Noted table live) (hp : p ∉ table) :
    Noted (table.replace 0 p) (p :: live) where
  length := by rw [List.length_replace, h.length]
  count q hq := by
    by_cases h0 : 0 ∈ table
    · have hcount := count_replace h0 p q
      rw [if_neg (Ne.symm hq)] at hcount
      by_cases hpq : p = q
      · rw [← hpq, List.count_eq_zero.mpr hp] at hcount
        rw [← hpq]
        split_ifs at hcount <;> omega
      · rw [if_neg hpq] at hcount
        have := h.count q hq
        omega
    · rw [List.replace_of_not_mem h0]
      exact h.count q hq
  isLive q hq hq0 := by
    rcases mem_replace hq with rfl | hq
    · exact List.mem_cons_self
    · exact List.mem_cons_of_mem _ (h.isLive q hq hq0)

/-- **A pointer that is given back** is in the table no more. -/
theorem Noted.free (h : Noted table live) (hp : p ∈ table) (hp0 : p ≠ 0) :
    Noted (table.replace p 0) live ∧ p ∉ table.replace p 0 ∧
      ∀ q ∈ table, q ≠ 0 → q ≠ p → q ∈ table.replace p 0 := by
  have hcount : ∀ q, q ≠ 0 → (table.replace p 0).count q + (if p = q then 1 else 0) =
      table.count q := by
    intro q hq
    have := count_replace hp 0 q
    rwa [if_neg (Ne.symm hq), Nat.add_zero] at this
  refine ⟨⟨by rw [List.length_replace, h.length], fun q hq => ?_, fun q hq hq0 => ?_⟩, ?_, ?_⟩
  · have h1 := hcount q hq
    have h2 := h.count q hq
    omega
  · rcases mem_replace hq with rfl | hq
    · exact absurd rfl hq0
    · exact h.isLive q hq hq0
  · have h1 := hcount p hp0
    have h2 := h.count p hp0
    rw [if_pos rfl] at h1
    exact List.count_eq_zero.mp (by omega)
  · intro q hq hq0 hqp
    have h1 := hcount q hq0
    have h2 := List.count_pos_iff.mpr hq
    rw [if_neg (Ne.symm hqp)] at h1
    exact List.count_pos_iff.mp (by omega)

/-- **With fewer than a thousand live pointers there is a free entry.** -/
theorem Noted.zero_mem (h : Noted table live) (hlt : live.length < 1000) : 0 ∈ table := by
  by_contra h0
  have hne : ∀ p ∈ table, p ≠ 0 := fun p hp hEq => h0 (hEq ▸ hp)
  have hnodup : table.Nodup := by
    refine List.nodup_iff_count_le_one.mpr fun p => ?_
    by_cases hp : p = 0
    · rw [hp, List.count_eq_zero.mpr h0]
      exact Nat.zero_le _
    · exact h.count p hp
  have hsub : table ⊆ live := fun p hp => h.isLive p hp (hne p hp)
  have hle := (List.subperm_of_subset hnodup hsub).length_le
  have := h.length
  omega

/-- A pointer that finds a free entry keeps the table exact. -/
theorem Exact.alloc (h : Exact table live) (hp : p ∉ table) (hp0 : p ≠ 0)
    (hlt : live.length < 1000) : Exact (table.replace 0 p) (p :: live) where
  toNoted := h.toNoted.alloc hp
  noted q hq := by
    have h0 := h.toNoted.zero_mem hlt
    rcases List.mem_cons.mp hq with rfl | hq
    · refine ⟨hp0, List.count_pos_iff.mp ?_⟩
      have := count_replace h0 q q
      rw [if_neg hp0.symm, if_pos rfl] at this
      omega
    · obtain ⟨hq0, hmem⟩ := h.noted q hq
      refine ⟨hq0, List.count_pos_iff.mp ?_⟩
      have := count_replace h0 p q
      have hpos := List.count_pos_iff.mpr hmem
      rw [if_neg hq0.symm] at this
      omega
  nodup := List.nodup_cons.mpr ⟨fun hmem => hp (h.noted p hmem).2, h.nodup⟩

/-- Giving a pointer back keeps the table exact. -/
theorem Exact.free (h : Exact table live) (hp : p ∈ table) (hp0 : p ≠ 0) :
    Exact (table.replace p 0) (live.erase p) := by
  obtain ⟨hnoted, hout, hkeep⟩ := h.toNoted.free hp hp0
  refine ⟨⟨hnoted.length, hnoted.count, fun q hq hq0 => ?_⟩, fun q hq => ?_, h.nodup.erase p⟩
  · have hne : q ≠ p := fun hEq => hout (hEq ▸ hq)
    exact (List.mem_erase_of_ne hne).mpr (hnoted.isLive q hq hq0)
  · obtain ⟨hne, hmem⟩ := (h.nodup.mem_erase_iff).mp hq
    obtain ⟨hq0, hq'⟩ := h.noted q hmem
    exact ⟨hq0, hkeep q hq' hq0 hne⟩

end Table

/-! ### Runs -/

/-- The pointers that are live. -/
def livePointers (pages : List ℕ) (chunks : List (ℕ × ℕ)) : List ℕ := pages ++ chunks.map Prod.fst

/-- **What holds of every run**, whatever becomes of the slob allocator: the first zone
is in order, a chunk is never taken for a page, and the table holds live pointers
only. -/
structure Tracked (s : State) (pages : List ℕ) (chunks : List (ℕ × ℕ)) : Prop where
  zone0 : BuddyAllocator.RunInv zone0Begin (s.zone0, pages)
  chunk : ∀ e ∈ chunks, e.1 ≠ 0 ∧ pageIsAligned e.1 = false
  noted : Noted s.allocatedPointers (livePointers pages chunks)

theorem IsFrame.lt {p : ℕ} (h : IsFrame p) : p < kernelVaBase := by
  have hlt : zone1Begin < kernelVaBase := by decide
  have := h.bounds
  omega

/-- The physical address of a page is the one that was noted. -/
theorem toPhysical_page {ret : ℕ} (h : ret = 0 ∨ IsFrame ret) (physical : Bool) :
    toPhysical (if physical then ret else toSize (kernelVaBase + ret)) = ret := by
  have hlt : ret < 2 ^ 48 := by
    rcases h with rfl | h
    · decide
    · have := h.bounds
      simp only [zone1Begin, pageSize_lit] at this
      omega
  have hbase : kernelVaBase = 2 ^ 64 - 2 ^ 48 := by decide
  cases physical with
  | true =>
    rw [if_pos rfl, toPhysical, if_neg (by omega)]
  | false =>
    rw [if_neg (by simp), toSize_of_lt (by rw [sizeMod]; omega), toPhysical, if_pos (by omega)]
    omega

/-- **What a step does to the table and to the live pointers**: nothing, or it adds the
same pointer to both, or it takes the same pointer from both. -/
inductive TableStep (room : Prop) : List ℕ × List ℕ → List ℕ × List ℕ → Prop
  | same (table live : List ℕ) : TableStep room (table, live) (table, live)
  | alloc {table live live' : List ℕ} {p : ℕ} (hroom : room) (hp0 : p ≠ 0) (hp : p ∉ table)
      (hlive : (p :: live).Perm live') : TableStep room (table, live) (table.replace 0 p, live')
  | free {table live live' : List ℕ} {p : ℕ} (hp0 : p ≠ 0) (hp : p ∈ table) (hmem : p ∈ live)
      (hlive : (live.erase p).Perm live') :
      TableStep room (table, live) (table.replace p 0, live')

/-- The table stays part of the live pointers. -/
theorem TableStep.noted {room : Prop} {r r' : List ℕ × List ℕ} (hstep : TableStep room r r')
    (h : Noted r.1 r.2) : Noted r'.1 r'.2 := by
  cases hstep with
  | same table live => exact h
  | alloc hroom hp0 hp hlive => exact (h.alloc hp).perm fun _ => hlive.mem_iff.mp
  | @free table live live' p hp0 hp hmem hlive =>
    obtain ⟨hnoted, hout, -⟩ := h.free hp hp0
    refine ⟨hnoted.length, hnoted.count, fun q hq hq0 => hlive.mem_iff.mp ?_⟩
    have hne : q ≠ p := fun hEq => hout (hEq ▸ hq)
    exact (List.mem_erase_of_ne hne).mpr (hnoted.isLive q hq hq0)

/-- The table stays exact where there is room. -/
theorem TableStep.exact {room : Prop} {r r' : List ℕ × List ℕ} (hstep : TableStep room r r')
    (hroom : room → r.2.length < 1000) (h : Exact r.1 r.2) : Exact r'.1 r'.2 := by
  cases hstep with
  | same table live => exact h
  | alloc hr hp0 hp hlive => exact (h.alloc hp hp0 (hroom hr)).perm hlive
  | free hp0 hp hmem hlive => exact (h.free hp hp0).perm hlive

/-- The call asks for memory. -/
def Call.Allocates : Call → Prop
  | .getFreePage _ => True
  | .kmalloc _ => True
  | .kfree _ => False

section Run

variable {ok : State → List ℕ → List (ℕ × ℕ) → Call → Prop} {room : Prop} {s s' : State}
  {pages : List ℕ} {chunks : List (ℕ × ℕ)} {fuel p : ℕ}

/-- A pointer that was noted becomes live. -/
theorem TableStep.of_alloc {table live live' : List ℕ} {q : ℕ} (hroom : room) (hq : q ∉ table)
    (h0 : q = 0 → live' = live) (hne : q ≠ 0 → (q :: live).Perm live') :
    TableStep room (table, live) (table.replace 0 q, live') := by
  by_cases hzero : q = 0
  · rw [h0 hzero, hzero, replace_zero_zero]
    exact .same table live
  · exact .alloc hroom hzero hq (hne hzero)

/-- **A call of `get_free_page`**, seen from the table. -/
theorem Tracked.getFreePage (h : Tracked s pages chunks) (hroom : room) {physical : Bool}
    (hcall : getFreePage fuel physical s = .ok (p, s')) :
    BuddyAllocator.RunInv zone0Begin
        (s'.zone0, if toPhysical p = 0 then pages else toPhysical p :: pages) ∧
      TableStep room (s.allocatedPointers, livePointers pages chunks) (s'.allocatedPointers,
        livePointers (if toPhysical p = 0 then pages else toPhysical p :: pages) chunks) := by
  obtain ⟨ret, zone0, hbuddy, rfl, hfresh, rfl⟩ := getFreePage_eq_ok hcall
  have hrun := BuddyAllocator.runInv_step goodZone0 h.zone0 (.allocate fuel pageSize hbuddy)
  have hret : ret = 0 ∨ IsFrame ret := by
    rcases h.zone0.allocate goodZone0 hbuddy with ⟨h0, -⟩ | ⟨hframe, -⟩
    · exact Or.inl h0
    · exact Or.inr hframe
  rw [toPhysical_page hret]
  refine ⟨hrun, TableStep.of_alloc hroom hfresh (fun h0 => by rw [if_pos h0]) fun h0 => ?_⟩
  rw [if_neg h0]
  exact List.Perm.refl _

/-- **A call of `kmalloc`**, seen from the table. -/
theorem Tracked.kmalloc (h : Tracked s pages chunks) (hroom : room) {size : ℕ}
    (hcall : kmalloc fuel size s = .ok (p, s')) :
    BuddyAllocator.RunInv zone0Begin
        (s'.zone0, if p = 0 ∨ pageIsAligned p = false then pages else p :: pages) ∧
      TableStep room (s.allocatedPointers, livePointers pages chunks) (s'.allocatedPointers,
        livePointers (if p = 0 ∨ pageIsAligned p = false then pages else p :: pages)
          (if p = 0 ∨ pageIsAligned p = true then chunks else (p, size) :: chunks)) := by
  obtain ⟨hfresh, hcases⟩ := kmalloc_eq_ok hcall
  have htable : s'.allocatedPointers = s.allocatedPointers.replace 0 p := by
    rcases hcases with ⟨zone0, -, rfl⟩ | ⟨-, slob1, zone1, -, rfl⟩
    · rfl
    · rfl
  rw [htable]
  refine ⟨?_, TableStep.of_alloc hroom hfresh (fun h0 => ?_) fun h0 => ?_⟩
  · rcases hcases with ⟨zone0, hbuddy, rfl⟩ | ⟨-, slob1, zone1, hslob, rfl⟩
    · have hrun := BuddyAllocator.runInv_step goodZone0 h.zone0 (.allocate fuel size hbuddy)
      rcases h.zone0.allocate goodZone0 hbuddy with ⟨rfl, -⟩ | ⟨hframe, -⟩
      · exact hrun
      · simpa only [IsFrame.isAligned hframe, Bool.true_eq_false, or_false] using hrun
    · rw [if_pos (allocate_not_aligned hslob)]
      exact h.zone0
  · rw [if_pos (Or.inl h0), if_pos (Or.inl h0)]
  · cases hal : pageIsAligned p with
    | true =>
      rw [if_neg (by simp [h0]), if_pos (by simp)]
      exact List.Perm.refl _
    | false =>
      rw [if_pos (by simp), if_neg (by simp [h0])]
      exact List.perm_middle.symm

/-- A call of `kfree` on a pointer that is live, seen from the table. -/
theorem TableStep.of_kfree (hcall : kfree fuel p s = .ok s') {live live' : List ℕ}
    (hne : toPhysical p ≠ 0) (hlive : live.Perm (toPhysical p :: live')) :
    TableStep room (s.allocatedPointers, live) (s'.allocatedPointers, live') := by
  obtain ⟨hin, htable⟩ := kfree_table hcall
  rw [htable]
  refine .free hne hin (hlive.mem_iff.mpr List.mem_cons_self) ?_
  have herase := hlive.erase (toPhysical p)
  rwa [List.erase_cons_head] at herase

/-- **A pointer that is given back and not live is the null pointer**: any other one makes
`kfree` abort. -/
theorem Tracked.toPhysical_eq_zero (h : Tracked s pages chunks) (hpages : toPhysical p ∉ pages)
    (hchunks : toPhysical p ∉ chunks.map Prod.fst) (hcall : kfree fuel p s = .ok s') :
    toPhysical p = 0 := by
  by_contra hne
  rcases List.mem_append.mp (h.noted.isLive _ (kfree_table hcall).1 hne) with hmem | hmem
  · exact hpages hmem
  · exact hchunks hmem

/-- The state allows a request for memory. -/
def Asks (ok : State → List ℕ → List (ℕ × ℕ) → Call → Prop) (s : State) (pages : List ℕ)
    (chunks : List (ℕ × ℕ)) : Prop :=
  ∃ call, ok s pages chunks call ∧ call.Allocates

/-- **One step**, seen from the table. -/
theorem tracked_step {r r' : State × List ℕ × List (ℕ × ℕ)} (h : Tracked r.1 r.2.1 r.2.2)
    (hstep : Step ok r r') : Tracked r'.1 r'.2.1 r'.2.2 ∧
      TableStep (Asks ok r.1 r.2.1 r.2.2) (r.1.allocatedPointers, livePointers r.2.1 r.2.2)
        (r'.1.allocatedPointers, livePointers r'.2.1 r'.2.2) := by
  cases hstep with
  | @getFreePage s s' pages chunks p fuel physical hok hcall =>
    have hasks : Asks ok s pages chunks := ⟨.getFreePage physical, hok, trivial⟩
    obtain ⟨hzone, htable⟩ := h.getFreePage hasks hcall
    exact ⟨⟨hzone, h.chunk, htable.noted h.noted⟩, htable⟩
  | @kmalloc s s' pages chunks p fuel size hsize hok hcall =>
    have hasks : Asks ok s pages chunks := ⟨.kmalloc size, hok, trivial⟩
    obtain ⟨hzone, htable⟩ := h.kmalloc hasks hcall
    refine ⟨⟨hzone, fun e he => ?_, htable.noted h.noted⟩, htable⟩
    change e ∈ if p = 0 ∨ pageIsAligned p = true then chunks else (p, size) :: chunks at he
    by_cases hp : p = 0 ∨ pageIsAligned p = true
    · rw [if_pos hp] at he
      exact h.chunk e he
    · rw [if_neg hp] at he
      obtain ⟨h0, hal⟩ := not_or.mp hp
      rcases List.mem_cons.mp he with rfl | he
      · exact ⟨h0, by simpa using hal⟩
      · exact h.chunk e he
  | @kfreePage s s' pages chunks p fuel hp hok hcall =>
    have hframe : IsFrame (toPhysical p) := h.zone0.2 _ hp
    have hbounds := hframe.bounds
    have hpos : 0 < zone0Begin := by decide
    have htable : TableStep (Asks ok s pages chunks)
        (s.allocatedPointers, livePointers pages chunks)
        (s'.allocatedPointers, livePointers (pages.erase (toPhysical p)) chunks) :=
      .of_kfree hcall (by omega) ((List.perm_cons_erase hp).append_right _)
    obtain ⟨-, ⟨-, zone0, hbuddy, rfl⟩ | ⟨hal, -⟩⟩ := kfree_eq_ok hcall
    · have hzone := BuddyAllocator.runInv_step goodZone0 h.zone0 (.deallocate fuel hp hbuddy)
      exact ⟨⟨hzone, h.chunk, htable.noted h.noted⟩, htable⟩
    · rw [hframe.isAligned] at hal
      cases hal
  | @kfreeChunk s s' pages chunks p n fuel hp hok hcall =>
    obtain ⟨h0, hal⟩ := h.chunk _ hp
    have htable : TableStep (Asks ok s pages chunks)
        (s.allocatedPointers, livePointers pages chunks)
        (s'.allocatedPointers, livePointers pages (chunks.erase (toPhysical p, n))) :=
      .of_kfree hcall h0 (((List.perm_cons_erase hp).map Prod.fst).append_left pages |>.trans
        List.perm_middle)
    obtain ⟨-, ⟨hal', -⟩ | ⟨-, slob1, -, rfl⟩⟩ := kfree_eq_ok hcall
    · rw [hal] at hal'
      cases hal'
    · exact ⟨⟨h.zone0, fun e he => h.chunk e (List.mem_of_mem_erase he), htable.noted h.noted⟩,
        htable⟩
  | @kfreeStale s s' pages chunks p fuel hpages hchunks hok hcall =>
    -- The check lets a stale pointer through only if it is null, which is what a free entry holds.
    obtain ⟨-, htable⟩ := kfree_table hcall
    have h0 := h.toPhysical_eq_zero hpages hchunks hcall
    rw [h0, replace_zero_zero] at htable
    have hzone : s'.zone0 = s.zone0 := by
      obtain ⟨-, ⟨-, zone0, hbuddy, rfl⟩ | ⟨-, slob1, -, rfl⟩⟩ := kfree_eq_ok hcall
      · rw [h0] at hbuddy
        exact (Except.ok.inj hbuddy).symm
      · rfl
    refine ⟨⟨?_, h.chunk, ?_⟩, ?_⟩
    · rw [hzone]
      exact h.zone0
    · rw [htable]
      exact h.noted
    · rw [htable]
      exact .same _ _
  | @store s pages chunks slob1 hst => exact ⟨⟨h.zone0, h.chunk, h.noted⟩, .same _ _⟩

/-- The constructor has noted nothing. -/
theorem tracked_init (next : ℕ → Option ℕ) (index prevChunkSize : ℕ → ℤ) :
    Tracked (init next index prevChunkSize) [] [] := by
  refine ⟨(inv_init next index prevChunkSize).zone0, by simp, ⟨List.length_replicate, fun p hp => ?_,
    fun p hp h0 => absurd (List.eq_of_mem_replicate hp) h0⟩⟩
  have hnot : p ∉ List.replicate 1000 0 := fun hmem => hp (List.eq_of_mem_replicate hmem)
  exact (List.count_eq_zero.mpr hnot).le.trans (Nat.zero_le _)

/-! ### The allocators behind the sanitizer -/

/-- The request does not overwrite a header of the slob allocator. -/
def KeepsHeaders (s : State) (_ : List ℕ) (_ : List (ℕ × ℕ)) : Call → Prop
  | .kmalloc size => toSize (size + chunkHeaderSize) < pageSize →
    ¬Clobbers s.slob1 (Zone.frames zone1Begin s.zone1) (chunkSizeOf size)
  | _ => True

/-- **A step that keeps the headers keeps the allocators in order.** -/
theorem inv_step (hok : ∀ s pages chunks call, ok s pages chunks call →
      KeepsHeaders s pages chunks call)
    {r r' : State × List ℕ × List (ℕ × ℕ)} (h : Inv r.1 r.2.1 r.2.2)
    (ht : Tracked r.1 r.2.1 r.2.2) (hstep : Step ok r r') : Inv r'.1 r'.2.1 r'.2.2 := by
  have ht' := (tracked_step ht hstep).1
  refine ⟨ht'.zone0, ?_⟩
  cases hstep with
  | @getFreePage s s' pages chunks p fuel physical _ hcall =>
    obtain ⟨ret, zone0, -, -, -, rfl⟩ := getFreePage_eq_ok hcall
    exact h.zone1
  | @kmalloc s s' pages chunks p fuel size hsize hcond hcall =>
    have hkeep := hok _ _ _ _ hcond
    obtain ⟨-, ⟨zone0, hbuddy, rfl⟩ | ⟨hsmall, slob1, zone1, hslob, rfl⟩⟩ := kmalloc_eq_ok hcall
    · -- What comes from the first zone is null or a page.
      have hp : p = 0 ∨ pageIsAligned p = true := by
        rcases ht.zone0.allocate goodZone0 hbuddy with ⟨h0, -⟩ | ⟨hframe, -⟩
        · exact Or.inl h0
        · exact Or.inr (IsFrame.isAligned hframe)
      rw [if_pos hp]
      exact h.zone1
    · have hfit : toSize (chunkHeaderSize + size) ≤ pageSize := by
        rw [Nat.add_comm]
        exact hsmall.le
      obtain ⟨enough, hmeets⟩ := h.zone1.allocate goodZone1 zone1_lt hfit (hkeep hsmall)
      have hinv := (hmeets fuel).of_eq_ok hslob
      have hiff : (p = 0 ∨ pageIsAligned p = true) ↔ p = 0 := by
        rcases allocate_not_aligned hslob with h0 | hal
        · simp [h0]
        · simp [hal]
      simp only [hiff]
      exact hinv
  | @kfreePage s s' pages chunks p fuel hp _ hcall => exact (h.kfree_page hp hcall).2.zone1
  | @kfreeChunk s s' pages chunks p n fuel hp _ hcall => exact (h.kfree_chunk hp hcall).zone1
  | @kfreeStale s s' pages chunks p fuel hpages hchunks _ hcall =>
    have h0 := ht.toPhysical_eq_zero hpages hchunks hcall
    obtain ⟨-, ⟨-, zone0, -, rfl⟩ | ⟨hal, -⟩⟩ := kfree_eq_ok hcall
    · exact h.zone1
    · rw [h0] at hal
      cases hal
  | @store s pages chunks slob1 hst => exact h.zone1.store hst

/-- **Where the allocators are in order, a live pointer can be given back.** -/
theorem Inv.kfree_returns (h : Inv s pages chunks)
    (hexact : Exact s.allocatedPointers (livePointers pages chunks))
    (hp : toPhysical p ∈ livePointers pages chunks) :
    ∃ enough, ∀ fuel, enough ≤ fuel → ∃ s', kfree fuel p s = .ok s' := by
  have hnoted := (hexact.noted _ hp).2
  have hcheck : AddressSanitizer.markFreeChk (toPhysical p) s.allocatedPointers =
      .ok (s.allocatedPointers.replace (toPhysical p) 0) := if_pos hnoted
  rcases List.mem_append.mp hp with hpage | hchunk
  · refine ⟨maxOrderNrPages, fun fuel hf => ?_⟩
    obtain ⟨zone0, hbuddy, -⟩ := (h.zone0.deallocate goodZone0 hpage fuel).exists_ok hf
    have hal := (h.isFrame hpage).isAligned
    rw [kfree]
    simp only [hcheck, ok_bind, hal, if_true, hbuddy]
    exact ⟨_, rfl⟩
  · obtain ⟨e, he, hep⟩ := List.mem_map.mp hchunk
    obtain ⟨enough, hmeets⟩ := h.zone1.deallocate he
    refine ⟨enough, fun fuel hf => ?_⟩
    obtain ⟨slob1, hslob, -⟩ := (hmeets fuel).exists_ok hf
    have hal := h.zone1.pageIsAligned_eq he
    rw [hep] at hal hslob
    rw [kfree]
    simp only [hcheck, ok_bind, hal, Bool.false_eq_true, if_false, hslob]
    exact ⟨_, rfl⟩

/-- Memory is asked for only while fewer than a thousand pointers are live. -/
def HasRoom (_ : State) (pages : List ℕ) (chunks : List (ℕ × ℕ)) (call : Call) : Prop :=
  call.Allocates → pages.length + chunks.length < 1000

/-- What every run keeps. -/
theorem tracked_of_run {next : ℕ → Option ℕ} {index prevChunkSize : ℕ → ℤ}
    (h : Run (Step ok) (init next index prevChunkSize, [], []) (s, pages, chunks)) :
    Tracked s pages chunks :=
  h.invariant (P := fun r => Tracked r.1 r.2.1 r.2.2) (tracked_init next index prevChunkSize)
    fun _ _ ht hstep => (tracked_step ht hstep).1

/-- What a run keeps that overwrites no header. -/
theorem inv_of_keepsHeaders {next : ℕ → Option ℕ} {index prevChunkSize : ℕ → ℤ}
    (hok : ∀ s pages chunks call, ok s pages chunks call → KeepsHeaders s pages chunks call)
    (h : Run (Step ok) (init next index prevChunkSize, [], []) (s, pages, chunks)) :
    Inv s pages chunks :=
  (h.invariant (P := fun r => Inv r.1 r.2.1 r.2.2 ∧ Tracked r.1 r.2.1 r.2.2)
    ⟨inv_init next index prevChunkSize, tracked_init next index prevChunkSize⟩
    fun _ _ ⟨hinv, ht⟩ hstep => ⟨inv_step hok hinv ht hstep, (tracked_step ht hstep).1⟩).1

/-- What a run keeps that has room for every pointer. -/
theorem exact_of_hasRoom {next : ℕ → Option ℕ} {index prevChunkSize : ℕ → ℤ}
    (hok : ∀ s pages chunks call, ok s pages chunks call → HasRoom s pages chunks call)
    (h : Run (Step ok) (init next index prevChunkSize, [], []) (s, pages, chunks)) :
    Exact s.allocatedPointers (livePointers pages chunks) := by
  refine (h.invariant (P := fun r => Tracked r.1 r.2.1 r.2.2 ∧
    Exact r.1.allocatedPointers (livePointers r.2.1 r.2.2)) ⟨tracked_init next index prevChunkSize,
      (tracked_init next index prevChunkSize).noted, by simp [livePointers],
      by simp [livePointers]⟩ ?_).2
  rintro ⟨s, pages, chunks⟩ r' ⟨ht, hexact⟩ hstep
  obtain ⟨ht', htable⟩ := tracked_step ht hstep
  refine ⟨ht', htable.exact ?_ hexact⟩
  rintro ⟨call, hcall, halloc⟩
  rw [livePointers, List.length_append, List.length_map]
  exact hok _ _ _ _ hcall halloc

/-- A pointer that is not in the table makes `kfree` abort. -/
theorem kfree_of_notMem (hout : toPhysical p ∉ s.allocatedPointers) (fuel : ℕ) :
    kfree fuel p s = .error (.panic "*** kasan: double free detected at 0x%x ***\n") := by
  rw [kfree, AddressSanitizer.markFreeChk, if_neg hout]
  rfl

/-- **With room for every pointer the table is exact.** In every state reached, the
entries that are not null are the live pointers; the sanitizer lets a live pointer
pass; it aborts on every other pointer but the null pointer; and if in addition no
request has overwritten a header, a live pointer can be given back. -/
theorem exact_of_run {next : ℕ → Option ℕ} {index prevChunkSize : ℕ → ℤ}
    (h : Run (Step HasRoom) (init next index prevChunkSize, [], []) (s, pages, chunks)) :
    (∀ p, p ∈ s.allocatedPointers ∧ p ≠ 0 ↔ p ∈ livePointers pages chunks) ∧
      (∀ p, toPhysical p ∈ livePointers pages chunks →
        ∃ table, AddressSanitizer.markFreeChk (toPhysical p) s.allocatedPointers = .ok table) ∧
      (∀ p fuel, toPhysical p ≠ 0 → toPhysical p ∉ livePointers pages chunks →
        kfree fuel p s = .error (.panic "*** kasan: double free detected at 0x%x ***\n")) ∧
      (Run (Step fun s pages chunks call => HasRoom s pages chunks call ∧
          KeepsHeaders s pages chunks call) (init next index prevChunkSize, [], [])
          (s, pages, chunks) →
        ∀ p, toPhysical p ∈ livePointers pages chunks →
          ∃ enough, ∀ fuel, enough ≤ fuel → ∃ s', kfree fuel p s = .ok s') := by
  have hexact := exact_of_hasRoom (fun _ _ _ _ => id) h
  have hlive : ∀ p, p ∈ s.allocatedPointers ∧ p ≠ 0 ↔ p ∈ livePointers pages chunks :=
    fun p => ⟨fun hp => hexact.isLive p hp.1 hp.2, fun hp => (hexact.noted p hp).symm⟩
  refine ⟨hlive, fun p hp => ⟨_, if_pos (hexact.noted _ hp).2⟩, fun p fuel h0 hp => ?_,
    fun hkeeps p hp => ?_⟩
  · have hout : toPhysical p ∉ s.allocatedPointers := fun hmem => hp ((hlive _).mp ⟨hmem, h0⟩)
    exact kfree_of_notMem hout fuel
  · exact (inv_of_keepsHeaders (fun _ _ _ _ => And.right) hkeeps).kfree_returns hexact hp

end Run

/-! ### A table that is full -/

/-- The second zone hands out `n` frames in order, from the `k`-th on. -/
def handsOut : ℕ → ℕ → BuddyAllocator.State → Bool
  | _, 0, _ => true
  | k, n + 1, b => check (fun r => decide (r.1 = zone1Begin + k * pageSize) && handsOut (k + 1) n r.2)
      (allocateOnePageFrame 100 b)

/-- The chunks of `32` bytes that are cut one after the other from the second zone. -/
def cutChunks : ℕ → List (ℕ × ℕ)
  | 0 => []
  | n + 1 => (zone1Begin + 32 * n + 16, 16) :: cutChunks n

theorem lt_of_mem_cutChunks {n : ℕ} {e : ℕ × ℕ} (h : e ∈ cutChunks n) :
    zone1Begin < e.1 ∧ e.1 < zone1Begin + 32 * n := by
  induction n with
  | zero => simp [cutChunks] at h
  | succ n ih =>
    rcases List.mem_cons.mp h with rfl | h
    · simp only
      omega
    · have := ih h
      omega

theorem nodup_cutChunks (n : ℕ) : ((cutChunks n).map Prod.fst).Nodup := by
  induction n with
  | zero => exact List.nodup_nil
  | succ n ih =>
    refine List.nodup_cons.mpr ⟨fun hmem => ?_, ih⟩
    obtain ⟨e, he, hEq⟩ := List.mem_map.mp hmem
    have := lt_of_mem_cutChunks he
    omega

@[simp] theorem length_cutChunks (n : ℕ) : (cutChunks n).length = n := by
  induction n with
  | zero => rfl
  | succ n ih => simp [cutChunks, ih]

/-- The pages that so many bytes take. -/
def cutPages (m : ℕ) : ℕ := (m + 4095) / 4096

/-- The top chunk: where it is, and its size. -/
def AtTop (slob : SlobAllocator.State) (a size : ℕ) : Prop :=
  slob.topChunk = a ∧ slob.pageFrameAllocatableEnd = a + size

instance (slob : SlobAllocator.State) (a size : ℕ) : Decidable (AtTop slob a size) :=
  inferInstanceAs (Decidable (_ ∧ _))

/-- **Memory that is cut from the front**: all chunks are cut one after the other from the second
zone, of which `m` bytes are taken. So many entries of the table are free. -/
@[mk_iff]
structure Packed (m free : ℕ) (s : State) : Prop where
  regular : ∀ k < nrBins, s.slob1.bins (.regular k) = none
  unsorted : s.slob1.bins .unsorted = none
  usedUp : m % 4096 = 0 → getTopChunkSize s.slob1 = 0
  atTop : m % 4096 ≠ 0 → AtTop s.slob1 (zone1Begin + m) (4096 - m % 4096)
  frames : handsOut (cutPages m) (10 - cutPages m) s.zone1 = true
  below : ∀ q ∈ s.allocatedPointers, q < zone1Begin + m + 16
  count : s.allocatedPointers.count 0 = free

instance (m free : ℕ) (s : State) : Decidable (Packed m free s) :=
  decidable_of_iff' _ (packed_iff m free s)

/-- A request that is served with a chunk of this size. -/
def Fits (size c : ℕ) : Prop :=
  size ≠ 0 ∧ toSize (size + chunkHeaderSize) < pageSize ∧
    SlobAllocator.normalizeSize 100 (toSize (chunkHeaderSize + size)) = .ok c ∧
    0 ≤ getBinIndex c ∧ 16 < c

instance (size c : ℕ) : Decidable (Fits size c) := inferInstanceAs (Decidable (_ ∧ _))

section Full

variable {s : State} {slob : SlobAllocator.State} {b : BuddyAllocator.State}
  {a r c k n m free size : ℕ}

theorem exists_frame (h : handsOut k (n + 1) b = true) :
    ∃ b', allocateOnePageFrame 100 b = .ok (zone1Begin + k * pageSize, b') ∧
      handsOut (k + 1) n b' = true := by
  obtain ⟨⟨p, b'⟩, hframe, hr⟩ := exists_ok_of_check h
  obtain ⟨hp, hrest⟩ := Bool.and_eq_true_iff.mp hr
  obtain rfl : p = zone1Begin + k * pageSize := of_decide_eq_true hp
  exact ⟨b', hframe, hrest⟩

theorem AtTop.getTopChunkSize_eq (h : AtTop slob a r) (hlt : a + r < sizeMod) :
    getTopChunkSize slob = r := by
  rw [getTopChunkSize, h.1, h.2, subSize_of_le (by omega) hlt, Nat.add_sub_cancel_left]

/-- Nothing is cut yet. -/
theorem packed_init (next : ℕ → Option ℕ) (index prevChunkSize : ℕ → ℤ) :
    Packed 0 1000 (init next index prevChunkSize) where
  regular _ _ := rfl
  unsorted := rfl
  usedUp _ := subSize_of_le (x := 0) le_rfl (by decide)
  atTop h := absurd rfl h
  frames := show handsOut 0 10 (BuddyAllocator.init zone1Begin) = true by decide +kernel
  below q hq := by
    rw [List.eq_of_mem_replicate hq]
    decide
  count := List.count_replicate_self

/-- The top chunk that the next chunk is cut from. -/
theorem Packed.renewTopChunk (h : Packed m free s) (hm : m < 40960) (hc : 0 < c)
    (hroom : m % 4096 + c ≤ 4096) :
    ∃ t b, SlobAllocator.renewTopChunk allocateOnePageFrame 100 c s.slob1 s.zone1 = .ok (true, t, b) ∧
      t.bins = s.slob1.bins ∧ AtTop t (zone1Begin + m) (4096 - m % 4096) ∧
      handsOut (cutPages (m + c)) (10 - cutPages (m + c)) b = true := by
  have hlt : zone1Begin + m + pageSize < sizeMod := by
    rw [pageSize_lit, sizeMod_lit, zone1Begin]
    omega
  rw [SlobAllocator.renewTopChunk]
  by_cases hmod : m % 4096 = 0
  · have haddr : zone1Begin + cutPages m * pageSize = zone1Begin + m := by
      rw [pageSize_lit, cutPages]
      omega
    have hpages : cutPages (m + c) = cutPages m + 1 ∧
        10 - cutPages m = 10 - cutPages (m + c) + 1 := by
      simp only [cutPages]
      omega
    obtain ⟨b, hframe, hrest⟩ := exists_frame (hpages.2 ▸ h.frames)
    rw [if_pos (h.usedUp hmod), requestNewPageFrame, hframe, haddr, ok_bind]
    simp only [if_neg (show zone1Begin + m ≠ 0 by rw [zone1Begin]; omega), toSize_of_lt hlt]
    rw [← hpages.1] at hrest
    exact ⟨_, b, rfl, rfl, ⟨rfl, by rw [pageSize_lit, hmod]⟩, hrest⟩
  · have hpages : cutPages (m + c) = cutPages m := by
      simp only [cutPages]
      omega
    rw [pageSize_lit] at hlt
    have hsize := (h.atTop hmod).getTopChunkSize_eq (by omega)
    rw [if_neg (by omega), if_neg (by omega)]
    exact ⟨_, _, rfl, rfl, h.atTop hmod, hpages.symm ▸ h.frames⟩

theorem AtTop.splitFromTopChunk (h : AtTop slob a r) (hlt : a + r < sizeMod) (hle : c ≤ r) :
    ∃ t, SlobAllocator.splitFromTopChunk c slob = .ok (a, t) ∧ t.bins = slob.bins ∧
      AtTop t (a + c) (r - c) ∧ t.index a = getBinIndex c := by
  have hsize := h.getTopChunkSize_eq hlt
  rw [SlobAllocator.splitFromTopChunk, if_neg (by omega), h.1]
  refine ⟨_, rfl, rfl, ⟨toSize_of_lt (show a + c < sizeMod by omega), ?_⟩, Function.update_self ..⟩
  simp only [setAllocated, h.2]
  omega

/-- One more entry is taken, if there is one. -/
theorem count_zero_replace (table : List ℕ) (ha : a ≠ 0) :
    (table.replace 0 a).count 0 = table.count 0 - 1 := by
  by_cases h0 : 0 ∈ table
  · have hone := count_replace h0 a 0
    rw [if_pos rfl, if_neg ha] at hone
    omega
  · rw [List.replace_of_not_mem h0, List.count_eq_zero.mpr h0]

/-- **The next chunk** is cut from the top chunk, and noted if there is a free entry. -/
theorem Packed.kmalloc (h : Packed m free s) (hfits : Fits size c) (hm : m < 40960)
    (hroom : m % 4096 + c ≤ 4096) :
    ∃ s', kmalloc 100 size s = .ok (zone1Begin + m + 16, s') ∧ Packed (m + c) (free - 1) s' ∧
      s'.zone0 = s.zone0 ∧ s'.slob1.index (zone1Begin + m) = getBinIndex c := by
  obtain ⟨h0, hsmall, hnorm, hidx, hc⟩ := hfits
  have hlt : zone1Begin + m + 4096 < sizeMod := by
    rw [sizeMod_lit, zone1Begin]
    omega
  obtain ⟨t, b, hrenew, hbins, htop, hframes⟩ := h.renewTopChunk hm (by omega) hroom
  obtain ⟨u, hsplit, hbins', htop', hindex⟩ := htop.splitFromTopChunk (c := c) (by omega) (by omega)
  have hal : ¬pageIsAligned (zone1Begin + m + 16) = true := by
    rw [pageIsAligned_iff, pageSize_lit, zone1Begin]
    omega
  have hfresh : zone1Begin + m + 16 ∉ s.allocatedPointers :=
    fun hmem => absurd (h.below _ hmem) (lt_irrefl _)
  rw [MemoryManager.kmalloc, if_neg (not_le.mpr hsmall), SlobAllocator.allocate, if_neg h0, hnorm,
    ok_bind, takeFromBins_of_empty h.regular h.unsorted, if_neg (not_lt.mpr hidx), ok_bind]
  simp only [takeFromTop, hrenew, ok_bind, if_true, hsplit, show chunkHeaderSize = 16 from rfl,
    pure_bind, toSize_of_lt (show zone1Begin + m + 16 < sizeMod by omega), if_neg hal,
    AddressSanitizer.markAllocated, if_neg hfresh]
  rw [hbins] at hbins'
  refine ⟨_, rfl, ⟨fun k hk => hbins' ▸ h.regular k hk, hbins' ▸ h.unsorted, fun hmod => ?_,
    fun hmod => ?_, hframes, fun q hq => ?_, ?_⟩, rfl, hindex⟩
  · rw [htop'.getTopChunkSize_eq (by omega)]
    omega
  · have hrest : 4096 - m % 4096 - c = 4096 - (m + c) % 4096 := by omega
    rwa [hrest, Nat.add_assoc] at htop'
  · rcases mem_replace hq with rfl | hq
    · omega
    · have := h.below q hq
      omega
  · rw [count_zero_replace _ (by omega), h.count]

/-- **A run that fills the table and goes on.** -/
theorem exists_run_cutChunks (n : ℕ) (hn : n ≤ 1280) :
    ∃ s, Run (Step KeepsHeaders) (init (fun _ => none) (fun _ => 0) (fun _ => 0), [], [])
        (s, [], cutChunks n) ∧ Packed (32 * n) (1000 - n) s := by
  induction n with
  | zero => exact ⟨_, Relation.ReflTransGen.refl, packed_init _ _ _⟩
  | succ n ih =>
    obtain ⟨s, hrun, h⟩ := ih (by omega)
    obtain ⟨s', hcall, h', -⟩ := h.kmalloc (show Fits 16 32 by decide +kernel) (by omega) (by omega)
    have hok : KeepsHeaders s [] (cutChunks n) (.kmalloc 16) := by
      rintro - ⟨U, a, hU, hfind, -⟩
      rw [h.unsorted] at hU
      rw [hU.eq_nil] at hfind
      cases hfind
    have hstep : Step KeepsHeaders (s, [], cutChunks n) _ := .kmalloc 100 16 (by decide) hok hcall
    have hal : pageIsAligned (zone1Begin + 32 * n + 16) = false := by
      simp only [pageIsAligned, pageSize_lit, zone1Begin, beq_eq_false_iff_ne]
      omega
    rw [if_pos (Or.inr hal), if_neg (by simp [hal])] at hstep
    exact ⟨s', hrun.tail hstep, h'⟩

end Full

/-- **A pointer that the table had no room for.** After `1001` requests of sixteen bytes,
one of the pointers is live and not in the table, and giving it back aborts. -/
theorem not_exact_of_full_table :
    ∃ s chunks p, Run (Step KeepsHeaders) (init (fun _ => none) (fun _ => 0) (fun _ => 0), [], [])
        (s, [], chunks) ∧ p ∈ livePointers [] chunks ∧ p ∉ s.allocatedPointers ∧
      ∀ fuel, kfree fuel p s = .error (.panic "*** kasan: double free detected at 0x%x ***\n") := by
  obtain ⟨s, hrun, -⟩ := exists_run_cutChunks 1001 (by decide)
  have ht := tracked_of_run hrun
  obtain ⟨p, hp, hout⟩ : ∃ p ∈ (cutChunks 1001).map Prod.fst, p ∉ s.allocatedPointers := by
    by_contra hall
    push Not at hall
    have hle := (List.subperm_of_subset (nodup_cutChunks 1001) hall).length_le
    rw [List.length_map, length_cutChunks, ht.noted.length] at hle
    omega
  have hphys : toPhysical p = p := by
    obtain ⟨e, he, rfl⟩ := List.mem_map.mp hp
    have hlt := lt_of_mem_cutChunks he
    rw [toPhysical, if_neg]
    simp only [kernelVaBase, zone1Begin] at *
    omega
  exact ⟨s, _, p, hrun, hp, hout, kfree_of_notMem (by rwa [hphys])⟩

/-- A run of one request. -/
theorem exact_of_run_one_pointer :
    ∃ p s, kmalloc 100 16 (init (fun _ => none) (fun _ => 0) (fun _ => 0)) = .ok (p, s) ∧
      p ∈ s.allocatedPointers ∧
      kfree 100 zone1Begin s = .error (.panic "*** kasan: double free detected at 0x%x ***\n") := by
  obtain ⟨s, hcall, -⟩ := (packed_init (fun _ => none) (fun _ => 0) (fun _ => 0)).kmalloc
    (show Fits 16 32 by decide +kernel) (by decide) (by decide)
  have hstep : Step HasRoom (init (fun _ => none) (fun _ => 0) (fun _ => 0), [], []) _ :=
    .kmalloc 100 16 (by decide) (fun _ => by decide) hcall
  rw [if_pos (by decide), if_neg (by decide)] at hstep
  obtain ⟨hlive, -, hstale, -⟩ := exact_of_run (.single hstep)
  exact ⟨_, s, hcall, ((hlive _).mpr (by simp [livePointers])).1,
    hstale _ _ (by decide) (by simp [livePointers]; decide)⟩

/-! ### Requests that cannot be served -/

/-- The allocator behind the request returns null. -/
def Unserved (fuel : ℕ) (s : State) : Call → Prop
  | .getFreePage _ => ∃ zone0, allocateOnePageFrame fuel s.zone0 = .ok (0, zone0)
  | .kmalloc size =>
    if pageSize ≤ toSize (size + chunkHeaderSize) then
      ∃ zone0, BuddyAllocator.allocate fuel size s.zone0 = .ok (0, zone0)
    else
      ∃ slob1 zone1, SlobAllocator.allocate allocateOnePageFrame fuel size s.slob1
        s.zone1 = .ok (0, slob1, zone1)
  | .kfree _ => False

/-- The request returns null and leaves the table as it is. -/
def ReturnsNull (fuel : ℕ) (s : State) : Call → Prop
  | .getFreePage physical => ∃ s', getFreePage fuel physical s = .ok (0, s') ∧
      s'.allocatedPointers = s.allocatedPointers
  | .kmalloc size => ∃ s', kmalloc fuel size s = .ok (0, s') ∧
      s'.allocatedPointers = s.allocatedPointers
  | .kfree _ => True

/-- A null pointer is let pass by a table without free entries only. -/
theorem markAllocated_zero (table : List ℕ) :
    AddressSanitizer.markAllocated 0 table = if 0 ∈ table then
      .error (.panic "*** kasan: pointer 0x%x is already allocated...\n") else .ok table := by
  rw [AddressSanitizer.markAllocated, replace_zero_zero]

/-- **A request that cannot be served** returns null if and only if the table is full, and
it is not the virtual address of a page that is asked for. -/
theorem returns_null_iff {fuel : ℕ} {s : State} {call : Call} (h : Unserved fuel s call) :
    ReturnsNull fuel s call ↔ 0 ∉ s.allocatedPointers ∧ call ≠ .getFreePage false := by
  cases call with
  | getFreePage physical =>
    obtain ⟨zone0, hbuddy⟩ := h
    simp only [ReturnsNull, MemoryManager.getFreePage, hbuddy, ok_bind, markAllocated_zero]
    by_cases h0 : 0 ∈ s.allocatedPointers
    · simp [h0]
    · have hbase : toSize kernelVaBase ≠ 0 := by decide
      cases physical <;> simp [h0, hbase]
  | kmalloc size =>
    rw [Unserved] at h
    rw [ReturnsNull, MemoryManager.kmalloc]
    by_cases hbig : pageSize ≤ toSize (size + chunkHeaderSize)
    · rw [if_pos hbig] at h
      obtain ⟨zone0, hbuddy⟩ := h
      simp only [if_pos hbig, hbuddy, ok_bind, markAllocated_zero]
      by_cases h0 : 0 ∈ s.allocatedPointers
      · simp [h0]
      · simp [h0]
    · rw [if_neg hbig] at h
      obtain ⟨slob1, zone1, hslob⟩ := h
      simp only [if_neg hbig, hslob, ok_bind, markAllocated_zero]
      by_cases h0 : 0 ∈ s.allocatedPointers
      · simp [h0]
      · simp [h0]
  | kfree p => exact h.elim

/-- **A request for four megabytes**, which no block can serve, aborts on the memory
manager just constructed. -/
theorem not_returnsNull_of_too_large :
    Unserved 30 (init (fun _ => none) (fun _ => 0) (fun _ => 0)) (.kmalloc 0x400000) ∧
      kmalloc 30 0x400000 (init (fun _ => none) (fun _ => 0) (fun _ => 0)) =
        .error (.panic "*** kasan: pointer 0x%x is already allocated...\n") ∧
      ¬ReturnsNull 30 (init (fun _ => none) (fun _ => 0) (fun _ => 0)) (.kmalloc 0x400000) := by
  have hexec : check (fun r => decide (r.1 = 0))
      (BuddyAllocator.allocate 30 0x400000 (BuddyAllocator.init zone0Begin)) = true := by
    decide +kernel
  obtain ⟨⟨p, zone0⟩, hbuddy, hp⟩ := exists_ok_of_check hexec
  obtain rfl : p = 0 := of_decide_eq_true hp
  have hbig : pageSize ≤ toSize (0x400000 + chunkHeaderSize) := by decide
  have hfree : 0 ∈ List.replicate 1000 0 := List.mem_replicate.mpr ⟨by decide, rfl⟩
  have habort : kmalloc 30 0x400000 (init (fun _ => none) (fun _ => 0) (fun _ => 0)) =
      .error (.panic "*** kasan: pointer 0x%x is already allocated...\n") := by
    rw [kmalloc, if_pos hbig]
    simp only [init, hbuddy, ok_bind, markAllocated_zero, if_pos hfree, error_bind]
  refine ⟨?_, habort, ?_⟩
  · rw [Unserved, if_pos hbig]
    exact ⟨zone0, hbuddy⟩
  · rintro ⟨s', hcall, -⟩
    rw [habort] at hcall
    cases hcall

/-- After a thousand requests the table is full, and a request for nothing returns null. -/
theorem returns_null_full_table : ∃ s,
    Run (Step KeepsHeaders) (init (fun _ => none) (fun _ => 0) (fun _ => 0), [], [])
      (s, [], cutChunks 1000) ∧ ReturnsNull 30 s (.kmalloc 0) := by
  obtain ⟨s, hrun, h⟩ := exists_run_cutChunks 1000 (by decide)
  have hnothing : Unserved 30 s (.kmalloc 0) := by
    rw [Unserved, if_neg (by decide)]
    exact ⟨_, _, rfl⟩
  exact ⟨s, hrun, (returns_null_iff hnothing).mpr
    ⟨List.count_eq_zero.mp h.count, fun h => by cases h⟩⟩

end Valkyrie.MemoryManager
