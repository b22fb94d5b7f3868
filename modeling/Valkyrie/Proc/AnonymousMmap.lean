import Valkyrie.Proc.Mmap

/-!
# Anonymous mappings

The system call `mmap` with `MAP_ANONYMOUS`. A user program chooses all of its arguments, and the
kernel looks at very few of them: an address that is not that of a page is refused without
`MAP_FIXED`, and that is all. Two things are left to the caller. The length is rounded up to
pages in a machine word, so that the largest lengths become nothing. And that the pages are not
mapped yet is only noticed by `map`, which then stops the kernel; an address of zero is no
way out, since `get_unmapped_area` always returns the first page.

`Valkyrie.VMMap.Served` says what a call should do: refuse and change nothing, or give the
address space exactly the pages that were asked for, with zeros in them. As long as there is
memory, it does so exactly if the arguments are no trap of the one kind or the other
(`Valkyrie.VMMap.served_iff`).
-/

namespace Valkyrie.VMMap

open Exec MemoryManager

/-! ### The system call -/

/-- `(void *) -1UL`. -/
def mmapFailed : ℕ := sizeMod - 1

/-- `do_mmap`, with what it returns. -/
def mmap (fuel pgd : ℕ) (m : Elf.Mapping) (content : List UInt8) (pos : ℕ) (s : State) :
    Exec (ℕ × State) := do
  let s ← doMmap fuel pgd m content pos s
  return (if m.refused then mmapFailed else mmapAddr m, s)

/-- The arguments of `do_mmap` for a system call: there are no zeros to follow on the file. -/
def userMapping (addr len prot flags : ℕ) (fileOffset : ℤ) : Elf.Mapping where
  addr := addr
  len := len
  prot := prot
  flags := flags
  fileOffset := fileOffset
  zeroPageFileOffset := Elf.noZeroPage

/-- **The steps of the system**: what happens to address spaces, and calls of `mmap`. -/
inductive MmapStep : World → World → Prop
  | other {w w' : World} {act : Act} (h : SpaceStep w act w') : MmapStep w w'
  | mmap {w : World} {m : Elf.Mapping} {content : List UInt8} {s' : State} {pgd pos a : ℕ} (fuel : ℕ)
      (hpgd : pgd ∈ w.maps) (h : mmap fuel pgd m content pos w.s = .ok (a, s')) :
      MmapStep w { w with s := s' }

/-- The number of pages for a length. -/
def pagesFor (len : ℕ) : ℕ := (len + (pageSize - 1)) / pageSize

/-- **What a call should do**: it fails and leaves the address space as it was, or it returns an
address where as many pages as were asked for are now mapped, which were not mapped before, with
zeros in them; the rest of the address space is as it was. -/
def Served (fuel pgd : ℕ) (m : Elf.Mapping) (pos : ℕ) (s : State) : Prop :=
  ∃ a s', mmap fuel pgd m [] pos s = .ok (a, s') ∧
    (a = mmapFailed ∧ load pgd s'.mem = load pgd s.mem ∨
      a ≠ mmapFailed ∧ (∀ j < pagesFor m.len, look 3 pgd s.mem (pathOf (a + j * pageSize)) = none) ∧
        ∀ v, load pgd s'.mem v =
          if ∃ j < pagesFor m.len, pathOf v = pathOf (a + j * pageSize) then some 0
          else load pgd s.mem v)

attribute [local irreducible] look occupies holders

variable {w w' : World} {s s' : State} {spaces : ℕ → Space} {m : Elf.Mapping} {pages : List ℕ}
  {chunks : List (ℕ × ℕ)} {c : Cursor} {content : List UInt8} {fuel pgd v u a n i len pos : ℕ}

/-! ### How many pages there can be -/

/-- The frames of the first zone are few. -/
theorem Pages.length_le (h : Pages s pages chunks) : pages.length ≤ 512 := by
  have hpos : 0 < pageSize := by decide
  have hnodup : (pages.map fun q => (q - zone0Begin) / pageSize).Nodup := by
    refine h.nodup.map_on fun q hq q' hq' hEq => ?_
    exact refIdx_injective (h.isFrame hq) (h.isFrame hq') hEq
  have hsub : (pages.map fun q => (q - zone0Begin) / pageSize) ⊆ List.range 512 := by
    intro k hk
    obtain ⟨q, hq, rfl⟩ := List.mem_map.mp hk
    obtain ⟨i, hi, rfl⟩ := h.isFrame hq
    rw [Nat.add_sub_cancel_left, Nat.mul_div_cancel _ hpos]
    exact List.mem_range.mpr hi
  have hle := (hnodup.subperm hsub).length_le
  rwa [List.length_map, List.length_range] at hle

/-- **Memory is bounded**, and with it the number of pages that can still be had. -/
theorem Plenty.le (fuel : ℕ) : ∀ {n : ℕ} {s : State} {pages : List ℕ}, Pages s pages chunks →
    Plenty fuel n s.mm → pages.length + n ≤ 512
  | 0, _, _, h, _ => h.length_le
  | n + 1, s, pages, h, ⟨p, mm, hpage, hp, hrest⟩ => by
    obtain ⟨-, -, hnew⟩ := h.getFreePage _ (getFreePage_eq hpage hp)
    obtain ⟨-, -, hpages⟩ := hnew.resolve_left fun hnull => hp hnull.1
    have hle := Plenty.le fuel hpages hrest
    rw [List.length_cons] at hle
    omega

/-! ### Pages and paths -/

/-- The bits beyond the machine word do not matter. -/
theorem pathOf_toSize (v : ℕ) : pathOf (toSize v) = pathOf v := by
  rw [pathOf_eq_iff_mod]
  simp only [toSize, sizeMod, pageSize]
  omega

/-- Few pages in a row have different paths. -/
theorem pathOf_ne {j j' : ℕ} (hj : j < j') (hj' : j' ≤ 512) :
    pathOf (v + j' * pageSize) ≠ pathOf (v + j * pageSize) := by
  rw [Ne, pathOf_eq_iff_mod]
  simp only [pageSize]
  omega

/-! ### Pages of zeros -/

theorem pageContent_anonymous (hanon : m.anonymous = true)
    (hzero : m.zeroPageFileOffset = Elf.noZeroPage) :
    pageContent m content c = .ok (fun _ => 0, c) := by
  have hzeroes : zeroes m c.pos = false := by simp [zeroes, hzero]
  rw [pageContent, readContent, if_pos hanon]
  dsimp only [pure_bind]
  rw [pure_bind]
  dsimp only
  rw [if_neg (by rw [hzeroes]; exact Bool.false_ne_true)]
  rfl

theorem pagesContent_anonymous (content : List UInt8) (hanon : m.anonymous = true)
    (hzero : m.zeroPageFileOffset = Elf.noZeroPage) :
    ∀ n : ℕ, pagesContent m content n c = .ok (List.replicate n fun _ => 0)
  | 0 => rfl
  | n + 1 => by
    rw [pagesContent, pageContent_anonymous hanon hzero, ok_bind]
    dsimp only
    rw [pagesContent_anonymous content hanon hzero n]
    rfl

/-- **What pages of zeros make of an address space.** -/
theorem foldl_pageActs_zeros : ∀ {n i : ℕ} {spaces : ℕ → Space},
    (pageActs pgd v i (List.replicate n fun _ => 0)).foldl Act.apply spaces pgd a =
      if ∃ j < n, pathOf a = pathOf (v + (i + j) * pageSize) then some 0 else spaces pgd a
  | 0, _, _ => by simp [pageActs]
  | n + 1, i, spaces => by
    rw [List.replicate_succ, pageActs, List.foldl_cons, foldl_pageActs_zeros, Act.apply,
      Function.update_self, pathOf_toSize]
    have hsplit : (∃ j < n + 1, pathOf a = pathOf (v + (i + j) * pageSize)) ↔
        pathOf a = pathOf (v + i * pageSize) ∨
          ∃ j < n, pathOf a = pathOf (v + (i + 1 + j) * pageSize) := by
      rw [Nat.exists_lt_succ_left]
      simp only [Nat.add_zero, Nat.add_assoc, Nat.add_comm 1]
    by_cases hrest : ∃ j < n, pathOf a = pathOf (v + (i + 1 + j) * pageSize)
    · rw [if_pos hrest, if_pos (hsplit.mpr (Or.inr hrest))]
    · rw [if_neg hrest]
      by_cases hfirst : pathOf a = pathOf (v + i * pageSize)
      · rw [if_pos hfirst, if_pos (hsplit.mpr (Or.inl hfirst))]
      · rw [if_neg hfirst, if_neg fun hin => (hsplit.mp hin).elim hfirst hrest]

/-! ### Rounding -/

theorem mmapAddr_ne_failed (m : Elf.Mapping) : mmapAddr m ≠ mmapFailed := by
  rw [mmapAddr_eq_mul]
  simp only [mmapFailed, sizeMod, pageSize]
  omega

/-- The loop makes as many rounds as there are pages for the length, if the length can be rounded
up. -/
theorem pages_eq_pagesFor (h : m.len + pageSize ≤ sizeMod) : m.pages = pagesFor m.len := by
  have hpos : 0 < pageSize := by decide
  rw [Elf.Mapping.pages, Elf.alignUp, Elf.alignDown, Nat.mul_div_cancel _ hpos, pagesFor,
    toSize_of_lt (by omega)]

/-- A length that cannot be rounded up becomes nothing. -/
theorem pages_eq_zero (hlen : m.len < sizeMod) (h : ¬m.len + pageSize ≤ sizeMod) : m.pages = 0 := by
  simp only [Elf.Mapping.pages, Elf.alignUp, Elf.alignDown, toSize, sizeMod, pageSize] at *
  omega

/-! ### Runs -/

theorem Refines.mmap (h : Refines spaces w) (hpgd : pgd ∈ w.maps)
    (hcall : mmap fuel pgd m content pos w.s = .ok (a, s')) :
    ∃ pages, mmapContent m content pos = .ok pages ∧
      Refines ((pageActs pgd (mmapAddr m) 0 pages).foldl Act.apply spaces) { w with s := s' } ∧
      a = if m.refused then mmapFailed else mmapAddr m := by
  obtain ⟨s₁, hdo, hcall⟩ := bind_eq_ok.mp hcall
  cases pure_eq_ok.mp hcall
  obtain ⟨pages, hpages, hrefines, -⟩ := h.doMmap hpgd hdo
  exact ⟨pages, hpages, hrefines, rfl⟩

theorem refines_of_mmap_run {next : ℕ → Option ℕ} {index prevChunkSize : ℕ → ℤ} {mem : Mem}
    (h : Run MmapStep (World.init next index prevChunkSize mem) w) : ∃ spaces, Refines spaces w := by
  refine h.invariant (P := fun w => ∃ spaces, Refines spaces w)
    ⟨_, refines_init next index prevChunkSize mem⟩ ?_
  rintro w w' ⟨spaces, hrefines⟩ hstep
  cases hstep with
  | other hstep => exact ⟨_, hrefines.step hstep⟩
  | mmap fuel hpgd hcall =>
    obtain ⟨pages, -, hrefines', -⟩ := hrefines.mmap hpgd hcall
    exact ⟨_, hrefines'⟩

/-! ### One call -/

section Call

variable (h : Refines spaces w) (hpgd : pgd ∈ w.maps) (hanon : m.anonymous = true)
  (hzero : m.zeroPageFileOffset = Elf.noZeroPage)
include h hpgd hanon hzero

/-- What an anonymous mapping leaves in the address space. -/
theorem Refines.load_mmap (hrefused : m.refused = false)
    (hcall : VMMap.mmap fuel pgd m [] pos w.s = .ok (a, s')) : a = mmapAddr m ∧
      ∀ v, VMMap.load pgd s'.mem v =
        if ∃ j < m.pages, pathOf v = pathOf (a + j * pageSize) then some 0
        else VMMap.load pgd w.s.mem v := by
  obtain ⟨pages, hpages, hrefines, ha⟩ := h.mmap hpgd hcall
  have hno : ¬m.refused = true := by rw [hrefused]; exact Bool.false_ne_true
  rw [if_neg hno] at ha
  rw [mmapContent, if_neg hno, pagesContent_anonymous [] hanon hzero] at hpages
  obtain rfl := Except.ok.inj hpages
  refine ⟨ha, fun v => ?_⟩
  have hload := hrefines.load pgd hpgd v
  rw [foldl_pageActs_zeros, ← h.load pgd hpgd v] at hload
  simpa only [ha, Nat.zero_add] using hload

/-- With enough memory, a call for pages that are not mapped returns. -/
theorem Refines.exists_mmap (hrefused : m.refused = false)
    (hplenty : Plenty fuel (4 * m.pages) w.s.mm)
    (hfree : ∀ j < m.pages, look 3 pgd w.s.mem (pathOf (mmapAddr m + j * pageSize)) = none) :
    ∃ s', VMMap.mmap fuel pgd m [] pos w.s = .ok (mmapAddr m, s') := by
  have hle := Plenty.le fuel h.inv.owned hplenty
  have hno : ¬m.refused = true := by rw [hrefused]; exact Bool.false_ne_true
  obtain ⟨s', hloop, -⟩ := Refines.exists_mmapLoop (p := 0) (i := 0) (v := mmapAddr m)
    (c := mmapStart m pos) hpgd h (pagesContent_anonymous [] hanon hzero m.pages)
    (by rwa [Nat.zero_add])
    (fun j _ hj => by
      rw [← h.load pgd hpgd]
      refine load_eq_none ?_
      rw [pathOf_toSize]
      exact hfree j (by omega))
    (fun j j' _ hlt hj' => by
      rw [pathOf_toSize, pathOf_toSize]
      exact pathOf_ne hlt (by omega))
  refine ⟨s', ?_⟩
  rw [VMMap.mmap, VMMap.doMmap, if_neg hno, hloop, ok_bind, if_neg hno]
  rfl

end Call

/-- **When an anonymous `mmap` does what it should.** In every run and for every call with any
arguments, as long as there is memory: exactly if the address is refused, or if the length can be
rounded up to pages in a machine word and none of the pages is mapped. Otherwise it returns an
address without a page, or the kernel stops. -/
theorem served_iff {next : ℕ → Option ℕ} {index prevChunkSize : ℕ → ℤ} {mem : Mem}
    (hrun : Run MmapStep (World.init next index prevChunkSize mem) w) (hpgd : pgd ∈ w.maps)
    {addr len prot flags : ℕ} {fileOffset : ℤ} (hanon : flags &&& Elf.mapAnonymous ≠ 0)
    (hlen : len < sizeMod)
    (hplenty : Plenty fuel (4 * (userMapping addr len prot flags fileOffset).pages) w.s.mm) :
    Served fuel pgd (userMapping addr len prot flags fileOffset) pos w.s ↔
      flags &&& Elf.mapFixed = 0 ∧ addr % pageSize ≠ 0 ∨
        len + pageSize ≤ sizeMod ∧ ∀ j < pagesFor len,
          look 3 pgd w.s.mem (pathOf (addr / pageSize * pageSize + j * pageSize)) = none := by
  obtain ⟨spaces, h⟩ := refines_of_mmap_run hrun
  set m := userMapping addr len prot flags fileOffset
  have hanon' : m.anonymous = true := bne_iff_ne.mpr hanon
  have haddr : mmapAddr m = addr / pageSize * pageSize := mmapAddr_eq_mul m
  rw [← haddr]
  cases hrefused : m.refused with
  | true =>
    refine iff_of_true ⟨mmapFailed, w.s, ?_, Or.inl ⟨rfl, rfl⟩⟩ (Or.inl (mapping_refused_iff.mp hrefused))
    rw [VMMap.mmap, doMmap, if_pos hrefused, if_pos hrefused]
    rfl
  | false =>
    constructor
    · rintro ⟨a, s', hcall, hserved⟩
      obtain ⟨rfl, hload⟩ := h.load_mmap hpgd hanon' rfl hrefused hcall
      obtain ⟨-, hfree, hload'⟩ := hserved.resolve_left fun hfail => mmapAddr_ne_failed m hfail.1
      refine Or.inr ⟨?_, hfree⟩
      by_contra hwrap
      -- Nothing is mapped, but the first page should be.
      have hsome : 0 < pagesFor m.len := by
        have hbig : sizeMod < len + pageSize := Nat.lt_of_not_le hwrap
        have hlarge : 2 * pageSize ≤ sizeMod := by decide
        exact Nat.div_pos (by change pageSize ≤ len + _; omega) (by decide)
      have hnone := load_eq_none (hfree 0 hsome)
      have hafter := hload (mmapAddr m + 0 * pageSize)
      rw [hload', if_pos ⟨0, hsome, rfl⟩, pages_eq_zero hlen hwrap, if_neg (by simp), hnone] at hafter
      cases hafter
    · rintro (hbad | ⟨hwrap, hfree⟩)
      · have hyes : m.refused = true := mapping_refused_iff.mpr hbad
        rw [hrefused] at hyes
        cases hyes
      · have hpages : m.pages = pagesFor len := pages_eq_pagesFor hwrap
        rw [← hpages] at hfree
        obtain ⟨s', hcall⟩ := h.exists_mmap hpgd hanon' rfl hrefused hplenty hfree
        refine ⟨mmapAddr m, s', hcall, Or.inr ⟨mmapAddr_ne_failed m, ?_, ?_⟩⟩
        · exact fun j hj => hfree j (hpages.symm ▸ hj)
        · have hload := (h.load_mmap hpgd hanon' rfl hrefused hcall).2
          rwa [hpages] at hload

/-- One page anywhere, as a program asks for it that has no other. -/
def anyPage : Elf.Mapping :=
  userMapping 0 pageSize Elf.protWrite (Elf.mapPrivate ||| Elf.mapAnonymous) 0

theorem run_construct {s₁ : State} (h : construct 20 World.zero.s = .ok (pgd, s₁)) (hpgd : pgd ≠ 0) :
    Run MmapStep World.zero ⟨s₁, [], [], [pgd]⟩ := by
  have hstep := Step.construct (w := World.zero) 20 h
  rw [if_neg hpgd] at hstep
  exact Relation.ReflTransGen.single (.other (.construct hstep hpgd))

/-- The first call, in an address space with nothing in it. -/
theorem served_iff_any_page : ∃ w pgd, Run MmapStep World.zero w ∧ pgd ∈ w.maps ∧
    Served 20 pgd anyPage 0 w.s := by
  have hcheck : check (fun r => decide (r.1 ≠ 0 ∧ Plenty 20 4 r.2.mm ∧
      look 3 r.1 r.2.mem (pathOf 0) = none)) (construct 20 World.zero.s) = true := by decide +kernel
  obtain ⟨⟨pgd, s⟩, hcall, hr⟩ := exists_ok_of_check hcheck
  obtain ⟨hpgd, hplenty, hlook⟩ := of_decide_eq_true hr
  have hmem : pgd ∈ [pgd] := List.mem_singleton_self pgd
  refine ⟨_, pgd, run_construct hcall hpgd, hmem, ?_⟩
  refine (served_iff (run_construct hcall hpgd) hmem (by decide) (by decide) hplenty).mpr
    (Or.inr ⟨by decide, fun j hj => ?_⟩)
  have hone : pagesFor pageSize = 1 := by decide
  rw [hone] at hj
  obtain rfl : j = 0 := by omega
  exact hlook

/-- **The second call**: it gets the same address, and the kernel stops. -/
theorem mmap_twice_panics : ∃ w pgd s', Run MmapStep World.zero w ∧ pgd ∈ w.maps ∧
    mmap 20 pgd anyPage [] 0 w.s = .ok (0, s') ∧ Plenty 20 4 s'.mm ∧
      mmap 20 pgd anyPage [] 0 s' = .error
        (.panic "VMMap::map: v_addr: 0x%p has already been mapped to p_addr: 0x%p\n") := by
  have hcheck : check (fun r => decide (r.1.1 ≠ 0 ∧ r.2.1 = 0 ∧ Plenty 20 4 r.2.2.mm ∧
      stops (.panic "VMMap::map: v_addr: 0x%p has already been mapped to p_addr: 0x%p\n")
        (mmap 20 r.1.1 anyPage [] 0 r.2.2) = true)) (do
          let r ← construct 20 World.zero.s
          return (r, ← mmap 20 r.1 anyPage [] 0 r.2)) = true := by decide +kernel
  obtain ⟨⟨⟨pgd, s⟩, a, s'⟩, hrun, hr⟩ := exists_ok_of_check hcheck
  obtain ⟨hpgd, rfl, hplenty, hstop⟩ := of_decide_eq_true hr
  obtain ⟨r, hcall, hrun⟩ := bind_eq_ok.mp hrun
  obtain ⟨r', hmmap, hrun⟩ := bind_eq_ok.mp hrun
  cases pure_eq_ok.mp hrun
  exact ⟨_, pgd, s', run_construct hcall hpgd, List.mem_singleton_self pgd, hmmap, hplenty,
    eq_error_of_stops hstop⟩

end Valkyrie.VMMap
