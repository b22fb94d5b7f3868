import Valkyrie.Fs.Elf
import Valkyrie.Fs.VirtualFileSystem.Read
import Valkyrie.Kernel.AddressSpaces
import Valkyrie.Mm.VirtualMemoryMap.Plenty

/-!
# Mapping files

`Task::do_mmap` and `Task::load_elf_binary` of `proc/Task.cc`. The loop of `do_mmap` obtains one
page after the other, maps it, clears it, reads a page of the file into it, and then, for the end
of a segment, clears some of it again.

What ends up in a page depends on the file and on how far the loop has come, but not on the memory
it is written to. So a round of the loop is two things: a page of bytes that is computed from the
file (`Valkyrie.VMMap.pageContent`), and a page of the address space that gets them
(`Valkyrie.VMMap.Refines.mmapPage`). The first of the two is where a call can go wrong; given
memory, the second one does not (`Valkyrie.VMMap.Inv.exists_mmapPage`).
-/

namespace Valkyrie.VMMap

open Exec MemoryManager

/-! ### The calls -/

/-- The attributes that `do_mmap` makes of `prot`. -/
def mmapAttr (prot : ℕ) : Descriptor :=
  let attr := userPageR
  let attr := if prot &&& Elf.protWrite ≠ 0 then attr &&& ~~~pdRdonly else attr
  if prot &&& Elf.protExec ≠ 0 then attr &&& ~~~pdEl0ExecNever else attr

/-- How far the loop of `do_mmap` has come: `file->pos` and `is_first_time_zeroing`. -/
structure Cursor where
  pos : ℕ
  first : Bool

/-- `VFS::read` of a page of a regular file, unless the pages are anonymous: the new position. -/
def readPage (m : Elf.Mapping) (content : List UInt8) (pos p : ℕ) (s : State) :
    Exec (ℕ × State) :=
  if m.anonymous then return (pos, s)
  else do
    let bytes ← Vfs.copyFrom content pos (min pageSize (subSize content.length pos))
    return (toSize (pos + bytes.length), { s with mem := s.mem.put p bytes })

/-- The page is one of those where zeros are to follow on the file. -/
def zeroes (m : Elf.Mapping) (pos : ℕ) : Bool :=
  m.zeroPageFileOffset != Elf.noZeroPage && m.zeroPageFileOffset ≤ toSize (pos + pageSize)

/-- Where in the page `do_mmap` takes the zeros to start. -/
def zeroFrom (m : Elf.Mapping) (first : Bool) : ℕ :=
  if first then Elf.alignDown m.zeroPageFileOffset else 0

/-- `memset(dest, 0, size)`, with `dest` moved on into the page and `size` reduced by as much. From
beyond the page, `size` is less than nothing, which is almost all of memory. -/
def zeroPage (m : Elf.Mapping) (first : Bool) (pos p : ℕ) (s : State) : Exec (Cursor × State) :=
  if zeroes m pos then
    let skip := zeroFrom m first
    if skip ≤ pageSize then
      return (⟨pos, false⟩, { s with mem := s.mem.fill (p + skip) (pageSize - skip) 0 })
    else .error .wild
  else return (⟨pos, first⟩, s)

/-- The body of the loop of `do_mmap`. -/
def mmapPage (fuel pgd : ℕ) (m : Elf.Mapping) (content : List UInt8) (v : ℕ) (c : Cursor)
    (s : State) : Exec (Cursor × State) := do
  let (p, s) ← getFreePage fuel s
  let s ← map fuel pgd v p (mmapAttr m.prot) s
  let s ← clearPage p s
  let (pos, s) ← readPage m content c.pos p s
  zeroPage m c.first pos p s

/-- The loop of `do_mmap`, with the number of rounds still to go. -/
def mmapLoop (fuel pgd : ℕ) (m : Elf.Mapping) (content : List UInt8) (v : ℕ) :
    ℕ → ℕ → Cursor → State → Exec State
  | 0, _, _, s => return s
  | n + 1, i, c, s => do
    let (c, s) ← mmapPage fuel pgd m content (toSize (v + i * pageSize)) c s
    mmapLoop fuel pgd m content v n (i + 1) c s

/-- `get_unmapped_area`. -/
def getUnmappedArea : ℕ := 0

/-- The address that `do_mmap` maps the first page at. -/
def mmapAddr (m : Elf.Mapping) : ℕ :=
  if m.addr = 0 then getUnmappedArea else Elf.alignDown m.addr

/-- Where the loop of `do_mmap` starts, in a file with this position. -/
def mmapStart (m : Elf.Mapping) (pos : ℕ) : Cursor :=
  ⟨if m.anonymous then pos else ofInt m.fileOffset, true⟩

/-- `do_mmap`, of a file with this content and position. -/
def doMmap (fuel pgd : ℕ) (m : Elf.Mapping) (content : List UInt8) (pos : ℕ) (s : State) :
    Exec State :=
  if m.refused then return s
  else mmapLoop fuel pgd m content (mmapAddr m) m.pages 0 (mmapStart m pos) s

/-- `load_elf_binary`, with the segments that the parser has found. -/
def loadElfBinary (fuel pgd : ℕ) (content : List UInt8) (pos : ℕ) (segments : List Elf.Segment)
    (s : State) : Exec State :=
  if Elf.isValid content then
    segments.foldlM (fun s seg =>
      if seg.type ≠ Elf.load then pure s else doMmap fuel pgd (Elf.mapping seg) content pos s) s
  else return s

/-! ### What is in the pages -/

/-- What is read into the next page. -/
def readContent (m : Elf.Mapping) (content : List UInt8) (pos : ℕ) : Exec (List UInt8 × ℕ) :=
  if m.anonymous then return ([], pos)
  else do
    let bytes ← Vfs.copyFrom content pos (min pageSize (subSize content.length pos))
    return (bytes, toSize (pos + bytes.length))

/-- **The bytes of the next page**, and how far the loop is then. -/
def pageContent (m : Elf.Mapping) (content : List UInt8) (c : Cursor) :
    Exec ((ℕ → UInt8) × Cursor) := do
  let (bytes, pos) ← readContent m content c.pos
  let read := fun k => (bytes[k]?).getD 0
  if zeroes m pos then
    let skip := zeroFrom m c.first
    if skip ≤ pageSize then return (fun k => if skip ≤ k then 0 else read k, ⟨pos, false⟩)
    else .error .wild
  else return (read, ⟨pos, c.first⟩)

/-- The bytes of the next pages. -/
def pagesContent (m : Elf.Mapping) (content : List UInt8) : ℕ → Cursor → Exec (List (ℕ → UInt8))
  | 0, _ => return []
  | n + 1, c => do
    let (bytes, c) ← pageContent m content c
    return bytes :: (← pagesContent m content n c)

/-- The pages get their bytes, one after the other. -/
def pageActs (pgd v : ℕ) : ℕ → List (ℕ → UInt8) → List Act
  | _, [] => []
  | i, bytes :: pages => .page pgd (toSize (v + i * pageSize)) bytes :: pageActs pgd v (i + 1) pages

attribute [local irreducible] look occupies holders

variable {w : World} {s s' : State} {spaces : ℕ → Space} {m : Elf.Mapping} {mem : Mem}
  {content bytes : List UInt8} {c c' : Cursor} {fuel pgd v p n i pos skip : ℕ}

/-! ### One page -/

theorem overwritten_put (h : bytes.length ≤ pageSize) :
    (mem.fill p pageSize 0).put p bytes = overwritten p (fun k => (bytes[k]?).getD 0) mem := by
  funext a
  rw [overwritten]
  split_ifs with ha
  · rw [Mem.put, if_pos ha.1, Mem.fill_of_mem ha]
  · rw [Mem.put_of_not_mem (by omega), Mem.fill_of_not_mem (by omega)]

theorem overwritten_fill {read : ℕ → UInt8} (h : skip ≤ pageSize) :
    (overwritten p read mem).fill (p + skip) (pageSize - skip) 0 =
      overwritten p (fun k => if skip ≤ k then 0 else read k) mem := by
  funext a
  by_cases ha : p ≤ a ∧ a < p + pageSize
  · rw [overwritten, if_pos ha]
    split_ifs with hskip
    · rw [Mem.fill_of_mem (by omega)]
    · rw [Mem.fill_of_not_mem (by omega), overwritten, if_pos ha]
  · rw [Mem.fill_of_not_mem (by omega), overwritten, overwritten, if_neg ha, if_neg ha]

/-- A buffer gives no more bytes than it was asked for. -/
theorem length_of_copyFrom {len : ℕ} (h : Vfs.copyFrom content pos len = .ok bytes) :
    bytes.length ≤ len := by
  rw [Vfs.copyFrom] at h
  split_ifs at h
  obtain rfl := Except.ok.inj h
  exact List.length_take_le len _

/-- What is read into a page that was cleared. -/
theorem readPage_eq : readPage m content pos p { s with mem := s.mem.fill p pageSize 0 } = (do
    let (bytes, pos) ← readContent m content pos
    return (pos, { s with mem := overwritten p (fun k => (bytes[k]?).getD 0) s.mem })) := by
  rw [readPage, readContent]
  split_ifs with hanon
  · rfl
  · cases hcopy : Vfs.copyFrom content pos (min pageSize (subSize content.length pos)) with
    | error e => rfl
    | ok bytes =>
      have hlen := (length_of_copyFrom hcopy).trans (Nat.min_le_left _ _)
      exact congrArg (fun mem => Except.ok (_, { s with mem := mem })) (overwritten_put hlen)

/-- **A round of the loop** obtains a page, maps it, and writes its bytes. -/
theorem mmapPage_eq : mmapPage fuel pgd m content v c s = (do
    let (p, s) ← getFreePage fuel s
    let s ← map fuel pgd v p (mmapAttr m.prot) s
    if p = 0 then .error .wild else do
      let (bytes, c) ← pageContent m content c
      return (c, { s with mem := overwritten p bytes s.mem })) := by
  rw [mmapPage]
  refine bind_congr fun ⟨p, s⟩ => bind_congr fun s => ?_
  dsimp only
  rw [clearPage]
  split_ifs with hp
  · rfl
  rw [ok_bind, readPage_eq, pageContent]
  cases readContent m content c.pos with
  | error e => rfl
  | ok r =>
    simp only [ok_bind, pure_bind]
    rw [zeroPage]
    dsimp only
    split_ifs with hzero hskip
    · rw [overwritten_fill hskip]
      rfl
    · rfl
    · rfl

theorem isAttr_mmapAttr (prot : ℕ) : IsAttr (mmapAttr prot) := by
  unfold mmapAttr
  split_ifs <;> decide

/-- What `do_mmap` refuses. -/
theorem mapping_refused_iff : m.refused = true ↔ m.flags &&& Elf.mapFixed = 0 ∧ m.addr % pageSize ≠ 0 := by
  have hzero : m.addr % pageSize ≠ 0 → m.addr ≠ 0 := fun h hEq => h (by rw [hEq]; rfl)
  simp only [Elf.Mapping.refused, pageIsAligned, Bool.and_eq_true, beq_iff_eq, bne_iff_ne,
    Bool.not_eq_true', beq_eq_false_iff_ne]
  constructor
  · rintro ⟨⟨hflags, -⟩, haddr⟩
    exact ⟨hflags, haddr⟩
  · rintro ⟨hflags, haddr⟩
    exact ⟨⟨hflags, hzero haddr⟩, haddr⟩

/-- The first page is where the address is, also for an address of zero. -/
theorem mmapAddr_eq_mul (m : Elf.Mapping) : mmapAddr m = m.addr / pageSize * pageSize := by
  rw [mmapAddr]
  split_ifs with h
  · rw [h]
    rfl
  · rfl

/-- **A round of the loop, taken apart.** The page that is obtained becomes one of the map. -/
theorem Inv.mmapPage (h : Inv w) (hpgd : pgd ∈ w.maps)
    (hcall : mmapPage fuel pgd m content v c w.s = .ok (c', s')) :
    ∃ p bytes s₁ s₂, pageContent m content c = .ok (bytes, c') ∧
      VMMap.map fuel pgd v p (mmapAttr m.prot) s₁ = .ok s₂ ∧
      Step w .manage { w with s := s₁, others := p :: w.others } ∧
      Step { w with s := s₁, others := p :: w.others } (.map pgd v p (mmapAttr m.prot))
        { w with s := s₂ } ∧
      s₁.mem = w.s.mem ∧ s₁.live = p :: w.s.live ∧
      s' = { s₂ with mem := overwritten p bytes s₂.mem } := by
  rw [mmapPage_eq] at hcall
  obtain ⟨⟨p, s₁⟩, hpage, hcall⟩ := bind_eq_ok.mp hcall
  obtain ⟨s₂, hmap, hcall⟩ := bind_eq_ok.mp hcall
  dsimp only at hmap hcall
  split_ifs at hcall with hp
  obtain ⟨⟨bytes, c₁⟩, hbytes, hcall⟩ := bind_eq_ok.mp hcall
  cases pure_eq_ok.mp hcall
  obtain ⟨-, -, hnew⟩ := h.owned.getFreePage _ hpage
  obtain ⟨hframe, -⟩ := hnew.resolve_left fun hnull => hp hnull.1
  obtain ⟨⟨p', mm⟩, hpage', hs₁⟩ := bind_eq_ok.mp hpage
  cases pure_eq_ok.mp hs₁
  rw [if_neg hp] at hmap
  obtain ⟨hmanage, hstep⟩ := steps_of_page hpage' hmap hpgd hp (toPhysical_of_isFrame hframe)
    (isAttr_mmapAttr m.prot)
  exact ⟨_, bytes, _, s₂, hbytes, hmap, hmanage, hstep, rfl, rfl, rfl⟩

/-- The pages that were there are left alone, but for the page tables of a map. -/
structure Untouched (pgd : ℕ) (s s' : State) : Prop where
  live : ∀ q ∈ s.live, q ∈ s'.live
  tables : ∀ q ∈ s.live, occupies q 3 pgd s'.mem = occupies q 3 pgd s.mem
  agree : ∀ q ∈ s.live, occupies q 3 pgd s.mem = 0 → Agree s.mem s'.mem q

theorem Untouched.refl (pgd : ℕ) (s : State) : Untouched pgd s s :=
  ⟨fun _ hq => hq, fun _ _ => rfl, fun _ _ _ => Agree.rfl⟩

theorem Untouched.trans {s₁ s₂ s₃ : State} (h : Untouched pgd s₁ s₂) (h' : Untouched pgd s₂ s₃) :
    Untouched pgd s₁ s₃ where
  live q hq := h'.live q (h.live q hq)
  tables q hq := (h'.tables q (h.live q hq)).trans (h.tables q hq)
  agree q hq hocc := by
    have hocc' : occupies q 3 pgd s₂.mem = 0 := (h.tables q hq).trans hocc
    exact (h.agree q hq hocc).trans (h'.agree q (h.live q hq) hocc')

theorem page_page (spaces : ℕ → Space) (pgd v : ℕ) (bytes bytes' : ℕ → UInt8) :
    (Act.page pgd v bytes').apply ((Act.page pgd v bytes).apply spaces) =
      (Act.page pgd v bytes').apply spaces := by
  simp only [Act.apply, Function.update_idem, Function.update_self]
  congr 1
  funext v'
  split_ifs <;> rfl

/-- **A round of the loop** gives the address space a page, and leaves the rest alone. -/
theorem Refines.mmapPage (h : Refines spaces w) (hpgd : pgd ∈ w.maps)
    (hcall : mmapPage fuel pgd m content v c w.s = .ok (c', s')) :
    ∃ bytes, pageContent m content c = .ok (bytes, c') ∧
      Refines ((Act.page pgd v bytes).apply spaces) { w with s := s' } ∧ Untouched pgd w.s s' := by
  obtain ⟨p, bytes, s₁, s₂, hbytes, hmap, hmanage, hstep, hmem, hlive, rfl⟩ :=
    h.inv.mmapPage hpgd hcall
  have h₁ := h.step (.manage hmanage)
  have h₂ := h₁.step (.map hstep)
  have hp := h₁.inv.of_others List.mem_cons_self
  obtain ⟨hframe, -, -, hptes⟩ := hp
  have hattr := isAttr_mmapAttr m.prot
  obtain ⟨fresh, hmapped⟩ := h₁.inv.mapped hpgd List.mem_cons_self hattr hmap
  have hlook : look 3 pgd s₂.mem (pathOf v) = some (descriptor p (makeCow (mmapAttr m.prot))) := by
    rw [hmapped.look, Function.update_self]
  have hEq : frame (descriptor p (makeCow (mmapAttr m.prot))) = p :=
    frame_descriptor hframe (isAttr_makeCow hattr).mask
  -- Nobody else has the page yet, so that filling it changes no other space.
  have hone : refCount p s₂ = 1 := by
    have hrefs := hmapped.refs p hframe
    rw [if_pos rfl, h₁.inv.refs p hframe, hptes] at hrefs
    exact hrefs
  have h₃ := h₂.fill bytes hpgd hlook (by rwa [hEq])
  rw [hEq] at h₃
  refine ⟨bytes, hbytes, ?_, ?_⟩
  · -- What the page had in it when it was mapped is gone.
    rwa [page_page] at h₃
  · have hwrite := h₂.inv.step_overwritten hpgd hlook bytes
    rw [hEq] at hwrite
    have htables := (h₂.inv.step_look hwrite hpgd List.not_mem_nil).2
    have hold : ∀ q ∈ w.s.live, q ∉ fresh ∧ q ≠ p ∧ pageSize ∣ q := by
      intro q hq
      have hq₁ : q ∈ s₁.live := by
        rw [hlive]
        exact List.mem_cons_of_mem p hq
      refine ⟨fun hin => List.disjoint_of_nodup_append hmapped.pages.nodup hin hq₁, ?_,
        h.inv.owned.dvd hq⟩
      rintro rfl
      have hnodup : (q :: w.s.live).Nodup := hlive ▸ h₁.inv.owned.nodup
      exact (List.nodup_cons.mp hnodup).1 hq
    have hocc : ∀ q ∈ w.s.live, occupies q 3 pgd s₂.mem = occupies q 3 pgd w.s.mem := by
      intro q hq
      rw [hmapped.occupies, List.count_eq_zero_of_not_mem (hold q hq).1, hmem]
      rfl
    refine ⟨fun q hq => ?_, fun q hq => (htables q).trans (hocc q hq), fun q hq hzero => ?_⟩
    · rw [hmapped.pages.live, hlive]
      exact List.mem_append_right _ (List.mem_cons_of_mem p hq)
    · obtain ⟨hfresh, hne, hdvd⟩ := hold q hq
      rw [← hmem] at hzero ⊢
      exact (hmapped.agree q hdvd hzero hfresh).trans
        (agree_overwritten hframe.bounds.2.2 hdvd hne bytes)

/-! ### All pages -/

/-- **The loop** gives the address space one page after the other. -/
theorem Refines.mmapLoop (hpgd : pgd ∈ w.maps) : ∀ {n i : ℕ} {c : Cursor} {s : State}
    {spaces : ℕ → Space}, Refines spaces { w with s := s } →
      mmapLoop fuel pgd m content v n i c s = .ok s' →
      ∃ pages, pagesContent m content n c = .ok pages ∧
        Refines ((pageActs pgd v i pages).foldl Act.apply spaces) { w with s := s' } ∧
        Untouched pgd s s'
  | 0, _, _, s, _, h, hcall => by
    cases pure_eq_ok.mp hcall
    exact ⟨[], rfl, h, Untouched.refl pgd _⟩
  | n + 1, i, c, s, spaces, h, hcall => by
    obtain ⟨⟨c₁, s₁⟩, hpage, hcall⟩ := bind_eq_ok.mp hcall
    obtain ⟨bytes, hbytes, h₁, huntouched⟩ := h.mmapPage hpgd hpage
    obtain ⟨pages, hpages, h₂, huntouched'⟩ := Refines.mmapLoop hpgd h₁ hcall
    refine ⟨bytes :: pages, ?_, h₂, huntouched.trans huntouched'⟩
    rw [pagesContent, hbytes, ok_bind]
    dsimp only
    rw [hpages]
    rfl

/-- The bytes that `do_mmap` puts into pages, if it gets that far. -/
def mmapContent (m : Elf.Mapping) (content : List UInt8) (pos : ℕ) : Exec (List (ℕ → UInt8)) :=
  if m.refused then return [] else pagesContent m content m.pages (mmapStart m pos)

theorem Refines.doMmap (h : Refines spaces w) (hpgd : pgd ∈ w.maps)
    (hcall : doMmap fuel pgd m content pos w.s = .ok s') :
    ∃ pages, mmapContent m content pos = .ok pages ∧
      Refines ((pageActs pgd (mmapAddr m) 0 pages).foldl Act.apply spaces) { w with s := s' } ∧
      Untouched pgd w.s s' := by
  rw [VMMap.doMmap] at hcall
  rw [mmapContent]
  split_ifs at hcall ⊢
  · cases pure_eq_ok.mp hcall
    exact ⟨[], rfl, h, Untouched.refl pgd w.s⟩
  · exact Refines.mmapLoop hpgd h hcall

/-- The bytes that `load_elf_binary` puts into pages for a segment, if it gets that far. -/
def segmentContent (content : List UInt8) (pos : ℕ) (seg : Elf.Segment) :
    Exec (List (ℕ → UInt8)) :=
  if seg.type ≠ Elf.load then return [] else mmapContent (Elf.mapping seg) content pos

/-- What the segments of an image are in the address space. -/
def imageActs (pgd : ℕ) (content : List UInt8) (pos : ℕ) :
    List Elf.Segment → Exec (List Act)
  | [] => return []
  | seg :: segments => do
    let pages ← segmentContent content pos seg
    return pageActs pgd (mmapAddr (Elf.mapping seg)) 0 pages ++
      (← imageActs pgd content pos segments)

/-- **`load_elf_binary`** gives the address space the pages of all segments. -/
theorem Refines.loadElfBinary (hpgd : pgd ∈ w.maps) (hvalid : Elf.isValid content = true) :
    ∀ {segments : List Elf.Segment} {s : State} {spaces : ℕ → Space},
      Refines spaces { w with s := s } →
      loadElfBinary fuel pgd content pos segments s = .ok s' →
      ∃ acts, imageActs pgd content pos segments = .ok acts ∧
        Refines (acts.foldl Act.apply spaces) { w with s := s' } ∧ Untouched pgd s s'
  | [], s, _, h, hcall => by
    rw [VMMap.loadElfBinary, if_pos hvalid] at hcall
    cases pure_eq_ok.mp hcall
    exact ⟨[], rfl, h, Untouched.refl pgd _⟩
  | seg :: segments, s, spaces, h, hcall => by
    rw [VMMap.loadElfBinary, if_pos hvalid, List.foldlM_cons] at hcall
    obtain ⟨s₁, hseg, hcall⟩ := bind_eq_ok.mp hcall
    obtain ⟨pages, hpages, h₁, huntouched⟩ : ∃ pages, segmentContent content pos seg = .ok pages ∧
        Refines ((pageActs pgd (mmapAddr (Elf.mapping seg)) 0 pages).foldl Act.apply spaces)
          { w with s := s₁ } ∧ Untouched pgd s s₁ := by
      rw [segmentContent]
      split_ifs at hseg ⊢
      · cases pure_eq_ok.mp hseg
        exact ⟨[], rfl, h, Untouched.refl pgd _⟩
      · exact h.doMmap hpgd hseg
    have hrest : VMMap.loadElfBinary fuel pgd content pos segments s₁ = .ok s' := by
      rwa [VMMap.loadElfBinary, if_pos hvalid]
    obtain ⟨acts, hacts, h₂, huntouched'⟩ := Refines.loadElfBinary hpgd hvalid h₁ hrest
    refine ⟨pageActs pgd (mmapAddr (Elf.mapping seg)) 0 pages ++ acts, ?_, ?_,
      huntouched.trans huntouched'⟩
    · rw [imageActs, hpages, ok_bind, hacts]
      rfl
    · rwa [List.foldl_append]

/-! ### Enough memory -/

/-- **With enough memory, a round of the loop returns** if the file has what it takes. -/
theorem Inv.exists_mmapPage (h : Inv w) (hpgd : pgd ∈ w.maps)
    (hlook : look 3 pgd w.s.mem (pathOf v) = none) (hplenty : Plenty fuel (n + 4) w.s.mm)
    {bytes : ℕ → UInt8} (hbytes : pageContent m content c = .ok (bytes, c')) :
    ∃ s', VMMap.mmapPage fuel pgd m content v c w.s = .ok (c', s') ∧ Plenty fuel n s'.mm := by
  obtain ⟨p, mm, hpage, hp, hrest⟩ := hplenty
  have hcall : VMMap.getFreePage fuel w.s = _ := getFreePage_eq hpage hp
  obtain ⟨-, -, hnew⟩ := h.owned.getFreePage _ hcall
  obtain ⟨hframe, -⟩ := hnew.resolve_left fun hnull => hp hnull.1
  have h₁ := h.step (step_getFreePage hpage hp (toPhysical_of_isFrame hframe))
  obtain ⟨s₂, hmap, hrest'⟩ := h₁.exists_map hpgd List.mem_cons_self (mmapAttr m.prot) hlook hrest
  refine ⟨{ s₂ with mem := overwritten p bytes s₂.mem }, ?_, hrest'⟩
  rw [mmapPage_eq, hcall, ok_bind]
  dsimp only
  rw [hmap, ok_bind, if_neg hp, hbytes]
  rfl

/-- **With enough memory, the loop returns** if the file has what it takes. -/
theorem Refines.exists_mmapLoop (hpgd : pgd ∈ w.maps) : ∀ {n i : ℕ} {c : Cursor} {s : State}
    {spaces : ℕ → Space} {pages : List (ℕ → UInt8)}, Refines spaces { w with s := s } →
      pagesContent m content n c = .ok pages → Plenty fuel (p + 4 * n) s.mm →
      (∀ j, i ≤ j → j < i + n → spaces pgd (toSize (v + j * pageSize)) = none) →
      (∀ j j', i ≤ j → j < j' → j' < i + n →
        pathOf (toSize (v + j' * pageSize)) ≠ pathOf (toSize (v + j * pageSize))) →
      ∃ s', VMMap.mmapLoop fuel pgd m content v n i c s = .ok s' ∧ Plenty fuel p s'.mm
  | 0, _, _, s, _, _, _, _, hplenty, _, _ => ⟨s, rfl, hplenty⟩
  | n + 1, i, c, s, spaces, pages, h, hpages, hplenty, hfree, hpaths => by
    obtain ⟨⟨bytes, c₁⟩, hbytes, hpages⟩ := bind_eq_ok.mp hpages
    obtain ⟨rest, hrest, -⟩ := bind_eq_ok.mp hpages
    have hnone : look 3 pgd s.mem (pathOf (toSize (v + i * pageSize))) = none := by
      have hload := (h.load pgd hpgd _).trans (hfree i (le_refl i) (by omega))
      exact Option.map_eq_none_iff.mp hload
    obtain ⟨s₁, hcall, hplenty₁⟩ := h.inv.exists_mmapPage (n := p + 4 * n) hpgd hnone hplenty hbytes
    obtain ⟨bytes', hbytes', h₁, -⟩ := h.mmapPage hpgd hcall
    have hfree₁ : ∀ j, i + 1 ≤ j → j < i + 1 + n →
        (Act.page pgd (toSize (v + i * pageSize)) bytes').apply spaces pgd
          (toSize (v + j * pageSize)) = none := by
      intro j hij hj
      rw [Act.apply, Function.update_self, if_neg (hpaths i j (le_refl i) (by omega) (by omega))]
      exact hfree j (by omega) (by omega)
    obtain ⟨s', hloop, hplenty'⟩ := Refines.exists_mmapLoop hpgd h₁ hrest hplenty₁ hfree₁
      fun j j' hij hlt hj => hpaths j j' (by omega) hlt (by omega)
    refine ⟨s', ?_, hplenty'⟩
    rw [VMMap.mmapLoop, hcall, ok_bind]
    exact hloop

end Valkyrie.VMMap
