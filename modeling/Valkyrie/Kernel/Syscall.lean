import Valkyrie.Kernel.AddressSpaces

/-!
# Buffers of user programs

`sys_read` and `sys_write` of `kernel/Syscall.cc`. The buffer is given by a virtual address.
`Task::v2p` translates this one address, by going down the page tables, and the bytes are then
copied to the physical address and those that follow it, or from there. Neither the page tables
nor the attributes of pages are looked at again.

So what matters is how the pages of the buffer lie in physical memory, and who else has them.
The calls do what they are for exactly if the frames of the buffer lie behind each other and have
no other descriptor (`Valkyrie.VMMap.respects_iff`). Both can fail for a buffer that the task may
write to: the frames of two pages are rarely neighbours, and after a fork all of them are shared.
-/

namespace Valkyrie.VMMap

open Exec MemoryManager Function

/-! ### The calls -/

/-- `sys_read`, with the bytes that the file has for it. -/
def sysRead (fuel pgd buf : ℕ) (data : List UInt8) (s : State) : Exec State := do
  let p ← getPhysicalAddress fuel pgd buf s
  if p = 0 ∧ data ≠ [] then .error .wild
  else return { s with mem := s.mem.put p data }

/-- `sys_write`: the bytes that the file gets. -/
def sysWrite (fuel pgd buf count : ℕ) (s : State) : Exec (List UInt8) := do
  let p ← getPhysicalAddress fuel pgd buf s
  if p = 0 ∧ count ≠ 0 then .error .wild
  else return (List.range count).map fun i => s.mem (p + i)

/-- **A buffer** that a task may write to. -/
structure UserBuffer (pgd buf n : ℕ) (m : Mem) : Prop where
  bound : buf + n ≤ userEnd
  mapped : ∀ i < n, ∃ e, look 3 pgd m (pathOf (buf + i)) = some e ∧
    (has pdRdonly e = false ∨ has pdCowPage e = true)

/-- **The calls respect address spaces.** After `sys_read`, the task finds in the buffer what was
read, and nothing else has changed for it or for another task. The file gets from `sys_write` what
the task finds in the buffer. -/
structure Respects (fuel pgd buf n : ℕ) (w : World) : Prop where
  read : ∀ data : List UInt8, data.length = n → ∃ s', sysRead fuel pgd buf data w.s = .ok s' ∧
    (∀ i < n, load pgd s'.mem (buf + i) = data[i]?) ∧
    (∀ pgd' ∈ w.maps, pgd' ≠ pgd → ∀ v, load pgd' s'.mem v = load pgd' w.s.mem v) ∧
    ∀ v < userEnd, v < buf ∨ buf + n ≤ v → load pgd s'.mem v = load pgd w.s.mem v
  write : ∃ bytes, sysWrite fuel pgd buf n w.s = .ok bytes ∧
    bytes.map some = (List.range n).map fun i => load pgd w.s.mem (buf + i)

/-- The physical address behind a virtual one. -/
def phys (pgd : ℕ) (m : Mem) (v : ℕ) : Option ℕ :=
  (look 3 pgd m (pathOf v)).map fun e => frame e + pageOffset v

/-- **The frames of a buffer lie behind each other**, and nobody else has them. -/
structure Straight (pgd buf n : ℕ) (w : World) : Prop where
  contiguous : ∀ i < n, phys pgd w.s.mem (buf + i) = (phys pgd w.s.mem buf).map (· + i)
  unshared : ∀ i < n, ∀ e, look 3 pgd w.s.mem (pathOf (buf + i)) = some e →
    refCount (frame e) w.s = 1

variable {w : World} {s s' : State} {m m' : Mem} {pgd pgd' p q v v' n i fuel buf : ℕ}
  {e e' : Descriptor} {path : Path 3} {data : List UInt8}

/-! ### A bit that is not looked at -/

theorem isValid_eq_getLsbD (e : Descriptor) : isValid e = e.getLsbD 0 := by
  have hand : e &&& 1 = if e.getLsbD 0 then 1 else 0 := by
    refine BitVec.eq_of_getLsbD_eq fun i hi => ?_
    rw [BitVec.getLsbD_and]
    obtain rfl | hne := Nat.eq_zero_or_pos i
    · cases e.getLsbD 0 <;> rfl
    · have hone : (1 : Descriptor).getLsbD i = false := by
        change (1#64).getLsbD i = false
        rw [BitVec.getLsbD_one]
        simp [hne.ne']
      rw [hone, Bool.and_false]
      cases e.getLsbD 0
      · exact BitVec.getLsbD_zero.symm
      · exact hone.symm
  rw [isValid, hand]
  cases e.getLsbD 0 <;> rfl

theorem pageSize_dvd_frame (e : Descriptor) : pageSize ∣ frame e := by
  have hpow : pageSize = 2 ^ 12 := rfl
  rw [hpow]
  refine Nat.dvd_of_mod_eq_zero (Nat.eq_of_testBit_eq fun i => ?_)
  rw [Nat.testBit_mod_two_pow, Nat.zero_testBit]
  by_cases hi : i < 12
  · have hmask : pdPageMask.getLsbD i = false := by
      rw [getLsbD_pdPageMask i (by omega)]
      simp [hi]
    rw [frame, ← BitVec.getLsbD, BitVec.getLsbD_and, hmask]
    simp
  · simp [hi]

/-- One bit of a byte is turned over. It is none of those that tell whether a descriptor is valid
and where it leads to. -/
def flipped (a : ℕ) (m : Mem) : Mem := update m a (m a ^^^ 4)

/-- A word is its first byte and the others. -/
theorem getLsbD_readWord (m : Mem) (a i : ℕ) : (m.readWord a).getLsbD i =
    if i < 8 then (m a).toBitVec.getLsbD i else (m.readBytes (a + 1) 7).getLsbD (i - 8) :=
  BitVec.getLsbD_append

theorem readWord_flipped (a : ℕ) (m : Mem) : isValid ((flipped a m).readWord a) =
    isValid (m.readWord a) ∧ frame ((flipped a m).readWord a) = frame (m.readWord a) := by
  have hrest : (flipped a m).readBytes (a + 1) 7 = m.readBytes (a + 1) 7 :=
    Mem.readBytes_congr fun k _ => update_of_ne (by omega) _ _
  have hfirst : flipped a m a = m a ^^^ 4 := update_self _ _ _
  constructor
  · rw [isValid_eq_getLsbD, isValid_eq_getLsbD, getLsbD_readWord, getLsbD_readWord, hfirst]
    simp
  · rw [frame, frame]
    refine congrArg BitVec.toNat (BitVec.eq_of_getLsbD_eq fun i hi => ?_)
    rw [BitVec.getLsbD_and, BitVec.getLsbD_and, getLsbD_pdPageMask i hi, getLsbD_readWord,
      getLsbD_readWord, hrest]
    by_cases hlow : i < 8
    · have hmask : decide (12 ≤ i ∧ i < 47) = false := by simp; omega
      rw [hmask, Bool.and_false, Bool.and_false]
    · rw [if_neg hlow, if_neg hlow]

/-- Page tables lead to the same frames with the bit turned over. -/
theorem entry_flipped {a pt : ℕ} (ha : pageSize ∣ a) (hpt : pageSize ∣ pt) (i : Fin 512) :
    isValid (entry (flipped a m) pt i) = isValid (entry m pt i) ∧
      frame (entry (flipped a m) pt i) = frame (entry m pt i) := by
  by_cases hslot : slot pt i = a
  · rw [entry, entry, hslot]
    exact readWord_flipped a m
  · have hsame : entry (flipped a m) pt i = entry m pt i := by
      refine Mem.readWord_congr fun k hk => update_of_ne (fun hEq => hslot ?_) _ _
      obtain ⟨x, rfl⟩ := ha
      obtain ⟨y, rfl⟩ := hpt
      simp only [slot, pageSize] at hEq ⊢
      omega
    rw [hsame]
    exact ⟨rfl, rfl⟩

theorem look_flipped {a : ℕ} (ha : pageSize ∣ a) (d : ℕ) : ∀ {pt : ℕ} (path : Path d),
    pageSize ∣ pt → (look d pt (flipped a m) path).map frame = (look d pt m path).map frame := by
  induction d with
  | zero =>
    intro pt i hpt
    obtain ⟨hvalid, hframe⟩ := entry_flipped (m := m) ha hpt i
    rw [look, look, hvalid]
    split_ifs
    · exact congrArg some hframe
    · rfl
  | succ d ih =>
    rintro pt ⟨i, path⟩ hpt
    obtain ⟨hvalid, hframe⟩ := entry_flipped (m := m) ha hpt i
    rw [look_succ, look_succ, branchLook, branchLook, hvalid, hframe]
    split_ifs
    · exact ih path (pageSize_dvd_frame _)
    · rfl

attribute [local irreducible] look occupies holders

/-! ### `v2p` -/

theorem phys_eq_some (hlook : look 3 pgd m (pathOf v) = some e) :
    phys pgd m v = some (frame e + pageOffset v) := by
  rw [phys, hlook, Option.map_some]

section Buffer

variable (h : Inv w) (hpgd : pgd ∈ w.maps) (hbuf : UserBuffer pgd buf n w.s.mem)
include h hpgd hbuf

/-- The calls on a buffer go to the physical address of its first byte. -/
theorem UserBuffer.start (fuel : ℕ) (hn : 0 < n) : ∃ p, p ≠ 0 ∧ phys pgd w.s.mem buf = some p ∧
    getPhysicalAddress fuel pgd buf w.s = .ok p := by
  obtain ⟨e, hlook, -⟩ := hbuf.mapped 0 hn
  rw [Nat.add_zero] at hlook
  have hframe := (h.mapped_frame hpgd hlook).1
  refine ⟨frame e + pageOffset buf, ?_, phys_eq_some hlook, getPhysicalAddress_eq hlook hframe⟩
  have hpos := hframe.bounds.1
  have hbegin : 0 < zone0Begin := by decide
  omega

variable (hstraight : Straight pgd buf n w) (hp : phys pgd w.s.mem buf = some p)
include hstraight hp

/-- The bytes of the buffer, one by one. -/
theorem Straight.byte (hi : i < n) : ∃ e, look 3 pgd w.s.mem (pathOf (buf + i)) = some e ∧
    frame e + pageOffset (buf + i) = p + i ∧ pageSize ∣ frame e := by
  obtain ⟨e, hlook, -⟩ := hbuf.mapped i hi
  have hphys := hstraight.contiguous i hi
  rw [hp, phys_eq_some hlook, Option.map_some] at hphys
  exact ⟨e, hlook, Option.some.inj hphys, (h.mapped_frame hpgd hlook).1.bounds.2.2⟩

/-- What is written to the buffer is not written to a page table. -/
theorem Straight.agree (hlen : data.length = n) (hpgd' : pgd' ∈ w.maps)
    (hq : 0 < occupies q 3 pgd' w.s.mem) : Agree w.s.mem (w.s.mem.put p data) q := by
  intro k hk
  refine Mem.put_of_not_mem ?_
  by_contra hin
  obtain ⟨e, hlook, hbyte, hdvd⟩ := hstraight.byte h hpgd hbuf hp (i := q + k - p) (by omega)
  have hsum : q + k = frame e + pageOffset (buf + (q + k - p)) := by omega
  obtain ⟨rfl, -⟩ := eq_of_add_offset (h.owned.dvd ((h.tables hpgd').mem q hq)) hdvd hk
    (pageOffset_lt _) hsum
  exact hq.ne' (h.mapped_not_table hpgd hlook hpgd')

/-- What is written to the buffer is found in the buffer only. -/
theorem Straight.load (hlen : data.length = n) (hpgd' : pgd' ∈ w.maps)
    (hout : ∀ i < n, ¬(pgd' = pgd ∧ SameCell (buf + i) v)) :
    VMMap.load pgd' (w.s.mem.put p data) v = VMMap.load pgd' w.s.mem v := by
  have hlook := (look_congr 3 fun q hq => hstraight.agree h hpgd hbuf hp hlen hpgd' hq).1
  rw [VMMap.load, VMMap.load, hlook]
  cases hEq : look 3 pgd' w.s.mem (pathOf v) with
  | none => rfl
  | some e' =>
    refine congrArg some (Mem.put_of_not_mem ?_)
    by_contra hin
    have hdvd' := (h.mapped_frame hpgd' hEq).1.bounds.2.2
    obtain ⟨e, hlook, hbyte, hdvd⟩ := hstraight.byte h hpgd hbuf hp
      (i := frame e' + pageOffset v - p) (by omega)
    have hsum : frame e' + pageOffset v =
        frame e + pageOffset (buf + (frame e' + pageOffset v - p)) := by omega
    obtain ⟨hframe, hoff⟩ := eq_of_add_offset hdvd' hdvd (pageOffset_lt v) (pageOffset_lt _) hsum
    have hone := hstraight.unshared _ (by omega) e hlook
    rw [h.refs _ (h.mapped_frame hpgd hlook).1] at hone
    obtain ⟨hmap, hpath⟩ := eq_of_ptesOf_le_one (by omega) hpgd hpgd' hlook hEq hframe
    exact hout _ (by omega) ⟨hmap, hpath, hoff⟩

end Buffer

/-- **A buffer that is straight** is read and written as it should be. -/
theorem Straight.respects (h : Inv w) (hpgd : pgd ∈ w.maps) (hbuf : UserBuffer pgd buf n w.s.mem)
    (hstraight : Straight pgd buf n w) : Respects fuel pgd buf n w := by
  obtain rfl | hn := Nat.eq_zero_or_pos n
  · obtain ⟨p, hp⟩ : ∃ p, getPhysicalAddress fuel pgd buf w.s = .ok p := exists_getPhysicalAddress
    refine ⟨fun data hlen => ⟨w.s, ?_, fun i hi => absurd hi (Nat.not_lt_zero i), fun _ _ _ _ => rfl,
      fun _ _ _ => rfl⟩, [], ?_, rfl⟩
    · obtain rfl := List.eq_nil_of_length_eq_zero hlen
      rw [sysRead, hp, ok_bind, if_neg fun hnull => hnull.2 rfl, Mem.put_nil]
      rfl
    · rw [sysWrite, hp, ok_bind, if_neg fun hnull => hnull.2 rfl]
      rfl
  obtain ⟨p, hne, hp, hcall⟩ := hbuf.start h hpgd fuel hn
  refine ⟨fun data hlen => ⟨{ w.s with mem := w.s.mem.put p data }, ?_, fun i hi => ?_,
    fun pgd' hpgd' hne' v => ?_, fun v hv hout => ?_⟩, ?_⟩
  · rw [sysRead, hcall, ok_bind, if_neg fun hnull => hne hnull.1]
    rfl
  · obtain ⟨e, hlook, hbyte, -⟩ := hstraight.byte h hpgd hbuf hp hi
    have hlook' := (look_congr 3 fun q hq => hstraight.agree h hpgd hbuf hp hlen hpgd hq).1
    obtain ⟨b, hb⟩ : ∃ b, data[i]? = some b := ⟨data[i], List.getElem?_eq_getElem (by omega)⟩
    dsimp only
    rw [VMMap.load, hlook', hlook, Option.map_some, hbyte, Mem.put_add hb, hb]
  · exact hstraight.load h hpgd hbuf hp hlen hpgd' fun i _ hcell => hne' hcell.1
  · refine hstraight.load h hpgd hbuf hp hlen hpgd fun i hi hcell => ?_
    have hbound := hbuf.bound
    have hEq := eq_of_sameCell (by omega) hv hcell.2
    omega
  · refine ⟨_, by rw [sysWrite, hcall, ok_bind, if_neg fun hnull => hne hnull.1]; rfl, ?_⟩
    rw [List.map_map]
    refine List.map_congr_left fun i hi => ?_
    obtain ⟨e, hlook, hbyte, -⟩ := hstraight.byte h hpgd hbuf hp (List.mem_range.mp hi)
    rw [load_eq_some hlook, hbyte]
    rfl

/-! ### Why nothing less will do -/

/-- What `sys_read` writes. -/
theorem sysRead_mem (hcall : getPhysicalAddress fuel pgd buf s = .ok p)
    (h : sysRead fuel pgd buf data s = .ok s') : s'.mem = s.mem.put p data := by
  rw [sysRead, hcall, ok_bind] at h
  split_ifs at h
  cases pure_eq_ok.mp h
  rfl

/-- The bytes that are there, with a bit of one of them turned over. -/
def flippedData (m : Mem) (p n i : ℕ) : List UInt8 :=
  (List.range n).map fun j => flipped (p + i) m (p + j)

theorem getElem?_flippedData (hi : i < n) : (flippedData m p n i)[i]? = some (m (p + i) ^^^ 4) := by
  rw [flippedData, List.getElem?_map, List.getElem?_range hi, Option.map_some, flipped,
    update_self]

theorem put_flippedData (hi : i < n) : m.put p (flippedData m p n i) = flipped (p + i) m := by
  funext x
  by_cases hx : p ≤ x ∧ x < p + n
  · obtain ⟨k, rfl⟩ := Nat.exists_eq_add_of_le hx.1
    refine Mem.put_add ?_
    rw [flippedData, List.getElem?_map, List.getElem?_range (by omega), Option.map_some]
  · rw [Mem.put_of_not_mem (by rw [flippedData, List.length_map, List.length_range]; omega)]
    exact (update_of_ne (by omega) _ _).symm

theorem put_self : m.put p ((List.range n).map fun j => m (p + j)) = m := by
  funext x
  by_cases hx : p ≤ x ∧ x < p + n
  · obtain ⟨k, rfl⟩ := Nat.exists_eq_add_of_le hx.1
    refine Mem.put_add ?_
    rw [List.getElem?_map, List.getElem?_range (by omega), Option.map_some]
  · exact Mem.put_of_not_mem (by rw [List.length_map, List.length_range]; omega)

theorem xor_four_ne (b : UInt8) : b ^^^ 4 ≠ b := by
  intro h
  have hzero : b ^^^ (b ^^^ 4) = b ^^^ b := congrArg (b ^^^ ·) h
  rw [← UInt8.xor_assoc, UInt8.xor_self, UInt8.zero_xor] at hzero
  exact absurd hzero (by decide)

/-- The next address, in the same page. -/
theorem succ_of_offset (h : pageOffset (v + 1) ≠ 0) :
    pathOf (v + 1) = pathOf v ∧ pageOffset (v + 1) = pageOffset v + 1 := by
  have hpage : faultPage (v + 1) = faultPage v := by
    simp only [faultPage, pageOffset, pageSize] at h ⊢
    omega
  refine ⟨?_, ?_⟩
  · rw [← pathOf_faultPage (v + 1), hpage, pathOf_faultPage]
  · simp only [pageOffset, pageSize] at h ⊢
    omega

section Necessary

variable (h : Inv w) (hpgd : pgd ∈ w.maps) (hbuf : UserBuffer pgd buf n w.s.mem)
  (hres : Respects fuel pgd buf n w)
include h hpgd hbuf hres

/-- The frames of a buffer that is respected lie behind each other. -/
theorem Respects.contiguous (hi : i < n) :
    phys pgd w.s.mem (buf + i) = (phys pgd w.s.mem buf).map (· + i) := by
  obtain ⟨p, -, hp, hcall⟩ := hbuf.start h hpgd fuel (by omega)
  rw [hp, Option.map_some]
  induction i with
  | zero => exact hp
  | succ i ih =>
    obtain ⟨e, hlook, -⟩ := hbuf.mapped i (by omega)
    obtain ⟨e', hlook', -⟩ := hbuf.mapped (i + 1) hi
    have hphys := ih (by omega)
    rw [phys_eq_some hlook] at hphys
    have hbyte := Option.some.inj hphys
    by_cases hoff : pageOffset (buf + i + 1) ≠ 0
    · obtain ⟨hpath, hsucc⟩ := succ_of_offset hoff
      have hsame : look 3 pgd w.s.mem (pathOf (buf + (i + 1))) = some e := by
        rw [← Nat.add_assoc, hpath, hlook]
      rw [phys_eq_some hsame, ← Nat.add_assoc, hsucc]
      exact congrArg some (by omega)
    -- At the start of a page, the byte after the last one is the first of a page too.
    have hzero : pageOffset (buf + (i + 1)) = 0 := not_not.mp hoff
    have hdvd : pageSize ∣ p + (i + 1) := by
      have hlast : pageOffset (buf + i) + 1 = pageSize := by
        simp only [pageOffset, pageSize] at hzero ⊢
        omega
      have hnext : p + (i + 1) = frame e + pageSize := by omega
      rw [hnext]
      exact (pageSize_dvd_frame e).add (dvd_refl _)
    rw [phys_eq_some hlook', hzero, Nat.add_zero]
    by_contra hne
    have hne : frame e' ≠ p + (i + 1) := fun hEq => hne (congrArg some hEq)
    obtain ⟨s₁, hread₁, hload₁, -⟩ := hres.read ((List.range n).map fun j => w.s.mem (p + j)) (by simp)
    obtain ⟨s₂, hread₂, hload₂, -⟩ := hres.read (flippedData w.s.mem p n (i + 1)) (by
      simp [flippedData])
    have hbyte₁ := hload₁ (i + 1) hi
    have hbyte₂ := hload₂ (i + 1) hi
    rw [sysRead_mem hcall hread₁, put_self, List.getElem?_map, List.getElem?_range hi,
      load_eq_some hlook', hzero] at hbyte₁
    rw [sysRead_mem hcall hread₂, put_flippedData hi, getElem?_flippedData hi, load] at hbyte₂
    have hmap := look_flipped (m := w.s.mem) hdvd 3 (pathOf (buf + (i + 1)))
      (h.isFrame_pgd hpgd).bounds.2.2
    rw [hlook'] at hmap
    obtain ⟨e₂, hlook₂, hframe⟩ := Option.map_eq_some_iff.mp hmap
    rw [hlook₂, Option.map_some, hframe, hzero, flipped,
      update_of_ne (show frame e' + 0 ≠ p + (i + 1) from hne)] at hbyte₂
    exact xor_four_ne _ (Option.some.inj (hbyte₂.symm.trans hbyte₁))

/-- The frames of a buffer that is respected are not shared. -/
theorem Respects.unshared (hi : i < n) (hlook : look 3 pgd w.s.mem (pathOf (buf + i)) = some e) :
    refCount (frame e) w.s = 1 := by
  obtain ⟨p, -, hp, hcall⟩ := hbuf.start h hpgd fuel (by omega)
  have hphys := hres.contiguous h hpgd hbuf hi
  rw [hp, phys_eq_some hlook, Option.map_some] at hphys
  have hbyte := Option.some.inj hphys
  have hframe := (h.mapped_frame hpgd hlook).1
  rw [h.refs _ hframe]
  by_contra hcount
  -- There is another place where the frame is found.
  obtain ⟨pgd', path', e', hpgd', hlook', hsame, hother⟩ : ∃ pgd' path' e', pgd' ∈ w.maps ∧
      look 3 pgd' w.s.mem path' = some e' ∧ frame e' = frame e ∧
        ¬(pgd' = pgd ∧ path' = pathOf (buf + i)) := by
    by_contra hnone
    have hplace : ∀ {pgd' path' e'}, pgd' ∈ w.maps → look 3 pgd' w.s.mem path' = some e' →
        frame e' = frame e → pgd' = pgd ∧ path' = pathOf (buf + i) := fun hpgd' hlook' hsame =>
      not_not.mp fun hother => hnone ⟨_, _, _, hpgd', hlook', hsame, hother⟩
    have hsole : Sole (fun x => frame x = frame e) w := by
      intro pgd₁ pgd₂ path₁ path₂ e₁ e₂ hpgd₁ hlook₁ hsame₁ hpgd₂ hlook₂ hsame₂
      obtain ⟨rfl, rfl⟩ := hplace hpgd₁ hlook₁ hsame₁
      exact hplace hpgd₂ hlook₂ (hsame₂.trans hsame₁)
    exact hcount (by rw [hsole.ptesOf_eq_one h hpgd hlook rfl, Nat.cast_one])
  obtain ⟨v, hv, rfl, hoff⟩ := exists_address path' (pageOffset_lt (buf + i))
  obtain ⟨s', hread, -, hothers, hself⟩ := hres.read (flippedData w.s.mem p n i) (by simp [flippedData])
  rw [sysRead_mem hcall hread, put_flippedData hi] at hothers hself
  have hload : load pgd' (flipped (p + i) w.s.mem) v = load pgd' w.s.mem v := by
    by_cases hmap : pgd' = pgd
    · subst hmap
      refine hself v hv ?_
      by_contra hin
      -- Another byte of the buffer would lie at the same place.
      obtain ⟨j, rfl⟩ := Nat.exists_eq_add_of_le (show buf ≤ v by omega)
      have hphys' := hres.contiguous h hpgd hbuf (i := j) (by omega)
      rw [hp, phys_eq_some hlook', Option.map_some, hsame, hoff, hbyte] at hphys'
      have hEq : j = i := by
        have hsum := Option.some.inj hphys'
        omega
      exact hother ⟨rfl, by rw [hEq]⟩
    · exact hothers pgd' hpgd' hmap v
  have hlook₂ : look 3 pgd' (flipped (p + i) w.s.mem) (pathOf v) = some e' := by
    rw [flipped, ← hbyte, (look_congr 3 fun q hq => h.agree_store hpgd hlook _ hpgd' hq).1, hlook']
  rw [load_eq_some hlook₂, load_eq_some hlook', hsame, hoff, hbyte, flipped,
    update_self] at hload
  exact xor_four_ne _ (Option.some.inj hload)

end Necessary

/-- **When the calls respect address spaces.** In every state that is reached, for every task and
every buffer that it may write to: exactly if the frames of the buffer lie behind each other in
physical memory and have no other descriptor. -/
theorem respects_iff {next : ℕ → Option ℕ} {index prevChunkSize : ℕ → ℤ} {mem : Mem}
    (h : Run AnyStep (World.init next index prevChunkSize mem) w) (hpgd : pgd ∈ w.maps)
    (hbuf : UserBuffer pgd buf n w.s.mem) :
    Respects fuel pgd buf n w ↔ Straight pgd buf n w := by
  have hinv := inv_of_run h
  refine ⟨fun hres => ⟨fun i hi => ?_, fun i hi e hlook => ?_⟩, fun hstraight => ?_⟩
  · exact hres.contiguous hinv hpgd hbuf hi
  · exact hres.unshared hinv hpgd hbuf hi hlook
  · exact hstraight.respects hinv hpgd hbuf

/-- A buffer of one byte, in a page that the task has for itself. -/
theorem respects_iff_one_byte : ∃ w pgd, Run AnyStep World.zero w ∧ pgd ∈ w.maps ∧
    UserBuffer pgd 5 1 w.s.mem ∧ Respects 20 pgd 5 1 w := by
  have hcheck : check (fun r => decide (r.1 ≠ 0 ∧ r.2.1 ≠ 0 ∧ toPhysical r.2.1 = r.2.1 ∧
      (look 3 r.1 r.2.2.2.2.mem (pathOf 5)).isSome ∧
      has pdRdonly ((look 3 r.1 r.2.2.2.2.mem (pathOf 5)).getD 0) = false ∧
      refCount (frame ((look 3 r.1 r.2.2.2.2.mem (pathOf 5)).getD 0)) r.2.2.2.2 = 1))
      (onePage userPageRW) = true := by decide +kernel
  obtain ⟨⟨pgd, p, s₁, mm, s₂⟩, hrun, hr⟩ := exists_ok_of_check hcheck
  obtain ⟨hpgd, hp, hphys, hsome, hwrite, hcount⟩ := of_decide_eq_true hr
  obtain ⟨e, hlook⟩ := Option.isSome_iff_exists.mp hsome
  dsimp only at hlook hwrite hcount
  rw [hlook, Option.getD_some] at hwrite hcount
  obtain ⟨hstep₁, hstep₂, hstep₃⟩ := steps_of_onePage hrun hpgd hp hphys (by decide)
  have hrun : Run AnyStep World.zero ⟨s₂, [], [], [pgd]⟩ :=
    ((Relation.ReflTransGen.single ⟨_, hstep₁⟩).tail ⟨_, hstep₂⟩).tail ⟨_, hstep₃⟩
  have hfirst : ∀ {i}, i < 1 → 5 + i = 5 := fun hi => by omega
  have hbuf : UserBuffer pgd 5 1 s₂.mem :=
    ⟨by decide, fun i hi => ⟨e, by rw [hfirst hi, hlook], Or.inl hwrite⟩⟩
  refine ⟨_, pgd, hrun, List.mem_singleton_self pgd, hbuf,
    (respects_iff hrun (List.mem_singleton_self pgd) hbuf).mpr ⟨fun i hi => ?_, fun i hi e' hlook' => ?_⟩⟩
  · obtain rfl : i = 0 := by omega
    rw [Nat.add_zero]
    exact Option.map_id'.symm
  · rw [hfirst hi, hlook] at hlook'
    obtain rfl := Option.some.inj hlook'
    exact hcount

/-- The calls that give a task two pages. -/
def twoPages : Exec ((ℕ × ℕ × State × MemoryManager.State × State) × ℕ × MemoryManager.State × State) := do
  let r ← onePage userPageRW
  let (p, mm) ← MemoryManager.getFreePage 20 true r.2.2.2.2.mm
  let s ← map 20 r.1 4096 p userPageRW { r.2.2.2.2 with mm := mm, live := p :: r.2.2.2.2.live }
  return (r, p, mm, s)

/-- **A buffer across two pages is not respected**: the second byte goes to the page that follows
the first one in physical memory. -/
theorem not_respects_of_two_pages : ∃ w pgd, Run AnyStep World.zero w ∧ pgd ∈ w.maps ∧
    UserBuffer pgd 4095 2 w.s.mem ∧ ¬Respects 20 pgd 4095 2 w := by
  have hcheck : check (fun r => decide ((r.1.1 ≠ 0 ∧ r.1.2.1 ≠ 0 ∧ toPhysical r.1.2.1 = r.1.2.1 ∧
      r.2.1 ≠ 0 ∧ toPhysical r.2.1 = r.2.1) ∧
      (∀ i < 2, (look 3 r.1.1 r.2.2.2.mem (pathOf (4095 + i))).isSome ∧
        has pdRdonly ((look 3 r.1.1 r.2.2.2.mem (pathOf (4095 + i))).getD 0) = false) ∧
      phys r.1.1 r.2.2.2.mem (4095 + 1) ≠ (phys r.1.1 r.2.2.2.mem 4095).map (· + 1)))
      twoPages = true := by decide +kernel
  obtain ⟨⟨⟨pgd, p, s₁, mm, s₂⟩, p', mm', s₃⟩, hrun, hr⟩ := exists_ok_of_check hcheck
  obtain ⟨⟨hpgd, hp, hphys, hp', hphys'⟩, hmapped, hgap⟩ := of_decide_eq_true hr
  obtain ⟨r, hone, hrun⟩ := bind_eq_ok.mp hrun
  obtain ⟨⟨p'', mm''⟩, hpage, hrun⟩ := bind_eq_ok.mp hrun
  obtain ⟨s₃', hmap, hrun⟩ := bind_eq_ok.mp hrun
  cases pure_eq_ok.mp hrun
  obtain ⟨hstep₁, hstep₂, hstep₃⟩ := steps_of_onePage hone hpgd hp hphys (by decide)
  obtain ⟨hstep₄, hstep₅⟩ := steps_of_page (w := ⟨s₂, [], [], [pgd]⟩) hpage hmap
    (List.mem_singleton_self pgd) hp' hphys' (by decide)
  have hrun : Run AnyStep World.zero ⟨s₃, [], [], [pgd]⟩ :=
    ((((Relation.ReflTransGen.single ⟨_, hstep₁⟩).tail ⟨_, hstep₂⟩).tail ⟨_, hstep₃⟩).tail
      ⟨_, hstep₄⟩).tail ⟨_, hstep₅⟩
  have hbuf : UserBuffer pgd 4095 2 s₃.mem := ⟨by decide, fun i hi => by
    obtain ⟨hsome, hwrite⟩ := hmapped i hi
    obtain ⟨e, hlook⟩ := Option.isSome_iff_exists.mp hsome
    dsimp only at hlook hwrite
    rw [hlook] at hwrite
    exact ⟨e, hlook, Or.inl hwrite⟩⟩
  refine ⟨_, pgd, hrun, List.mem_singleton_self pgd, hbuf, fun hres => hgap ?_⟩
  exact hres.contiguous (inv_of_run hrun) (List.mem_singleton_self pgd) hbuf (i := 1) (by decide)

end Valkyrie.VMMap
