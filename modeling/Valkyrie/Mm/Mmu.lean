import Valkyrie.Mm.MemoryManager

/-!
# Page descriptors

`include/mm/mmu.h`. A page descriptor is a 64-bit word: the address of a page frame or of
the next page table in the middle, attributes around it. `PD_PAGE_MASK` cuts out the
address; what it keeps of a descriptor made of an address and of attributes is the address
(`Valkyrie.frame_descriptor`).
-/

namespace Valkyrie

open MemoryManager

/-- An entry of a page table. -/
abbrev Descriptor := BitVec 64

def pdCowPage : Descriptor := 1 <<< 55

def pdEl0ExecNever : Descriptor := 1 <<< 54

def pdAccess : Descriptor := 1 <<< 10

def pdRdonly : Descriptor := 1 <<< 7

def pdKernelUser : Descriptor := 1 <<< 6

def pdTable : Descriptor := 0b11

def pdPage : Descriptor := 0b11

/-- `MAIR_IDX_NORMAL_NOCACHE`. -/
def mairIdxNormalNocache : Descriptor := 1

/-- `__USER_PAGE`. -/
def userPage : Descriptor := (mairIdxNormalNocache <<< 2) ||| pdAccess ||| pdKernelUser ||| pdPage

def userPageRX : Descriptor := userPage ||| pdRdonly

def userPageRW : Descriptor := userPage ||| pdEl0ExecNever

def userPageR : Descriptor := userPage ||| pdRdonly ||| pdEl0ExecNever

def pdPageMask : Descriptor := 0x00007ffffffff000

def pdAttrMask : Descriptor := 0xfff

/-- The negation of `PD_INVALID`. -/
def isValid (e : Descriptor) : Bool := e &&& 1 != 0

/-- The descriptor has all the bits of an attribute. -/
def has (attr e : Descriptor) : Bool := e &&& attr != 0

/-- The address in a descriptor. -/
def frame (e : Descriptor) : ℕ := (e &&& pdPageMask).toNat

/-- A descriptor of an address and attributes. -/
def descriptor (p : ℕ) (attr : Descriptor) : Descriptor := BitVec.ofNat 64 p ||| attr

/-! ### Indices of a virtual address -/

instance neZeroTable : NeZero 512 := ⟨by decide⟩

/-- `PGD_INDEX`. -/
def pgdIndex (v : ℕ) : Fin 512 := Fin.ofNat 512 (v >>> 39)

/-- `PUD_INDEX`. -/
def pudIndex (v : ℕ) : Fin 512 := Fin.ofNat 512 (v >>> 30)

/-- `PMD_INDEX`. -/
def pmdIndex (v : ℕ) : Fin 512 := Fin.ofNat 512 (v >>> 21)

/-- `PTE_INDEX`. -/
def pteIndex (v : ℕ) : Fin 512 := Fin.ofNat 512 (v >>> 12)

/-- `PAGE_OFFSET`. -/
def pageOffset (v : ℕ) : ℕ := v % pageSize

/-! ### What a descriptor is made of -/

/-- Attributes that a page can be mapped with: it is valid, and the bits of the address are
left alone. -/
structure IsAttr (attr : Descriptor) : Prop where
  valid : isValid attr = true
  mask : attr &&& pdPageMask = 0

instance (attr : Descriptor) : Decidable (IsAttr attr) :=
  decidable_of_iff (isValid attr = true ∧ attr &&& pdPageMask = 0)
    ⟨fun h => ⟨h.1, h.2⟩, fun h => ⟨h.valid, h.mask⟩⟩

theorem getLsbD_pdPageMask : ∀ i < 64, pdPageMask.getLsbD i = decide (12 ≤ i ∧ i < 47) := by decide

theorem testBit_of_isFrame {p i : ℕ} (h : IsFrame p) (hi : i < 12 ∨ 47 ≤ i) :
    p.testBit i = false := by
  obtain ⟨-, hlt, k, rfl⟩ := h.bounds
  rcases hi with hi | hi
  · have hpow : pageSize = 2 ^ 12 := rfl
    rw [hpow, Nat.testBit_two_pow_mul]
    simp [hi]
  · have hbound : pageSize * k < 2 ^ 47 := by
      have : zone1Begin < 2 ^ 47 := by decide
      omega
    exact Nat.testBit_lt_two_pow (hbound.trans_le (Nat.pow_le_pow_right (by decide) hi))

/-- The address of a frame is what the mask keeps. -/
theorem ofNat_and_pdPageMask {p : ℕ} (h : IsFrame p) :
    BitVec.ofNat 64 p &&& pdPageMask = BitVec.ofNat 64 p := by
  refine BitVec.eq_of_getLsbD_eq fun i hi => ?_
  rw [BitVec.getLsbD_and, getLsbD_pdPageMask i hi, BitVec.getLsbD_ofNat]
  by_cases hmid : 12 ≤ i ∧ i < 47
  · simp [hmid]
  · have hout : i < 12 ∨ 47 ≤ i := by omega
    simp [testBit_of_isFrame h hout]

theorem toNat_ofNat_of_isFrame {p : ℕ} (h : IsFrame p) :
    (BitVec.ofNat 64 p).toNat = p := by
  have hlt : p < 2 ^ 64 := by
    have h1 := h.bounds.2.1
    have h2 : zone1Begin < 2 ^ 64 := by decide
    omega
  rw [BitVec.toNat_ofNat, Nat.mod_eq_of_lt hlt]

/-- Bits outside of the address of a descriptor. -/
theorem outside_of_lt {bits : Descriptor} (h : ∀ i < 64, bits.getLsbD i = true → i < 12 ∨ 47 ≤ i)
    (i : ℕ) (hi : bits.getLsbD i = true) : i < 12 ∨ 47 ≤ i := by
  by_cases hlt : i < 64
  · exact h i hlt hi
  · omega

section Made

variable {p : ℕ} {attr : Descriptor}

/-- **The address of a descriptor** is the address it was made of. -/
theorem frame_descriptor (hp : IsFrame p) (hattr : attr &&& pdPageMask = 0) :
    frame (descriptor p attr) = p := by
  have hand : descriptor p attr &&& pdPageMask = BitVec.ofNat 64 p := by
    rw [descriptor, BitVec.and_comm, BitVec.and_or_distrib_left, BitVec.and_comm pdPageMask,
      BitVec.and_comm pdPageMask, ofNat_and_pdPageMask hp, hattr]
    exact BitVec.or_zero
  rw [frame, hand, toNat_ofNat_of_isFrame hp]

/-- The bits outside of the address are those of the attributes. -/
theorem descriptor_and (hp : IsFrame p) {bits : Descriptor}
    (hbits : ∀ i, bits.getLsbD i = true → i < 12 ∨ 47 ≤ i) :
    descriptor p attr &&& bits = attr &&& bits := by
  refine BitVec.eq_of_getLsbD_eq fun i hi => ?_
  rw [BitVec.getLsbD_and, BitVec.getLsbD_and, descriptor, BitVec.getLsbD_or, BitVec.getLsbD_ofNat]
  cases hbit : bits.getLsbD i with
  | false => simp
  | true => simp [testBit_of_isFrame hp (hbits i hbit)]

theorem isValid_descriptor (hp : IsFrame p) :
    isValid (descriptor p attr) = isValid attr := by
  rw [isValid, isValid, descriptor_and hp]
  intro i hi
  have : i = 0 := by
    by_contra hne
    simp [hne] at hi
  omega

/-- The attribute bits of a descriptor are those it was made of. -/
theorem has_descriptor (hp : IsFrame p) {bits : Descriptor}
    (hbits : ∀ i, bits.getLsbD i = true → i < 12 ∨ 47 ≤ i) :
    has bits (descriptor p attr) = has bits attr := by
  rw [has, has, descriptor_and hp hbits]

end Made

section Masked

variable {e bits attr : Descriptor}

/-- Bits that are cleared outside of the address leave the address alone. -/
theorem frame_and (h : bits &&& pdPageMask = pdPageMask) : frame (e &&& bits) = frame e := by
  rw [frame, frame, BitVec.and_assoc, h]

theorem isValid_and (h : bits &&& 1 = 1) : isValid (e &&& bits) = isValid e := by
  rw [isValid, isValid, BitVec.and_assoc, h]

theorem has_and_self (h : bits &&& attr = attr) : has attr (e &&& bits) = has attr e := by
  rw [has, has, BitVec.and_assoc, h]

theorem has_and_zero (h : bits &&& attr = 0) : has attr (e &&& bits) = false := by
  rw [has, BitVec.and_assoc, h]
  simp

end Masked

end Valkyrie
