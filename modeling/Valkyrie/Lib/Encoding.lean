import Valkyrie.Base.Exec
import Mathlib.Data.UInt

/-!
# Encodings of characters

`lib/Encoding.cc`: between bytes of UTF-8 and the 16-bit characters of UCS-2. Both functions go by
the high bits of the bytes and check nothing else. A byte that announces two more may be the last
but one of its string; then the terminating null character is skipped, and what comes after the
string is read.
-/

namespace Valkyrie

/-- A byte that announces two more, with the first of them. -/
def IsThree (c₀ c₁ : UInt8) : Prop := c₀ &&& 0x80 ≠ 0 ∧ c₁ &&& 0x80 ≠ 0

/-- A byte that announces one more, with that one. -/
def IsTwo (c₀ c₁ : UInt8) : Prop := c₀ &&& 0x80 ≠ 0 ∧ c₁ &&& 0xc0 ≠ 0

instance (c₀ c₁ : UInt8) : Decidable (IsThree c₀ c₁) := inferInstanceAs (Decidable (_ ∧ _))

instance (c₀ c₁ : UInt8) : Decidable (IsTwo c₀ c₁) := inferInstanceAs (Decidable (_ ∧ _))

/-- The character of three bytes. -/
def charOfThree (c₀ c₁ c₂ : UInt8) : UInt16 :=
  ((c₀ &&& 0xf).toUInt16 <<< 12) ||| ((c₁ &&& 0x3f).toUInt16 <<< 6) ||| (c₂ &&& 0x3f).toUInt16

/-- The character of two bytes. -/
def charOfTwo (c₀ c₁ : UInt8) : UInt16 :=
  ((c₀ &&& 0x1f).toUInt16 <<< 6) ||| (c₁ &&& 0x3f).toUInt16

/-- `utf2ucs`, of a string without its null character. -/
def utf2ucs : List UInt8 → Exec (List UInt16)
  | [] => return []
  | [c] => return [c.toUInt16]
  | [c₀, c₁] =>
    -- The next character would be the one behind the null character.
    if IsThree c₀ c₁ then .error .wild
    else if IsTwo c₀ c₁ then return [charOfTwo c₀ c₁]
    else return [c₀.toUInt16, c₁.toUInt16]
  | c₀ :: c₁ :: c₂ :: rest =>
    if IsThree c₀ c₁ then do return charOfThree c₀ c₁ c₂ :: (← utf2ucs rest)
    else if IsTwo c₀ c₁ then do return charOfTwo c₀ c₁ :: (← utf2ucs (c₂ :: rest))
    else do return c₀.toUInt16 :: (← utf2ucs (c₁ :: c₂ :: rest))

/-- The bytes of a character. -/
def utfBytes (c : UInt16) : List UInt8 :=
  if c < 0x80 then [c.toUInt8]
  else if c < 0x800 then
    [((c &&& 0x3f) &&& 0x1f).toUInt8 ||| 0xc0, (c &&& 0x3f).toUInt8 ||| 0x80]
  else
    [((c >>> 12).toUInt8 &&& 0xf) ||| 0xe0, ((c >>> 6).toUInt8 &&& 0x3f) ||| 0x80,
      (c.toUInt8 &&& 0x3f) ||| 0x80]

/-- `ucs2utf`, up to the first null character. -/
def ucs2utf : List UInt16 → List UInt8
  | [] => []
  | c :: rest => if c = 0 then [] else utfBytes c ++ ucs2utf rest

/-- A statement about a byte is one about 256 values. -/
theorem forall_byte {P : UInt8 → Prop} (h : ∀ n : Fin 256, P (UInt8.ofNat n)) (c : UInt8) : P c := by
  have hc := h ⟨c.toNat, c.toNat_lt⟩
  rwa [UInt8.ofNat_toNat] at hc

end Valkyrie
