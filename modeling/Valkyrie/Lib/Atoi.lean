import Valkyrie.Lib.CString
import Valkyrie.Lib.Encoding
import Valkyrie.Lib.Math

/-!
# Converting strings to integers

`atoi` of `lib/CString.cc`. It skips the blanks at the beginning, takes a sign, and then one digit
after the other, as long as there are any. Two comparisons, one in front of the multiplication and
one in front of the addition, end the loop as soon as the value leaves the range of `int`. So the
result is that of exact arithmetic, cut off at the two ends of the range, and no operation overflows
(`Valkyrie.CLib.atoi_saturates`).

An `int` operation that overflows has no defined result. Here it stops the call
(`Valkyrie.CLib.toInt32`), so that a call that returns has not done one.
-/

namespace Valkyrie.CLib

open Exec

/-- `INT_MAX`. -/
def intMax : ℤ := 2 ^ 31 - 1

/-- `INT_MIN`. -/
def intMin : ℤ := -2 ^ 31

/-- **The result of an `int` operation**, which has to be in the range. -/
def toInt32 (x : ℤ) : Exec ℤ :=
  if intMin ≤ x ∧ x ≤ intMax then return x else .error (.panic "signed integer overflow")

/-! ### The code -/

/-- `is_digit`. -/
def isDigit (c : UInt8) : Bool := 48 ≤ c ∧ c ≤ 57

/-- `is_alphanumeric`. -/
def isAlphanumeric (c : UInt8) : Bool :=
  (48 ≤ c ∧ c ≤ 57) ∨ (65 ≤ c ∧ c ≤ 70) ∨ (97 ≤ c ∧ c ≤ 102)

/-- `to_decimal`. -/
def toDecimal (c : UInt8) : ℕ :=
  if isDigit c then c.toNat - 48
  else if 65 ≤ c ∧ c ≤ 70 then c.toNat - 65 + 10
  else if 97 ≤ c ∧ c ≤ 102 then c.toNat - 97 + 10
  else 0

/-- `strlen`. -/
def strlen (m : Mem) : ℕ → ℕ → Exec ℕ
  | 0, _ => .error .outOfFuel
  | fuel + 1, s =>
    if m s = 0 then return 0
    else do return (← strlen m fuel (s + 1)) + 1

/-- The loop that skips the blanks, and where it gets to. The string does not end at a blank. -/
def skipBlanks (m : Mem) : ℕ → ℕ → Exec ℕ
  | 0, _ => .error .outOfFuel
  | fuel + 1, str => if m str = 32 then skipBlanks m fuel (str + 1) else return str

/-- What is returned if the value is out of range. -/
def saturated (isNegative : Bool) : ℤ := if isNegative then intMin else intMax

/-- The loop through the digits. -/
def digitsLoop (m : Mem) (base : ℕ) (isNegative : Bool) (str len : ℕ) : ℕ → ℕ → ℤ → Exec ℤ
  | 0, _, _ => .error .outOfFuel
  | fuel + 1, ptr, result =>
    let isValid := if base = 10 then isDigit else isAlphanumeric
    if (ptr : ℤ) < toInt len ∧ isValid (m (str + ptr)) then
      if intMax / base < result then return saturated isNegative
      else do
        let result ← toInt32 (result * base)
        let nextDigit := toDecimal (m (str + ptr))
        if intMax - nextDigit < result then return saturated isNegative
        else do
          let result ← toInt32 (result + nextDigit)
          digitsLoop m base isNegative str len fuel (ptr + 1) result
    else return if isNegative then -result else result

/-- `atoi`. -/
def atoi (m : Mem) (base fuel str : ℕ) : Exec ℤ := do
  let isValid := if base = 10 then isDigit else isAlphanumeric
  let str ← skipBlanks m fuel str
  let len ← strlen m fuel str
  if m str ≠ 43 ∧ m str ≠ 45 ∧ ¬isValid (m str) then return 0
  else
    digitsLoop m base (m str = 45) str len fuel (if m str = 45 ∨ m str = 43 then 1 else 0) 0

/-! ### What it is for -/

/-- **The digit that a character stands for**, in this base. -/
def digit? (base : ℕ) (c : UInt8) : Option ℕ :=
  (if 48 ≤ c ∧ c ≤ 57 then some (c.toNat - 48)
  else if 65 ≤ c ∧ c ≤ 70 then some (c.toNat - 55)
  else if 97 ≤ c ∧ c ≤ 102 then some (c.toNat - 87)
  else none).filter (· < base)

/-- The value of some digits, behind others that have this value. -/
def valueFrom (base : ℕ) : ℕ → List UInt8 → ℕ
  | n, [] => n
  | n, c :: s => match digit? base c with
    | some x => valueFrom base (base * n + x) s
    | none => n

/-- A value that is cut off at the ends of the range of `int`. -/
def clamp (x : ℤ) : ℤ := max intMin (min intMax x)

/-- **The number at the beginning of a string**: blanks, a sign, and digits as long as there are any. -/
def number (base : ℕ) (s : List UInt8) : ℤ :=
  match s.dropWhile (· = 32) with
  | [] => 0
  | c :: s =>
    if c = 45 then -valueFrom base 0 s
    else if c = 43 then valueFrom base 0 s
    else valueFrom base 0 (c :: s)

variable {m : Mem} {s t : List UInt8} {base fuel str a n ptr : ℕ} {c : UInt8} {isNegative : Bool}

/-! ### Digits -/

theorem digit?_ten (c : UInt8) :
    digit? 10 c = if isDigit c then some (toDecimal c) else none :=
  forall_byte (P := fun c => digit? 10 c = if isDigit c then some (toDecimal c) else none)
    (by decide +kernel) c

theorem digit?_sixteen (c : UInt8) :
    digit? 16 c = if isAlphanumeric c then some (toDecimal c) else none :=
  forall_byte (P := fun c => digit? 16 c = if isAlphanumeric c then some (toDecimal c) else none)
    (by decide +kernel) c

/-- The two tests of the code, in one. -/
theorem digit?_eq (hbase : base = 10 ∨ base = 16) (c : UInt8) :
    digit? base c =
      if (if base = 10 then isDigit else isAlphanumeric) c then some (toDecimal c) else none := by
  rcases hbase with rfl | rfl
  · exact digit?_ten c
  · exact digit?_sixteen c

/-- More digits do not make the value smaller. -/
theorem le_valueFrom (hbase : 0 < base) (s : List UInt8) (n : ℕ) : n ≤ valueFrom base n s := by
  induction s generalizing n with
  | nil => exact le_rfl
  | cons c s ih =>
    rw [valueFrom]
    rcases digit? base c with _ | x
    · exact le_rfl
    · exact (Nat.le_mul_of_pos_left n hbase |>.trans (Nat.le_add_right _ x)).trans (ih _)

/-! ### The loops -/

theorem strlen_eq (hs : m.CString a s) (hfuel : s.length < fuel) : strlen m fuel a = .ok s.length := by
  induction s generalizing a fuel with
  | nil =>
    obtain ⟨fuel, rfl⟩ := exists_succ_of_lt hfuel
    exact if_pos hs
  | cons c s ih =>
    obtain ⟨fuel, rfl⟩ := exists_succ_of_lt hfuel
    have hne : m a ≠ 0 := hs.1 ▸ hs.2.1
    rw [strlen, if_neg hne, ih hs.2.2 (Nat.lt_of_succ_lt_succ hfuel)]
    rfl

theorem skipBlanks_eq (hs : m.CString a s) (hfuel : s.length < fuel) : ∃ b,
    skipBlanks m fuel a = .ok b ∧ m.CString b (s.dropWhile (· = 32)) := by
  induction s generalizing a fuel with
  | nil =>
    obtain ⟨fuel, rfl⟩ := exists_succ_of_lt hfuel
    have hne : m a ≠ 32 := fun h => absurd (hs.symm.trans h) (by decide)
    exact ⟨a, by rw [skipBlanks, if_neg hne]; rfl, hs⟩
  | cons c s ih =>
    obtain ⟨fuel, rfl⟩ := exists_succ_of_lt hfuel
    rw [skipBlanks]
    by_cases hc : c = 32
    · obtain ⟨b, hskip, hb⟩ := ih hs.2.2 (Nat.lt_of_succ_lt_succ hfuel)
      refine ⟨b, by rw [if_pos (hs.1.trans hc), hskip], ?_⟩
      rwa [List.dropWhile_cons_of_pos (by simpa using hc)]
    · refine ⟨a, by rw [if_neg fun h => hc (hs.1.symm.trans h)]; rfl, ?_⟩
      rwa [List.dropWhile_cons_of_neg (by simpa using hc)]

/-- A number with a sign. -/
def signed (isNegative : Bool) (n : ℕ) : ℤ := if isNegative then -n else n

theorem clamp_signed_of_le (h : (n : ℤ) ≤ intMax) : clamp (signed isNegative n) = signed isNegative n := by
  rw [intMax] at h
  rw [clamp, intMin, intMax, signed]
  split_ifs <;> omega

theorem clamp_signed_of_lt (h : intMax < n) : clamp (signed isNegative n) = saturated isNegative := by
  rw [intMax] at h
  rw [clamp, saturated, intMin, intMax, signed]
  split_ifs <;> omega

theorem toInt32_of_le {x : ℤ} (h0 : 0 ≤ x) (h : x ≤ intMax) : toInt32 x = .ok x :=
  if_pos ⟨le_trans (by decide) h0, h⟩

/-- **The invariant of the loop**: the result is the value of the digits so far. What is still to come
is the rest of the string. -/
theorem digitsLoop_eq (hbase : base = 10 ∨ base = 16) {len : ℕ} (hlen : len < 2 ^ 31) {u : List UInt8}
    (hu : m.CString (str + ptr) u) (hptr : ptr + u.length = len) (hn : (n : ℤ) ≤ intMax)
    (hfuel : u.length < fuel) :
    digitsLoop m base isNegative str len fuel ptr n =
      .ok (clamp (signed isNegative (valueFrom base n u))) := by
  have hpos : 0 < base := by omega
  induction u generalizing ptr n fuel with
  | nil =>
    obtain ⟨fuel, rfl⟩ := exists_succ_of_lt hfuel
    have hend : ¬(ptr : ℤ) < toInt len := by
      rw [toInt_of_lt hlen]
      rw [List.length_nil] at hptr
      omega
    rw [digitsLoop, if_neg fun h => hend h.1, valueFrom, clamp_signed_of_le hn]
    rfl
  | cons c u ih =>
    obtain ⟨fuel, rfl⟩ := exists_succ_of_lt hfuel
    rw [List.length_cons] at hptr hfuel
    have hlt : (ptr : ℤ) < toInt len := by
      rw [toInt_of_lt hlen]
      omega
    have hdigit := digit?_eq hbase c
    rw [digitsLoop, valueFrom]
    simp only [hu.1, hlt, true_and]
    by_cases hvalid : (if base = 10 then isDigit else isAlphanumeric) c
    · rw [if_pos hvalid] at hdigit ⊢
      simp only [hdigit]
      have hle := le_valueFrom hpos u (base * n + toDecimal c)
      by_cases hdiv : intMax / base < n
      · -- One more digit is too much, and so are those behind it.
        have hmul : intMax < base * n := by
          rw [mul_comm]
          exact (Int.ediv_lt_iff_lt_mul (by exact_mod_cast hpos)).mp hdiv
        rw [if_pos hdiv, clamp_signed_of_lt]
        · rfl
        · push_cast [← Nat.cast_le (α := ℤ)] at hle
          omega
      · have hmul : (n : ℤ) * base ≤ intMax :=
          (Int.le_ediv_iff_mul_le (by exact_mod_cast hpos)).mp (not_lt.mp hdiv)
        have hnonneg : (0 : ℤ) ≤ n * base :=
          mul_nonneg (Int.natCast_nonneg n) (Int.natCast_nonneg base)
        rw [if_neg hdiv, toInt32_of_le hnonneg hmul, ok_bind]
        by_cases hadd : intMax - toDecimal c < n * base
        · -- The product is in the range, but the sum is not.
          rw [if_pos hadd, clamp_signed_of_lt]
          · rfl
          · push_cast [← Nat.cast_le (α := ℤ)] at hle
            rw [mul_comm] at hadd
            omega
        · have hcast : ((base * n + toDecimal c : ℕ) : ℤ) = n * base + toDecimal c := by
            push_cast
            rw [mul_comm]
          have hnext := @ih fuel (base * n + toDecimal c) (ptr + 1) hu.2.2 (by omega)
            (by rw [hcast]; omega) (by omega)
          rw [if_neg hadd, toInt32_of_le (by omega) (by omega), ok_bind, ← hnext, hcast]
    · -- The first character that is no digit ends the number.
      rw [if_neg hvalid] at hdigit ⊢
      simp only [hdigit]
      rw [clamp_signed_of_le hn]
      rfl

/-- **What `atoi` returns**: the number, cut off at the ends of the range, and without an overflow on
the way. -/
theorem atoi_eq (hbase : base = 10 ∨ base = 16) (hs : m.CString a s) (hlen : s.length < 2 ^ 31)
    (hfuel : s.length < fuel) : atoi m base fuel a = .ok (clamp (number base s)) := by
  obtain ⟨b, hskip, hb⟩ := skipBlanks_eq hs hfuel
  have hle : (s.dropWhile (· = 32)).length ≤ s.length := (List.dropWhile_sublist _).length_le
  rw [atoi, hskip, ok_bind, strlen_eq hb (hle.trans_lt hfuel), ok_bind, number]
  rcases hrest : s.dropWhile (· = 32) with _ | ⟨c, u⟩
  · -- Nothing but blanks: the character behind them is the zero.
    have hzero : m b = 0 := by
      rw [hrest] at hb
      exact hb
    have hvalid : ¬(if base = 10 then isDigit else isAlphanumeric) 0 := by
      rcases hbase with rfl | rfl <;> decide
    rw [hzero, if_pos ⟨by decide, by decide, hvalid⟩, hrest]
    rfl
  · rw [hrest] at hb hle ⊢
    have hlen' : (c :: u).length < 2 ^ 31 := hle.trans_lt hlen
    have hfuel' : (c :: u).length < fuel := hle.trans_lt hfuel
    have hzero : ((0 : ℕ) : ℤ) ≤ intMax := by decide
    have hfirst : m b = c := hb.1
    rw [List.length_cons] at hfuel'
    dsimp only
    rw [hfirst]
    by_cases hminus : c = 45
    · subst hminus
      rw [if_neg fun h => h.2.1 rfl, if_pos (rfl : (45 : UInt8) = 45)]
      exact digitsLoop_eq hbase hlen' hb.2.2 (Nat.add_comm ..) hzero (by omega)
    by_cases hplus : c = 43
    · subst hplus
      rw [if_neg fun h => h.1 rfl, if_neg hminus, if_pos (rfl : (43 : UInt8) = 43)]
      exact digitsLoop_eq hbase hlen' hb.2.2 (Nat.add_comm ..) hzero (by omega)
    rw [if_neg hminus, if_neg hplus]
    by_cases hvalid : (if base = 10 then isDigit else isAlphanumeric) c
    · have hloop : digitsLoop m base false b (c :: u).length fuel 0 (0 : ℕ) = _ :=
        digitsLoop_eq hbase hlen' hb (Nat.zero_add _) hzero hfuel'
      rw [if_neg fun h => h.2.2 hvalid, if_neg (not_or.mpr ⟨hminus, hplus⟩), decide_eq_false hminus]
      exact hloop
    · have hdigit : digit? base c = none := by rw [digit?_eq hbase, if_neg hvalid]
      rw [if_pos ⟨hplus, hminus, hvalid⟩, valueFrom, hdigit]
      rfl

/-- **`atoi` saturates**, for every string that is shorter than the range of `int`. -/
theorem atoi_saturates (hbase : base = 10 ∨ base = 16) (hs : m.CString a s)
    (hlen : s.length < 2 ^ 31) : ∃ bound, ∀ fuel, bound < fuel →
      atoi m base fuel a = .ok (clamp (number base s)) :=
  ⟨s.length, fun _ hfuel => atoi_eq hbase hs hlen hfuel⟩

/-- The string ` -2147483649`, which is below the range by one. -/
theorem atoi_saturates_below : ∃ bound, ∀ fuel, bound < fuel →
    atoi (Mem.put (fun _ => 0) 0 [32, 45, 50, 49, 52, 55, 52, 56, 51, 54, 52, 57]) 10 fuel 0 =
      .ok (clamp (number 10 [32, 45, 50, 49, 52, 55, 52, 56, 51, 54, 52, 57])) :=
  atoi_saturates (Or.inl rfl) (by decide) (by decide)

example : clamp (number 10 [32, 45, 50, 49, 52, 55, 52, 56, 51, 54, 52, 57]) = intMin := by decide

end Valkyrie.CLib
