import Valkyrie.Base.Exec
import Mathlib.Tactic.Ring
import Mathlib.Tactic.Positivity

/-!
# Integer helpers of the kernel library

`lib/Math.cc`. The functions are loops over machine integers: `size_t` has 64
bits and wraps around, `int` has 32 bits and a sign. Two of them need not return,
and the memory manager calls both with sizes it was given by others, so the loops
are kept as loops, each with its bound, and what is proved is for which arguments
they return and what.

* `Valkyrie.log2` shifts its argument to the right until nothing is left. An
  arithmetic shift never brings a negative argument to zero
  (`Valkyrie.log2_of_neg`).
* `Valkyrie.roundUpToPowOf2` doubles until the argument is reached. Above the
  greatest power of two of the type the doubling wraps to zero and stays there
  (`Valkyrie.roundUpToPowOf2_of_gt`).
-/

namespace Valkyrie

/-- The number of values of `size_t`. -/
def sizeMod : ℕ := 2 ^ 64

/-- The value of a `size_t` expression: arithmetic wraps around. -/
def toSize (x : ℕ) : ℕ := x % sizeMod

/-- The value of a `size_t` difference. -/
def subSize (x y : ℕ) : ℕ := (x + (sizeMod - y % sizeMod)) % sizeMod

/-- A `size_t` converted to `int`: the low 32 bits, read with a sign. -/
def toInt (x : ℕ) : ℤ := Int.bmod x (2 ^ 32)

/-- An `int` expression converted to `size_t`: it is extended with its sign. -/
def ofInt (x : ℤ) : ℕ := (x % sizeMod).toNat

theorem ofInt_lt (x : ℤ) : ofInt x < sizeMod := by
  have hlt := Int.emod_lt_of_pos x (show (0 : ℤ) < sizeMod by decide)
  have hpos := Int.emod_nonneg x (show (sizeMod : ℤ) ≠ 0 by decide)
  rw [ofInt]
  omega

theorem toSize_of_lt {x : ℕ} (h : x < sizeMod) : toSize x = x := Nat.mod_eq_of_lt h

/-- A difference that does not go below zero is the difference. -/
theorem subSize_of_le {x y : ℕ} (hyx : y ≤ x) (hx : x < sizeMod) : subSize x y = x - y := by
  have hy : y % sizeMod = y := Nat.mod_eq_of_lt (lt_of_le_of_lt hyx hx)
  have hEq : x + (sizeMod - y) = x - y + sizeMod := by
    generalize sizeMod = M at hx
    omega
  rw [subSize, hy, hEq, Nat.add_mod_right]
  exact Nat.mod_eq_of_lt (lt_of_le_of_lt (Nat.sub_le x y) hx)

/-- A value that fits in `int` is kept by the conversion. -/
theorem toInt_of_lt {x : ℕ} (h : x < 2 ^ 31) : toInt x = x := by
  unfold toInt
  rw [Int.bmod_def]
  push_cast
  split_ifs <;> omega

/-- A conversion that is not negative is not greater. -/
theorem toInt_le {x : ℕ} (h : 0 ≤ toInt x) : toInt x ≤ x := by
  unfold toInt at h ⊢
  rw [Int.bmod_def] at h ⊢
  push_cast at h ⊢
  split_ifs at h ⊢ <;> omega

/-- A value whose low 32 bits are zero is lost in the conversion. -/
theorem toInt_of_dvd {x : ℕ} (h : 2 ^ 32 ∣ x) : toInt x = 0 := by
  obtain ⟨k, rfl⟩ := h
  unfold toInt
  rw [Int.bmod_def]
  push_cast
  split_ifs <;> omega

/-- A value that is not negative is kept by the conversion back. -/
theorem ofInt_natCast {x : ℕ} (h : x < sizeMod) : ofInt x = x := by
  rw [ofInt, Int.emod_eq_of_lt (Int.natCast_nonneg x) (by exact_mod_cast h), Int.toNat_natCast]

/-! ### Powers -/

/-- `pow`: one multiplication for each unit of the exponent. -/
def pow (base : ℕ) : ℕ → ℕ
  | 0 => 1
  | exponent + 1 => pow base exponent * base

@[simp] theorem pow_eq (base exponent : ℕ) : pow base exponent = base ^ exponent := by
  induction exponent with
  | zero => rfl
  | succ e ih => rw [pow, ih, pow_succ]

/-! ### The binary logarithm -/

/-- The loop of `log2`: shift, and count the shifts that leave something. -/
def log2Loop : ℕ → ℤ → ℕ → Exec ℕ
  | 0, _, _ => .error .outOfFuel
  | fuel + 1, x, result =>
    let x := x / 2
    if x = 0 then .ok result else log2Loop fuel x (result + 1)

/-- `log2` of an `int`. -/
def log2 (fuel : ℕ) (x : ℤ) : Exec ℕ := log2Loop fuel x 0

theorem log2Loop_two_pow (j : ℕ) {fuel : ℕ} (hf : j < fuel) (result : ℕ) :
    log2Loop fuel (2 ^ j) result = .ok (result + j) := by
  induction j generalizing fuel result with
  | zero =>
    obtain ⟨f, rfl⟩ := Nat.exists_eq_succ_of_ne_zero (by omega : fuel ≠ 0)
    simp [log2Loop]
  | succ j ih =>
    obtain ⟨f, rfl⟩ := Nat.exists_eq_succ_of_ne_zero (by omega : fuel ≠ 0)
    have hhalf : (2 : ℤ) ^ (j + 1) / 2 = 2 ^ j := by
      rw [pow_succ]
      exact Int.mul_ediv_cancel _ (by norm_num)
    have hne : (2 : ℤ) ^ j ≠ 0 := by positivity
    rw [log2Loop, hhalf, if_neg hne, ih (by omega)]
    congr 1
    omega

/-- **The logarithm of a power of two** is its exponent. -/
theorem log2_two_pow (j : ℕ) {fuel : ℕ} (hf : j < fuel) : log2 fuel (2 ^ j) = .ok j := by
  rw [log2, log2Loop_two_pow j hf, zero_add]

theorem log2_zero {fuel : ℕ} (hf : 0 < fuel) : log2 fuel 0 = .ok 0 := by
  obtain ⟨f, rfl⟩ := Nat.exists_eq_succ_of_ne_zero hf.ne'
  rfl

/-- The only way for the logarithm to stop is to be stopped. -/
theorem log2_error {fuel : ℕ} {x : ℤ} {e : Stop} (h : log2 fuel x = .error e) : e = .outOfFuel := by
  suffices key : ∀ (fuel : ℕ) (x : ℤ) (result : ℕ),
      log2Loop fuel x result = .error e → e = .outOfFuel from key fuel x 0 h
  intro fuel
  induction fuel with
  | zero => exact fun _ _ h => (Except.error.inj h).symm
  | succ fuel ih =>
    intro x result h
    rw [log2Loop] at h
    by_cases hx : x / 2 = 0
    · rw [if_pos hx] at h
      cases h
    · rw [if_neg hx] at h
      exact ih _ _ h

/-- More rounds do not change the result. -/
theorem log2_mono {fuel fuel' r : ℕ} {x : ℤ} (h : log2 fuel x = .ok r) (hle : fuel ≤ fuel') :
    log2 fuel' x = .ok r := by
  suffices key : ∀ (fuel fuel' : ℕ) (x : ℤ) (result : ℕ), fuel ≤ fuel' →
      log2Loop fuel x result = .ok r → log2Loop fuel' x result = .ok r from key fuel fuel' x 0 hle h
  intro fuel
  induction fuel with
  | zero => exact fun _ _ _ _ h => by cases h
  | succ fuel ih =>
    intro fuel' x result hle h
    obtain ⟨f, rfl⟩ := Nat.exists_eq_succ_of_ne_zero (by omega : fuel' ≠ 0)
    rw [log2Loop] at h ⊢
    by_cases hx : x / 2 = 0
    · rwa [if_pos hx] at h ⊢
    · rw [if_neg hx] at h ⊢
      exact ih f _ _ (by omega) h

/-- **The logarithm of a negative number does not return**: half of a negative
number, rounded down, is negative. -/
theorem log2_of_neg {x : ℤ} (hx : x < 0) (fuel : ℕ) : log2 fuel x = .error .outOfFuel := by
  suffices h : ∀ (fuel : ℕ) (x : ℤ) (result : ℕ), x < 0 →
      log2Loop fuel x result = .error .outOfFuel from h fuel x 0 hx
  intro fuel
  induction fuel with
  | zero => exact fun _ _ _ => rfl
  | succ fuel ih =>
    intro x result hx
    have hneg : x / 2 < 0 := by omega
    rw [log2Loop, if_neg hneg.ne]
    exact ih _ _ hneg

/-! ### Rounding up -/

/-- The loop of `round_up_to_pow_of_2`: double until the argument is reached. -/
def roundUpToPowOf2Loop (x : ℕ) : ℕ → ℕ → Exec ℕ
  | 0, _ => .error .outOfFuel
  | fuel + 1, result =>
    if result < x then roundUpToPowOf2Loop x fuel (toSize (result * 2)) else .ok result

/-- `round_up_to_pow_of_2`. -/
def roundUpToPowOf2 (fuel x : ℕ) : Exec ℕ := roundUpToPowOf2Loop x fuel 1

/-- The loop of `round_up_to_multiple_of_n`: add `n` until the argument is
reached. -/
def roundUpToMultipleOfNLoop (x n : ℕ) : ℕ → ℕ → Exec ℕ
  | 0, _ => .error .outOfFuel
  | fuel + 1, result =>
    if result < x then roundUpToMultipleOfNLoop x n fuel (toSize (result + n)) else .ok result

/-- `round_up_to_multiple_of_n`. -/
def roundUpToMultipleOfN (fuel x n : ℕ) : Exec ℕ := roundUpToMultipleOfNLoop x n fuel n

/-- The only way for the rounding to stop is to be stopped. -/
theorem roundUpToPowOf2_error {fuel x : ℕ} {e : Stop} (h : roundUpToPowOf2 fuel x = .error e) :
    e = .outOfFuel := by
  suffices key : ∀ fuel result : ℕ,
      roundUpToPowOf2Loop x fuel result = .error e → e = .outOfFuel from key fuel 1 h
  intro fuel
  induction fuel with
  | zero => exact fun _ h => (Except.error.inj h).symm
  | succ fuel ih =>
    intro result h
    rw [roundUpToPowOf2Loop] at h
    by_cases hx : result < x
    · rw [if_pos hx] at h
      exact ih _ h
    · rw [if_neg hx] at h
      cases h

/-- More rounds do not change the result. -/
theorem roundUpToPowOf2_mono {fuel fuel' x r : ℕ} (h : roundUpToPowOf2 fuel x = .ok r)
    (hle : fuel ≤ fuel') : roundUpToPowOf2 fuel' x = .ok r := by
  suffices key : ∀ fuel fuel' result : ℕ, fuel ≤ fuel' →
      roundUpToPowOf2Loop x fuel result = .ok r → roundUpToPowOf2Loop x fuel' result = .ok r from
    key fuel fuel' 1 hle h
  intro fuel
  induction fuel with
  | zero => exact fun _ _ _ h => by cases h
  | succ fuel ih =>
    intro fuel' result hle h
    obtain ⟨f, rfl⟩ := Nat.exists_eq_succ_of_ne_zero (by omega : fuel' ≠ 0)
    rw [roundUpToPowOf2Loop] at h ⊢
    by_cases hx : result < x
    · rw [if_pos hx] at h ⊢
      exact ih f _ (by omega) h
    · rwa [if_neg hx] at h ⊢

/-- The loop goes up in steps of `n` until the argument is reached. -/
theorem meets_roundUpToMultipleOfNLoop {x n : ℕ} (hx : x + n ≤ sizeMod) (fuel k : ℕ)
    (hk : n * k < x + n) :
    Exec.Meets (roundUpToMultipleOfNLoop x n fuel (n * k)) (x + n ≤ n * (k + fuel))
      fun r => n ∣ r ∧ x ≤ r ∧ n * k ≤ r ∧ r < x + n := by
  induction fuel generalizing k with
  | zero => exact Exec.meets_outOfFuel.mpr (not_le.mpr hk)
  | succ fuel ih =>
    rw [roundUpToMultipleOfNLoop]
    by_cases hlt : n * k < x
    · have hnext : toSize (n * k + n) = n * (k + 1) := by
        rw [toSize_of_lt (by omega), Nat.mul_succ]
      rw [if_pos hlt, hnext]
      refine ((ih (k + 1) (by rw [Nat.mul_succ]; omega)).weaken fun hf => ?_).mono ?_
      · rwa [show k + 1 + fuel = k + (fuel + 1) by omega]
      · rintro r ⟨h1, h2, h3, h4⟩
        rw [Nat.mul_succ] at h3
        exact ⟨h1, h2, by omega, h4⟩
    · rw [if_neg hlt]
      exact Exec.meets_ok.mpr ⟨Dvd.intro k rfl, by omega, le_rfl, hk⟩

/-- **The rounding** gives the first positive multiple that is at least the
argument, when that does not leave the type. -/
theorem meets_roundUpToMultipleOfN {x n : ℕ} (hpos : 0 < x) (hx : x + n ≤ sizeMod) (fuel : ℕ) :
    Exec.Meets (roundUpToMultipleOfN fuel x n) (x + n ≤ n * (1 + fuel))
      fun r => n ∣ r ∧ x ≤ r ∧ r < x + n := by
  have h := meets_roundUpToMultipleOfNLoop hx fuel 1 (by omega)
  rw [mul_one] at h
  exact h.mono fun r hr => ⟨hr.1, hr.2.1, hr.2.2.2⟩

/-- What the rounding returns is at least the argument, even where the loop has left
the type in between. -/
theorem le_of_roundUpToMultipleOfN {fuel x n r : ℕ} (h : roundUpToMultipleOfN fuel x n = .ok r) :
    x ≤ r := by
  suffices key : ∀ fuel result : ℕ, roundUpToMultipleOfNLoop x n fuel result = .ok r → x ≤ r from
    key fuel n h
  intro fuel
  induction fuel with
  | zero => exact fun _ h => by cases h
  | succ fuel ih =>
    intro result h
    rw [roundUpToMultipleOfNLoop] at h
    by_cases hx : result < x
    · rw [if_pos hx] at h
      exact ih _ h
    · rw [if_neg hx] at h
      cases h
      omega

/-- The rounding by a divisor of the size of the type returns only if there is a multiple in the
type. -/
theorem add_le_of_roundUpToMultipleOfN {fuel x n r : ℕ} (hn : n ∣ sizeMod) (hlt : n < sizeMod)
    (h : roundUpToMultipleOfN fuel x n = .ok r) : x + n ≤ sizeMod := by
  suffices key : ∀ fuel result : ℕ, n ∣ result → result < sizeMod →
      roundUpToMultipleOfNLoop x n fuel result = .ok r → n ∣ r ∧ r < sizeMod by
    have hle := le_of_roundUpToMultipleOfN h
    obtain ⟨⟨a, rfl⟩, hr⟩ := key fuel n dvd_rfl hlt h
    obtain ⟨b, hb⟩ := hn
    have hab : a < b := Nat.lt_of_mul_lt_mul_left (hb ▸ hr)
    have hmul : n * (a + 1) ≤ n * b := Nat.mul_le_mul_left n hab
    rw [Nat.mul_succ] at hmul
    omega
  intro fuel
  induction fuel with
  | zero => exact fun _ _ _ h => by cases h
  | succ fuel ih =>
    intro result hdvd hresult h
    rw [roundUpToMultipleOfNLoop] at h
    by_cases hx : result < x
    · rw [if_pos hx] at h
      exact ih _ ((Nat.dvd_mod_iff hn).mpr (Nat.dvd_add hdvd dvd_rfl)) (Nat.mod_lt _ (by decide)) h
    · rw [if_neg hx] at h
      cases h
      exact ⟨hdvd, hresult⟩

/-- The doubling reaches the least power of two that is at least the argument,
as long as there is one in the type. -/
theorem roundUpToPowOf2Loop_eq {x i j : ℕ} (hj : j < 64) (hij : i ≤ j) (hx : x ≤ 2 ^ j)
    (hlow : ∀ k, i ≤ k → k < j → 2 ^ k < x) {fuel : ℕ} (hf : j - i < fuel) :
    roundUpToPowOf2Loop x fuel (2 ^ i) = .ok (2 ^ j) := by
  obtain ⟨d, rfl⟩ := Nat.exists_eq_add_of_le hij
  induction d generalizing i fuel with
  | zero =>
    obtain ⟨f, rfl⟩ := Nat.exists_eq_succ_of_ne_zero (by omega : fuel ≠ 0)
    rw [add_zero] at hx ⊢
    rw [roundUpToPowOf2Loop, if_neg (not_lt.mpr hx)]
  | succ d ih =>
    obtain ⟨f, rfl⟩ := Nat.exists_eq_succ_of_ne_zero (by omega : fuel ≠ 0)
    have hnext : toSize (2 ^ i * 2) = 2 ^ (i + 1) := by
      rw [← pow_succ]
      exact toSize_of_lt (Nat.pow_lt_pow_right (by norm_num) (by omega))
    have hassoc : i + (d + 1) = i + 1 + d := by omega
    rw [roundUpToPowOf2Loop, if_pos (hlow i le_rfl (by omega)), hnext, hassoc]
    rw [hassoc] at hj hx hlow
    exact ih hj (by omega) hx (fun k hk hk' => hlow k (by omega) hk') (by omega)

/-- **Rounding up to a power of two** returns the least one that is at least the
argument, up to the greatest power of two of the type. -/
theorem roundUpToPowOf2_eq {x j : ℕ} (hj : j < 64) (hx : x ≤ 2 ^ j)
    (hlow : ∀ k, k < j → 2 ^ k < x) {fuel : ℕ} (hf : j < fuel) :
    roundUpToPowOf2 fuel x = .ok (2 ^ j) :=
  roundUpToPowOf2Loop_eq (i := 0) hj (by omega) hx (fun k _ hk => hlow k hk) (by omega)

/-- Every argument up to the greatest power of two has an exponent to round up
to. -/
theorem exists_least_two_pow {x m : ℕ} (hx : x ≤ 2 ^ m) :
    ∃ j, j ≤ m ∧ x ≤ 2 ^ j ∧ ∀ k, k < j → 2 ^ k < x := by
  classical
  have hex : ∃ j, x ≤ 2 ^ j := ⟨m, hx⟩
  refine ⟨Nat.find hex, Nat.find_min' hex hx, Nat.find_spec hex, fun k hk => ?_⟩
  exact not_le.mp (Nat.find_min hex hk)

/-- A doubling that has wrapped to zero stays there. -/
theorem roundUpToPowOf2Loop_zero {x : ℕ} (hx : 0 < x) (fuel : ℕ) :
    roundUpToPowOf2Loop x fuel 0 = .error .outOfFuel := by
  induction fuel with
  | zero => rfl
  | succ fuel ih =>
    rw [roundUpToPowOf2Loop, if_pos hx]
    exact ih

/-- **Above the greatest power of two the rounding does not return.** -/
theorem roundUpToPowOf2_of_gt {x : ℕ} (hx : 2 ^ 63 < x) (fuel : ℕ) :
    roundUpToPowOf2 fuel x = .error .outOfFuel := by
  suffices h : ∀ (fuel i : ℕ), i < 64 →
      roundUpToPowOf2Loop x fuel (2 ^ i) = .error .outOfFuel from h fuel 0 (by norm_num)
  intro fuel
  induction fuel with
  | zero => exact fun _ _ => rfl
  | succ fuel ih =>
    intro i hi
    have hlt : 2 ^ i < x :=
      lt_of_le_of_lt (Nat.pow_le_pow_right (by norm_num) (by omega)) hx
    rw [roundUpToPowOf2Loop, if_pos hlt, ← pow_succ]
    rcases Nat.lt_or_ge (i + 1) 64 with hi' | hi'
    · rw [toSize_of_lt (Nat.pow_lt_pow_right (by norm_num) hi')]
      exact ih _ hi'
    · -- The last doubling is the one that wraps.
      obtain rfl : i = 63 := by omega
      exact roundUpToPowOf2Loop_zero (by omega) fuel

end Valkyrie
