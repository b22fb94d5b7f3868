import Valkyrie.Lib.RoundTrip
import Valkyrie.Fs.Fat32.Entry

/-!
# The array of a long filename

`FilenameEntry::get_filename` hands an array of 27 bytes to `ucs2utf`: as many as the thirteen
characters have in UCS-2, and a null character. In UTF-8 a character may have three bytes. Here are
the stores of `ucs2utf`, one by one; what they leave in memory is the string of
`Valkyrie.ucs2utf` (`Valkyrie.holdsString_replayBytes`), and they stay within the array exactly if
the characters of more than one byte are few (`Valkyrie.Fat32.fitsArray_iff`).
-/

namespace Valkyrie

/-! ### The stores of the encoder -/

/-- The stores for a character: first the bytes are cleared, then they are set. -/
def charStores (c : UInt16) (j : ℕ) : List (ℕ × UInt8) :=
  if c < 0x80 then [(j, 0), (j, c.toUInt8)]
  else if c < 0x800 then
    [(j, 0), (j + 1, 0), (j + 1, (c &&& 0x3f).toUInt8 ||| 0x80),
      (j, ((c &&& 0x3f) &&& 0x1f).toUInt8 ||| 0xc0)]
  else
    [(j, 0), (j + 1, 0), (j + 2, 0), (j, ((c >>> 12).toUInt8 &&& 0xf) ||| 0xe0),
      (j + 1, ((c >>> 6).toUInt8 &&& 0x3f) ||| 0x80), (j + 2, (c.toUInt8 &&& 0x3f) ||| 0x80)]

/-- The stores of `ucs2utf` to `dst`, from an index on. -/
def ucs2utfStores : List UInt16 → ℕ → List (ℕ × UInt8)
  | [], j => [(j, 0)]
  | c :: rest, j =>
    if c = 0 then [(j, 0)] else charStores c j ++ ucs2utfStores rest (j + (utfBytes c).length)

/-- The stores for a character leave its bytes. -/
theorem replayBytes_charStores (c : UInt16) (j : ℕ) (m : Mem) :
    ∀ k < (utfBytes c).length, replayBytes (charStores c j) m (j + k) = (utfBytes c).getD k 0 := by
  rw [charStores, utfBytes]
  split_ifs with hone htwo
  · intro k hk
    obtain rfl : k = 0 := by simpa using hk
    simp [replayBytes]
  · intro k hk
    obtain rfl | rfl : k = 0 ∨ k = 1 := by
      simp only [List.length_cons, List.length_nil] at hk
      omega
    · simp [replayBytes]
    · simp [replayBytes]
  · intro k hk
    obtain rfl | rfl | rfl : k = 0 ∨ k = 1 ∨ k = 2 := by
      simp only [List.length_cons, List.length_nil] at hk
      omega
    · simp [replayBytes]
    · simp [replayBytes]
    · simp [replayBytes]

theorem charStores_within (c : UInt16) (j : ℕ) :
    ∀ st ∈ charStores c j, j ≤ st.1 ∧ st.1 < j + (utfBytes c).length := by
  rw [charStores, utfBytes]
  split_ifs <;> simp

theorem utfBytes_ne_zero {c : UInt16} (hc : c ≠ 0) : ∀ b ∈ utfBytes c, b ≠ 0 := by
  have hbytes := encoded_utfBytes c
  generalize utfBytes c = bytes at hbytes
  cases hbytes with
  | one b hb hlow =>
    intro b' hb' h0
    rw [List.mem_singleton.mp hb'] at h0
    exact hc (by rw [← hb, h0]; rfl)
  | two b₀ b₁ hc hc' h₀ h₁ =>
    intro b' hb' h0
    simp only [List.mem_cons, List.not_mem_nil, or_false] at hb'
    have hnat : b'.toNat = 0 := congrArg UInt8.toNat h0
    rcases hb' with rfl | rfl <;> omega
  | three b₀ b₁ b₂ hc h₀ h₁ h₂ =>
    intro b' hb' h0
    simp only [List.mem_cons, List.not_mem_nil, or_false] at hb'
    have hnat : b'.toNat = 0 := congrArg UInt8.toNat h0
    rcases hb' with rfl | rfl | rfl <;> omega

/-- All stores are from the given index on, up to the null character. -/
theorem ucs2utfStores_within (s : List UInt16) (j : ℕ) :
    ∀ st ∈ ucs2utfStores s j, j ≤ st.1 ∧ st.1 ≤ j + (ucs2utf s).length := by
  induction s generalizing j with
  | nil => simp [ucs2utfStores, ucs2utf]
  | cons c s ih =>
    rw [ucs2utfStores, ucs2utf]
    split_ifs with hc
    · simp
    · intro st hst
      rw [List.length_append]
      rcases List.mem_append.mp hst with hst | hst
      · have hin := charStores_within c j st hst
        omega
      · have hin := ih _ st hst
        omega

/-- The null character is stored behind the string. -/
theorem mem_ucs2utfStores (s : List UInt16) (j : ℕ) :
    (j + (ucs2utf s).length, 0) ∈ ucs2utfStores s j := by
  induction s generalizing j with
  | nil => simp [ucs2utfStores, ucs2utf]
  | cons c s ih =>
    rw [ucs2utfStores, ucs2utf]
    split_ifs with hc
    · simp
    · rw [List.length_append, ← Nat.add_assoc]
      exact List.mem_append_right _ (ih _)

/-- **The stores leave the string.** -/
theorem holdsString_replayBytes (s : List UInt16) (j : ℕ) (m : Mem) :
    Mem.CString (replayBytes (ucs2utfStores s j) m) j (ucs2utf s) := by
  induction s generalizing j m with
  | nil => exact Function.update_self j 0 m
  | cons c s ih =>
    rw [ucs2utfStores, ucs2utf]
    split_ifs with hc
    · exact Function.update_self j 0 m
    · rw [replayBytes_append]
      refine .append (fun k hk => ?_) (utfBytes_ne_zero hc) (ih _ _)
      rw [replayBytes_of_lt fun st hst => ?_, replayBytes_charStores c j m k hk]
      have hin := ucs2utfStores_within s _ st hst
      omega

theorem length_utfBytes (c : UInt16) : (utfBytes c).length =
    1 + (if 0x80 ≤ c then 1 else 0) + (if 0x800 ≤ c then 1 else 0) := by
  have h₂ : 0x80 ≤ c ↔ 128 ≤ c.toNat := Iff.rfl
  have h₃ : 0x800 ≤ c ↔ 2048 ≤ c.toNat := Iff.rfl
  rw [if_congr h₂ rfl rfl, if_congr h₃ rfl rfl]
  have hbytes := encoded_utfBytes c
  generalize utfBytes c = bytes at hbytes
  cases hbytes with
  | one b hb hlow => rw [if_neg (by omega), if_neg (by omega)]; rfl
  | two b₀ b₁ hc hc' h₀ h₁ => rw [if_pos hc, if_neg (by omega)]; rfl
  | three b₀ b₁ b₂ hc h₀ h₁ h₂ => rw [if_pos (by omega), if_pos hc]; rfl

/-- The number of bytes of some characters: one for each, and more for the higher ones. -/
def utfLength (s : List UInt16) : ℕ :=
  s.length + s.countP (0x80 ≤ ·) + s.countP (0x800 ≤ ·)

theorem length_ucs2utf (s : List UInt16) :
    (ucs2utf s).length = utfLength (s.takeWhile (· ≠ 0)) := by
  induction s with
  | nil => rfl
  | cons c s ih =>
    rw [ucs2utf]
    by_cases hc : c = 0
    · rw [if_pos hc, List.takeWhile_cons_of_neg (by simpa using hc)]
      rfl
    · rw [if_neg hc, List.length_append, length_utfBytes, ih,
        List.takeWhile_cons_of_pos (by simpa using hc)]
      simp only [utfLength, List.length_cons, List.countP_cons, decide_eq_true_eq]
      omega

namespace Fat32

/-! ### The array -/

/-- The characters of a long-name entry in front of the first null character. -/
def Entry.name (e : Entry) : List UInt16 := e.units.takeWhile (· ≠ 0)

/-- **The call of `ucs2utf` in `get_filename` stays within its array** of 27 bytes. The characters
are copied to another array, with a null character behind them. -/
def Entry.FitsArray (e : Entry) : Prop := ∀ st ∈ ucs2utfStores (e.units ++ [0]) 0, st.1 < 27

theorem ucs2utf_append_zero (s : List UInt16) : ucs2utf (s ++ [0]) = ucs2utf s := by
  induction s with
  | nil => rfl
  | cons c s ih => rw [List.cons_append, ucs2utf, ucs2utf, ih]

theorem Entry.fitsArray_iff_length (e : Entry) : e.FitsArray ↔ (ucs2utf e.units).length ≤ 26 := by
  rw [← ucs2utf_append_zero]
  constructor
  · intro h
    have hlast := h _ (mem_ucs2utfStores (e.units ++ [0]) 0)
    omega
  · intro h st hst
    have hin := ucs2utfStores_within _ _ st hst
    omega

/-- **When a long filename fits its array**: the characters in front of the first null character
have at most 26 bytes in UTF-8, one for each and one more for each from `0x80` and from `0x800`
on. -/
theorem fitsArray_iff (e : Entry) : e.FitsArray ↔ utfLength e.name ≤ 26 := by
  rw [e.fitsArray_iff_length, length_ucs2utf]
  rfl

/-- Thirteen Chinese characters have 39 bytes. -/
theorem chinese_beyond_array :
    (lfnEntry 0x41 0 fun _ => 0x4e00).name = List.replicate 13 0x4e00 ∧
      (39, 0) ∈ ucs2utfStores ((lfnEntry 0x41 0 fun _ => 0x4e00).units ++ [0]) 0 ∧
      ¬(lfnEntry 0x41 0 fun _ => 0x4e00).FitsArray := by
  have hunits : (lfnEntry 0x41 0 fun _ => 0x4e00).units = List.replicate 13 0x4e00 :=
    Entry.units_lfnEntry 0x41 0 _
  have hmem : (39, 0) ∈ ucs2utfStores ((lfnEntry 0x41 0 fun _ => 0x4e00).units ++ [0]) 0 := by
    rw [hunits]
    decide
  refine ⟨?_, hmem, fun h => absurd (h _ hmem) (by decide)⟩
  rw [Entry.name, hunits]
  decide

end Fat32

end Valkyrie
