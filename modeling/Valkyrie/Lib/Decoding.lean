import Mathlib.Data.List.DropRight
import Valkyrie.Lib.CString
import Valkyrie.Lib.Encoding

/-!
# How `utf2ucs` reads

`utf2ucs` advances by one, two or three bytes, and only looks at the byte on which it lands. It takes
three bytes whenever two bytes with the high bit follow each other. So it enters every run of such
bytes at its start, and it jumps over the end of the string exactly if the string ends with a run
whose length leaves the remainder two (`Valkyrie.staysInBounds_iff`).

`Valkyrie.utf2ucs` is a function of the string. Here the loop runs on memory and records the indices
it reads; it decodes as the function does as long as it stays within the string.
-/

namespace Valkyrie

open Exec

/-! ### Bytes that are read -/

/-- The loop of `utf2ucs` from an index on: the characters, and the indices that are read. The
second byte is only looked at if the first one has the high bit. -/
def utf2ucsLoop (src : Mem) : ℕ → ℕ → Exec (List UInt16 × List ℕ)
  | 0, _ => .error .outOfFuel
  | fuel + 1, i =>
    if src i = 0 then return ([], [i])
    else if IsThree (src i) (src (i + 1)) then do
      let (chars, read) ← utf2ucsLoop src fuel (i + 3)
      return (charOfThree (src i) (src (i + 1)) (src (i + 2)) :: chars,
        i :: (i + 1) :: (i + 2) :: read)
    else if IsTwo (src i) (src (i + 1)) then do
      let (chars, read) ← utf2ucsLoop src fuel (i + 2)
      return (charOfTwo (src i) (src (i + 1)) :: chars, i :: (i + 1) :: read)
    else do
      let (chars, read) ← utf2ucsLoop src fuel (i + 1)
      return ((src i).toUInt16 :: chars, i :: (if src i &&& 0x80 ≠ 0 then [i + 1] else []) ++ read)

/-- **The decoder stays in bounds**: it returns, it reads nothing behind the null character, and the
characters with the terminating one are not more than the bytes with the terminating one. -/
def StaysInBounds (src : Mem) (n : ℕ) : Prop :=
  ∃ fuel chars read, utf2ucsLoop src fuel 0 = .ok (chars, read) ∧ (∀ i ∈ read, i ≤ n) ∧
    (chars ++ [0]).length ≤ n + 1

/-- The number of bytes with the high bit at the end of a string. -/
def highTail (s : List UInt8) : ℕ := (s.rtakeWhile fun c => 0x80 ≤ c).length

theorem and_high_ne_zero : ∀ c : UInt8, c &&& 0x80 ≠ 0 ↔ 0x80 ≤ c :=
  forall_byte (by decide +kernel)

theorem isThree_iff {c₀ c₁ : UInt8} : IsThree c₀ c₁ ↔ 0x80 ≤ c₀ ∧ 0x80 ≤ c₁ :=
  and_congr (and_high_ne_zero c₀) (and_high_ne_zero c₁)

/-! ### The bytes with the high bit at the end -/

section

variable {c c₀ c₁ c₂ : UInt8} {s : List UInt8}

theorem highTail_cons : highTail (c :: s) =
    if highTail s = s.length then s.length + (if 0x80 ≤ c then 1 else 0) else highTail s := by
  simp only [highTail, List.rtakeWhile, List.length_reverse, List.reverse_cons]
  rw [List.takeWhile_append, List.length_reverse]
  split_ifs with hall hc
  · rw [List.length_append, List.takeWhile_cons_of_pos (by simpa using hc), List.length_reverse]
    rfl
  · rw [List.length_append, List.takeWhile_cons_of_neg (by simpa using hc), List.length_reverse]
    rfl
  · rfl

theorem highTail_le (s : List UInt8) : highTail s ≤ s.length := by
  induction s with
  | nil => exact le_rfl
  | cons c s ih =>
    rw [highTail_cons, List.length_cons]
    split_ifs <;> omega

/-- A byte without the high bit ends the run. -/
theorem highTail_cons_of_low (hc : ¬0x80 ≤ c) : highTail (c :: s) = highTail s := by
  rw [highTail_cons, if_neg hc]
  split_ifs with h
  · exact h.symm
  · rfl

theorem highTail_cons_of_ne (h : highTail s ≠ s.length) : highTail (c :: s) = highTail s := by
  rw [highTail_cons, if_neg h]

theorem highTail_cons_of_high (h : highTail s = s.length) (hc : 0x80 ≤ c) :
    highTail (c :: s) = (c :: s).length := by
  rw [highTail_cons, if_pos h, if_pos hc, List.length_cons]

/-- A byte in front of one without the high bit. -/
theorem highTail_cons_cons_of_low (hc : ¬0x80 ≤ c₁) :
    highTail (c₀ :: c₁ :: s) = highTail (c₁ :: s) := by
  refine highTail_cons_of_ne ?_
  have hle := highTail_le s
  rw [highTail_cons_of_low hc, List.length_cons]
  omega

/-- Three bytes that are taken at once, of which two have the high bit. -/
theorem highTail_of_three (h₀ : 0x80 ≤ c₀) (h₁ : 0x80 ≤ c₁) :
    highTail (c₀ :: c₁ :: c₂ :: s) % 3 = highTail s % 3 := by
  have hle := highTail_le s
  by_cases hlow : 0x80 ≤ c₂ ∧ highTail s = s.length
  · have hall := highTail_cons_of_high (highTail_cons_of_high
      (highTail_cons_of_high hlow.2 hlow.1) h₁) h₀
    rw [hall, hlow.2]
    simp only [List.length_cons]
    omega
  · have hsame : highTail (c₂ :: s) = highTail s := by
      by_cases hc : 0x80 ≤ c₂
      · exact highTail_cons_of_ne fun h => hlow ⟨hc, h⟩
      · exact highTail_cons_of_low hc
    have hne₁ : highTail (c₁ :: c₂ :: s) = highTail s := by
      rw [highTail_cons_of_ne (by rw [hsame, List.length_cons]; omega), hsame]
    rw [highTail_cons_of_ne (by rw [hne₁]; simp only [List.length_cons]; omega), hne₁]

end

/-! ### In bounds -/

theorem exists_bind_cons_iff {x : Exec (List UInt16)} {c : UInt16} :
    (∃ chars, (do return c :: (← x)) = .ok chars) ↔ ∃ chars, x = .ok chars := by
  constructor
  · rintro ⟨chars, h⟩
    obtain ⟨rest, hrest, -⟩ := bind_eq_ok.mp h
    exact ⟨rest, hrest⟩
  · rintro ⟨rest, rfl⟩
    exact ⟨c :: rest, rfl⟩

/-- Two bytes that are not taken with a third one. -/
theorem highTail_pair {c₀ c₁ : UInt8} (h : ¬IsThree c₀ c₁) : highTail [c₀, c₁] ≤ 1 := by
  have hle := highTail_le [c₁]
  rw [List.length_singleton] at hle
  by_cases h₁ : 0x80 ≤ c₁
  · have h₀ : ¬0x80 ≤ c₀ := fun h₀ => h (isThree_iff.mpr ⟨h₀, h₁⟩)
    rw [highTail_cons_of_low h₀]
    exact hle
  · rw [highTail_cons_cons_of_low h₁]
    exact hle

/-- **A string can be decoded** exactly if it does not end in the middle of three bytes. -/
theorem exists_utf2ucs_iff (s : List UInt8) :
    (∃ chars, utf2ucs s = .ok chars) ↔ highTail s % 3 ≠ 2 := by
  fun_induction utf2ucs s with
  | case1 => exact iff_of_true ⟨[], rfl⟩ (by decide)
  | case2 c =>
    refine iff_of_true ⟨_, rfl⟩ ?_
    have hle := highTail_le [c]
    rw [List.length_singleton] at hle
    omega
  | case3 c₀ c₁ h =>
    obtain ⟨h₀, h₁⟩ := isThree_iff.mp h
    refine iff_of_false (fun ⟨chars, hc⟩ => by cases hc) ?_
    rw [highTail_cons_of_high (highTail_cons_of_high rfl h₁) h₀]
    exact not_not.mpr rfl
  | case4 c₀ c₁ h h' =>
    have hle := highTail_pair h
    exact iff_of_true ⟨_, rfl⟩ (by omega)
  | case5 c₀ c₁ h h' =>
    have hle := highTail_pair h
    exact iff_of_true ⟨_, rfl⟩ (by omega)
  | case6 c₀ c₁ c₂ rest h ih =>
    obtain ⟨h₀, h₁⟩ := isThree_iff.mp h
    rw [highTail_of_three h₀ h₁, ← ih]
    exact exists_bind_cons_iff
  | case7 c₀ c₁ c₂ rest h h' ih =>
    have h₁ : ¬0x80 ≤ c₁ := fun h₁ =>
      h (isThree_iff.mpr ⟨(and_high_ne_zero c₀).mp h'.1, h₁⟩)
    rw [highTail_cons_cons_of_low h₁, highTail_cons_of_low h₁, ← ih]
    exact exists_bind_cons_iff
  | case8 c₀ c₁ c₂ rest h h' ih =>
    have hsame : highTail (c₀ :: c₁ :: c₂ :: rest) = highTail (c₁ :: c₂ :: rest) := by
      by_cases h₁ : 0x80 ≤ c₁
      · exact highTail_cons_of_low fun h₀ => h (isThree_iff.mpr ⟨h₀, h₁⟩)
      · exact highTail_cons_cons_of_low h₁
    rw [hsame, ← ih]
    exact exists_bind_cons_iff

section

variable {src : Mem} {i fuel : ℕ} {chars : List UInt16} {read : List ℕ} {c₀ c₁ : UInt8}
  {s : List UInt8}

/-- The loop reads the byte on which it lands. -/
theorem mem_of_utf2ucsLoop (h : utf2ucsLoop src fuel i = .ok (chars, read)) : i ∈ read := by
  cases fuel with
  | zero => cases h
  | succ fuel =>
    rw [utf2ucsLoop] at h
    split_ifs at h
    · obtain ⟨-, rfl⟩ := Prod.mk.inj (pure_eq_ok.mp h)
      exact List.mem_cons_self
    all_goals
      obtain ⟨⟨rest, read'⟩, -, h⟩ := bind_eq_ok.mp h
      obtain ⟨-, rfl⟩ := Prod.mk.inj (pure_eq_ok.mp h)
      exact List.mem_cons_self

theorem utf2ucsLoop_zero (h : src i = 0) : utf2ucsLoop src (fuel + 1) i = .ok ([], [i]) := by
  rw [utf2ucsLoop, if_pos h]
  rfl

/-- The loop decodes `n` bytes from an index on, and reads up to the null character behind them. -/
def Decodes (src : Mem) (i n : ℕ) (chars : List UInt16) : Prop :=
  chars.length ≤ n ∧ ∀ fuel > n, ∃ read, utf2ucsLoop src fuel i = .ok (chars, read) ∧
    ∀ j ∈ read, j ≤ i + n

/-- The loop reads an index in whatever run returns. -/
def Reads (src : Mem) (i j : ℕ) : Prop :=
  ∀ fuel chars read, utf2ucsLoop src fuel i = .ok (chars, read) → j ∈ read

/-- One turn: a character is made of `k` bytes, of which it is known which are read. -/
structure Turn (src : Mem) (i k : ℕ) (c : UInt16) (look : List ℕ) : Prop where
  pos : 0 < k
  le : ∀ j ∈ look, j ≤ i + k
  eq : ∀ fuel, utf2ucsLoop src (fuel + 1) i =
    (utf2ucsLoop src fuel (i + k) >>= fun r => .ok (c :: r.1, look ++ r.2))

theorem Turn.three (h₀ : src i ≠ 0) (h : IsThree (src i) (src (i + 1))) :
    Turn src i 3 (charOfThree (src i) (src (i + 1)) (src (i + 2))) [i, i + 1, i + 2] where
  pos := by decide
  le j hj := by
    simp only [List.mem_cons, List.not_mem_nil, or_false] at hj
    omega
  eq fuel := by
    rw [utf2ucsLoop, if_neg h₀, if_pos h]
    rfl

theorem Turn.two (h₀ : src i ≠ 0) (h : ¬IsThree (src i) (src (i + 1)))
    (h' : IsTwo (src i) (src (i + 1))) :
    Turn src i 2 (charOfTwo (src i) (src (i + 1))) [i, i + 1] where
  pos := by decide
  le j hj := by
    simp only [List.mem_cons, List.not_mem_nil, or_false] at hj
    omega
  eq fuel := by
    rw [utf2ucsLoop, if_neg h₀, if_neg h, if_pos h']
    rfl

theorem Turn.one (h₀ : src i ≠ 0) (h : ¬IsThree (src i) (src (i + 1)))
    (h' : ¬IsTwo (src i) (src (i + 1))) :
    Turn src i 1 (src i).toUInt16 (i :: if src i &&& 0x80 ≠ 0 then [i + 1] else []) where
  pos := by decide
  le j hj := by
    split_ifs at hj <;> simp only [List.mem_cons, List.not_mem_nil, or_false] at hj <;> omega
  eq fuel := by
    rw [utf2ucsLoop, if_neg h₀, if_neg h, if_neg h']
    rfl

/-- A turn in front of a rest that is decoded. -/
theorem Decodes.turn {k n : ℕ} {c : UInt16} {look : List ℕ} (ht : Turn src i k c look)
    (h : Decodes src (i + k) n chars) : Decodes src i (n + k) (c :: chars) := by
  have hpos := ht.pos
  refine ⟨by have hle := h.1; rw [List.length_cons]; omega, fun fuel hfuel => ?_⟩
  obtain ⟨fuel, rfl⟩ : ∃ m, fuel = m + 1 := ⟨fuel - 1, by omega⟩
  obtain ⟨read, hread, hin⟩ := h.2 fuel (by omega)
  refine ⟨look ++ read, by rw [ht.eq, hread]; rfl, fun j hj => ?_⟩
  rcases List.mem_append.mp hj with hj | hj
  · have hle := ht.le j hj
    omega
  · have hle := hin j hj
    omega

/-- A turn in front of a rest of which an index is read. -/
theorem Reads.turn {j k : ℕ} {c : UInt16} {look : List ℕ} (ht : Turn src i k c look)
    (h : Reads src (i + k) j) : Reads src i j := by
  intro fuel chars read hrun
  cases fuel with
  | zero => cases hrun
  | succ fuel =>
    rw [ht.eq] at hrun
    obtain ⟨⟨rest, read'⟩, hrest, hrun⟩ := bind_eq_ok.mp hrun
    obtain ⟨-, rfl⟩ := Prod.mk.inj (pure_eq_ok.mp hrun)
    exact List.mem_append_right look (h fuel rest read' hrest)

theorem Decodes.nil (h : src i = 0) : Decodes src i 0 [] := by
  refine ⟨le_rfl, fun fuel hfuel => ?_⟩
  obtain ⟨fuel, rfl⟩ : ∃ m, fuel = m + 1 := ⟨fuel - 1, by omega⟩
  refine ⟨[i], utf2ucsLoop_zero h, fun j hj => ?_⟩
  rw [List.mem_singleton.mp hj]
  exact Nat.le_add_right i 0

/-- A null character is neither the second byte of three nor of two. -/
theorem not_isThree_zero (c : UInt8) : ¬IsThree c 0 := fun h => h.2 rfl

theorem not_isTwo_zero (c : UInt8) : ¬IsTwo c 0 := fun h => h.2 rfl

theorem Decodes.last (h : src i ≠ 0) (hend : src (i + 1) = 0) :
    Decodes src i 1 [(src i).toUInt16] :=
  .turn (.one h (hend ▸ not_isThree_zero _) (hend ▸ not_isTwo_zero _)) (.nil hend)

/-- The loop on memory that holds a string decodes it as `utf2ucs` does. -/
theorem decodes_of_utf2ucs (hs : src.CString i s) (h : utf2ucs s = .ok chars) :
    Decodes src i s.length chars := by
  fun_induction utf2ucs s generalizing i chars with
  | case1 =>
    cases pure_eq_ok.mp h
    exact .nil hs
  | case2 c =>
    obtain ⟨rfl, hc, hend⟩ := hs
    cases pure_eq_ok.mp h
    exact .last hc hend
  | case3 c₀ c₁ hthree => cases h
  | case4 c₀ c₁ hthree htwo =>
    obtain ⟨rfl, h₀, rfl, h₁, hend⟩ := hs
    cases pure_eq_ok.mp h
    exact (Decodes.turn (.two h₀ hthree htwo) (.nil hend) :)
  | case5 c₀ c₁ hthree htwo =>
    obtain ⟨rfl, h₀, rfl, h₁, hend⟩ := hs
    cases pure_eq_ok.mp h
    exact .turn (.one h₀ hthree htwo) (.last h₁ hend)
  | case6 c₀ c₁ c₂ rest hthree ih =>
    obtain ⟨rfl, h₀, rfl, h₁, rfl, h₂, hs⟩ := hs
    obtain ⟨rest', hrest, h⟩ := bind_eq_ok.mp h
    cases pure_eq_ok.mp h
    exact (Decodes.turn (.three h₀ hthree) (ih hs hrest) :)
  | case7 c₀ c₁ c₂ rest hthree htwo ih =>
    obtain ⟨rfl, h₀, rfl, h₁, hs⟩ := hs
    obtain ⟨rest', hrest, h⟩ := bind_eq_ok.mp h
    cases pure_eq_ok.mp h
    exact (Decodes.turn (.two h₀ hthree htwo) (ih hs hrest) :)
  | case8 c₀ c₁ c₂ rest hthree htwo ih =>
    obtain ⟨rfl, h₀, hs⟩ := hs
    obtain ⟨rest', hrest, h⟩ := bind_eq_ok.mp h
    cases pure_eq_ok.mp h
    have h₁ := hs.1
    subst h₁
    exact .turn (.one h₀ hthree htwo) (ih hs hrest)

theorem eq_error_of_cons {x : Exec (List UInt16)} {c : UInt16} {stop : Stop}
    (h : (do return c :: (← x)) = .error stop) : x = .error stop := by
  rcases bind_eq_error.mp h with h | ⟨_, -, h⟩
  · exact h
  · cases h

/-- The loop on memory that holds a string which cannot be decoded reads the byte behind the null
character. -/
theorem reads_of_utf2ucs {stop : Stop} {j : ℕ} (hs : src.CString i s)
    (h : utf2ucs s = .error stop) (hj : j = i + s.length + 1) : Reads src i j := by
  fun_induction utf2ucs s generalizing i with
  | case1 => cases h
  | case2 c => cases h
  | case3 c₀ c₁ hthree =>
    obtain ⟨rfl, h₀, rfl, h₁, hend⟩ := hs
    cases hj
    exact .turn (.three h₀ hthree) fun fuel chars read => mem_of_utf2ucsLoop
  | case4 c₀ c₁ hthree htwo => cases h
  | case5 c₀ c₁ hthree htwo => cases h
  | case6 c₀ c₁ c₂ rest hthree ih =>
    obtain ⟨rfl, h₀, rfl, h₁, rfl, h₂, hs⟩ := hs
    refine .turn (.three h₀ hthree) (ih hs (eq_error_of_cons h) ?_)
    simp only [List.length_cons] at hj
    omega
  | case7 c₀ c₁ c₂ rest hthree htwo ih =>
    obtain ⟨rfl, h₀, rfl, h₁, hs⟩ := hs
    refine .turn (.two h₀ hthree htwo) (ih hs (eq_error_of_cons h) ?_)
    simp only [List.length_cons] at hj ⊢
    omega
  | case8 c₀ c₁ c₂ rest hthree htwo ih =>
    obtain ⟨rfl, h₀, hs⟩ := hs
    have h₁ := hs.1
    subst h₁
    refine .turn (.one h₀ hthree htwo) (ih hs (eq_error_of_cons h) ?_)
    simp only [List.length_cons] at hj ⊢
    omega

/-- **When the decoder stays in bounds.** It does so exactly if the string does not end with a run
of bytes with the high bit whose length leaves the remainder two: otherwise the last two bytes are
taken with the null character, and the search for the end goes on behind it. -/
theorem staysInBounds_iff (hs : src.CString 0 s) :
    StaysInBounds src s.length ↔ highTail s % 3 ≠ 2 := by
  rw [← exists_utf2ucs_iff]
  constructor
  · rintro ⟨fuel, chars, read, hrun, hread, -⟩
    cases hdec : utf2ucs s with
    | ok chars => exact ⟨chars, rfl⟩
    | error stop =>
      have hmem := reads_of_utf2ucs hs hdec rfl fuel chars read hrun
      have hle := hread _ hmem
      omega
  · rintro ⟨chars, hdec⟩
    obtain ⟨hlen, hloop⟩ := decodes_of_utf2ucs hs hdec
    obtain ⟨read, hrun, hread⟩ := hloop (s.length + 1) (Nat.lt_succ_self _)
    refine ⟨s.length + 1, chars, read, hrun, fun j hj => ?_, ?_⟩
    · have hle := hread j hj
      omega
    · rw [List.length_append, List.length_singleton]
      omega

end

/-- Memory that holds the name "é", in two bytes, and nothing but null characters behind it. -/
def accented : Mem := fun x => [0xc3, 0xa9].getD x 0

theorem staysInBounds_three_high :
    Mem.CString (fun x => [0xe4, 0xb8, 0x80].getD x 0) 0 [0xe4, 0xb8, 0x80] ∧
      StaysInBounds (fun x => [0xe4, 0xb8, 0x80].getD x 0) 3 :=
  have hs : Mem.CString (fun x => [0xe4, 0xb8, 0x80].getD x 0) 0 [0xe4, 0xb8, 0x80] :=
    ⟨rfl, by decide, rfl, by decide, rfl, by decide, rfl⟩
  ⟨hs, (staysInBounds_iff hs).mpr (by decide)⟩

/-- "é" in UTF-8 is two bytes with the high bit, and the null character is jumped over. -/
theorem accented_out_of_bounds :
    accented.CString 0 [0xc3, 0xa9] ∧
      utf2ucsLoop accented 2 0 = .ok ([0x3a40], [0, 1, 2, 3]) ∧ ¬StaysInBounds accented 2 := by
  have hs : accented.CString 0 [0xc3, 0xa9] := ⟨rfl, by decide, rfl, by decide, rfl⟩
  refine ⟨hs, rfl, ?_⟩
  rintro ⟨fuel, chars, read, hrun, hread, -⟩
  have hle := hread 3 (reads_of_utf2ucs hs rfl rfl fuel chars read hrun)
  omega

end Valkyrie
