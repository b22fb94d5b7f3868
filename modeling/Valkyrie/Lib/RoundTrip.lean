import Valkyrie.Lib.Decoding

/-!
# The way back from `ucs2utf`

`ucs2utf` makes one, two or three bytes of a character; `utf2ucs` takes three whenever two bytes
with the high bit follow each other. So a character of two bytes is never recognised as one: it is
taken with the next byte, and what is decoded falls behind what was encoded. It makes up for that at
most once, with the last byte of a run (`Valkyrie.fallsBehind`).

By the values of the characters, there is exactly one way in which a character of two bytes
survives: the character `0x410` in front of `0x90` or `0xb0`, at the end of a run. With that
exception the round trip holds exactly for strings without characters of two bytes
(`Valkyrie.utf2ucs_ucs2utf_iff`).
-/

namespace Valkyrie

open Exec

/-! ### Bytes and characters as numbers -/

/-- The mark of a byte is added to the bits below it. -/
theorem toNat_or_mark {b mark : UInt8} {a k : ℕ} (hmark : mark.toNat = 2 ^ k * a)
    (hb : b.toNat < 2 ^ k) : (b ||| mark).toNat = mark.toNat + b.toNat := by
  rw [UInt8.toNat_or, hmark, Nat.or_comm, Nat.two_pow_add_eq_or_of_lt hb]

theorem toNat_and_low (c : UInt8) : (c &&& 0x3f).toNat = c.toNat % 64 :=
  Nat.and_two_pow_sub_one_eq_mod c.toNat 6

theorem toNat_charOfThree (c₀ c₁ c₂ : UInt8) : (charOfThree c₀ c₁ c₂).toNat =
    c₀.toNat % 16 * 4096 + c₁.toNat % 64 * 64 + c₂.toNat % 64 := by
  have h₀ : (c₀ &&& 0xf).toNat = c₀.toNat % 16 := Nat.and_two_pow_sub_one_eq_mod c₀.toNat 4
  have hlow : c₁.toNat % 64 * 64 + c₂.toNat % 64 < 2 ^ 12 := by omega
  have htop : c₀.toNat % 16 * 2 ^ 12 < 2 ^ 16 := by omega
  have hmid : c₁.toNat % 64 * 2 ^ 6 < 2 ^ 16 := by omega
  simp only [charOfThree, UInt16.toNat_or, UInt16.toNat_shiftLeft, UInt8.toNat_toUInt16,
    toNat_and_low, h₀, Nat.or_assoc]
  change (c₀.toNat % 16) <<< 12 % 2 ^ 16 ||| ((c₁.toNat % 64) <<< 6 % 2 ^ 16 ||| c₂.toNat % 64) = _
  rw [Nat.shiftLeft_eq, Nat.shiftLeft_eq, Nat.mod_eq_of_lt htop, Nat.mod_eq_of_lt hmid,
    Nat.mul_comm _ (2 ^ 6), ← Nat.two_pow_add_eq_or_of_lt (by omega), Nat.mul_comm _ (2 ^ 12),
    ← Nat.two_pow_add_eq_or_of_lt (by omega)]
  omega

/-- The character of two bytes that has the value of its bytes with a third one. -/
theorem value_eq_iff {c v : ℕ} (hc : 128 ≤ c) (hc' : c < 2048) (hv : v < 64) :
    c % 16 * 4096 + c % 64 * 64 + v = c ↔ c = 1040 ∧ v = 16 := by
  constructor
  · intro h
    have hlow : c % 16 = 0 := by omega
    have hdiv : c % 64 * 64 + v = c := by omega
    have hv' : v = c % 64 := by omega
    omega
  · rintro ⟨rfl, rfl⟩
    rfl

/-- The bytes of a character, as numbers. -/
inductive Encoded (c : UInt16) : List UInt8 → Prop
  | one (b : UInt8) (hb : b.toUInt16 = c) (hc : c.toNat < 128) : Encoded c [b]
  | two (b₀ b₁ : UInt8) (hc : 128 ≤ c.toNat) (hc' : c.toNat < 2048)
      (h₀ : b₀.toNat = 192 + c.toNat % 32) (h₁ : b₁.toNat = 128 + c.toNat % 64) :
      Encoded c [b₀, b₁]
  | three (b₀ b₁ b₂ : UInt8) (hc : 2048 ≤ c.toNat) (h₀ : b₀.toNat = 224 + c.toNat / 4096)
      (h₁ : b₁.toNat = 128 + c.toNat / 64 % 64) (h₂ : b₂.toNat = 128 + c.toNat % 64) :
      Encoded c [b₀, b₁, b₂]

theorem encoded_utfBytes (c : UInt16) : Encoded c (utfBytes c) := by
  have hlt := c.toNat_lt
  by_cases hone : c < 0x80
  · have hc : c.toNat < 128 := hone
    rw [utfBytes, if_pos hone]
    refine .one _ (UInt16.toNat.inj ?_) hc
    rw [UInt8.toNat_toUInt16, UInt16.toNat_toUInt8, Nat.mod_eq_of_lt (by omega)]
  have hc : 128 ≤ c.toNat := not_lt.mp hone
  have hlow : (c &&& 0x3f).toNat = c.toNat % 64 := Nat.and_two_pow_sub_one_eq_mod c.toNat 6
  by_cases htwo : c < 0x800
  · have hc' : c.toNat < 2048 := htwo
    rw [utfBytes, if_neg hone, if_pos htwo]
    have h₀ : ((c &&& 0x3f) &&& 0x1f).toUInt8.toNat = c.toNat % 32 := by
      have hand : ((c &&& 0x3f) &&& 0x1f).toNat = (c &&& 0x3f).toNat % 32 :=
        Nat.and_two_pow_sub_one_eq_mod _ 5
      rw [UInt16.toNat_toUInt8, hand, hlow]
      omega
    have h₁ : (c &&& 0x3f).toUInt8.toNat = c.toNat % 64 := by
      rw [UInt16.toNat_toUInt8, hlow]
      omega
    refine .two _ _ hc hc' ?_ ?_
    · rw [toNat_or_mark (k := 6) (a := 3) rfl (by omega), h₀]
      rfl
    · rw [toNat_or_mark (k := 7) (a := 1) rfl (by omega), h₁]
      rfl
  · have hc' : 2048 ≤ c.toNat := not_lt.mp htwo
    rw [utfBytes, if_neg hone, if_neg htwo]
    have h₀ : ((c >>> 12).toUInt8 &&& 0xf).toNat = c.toNat / 4096 := by
      have hshift : (c >>> 12).toNat = c.toNat / 4096 := Nat.shiftRight_eq_div_pow c.toNat 12
      have hand : ((c >>> 12).toUInt8 &&& 0xf).toNat = (c >>> 12).toUInt8.toNat % 16 :=
        Nat.and_two_pow_sub_one_eq_mod _ 4
      rw [hand, UInt16.toNat_toUInt8, hshift]
      omega
    have h₁ : ((c >>> 6).toUInt8 &&& 0x3f).toNat = c.toNat / 64 % 64 := by
      have hshift : (c >>> 6).toNat = c.toNat / 64 := Nat.shiftRight_eq_div_pow c.toNat 6
      rw [toNat_and_low, UInt16.toNat_toUInt8, hshift]
      omega
    have h₂ : (c.toUInt8 &&& 0x3f).toNat = c.toNat % 64 := by
      rw [toNat_and_low, UInt16.toNat_toUInt8]
      omega
    refine .three _ _ _ hc' ?_ ?_ ?_
    · rw [toNat_or_mark (k := 5) (a := 7) rfl (by omega), h₀]
      rfl
    · rw [toNat_or_mark (k := 7) (a := 1) rfl (by omega), h₁]
      rfl
    · rw [toNat_or_mark (k := 7) (a := 1) rfl (by omega), h₂]
      rfl

/-- A character that is not of one and not of three bytes. -/
theorem exists_utfBytes_two {c : UInt16} (hc : ¬(c < 0x80 ∨ 0x800 ≤ c)) :
    ∃ b₀ b₁, utfBytes c = [b₀, b₁] ∧ 128 ≤ c.toNat ∧ c.toNat < 2048 ∧
      b₀.toNat = 192 + c.toNat % 32 ∧ b₁.toNat = 128 + c.toNat % 64 := by
  have hnat : ¬(c.toNat < 128 ∨ 2048 ≤ c.toNat) := hc
  have hbytes := encoded_utfBytes c
  generalize utfBytes c = bytes at hbytes
  cases hbytes with
  | one b hb hlow => exact absurd (.inl hlow) hnat
  | two b₀ b₁ hc hc' h₀ h₁ => exact ⟨b₀, b₁, rfl, hc, hc', h₀, h₁⟩
  | three b₀ b₁ b₂ hhigh h₀ h₁ h₂ => exact absurd (.inr hhigh) hnat

theorem ucs2utf_cons {c : UInt16} (hc : c ≠ 0) (s : List UInt16) :
    ucs2utf (c :: s) = utfBytes c ++ ucs2utf s := by
  rw [ucs2utf, if_neg hc]

/-! ### Turns of the decoder -/

section

variable {b b₀ b₁ b₂ : UInt8} {l : List UInt8}

theorem isThree_iff_toNat : IsThree b₀ b₁ ↔ 128 ≤ b₀.toNat ∧ 128 ≤ b₁.toNat := isThree_iff

theorem isTwo_iff_toNat : IsTwo b₀ b₁ ↔ 128 ≤ b₀.toNat ∧ 64 ≤ b₁.toNat :=
  and_congr (and_high_ne_zero b₀)
    (forall_byte (P := fun c => c &&& 0xc0 ≠ 0 ↔ 64 ≤ c.toNat) (by decide +kernel) b₁)

theorem utf2ucs_three (h₀ : 128 ≤ b₀.toNat) (h₁ : 128 ≤ b₁.toNat) :
    utf2ucs (b₀ :: b₁ :: b₂ :: l) = (charOfThree b₀ b₁ b₂ :: ·) <$> utf2ucs l := by
  rw [utf2ucs, if_pos (isThree_iff_toNat.mpr ⟨h₀, h₁⟩)]
  rfl

/-- Two bytes with the high bit at the end of the string. -/
theorem utf2ucs_pair (h₀ : 128 ≤ b₀.toNat) (h₁ : 128 ≤ b₁.toNat) :
    utf2ucs [b₀, b₁] = .error .wild := by
  simp only [utf2ucs, if_pos (isThree_iff_toNat.mpr ⟨h₀, h₁⟩)]

theorem utf2ucs_two (h₀ : 128 ≤ b₀.toNat) (h₁ : b₁.toNat < 128) (h₁' : 64 ≤ b₁.toNat) :
    utf2ucs (b₀ :: b₁ :: l) = (charOfTwo b₀ b₁ :: ·) <$> utf2ucs l := by
  have hthree : ¬IsThree b₀ b₁ := fun h => (isThree_iff_toNat.mp h).2.not_gt h₁
  have htwo : IsTwo b₀ b₁ := isTwo_iff_toNat.mpr ⟨h₀, h₁'⟩
  cases l with
  | nil =>
    simp only [utf2ucs, if_neg hthree, if_pos htwo]
    rfl
  | cons b l =>
    rw [utf2ucs, if_neg hthree, if_pos htwo]
    rfl

/-- A byte is taken alone if it has no high bit, or if the next one is below 64. -/
theorem utf2ucs_one (h : ∀ b₁ ∈ l.head?, b.toNat < 128 ∨ b₁.toNat < 64) :
    utf2ucs (b :: l) = (b.toUInt16 :: ·) <$> utf2ucs l := by
  cases l with
  | nil => rfl
  | cons b₁ l =>
    have hb := h b₁ rfl
    have hthree : ¬IsThree b b₁ := fun h => by
      have hhigh := isThree_iff_toNat.mp h
      omega
    have htwo : ¬IsTwo b b₁ := fun h => by
      have hhigh := isTwo_iff_toNat.mp h
      omega
    cases l with
    | nil =>
      simp only [utf2ucs, if_neg hthree, if_neg htwo]
      rfl
    | cons b₂ l =>
      rw [utf2ucs, if_neg hthree, if_neg htwo]
      rfl

theorem map_cons_eq_ok {x : Exec (List UInt16)} {c : UInt16} {chars : List UInt16} :
    (c :: ·) <$> x = .ok chars ↔ ∃ rest, chars = c :: rest ∧ x = .ok rest := by
  cases x with
  | error e => exact iff_of_false (fun h => by cases h) (fun ⟨_, _, h⟩ => by cases h)
  | ok rest =>
    constructor
    · intro h
      cases h
      exact ⟨rest, rfl, rfl⟩
    · rintro ⟨rest', rfl, h⟩
      cases h
      rfl

end

/-! ### Falling behind -/

/-- At most so many characters are decoded. -/
def DecodesAtMost (l : List UInt8) (n : ℕ) : Prop :=
  ∀ chars, utf2ucs l = .ok chars → chars.length ≤ n

theorem DecodesAtMost.cons {l l' : List UInt8} {c : UInt16} {n m : ℕ} (hl' : DecodesAtMost l' n)
    (hl : utf2ucs l = (c :: ·) <$> utf2ucs l') (hnm : n + 1 ≤ m) : DecodesAtMost l m := by
  intro chars h
  rw [hl] at h
  obtain ⟨rest, rfl, hrest⟩ := map_cons_eq_ok.mp h
  have hle := hl' rest hrest
  rw [List.length_cons]
  omega

/-- What is decoded of a string, alone or behind bytes with the high bit that are left over from the
characters in front of it. -/
structure FallsBehind (s : List UInt16) : Prop where
  none : DecodesAtMost (ucs2utf s) s.length
  one : ∀ b : UInt8, 128 ≤ b.toNat → DecodesAtMost (b :: ucs2utf s) (s.length + 1)
  two : ∀ b b' : UInt8, 128 ≤ b.toNat → 128 ≤ b'.toNat →
    DecodesAtMost (b :: b' :: ucs2utf s) (s.length + 1)

theorem FallsBehind.nil : FallsBehind [] where
  none chars h := by
    cases pure_eq_ok.mp h
    exact le_rfl
  one b hb chars h := by
    cases pure_eq_ok.mp h
    exact le_rfl
  two b b' hb hb' chars h := by
    rw [ucs2utf, utf2ucs_pair hb hb'] at h
    cases h

theorem FallsBehind.cons {c : UInt16} {s : List UInt16} (hc : c ≠ 0) (ih : FallsBehind s) :
    FallsBehind (c :: s) := by
  have hcons := ucs2utf_cons hc s
  have hbytes := encoded_utfBytes c
  generalize utfBytes c = bytes at hcons hbytes
  cases hbytes with
  | one b hb hlow =>
    have hnat : b.toNat < 128 := by rwa [← UInt8.toNat_toUInt16, hb]
    have hsingle := utf2ucs_one (b := b) (l := ucs2utf s) fun _ _ => .inl hnat
    refine ⟨?_, fun b' hb' => ?_, fun b' b'' hb' hb'' => ?_⟩ <;> rw [hcons]
    · exact ih.none.cons hsingle le_rfl
    · by_cases h64 : b.toNat < 64
      · refine (ih.none.cons hsingle le_rfl).cons (utf2ucs_one fun b₁ hb₁ => .inr ?_) le_rfl
        cases hb₁
        exact h64
      · exact ih.none.cons (utf2ucs_two hb' hnat (not_lt.mp h64)) (Nat.le_succ _)
    · exact ih.none.cons (utf2ucs_three hb' hb'') (Nat.le_succ _)
  | two b₀ b₁ hc hc' h₀ h₁ =>
    refine ⟨?_, fun b' hb' => ?_, fun b' b'' hb' hb'' => ?_⟩ <;> rw [hcons]
    · exact ih.two b₀ b₁ (by omega) (by omega)
    · exact ih.none.cons (utf2ucs_three hb' (by omega)) (Nat.le_succ _)
    · exact (ih.one b₁ (by omega)).cons (utf2ucs_three hb' hb'') le_rfl
  | three b₀ b₁ b₂ hc h₀ h₁ h₂ =>
    refine ⟨?_, fun b' hb' => ?_, fun b' b'' hb' hb'' => ?_⟩ <;> rw [hcons]
    · exact ih.none.cons (utf2ucs_three (by omega) (by omega)) le_rfl
    · exact (ih.one b₂ (by omega)).cons (utf2ucs_three hb' (by omega)) le_rfl
    · exact (ih.two b₁ b₂ (by omega) (by omega)).cons (utf2ucs_three hb' hb'') le_rfl

theorem fallsBehind (s : List UInt16) (hs : ∀ c ∈ s, c ≠ 0) : FallsBehind s := by
  induction s with
  | nil => exact .nil
  | cons c s ih =>
    exact .cons (hs c List.mem_cons_self) (ih fun d hd => hs d (List.mem_cons_of_mem c hd))

/-! ### The round trip -/

/-- A string of characters of one and three bytes, in which the character `0x410` may stand in front
of `0x90` or `0xb0` where the string ends or a character below `0x40` follows. -/
def Restorable : List UInt16 → Prop
  | [] => True
  | [c] => c < 0x80 ∨ 0x800 ≤ c
  | c :: d :: s =>
    if c < 0x80 ∨ 0x800 ≤ c then Restorable (d :: s)
    else c = 0x410 ∧ (d = 0x90 ∨ d = 0xb0) ∧ (∀ e ∈ s.head?, e < 0x40) ∧ Restorable s

/-- Equality of a decoded string with a given one, for one turn. -/
theorem map_cons_eq_ok_cons {x : Exec (List UInt16)} {c d : UInt16} {s : List UInt16} :
    (c :: ·) <$> x = .ok (d :: s) ↔ c = d ∧ x = .ok s := by
  rw [map_cons_eq_ok]
  constructor
  · rintro ⟨rest, h, hx⟩
    cases h
    exact ⟨rfl, hx⟩
  · rintro ⟨rfl, hx⟩
    exact ⟨s, rfl, hx⟩

section

variable {c d : UInt16} {s : List UInt16}

/-- A character of one or three bytes comes back, and leaves nothing over. -/
theorem utf2ucs_ucs2utf_cons (h0 : c ≠ 0) (hc : c < 0x80 ∨ 0x800 ≤ c) :
    utf2ucs (ucs2utf (c :: s)) = .ok (c :: s) ↔ utf2ucs (ucs2utf s) = .ok s := by
  have hcons := ucs2utf_cons h0 s
  have hbytes := encoded_utfBytes c
  have hnat : c.toNat < 128 ∨ 2048 ≤ c.toNat := hc
  generalize utfBytes c = bytes at hcons hbytes
  rw [hcons]
  cases hbytes with
  | one b hb hlow =>
    have hlow' : b.toNat < 128 := by rwa [← UInt8.toNat_toUInt16, hb]
    have hone := utf2ucs_one (b := b) (l := ucs2utf s) fun _ _ => .inl hlow'
    rw [List.cons_append, List.nil_append, hone, map_cons_eq_ok_cons]
    exact and_iff_right hb
  | two b₀ b₁ hc hc' h₀ h₁ => omega
  | three b₀ b₁ b₂ hc h₀ h₁ h₂ =>
    have hlt := c.toNat_lt
    have hvalue : charOfThree b₀ b₁ b₂ = c := by
      refine UInt16.toNat.inj ?_
      rw [toNat_charOfThree, h₀, h₁, h₂]
      omega
    have hthree : utf2ucs (b₀ :: b₁ :: b₂ :: ucs2utf s) = _ :=
      utf2ucs_three (by omega) (by omega)
    rw [List.cons_append, List.cons_append, List.cons_append, List.nil_append, hthree,
      map_cons_eq_ok_cons]
    exact and_iff_right hvalue

/-- The last byte of a character of two bytes, when the first one has been taken with the character
in front of it. -/
theorem utf2ucs_last_iff {b : UInt8} (hs : ∀ e ∈ s, e ≠ 0) (hb : b.toNat = 128 + d.toNat % 64)
    (hd : d.toNat < 2048) :
    utf2ucs (b :: ucs2utf s) = .ok (d :: s) ↔
      b.toUInt16 = d ∧ (∀ e ∈ s.head?, e < 0x40) ∧ utf2ucs (ucs2utf s) = .ok s := by
  cases s with
  | nil =>
    rw [ucs2utf, utf2ucs_one (fun _ h => by cases h), map_cons_eq_ok_cons]
    simp
  | cons e r =>
    have he := hs e List.mem_cons_self
    have hr : ∀ c ∈ r, c ≠ 0 := fun c hc => hs c (List.mem_cons_of_mem e hc)
    have hbehind := fallsBehind r hr
    have hcons := ucs2utf_cons he r
    have hbytes := encoded_utfBytes e
    generalize utfBytes e = bytes at hcons hbytes
    -- The next byte is taken with this one, and then there are too few characters.
    have hshort : ∀ c : UInt16, ∀ l, DecodesAtMost l r.length →
        utf2ucs (b :: ucs2utf (e :: r)) = (c :: ·) <$> utf2ucs l →
        utf2ucs (b :: ucs2utf (e :: r)) ≠ .ok (d :: e :: r) := by
      intro c l hl heq h
      have hle := hl.cons heq le_rfl (d :: e :: r) h
      simp only [List.length_cons] at hle
      omega
    cases hbytes with
    | one b₁ hb₁ hlow =>
      have hnat : b₁.toNat = e.toNat := by rw [← hb₁, UInt8.toNat_toUInt16]
      by_cases h64 : b₁.toNat < 64
      · have hone := utf2ucs_one (b := b) (l := ucs2utf (e :: r)) fun b' hb' => .inr (by
          rw [hcons] at hb'
          cases hb'
          exact h64)
        rw [hone, map_cons_eq_ok_cons]
        refine and_congr_right fun _ => (and_iff_right ?_).symm
        intro e' he'
        cases he'
        exact (hnat ▸ h64 : e.toNat < 64)
      · refine iff_of_false (hshort (charOfTwo b b₁) _ hbehind.none ?_) fun h => h64 ?_
        · rw [hcons]
          exact utf2ucs_two (by omega) (by omega) (by omega)
        · rw [hnat]
          exact h.2.1 e rfl
    | two b₀ b₁ hc hc' h₀ h₁ =>
      refine iff_of_false (hshort (charOfThree b b₀ b₁) _ hbehind.none ?_) fun h => ?_
      · rw [hcons]
        exact utf2ucs_three (by omega) (by omega)
      · have hlt : e.toNat < 64 := h.2.1 e rfl
        omega
    | three b₀ b₁ b₂ hc h₀ h₁ h₂ =>
      refine iff_of_false (fun h => ?_) fun h => ?_
      · have hthree : utf2ucs (b :: b₀ :: b₁ :: b₂ :: ucs2utf r) = _ :=
          utf2ucs_three (by omega) (by omega)
        have hle := e.toNat_lt
        rw [hcons, List.cons_append, List.cons_append, List.cons_append, List.nil_append, hthree,
          map_cons_eq_ok_cons] at h
        have hvalue := congrArg UInt16.toNat h.1
        rw [toNat_charOfThree] at hvalue
        omega
      · have hlt : e.toNat < 64 := h.2.1 e rfl
        omega

/-- A character of two bytes is taken with the next byte. It comes back in one case only. -/
theorem utf2ucs_ucs2utf_pair (hs : ∀ e ∈ c :: d :: s, e ≠ 0) (hc : ¬(c < 0x80 ∨ 0x800 ≤ c)) :
    utf2ucs (ucs2utf (c :: d :: s)) = .ok (c :: d :: s) ↔
      c = 0x410 ∧ (d = 0x90 ∨ d = 0xb0) ∧ (∀ e ∈ s.head?, e < 0x40) ∧
        utf2ucs (ucs2utf s) = .ok s := by
  have hs' : ∀ e ∈ s, e ≠ 0 := fun e he =>
    hs e (List.mem_cons_of_mem c (List.mem_cons_of_mem d he))
  have hcons : ucs2utf (c :: d :: s) = utfBytes c ++ (utfBytes d ++ ucs2utf s) := by
    rw [ucs2utf_cons (hs c List.mem_cons_self),
      ucs2utf_cons (hs d (List.mem_cons_of_mem c List.mem_cons_self))]
  obtain ⟨b₀, b₁, hbytes, hc, hc', h₀, h₁⟩ := exists_utfBytes_two hc
  have hbytes' := encoded_utfBytes d
  rw [hcons, hbytes]
  generalize utfBytes d = bytes' at hbytes'
  have hb₀ : 128 ≤ b₀.toNat := by omega
  have hb₁ : 128 ≤ b₁.toNat := by omega
  have hfirst : ∀ v : UInt8, charOfThree b₀ b₁ v = c ↔ c.toNat = 1040 ∧ v.toNat % 64 = 16 := by
    intro v
    have hmod₀ : b₀.toNat % 16 = c.toNat % 16 := by omega
    have hmod₁ : b₁.toNat % 64 = c.toNat % 64 := by omega
    rw [← UInt16.toNat_inj, toNat_charOfThree, hmod₀, hmod₁]
    exact value_eq_iff hc hc' (Nat.mod_lt _ (by decide))
  have hnine : d = 0x90 ∨ d = 0xb0 → d.toNat = 144 ∨ d.toNat = 176 :=
    Or.imp (congrArg UInt16.toNat) (congrArg UInt16.toNat)
  -- The first byte of the second character is taken for the third one of the first character.
  cases hbytes' with
  | one b hb hlow =>
    refine iff_of_false (fun h => ?_) fun h => ?_
    · have hle := (fallsBehind s hs').none.cons (utf2ucs_three hb₀ hb₁) le_rfl _ h
      simp only [List.length_cons] at hle
      omega
    · have hd := hnine h.2.1
      omega
  | three e₀ e₁ e₂ hd g₀ g₁ g₂ =>
    refine iff_of_false (fun h => ?_) fun h => ?_
    · have hthree : utf2ucs (b₀ :: b₁ :: e₀ :: e₁ :: e₂ :: ucs2utf s) = _ :=
        utf2ucs_three hb₀ hb₁
      have hvalue := (hfirst e₀).mp (map_cons_eq_ok_cons.mp (hthree.symm.trans h)).1
      have hlt := d.toNat_lt
      omega
    · have hd' := hnine h.2.1
      omega
  | two e₀ e₁ hd hd' g₀ g₁ =>
    have hthree : utf2ucs (b₀ :: b₁ :: e₀ :: e₁ :: ucs2utf s) = _ := utf2ucs_three hb₀ hb₁
    have hvalue : charOfThree b₀ b₁ e₀ = c ↔ c.toNat = 1040 ∧ d.toNat % 32 = 16 := by
      rw [hfirst, g₀]
      omega
    have hlast : e₁.toUInt16 = d ↔ d.toNat = 128 + d.toNat % 64 := by
      rw [← UInt16.toNat_inj, UInt8.toNat_toUInt16, g₁, eq_comm]
    have hfour : c = 0x410 ↔ c.toNat = 1040 := UInt16.toNat_inj.symm
    have hnine' : d = 0x90 ∨ d = 0xb0 ↔ d.toNat = 144 ∨ d.toNat = 176 :=
      or_congr UInt16.toNat_inj.symm UInt16.toNat_inj.symm
    simp only [List.cons_append, List.nil_append]
    rw [hthree, map_cons_eq_ok_cons, utf2ucs_last_iff hs' g₁ hd', hvalue, hlast, hfour, hnine']
    constructor
    · rintro ⟨⟨h₀, h₁⟩, h₂, hrest⟩
      exact ⟨h₀, by omega, hrest⟩
    · rintro ⟨h₀, h₁, hrest⟩
      exact ⟨⟨h₀, by omega⟩, by omega, hrest⟩

/-- **When the round trip gives the string back.** Exactly for strings of characters of one and of
three bytes, up to one pair of characters of two bytes that survives by accident. -/
theorem utf2ucs_ucs2utf_iff (hs : ∀ c ∈ s, c ≠ 0) :
    utf2ucs (ucs2utf s) = .ok s ↔ Restorable s := by
  fun_induction Restorable s with
  | case1 => exact iff_of_true rfl trivial
  | case2 c =>
    by_cases hc : c < 0x80 ∨ 0x800 ≤ c
    · rw [utf2ucs_ucs2utf_cons (hs c List.mem_cons_self) hc]
      exact iff_of_true rfl hc
    · refine iff_of_false ?_ hc
      obtain ⟨b₀, b₁, hbytes, -, -, h₀, h₁⟩ := exists_utfBytes_two hc
      rw [ucs2utf_cons (hs c List.mem_cons_self), hbytes, ucs2utf, List.append_nil,
        utf2ucs_pair (by omega) (by omega)]
      exact fun h => by cases h
  | case3 c d s hc ih =>
    rw [utf2ucs_ucs2utf_cons (hs c List.mem_cons_self) hc]
    exact ih fun e he => hs e (List.mem_cons_of_mem c he)
  | case4 c d s hc ih =>
    rw [utf2ucs_ucs2utf_pair hs hc, ih fun e he =>
      hs e (List.mem_cons_of_mem c (List.mem_cons_of_mem d he))]

end

theorem utf2ucs_ucs2utf_chinese :
    (∀ c ∈ [0x4e00, 0x41], c ≠ (0 : UInt16)) ∧
      utf2ucs (ucs2utf [0x4e00, 0x41]) = .ok [0x4e00, 0x41] :=
  ⟨by simp, (utf2ucs_ucs2utf_iff (by simp)).mpr (.inl (by decide))⟩

/-- "éA" is encoded in three bytes, and decoded as one character. -/
theorem utf2ucs_ucs2utf_accented :
    ucs2utf [0xe9, 0x41] = [0xc9, 0xa9, 0x41] ∧ utf2ucs (ucs2utf [0xe9, 0x41]) = .ok [0x9a41] ∧
      utf2ucs (ucs2utf [0xe9, 0x41]) ≠ .ok [0xe9, 0x41] :=
  ⟨rfl, rfl, fun h => by cases h⟩

end Valkyrie
