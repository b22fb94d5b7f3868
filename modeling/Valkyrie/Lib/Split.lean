import Valkyrie.Lib.Math

/-!
# Splitting strings

`String::split` of `lib/String.h`. It goes through the string with an index, and remembers where
the present part begins. What it returns without a limit is what lies between the delimiters, as
far as it is not empty (`Valkyrie.CxxString.split_eq`).

The loop also stops when there are `limit - 1` parts. This is an unsigned difference, so that a
limit of 0 is none. With a limit the last substring is the rest of the string, delimiters and all
(`Valkyrie.CxxString.split_correct`).
-/

namespace Valkyrie.CxxString

/-- `String::substr`, for a part of the string. -/
def substr (s : List UInt8) (start len : ℕ) : List UInt8 := (s.drop start).take len

/-- The loop of `String::split`, with so many characters to come: where the present part begins,
and the parts so far. -/
def splitLoop (delimiter : UInt8) (limit : ℕ) (s : List UInt8) :
    ℕ → ℕ → ℕ → List (List UInt8) → ℕ × List (List UInt8)
  | 0, _, start, substrings => (start, substrings)
  | n + 1, i, start, substrings =>
    if substrings.length = subSize limit 1 then (start, substrings)
    else if s[i]? = some delimiter then
      let len := i - start
      splitLoop delimiter limit s n (i + 1) (i + 1)
        (if len = 0 then substrings else substrings ++ [substr s start len])
    else splitLoop delimiter limit s n (i + 1) start substrings

/-- `String::split`. -/
def split (delimiter : UInt8) (limit : ℕ) (s : List UInt8) : List (List UInt8) :=
  if s = [] then []
  else
    let (start, substrings) := splitLoop delimiter limit s s.length 0 0 []
    let tailLen := s.length - start
    if tailLen = 0 then substrings else substrings ++ [substr s start tailLen]

/-- The nonempty parts between the delimiters. -/
def parts (delimiter : UInt8) (s : List UInt8) : List (List UInt8) :=
  (s.splitOn delimiter).filter (· ≠ [])

/-- The nonempty parts between the delimiters, when the first one has already begun. -/
def partsFrom (delimiter : UInt8) (part s : List UInt8) : List (List UInt8) :=
  ((s.splitOn delimiter).modifyHead (part ++ ·)).filter (· ≠ [])

theorem partsFrom_nil (delimiter : UInt8) (s : List UInt8) :
    partsFrom delimiter [] s = parts delimiter s := by
  have hid : (([] : List UInt8) ++ ·) = id := rfl
  rw [partsFrom, parts, hid, List.modifyHead_id, id]

theorem partsFrom_end (delimiter : UInt8) (part : List UInt8) :
    partsFrom delimiter part [] = if part = [] then [] else [part] := by
  rw [partsFrom, List.splitOn, List.splitOnP_nil, List.modifyHead_cons, List.append_nil]
  split_ifs with hpart
  · rw [hpart]
    rfl
  · exact List.filter_singleton.trans (by simp [hpart])

theorem partsFrom_delimiter (delimiter : UInt8) (part s : List UInt8) :
    partsFrom delimiter part (delimiter :: s) =
      (if part = [] then [] else [part]) ++ parts delimiter s := by
  rw [partsFrom, List.splitOn, List.splitOnP_cons_eq_if_modifyHead, if_pos (beq_self_eq_true _),
    List.modifyHead_cons, List.append_nil, List.filter_cons, parts, List.splitOn]
  by_cases hpart : part = []
  · simp [hpart]
  · simp [hpart]

theorem partsFrom_cons {delimiter c : UInt8} (hc : c ≠ delimiter) (part s : List UInt8) :
    partsFrom delimiter part (c :: s) = partsFrom delimiter (part ++ [c]) s := by
  have hbeq : ¬(c == delimiter) = true := by rwa [beq_iff_eq]
  rw [partsFrom, partsFrom, List.splitOn, List.splitOn, List.splitOnP_cons_eq_if_modifyHead, if_neg hbeq,
    List.modifyHead_modifyHead]
  congr 2
  funext x
  rw [Function.comp_apply, List.append_assoc, List.singleton_append]

/-- A string up to an index, and from there on. -/
theorem substr_succ {s : List UInt8} {start i : ℕ} {c : UInt8} (hi : start ≤ i)
    (hc : s[i]? = some c) : substr s start (i - start) ++ [c] = substr s start (i + 1 - start) := by
  rw [substr, substr, Nat.succ_sub hi, List.take_add_one, List.getElem?_drop,
    Nat.add_sub_cancel' hi, hc]
  rfl

theorem substr_eq_nil_iff {s : List UInt8} {start i : ℕ} (hi : start ≤ i) (hlen : i ≤ s.length) :
    substr s start (i - start) = [] ↔ i - start = 0 := by
  rw [← List.length_eq_zero_iff, substr, List.length_take, List.length_drop]
  omega

theorem parts_of_notMem {delimiter : UInt8} {s : List UInt8} (h : delimiter ∉ s) :
    parts delimiter s = if s = [] then [] else [s] := by
  suffices hfrom : ∀ part, partsFrom delimiter part s = if part ++ s = [] then [] else [part ++ s] by
    rw [← partsFrom_nil, hfrom, List.nil_append]
  induction s with
  | nil =>
    intro part
    rw [partsFrom_end, List.append_nil]
  | cons c s ih =>
    intro part
    obtain ⟨hc, hs⟩ := not_or.mp (mt List.mem_cons.mpr h)
    rw [partsFrom_cons (fun hEq => hc hEq.symm), ih hs, List.append_assoc, List.singleton_append]

/-- **Substrings account for a string** if it is made of them, in this order, and of delimiters. -/
inductive Accounts (delimiter : UInt8) : List UInt8 → List (List UInt8) → Prop
  /-- Nothing is left. -/
  | nil : Accounts delimiter [] []
  /-- A delimiter in front of the rest. -/
  | skip {s ps} : Accounts delimiter s ps → Accounts delimiter (delimiter :: s) ps
  /-- A substring in front of the rest. -/
  | take {p s ps} : Accounts delimiter s ps → Accounts delimiter (p ++ s) (p :: ps)

/-- What the loop of `split` has done when it ends: the new substrings `new` are the first parts, those
of the rest follow, and together with what accounts for the rest they account for the whole. It ends
at the limit, or with a rest that has no delimiter. -/
structure SplitUpTo (delimiter : UInt8) (limit : ℕ) (s : List UInt8) (i start : ℕ)
    (substrings : List (List UInt8)) (r : ℕ × List (List UInt8)) (new : List (List UInt8)) :
    Prop where
  /-- The substrings that are returned. -/
  eq_append : r.2 = substrings ++ new
  /-- The rest is within the string. -/
  le_length : r.1 ≤ s.length
  /-- Each substring and its delimiter are two characters at least. -/
  two_mul_le : 2 * r.2.length ≤ r.1
  /-- The limit is not exceeded. -/
  length_le : r.2.length ≤ subSize limit 1
  /-- The new substrings are the next parts. -/
  parts_eq : partsFrom delimiter (substr s start (i - start)) (s.drop i) =
    new ++ parts delimiter (s.drop r.1)
  /-- Nothing but delimiters is left out. -/
  accounts : ∀ {ps}, Accounts delimiter (s.drop r.1) ps → Accounts delimiter (s.drop start) (new ++ ps)
  /-- Why it has ended. -/
  ended : r.2.length = subSize limit 1 ∨ delimiter ∉ s.drop r.1

section

variable {delimiter : UInt8} {limit : ℕ} {s : List UInt8}

theorem drop_eq_substr_append {start i : ℕ} (hi : start ≤ i) :
    s.drop start = substr s start (i - start) ++ s.drop i := by
  conv_lhs => rw [← List.take_append_drop (i - start) (s.drop start)]
  rw [List.drop_drop, Nat.add_sub_cancel' hi]
  rfl

/-- **The loop of `split`.** The part that has begun has no delimiter, and at the limit none has
begun. -/
theorem exists_splitUpTo (n : ℕ) : ∀ {i start : ℕ} {substrings : List (List UInt8)},
    i + n = s.length → start ≤ i → 2 * substrings.length ≤ start →
    substrings.length ≤ subSize limit 1 → (substrings.length = subSize limit 1 → start = i) →
    delimiter ∉ substr s start (i - start) →
      ∃ new, SplitUpTo delimiter limit s i start substrings
        (splitLoop delimiter limit s n i start substrings) new := by
  induction n with
  | zero =>
    intro i start substrings hi hstart htwo hle hlimit hpart
    obtain rfl : i = s.length := by omega
    have hrest : s.drop start = substr s start (s.length - start) := by
      rw [drop_eq_substr_append hstart, List.drop_length, List.append_nil]
    refine ⟨[], (List.append_nil _).symm, hstart, htwo, hle, ?_, fun h => h, Or.inr ?_⟩
    · rw [splitLoop, List.drop_length, partsFrom_end, hrest, parts_of_notMem hpart]
      rfl
    · rw [splitLoop, hrest]
      exact hpart
  | succ n ih =>
    intro i start substrings hi hstart htwo hle hlimit hpart
    have hlt : i < s.length := by omega
    have hget : s[i]? = some s[i] := List.getElem?_eq_getElem hlt
    rw [splitLoop]
    by_cases hend : substrings.length = subSize limit 1
    · -- The limit is reached. No part has begun, so nothing of the string is lost.
      obtain rfl := hlimit hend
      rw [if_pos hend]
      refine ⟨[], (List.append_nil _).symm, hlt.le, htwo, hle, ?_, fun h => h, Or.inl hend⟩
      rw [Nat.sub_self, substr, List.take_zero, partsFrom_nil]
      rfl
    rw [if_neg hend]
    have hnil : substr s (i + 1) (i + 1 - (i + 1)) = [] := by
      rw [Nat.sub_self, substr, List.take_zero]
    by_cases hc : s[i] = delimiter
    · have hdrop : s.drop i = delimiter :: s.drop (i + 1) := by
        rw [List.drop_eq_getElem_cons hlt, hc]
      have hiff := substr_eq_nil_iff hstart hlt.le
      rw [if_pos (hget.trans (congrArg some hc))]
      dsimp only
      by_cases hzero : i - start = 0
      · -- The delimiter follows another one, or is the first character.
        obtain rfl : start = i := by omega
        obtain ⟨new, hnew⟩ := @ih (start + 1) (start + 1) substrings (by omega) le_rfl (by omega) hle
          (fun h => absurd h hend) (by rw [hnil]; exact List.not_mem_nil)
        rw [if_pos hzero]
        refine ⟨new, hnew.eq_append, hnew.le_length, hnew.two_mul_le, hnew.length_le, ?_, fun h => ?_,
          hnew.ended⟩
        · rw [hdrop, partsFrom_delimiter, if_pos (hiff.mpr hzero), List.nil_append, ← hnew.parts_eq,
            hnil, partsFrom_nil]
        · rw [hdrop]
          exact (hnew.accounts h).skip
      · -- The delimiter ends a part, which is the next substring.
        have hne : substr s start (i - start) ≠ [] := fun h => hzero (hiff.mp h)
        obtain ⟨new, hnew⟩ := @ih (i + 1) (i + 1) (substrings ++ [substr s start (i - start)])
          (by omega) le_rfl (by rw [List.length_append, List.length_singleton]; omega)
          (by rw [List.length_append, List.length_singleton]; omega) (fun _ => rfl)
          (by rw [hnil]; exact List.not_mem_nil)
        rw [if_neg hzero]
        refine ⟨substr s start (i - start) :: new, ?_, hnew.le_length, hnew.two_mul_le,
          hnew.length_le, ?_, fun h => ?_, hnew.ended⟩
        · rw [hnew.eq_append, List.append_assoc, List.singleton_append]
        · rw [hdrop, partsFrom_delimiter, if_neg hne, List.singleton_append, List.cons_append,
            ← hnew.parts_eq, hnil, partsFrom_nil]
        · rw [drop_eq_substr_append hstart, hdrop]
          exact (hnew.accounts h).skip.take
    · -- The part goes on.
      rw [if_neg fun h => hc (Option.some.inj (hget.symm.trans h))]
      have hgrown : delimiter ∉ substr s start (i + 1 - start) := by
        rw [← substr_succ hstart hget]
        intro h
        rcases List.mem_append.mp h with h | h
        · exact hpart h
        · exact hc (List.mem_singleton.mp h).symm
      obtain ⟨new, hnew⟩ := @ih (i + 1) start substrings (by omega) (by omega) htwo hle
        (fun h => absurd h hend) hgrown
      refine ⟨new, hnew.eq_append, hnew.le_length, hnew.two_mul_le, hnew.length_le, ?_, hnew.accounts,
        hnew.ended⟩
      rw [List.drop_eq_getElem_cons hlt, partsFrom_cons hc, substr_succ hstart hget, hnew.parts_eq]

/-- **What `split` does**: the parts up to the limit, and the rest of the string if there is one. -/
theorem exists_split_eq (delimiter : UInt8) (limit : ℕ) (s : List UInt8) : ∃ new rest,
    split delimiter limit s = new ++ (if rest = [] then [] else [rest]) ∧
      parts delimiter s = new ++ parts delimiter rest ∧
      Accounts delimiter s (new ++ if rest = [] then [] else [rest]) ∧
      new.length ≤ subSize limit 1 ∧ 2 * new.length ≤ s.length ∧
      (new.length = subSize limit 1 ∨ delimiter ∉ rest) := by
  by_cases hs : s = []
  · subst hs
    exact ⟨[], [], rfl, rfl, Accounts.nil, Nat.zero_le _, Nat.zero_le _, Or.inr List.not_mem_nil⟩
  obtain ⟨new, hnew⟩ := @exists_splitUpTo delimiter limit s s.length 0 0 [] (Nat.zero_add _) le_rfl
    le_rfl (Nat.zero_le _) (fun _ => rfl) List.not_mem_nil
  rcases hr : splitLoop delimiter limit s s.length 0 0 [] with ⟨start, substrings⟩
  rw [hr] at hnew
  obtain rfl : substrings = new := hnew.eq_append
  have hstart : substr s 0 (0 - 0) = [] := rfl
  have hparts := hnew.parts_eq
  rw [hstart, partsFrom_nil, List.drop_zero] at hparts
  have htail : s.length - start = 0 ↔ s.drop start = [] := by
    rw [List.drop_eq_nil_iff]
    omega
  have hrest : substr s start (s.length - start) = s.drop start := by
    rw [substr, ← List.length_drop, List.take_length]
  refine ⟨substrings, s.drop start, ?_, hparts, ?_, hnew.length_le,
    hnew.two_mul_le.trans hnew.le_length, hnew.ended⟩
  · rw [split, if_neg hs, hr]
    dsimp only
    rw [hrest, if_congr htail rfl rfl]
    split_ifs
    · rw [List.append_nil]
    · rfl
  · refine hnew.accounts ?_
    dsimp only
    split_ifs with hnil
    · rw [hnil]
      exact Accounts.nil
    · have htake : Accounts delimiter (s.drop start ++ []) [s.drop start] := Accounts.nil.take
      rwa [List.append_nil] at htake

/-- **What `split` returns without a limit**, of a string that fits into memory: the nonempty parts
between the delimiters. -/
theorem split_eq (delimiter : UInt8) {s : List UInt8} (hs : s.length < sizeMod) :
    split delimiter 0 s = parts delimiter s := by
  obtain ⟨new, rest, hsplit, hparts, -, -, htwo, hended⟩ := exists_split_eq delimiter 0 s
  have hmax : subSize 0 1 = sizeMod - 1 := by decide +kernel
  have hmem : delimiter ∉ rest := by
    refine hended.resolve_left fun hlen => ?_
    rw [hmax, sizeMod] at hlen
    rw [sizeMod] at hs
    omega
  rw [hsplit, hparts, parts_of_notMem hmem]

/-- **What `split` returns**: without a limit all parts, and with a limit no more than it allows. In
front of the last substring are the first parts, and unless there are as many as the limit allows, they
are all the parts. Nothing but delimiters is left out. -/
theorem split_correct (delimiter : UInt8) (hs : s.length < sizeMod) (hlimit : limit < sizeMod) :
    (limit = 0 → split delimiter limit s = parts delimiter s) ∧
    (1 ≤ limit → (split delimiter limit s).length ≤ limit ∧
      (split delimiter limit s).dropLast <+: parts delimiter s ∧
      (split delimiter limit s = parts delimiter s ∨ (split delimiter limit s).length = limit) ∧
      Accounts delimiter s (split delimiter limit s)) := by
  refine ⟨?_, fun hpos => ?_⟩
  · rintro rfl
    exact split_eq delimiter hs
  obtain ⟨new, rest, hsplit, hparts, haccounts, hle, -, hended⟩ := exists_split_eq delimiter limit s
  rw [subSize_of_le hpos hlimit] at hle hended
  rw [← hsplit] at haccounts
  by_cases hrest : rest = []
  · rw [if_pos hrest, List.append_nil] at hsplit
    have hall : split delimiter limit s = parts delimiter s := by
      rw [hsplit, hparts, hrest]
      exact (List.append_nil new).symm
    refine ⟨by rw [hsplit]; omega, ?_, Or.inl hall, haccounts⟩
    rw [hall]
    exact List.dropLast_prefix _
  · rw [if_neg hrest] at hsplit
    have hlen : (split delimiter limit s).length = new.length + 1 := by
      rw [hsplit, List.length_append, List.length_singleton]
    refine ⟨by omega, ?_, ?_, haccounts⟩
    · rw [hsplit, List.dropLast_concat, hparts]
      exact List.prefix_append _ _
    · rcases hended with hended | hmem
      · exact Or.inr (by omega)
      · refine Or.inl ?_
        rw [hsplit, hparts, parts_of_notMem hmem, if_neg hrest]

/-- The string `a  b c`, with at most two substrings. -/
theorem split_correct_two : (split 32 2 [97, 32, 32, 98, 32, 99]).length ≤ 2 ∧
    split 32 2 [97, 32, 32, 98, 32, 99] = [[97], [32, 98, 32, 99]] := by
  have hs : ([97, 32, 32, 98, 32, 99] : List UInt8).length < sizeMod := by decide
  exact ⟨((split_correct 32 hs (by decide)).2 (by decide)).1, by decide⟩

end

end Valkyrie.CxxString
