import Valkyrie.Lib.Math
import Valkyrie.Base.Slots
import Mathlib.Data.List.TakeWhile
import Mathlib.Data.List.Infix

/-!
# Strings

The class `String` of `lib/String.h`. A `String` owns an array of characters that ends with a zero,
or it has none: a `String` that was default-constructed, cleared or moved from has a null pointer. The
array may be larger than its content.

The null pointer stands for the empty string, but only `size` looks out for it. The copy operations,
the comparison and the concatenation read the characters of a null pointer, each in its own cases
(`Valkyrie.CxxString.Str.ordinary_iff`). `remove` takes the characters out, and the last of those that
stay as well (`Valkyrie.CxxString.Str.removes_iff`).

An access that is not in the array, or through the null pointer, stops the call. The heap is taken to
serve and to free every array; in the kernel one of more than 2 MiB is refused, and the checker of the
heap knows 1000 pointers.
-/

namespace Valkyrie

namespace CxxString

open Exec Slots Function

/-- **A `String`**: its array, which has a zero, or none. -/
structure Str where
  /-- What `_s` points to. -/
  array : Option (List UInt8)
  /-- The content of the array ends. -/
  terminated : ∀ b, array = some b → 0 ∈ b
deriving DecidableEq

namespace Str

/-- The default constructor. It is also what `clear` and a move leave behind. -/
def null : Str := ⟨none, fun _ h => by cases h⟩

/-- The content: what is in front of the first zero. -/
def content (s : Str) : List UInt8 := s.array.elim [] (·.takeWhile (· ≠ 0))

/-- The characters, for an access to them. -/
def chars (s : Str) : Exec (List UInt8) :=
  match s.array with
  | none => .error .wild
  | some b => return b

/-- An array is made the characters of a `String`. It has to end, as everything that follows reads it
up to a zero. -/
def ofArray (b : List UInt8) : Exec Str :=
  if h : 0 ∈ b then return ⟨some b, fun _ hb => Option.some.inj hb ▸ h⟩ else .error .wild

/-! ### C strings in arrays -/

/-- `strlen`. -/
def strlen : List UInt8 → Exec ℕ
  | [] => .error .wild
  | c :: b => if c = 0 then return 0 else do return (← strlen b) + 1

/-- `strcpy`. -/
def strcpy : (dest src : List UInt8) → Exec (List UInt8)
  | _ :: dest, c :: src =>
    if c = 0 then return 0 :: dest else do return c :: (← strcpy dest src)
  | _, _ => .error .wild

/-- `strcat`. -/
def strcat : (dest src : List UInt8) → Exec (List UInt8)
  | [], _ => .error .wild
  | c :: dest, src => if c = 0 then strcpy (c :: dest) src else do return c :: (← strcat dest src)

/-- `strcmp`. -/
def strcmp : (s1 s2 : List UInt8) → Exec ℤ
  | c1 :: s1, c2 :: s2 =>
    if c1 = 0 ∧ c2 = 0 then return 0
    else if c1 = c2 then strcmp s1 s2
    else return c1.toNat - c2.toNat
  | _, _ => .error .wild

/-! ### The operations -/

/-- `size`. -/
def size (s : Str) : Exec ℕ :=
  match s.array with
  | none => return 0
  | some b => strlen b

/-- The `String`s of the program, by their addresses. -/
abbrev Store := ℕ → Str

/-- The array of a `String` is replaced. -/
def setArray (x : ℕ) (b : List UInt8) (st : Store) : Exec Store := do
  return update st x (← ofArray b)

/-- **The copy assignment**, of `y` to `x`. The array of zeros is already there when the characters of
`y` are read. -/
def assign (x y : ℕ) (st : Store) : Exec Store := do
  let fresh := List.replicate ((← size (st y)) + 1) 0
  let st ← setArray x fresh st
  let b ← strcpy fresh (← (st y).chars)
  setArray x b st

/-- The copy constructor: the assignment to a new `String`. -/
def copyConstruct (r : Str) : Exec Str := do
  return (← assign 0 1 (update (fun _ => r) 0 null)) 0

/-- `operator+`. -/
def plus (a r : Str) : Exec Str := do
  if (← size r) = 0 then copyConstruct a
  else
    let fresh := List.replicate ((← size a) + (← size r) + 1) 0
    let b ← strcpy fresh (← a.chars)
    let b ← strcat b (← r.chars)
    ofArray b

/-- `operator+=`, of `y` to `x`. -/
def plusAssign (x y : ℕ) (st : Store) : Exec Store := do
  return update st x (← plus (st x) (st y))

/-- `operator==`. -/
def equal (a r : Str) : Exec Bool := do
  return decide ((← strcmp (← a.chars) (← r.chars)) = 0)

/-- The loop of `join`, from the element with an index on. -/
def joinLoop (sep : Str) (len : ℕ) : ℕ → List Str → Str → Exec Str
  | _, [], ret => return ret
  | i, s :: seq, ret => do
    let ret ← plus ret s
    let ret ← if i ≠ subSize len 1 then plus ret sep else pure ret
    joinLoop sep len (i + 1) seq ret

/-- `join`. -/
def join (sep : Str) (seq : List Str) : Exec Str := joinLoop sep seq.length 0 seq null

/-- The loop of `remove`. It takes the size again in every round. -/
def removeLoop (val : UInt8) : ℕ → ℕ → ℕ → List UInt8 → Exec (ℕ × ℕ × List UInt8)
  | 0, _, _, _ => .error .outOfFuel
  | fuel + 1, slow, fast, b => do
    if fast < (← strlen b) then
      let c ← load b fast
      if c = val then removeLoop val fuel slow (fast + 1) b
      else removeLoop val fuel (slow + 1) (fast + 1) (← store b slow c)
    else return (slow, fast, b)

/-- `remove`. Without an array the size is 0, so the loop does not run, and a zero is written through
the null pointer. -/
def remove (fuel : ℕ) (val : UInt8) (s : Str) : Exec Str :=
  match s.array with
  | none => .error .wild
  | some b => do
    let (slow, fast, b) ← removeLoop val fuel 0 0 b
    let newSize := (← strlen b) - (fast - slow)
    ofArray (← store b (if 0 < newSize then newSize - 1 else 0) 0)

/-! ### Searching -/

/-- `npos`. -/
def npos : ℕ := sizeMod - 1

/-- The loop of the searches from the front, at an index, with so many characters to come. -/
def findFirstLoop (p : UInt8 → Bool) (b : List UInt8) : ℕ → ℕ → Exec ℕ
  | 0, _ => return npos
  | n + 1, i => do if p (← load b i) then return i else findFirstLoop p b n (i + 1)

/-- The searches from the front. They have a position, and begin at 0. -/
def findFirst (p : UInt8 → Bool) (s : Str) (_pos : ℕ) : Exec ℕ := do
  let len ← size s
  match s.array with
  | none => return npos
  | some b => findFirstLoop p b len 0

/-- `find_first_of`. -/
def findFirstOf (s : Str) (c : UInt8) (pos : ℕ) : Exec ℕ := findFirst (· = c) s pos

/-- `find_first_not_of`. -/
def findFirstNotOf (s : Str) (c : UInt8) (pos : ℕ) : Exec ℕ := findFirst (· ≠ c) s pos

/-- The loop of the searches from the back, with so many characters to come. -/
def findLastLoop (p : UInt8 → Bool) (b : List UInt8) : ℕ → Exec ℕ
  | 0 => return npos
  | i + 1 => do if p (← load b i) then return i else findLastLoop p b i

/-- The searches from the back. Their index is an `int`, so that a position may become a negative
one. -/
def findLast (p : UInt8 → Bool) (s : Str) (pos : ℕ) : Exec ℕ := do
  let len ← size s
  match s.array with
  | none => return npos
  | some b =>
    if len = 0 then return npos
    else
      let i := toInt (if pos = npos then len - 1 else pos)
      findLastLoop p b (i + 1).toNat

/-- `find_last_of`. -/
def findLastOf (s : Str) (c : UInt8) (pos : ℕ) : Exec ℕ := findLast (· = c) s pos

/-- `find_last_not_of`. -/
def findLastNotOf (s : Str) (c : UInt8) (pos : ℕ) : Exec ℕ := findLast (· ≠ c) s pos

/-! ### C strings in arrays -/

section Arrays

variable {s t r u dest : List UInt8} {b : List UInt8}

/-- An array with a zero is a content, a zero, and something behind. -/
theorem exists_eq_append (h : 0 ∈ b) : ∃ s r, b = s ++ 0 :: r ∧ 0 ∉ s := by
  obtain ⟨s, r, hb, hs⟩ := List.eq_append_cons_of_mem h
  exact ⟨s, r, hb, hs⟩

theorem takeWhile_eq (hs : 0 ∉ s) : (s ++ 0 :: r).takeWhile (· ≠ 0) = s := by
  have hpos : ∀ c ∈ s, decide (c ≠ 0) = true := fun c hc => decide_eq_true fun h0 => hs (h0 ▸ hc)
  rw [List.takeWhile_append_of_pos hpos, List.takeWhile_cons_of_neg (by decide), List.append_nil]

theorem strlen_eq (hs : 0 ∉ s) : strlen (s ++ 0 :: r) = .ok s.length := by
  induction s with
  | nil => rfl
  | cons c s ih =>
    obtain ⟨hc, hs⟩ := not_or.mp (mt List.mem_cons.mpr hs)
    rw [List.cons_append, strlen, if_neg fun h => hc h.symm, ih hs]
    rfl

theorem strcpy_eq (hs : 0 ∉ s) (hlen : s.length < dest.length) :
    strcpy dest (s ++ 0 :: r) = .ok (s ++ 0 :: dest.drop (s.length + 1)) := by
  induction s generalizing dest with
  | nil =>
    obtain ⟨d, dest, rfl⟩ := List.exists_cons_of_length_pos hlen
    rfl
  | cons c s ih =>
    obtain ⟨hc, hs⟩ := not_or.mp (mt List.mem_cons.mpr hs)
    obtain ⟨d, dest, rfl⟩ := List.exists_cons_of_length_pos ((Nat.succ_pos _).trans hlen)
    rw [List.cons_append, strcpy, if_neg fun h => hc h.symm, ih hs (Nat.lt_of_succ_lt_succ hlen)]
    rfl

theorem strcat_eq (ht : 0 ∉ t) (hs : 0 ∉ s) (hlen : s.length ≤ u.length) :
    strcat (t ++ 0 :: u) (s ++ 0 :: r) = .ok (t ++ s ++ 0 :: u.drop s.length) := by
  induction t with
  | nil =>
    have hlt : s.length < (0 :: u).length := Nat.lt_succ_of_le hlen
    rw [List.nil_append, strcat, if_pos rfl, strcpy_eq hs hlt]
    rfl
  | cons c t ih =>
    obtain ⟨hc, ht⟩ := not_or.mp (mt List.mem_cons.mpr ht)
    rw [List.cons_append, strcat, if_neg fun h => hc h.symm, ih ht]
    rfl

theorem strcmp_eq (hs : 0 ∉ s) (ht : 0 ∉ t) :
    ∃ x, strcmp (s ++ 0 :: r) (t ++ 0 :: u) = .ok x ∧ (x = 0 ↔ s = t) := by
  induction s generalizing t with
  | nil =>
    cases t with
    | nil => exact ⟨0, rfl, iff_of_true rfl rfl⟩
    | cons d t =>
      obtain ⟨hd, -⟩ := not_or.mp (mt List.mem_cons.mpr ht)
      refine ⟨_, (if_neg fun h => hd h.2.symm).trans (if_neg hd), ?_⟩
      refine iff_of_false (fun h => hd ?_) fun h => by cases h
      exact UInt8.toNat_inj.mp (by omega)
  | cons c s ih =>
    obtain ⟨hc, hs⟩ := not_or.mp (mt List.mem_cons.mpr hs)
    cases t with
    | nil =>
      refine ⟨_, (if_neg fun h => hc h.1.symm).trans (if_neg fun h => hc h.symm), ?_⟩
      refine iff_of_false (fun h => hc ?_) fun h => by cases h
      exact UInt8.toNat_inj.mp (by omega)
    | cons d t =>
      obtain ⟨-, ht⟩ := not_or.mp (mt List.mem_cons.mpr ht)
      by_cases hcd : c = d
      · obtain ⟨x, hx, hiff⟩ := ih hs ht
        refine ⟨x, ((if_neg fun h => hc h.1.symm).trans (if_pos hcd)).trans hx, ?_⟩
        rw [hiff, hcd, List.cons_inj_right]
      · refine ⟨_, (if_neg fun h => hc h.1.symm).trans (if_neg hcd), ?_⟩
        refine iff_of_false (fun h => hcd ?_) fun h => hcd (List.cons.inj h).1
        exact UInt8.toNat_inj.mp (by omega)

end Arrays

/-! ### Single operations -/

variable {a r s : Str} {b : List UInt8}

/-- **The two forms of a `String`.** -/
theorem array_cases (s : Str) : s.array = none ∧ s.content = [] ∨
    ∃ rest, s.array = some (s.content ++ 0 :: rest) ∧ 0 ∉ s.content := by
  rcases hs : s.array with _ | b
  · exact Or.inl ⟨rfl, by rw [content, hs]; rfl⟩
  · obtain ⟨l, rest, rfl, hl⟩ := exists_eq_append (s.terminated b hs)
    have hcontent : s.content = l := by
      rw [content, hs]
      exact takeWhile_eq hl
    exact Or.inr ⟨rest, by rw [hcontent], by rwa [hcontent]⟩

theorem chars_of_null (h : s.array = none) : s.chars = .error .wild := by
  rw [chars, h]

theorem chars_of_array (h : s.array = some b) : s.chars = .ok b := by
  rw [chars, h]
  rfl

/-- A new array, with a content. -/
theorem exists_ofArray {l : List UInt8} (hl : 0 ∉ l) (rest : List UInt8) :
    ∃ t, ofArray (l ++ 0 :: rest) = .ok t ∧ t.array = some (l ++ 0 :: rest) ∧ t.content = l := by
  have hmem : 0 ∈ l ++ 0 :: rest := List.mem_append_right l List.mem_cons_self
  exact ⟨⟨some (l ++ 0 :: rest), _⟩, dif_pos hmem, rfl, takeWhile_eq hl⟩

theorem size_eq (s : Str) : size s = .ok s.content.length := by
  rcases s.array_cases with ⟨hs, hcontent⟩ | ⟨rest, hs, hzero⟩
  · rw [size, hs, hcontent]
    rfl
  · rw [size, hs]
    exact strlen_eq hzero

/-- The array of zeros for a content of some length. -/
theorem exists_ofArray_replicate (n : ℕ) : ∃ t, ofArray (List.replicate (n + 1) 0) = .ok t ∧
    t.array = some (List.replicate (n + 1) 0) ∧ t.content = [] :=
  exists_ofArray List.not_mem_nil (List.replicate n 0)

variable {st : Store} {x y : ℕ}

theorem setArray_eq {t : Str} (h : ofArray b = .ok t) (x : ℕ) (st : Store) :
    setArray x b st = .ok (update st x t) := by
  rw [setArray, h]
  rfl

/-- The assignment, once the array of zeros is there. -/
theorem assign_eq {t₀ : Str}
    (h : ofArray (List.replicate ((st y).content.length + 1) 0) = .ok t₀) :
    assign x y st = (update st x t₀ y).chars >>= fun src =>
      strcpy (List.replicate ((st y).content.length + 1) 0) src >>= fun b =>
        setArray x b (update st x t₀) := by
  rw [assign, size_eq, ok_bind]
  dsimp only
  rw [setArray_eq h, ok_bind]

/-- **A copy of another `String`** has its content, unless that has no array. -/
theorem assign_of_array (hxy : x ≠ y) (hy : (st y).array ≠ none) : ∃ t,
    assign x y st = .ok (update st x t) ∧ t.content = (st y).content ∧ t.array ≠ none := by
  rcases (st y).array_cases with ⟨hnone, -⟩ | ⟨rest, hs, hzero⟩
  · exact absurd hnone hy
  obtain ⟨t₀, ht₀, -⟩ := exists_ofArray_replicate (st y).content.length
  have hcopy := strcpy_eq (r := rest) hzero
    (show (st y).content.length < (List.replicate ((st y).content.length + 1) 0).length by
      rw [List.length_replicate]; exact Nat.lt_succ_self _)
  obtain ⟨t, ht, harray, hcontent⟩ := exists_ofArray hzero
    ((List.replicate ((st y).content.length + 1) (0 : UInt8)).drop ((st y).content.length + 1))
  refine ⟨t, ?_, hcontent, by rw [harray]; exact Option.some_ne_none _⟩
  have hread : (update st x t₀ y).chars = .ok ((st y).content ++ 0 :: rest) := by
    rw [update_of_ne hxy.symm]
    exact chars_of_array hs
  rw [assign_eq ht₀, hread, ok_bind, hcopy, ok_bind, setArray_eq ht, update_idem]

theorem assign_of_null (hxy : x ≠ y) (hy : (st y).array = none) :
    assign x y st = .error .wild := by
  obtain ⟨t₀, ht₀, -⟩ := exists_ofArray_replicate (st y).content.length
  have hread : (update st x t₀ y).chars = .error .wild := by
    rw [update_of_ne hxy.symm]
    exact chars_of_null hy
  rw [assign_eq ht₀, hread]
  rfl

/-- **A `String` that is assigned to itself** is empty then: the array of zeros has taken the place of
its own. -/
theorem assign_self (x : ℕ) (st : Store) :
    ∃ t, assign x x st = .ok (update st x t) ∧ t.content = [] := by
  obtain ⟨t₀, ht₀, harray, hcontent⟩ := exists_ofArray_replicate (st x).content.length
  have hread : (update st x t₀ x).chars =
      .ok (List.replicate ((st x).content.length + 1) 0) := by
    rw [update_self]
    exact chars_of_array harray
  have hcopy : strcpy (List.replicate ((st x).content.length + 1) 0)
      (List.replicate ((st x).content.length + 1) 0) =
        .ok (List.replicate ((st x).content.length + 1) 0) := rfl
  refine ⟨t₀, ?_, hcontent⟩
  rw [assign_eq ht₀, hread, ok_bind, hcopy, ok_bind, setArray_eq ht₀, update_idem]

theorem copyConstruct_of_array (hr : r.array ≠ none) :
    ∃ t, copyConstruct r = .ok t ∧ t.content = r.content ∧ t.array ≠ none := by
  have hne : (update (fun _ => r) 0 null 1).array ≠ none := hr
  obtain ⟨t, ht, hcontent, harray⟩ := assign_of_array Nat.zero_ne_one hne
  refine ⟨t, ?_, hcontent, harray⟩
  rw [copyConstruct, ht, ok_bind, update_self]
  rfl

theorem copyConstruct_of_null (hr : r.array = none) : copyConstruct r = .error .wild := by
  have hnone : (update (fun _ => r) 0 null 1).array = none := hr
  rw [copyConstruct, assign_of_null Nat.zero_ne_one hnone]
  rfl

theorem plus_of_null (r : Str) (ha : a.array = none) : plus a r = .error .wild := by
  rw [plus, size_eq, ok_bind]
  split_ifs
  · exact copyConstruct_of_null ha
  · rw [size_eq, ok_bind, ok_bind, chars_of_null ha]
    rfl

/-- **The concatenation** reads the first `String` in any case, and the second one if it is not
empty. -/
theorem plus_of_array (r : Str) (ha : a.array ≠ none) :
    ∃ t, plus a r = .ok t ∧ t.content = a.content ++ r.content ∧ t.array ≠ none := by
  rw [plus, size_eq, ok_bind]
  split_ifs with hr
  · obtain ⟨t, ht, hcontent, harray⟩ := copyConstruct_of_array ha
    rw [List.length_eq_zero_iff.mp hr, List.append_nil]
    exact ⟨t, ht, hcontent, harray⟩
  rcases a.array_cases with ⟨hnone, -⟩ | ⟨rest, hs, hzero⟩
  · exact absurd hnone ha
  rcases r.array_cases with ⟨-, hnil⟩ | ⟨rest', hs', hzero'⟩
  · exact absurd (congrArg List.length hnil) hr
  have hlen : a.content.length < (List.replicate
      (a.content.length + r.content.length + 1) (0 : UInt8)).length := by
    rw [List.length_replicate]
    omega
  have hroom : r.content.length ≤ ((List.replicate
      (a.content.length + r.content.length + 1) (0 : UInt8)).drop (a.content.length + 1)).length := by
    rw [List.length_drop, List.length_replicate]
    omega
  have hzeros : 0 ∉ a.content ++ r.content :=
    fun h => (List.mem_append.mp h).elim hzero hzero'
  obtain ⟨t, ht, harray, hcontent⟩ := exists_ofArray hzeros (((List.replicate
    (a.content.length + r.content.length + 1) (0 : UInt8)).drop (a.content.length + 1)).drop
      r.content.length)
  refine ⟨t, ?_, hcontent, by rw [harray]; exact Option.some_ne_none _⟩
  rw [size_eq, ok_bind, ok_bind, chars_of_array hs, ok_bind, strcpy_eq hzero hlen, ok_bind,
    chars_of_array hs', ok_bind, strcat_eq hzero hzero' hroom, ok_bind, ht]

theorem equal_of_null (h : a.array = none ∨ r.array = none) : equal a r = .error .wild := by
  rw [equal]
  rcases ha : a.array with _ | b
  · rw [chars_of_null ha]
    rfl
  · have hr : r.array = none := h.resolve_left fun hnone => by rw [ha] at hnone; cases hnone
    rw [chars_of_array ha, ok_bind, chars_of_null hr]
    rfl

theorem equal_of_array (ha : a.array ≠ none) (hr : r.array ≠ none) :
    equal a r = .ok (decide (a.content = r.content)) := by
  rcases a.array_cases with ⟨hnone, -⟩ | ⟨rest, hs, hzero⟩
  · exact absurd hnone ha
  rcases r.array_cases with ⟨hnone, -⟩ | ⟨rest', hs', hzero'⟩
  · exact absurd hnone hr
  obtain ⟨x, hx, hiff⟩ := strcmp_eq (r := rest) (u := rest') hzero hzero'
  rw [equal, chars_of_array hs, ok_bind, chars_of_array hs', ok_bind, hx, ok_bind,
    decide_eq_decide.mpr hiff]
  rfl

theorem join_nil (sep : Str) : join sep [] = .ok null := rfl

/-- **`join` begins with a null pointer**, which the first `operator+=` reads. -/
theorem join_cons (sep s : Str) (seq : List Str) : join sep (s :: seq) = .error .wild := by
  have hnull : plus null s = .error .wild := plus_of_null s rfl
  rw [join, joinLoop, hnull]
  rfl

/-! ### Ordinary strings -/

/-- The copy constructor gives the same content. -/
def Copies (r : Str) : Prop := ∃ t, copyConstruct r = .ok t ∧ t.content = r.content

/-- The assignment of `y` to `x` gives the same content, and changes nothing else. -/
def Assigns (x y : ℕ) (st : Store) : Prop :=
  ∃ st', assign x y st = .ok st' ∧ (st' x).content = (st y).content ∧ ∀ z ≠ x, st' z = st z

/-- `operator+` concatenates the contents. -/
def Concatenates (a r : Str) : Prop := ∃ t, plus a r = .ok t ∧ t.content = a.content ++ r.content

/-- `operator+=` appends the content of `y` to that of `x`, and changes nothing else. -/
def Appends (x y : ℕ) (st : Store) : Prop := ∃ st', plusAssign x y st = .ok st' ∧
  (st' x).content = (st x).content ++ (st y).content ∧ ∀ z ≠ x, st' z = st z

/-- `operator==` compares the contents. -/
def Compares (a r : Str) : Prop := equal a r = .ok (decide (a.content = r.content))

/-- `join` puts the content of the separator between those of the sequence. -/
def Joins (sep : Str) (seq : List Str) : Prop :=
  ∃ t, join sep seq = .ok t ∧ t.content = sep.content.intercalate (seq.map content)

theorem copies_iff (r : Str) : Copies r ↔ r.array ≠ none := by
  constructor
  · rintro ⟨t, ht, -⟩ hr
    rw [copyConstruct_of_null hr] at ht
    cases ht
  · intro hr
    obtain ⟨t, ht, hcontent, -⟩ := copyConstruct_of_array hr
    exact ⟨t, ht, hcontent⟩

theorem assigns_self_iff (x : ℕ) (st : Store) : Assigns x x st ↔ (st x).content = [] := by
  obtain ⟨t, ht, hcontent⟩ := assign_self x st
  constructor
  · rintro ⟨st', hst', hEq, -⟩
    rw [ht] at hst'
    cases hst'
    rw [← hEq, update_self, hcontent]
  · intro hnil
    refine ⟨_, ht, ?_, fun z hz => update_of_ne hz _ _⟩
    rw [update_self, hcontent, hnil]

theorem assigns_iff (hxy : x ≠ y) : Assigns x y st ↔ (st y).array ≠ none := by
  constructor
  · rintro ⟨st', hst', -⟩ hy
    rw [assign_of_null hxy hy] at hst'
    cases hst'
  · intro hy
    obtain ⟨t, ht, hcontent, -⟩ := assign_of_array hxy hy
    refine ⟨_, ht, ?_, fun z hz => update_of_ne hz _ _⟩
    rw [update_self, hcontent]

theorem concatenates_iff (a r : Str) : Concatenates a r ↔ a.array ≠ none := by
  constructor
  · rintro ⟨t, ht, -⟩ ha
    rw [plus_of_null r ha] at ht
    cases ht
  · intro ha
    obtain ⟨t, ht, hcontent, -⟩ := plus_of_array r ha
    exact ⟨t, ht, hcontent⟩

theorem appends_iff (x y : ℕ) (st : Store) : Appends x y st ↔ (st x).array ≠ none := by
  constructor
  · rintro ⟨st', hst', -⟩ hx
    rw [plusAssign, plus_of_null _ hx] at hst'
    cases hst'
  · intro hx
    obtain ⟨t, ht, hcontent, -⟩ := plus_of_array (st y) hx
    refine ⟨update st x t, ?_, ?_, fun z hz => update_of_ne hz _ _⟩
    · rw [plusAssign, ht]
      rfl
    · rw [update_self, hcontent]

theorem compares_iff (a r : Str) : Compares a r ↔ a.array ≠ none ∧ r.array ≠ none := by
  constructor
  · intro h
    rw [← not_or]
    intro hnull
    rw [Compares, equal_of_null hnull] at h
    cases h
  · exact fun h => equal_of_array h.1 h.2

theorem joins_iff (sep : Str) (seq : List Str) : Joins sep seq ↔ seq = [] := by
  cases seq with
  | nil => exact iff_of_true ⟨null, join_nil sep, rfl⟩ rfl
  | cons s seq =>
    refine iff_of_false ?_ (List.cons_ne_nil s seq)
    rintro ⟨t, ht, -⟩
    rw [join_cons] at ht
    cases ht

/-- **When a `String` behaves like its content.** What is copied must have an array, what is assigned
to itself must be empty, the first operand of a concatenation and both of a comparison must have
arrays, and only an empty sequence can be joined. -/
theorem ordinary_iff (st : Store) (x y : ℕ) (seq : List Str) :
    (Copies (st y) ↔ (st y).array ≠ none) ∧
    (Assigns x y st ↔ if x = y then (st y).content = [] else (st y).array ≠ none) ∧
    (Concatenates (st x) (st y) ↔ (st x).array ≠ none) ∧
    (Appends x y st ↔ (st x).array ≠ none) ∧
    (Compares (st x) (st y) ↔ (st x).array ≠ none ∧ (st y).array ≠ none) ∧
    (Joins (st x) seq ↔ seq = []) := by
  refine ⟨copies_iff _, ?_, concatenates_iff _ _, appends_iff x y st, compares_iff _ _,
    joins_iff _ seq⟩
  split_ifs with hxy
  · rw [hxy]
    exact assigns_self_iff y st
  · exact assigns_iff hxy

/-- **A default-constructed `String` is copied**, compared with itself and joined: each reads through
the null pointer. -/
theorem not_ordinary_null : copyConstruct null = .error .wild ∧
    equal null null = .error .wild ∧ join null [null] = .error .wild := by
  decide

/-! ### Removing characters -/

section Remove

variable {val c : UInt8} {kept junk rest tail : List UInt8} {fuel : ℕ}

/-- **The loop of `remove`.** In front of `slow` are the characters that were kept, from `fast` on those
to come, and between them what is left of the old ones. No zero is written, so the size is the same
in every round. -/
theorem removeLoop_eq (val : UInt8) (hzero : 0 ∉ kept ++ junk ++ rest) (hfuel : rest.length < fuel) :
    ∃ junk', 0 ∉ junk' ∧
      removeLoop val fuel kept.length (kept.length + junk.length)
        (kept ++ junk ++ rest ++ 0 :: tail) =
      .ok ((kept ++ rest.filter (· ≠ val)).length,
        (kept ++ rest.filter (· ≠ val)).length + junk'.length,
        kept ++ rest.filter (· ≠ val) ++ junk' ++ 0 :: tail) := by
  induction rest generalizing kept junk fuel with
  | nil =>
    obtain ⟨fuel, rfl⟩ := exists_succ_of_lt hfuel
    rw [List.append_nil] at hzero
    refine ⟨junk, fun h => hzero (List.mem_append_right _ h), ?_⟩
    rw [List.append_nil, removeLoop, strlen_eq hzero, ok_bind, List.length_append,
      if_neg (lt_irrefl _), List.filter_nil, List.append_nil]
    rfl
  | cons c rest ih =>
    obtain ⟨fuel, rfl⟩ := exists_succ_of_lt hfuel
    have hfuel := Nat.lt_of_succ_lt_succ hfuel
    have hlt : kept.length + junk.length < (kept ++ junk ++ c :: rest).length := by
      rw [List.length_append, List.length_append, List.length_cons]
      omega
    have hload : load (kept ++ junk ++ c :: rest ++ 0 :: tail) (kept.length + junk.length) = .ok c := by
      have h := load_append (kept ++ junk) c (rest ++ 0 :: tail)
      rwa [List.length_append, ← List.cons_append, ← List.append_assoc] at h
    rw [removeLoop, strlen_eq hzero, ok_bind, if_pos hlt, hload, ok_bind]
    by_cases hc : c = val
    · -- The character stays where it is, as one of the old ones.
      obtain ⟨junk', hjunk, hloop⟩ := @ih kept (junk ++ [c]) fuel (by simpa using hzero) hfuel
      refine ⟨junk', hjunk, ?_⟩
      rw [if_pos hc, List.filter_cons_of_neg (by simpa using hc)]
      simpa [Nat.add_assoc] using hloop
    · -- The character overwrites the first of the old ones, which may be itself.
      obtain ⟨d, js, hjs⟩ : ∃ d js, junk ++ [c] = d :: js :=
        List.exists_cons_of_length_pos (by rw [List.length_append]; exact Nat.succ_pos _)
      have hlen : js.length = junk.length := by
        have h := congrArg List.length hjs
        rw [List.length_append, List.length_singleton, List.length_cons] at h
        omega
      have hb : kept ++ junk ++ c :: rest ++ 0 :: tail = kept ++ d :: (js ++ rest ++ 0 :: tail) := by
        rw [← List.singleton_append, ← List.append_assoc, List.append_assoc kept, hjs]
        simp
      have hzero' : 0 ∉ kept ++ [c] ++ js ++ rest := by
        have hsub : ∀ z ∈ js, z ∈ junk ++ [c] := fun z hz => hjs ▸ List.mem_cons_of_mem d hz
        intro h
        simp only [List.mem_append, List.mem_cons, List.not_mem_nil, or_false, not_or] at h hzero hsub
        rcases h with ((h | h) | h) | h
        · exact hzero.1.1 h
        · exact hzero.2.1 h
        · exact (hsub 0 h).elim hzero.1.2 hzero.2.1
        · exact hzero.2.2 h
      obtain ⟨junk', hjunk, hloop⟩ := @ih (kept ++ [c]) js fuel hzero' hfuel
      refine ⟨junk', hjunk, ?_⟩
      rw [if_neg hc, hb, store_append, ok_bind, List.filter_cons_of_pos (by simpa using hc)]
      rw [hlen, List.length_append, List.length_singleton] at hloop
      simpa [Nat.add_assoc, Nat.add_comm, Nat.add_left_comm] using hloop

/-- **What `remove` leaves**: the characters that are kept, without the last of them. -/
theorem remove_eq (val : UInt8) (hs : s.array ≠ none) (hfuel : s.content.length < fuel) :
    ∃ t, remove fuel val s = .ok t ∧ t.content = (s.content.filter (· ≠ val)).dropLast := by
  rcases s.array_cases with ⟨hnone, -⟩ | ⟨tail, harray, hzero⟩
  · exact absurd hnone hs
  obtain ⟨junk, hjunk, hloop⟩ := @removeLoop_eq [] [] s.content tail fuel val hzero hfuel
  have hkept : 0 ∉ s.content.filter (· ≠ val) := fun h => hzero (List.mem_of_mem_filter h)
  have hall : 0 ∉ s.content.filter (· ≠ val) ++ junk := fun h => (List.mem_append.mp h).elim hkept hjunk
  simp only [List.nil_append, List.append_nil, List.length_nil, Nat.add_zero] at hloop
  rw [remove, harray]
  dsimp only
  rw [hloop, ok_bind]
  dsimp only
  rw [strlen_eq hall, ok_bind, List.length_append, Nat.add_sub_cancel_left, Nat.add_sub_cancel]
  rcases List.eq_nil_or_concat' (s.content.filter (· ≠ val)) with hnil | ⟨l, z, hl⟩
  · obtain ⟨d, u, hu⟩ : ∃ d u, junk ++ 0 :: tail = d :: u :=
      List.exists_cons_of_length_pos (by rw [List.length_append]; exact Nat.succ_pos _)
    obtain ⟨t, ht, -, hcontent⟩ := exists_ofArray List.not_mem_nil u
    refine ⟨t, ?_, by rw [hcontent, hnil]; rfl⟩
    have hstore : store (d :: u) 0 0 = .ok (0 :: u) := store_append [] d 0 u
    rw [hnil, List.length_nil, if_neg (lt_irrefl 0), List.nil_append, hu, hstore, ok_bind]
    exact ht
  · have hl0 : 0 ∉ l := fun h => hkept (hl ▸ List.mem_append_left [z] h)
    obtain ⟨t, ht, -, hcontent⟩ := exists_ofArray hl0 (junk ++ 0 :: tail)
    refine ⟨t, ?_, by rw [hcontent, hl, List.dropLast_concat]⟩
    have hb : l ++ [z] ++ junk ++ 0 :: tail = l ++ z :: (junk ++ 0 :: tail) := by simp
    rw [hl, List.length_append, List.length_singleton, if_pos (Nat.succ_pos _), Nat.add_sub_cancel,
      hb, store_append, ok_bind, ht]

/-- **`remove` takes out the character**, and nothing else. -/
def Removes (val : UInt8) (s : Str) : Prop := ∃ bound, ∀ fuel, bound < fuel →
  ∃ t, remove fuel val s = .ok t ∧ t.content = s.content.filter (· ≠ val)

/-- **When `remove` does what it is for**: if there is an array, and nothing is left. -/
theorem removes_iff (val : UInt8) (s : Str) :
    Removes val s ↔ s.array ≠ none ∧ ∀ c ∈ s.content, c = val := by
  constructor
  · rintro ⟨bound, h⟩
    obtain ⟨t, ht, hcontent⟩ := h (bound + s.content.length + 1) (by omega)
    have hs : s.array ≠ none := by
      intro hnone
      rw [remove, hnone] at ht
      cases ht
    obtain ⟨t', ht', hdrop⟩ := remove_eq val hs
      (show s.content.length < bound + s.content.length + 1 by omega)
    obtain rfl : t = t' := Except.ok.inj (ht.symm.trans ht')
    have hnil : s.content.filter (· ≠ val) = [] := by
      have hlen := congrArg List.length (hdrop.symm.trans hcontent)
      rw [List.length_dropLast] at hlen
      exact List.length_eq_zero_iff.mp (by omega)
    refine ⟨hs, fun c hc => ?_⟩
    by_contra hne
    exact List.filter_eq_nil_iff.mp hnil c hc (decide_eq_true hne)
  · rintro ⟨hs, hall⟩
    have hnil : s.content.filter (· ≠ val) = [] :=
      List.filter_eq_nil_iff.mpr fun c hc h => of_decide_eq_true h (hall c hc)
    refine ⟨s.content.length, fun fuel hfuel => ?_⟩
    obtain ⟨t, ht, hcontent⟩ := remove_eq val hs hfuel
    exact ⟨t, ht, by rw [hcontent, hnil]; rfl⟩

/-- **Removing `b` from `abc`** leaves `a`. -/
theorem not_removes_abc : (remove 4 98 ⟨some [97, 98, 99, 0], by decide⟩).map content = .ok [97] ∧
    [97, 98, 99].filter (· ≠ (98 : UInt8)) = [97, 99] := by
  decide

end Remove

/-! ### Searching from a position -/

section Search

variable {p : UInt8 → Bool} {l : List UInt8} {pos : ℕ}

/-- **The least index from a position on** whose character passes, or `npos`. -/
def FirstFrom (p : UInt8 → Bool) (l : List UInt8) (pos r : ℕ) : Prop :=
  (r = npos ∧ ∀ i c, pos ≤ i → l[i]? = some c → ¬p c) ∨
    (pos ≤ r ∧ (∃ c, l[r]? = some c ∧ p c) ∧ ∀ i c, pos ≤ i → i < r → l[i]? = some c → ¬p c)

/-- **The greatest index up to a position** whose character passes, or `npos`. -/
def LastUpTo (p : UInt8 → Bool) (l : List UInt8) (pos r : ℕ) : Prop :=
  (r = npos ∧ ∀ i c, i ≤ pos → l[i]? = some c → ¬p c) ∨
    (r ≤ pos ∧ (∃ c, l[r]? = some c ∧ p c) ∧ ∀ i c, i ≤ pos → r < i → l[i]? = some c → ¬p c)

/-- The search of a whole array from the front, and the first index. -/
theorem findFirstLoop_eq (p : UInt8 → Bool) (l u : List UInt8) : ∀ n i, i + n = l.length →
    (∀ j c, j < i → l[j]? = some c → ¬p c) →
      ∃ r, findFirstLoop p (l ++ u) n i = .ok r ∧ FirstFrom p l 0 r := by
  intro n
  induction n with
  | zero =>
    intro i hi hbefore
    refine ⟨npos, rfl, Or.inl ⟨rfl, fun j c _ hc => hbefore j c ?_ hc⟩⟩
    have hlt := (List.getElem?_eq_some_iff.mp hc).1
    omega
  | succ n ih =>
    intro i hi hbefore
    have hlt : i < l.length := by omega
    have hget : l[i]? = some l[i] := List.getElem?_eq_getElem hlt
    have hload : load (l ++ u) i = .ok l[i] := by
      rw [load, List.getElem?_append_left hlt, hget]
      rfl
    rw [findFirstLoop, hload, ok_bind]
    by_cases hp : p l[i]
    · rw [if_pos hp]
      exact ⟨i, rfl, Or.inr ⟨Nat.zero_le i, ⟨_, hget, hp⟩, fun j c _ hj => hbefore j c hj⟩⟩
    · rw [if_neg hp]
      refine ih (i + 1) (by omega) fun j c hj hc => ?_
      rcases Nat.lt_succ_iff_lt_or_eq.mp hj with hj | rfl
      · exact hbefore j c hj hc
      · rw [hget] at hc
        cases hc
        exact hp

theorem findFirst_eq (p : UInt8 → Bool) (s : Str) (pos : ℕ) :
    ∃ r, findFirst p s pos = .ok r ∧ FirstFrom p s.content 0 r := by
  rw [findFirst, size_eq, ok_bind]
  rcases s.array_cases with ⟨hs, hnil⟩ | ⟨rest, hs, -⟩
  · rw [hs, hnil]
    exact ⟨npos, rfl, Or.inl ⟨rfl, fun i c _ hc => by cases hc⟩⟩
  · rw [hs]
    exact findFirstLoop_eq p s.content (0 :: rest) _ 0 (Nat.zero_add _) fun j _ hj =>
      absurd hj (Nat.not_lt_zero j)

/-- **A search that ignores its position** is right if nothing in front of the position passes. -/
theorem firstFrom_iff {r : ℕ} (h : FirstFrom p l 0 r) (hpos : pos < l.length)
    (hl : l.length < sizeMod) :
    FirstFrom p l pos r ↔ ∀ i c, i < pos → l[i]? = some c → ¬p c := by
  constructor
  · intro hfrom i c hi hc hp
    have hle : r ≤ i := by
      rcases h with ⟨-, hnone⟩ | ⟨-, -, hleast⟩
      · exact absurd hp (hnone i c (Nat.zero_le i) hc)
      · by_contra hlt
        exact hleast i c (Nat.zero_le i) (by omega) hc hp
    rcases hfrom with ⟨rfl, -⟩ | ⟨hge, -⟩
    · rw [npos] at hle
      omega
    · omega
  · intro hbefore
    rcases h with ⟨hr, hnone⟩ | ⟨-, ⟨c, hc, hp⟩, hleast⟩
    · exact Or.inl ⟨hr, fun i c _ => hnone i c (Nat.zero_le i)⟩
    · refine Or.inr ⟨?_, ⟨c, hc, hp⟩, fun i d _ => hleast i d (Nat.zero_le i)⟩
      by_contra hlt
      exact hbefore r c (by omega) hc hp

theorem findFirst_right_iff (p : UInt8 → Bool) (s : Str) (hpos : pos < s.content.length)
    (hs : s.content.length < sizeMod) :
    (∃ r, findFirst p s pos = .ok r ∧ FirstFrom p s.content pos r) ↔
      ∀ i c, i < pos → s.content[i]? = some c → ¬p c := by
  obtain ⟨r, hr, hfirst⟩ := findFirst_eq p s pos
  rw [← firstFrom_iff hfirst hpos hs]
  constructor
  · rintro ⟨r', hr', hfrom⟩
    rw [hr] at hr'
    cases hr'
    exact hfrom
  · exact fun hfrom => ⟨r, hr, hfrom⟩

theorem findLastLoop_eq (p : UInt8 → Bool) (l u : List UInt8) (k : ℕ) (hk : k < l.length) :
    ∃ r, findLastLoop p (l ++ u) (k + 1) = .ok r ∧ LastUpTo p l k r := by
  have hget : l[k]? = some l[k] := List.getElem?_eq_getElem hk
  have hload : load (l ++ u) k = .ok l[k] := by
    rw [load, List.getElem?_append_left hk, hget]
    rfl
  rw [findLastLoop, hload, ok_bind]
  by_cases hp : p l[k]
  · rw [if_pos hp]
    exact ⟨k, rfl, Or.inr ⟨le_rfl, ⟨_, hget, hp⟩, fun i _ hi hlt => absurd hi (by omega)⟩⟩
  · rw [if_neg hp]
    have hlast : ∀ c, l[k]? = some c → ¬p c := by
      intro c hc
      rw [hget] at hc
      cases hc
      exact hp
    cases k with
    | zero =>
      refine ⟨npos, rfl, Or.inl ⟨rfl, fun i c hi hc => ?_⟩⟩
      obtain rfl := Nat.le_zero.mp hi
      exact hlast c hc
    | succ k =>
      obtain ⟨r, hr, hlastUpTo⟩ := findLastLoop_eq p l u k (Nat.lt_of_succ_lt hk)
      refine ⟨r, hr, ?_⟩
      rcases hlastUpTo with ⟨hnpos, hnone⟩ | ⟨hle, hfound, hgreatest⟩
      · refine Or.inl ⟨hnpos, fun i c hi hc => ?_⟩
        rcases Nat.le_succ_iff.mp hi with hi | rfl
        · exact hnone i c hi hc
        · exact hlast c hc
      · refine Or.inr ⟨hle.trans (Nat.le_succ k), hfound, fun i c hi hlt hc => ?_⟩
        rcases Nat.le_succ_iff.mp hi with hi | rfl
        · exact hgreatest i c hi hlt hc
        · exact hlast c hc

theorem findLast_right (p : UInt8 → Bool) (s : Str) (hpos : pos < s.content.length)
    (hint : pos < 2 ^ 31) : ∃ r, findLast p s pos = .ok r ∧ LastUpTo p s.content pos r := by
  rw [findLast, size_eq, ok_bind]
  rcases s.array_cases with ⟨-, hnil⟩ | ⟨rest, hs, -⟩
  · rw [hnil] at hpos
    exact absurd hpos (Nat.not_lt_zero pos)
  · have hne : pos ≠ npos := by
      rw [npos, sizeMod]
      omega
    rw [hs]
    dsimp only
    rw [if_neg (Nat.ne_zero_of_lt hpos), if_neg hne, toInt_of_lt hint]
    exact findLastLoop_eq p s.content (0 :: rest) pos hpos

/-- **The four searches respect their position.** -/
structure Respects (s : Str) (c : UInt8) (pos : ℕ) : Prop where
  /-- `find_first_of` returns the least index from the position on. -/
  firstOf : ∃ r, findFirstOf s c pos = .ok r ∧ FirstFrom (· = c) s.content pos r
  /-- So does `find_first_not_of`. -/
  firstNotOf : ∃ r, findFirstNotOf s c pos = .ok r ∧ FirstFrom (· ≠ c) s.content pos r
  /-- `find_last_of` returns the greatest index up to the position. -/
  lastOf : ∃ r, findLastOf s c pos = .ok r ∧ LastUpTo (· = c) s.content pos r
  /-- So does `find_last_not_of`. -/
  lastNotOf : ∃ r, findLastNotOf s c pos = .ok r ∧ LastUpTo (· ≠ c) s.content pos r

/-- **Which searches respect their position.** Those from the front ignore it, so that they are right
if there is nothing to be found in front of it. Those from the back are right as long as the position
is an `int`. All four are only at the position 0. -/
theorem respectsPosition_iff (s : Str) (c : UInt8) (hpos : pos < s.content.length)
    (hs : s.content.length < sizeMod) :
    ((∃ r, findFirstOf s c pos = .ok r ∧ FirstFrom (· = c) s.content pos r) ↔
      ∀ i < pos, s.content[i]? ≠ some c) ∧
    ((∃ r, findFirstNotOf s c pos = .ok r ∧ FirstFrom (· ≠ c) s.content pos r) ↔
      ∀ i < pos, s.content[i]? = some c) ∧
    (pos < 2 ^ 31 → (∃ r, findLastOf s c pos = .ok r ∧ LastUpTo (· = c) s.content pos r) ∧
      ∃ r, findLastNotOf s c pos = .ok r ∧ LastUpTo (· ≠ c) s.content pos r) ∧
    (Respects s c pos ↔ pos = 0) := by
  have hfirst : (∃ r, findFirstOf s c pos = .ok r ∧ FirstFrom (· = c) s.content pos r) ↔
      ∀ i < pos, s.content[i]? ≠ some c := by
    refine (findFirst_right_iff _ s hpos hs).trans ?_
    exact ⟨fun h i hi hc => h i c hi hc (decide_eq_true rfl),
      fun h i d hi hd hEq => h i hi (of_decide_eq_true hEq ▸ hd)⟩
  have hfirstNot : (∃ r, findFirstNotOf s c pos = .ok r ∧ FirstFrom (· ≠ c) s.content pos r) ↔
      ∀ i < pos, s.content[i]? = some c := by
    refine (findFirst_right_iff _ s hpos hs).trans ⟨fun h i hi => ?_, fun h i d hi hd hne => ?_⟩
    · have hget : s.content[i]? = some s.content[i] := List.getElem?_eq_getElem (hi.trans hpos)
      have hEq : s.content[i] = c := by
        by_contra hne
        exact h i _ hi hget (decide_eq_true hne)
      rw [hget, hEq]
    · exact of_decide_eq_true hne (Option.some.inj (hd.symm.trans (h i hi)))
  have hlast : pos < 2 ^ 31 → (∃ r, findLastOf s c pos = .ok r ∧ LastUpTo (· = c) s.content pos r) ∧
      ∃ r, findLastNotOf s c pos = .ok r ∧ LastUpTo (· ≠ c) s.content pos r :=
    fun hint => ⟨findLast_right _ s hpos hint, findLast_right _ s hpos hint⟩
  refine ⟨hfirst, hfirstNot, hlast, fun h => ?_, ?_⟩
  · by_contra hne
    exact hfirst.mp h.firstOf 0 (Nat.pos_of_ne_zero hne)
      (hfirstNot.mp h.firstNotOf 0 (Nat.pos_of_ne_zero hne))
  · rintro rfl
    obtain ⟨hl, hln⟩ := hlast (by decide)
    exact ⟨hfirst.mpr fun i hi => absurd hi (Nat.not_lt_zero i),
      hfirstNot.mpr fun i hi => absurd hi (Nat.not_lt_zero i), hl, hln⟩

/-- The string `abc`, from its beginning. -/
theorem respects_abc : Respects ⟨some [97, 98, 99, 0], by decide⟩ 98 0 :=
  ((respectsPosition_iff ⟨some [97, 98, 99, 0], by decide⟩ 98 (by decide) (by decide)).2.2.2).mpr rfl

/-- **The second `a` of `aba`** is at 2, and the search from 1 on returns 0. -/
theorem findFirstOf_ignores_position :
    findFirstOf ⟨some [97, 98, 97, 0], by decide⟩ 97 1 = .ok 0 ∧
      findFirstNotOf ⟨some [97, 98, 97, 0], by decide⟩ 98 1 = .ok 0 := by
  decide

end Search

end Str

end CxxString

end Valkyrie
