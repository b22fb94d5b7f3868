import Mathlib.Data.List.TakeWhile
import Valkyrie.Lib.CString
import Valkyrie.Lib.Split

/-!
# Words of a command line

`usr/sh/main.cc`: the shell counts the words of a line with `get_argc`, and then makes them strings
of their own with `get_next_arg`, which puts a null character behind a word and goes on to the next
one. The two are independent scans of the same buffer. They agree on the number of words and on
where they begin (`Valkyrie.Shell.getArgc_eq`, `Valkyrie.Shell.collectArgs_of_words`). But a word is
cut off when the *next* one is asked for, and nobody asks for one behind the last word: that one
keeps the blanks up to the end of the line (`Valkyrie.Shell.splitLine_iff`).
-/

namespace Valkyrie.Shell

open Exec CxxString Function

/-! ### The functions -/

/-- A loop `while (*s && …) s++`, with the condition on the character. -/
def skipWhile (p : UInt8 → Prop) [DecidablePred p] (m : Mem) : ℕ → ℕ → Exec ℕ
  | 0, _ => .error .outOfFuel
  | fuel + 1, s => if m s ≠ 0 ∧ p (m s) then skipWhile p m fuel (s + 1) else return s

/-- `strlen`, of a string at the beginning of the memory. -/
def strlen (m : Mem) (fuel : ℕ) : Exec ℕ := skipWhile (fun _ => True) m fuel 0

/-- One turn of the loop in `get_argc`: where the present word begins, and the words behind it. -/
def argcStep (m : Mem) (st : ℕ × ℕ) (i : ℕ) : ℕ × ℕ :=
  if m i = 32 then (i + 1, if i - st.1 ≠ 0 then st.2 + 1 else st.2) else st

/-- `get_argc` -/
def getArgc (m : Mem) (fuel : ℕ) : Exec ℕ := do
  let len ← strlen m fuel
  let (first, ret) := (List.range len).foldl (argcStep m) (0, 0)
  return if len - first ≠ 0 then ret + 1 else ret

/-- `get_next_arg` -/
def getNextArg (fuel : ℕ) (m : Mem) (s : ℕ) : Exec (ℕ × Mem) := do
  let s ← skipWhile (· ≠ 32) m fuel s
  let m := update m s 0
  let s ← skipWhile (· = 32) m fuel (s + 1)
  return (s, m)

/-- `sizeof(buf)` -/
def bufSize : ℕ := 256

/-- The blanks in front of the first word. -/
def skipLeading (m : Mem) : ℕ → ℕ → Exec ℕ
  | 0, _ => .error .outOfFuel
  | fuel + 1, str =>
    if m str ≠ 0 ∧ m str = 32 ∧ str < bufSize then skipLeading m fuel (str + 1) else return str

/-- The loop that fills `arguments` from index 1 on, for so many words. -/
def collectArgs (fuel : ℕ) : ℕ → ℕ → Mem → Exec (List ℕ × Mem)
  | 0, _, m => return ([], m)
  | k + 1, str, m => do
    let (str, m) ← getNextArg fuel m str
    let (args, m) ← collectArgs fuel k str m
    return (str :: args, m)

/-- The part of `run_shell` between `read` and the commands: `arguments` up to the null pointer, and
the buffer. -/
def splitLine (fuel : ℕ) (m : Mem) : Exec (List ℕ × Mem) := do
  let argc ← getArgc m fuel
  let str ← skipLeading m fuel 0
  let (args, m) ← collectArgs fuel (argc - 1) str m
  return ((str :: args).take argc, m)

/-- `buf`, after `memset` and `read`. -/
def bufferOf (line : List UInt8) : Mem := fun i => line.getD i 0

/-! ### Words -/

/-- **The words of a line**: the maximal runs of characters other than blanks. -/
def words (line : List UInt8) : List (List UInt8) := parts 32 line

theorem words_append_cons (l r : List UInt8) : words (l ++ 32 :: r) = words l ++ words r := by
  rw [words, parts, List.splitOn, List.splitOnP_append_cons l r (by rfl), List.filter_append]
  rfl

theorem words_of_noBlank {w : List UInt8} (hne : w ≠ []) (h : ∀ c ∈ w, c ≠ 32) :
    words w = [w] := by
  rw [words, parts, List.splitOn,
    List.splitOnP_eq_singleton fun c hc => beq_false_of_ne (h c hc),
    List.filter_cons_of_pos (by simpa using hne), List.filter_nil]

theorem words_cons_blank (r : List UInt8) : words (32 :: r) = words r := by
  exact words_append_cons [] r

theorem words_blanks_append {l : List UInt8} (h : ∀ c ∈ l, c = 32) (r : List UInt8) :
    words (l ++ r) = words r := by
  induction l with
  | nil => rfl
  | cons c l ih =>
    rw [h c List.mem_cons_self, List.cons_append, words_cons_blank]
    exact ih fun c' hc' => h c' (List.mem_cons_of_mem c hc')

/-! ### Strings in memory -/

section

variable {m m' : Mem} {i s fuel : ℕ} {l l' r : List UInt8} {c : UInt8}

theorem holdsString_bufferOf {line : List UInt8} (h : ∀ c ∈ line, c ≠ 0) :
    Mem.CString (bufferOf line) 0 line := by
  have hend : Mem.CString (bufferOf line) (0 + line.length) [] := by
    simp [Mem.CString, bufferOf]
  have hline := Mem.CString.append (fun k _ => by rw [Nat.zero_add, bufferOf]) h hend
  rwa [List.append_nil] at hline

/-- A loop over the characters of a string stops at the first that does not meet the condition. -/
theorem skipWhile_eq {p : UInt8 → Prop} [DecidablePred p] (h : m.CString s (l ++ r))
    (hl : ∀ c ∈ l, p c) (hr : ∀ c ∈ r.head?, ¬p c) (hfuel : l.length < fuel) :
    skipWhile p m fuel s = .ok (s + l.length) := by
  induction l generalizing s fuel with
  | nil =>
    obtain ⟨fuel, rfl⟩ : ∃ n, fuel = n + 1 := ⟨fuel - 1, by omega⟩
    rw [skipWhile, if_neg]
    · rfl
    · cases r with
      | nil => exact fun hc => hc.1 h
      | cons c r => exact fun hc => hr c rfl (h.1 ▸ hc.2)
  | cons c l ih =>
    obtain ⟨fuel, rfl⟩ : ∃ n, fuel = n + 1 := ⟨fuel - 1, by omega⟩
    have hp : m s ≠ 0 ∧ p (m s) := by
      rw [h.1]
      exact ⟨h.2.1, hl c List.mem_cons_self⟩
    rw [skipWhile, if_pos hp, ih h.2.2 (fun c' hc' => hl c' (List.mem_cons_of_mem c hc'))
      (Nat.lt_of_succ_lt_succ hfuel), List.length_cons, Nat.add_assoc, Nat.add_comm 1]

theorem strlen_eq (h : m.CString 0 l) (hfuel : l.length < fuel) :
    strlen m fuel = .ok l.length := by
  have heq := skipWhile_eq (p := fun _ => True) (r := []) (by rwa [List.append_nil])
    (fun _ _ => trivial) (fun _ hc => by cases hc) hfuel
  rwa [Nat.zero_add] at heq

/-! ### Counting -/

/-- The loop of `get_argc` with a word that has begun. -/
theorem argcStep_foldl (first ret : ℕ) (l : List UInt8) (h : m.CString (first + l.length) r) :
    ∃ st, (List.range' (first + l.length) r.length).foldl (argcStep m) (first, ret) = st ∧
      (if first + l.length + r.length - st.1 ≠ 0 then st.2 + 1 else st.2) =
        ret + (partsFrom 32 l r).length := by
  induction r generalizing first ret l with
  | nil =>
    refine ⟨(first, ret), rfl, ?_⟩
    rw [partsFrom_end]
    cases l with
    | nil => simp
    | cons c l => simp
  | cons c r ih =>
    rw [List.length_cons, List.range'_succ, List.foldl_cons, argcStep, h.1]
    by_cases hc : c = 32
    · subst hc
      obtain ⟨st, hst, hcount⟩ := ih (first + l.length + 1)
        (if first + l.length - first ≠ 0 then ret + 1 else ret) [] h.2.2
      refine ⟨st, by rw [if_pos rfl]; exact hst, ?_⟩
      rw [partsFrom_delimiter, List.length_append]
      rw [List.length_nil, Nat.add_zero, partsFrom_nil] at hcount
      rw [show first + l.length + (r.length + 1) = first + l.length + 1 + r.length by omega, hcount]
      cases l with
      | nil => simp
      | cons c l => simp; omega
    · obtain ⟨st, hst, hcount⟩ := ih first ret (l ++ [c])
        (by simpa [Nat.add_assoc] using h.2.2)
      refine ⟨st, ?_, ?_⟩
      · rw [if_neg hc]
        simpa [Nat.add_assoc] using hst
      · rw [partsFrom_cons hc, ← hcount, List.length_append, List.length_singleton,
          Nat.add_assoc first, Nat.add_assoc first, Nat.add_assoc l.length, Nat.add_comm 1]

/-- **`get_argc` counts the words.** -/
theorem getArgc_eq (h : m.CString 0 l) (hfuel : l.length < fuel) :
    getArgc m fuel = .ok (words l).length := by
  obtain ⟨st, hst, hcount⟩ := argcStep_foldl 0 0 [] h
  rw [partsFrom_nil, List.length_nil, Nat.add_zero, Nat.zero_add, Nat.zero_add] at hcount
  rw [List.length_nil, Nat.add_zero, ← List.range_eq_range'] at hst
  rw [getArgc, strlen_eq h hfuel, ok_bind, hst]
  exact congrArg Except.ok hcount

/-! ### Cutting -/

/-- A line that does not begin with a blank: a word, blanks, and the rest. -/
structure Split (line word blanks rest : List UInt8) : Prop where
  eq : line = word ++ (blanks ++ rest)
  noBlank : ∀ c ∈ word, c ≠ 32
  blank : ∀ c ∈ blanks, c = 32
  head : ∀ c ∈ rest.head?, c ≠ 32
  separated : rest ≠ [] → blanks ≠ []

theorem exists_split (line : List UInt8) : ∃ word blanks rest, Split line word blanks rest := by
  let tail := line.dropWhile (· ≠ 32)
  have htail := List.head?_dropWhile_not (fun c : UInt8 => decide (c ≠ 32)) line
  have hrest := List.head?_dropWhile_not (fun c : UInt8 => decide (c = 32)) tail
  refine ⟨line.takeWhile (· ≠ 32), tail.takeWhile (· = 32), tail.dropWhile (· = 32), ?_, ?_, ?_, ?_,
    ?_⟩
  · rw [List.takeWhile_append_dropWhile, List.takeWhile_append_dropWhile]
  · intro c hc
    simpa using List.mem_takeWhile_imp hc
  · intro c hc
    simpa using List.mem_takeWhile_imp hc
  · intro c hc
    rw [Option.mem_def.mp hc] at hrest
    exact of_decide_eq_false hrest
  · intro hne hblanks
    cases htail' : tail with
    | nil => exact hne (by rw [htail']; rfl)
    | cons c l =>
      have hc : c = 32 := by
        change line.dropWhile _ = _ at htail'
        rw [htail'] at htail
        simpa using htail
      rw [htail', List.takeWhile_cons_of_pos (by simpa using hc)] at hblanks
      cases hblanks

section

variable {line word blanks rest : List UInt8}

theorem Split.words_eq (h : Split line word blanks rest) (hword : word ≠ []) :
    words line = word :: words rest := by
  have hw : words word = [word] := words_of_noBlank hword h.noBlank
  rw [h.eq]
  cases hb : blanks with
  | nil =>
    have hrest : rest = [] := not_not.mp fun hne => h.separated hne hb
    rw [hrest, List.append_nil, List.append_nil, hw]
    rfl
  | cons c b =>
    have hc : c = 32 := h.blank c (hb ▸ List.mem_cons_self)
    rw [hc, List.cons_append, words_append_cons, hw, words_blanks_append fun c' hc' =>
      h.blank c' (hb ▸ List.mem_cons_of_mem c hc')]
    rfl

/-- A line that does not begin with a blank has a word. -/
theorem Split.word_ne_nil (h : Split line word blanks rest) (hline : line ≠ [])
    (hhead : ∀ c ∈ line.head?, c ≠ 32) : word ≠ [] := by
  rintro rfl
  rw [h.eq, List.nil_append] at hhead hline
  cases hb : blanks with
  | nil =>
    have hrest : rest = [] := not_not.mp fun hne => h.separated hne hb
    exact hline (by rw [hb, hrest, List.append_nil])
  | cons c b =>
    refine hhead c (by rw [hb]; rfl) (h.blank c (hb ▸ List.mem_cons_self))

theorem words_ne_nil (hline : line ≠ []) (hhead : ∀ c ∈ line.head?, c ≠ 32) : words line ≠ [] := by
  obtain ⟨word, blanks, rest, hsplit⟩ := exists_split line
  rw [hsplit.words_eq (hsplit.word_ne_nil hline hhead)]
  exact List.cons_ne_nil _ _

/-- What is left of the last word. -/
theorem Split.blanks_eq_nil_iff (h : Split line word blanks []) :
    blanks = [] ↔ line.getLast? ≠ some 32 := by
  rw [h.eq, List.append_nil]
  cases hb : blanks with
  | nil =>
    refine iff_of_true rfl fun hlast => ?_
    rw [List.append_nil] at hlast
    exact h.noBlank 32 (List.mem_of_getLast? hlast) rfl
  | cons c b =>
    refine iff_of_false (List.cons_ne_nil c b) (not_not.mpr ?_)
    rw [List.getLast?_append_of_ne_nil _ (List.cons_ne_nil c b),
      List.getLast?_eq_some_getLast (List.cons_ne_nil c b)]
    refine congrArg some (h.blank _ ?_)
    rw [hb]
    exact List.getLast_mem _

/-- **One call of `get_next_arg`**: the word is cut off, and the result is the rest. -/
theorem getNextArg_eq (h : Split line word blanks rest) (hs : m.CString s line)
    (hrest : rest ≠ []) (hfuel : line.length < fuel) :
    getNextArg fuel m s =
      .ok (s + word.length + blanks.length, update m (s + word.length) 0) := by
  obtain ⟨b, rfl⟩ : ∃ b, blanks = 32 :: b := by
    cases hb : blanks with
    | nil => exact absurd hb (h.separated hrest)
    | cons c b => exact ⟨b, by rw [h.blank c (hb ▸ List.mem_cons_self)]⟩
  have hlen : line.length = word.length + (b.length + 1 + rest.length) := by
    rw [h.eq, List.length_append, List.length_append, List.length_cons]
  have hword : skipWhile (· ≠ 32) m fuel s = .ok (s + word.length) := by
    refine skipWhile_eq (h.eq ▸ hs) h.noBlank (fun c hc => ?_) (by omega)
    cases hc
    exact not_not.mpr rfl
  have htail : Mem.CString (update m (s + word.length) 0) (s + word.length + 1)
      (b ++ rest) := by
    have hm : m.CString (s + word.length) (32 :: (b ++ rest)) :=
      Mem.CString.tail (l := word) (h.eq ▸ hs)
    exact hm.2.2.congr fun k _ => update_of_ne (by omega) _ _
  have hblanks : skipWhile (· = 32) _ fuel _ = _ := skipWhile_eq htail
    (fun c hc => h.blank c (List.mem_cons_of_mem 32 hc)) h.head (by omega)
  rw [getNextArg, hword, ok_bind]
  dsimp only
  rw [hblanks, ok_bind, List.length_cons, Nat.add_assoc (s + _) 1, Nat.add_comm 1]
  rfl

end

/-- **The loop over the words**, from the beginning of one on. Every word is cut off but the last
one, which goes up to the end of the line. -/
theorem collectArgs_of_words (fuel k : ℕ) {line : List UInt8} (hline : line ≠ [])
    (hhead : ∀ c ∈ line.head?, c ≠ 32) (hk : (words line).length = k + 1)
    (hs : m.CString s line) (hfuel : line.length < fuel) :
    ∃ args m' init last trail, collectArgs fuel k s m = .ok (args, m') ∧
      (∀ x < s, m' x = m x) ∧ words line = init ++ [last] ∧
      List.Forall₂ m'.CString (s :: args) (init ++ [last ++ trail]) ∧
      (trail = [] ↔ line.getLast? ≠ some 32) := by
  induction k generalizing line s m with
  | zero =>
    obtain ⟨word, blanks, rest, hsplit⟩ := exists_split line
    have hword := hsplit.word_ne_nil hline hhead
    rw [hsplit.words_eq hword, List.length_cons] at hk
    have hrest : rest = [] := not_not.mp fun hne =>
      words_ne_nil hne hsplit.head (List.eq_nil_of_length_eq_zero (Nat.succ.inj hk))
    subst hrest
    refine ⟨[], m, [], word, blanks, rfl, fun _ _ => rfl, hsplit.words_eq hword, ?_,
      hsplit.blanks_eq_nil_iff⟩
    have hall : line = word ++ blanks := by rw [hsplit.eq, List.append_nil]
    exact .cons (hall ▸ hs) .nil
  | succ k ih =>
    obtain ⟨word, blanks, rest, hsplit⟩ := exists_split line
    have hword := hsplit.word_ne_nil hline hhead
    have hwords := hsplit.words_eq hword
    rw [hwords, List.length_cons] at hk
    have hrest : rest ≠ [] := by
      rintro rfl
      cases hk
    have hlen : line.length = word.length + (blanks.length + rest.length) := by
      rw [hsplit.eq, List.length_append, List.length_append]
    have hblanks : 0 < blanks.length := List.length_pos_iff.mpr (hsplit.separated hrest)
    have hs' : m.CString s (word ++ (blanks ++ rest)) := hsplit.eq ▸ hs
    -- The zero that cuts off the word is written over the first blank, in front of the rest.
    have hnext : Mem.CString (update m (s + word.length) 0)
        (s + word.length + blanks.length) rest :=
      hs'.tail.tail.congr fun k _ => update_of_ne (by omega) _ _
    obtain ⟨args, m', init, last, trail, hrun, hframe, heq, hargs, htrail⟩ :=
      ih hrest hsplit.head (Nat.succ.inj hk) hnext (by omega)
    refine ⟨(s + word.length + blanks.length) :: args, m', word :: init, last, trail, ?_,
      fun x hx => ?_, ?_, ?_, ?_⟩
    · rw [collectArgs, getNextArg_eq hsplit hs hrest hfuel, ok_bind]
      dsimp only
      rw [hrun]
      rfl
    · rw [hframe x (by omega), update_of_ne (by omega)]
    · rw [hwords, heq, List.cons_append]
    · exact .cons (hs'.cut.congr fun k hk => hframe (s + k) (by omega)) hargs
    · rw [htrail, hsplit.eq, ← List.append_assoc, List.getLast?_append_of_ne_nil _ hrest]

/-! ### The line -/

theorem skipLeading_eq (h : m.CString s (l ++ r)) (hl : ∀ c ∈ l, c = 32)
    (hr : ∀ c ∈ r.head?, c ≠ 32) (hsize : s + l.length ≤ bufSize) (hfuel : l.length < fuel) :
    skipLeading m fuel s = .ok (s + l.length) := by
  induction l generalizing s fuel with
  | nil =>
    obtain ⟨fuel, rfl⟩ : ∃ n, fuel = n + 1 := ⟨fuel - 1, by omega⟩
    rw [skipLeading, if_neg]
    · rfl
    · cases r with
      | nil => exact fun hc => hc.1 h
      | cons c r => exact fun hc => hr c rfl (h.1 ▸ hc.2.1)
  | cons c l ih =>
    obtain ⟨fuel, rfl⟩ : ∃ n, fuel = n + 1 := ⟨fuel - 1, by omega⟩
    rw [List.length_cons] at hsize
    have hp : m s ≠ 0 ∧ m s = 32 ∧ s < bufSize := by
      rw [h.1]
      exact ⟨h.2.1, hl c List.mem_cons_self, by omega⟩
    rw [skipLeading, if_pos hp, ih h.2.2 (fun c' hc' => hl c' (List.mem_cons_of_mem c hc'))
      (by omega) (Nat.lt_of_succ_lt_succ hfuel), List.length_cons, Nat.add_assoc, Nat.add_comm 1]

end

theorem forall₂_holdsString_unique {m : Mem} {args : List ℕ} {ws ws' : List (List UInt8)}
    (h : List.Forall₂ m.CString args ws) (h' : List.Forall₂ m.CString args ws') :
    ws = ws' := by
  induction h generalizing ws' with
  | nil =>
    cases h'
    rfl
  | cons hw _ ih =>
    obtain _ | ⟨hw', hrest⟩ := h'
    rw [hw.unique hw', ih hrest]

/-- What the shell does with a line that has a word. -/
theorem exists_splitLine {line lead rest : List UInt8} {fuel : ℕ} (hline : ∀ c ∈ line, c ≠ 0)
    (hlen : line.length ≤ 255) (hfuel : line.length < fuel) (heq : line = lead ++ rest)
    (hlead : ∀ c ∈ lead, c = 32) (hhead : ∀ c ∈ rest.head?, c ≠ 32) (hrest : rest ≠ []) :
    ∃ args m init last trail, splitLine fuel (bufferOf line) = .ok (args, m) ∧
      words line = init ++ [last] ∧
      List.Forall₂ m.CString args (init ++ [last ++ trail]) ∧
      (trail = [] ↔ line.getLast? ≠ some 32) := by
  have hbuf := holdsString_bufferOf hline
  have hbuf' : Mem.CString (bufferOf line) 0 (lead ++ rest) := heq ▸ hbuf
  have hwords : words line = words rest := by rw [heq, words_blanks_append hlead]
  have hsum : line.length = lead.length + rest.length := by rw [heq, List.length_append]
  obtain ⟨k, hk⟩ := Nat.exists_eq_succ_of_ne_zero
    (mt List.eq_nil_of_length_eq_zero (words_ne_nil hrest hhead))
  have hstr : skipLeading _ fuel 0 = _ := skipLeading_eq hbuf' hlead hhead
    (by rw [bufSize]; omega) (by omega)
  obtain ⟨args, m, init, last, trail, hrun, -, hlast, hargs, htrail⟩ :=
    collectArgs_of_words fuel k hrest hhead hk hbuf'.tail (by omega)
  refine ⟨(0 + lead.length) :: args, m, init, last, trail, ?_, hwords.trans hlast, hargs, ?_⟩
  · have hcount : ((0 + lead.length) :: args).length = k + 1 := by
      rw [hlast, List.length_append] at hk
      rw [hargs.length_eq, List.length_append]
      exact hk
    rw [splitLine, getArgc_eq hbuf hfuel, ok_bind, hstr, ok_bind, hwords, hk, Nat.succ_sub_one, hrun,
      ok_bind]
    dsimp only
    rw [List.take_of_length_le hcount.le]
    rfl
  · rw [htrail, heq, List.getLast?_append_of_ne_nil _ hrest]

/-- **When the shell splits a line into its words.** Exactly if it has none or does not end with a
blank. -/
theorem splitLine_iff {line : List UInt8} {fuel : ℕ} (hline : ∀ c ∈ line, c ≠ 0)
    (hlen : line.length ≤ 255) (hfuel : line.length < fuel) :
    (∃ args m, splitLine fuel (bufferOf line) = .ok (args, m) ∧
      List.Forall₂ m.CString args (words line)) ↔
      (words line = [] ∨ line.getLast? ≠ some 32) := by
  have heq : line = line.takeWhile (· = 32) ++ line.dropWhile (· = 32) :=
    List.takeWhile_append_dropWhile.symm
  have hlead : ∀ c ∈ line.takeWhile (· = 32), c = 32 := fun c hc => by
    simpa using List.mem_takeWhile_imp hc
  have hhead : ∀ c ∈ (line.dropWhile (· = 32)).head?, c ≠ 32 := fun c hc => by
    have hnot := List.head?_dropWhile_not (fun c : UInt8 => decide (c = 32)) line
    rw [Option.mem_def.mp hc] at hnot
    exact of_decide_eq_false hnot
  generalize line.takeWhile (· = 32) = lead at heq hlead
  generalize line.dropWhile (· = 32) = rest at heq hhead
  by_cases hrest : rest = []
  · -- There are blanks only, and no pointer.
    subst hrest
    rw [List.append_nil] at heq
    subst heq
    have hnone : words line = [] := by
      have happend := words_blanks_append hlead []
      rwa [List.append_nil] at happend
    refine iff_of_true ⟨[], bufferOf line, ?_, by rw [hnone]; exact .nil⟩ (.inl hnone)
    have hbuf := holdsString_bufferOf hline
    have hstr : skipLeading _ fuel 0 = _ := skipLeading_eq (r := []) (by rwa [List.append_nil])
      hlead hhead (by rw [bufSize]; omega) hfuel
    rw [splitLine, getArgc_eq hbuf hfuel, ok_bind, hstr, ok_bind, hnone]
    rfl
  · obtain ⟨args, m, init, last, trail, hrun, hlast, hargs, htrail⟩ :=
      exists_splitLine hline hlen hfuel heq hlead hhead hrest
    have hsome : words line ≠ [] := by
      rw [hlast]
      exact List.append_ne_nil_of_right_ne_nil _ (List.cons_ne_nil _ _)
    rw [or_iff_right hsome, ← htrail, hrun]
    constructor
    · rintro ⟨args', m', hok, hwords⟩
      cases hok
      have hsame := forall₂_holdsString_unique hargs hwords
      rw [hlast] at hsame
      simpa using hsame
    · rintro rfl
      rw [List.append_nil] at hargs
      exact ⟨args, m, rfl, hlast ▸ hargs⟩

/-- "ls -l" -/
theorem splitLine_two_words :
    ∃ args m, splitLine 6 (bufferOf [108, 115, 32, 45, 108]) = .ok (args, m) ∧
      List.Forall₂ m.CString args (words [108, 115, 32, 45, 108]) :=
  (splitLine_iff (by simp) (by decide) (by decide)).mpr (.inr (by decide))

/-- "ls ", with a blank behind the word: the argument is "ls " as well. -/
theorem splitLine_trailing_blank :
    words [108, 115, 32] = [[108, 115]] ∧
      ∃ m, splitLine 4 (bufferOf [108, 115, 32]) = .ok ([0], m) ∧
        m.CString 0 [108, 115, 32] ∧
        ¬List.Forall₂ m.CString [0] (words [108, 115, 32]) := by
  have hwords : words [108, 115, 32] = [[108, 115]] := by decide
  have hbuf : Mem.CString (bufferOf [108, 115, 32]) 0 [108, 115, 32] :=
    holdsString_bufferOf (by simp)
  refine ⟨hwords, bufferOf [108, 115, 32], ?_, hbuf, fun h => ?_⟩
  · rw [splitLine, getArgc_eq hbuf (by decide), hwords]
    rfl
  · rw [hwords] at h
    obtain _ | ⟨hw, -⟩ := h
    cases hw.unique hbuf

end Valkyrie.Shell
