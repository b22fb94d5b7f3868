import Valkyrie.Lib.Atoi

/-!
# Bounded copies and comparisons

`strncpy` of `lib/CString.cc` copies as many characters as it is told, or up to the end of the
string, and then it writes a zero in any case. So it writes one byte more than its bound if the
string is not shorter than that (`Valkyrie.CLib.strncpyStores_within_iff`).

Two kinds of callers give it the length of the string, and an array that has no place for the zero.
`VFS::read` copies the name of a child to a record of 256 bytes; it takes the smaller of the two
lengths, which is the length of the name as long as that is smaller than 256, and then there is a
place. The files of `ProcFS` allocate as many bytes as the text has, and there is never one
(`Valkyrie.CLib.copiesWithin_iff`).
-/

namespace Valkyrie.CLib

open Exec

/-- The stores of `strncpy`, from one address to another. -/
def strncpyStores (m : Mem) (src dest : ℕ) : ℕ → List (ℕ × UInt8)
  | 0 => [(dest, 0)]
  | n + 1 =>
    if m src = 0 then [(dest, 0)]
    else (dest, m src) :: strncpyStores m (src + 1) (dest + 1) n

/-- **All stores are within an array**, at this address and with so many bytes. -/
def Within (stores : List (ℕ × UInt8)) (a n : ℕ) : Prop := ∀ st ∈ stores, a ≤ st.1 ∧ st.1 < a + n

variable {m : Mem} {s : List UInt8} {src dest n : ℕ}

/-- The places where `strncpy` stores something. -/
theorem map_fst_strncpyStores (hs : m.CString src s) (dest n : ℕ) :
    (strncpyStores m src dest n).map Prod.fst = List.range' dest (min s.length n + 1) := by
  induction n generalizing src dest s with
  | zero =>
    rw [Nat.min_zero]
    rfl
  | succ n ih =>
    cases s with
    | nil =>
      rw [strncpyStores, if_pos (show m src = 0 from hs), List.length_nil, Nat.zero_min]
      rfl
    | cons c s =>
      have hne : m src ≠ 0 := hs.1 ▸ hs.2.1
      rw [strncpyStores, if_neg hne, List.map_cons, ih hs.2.2, List.length_cons,
        Nat.succ_min_succ]
      rfl

/-- **`strncpy` stays within its bound** if the string is shorter than that. -/
theorem strncpyStores_within_iff (hs : m.CString src s) (dest n k : ℕ) :
    Within (strncpyStores m src dest n) dest k ↔ min s.length n < k := by
  have hmem : ∀ x, (∃ b, (x, b) ∈ strncpyStores m src dest n) ↔
      dest ≤ x ∧ x < dest + (min s.length n + 1) := by
    intro x
    rw [← List.mem_range'_1, ← map_fst_strncpyStores hs]
    simp
  constructor
  · intro h
    obtain ⟨b, hb⟩ := (hmem (dest + min s.length n)).mpr ⟨by omega, by omega⟩
    have hlt := (h _ hb).2
    dsimp only at hlt
    omega
  · rintro h ⟨x, b⟩ hx
    have hx := (hmem x).mp ⟨b, hx⟩
    exact ⟨hx.1, by dsimp only; omega⟩

theorem le_of_mem_strncpyStores {st : ℕ × UInt8} (h : st ∈ strncpyStores m src dest n) :
    dest ≤ st.1 := by
  induction n generalizing src dest with
  | zero => exact (List.mem_singleton.mp h) ▸ le_rfl
  | succ n ih =>
    rw [strncpyStores] at h
    split_ifs at h
    · exact (List.mem_singleton.mp h) ▸ le_rfl
    · rcases List.mem_cons.mp h with rfl | h
      · exact le_rfl
      · exact (Nat.le_succ dest).trans (ih h)

/-- **What is copied** if there are as many characters as the bound says, whatever is behind them. -/
theorem cString_strncpyStores (m' : Mem) (hl : m.HasBytes src s) (hne : 0 ∉ s) :
    (replayBytes (strncpyStores m src dest s.length) m').CString dest s := by
  induction s generalizing src dest m' with
  | nil => exact Function.update_self dest 0 m'
  | cons c s ih =>
    obtain ⟨hc, hs⟩ := Mem.hasBytes_cons.mp hl
    obtain ⟨hc0, hne⟩ := not_or.mp (mt List.mem_cons.mpr hne)
    rw [List.length_cons, strncpyStores, if_neg fun h => hc0 (h.symm.trans hc)]
    refine ⟨?_, fun h => hc0 h.symm, ih _ hs hne⟩
    have hlt : ∀ st ∈ strncpyStores m (src + 1) (dest + 1) s.length, dest < st.1 :=
      fun _ hst => le_of_mem_strncpyStores hst
    exact (replayBytes_of_lt hlt).trans ((Function.update_self dest _ m').trans hc)

/-! ### Comparing -/

/-- `strncmp`, of what is in two memories. -/
def strncmp (m m' : Mem) (s1 s2 : ℕ) : ℕ → ℤ
  | 0 => 0
  | n + 1 =>
    if m s1 = 0 ∧ m' s2 = 0 then 0
    else if m s1 = m' s2 then strncmp m m' (s1 + 1) (s2 + 1) n
    else (m s1).toNat - (m' s2).toNat

/-- A string literal, at address 0 of a memory of its own. -/
def literal (s : List UInt8) : Mem := Mem.put (fun _ => 0) 0 s

/-- **A comparison with a literal** looks for its bytes. -/
theorem strncmp_literal_eq_zero_iff (hs : 0 ∉ s) :
    strncmp m (literal s) src 0 s.length = 0 ↔ m.HasBytes src s := by
  suffices h : ∀ n k, n + k = s.length →
      (strncmp m (literal s) (src + k) k n = 0 ↔ ∀ j < n, m (src + k + j) = s.getD (k + j) 0) by
    have h0 := h s.length 0 rfl
    simp only [Nat.add_zero, Nat.zero_add] at h0
    exact h0
  have hlit : ∀ k < s.length, literal s k = s.getD k 0 ∧ literal s k ≠ 0 := by
    intro k hk
    have hEq : literal s k = s.get ⟨k, hk⟩ := by
      have hput := Mem.put_add (m := fun _ => 0) (a := 0) (List.getElem?_eq_getElem hk)
      rwa [Nat.zero_add] at hput
    refine ⟨hEq.trans (List.getElem_eq_getD 0), fun h => hs ?_⟩
    exact (hEq.symm.trans h) ▸ List.get_mem s ⟨k, hk⟩
  intro n
  induction n with
  | zero => exact fun k _ => iff_of_true rfl fun j hj => absurd hj (Nat.not_lt_zero j)
  | succ n ih =>
    intro k hk
    obtain ⟨hEq, hne⟩ := hlit k (by omega)
    rw [strncmp, if_neg fun h => hne h.2]
    by_cases hm : m (src + k) = literal s k
    · rw [if_pos hm, Nat.add_assoc, ih (k + 1) (by omega)]
      constructor
      · rintro h (_ | j) hj
        · exact hm.trans hEq
        · have hstep := h j (Nat.lt_of_succ_lt_succ hj)
          rwa [show src + (k + 1) + j = src + k + (j + 1) by omega,
            show k + 1 + j = k + (j + 1) by omega] at hstep
      · intro h j hj
        have hstep := h (j + 1) (Nat.succ_lt_succ hj)
        rwa [show src + (k + 1) + j = src + k + (j + 1) by omega,
          show k + 1 + j = k + (j + 1) by omega]
    · rw [if_neg hm]
      refine iff_of_false (fun h => hm ?_) fun h => hm ((h 0 (Nat.succ_pos n)).trans hEq.symm)
      exact UInt8.toNat_inj.mp (by omega)

/-! ### The callers -/

/-- `NAME_LEN`, the size of the only field of a `DirectoryEntry`. -/
def nameLen : ℕ := 256

/-- **The copy of `VFS::read`** to the record at `e`: the name of the child at a position of a
directory. The first two are `.` and `..`. The name of another child is read from where the `String`
was that `get_name` returns, and `s` below is what is there at that time. -/
def readStores (m : Mem) (fuel dot dotdot childName pos e : ℕ) : Exec (List (ℕ × UInt8)) := do
  let name := if pos = 0 then dot else if pos = 1 then dotdot else childName
  return strncpyStores m name e (min (← strlen m fuel name) nameLen)

/-- The copy to a buffer that was allocated with the length of the text, and the length. -/
def contentStores (m : Mem) (fuel text content : ℕ) : Exec (List (ℕ × UInt8) × ℕ) := do
  let len ← strlen m fuel text
  return (strncpyStores m text content len, len)

/-- `BuddyInfoInode::get_content`, with the text of the allocator. -/
def buddyInfoStores (m : Mem) (fuel info content : ℕ) : Exec (List (ℕ × UInt8) × ℕ) :=
  contentStores m fuel info content

/-- `SlobInfoInode::get_content`, with the text of the allocator. -/
def slobInfoStores (m : Mem) (fuel info content : ℕ) : Exec (List (ℕ × UInt8) × ℕ) :=
  contentStores m fuel info content

/-- `"HELLO\n"`. -/
def upperHello : List UInt8 := [72, 69, 76, 76, 79, 10]

/-- `"hello\n"`. -/
def lowerHello : List UInt8 := [104, 101, 108, 108, 111, 10]

/-- `HelloInode::get_content`, with the text at an address. Its buffer has the constant `len` of
bytes, which is 6. -/
def helloStores (isSwitchOn : Bool) (text content : ℕ) : List (ℕ × UInt8) × ℕ :=
  let hello := if isSwitchOn then upperHello else lowerHello
  (strncpyStores (Mem.put (fun _ => 0) text (hello ++ [0])) text content 6, 6)

theorem readStores_of_name (hs : m.CString src s) {fuel : ℕ} (hfuel : s.length < fuel)
    (dot dotdot childName pos e : ℕ)
    (hname : (if pos = 0 then dot else if pos = 1 then dotdot else childName) = src) :
    readStores m fuel dot dotdot childName pos e =
      .ok (strncpyStores m src e (min s.length nameLen)) := by
  rw [readStores, hname, strlen_eq hs hfuel]
  rfl

theorem contentStores_eq (hs : m.CString src s) {fuel : ℕ} (hfuel : s.length < fuel)
    (content : ℕ) : contentStores m fuel src content =
      .ok (strncpyStores m src content s.length, s.length) := by
  rw [contentStores, strlen_eq hs hfuel]
  rfl

/-- **The name of a child** fits into the record if it is shorter than that, and the two names that
are not a child's do in any case. -/
theorem readStores_within_iff {dot dotdot : ℕ} (hdot : m.CString dot [46])
    (hdotdot : m.CString dotdot [46, 46]) (hs : m.CString src s) (pos e : ℕ) :
    ∃ bound, ∀ fuel, bound < fuel → ∃ stores, readStores m fuel dot dotdot src pos e = .ok stores ∧
      (Within stores e nameLen ↔ pos < 2 ∨ s.length < nameLen) := by
  rcases pos with _ | _ | pos
  · refine ⟨1, fun fuel hfuel => ⟨_, readStores_of_name hdot hfuel _ _ _ _ _ (if_pos rfl), ?_⟩⟩
    rw [strncpyStores_within_iff hdot]
    exact iff_of_true (by decide) (Or.inl (by decide))
  · refine ⟨2, fun fuel hfuel => ⟨_, readStores_of_name hdotdot hfuel _ _ _ _ _ rfl, ?_⟩⟩
    rw [strncpyStores_within_iff hdotdot]
    exact iff_of_true (by decide) (Or.inl (by decide))
  · refine ⟨s.length, fun fuel hfuel => ⟨_, readStores_of_name hs hfuel _ _ _ _ _ rfl, ?_⟩⟩
    rw [strncpyStores_within_iff hs]
    omega

/-- A buffer with the length of the text has no place for the zero. -/
theorem not_within_contentStores (hs : m.CString src s) (content : ℕ) :
    ∃ bound, ∀ fuel, bound < fuel → ∃ stores len,
      contentStores m fuel src content = .ok (stores, len) ∧ ¬Within stores content len := by
  refine ⟨s.length, fun fuel hfuel => ⟨_, _, contentStores_eq hs hfuel content, ?_⟩⟩
  rw [strncpyStores_within_iff hs]
  omega

theorem not_within_helloStores (isSwitchOn : Bool) (text content : ℕ) :
    ¬Within (helloStores isSwitchOn text content).1 content
      (helloStores isSwitchOn text content).2 := by
  have hzero : 0 ∉ if isSwitchOn then upperHello else lowerHello := by
    cases isSwitchOn <;> decide
  have hlen : (if isSwitchOn then upperHello else lowerHello).length = 6 := by
    cases isSwitchOn <;> rfl
  rw [helloStores, strncpyStores_within_iff (Mem.cString_put _ hzero), hlen]
  exact lt_irrefl 6

/-- **Which copies are within their arrays.** A copy with a bound is if the string is shorter than
the bound. The record of `VFS::read` takes all names that are shorter than the record. The buffers of
the three files of `ProcFS` are written past their end by every text. -/
theorem copiesWithin_iff {dot dotdot : ℕ} (hdot : m.CString dot [46])
    (hdotdot : m.CString dotdot [46, 46]) (hs : m.CString src s) (dest n pos : ℕ) :
    (Within (strncpyStores m src dest n) dest n ↔ s.length < n) ∧
    (∃ bound, ∀ fuel, bound < fuel → ∃ stores,
      readStores m fuel dot dotdot src pos dest = .ok stores ∧
        (Within stores dest nameLen ↔ pos < 2 ∨ s.length < nameLen)) ∧
    (∃ bound, ∀ fuel, bound < fuel → ∃ stores len,
      buddyInfoStores m fuel src dest = .ok (stores, len) ∧ ¬Within stores dest len) ∧
    (∃ bound, ∀ fuel, bound < fuel → ∃ stores len,
      slobInfoStores m fuel src dest = .ok (stores, len) ∧ ¬Within stores dest len) ∧
    ∀ isSwitchOn text, ¬Within (helloStores isSwitchOn text dest).1 dest
      (helloStores isSwitchOn text dest).2 := by
  refine ⟨?_, readStores_within_iff hdot hdotdot hs pos dest, not_within_contentStores hs dest,
    not_within_contentStores hs dest, fun on text => not_within_helloStores on text dest⟩
  rw [strncpyStores_within_iff hs]
  omega

/-- A text of four characters, and the names `.` and `..`. -/
theorem copiesWithin_four :
    ¬Within (strncpyStores (Mem.put (fun _ => 0) 0 [46, 0, 46, 46, 0, 97, 98, 99, 100]) 5 16 4) 16 4 := by
  have h := (copiesWithin_iff
    (show (Mem.put (fun _ => 0) 0 [46, 0, 46, 46, 0, 97, 98, 99, 100]).CString 0 [46] by decide)
    (show (Mem.put (fun _ => 0) 0 [46, 0, 46, 46, 0, 97, 98, 99, 100]).CString 2 [46, 46] by decide)
    (show (Mem.put (fun _ => 0) 0 [46, 0, 46, 46, 0, 97, 98, 99, 100]).CString 5 [97, 98, 99, 100]
      by decide) 16 4 0).1
  exact fun hw => absurd (h.mp hw) (by decide)

/-- **The file `hello` is read** while the switch is off: the seventh byte of its six is written. -/
theorem helloStores_past_end :
    (4102, 0) ∈ (helloStores false 16 4096).1 ∧ (helloStores false 16 4096).2 = 6 := by
  decide +kernel

end Valkyrie.CLib
