import Mathlib.Data.BitVec
import Mathlib.Logic.Function.Basic
import Mathlib.Tactic

/-!
# Memory of bytes

A memory that is addressed byte by byte, and the words in it: a word of `n` bytes has its
least significant byte first. What is proved is what a program relies on. A word that was
written is read back; a word is made of the bytes at its address and of no others, so a
write somewhere else does not change it.
-/

namespace Valkyrie

/-- A memory of bytes. -/
abbrev Mem := ℕ → UInt8

namespace Mem

/-- The `n` bytes from `a` on, the first one being the least significant. -/
def readBytes (m : Mem) (a : ℕ) : (n : ℕ) → BitVec (8 * n)
  | 0 => 0
  | n + 1 => readBytes m (a + 1) n ++ (m a).toBitVec

/-- The `n` bytes from `a` on are overwritten. -/
def writeBytes (m : Mem) (a : ℕ) : (n : ℕ) → BitVec (8 * n) → Mem
  | 0, _ => m
  | n + 1, w =>
    Function.update (writeBytes m (a + 1) n (w.extractLsb' 8 (8 * n))) a ⟨w.extractLsb' 0 8⟩

/-- The 64-bit word at an address. -/
def readWord (m : Mem) (a : ℕ) : BitVec 64 := m.readBytes a 8

/-- The 64-bit word at an address is overwritten. -/
def writeWord (m : Mem) (a : ℕ) (w : BitVec 64) : Mem := m.writeBytes a 8 w

/-- `memset`. -/
def fill (m : Mem) (a n : ℕ) (b : UInt8) : Mem := fun x => if a ≤ x ∧ x < a + n then b else m x

/-- `memcpy`. -/
def copy (m : Mem) (dst src n : ℕ) : Mem := fun x =>
  if dst ≤ x ∧ x < dst + n then m (src + (x - dst)) else m x

/-- Bytes are copied in from elsewhere. -/
def put (m : Mem) (a : ℕ) (bytes : List UInt8) : Mem := fun x =>
  if a ≤ x then (bytes[x - a]?).getD (m x) else m x

variable {m m' : Mem} {a b n : ℕ}

/-- The same bytes at another address are the same word. -/
theorem readBytes_shift (h : ∀ k < n, m' (b + k) = m (a + k)) :
    m'.readBytes b n = m.readBytes a n := by
  induction n generalizing a b with
  | zero => rfl
  | succ n ih =>
    have hfirst : m' b = m a := h 0 (Nat.succ_pos n)
    have hrest : m'.readBytes (b + 1) n = m.readBytes (a + 1) n := by
      refine ih fun k hk => ?_
      have := h (k + 1) (Nat.succ_lt_succ hk)
      rwa [← Nat.add_assoc, ← Nat.add_assoc, Nat.add_right_comm, Nat.add_right_comm a] at this
    rw [readBytes, readBytes, hfirst, hrest]

/-- A word is made of its bytes. -/
theorem readBytes_congr (h : ∀ k < n, m' (a + k) = m (a + k)) :
    m'.readBytes a n = m.readBytes a n := readBytes_shift h

/-- A write does not reach beyond its bytes. -/
theorem writeBytes_of_not_mem {w : BitVec (8 * n)} (h : b < a ∨ a + n ≤ b) :
    m.writeBytes a n w b = m b := by
  induction n generalizing a with
  | zero => rfl
  | succ n ih =>
    have hne : b ≠ a := by omega
    rw [writeBytes, Function.update_of_ne hne]
    exact ih (by omega)

theorem append_extractLsb' {n : ℕ} (w : BitVec (8 * n + 8)) :
    w.extractLsb' 8 (8 * n) ++ w.extractLsb' 0 8 = w := by
  ext i hi
  simp only [BitVec.getElem_append, BitVec.getElem_extractLsb']
  split_ifs with h
  · rw [Nat.zero_add, BitVec.getLsbD_eq_getElem]
  · have hi' : 8 + (i - 8) = i := by omega
    simp only [hi', BitVec.getLsbD_eq_getElem hi]

/-- **What was written is read back.** -/
theorem readBytes_writeBytes (w : BitVec (8 * n)) : (m.writeBytes a n w).readBytes a n = w := by
  induction n generalizing a with
  | zero => exact (BitVec.of_length_zero (x := w)).symm
  | succ n ih =>
    have hrest : (m.writeBytes a (n + 1) w).readBytes (a + 1) n = w.extractLsb' 8 (8 * n) := by
      rw [← ih (a := a + 1) (w.extractLsb' 8 (8 * n))]
      refine readBytes_congr fun k _ => ?_
      exact Function.update_of_ne (by omega) ..
    have hfirst : m.writeBytes a (n + 1) w a = ⟨w.extractLsb' 0 8⟩ := Function.update_self ..
    rw [readBytes, hrest, hfirst]
    exact append_extractLsb' w

theorem readBytes_zero (h : ∀ k < n, m (a + k) = 0) : m.readBytes a n = 0 := by
  induction n generalizing a with
  | zero => rfl
  | succ n ih =>
    have hfirst : m a = 0 := h 0 (Nat.succ_pos n)
    have hrest : m.readBytes (a + 1) n = 0 := by
      refine ih fun k hk => ?_
      have := h (k + 1) (Nat.succ_lt_succ hk)
      rwa [← Nat.add_assoc, Nat.add_right_comm] at this
    rw [readBytes, hfirst, hrest]
    exact BitVec.zero_append_zero

/-! ### Words -/

theorem readWord_congr (h : ∀ k < 8, m' (a + k) = m (a + k)) : m'.readWord a = m.readWord a :=
  readBytes_congr h

@[simp] theorem readWord_writeWord_self (w : BitVec 64) : (m.writeWord a w).readWord a = w :=
  readBytes_writeBytes (n := 8) w

theorem writeWord_of_not_mem {w : BitVec 64} (h : b < a ∨ a + 8 ≤ b) : m.writeWord a w b = m b :=
  writeBytes_of_not_mem h

theorem readWord_writeWord_of_disjoint {w : BitVec 64} (h : b + 8 ≤ a ∨ a + 8 ≤ b) :
    (m.writeWord a w).readWord b = m.readWord b :=
  readWord_congr fun k hk => writeWord_of_not_mem (by omega)

theorem fill_of_not_mem {c : UInt8} (h : b < a ∨ a + n ≤ b) : m.fill a n c b = m b :=
  if_neg (by omega)

theorem fill_of_mem {c : UInt8} (h : a ≤ b ∧ b < a + n) : m.fill a n c b = c := if_pos h

theorem readWord_fill_zero (h : a ≤ b ∧ b + 8 ≤ a + n) : (m.fill a n 0).readWord b = 0 :=
  readBytes_zero fun k hk => fill_of_mem (by omega)

theorem copy_of_not_mem {dst src : ℕ} (h : b < dst ∨ dst + n ≤ b) : m.copy dst src n b = m b :=
  if_neg (by omega)

theorem copy_add {dst src k : ℕ} (hk : k < n) : m.copy dst src n (dst + k) = m (src + k) := by
  rw [copy, if_pos (by omega), Nat.add_sub_cancel_left]

theorem put_of_not_mem {bytes : List UInt8} (h : b < a ∨ a + bytes.length ≤ b) :
    m.put a bytes b = m b := by
  rw [put]
  split_ifs with ha
  · rw [List.getElem?_eq_none (by omega), Option.getD_none]
  · rfl

theorem put_add {bytes : List UInt8} {k : ℕ} {c : UInt8} (h : bytes[k]? = some c) :
    m.put a bytes (a + k) = c := by
  rw [put, if_pos (by omega), Nat.add_sub_cancel_left, h, Option.getD_some]

/-- Nothing is copied. -/
theorem put_nil : m.put a [] = m := by
  funext x
  exact put_of_not_mem (by simp; omega)

/-- **These bytes are there.** -/
def HasBytes (m : Mem) (a : ℕ) (bytes : List UInt8) : Prop :=
  ∀ k < bytes.length, m (a + k) = bytes.getD k 0

theorem hasBytes_cons {c : UInt8} {bytes : List UInt8} :
    m.HasBytes a (c :: bytes) ↔ m a = c ∧ m.HasBytes (a + 1) bytes := by
  constructor
  · intro h
    refine ⟨h 0 (Nat.succ_pos _), fun k hk => ?_⟩
    rw [Nat.add_assoc, Nat.add_comm 1]
    exact h (k + 1) (Nat.succ_lt_succ hk)
  · rintro ⟨h0, h⟩ (_ | k) hk
    · exact h0
    · rw [Nat.add_comm k, ← Nat.add_assoc, Nat.add_comm 1]
      exact h k (Nat.lt_of_succ_lt_succ hk)

theorem hasBytes_append {l r : List UInt8} :
    m.HasBytes a (l ++ r) ↔ m.HasBytes a l ∧ m.HasBytes (a + l.length) r := by
  induction l generalizing a with
  | nil => exact (and_iff_right fun k hk => absurd hk (Nat.not_lt_zero k)).symm
  | cons c l ih =>
    rw [List.cons_append, hasBytes_cons, hasBytes_cons, ih, List.length_cons, and_assoc,
      Nat.add_assoc, Nat.add_comm 1]

theorem hasBytes_put (m : Mem) (a : ℕ) (bytes : List UInt8) : (m.put a bytes).HasBytes a bytes := by
  intro k hk
  rw [put_add (List.getElem?_eq_getElem hk)]
  exact List.getElem_eq_getD 0

theorem HasBytes.eq_of_replicate {c : UInt8} {x : ℕ} (h : m.HasBytes a (List.replicate n c))
    (hx : a ≤ x ∧ x < a + n) : m x = c := by
  have hk : x - a < n := by omega
  have hEq := h (x - a) (by rwa [List.length_replicate])
  rwa [Nat.add_sub_cancel' hx.1, List.getD_eq_getElem?_getD, List.getElem?_replicate_of_lt hk] at hEq

end Mem

end Valkyrie
