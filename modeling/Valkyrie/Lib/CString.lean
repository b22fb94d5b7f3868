import Valkyrie.Base.ByteMem
import Valkyrie.Base.Exec

/-!
# Strings that end with a zero

`lib/CString.cc`, and the constructor of `lib/String.h` that copies such a string. A string is
found at an address if its bytes are there, none of them zero, and a zero behind them; so there
is at most one at each address (`Valkyrie.Mem.CString.unique`), and reading finds it
(`Valkyrie.readString_eq_ok_iff`).
-/

namespace Valkyrie

open Function

/-- **The string at an address**: its bytes, and a zero behind them. -/
def Mem.CString (m : Mem) : ℕ → List UInt8 → Prop
  | a, [] => m a = 0
  | a, b :: s => m a = b ∧ b ≠ 0 ∧ m.CString (a + 1) s

instance Mem.CString.instDecidable (m : Mem) : (a : ℕ) → (s : List UInt8) →
    Decidable (m.CString a s)
  | a, [] => inferInstanceAs (Decidable (m a = 0))
  | a, b :: s =>
    have := Mem.CString.instDecidable m (a + 1) s
    inferInstanceAs (Decidable (m a = b ∧ b ≠ 0 ∧ m.CString (a + 1) s))

/-- `String(const char *)`: the bytes up to the first zero. -/
def readString (m : Mem) : ℕ → ℕ → Exec (List UInt8)
  | 0, _ => .error .outOfFuel
  | fuel + 1, a =>
    if m a = 0 then return []
    else do
      let s ← readString m fuel (a + 1)
      return m a :: s

variable {m m' : Mem} {s t : List UInt8} {a fuel : ℕ}

/-- There is one string at an address. -/
theorem Mem.CString.unique : ∀ {s t : List UInt8} {a : ℕ}, m.CString a s → m.CString a t → s = t
  | [], [], _, _, _ => rfl
  | [], _ :: _, _, h, h' => absurd (h'.1.symm.trans h) h'.2.1
  | _ :: _, [], _, h, h' => absurd (h.1.symm.trans h') h.2.1
  | b :: s, c :: t, _, h, h' => by
    obtain rfl : b = c := h.1.symm.trans h'.1
    rw [CString.unique h.2.2 h'.2.2]

theorem Mem.CString.zero_notMem : ∀ {s : List UInt8} {a : ℕ}, m.CString a s → 0 ∉ s
  | [], _, _ => List.not_mem_nil
  | _ :: _, _, h => fun hin =>
    (List.mem_cons.mp hin).elim (fun hEq => h.2.1 hEq.symm) h.2.2.zero_notMem

/-- A string is made of its bytes and the zero. -/
theorem Mem.CString.congr : ∀ {s : List UInt8} {a : ℕ}, m.CString a s →
    (∀ k ≤ s.length, m' (a + k) = m (a + k)) → m'.CString a s
  | [], _, h, hagree => (hagree 0 (Nat.le_refl 0)).trans h
  | b :: s, a, h, hagree => by
    refine ⟨(hagree 0 (Nat.zero_le _)).trans h.1, h.2.1, h.2.2.congr fun k hk => ?_⟩
    have hnext := hagree (k + 1) (Nat.succ_le_succ hk)
    rwa [Nat.add_comm k 1, ← Nat.add_assoc] at hnext

section

variable {i : ℕ} {l r : List UInt8}

/-- A string in two parts. -/
theorem Mem.CString.append
    (hl : ∀ k < l.length, m (i + k) = l.getD k 0) (hne : ∀ b ∈ l, b ≠ 0)
    (hs : m.CString (i + l.length) r) : m.CString i (l ++ r) := by
  induction l generalizing i with
  | nil => exact hs
  | cons b l ih =>
    refine ⟨hl 0 (Nat.succ_pos _), hne b List.mem_cons_self, ih (fun k hk => ?_)
      (fun b' hb' => hne b' (List.mem_cons_of_mem b hb')) ?_⟩
    · have hnext := hl (k + 1) (Nat.succ_lt_succ hk)
      rwa [Nat.add_comm k 1, ← Nat.add_assoc, Nat.add_comm 1 k, List.getD_cons_succ] at hnext
    · rwa [List.length_cons, Nat.add_comm l.length, ← Nat.add_assoc] at hs

theorem Mem.CString.tail (h : m.CString i (l ++ r)) : m.CString (i + l.length) r := by
  induction l generalizing i with
  | nil => exact h
  | cons c l ih =>
    have htail := ih h.2.2
    rwa [Nat.add_assoc, Nat.add_comm 1] at htail

/-- A null character ends the string earlier. -/
theorem Mem.CString.cut (h : m.CString i (l ++ r)) :
    Mem.CString (update m (i + l.length) 0) i l := by
  induction l generalizing i with
  | nil => exact update_self i 0 m
  | cons c l ih =>
    have hrest := ih h.2.2
    rw [Nat.add_assoc, Nat.add_comm 1] at hrest
    refine ⟨?_, h.2.1, hrest⟩
    rw [update_of_ne (by rw [List.length_cons]; omega)]
    exact h.1

end

theorem Mem.CString.of_hasBytes (h : m.HasBytes i (l ++ [0])) (hl : 0 ∉ l) : m.CString i l := by
  induction l generalizing i with
  | nil => exact h 0 Nat.one_pos
  | cons c l ih =>
    obtain ⟨hc, hl⟩ := not_or.mp (mt List.mem_cons.mpr hl)
    obtain ⟨hi, h⟩ := Mem.hasBytes_cons.mp h
    exact ⟨hi, fun h0 => hc h0.symm, ih h hl⟩

/-- **The bytes at the beginning of a string** are a beginning of it. -/
theorem Mem.CString.hasBytes_iff (h : m.CString i r) (hl : 0 ∉ l) : m.HasBytes i l ↔ l <+: r := by
  induction l generalizing i r with
  | nil => exact iff_of_true (fun k hk => absurd hk (Nat.not_lt_zero k)) r.nil_prefix
  | cons c l ih =>
    obtain ⟨hc, hl⟩ := not_or.mp (mt List.mem_cons.mpr hl)
    rw [Mem.hasBytes_cons]
    cases r with
    | nil =>
      refine iff_of_false (fun hb => hc (h.symm.trans hb.1)) fun hp => ?_
      exact List.cons_ne_nil c l (List.prefix_nil.mp hp)
    | cons b r => rw [List.cons_prefix_cons, ih h.2.2 hl, h.1, eq_comm]

/-- `strcpy` leaves the string where it was copied to. -/
theorem Mem.cString_put (m : Mem) : ∀ {s : List UInt8} {a : ℕ}, 0 ∉ s →
    (m.put a (s ++ [0])).CString a s
  | [], a, _ => Mem.put_add (k := 0) rfl
  | b :: s, a, h => by
    obtain ⟨hb, hs⟩ := not_or.mp (mt List.mem_cons.mpr h)
    refine ⟨Mem.put_add (k := 0) rfl, fun hEq => hb hEq.symm, (m.cString_put hs).congr ?_⟩
    intro k hk
    obtain ⟨c, hc⟩ : ∃ c, (s ++ [0])[k]? = some c :=
      ⟨_, List.getElem?_eq_getElem (by rw [List.length_append, List.length_singleton]; omega)⟩
    rw [Mem.put_add hc, Nat.add_assoc, Nat.add_comm 1]
    exact Mem.put_add hc

/-- **What is read** is the string that is there. -/
theorem readString_eq_ok_iff : ∀ {fuel a : ℕ} {s : List UInt8},
    readString m fuel a = .ok s ↔ m.CString a s ∧ s.length < fuel
  | 0, _, s => by
    refine iff_of_false (fun h => ?_) fun h => absurd h.2 (Nat.not_lt_zero _)
    cases h
  | fuel + 1, a, [] => by
    rw [readString]
    split_ifs with ha
    · exact iff_of_true rfl ⟨ha, Nat.succ_pos fuel⟩
    · refine iff_of_false (fun h => ?_) fun h => ha h.1
      obtain ⟨s, -, h⟩ := Exec.bind_eq_ok.mp h
      cases Exec.pure_eq_ok.mp h
  | fuel + 1, a, b :: s => by
    rw [readString]
    split_ifs with ha
    · refine iff_of_false (fun h => ?_) fun h => h.1.2.1 (h.1.1.symm.trans ha)
      cases Exec.pure_eq_ok.mp h
    · constructor
      · intro h
        obtain ⟨s', hs, h⟩ := Exec.bind_eq_ok.mp h
        obtain ⟨rfl, rfl⟩ := List.cons.inj (Exec.pure_eq_ok.mp h)
        obtain ⟨hstring, hlen⟩ := readString_eq_ok_iff.mp hs
        exact ⟨⟨rfl, ha, hstring⟩, Nat.succ_lt_succ hlen⟩
      · rintro ⟨⟨rfl, -, hstring⟩, hlen⟩
        rw [readString_eq_ok_iff.mpr ⟨hstring, Nat.lt_of_succ_lt_succ hlen⟩]
        rfl

/-! ### Stores one by one -/

/-- The memory after some stores. -/
def replayBytes (stores : List (ℕ × UInt8)) (m : Mem) : Mem :=
  stores.foldl (fun m st => update m st.1 st.2) m

theorem replayBytes_append (stores stores' : List (ℕ × UInt8)) (m : Mem) :
    replayBytes (stores ++ stores') m = replayBytes stores' (replayBytes stores m) :=
  List.foldl_append

/-- Where nothing is stored, nothing changes. -/
theorem replayBytes_of_lt {stores : List (ℕ × UInt8)} {m : Mem} {x : ℕ}
    (h : ∀ st ∈ stores, x < st.1) : replayBytes stores m x = m x := by
  induction stores generalizing m with
  | nil => rfl
  | cons st stores ih =>
    have hne : x ≠ st.1 := (h st List.mem_cons_self).ne
    rw [replayBytes, List.foldl_cons]
    exact (ih fun st' hst' => h st' (List.mem_cons_of_mem st hst')).trans
      (update_of_ne hne _ _)

end Valkyrie
