import Valkyrie.Base.Cover
import Mathlib.Data.Nat.Bitwise
import Mathlib.Tactic.Ring

/-!
# Tilings by aligned blocks

A *block* of order `k` is a run of `2 ^ k` cells, and it is *aligned* when its
start is a multiple of its length. `Valkyrie.Tiles n l` says that the blocks of
the list `l` are aligned, lie below `n`, and cover each cell below `n` exactly
once.

The halves of an aligned block are aligned, and the two halves of a block of
order `k + 1` are each other's *buddy*: their starts differ exactly in the bit of
weight `2 ^ k`, which is why a buddy is found by an exclusive or
(`Valkyrie.xor_two_pow_eq`). Splitting a block into its halves and merging two
buddies keep a tiling (`Valkyrie.Tiles.split`, `Valkyrie.Tiles.merge`).

The one fact about tilings that is not bookkeeping is
`Valkyrie.Tiles.buddy_mem`: at the buddy of a block of the tiling there *starts*
another block of the tiling, of at most the same order. A block that covered the
buddy without starting there would be larger than the block we began with, and
being aligned it would cover that one too.
-/

namespace Valkyrie

/-- A run of `2 ^ order` cells. -/
structure Block where
  /-- The first cell. -/
  start : ℕ
  /-- The binary logarithm of the length. -/
  order : ℕ
deriving DecidableEq

namespace Block

/-- The cell is one of the block's. -/
def Covers (b : Block) (f : ℕ) : Prop := b.start ≤ f ∧ f < b.start + 2 ^ b.order

instance (b : Block) (f : ℕ) : Decidable (b.Covers f) := by
  unfold Covers
  infer_instance

/-- The start is a multiple of the length. -/
def Aligned (b : Block) : Prop := 2 ^ b.order ∣ b.start

theorem covers_start (b : Block) : b.Covers b.start := ⟨le_rfl, by simp⟩

end Block

/-! ### Finding a buddy -/

/-- **The buddy of an aligned start** is one length above it or one length below
it, depending on the bit that tells the two halves apart. -/
theorem xor_two_pow_eq {i k : ℕ} (h : 2 ^ k ∣ i) :
    i ^^^ 2 ^ k = if 2 ^ (k + 1) ∣ i then i + 2 ^ k else i - 2 ^ k := by
  obtain ⟨m, rfl⟩ := h
  have hxor : (2 ^ k * m) ^^^ 2 ^ k = (m ^^^ 1) * 2 ^ k := by
    have hd := Nat.shiftLeft_xor_distrib (a := m) (b := 1) (i := k)
    simp only [Nat.shiftLeft_eq, one_mul] at hd
    rw [hd, mul_comm]
  have hdvd : 2 ^ (k + 1) ∣ 2 ^ k * m ↔ 2 ∣ m := by
    rw [pow_succ]
    exact Nat.mul_dvd_mul_iff_left (Nat.two_pow_pos k)
  rw [hxor]
  rcases Nat.even_or_odd m with he | ho
  · rw [if_pos (hdvd.mpr he.two_dvd), Nat.xor_one_of_even he]
    ring
  · have hnd : ¬2 ∣ m := fun hc => (Nat.not_even_iff_odd.mpr ho) (even_iff_two_dvd.mpr hc)
    rw [if_neg (fun hc => hnd (hdvd.mp hc)), Nat.xor_one_of_odd ho, Nat.sub_mul, one_mul, mul_comm]

/-- A start that is a multiple of the length but not of twice the length is a
multiple of twice the length plus the length. -/
theorem dvd_sub_of_not_dvd {i k : ℕ} (h : 2 ^ k ∣ i) (hn : ¬2 ^ (k + 1) ∣ i) :
    2 ^ k ≤ i ∧ 2 ^ (k + 1) ∣ i - 2 ^ k := by
  obtain ⟨m, rfl⟩ := h
  have hdvd : ∀ m', 2 ^ (k + 1) ∣ 2 ^ k * m' ↔ 2 ∣ m' := by
    intro m'
    rw [pow_succ]
    exact Nat.mul_dvd_mul_iff_left (Nat.two_pow_pos k)
  rw [hdvd] at hn
  have hm : 0 < m := Nat.pos_of_ne_zero (fun hc => hn (hc ▸ dvd_zero 2))
  refine ⟨Nat.le_mul_of_pos_right _ hm, ?_⟩
  have hsub : 2 ^ k * m - 2 ^ k = 2 ^ k * (m - 1) := by
    rw [Nat.mul_sub, mul_one]
  rw [hsub, hdvd]
  omega

/-- The lower half of the block two buddies make up. -/
theorem min_xor_two_pow {i k : ℕ} (h : 2 ^ k ∣ i) :
    2 ^ (k + 1) ∣ min i (i ^^^ 2 ^ k) ∧
      ((i = min i (i ^^^ 2 ^ k) ∧ i ^^^ 2 ^ k = min i (i ^^^ 2 ^ k) + 2 ^ k) ∨
        (i ^^^ 2 ^ k = min i (i ^^^ 2 ^ k) ∧ i = min i (i ^^^ 2 ^ k) + 2 ^ k)) := by
  rw [xor_two_pow_eq h]
  by_cases hd : 2 ^ (k + 1) ∣ i
  · rw [if_pos hd, min_eq_left (Nat.le_add_right _ _)]
    exact ⟨hd, Or.inl ⟨rfl, rfl⟩⟩
  · obtain ⟨hle, hd'⟩ := dvd_sub_of_not_dvd h hd
    rw [if_neg hd, min_eq_right (Nat.sub_le _ _)]
    exact ⟨hd', Or.inr ⟨rfl, by omega⟩⟩

/-- Two starts of blocks of one order that cover a common cell are equal. -/
theorem eq_of_dvd_of_covers {i j m f : ℕ} (hi : 2 ^ m ∣ i) (hj : 2 ^ m ∣ j)
    (hfi : i ≤ f ∧ f < i + 2 ^ m) (hfj : j ≤ f ∧ f < j + 2 ^ m) : i = j := by
  obtain ⟨a, rfl⟩ := hi
  obtain ⟨b, rfl⟩ := hj
  have ha : f / 2 ^ m = a := Nat.div_eq_of_lt_le (by rw [mul_comm]; exact hfi.1)
    (by rw [add_mul, one_mul, mul_comm]; exact hfi.2)
  have hb : f / 2 ^ m = b := Nat.div_eq_of_lt_le (by rw [mul_comm]; exact hfj.1)
    (by rw [add_mul, one_mul, mul_comm]; exact hfj.2)
  rw [← ha, ← hb]

/-- An aligned block starts at every multiple of its length that it covers. -/
theorem Block.Aligned.start_eq {b : Block} (hb : b.Aligned) {j : ℕ} (hj : 2 ^ b.order ∣ j)
    (hbj : b.Covers j) : b.start = j :=
  eq_of_dvd_of_covers hb hj hbj ⟨le_rfl, Nat.lt_add_of_pos_right (Nat.two_pow_pos _)⟩

/-- **An aligned block that reaches into a shorter aligned run has all of it.** -/
theorem Block.Aligned.covers_run {b : Block} (hb : b.Aligned) {j m f : ℕ} (hj : 2 ^ m ∣ j)
    (hm : m ≤ b.order) (hf : j ≤ f ∧ f < j + 2 ^ m) (hbf : b.Covers f) :
    b.start ≤ j ∧ j + 2 ^ m ≤ b.start + 2 ^ b.order := by
  obtain ⟨s, hs⟩ : 2 ^ m ∣ b.start := (pow_dvd_pow 2 hm).trans hb
  obtain ⟨t, ht⟩ : 2 ^ m ∣ 2 ^ b.order := pow_dvd_pow 2 hm
  obtain ⟨u, rfl⟩ := hj
  obtain ⟨h1, h2⟩ := hbf
  rw [hs] at h1 ⊢
  rw [hs, ht, ← Nat.mul_add] at h2
  rw [ht, ← Nat.mul_add, ← Nat.mul_succ]
  have hsu : s < u + 1 := by
    refine Nat.lt_of_mul_lt_mul_left (a := 2 ^ m) ?_
    rw [Nat.mul_succ]
    omega
  have hut : u < s + t := Nat.lt_of_mul_lt_mul_left (hf.1.trans_lt h2)
  exact ⟨Nat.mul_le_mul_left _ (Nat.le_of_lt_succ hsu), Nat.mul_le_mul_left _ hut⟩

/-! ### Tilings -/

/-- **The blocks tile the cells below `n`**: they are aligned, lie below `n`, and
cover each cell exactly once. -/
structure Tiles (n : ℕ) (l : List Block) : Prop where
  aligned : ∀ b ∈ l, b.Aligned
  le : ∀ b ∈ l, b.start + 2 ^ b.order ≤ n
  cover : ∀ f, f < n → coverCount Block.Covers l f = 1

namespace Tiles

variable {n : ℕ} {l l' : List Block} {b c : Block} {f : ℕ}

/-- A tiling covers the cells below the bound exactly. -/
theorem covering (h : Tiles n l) : Covering Block.Covers (· < n) l where
  inside b hb _ hf := lt_of_lt_of_le hf.2 (h.le b hb)
  once := h.cover

/-- A tiling does not depend on the order of its blocks. -/
theorem perm (h : Tiles n l) (hp : l.Perm l') : Tiles n l' where
  aligned b hb := h.aligned b (hp.mem_iff.mpr hb)
  le b hb := h.le b (hp.mem_iff.mpr hb)
  cover := (h.covering.perm hp).once

/-- The whole run of cells is a tiling by one block. -/
theorem single (N : ℕ) : Tiles (2 ^ N) [⟨0, N⟩] where
  aligned b hb := by
    rw [List.mem_singleton.mp hb]
    exact dvd_zero _
  le b hb := by
    rw [List.mem_singleton.mp hb, zero_add]
  cover f hf := by
    have hc : Block.Covers ⟨0, N⟩ f := ⟨Nat.zero_le _, by simpa using hf⟩
    simp [coverCount, hc]

/-- A block of a tiling lies below the bound. -/
theorem lt_of_mem (h : Tiles n l) (hb : b ∈ l) : b.start < n :=
  lt_of_lt_of_le (Nat.lt_add_of_pos_right (Nat.two_pow_pos _)) (h.le b hb)

/-- No block of the rest of a tiling starts where the first block starts. -/
theorem start_ne (h : Tiles n (b :: l)) (hc : c ∈ l) : c.start ≠ b.start :=
  fun he => h.covering.not_covers hc b.covers_start (he ▸ c.covers_start)

end Tiles

/-! ### Splitting and merging -/

section Halves

variable {n i k : ℕ} {l : List Block}

/-- A cell of a block is in exactly one of its halves. -/
theorem coverCount_halves (i k : ℕ) (l : List Block) (f : ℕ) :
    coverCount Block.Covers (⟨i, k⟩ :: ⟨i + 2 ^ k, k⟩ :: l) f =
      coverCount Block.Covers (⟨i, k + 1⟩ :: l) f := by
  have hpow := Nat.two_pow_succ k
  refine coverCount_cut l ?_ ?_
  · simp only [Block.Covers, hpow]
    omega
  · simp only [Block.Covers]
    omega

/-- **Splitting a block** into its halves keeps the tiling. -/
theorem Tiles.split (h : Tiles n (⟨i, k + 1⟩ :: l)) :
    Tiles n (⟨i ^^^ 2 ^ k, k⟩ :: ⟨i, k⟩ :: l) := by
  have hal : 2 ^ (k + 1) ∣ i := h.aligned ⟨i, k + 1⟩ (by simp)
  have hal' : 2 ^ k ∣ i := (pow_dvd_pow 2 (Nat.le_succ k)).trans hal
  have hle : i + 2 ^ (k + 1) ≤ n := h.le ⟨i, k + 1⟩ (by simp)
  have hpow := Nat.two_pow_succ k
  rw [xor_two_pow_eq hal', if_pos hal]
  refine Tiles.perm (l := ⟨i, k⟩ :: ⟨i + 2 ^ k, k⟩ :: l) ⟨?_, ?_, ?_⟩ (List.Perm.swap _ _ _)
  · intro b hb
    rcases List.mem_cons.mp hb with rfl | hb
    · exact hal'
    · rcases List.mem_cons.mp hb with rfl | hb
      · exact (Nat.dvd_add_right hal').mpr dvd_rfl
      · exact h.aligned b (by simp [hb])
  · intro b hb
    rcases List.mem_cons.mp hb with rfl | hb
    · change i + 2 ^ k ≤ n
      omega
    · rcases List.mem_cons.mp hb with rfl | hb
      · change i + 2 ^ k + 2 ^ k ≤ n
        omega
      · exact h.le b (by simp [hb])
  · intro f hf
    rw [coverCount_halves]
    exact h.cover f hf

/-- **Merging two buddies** keeps the tiling. -/
theorem Tiles.merge (h : Tiles n (⟨i, k⟩ :: ⟨i ^^^ 2 ^ k, k⟩ :: l)) :
    Tiles n (⟨min i (i ^^^ 2 ^ k), k + 1⟩ :: l) := by
  have hal : 2 ^ k ∣ i := h.aligned ⟨i, k⟩ (by simp)
  have hle := h.le ⟨i, k⟩ (by simp)
  have hle' := h.le ⟨i ^^^ 2 ^ k, k⟩ (by simp)
  obtain ⟨hmin, hcases⟩ := min_xor_two_pow hal
  have hpow := Nat.two_pow_succ k
  set m := min i (i ^^^ 2 ^ k) with hm
  have hperm : (⟨i, k⟩ :: ⟨i ^^^ 2 ^ k, k⟩ :: l : List Block).Perm
      (⟨m, k⟩ :: ⟨m + 2 ^ k, k⟩ :: l) := by
    rcases hcases with ⟨h1, h2⟩ | ⟨h1, h2⟩
    · rw [← h2, ← h1]
    · rw [← h2, ← h1]
      exact List.Perm.swap _ _ _
  have h' := h.perm hperm
  refine ⟨?_, ?_, ?_⟩
  · intro b hb
    rcases List.mem_cons.mp hb with rfl | hb
    · exact hmin
    · exact h'.aligned b (by simp [hb])
  · intro b hb
    rcases List.mem_cons.mp hb with rfl | hb
    · have := h'.le ⟨m + 2 ^ k, k⟩ (by simp)
      change m + 2 ^ (k + 1) ≤ n
      change m + 2 ^ k + 2 ^ k ≤ n at this
      omega
    · exact h'.le b (by simp [hb])
  · intro f hf
    rw [← coverCount_halves]
    exact h'.cover f hf

/-- **A block starts at the buddy**, of at most the same order. -/
theorem Tiles.buddy_mem (h : Tiles n (⟨i, k⟩ :: l)) (hj : i ^^^ 2 ^ k < n) :
    ∃ m, m ≤ k ∧ (⟨i ^^^ 2 ^ k, m⟩ : Block) ∈ l := by
  have hal : 2 ^ k ∣ i := h.aligned ⟨i, k⟩ (by simp)
  obtain ⟨hmin, hcases⟩ := min_xor_two_pow hal
  set j := i ^^^ 2 ^ k with hjdef
  have hpos := Nat.two_pow_pos k
  have halj : 2 ^ k ∣ j := by
    have hmin' : 2 ^ k ∣ min i j := (pow_dvd_pow 2 (Nat.le_succ k)).trans hmin
    rcases hcases with ⟨-, h2⟩ | ⟨h1, -⟩
    · rw [h2]
      exact (Nat.dvd_add_right hmin').mpr dvd_rfl
    · rw [h1]
      exact hmin'
  obtain ⟨b, hb, hbj⟩ := h.covering.exists_covers hj
  have hpow := Nat.two_pow_succ k
  have hbl : b ∈ l := by
    rcases List.mem_cons.mp hb with rfl | hb
    · have h1 : i ≤ j := hbj.1
      have h2 : j < i + 2 ^ k := hbj.2
      omega
    · exact hb
  rcases Nat.lt_or_ge k b.order with hkm | hmk
  · -- A larger block that covers the buddy covers the block we began with.
    exfalso
    have hrun := Block.Aligned.covers_run (h.aligned b hb) hmin hkm (by omega) hbj
    refine h.covering.not_covers hbl (Block.covers_start ⟨i, k⟩) ⟨?_, ?_⟩
    · change b.start ≤ i
      omega
    · change i < b.start + 2 ^ b.order
      omega
  · refine ⟨b.order, hmk, ?_⟩
    have hstart : b.start = j :=
      Block.Aligned.start_eq (h.aligned b hb) ((pow_dvd_pow 2 hmk).trans halj) hbj
    rw [← hstart]
    exact hbl

end Halves

/-! ### Tilings without buddies -/

/-- **A run of cells of one kind lies in one block** of a tiling in which no two
blocks of that kind are buddies. The induction is over the tree of the runs: if
neither half lies in a longer block, then the two halves are blocks, and buddies. -/
theorem Tiles.exists_covers_run {n : ℕ} {l : List Block} (h : Tiles n l) {P : Block → Prop}
    (hP : ∀ i k, ⟨i, k⟩ ∈ l → P ⟨i, k⟩ → ⟨i ^^^ 2 ^ k, k⟩ ∈ l → ¬P ⟨i ^^^ 2 ^ k, k⟩) {i k : ℕ}
    (hal : 2 ^ k ∣ i) (hle : i + 2 ^ k ≤ n)
    (hfree : ∀ b ∈ l, ∀ f, i ≤ f → f < i + 2 ^ k → b.Covers f → P b) :
    ∃ b ∈ l, P b ∧ k ≤ b.order ∧ b.Covers i := by
  induction k generalizing i with
  | zero =>
    rw [pow_zero] at hle hfree
    obtain ⟨b, hb, hbi⟩ := h.covering.exists_covers (show i < n by omega)
    exact ⟨b, hb, hfree b hb i le_rfl (by omega) hbi, Nat.zero_le _, hbi⟩
  | succ k ih =>
    have hpow := Nat.two_pow_succ k
    have hpos := Nat.two_pow_pos k
    have halk : 2 ^ k ∣ i := (pow_dvd_pow 2 (Nat.le_succ k)).trans hal
    have halk' : 2 ^ k ∣ i + 2 ^ k := (Nat.dvd_add_right halk).mpr dvd_rfl
    have hbuddy : i ^^^ 2 ^ k = i + 2 ^ k := by
      rw [xor_two_pow_eq halk, if_pos hal]
    obtain ⟨b, hb, hPb, hkb, hbi⟩ := ih halk (by omega)
      fun b hb f h1 h2 => hfree b hb f h1 (by omega)
    obtain ⟨c, hc, hPc, hkc, hci⟩ := ih halk' (by omega)
      fun b hb f h1 h2 => hfree b hb f (by omega) (by omega)
    rcases Nat.lt_or_ge k b.order with hlt | hge
    · exact ⟨b, hb, hPb, hlt, hbi⟩
    rcases Nat.lt_or_ge k c.order with hlt' | hge'
    · have hrun := Block.Aligned.covers_run (h.aligned c hc) hal hlt' (by omega) hci
      exact ⟨c, hc, hPc, hlt', hrun.1, by omega⟩
    -- Both halves lie in blocks of their own order, so they are these blocks.
    obtain ⟨start, order⟩ := b
    obtain ⟨start', order'⟩ := c
    obtain rfl : order = k := hge.antisymm hkb
    obtain rfl : order' = order := hge'.antisymm hkc
    obtain rfl : start = i := Block.Aligned.start_eq (h.aligned _ hb) halk hbi
    obtain rfl : start' = start + 2 ^ order' := Block.Aligned.start_eq (h.aligned _ hc) halk' hci
    rw [← hbuddy] at hc hPc
    exact absurd hPc (hP _ _ hb hPb hc)

end Valkyrie
