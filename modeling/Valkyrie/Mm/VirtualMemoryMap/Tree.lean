import Valkyrie.Mm.VirtualMemoryMap.Basic

/-!
# Page tables as trees

What lies in memory below a page table is a tree: the descriptors of all levels but the
last lead to further tables, those of the last level to page frames. This file reads the
tree off the memory.

* `Valkyrie.VMMap.look` is the descriptor of a page frame at the end of a path, if all
  descriptors on the path are valid. It is what the processor finds.
* `Valkyrie.VMMap.occupies` says how often a page serves as a page table in the tree. When
  no page does so twice (`Valkyrie.VMMap.Distinct`) the memory really is a tree, and a
  change to one page shows on the paths through that page only.

Both depend only on the contents of the pages that serve as tables (`look_congr`,
`occupies_congr`).
-/

namespace Valkyrie.VMMap

open Finset

instance Path.instDecidableEq : (d : ℕ) → DecidableEq (Path d)
  | 0 => inferInstanceAs (DecidableEq (Fin 512))
  | d + 1 => have := Path.instDecidableEq d; inferInstanceAs (DecidableEq (Fin 512 × Path d))

instance Path.instFintype : (d : ℕ) → Fintype (Path d)
  | 0 => inferInstanceAs (Fintype (Fin 512))
  | d + 1 => have := Path.instFintype d; inferInstanceAs (Fintype (Fin 512 × Path d))

/-- The first index of a path. -/
def Path.head : {d : ℕ} → Path d → Fin 512
  | 0, i => i
  | _ + 1, (i, _) => i

theorem Path.head_zero (i : Fin 512) : Path.head (d := 0) i = i := rfl

theorem Path.head_succ {d : ℕ} (i : Fin 512) (path : Path d) :
    Path.head (d := d + 1) (i, path) = i := rfl

/-- The descriptor at the end of a path. -/
def look : (d : ℕ) → ℕ → Mem → Path d → Option Descriptor
  | 0, pt, m, i => if isValid (entry m pt i) then some (entry m pt i) else none
  | d + 1, pt, m, (i, path) =>
    if isValid (entry m pt i) then look d (frame (entry m pt i)) m path else none

/-- How often a page serves as a page table. -/
def occupies (q : ℕ) : ℕ → ℕ → Mem → ℕ
  | 0, pt, _ => if pt = q then 1 else 0
  | d + 1, pt, m => (if pt = q then 1 else 0) +
      ∑ i, if isValid (entry m pt i) then occupies q d (frame (entry m pt i)) m else 0

/-- Two memories have the same bytes in a page. -/
def Agree (m m' : Mem) (q : ℕ) : Prop := ∀ k < pageSize, m' (q + k) = m (q + k)

/-- No page serves as a page table twice. -/
def Distinct (d pt : ℕ) (m : Mem) : Prop := ∀ q, occupies q d pt m ≤ 1

variable {m m' : Mem} {d pt q a : ℕ} {i j : Fin 512} {e : Descriptor}

/-! ### Entries -/

theorem slot_lt (pt : ℕ) (i : Fin 512) : pt ≤ slot pt i ∧ slot pt i + 8 ≤ pt + pageSize := by
  have := i.isLt
  simp only [slot, pageSize]
  omega

theorem slot_ne (hij : i ≠ j) : slot pt j + 8 ≤ slot pt i ∨ slot pt i + 8 ≤ slot pt j := by
  have : (i : ℕ) ≠ j := fun h => hij (Fin.ext h)
  simp only [slot]
  omega

theorem Agree.rfl : Agree m m q := fun _ _ => Eq.refl _

theorem Agree.trans {m'' : Mem} (h : Agree m m' q) (h' : Agree m' m'' q) : Agree m m'' q :=
  fun k hk => (h' k hk).trans (h k hk)

theorem Agree.apply (h : Agree m m' q) {x : ℕ} (hx : q ≤ x ∧ x < q + pageSize) : m' x = m x := by
  have := h (x - q) (by omega)
  rwa [Nat.add_sub_cancel' hx.1] at this

theorem entry_congr (h : Agree m m' pt) (i : Fin 512) : entry m' pt i = entry m pt i := by
  have hslot := slot_lt pt i
  exact Mem.readWord_congr fun k hk => h.apply (by omega)

/-- Pages do not overlap. -/
theorem disjoint_of_dvd {p : ℕ} (hp : pageSize ∣ p) (hq : pageSize ∣ q) (hne : q ≠ p) :
    q + pageSize ≤ p ∨ p + pageSize ≤ q := by
  obtain ⟨a, rfl⟩ := hp
  obtain ⟨b, rfl⟩ := hq
  rcases Nat.lt_trichotomy a b with hlt | rfl | hlt
  · exact Or.inr (by rw [← Nat.mul_succ]; exact Nat.mul_le_mul_left _ hlt)
  · exact absurd (Eq.refl _) hne
  · exact Or.inl (by rw [← Nat.mul_succ]; exact Nat.mul_le_mul_left _ hlt)

section Writes

variable {p : ℕ} (hp : pageSize ∣ p) (hq : pageSize ∣ q) (hne : q ≠ p)
include hp hq hne

/-- A word in one page is not in another. -/
theorem agree_writeWord {a : ℕ} (ha : p ≤ a ∧ a + 8 ≤ p + pageSize) (e : Descriptor) :
    Agree m (m.writeWord a e) q := by
  have hdis := disjoint_of_dvd hp hq hne
  exact fun k hk => Mem.writeWord_of_not_mem (by omega)

theorem agree_fill (b : UInt8) : Agree m (m.fill p pageSize b) q := by
  have hdis := disjoint_of_dvd hp hq hne
  exact fun k hk => Mem.fill_of_not_mem (by omega)

theorem agree_copy (src : ℕ) : Agree m (m.copy p src pageSize) q := by
  have hdis := disjoint_of_dvd hp hq hne
  exact fun k hk => Mem.copy_of_not_mem (by omega)

end Writes

@[simp] theorem entry_writeWord_self :
    entry (m.writeWord (slot pt i) e) pt i = e := Mem.readWord_writeWord_self e

theorem entry_writeWord_of_ne (hij : i ≠ j) :
    entry (m.writeWord (slot pt i) e) pt j = entry m pt j :=
  Mem.readWord_writeWord_of_disjoint (slot_ne hij)

theorem entry_fill_zero : entry (m.fill pt pageSize 0) pt i = 0 :=
  Mem.readWord_fill_zero ⟨(slot_lt pt i).1, (slot_lt pt i).2⟩

/-! ### Branches -/

/-- What is below a descriptor of a page table. -/
def branchLook (d : ℕ) (e : Descriptor) (m : Mem) (path : Path d) : Option Descriptor :=
  if isValid e then look d (frame e) m path else none

/-- How often a page serves as a page table below a descriptor. -/
def branchOccupies (q d : ℕ) (e : Descriptor) (m : Mem) : ℕ :=
  if isValid e then occupies q d (frame e) m else 0

theorem look_succ (path : Path d) :
    look (d + 1) pt m (i, path) = branchLook d (entry m pt i) m path := rfl

theorem occupies_succ : occupies q (d + 1) pt m =
    (if pt = q then 1 else 0) + ∑ i, branchOccupies q d (entry m pt i) m := rfl

theorem occupies_self_pos (d pt : ℕ) (m : Mem) : 0 < occupies pt d pt m := by
  cases d with
  | zero =>
    rw [occupies, if_pos (Eq.refl pt)]
    exact Nat.one_pos
  | succ d =>
    rw [occupies_succ, if_pos (Eq.refl pt)]
    omega

/-- The tables below a descriptor are tables of the tree. -/
theorem branchOccupies_le (i : Fin 512) :
    branchOccupies q d (entry m pt i) m ≤ occupies q (d + 1) pt m := by
  have hle := single_le_sum (f := fun i => branchOccupies q d (entry m pt i) m)
    (fun _ _ => Nat.zero_le _) (mem_univ i)
  rw [occupies_succ]
  omega

theorem branchOccupies_of_valid (h : isValid e = true) :
    branchOccupies q d e m = occupies q d (frame e) m := if_pos h

theorem branchOccupies_of_invalid (h : isValid e = false) : branchOccupies q d e m = 0 :=
  if_neg (by rw [h]; exact Bool.false_ne_true)

theorem branchLook_of_invalid (h : isValid e = false) (path : Path d) :
    branchLook d e m path = none := if_neg (by rw [h]; exact Bool.false_ne_true)

section Distinct

variable (h : Distinct (d + 1) pt m)
include h

theorem Distinct.branch (hv : isValid (entry m pt i) = true) :
    Distinct d (frame (entry m pt i)) m := fun q =>
  (branchOccupies_of_valid hv ▸ branchOccupies_le i).trans (h q)

/-- The table itself does not occur below. -/
theorem Distinct.branchOccupies_self (i : Fin 512) :
    branchOccupies pt d (entry m pt i) m = 0 := by
  have hle := single_le_sum (f := fun i => branchOccupies pt d (entry m pt i) m)
    (fun _ _ => Nat.zero_le _) (mem_univ i)
  have hone := h pt
  rw [occupies_succ, if_pos (Eq.refl pt)] at hone
  omega

/-- What is below one descriptor is not below another. -/
theorem Distinct.branchOccupies_of_ne (hij : i ≠ j)
    (hi : 0 < branchOccupies q d (entry m pt i) m) : branchOccupies q d (entry m pt j) m = 0 := by
  have hsum := add_sum_erase univ (fun i => branchOccupies q d (entry m pt i) m)
    (mem_univ i)
  have hle := single_le_sum (f := fun i => branchOccupies q d (entry m pt i) m)
    (fun _ _ => Nat.zero_le _) (mem_erase.mpr ⟨hij.symm, mem_univ j⟩)
  have hone := h q
  rw [occupies_succ] at hone
  omega

end Distinct

/-! ### What the tree depends on -/

/-- **A tree is made of its page tables.** -/
theorem look_congr (d : ℕ) : ∀ {pt : ℕ}, (∀ q, 0 < occupies q d pt m → Agree m m' q) →
    look d pt m' = look d pt m ∧ ∀ q, occupies q d pt m' = occupies q d pt m := by
  induction d with
  | zero =>
    intro pt h
    have hentry := entry_congr (h pt (occupies_self_pos 0 pt m))
    exact ⟨funext fun i => by rw [look, look, hentry], fun q => rfl⟩
  | succ d ih =>
    intro pt h
    have hentry := entry_congr (h pt (occupies_self_pos (d + 1) pt m))
    have hbranch : ∀ i, isValid (entry m pt i) = true →
        look d (frame (entry m pt i)) m' = look d (frame (entry m pt i)) m ∧
          ∀ q, occupies q d (frame (entry m pt i)) m' = occupies q d (frame (entry m pt i)) m := by
      intro i hv
      refine ih fun q hq => h q ?_
      exact lt_of_lt_of_le (branchOccupies_of_valid hv ▸ hq) (branchOccupies_le i)
    constructor
    · funext path
      obtain ⟨i, path⟩ := path
      rw [look_succ, look_succ, hentry, branchLook, branchLook]
      split_ifs with hv
      · rw [(hbranch i hv).1]
      · rfl
    · intro q
      rw [occupies_succ, occupies_succ]
      refine congrArg _ (sum_congr rfl fun i _ => ?_)
      rw [hentry, branchOccupies, branchOccupies]
      split_ifs with hv
      · exact (hbranch i hv).2 q
      · rfl

/-- **One branch changes**: the other entries of the table are the same, and so is what is
below them. -/
theorem branch_change (hentry : ∀ j, j ≠ i → entry m' pt j = entry m pt j)
    (hagree : ∀ j, j ≠ i → ∀ q, 0 < branchOccupies q d (entry m pt j) m → Agree m m' q) :
    (∀ j, j ≠ i → ∀ path, look (d + 1) pt m' (j, path) = look (d + 1) pt m (j, path)) ∧
      ∀ q, occupies q (d + 1) pt m' + branchOccupies q d (entry m pt i) m =
        occupies q (d + 1) pt m + branchOccupies q d (entry m' pt i) m' := by
  have hbranch : ∀ j, j ≠ i → isValid (entry m pt j) = true →
      look d (frame (entry m pt j)) m' = look d (frame (entry m pt j)) m ∧
        ∀ q, occupies q d (frame (entry m pt j)) m' = occupies q d (frame (entry m pt j)) m :=
    fun j hj hv => look_congr d fun q hq => hagree j hj q (branchOccupies_of_valid hv ▸ hq)
  constructor
  · intro j hj path
    rw [look_succ, look_succ, hentry j hj, branchLook, branchLook]
    split_ifs with hv
    · rw [(hbranch j hj hv).1]
    · rfl
  · intro q
    have hsum := add_sum_erase univ (fun j => branchOccupies q d (entry m pt j) m)
      (mem_univ i)
    have hsum' := add_sum_erase univ (fun j => branchOccupies q d (entry m' pt j) m')
      (mem_univ i)
    have hrest : ∑ j ∈ univ.erase i, branchOccupies q d (entry m' pt j) m' =
        ∑ j ∈ univ.erase i, branchOccupies q d (entry m pt j) m := by
      refine sum_congr rfl fun j hj => ?_
      have hne := (mem_erase.mp hj).1
      rw [hentry j hne, branchOccupies, branchOccupies]
      split_ifs with hv
      · exact (hbranch j hne hv).2 q
      · rfl
    rw [occupies_succ, occupies_succ, ← hsum, ← hsum', hrest]
    omega

end Valkyrie.VMMap
