import Valkyrie.Base.Exec
import Mathlib.Logic.Function.Basic
import Mathlib.Data.List.Perm.Basic

/-!
# Null-terminated lists in memory

A singly linked list is a function `next` that gives every cell the link it
holds, and a head. `Valkyrie.Chain next h l` says that following `next` from the
head `h` visits exactly the cells of `l`, in order, and then finds a null link.
Since a chain is a finite list, saying that one exists says that the links do not
run in a circle.

Three operations change a list in place: a cell is linked in front
(`Valkyrie.Chain.push`), the front cell is unlinked, or a cell found by walking
from the head is unlinked. The last is a loop with a trailing pointer,
`Valkyrie.unlinkLoop`, and `Valkyrie.Chain.meets_unlinkLoop` says what it does on a
list: it returns after at most as many rounds as the list is long, and what is
left is the list without the cell.
-/

namespace Valkyrie

open Function Exec

variable {α : Type}

/-- Following `next` from the head visits the cells of the list, in order, and
then finds a null link. -/
def Chain (next : α → Option α) : Option α → List α → Prop
  | h, [] => h = none
  | h, a :: l => h = some a ∧ Chain next (next a) l

namespace Chain

variable {next : α → Option α} {h : Option α} {l l' : List α} {a x : α}

@[simp] theorem nil_iff : Chain next h [] ↔ h = none := Iff.rfl

/-- A head has at most one chain. -/
theorem unique (hl : Chain next h l) (hl' : Chain next h l') : l = l' := by
  induction l generalizing h l' with
  | nil =>
    cases l' with
    | nil => rfl
    | cons b l' => exact absurd (hl.symm.trans hl'.1) (by simp)
  | cons a l ih =>
    cases l' with
    | nil => exact absurd (hl'.symm.trans hl.1) (by simp)
    | cons b l' =>
      obtain rfl : a = b := Option.some.inj (hl.1.symm.trans hl'.1)
      rw [ih hl.2 hl'.2]

/-- A null head is the empty chain. -/
theorem eq_nil (hl : Chain next none l) : l = [] :=
  hl.unique (show Chain next none [] from rfl)

/-- A chain that starts at a cell has it in front. -/
theorem exists_cons (hl : Chain next (some a) l) : ∃ t, l = a :: t ∧ Chain next (next a) t := by
  cases l with
  | nil => exact absurd hl (by simp)
  | cons b t =>
    obtain rfl : a = b := Option.some.inj hl.1
    exact ⟨t, rfl, hl.2⟩

/-- The cells behind a cell of a chain are a chain from the link it holds. -/
theorem tail_of_append {l₁ l₂ : List α} (hl : Chain next h (l₁ ++ a :: l₂)) :
    Chain next (next a) l₂ := by
  induction l₁ generalizing h with
  | nil => exact hl.2
  | cons b l₁ ih => exact ih hl.2

/-- **A chain visits no cell twice**: the cells behind the two visits would be the
same list, and one of them is a proper part of the other. -/
theorem nodup (hl : Chain next h l) : l.Nodup := by
  induction l generalizing h with
  | nil => exact List.nodup_nil
  | cons a l ih =>
    refine List.nodup_cons.mpr ⟨fun hmem => ?_, ih hl.2⟩
    obtain ⟨l₁, l₂, rfl⟩ := List.append_of_mem hmem
    have h1 : Chain next (next a) (l₁ ++ a :: l₂) := hl.2
    have hEq : l₁ ++ a :: l₂ = l₂ := h1.unique h1.tail_of_append
    have hlen := congrArg List.length hEq
    simp only [List.length_append, List.length_cons] at hlen
    omega

/-- A chain depends only on the links of its own cells. -/
theorem congr {next' : α → Option α} (hl : Chain next h l) (hEq : ∀ a ∈ l, next' a = next a) :
    Chain next' h l := by
  induction l generalizing h with
  | nil => exact hl
  | cons a l ih =>
    refine ⟨hl.1, ?_⟩
    rw [hEq a (by simp)]
    exact ih hl.2 fun b hb => hEq b (by simp [hb])

variable [DecidableEq α]

/-- Rewriting the link of a cell that is not on a chain leaves the chain alone. -/
theorem update (hl : Chain next h l) (hx : x ∉ l) (v : Option α) :
    Chain (Function.update next x v) h l :=
  hl.congr fun a ha => update_of_ne (show a ≠ x from fun hc => hx (hc ▸ ha)) v next

/-- **Linking a cell in front.** -/
theorem push (hl : Chain next h l) (hx : x ∉ l) :
    Chain (Function.update next x h) (some x) (x :: l) := by
  refine ⟨rfl, ?_⟩
  rw [update_self]
  exact hl.update hx h

end Chain

/-! ### Unlinking a cell from the middle -/

section Unlink

variable [DecidableEq α]

/-- The loop that unlinks `x`: walk with a trailing pointer `prev` until the walk
finds `x`; then the cell before it takes over the link of `x`, and the link of
`x` is cleared. A walk that finds a null link changes nothing, and a cell found
with no cell before it would be written through a null pointer. -/
def unlinkLoop (next : α → Option α) (x : α) :
    ℕ → Option α → Option α → Exec (α → Option α)
  | _, _, none => .ok next
  | 0, _, some _ => .error .outOfFuel
  | fuel + 1, prev, some ptr =>
    if ptr = x then
      match prev with
      | none => .error .wild
      | some p => .ok (Function.update (Function.update next p (next ptr)) ptr none)
    else unlinkLoop next x fuel (some ptr) (next ptr)

variable {next : α → Option α} {h : Option α} {l : List α} {x : α}

/-- One round of the walk that does not find `x`. -/
theorem unlinkLoop_of_ne {ptr : α} (hne : ptr ≠ x) (fuel : ℕ) (prev : Option α) :
    unlinkLoop next x (fuel + 1) prev (some ptr) =
      unlinkLoop next x fuel (some ptr) (next ptr) := by
  rw [unlinkLoop.eq_def]
  exact if_neg hne

/-- Walking for a cell that is not there changes nothing. -/
theorem Chain.meets_unlinkLoop_of_notMem (hl : Chain next h l) (hx : x ∉ l) (fuel : ℕ)
    (prev : Option α) :
    Meets (unlinkLoop next x fuel prev h) (l.length ≤ fuel) fun next' => next' = next := by
  induction l generalizing h fuel prev with
  | nil =>
    rw [Chain.nil_iff.mp hl]
    cases fuel <;> exact meets_ok.mpr rfl
  | cons a l ih =>
    rw [hl.1]
    cases fuel with
    | zero => exact meets_outOfFuel.mpr (by simp)
    | succ fuel =>
      have hax : a ≠ x := fun hc => hx (by simp [hc])
      rw [unlinkLoop_of_ne hax]
      refine (ih hl.2 (fun hc => hx (by simp [hc])) fuel (some a)).weaken fun hlen => ?_
      simpa using hlen

/-- **A walk over a finite list ends**, whether the cell is on it or not. -/
theorem Chain.unlinkLoop_ends (hl : Chain next h l) {prev : Option α}
    (hprev : h = some x → prev ≠ none) (fuel : ℕ) :
    Meets (unlinkLoop next x fuel prev h) (l.length ≤ fuel) fun _ => True := by
  induction l generalizing h fuel prev with
  | nil =>
    rw [Chain.nil_iff.mp hl]
    cases fuel <;> exact meets_ok.mpr trivial
  | cons a l ih =>
    rw [hl.1]
    cases fuel with
    | zero => exact meets_outOfFuel.mpr (by simp)
    | succ fuel =>
      by_cases hax : a = x
      · obtain ⟨p, rfl⟩ := Option.ne_none_iff_exists'.mp (hprev (hax ▸ hl.1))
        rw [unlinkLoop, if_pos hax]
        exact meets_ok.mpr trivial
      · rw [unlinkLoop_of_ne hax]
        refine (ih hl.2 (fun _ => by simp) fuel).weaken fun hlen => ?_
        simpa using hlen

/-- Clearing one link cuts the list short. -/
theorem Chain.truncate (hl : Chain next h l) (x : α) :
    ∃ l', l'.length ≤ l.length ∧ Chain (Function.update next x none) h l' := by
  induction l generalizing h with
  | nil => exact ⟨[], Nat.le_refl _, hl⟩
  | cons a l ih =>
    by_cases hax : a = x
    · refine ⟨[a], by simp, hl.1, ?_⟩
      rw [hax, update_self]
      rfl
    · obtain ⟨l', hlen, hl'⟩ := ih hl.2
      refine ⟨a :: l', by simpa using hlen, hl.1, ?_⟩
      rwa [update_of_ne hax]

/-- A walk that is stopped before it finds the cell is still running. -/
theorem Chain.unlinkLoop_of_le {l₁ l₂ : List α} (hl : Chain next h (l₁ ++ x :: l₂)) (hx : x ∉ l₁)
    {fuel : ℕ} (hf : fuel ≤ l₁.length) (prev : Option α) :
    unlinkLoop next x fuel prev h = .error .outOfFuel := by
  induction fuel generalizing h l₁ prev with
  | zero =>
    cases l₁ with
    | nil =>
      rw [hl.1]
      rfl
    | cons a l₁ =>
      rw [hl.1]
      rfl
  | succ fuel ih =>
    cases l₁ with
    | nil => simp at hf
    | cons a l₁ =>
      have hax : a ≠ x := fun hc => hx (by simp [hc])
      rw [hl.1, unlinkLoop_of_ne hax]
      exact ih hl.2 (fun hc => hx (by simp [hc])) (by simpa using hf) (some a)

/-- A walk that goes far enough finds the cell, with the cell before it in
hand. -/
theorem Chain.unlinkLoop_of_lt {p : α} {l₁ l₂ : List α} (hl : Chain next h (l₁ ++ x :: l₂))
    (hx : x ∉ l₁) {fuel : ℕ} (hf : l₁.length < fuel) :
    unlinkLoop next x fuel (some p) h =
      .ok (Function.update (Function.update next ((p :: l₁).getLast (by simp)) (next x)) x none) := by
  induction l₁ generalizing h fuel p with
  | nil =>
    rw [hl.1]
    cases fuel with
    | zero => simp at hf
    | succ fuel =>
      rw [unlinkLoop, if_pos rfl]
      rfl
  | cons a l₁ ih =>
    rw [hl.1]
    cases fuel with
    | zero => simp at hf
    | succ fuel =>
      have hax : a ≠ x := fun hc => hx (by simp [hc])
      rw [unlinkLoop_of_ne hax, ih hl.2 (fun hc => hx (by simp [hc])) (by simpa using hf)]
      rfl

/-- Redirecting the last cell before `x` past it unlinks `x`. -/
theorem Chain.unlink {p : α} {l₁ l₂ : List α} (hl : Chain next h (p :: (l₁ ++ x :: l₂))) :
    Chain (Function.update (Function.update next ((p :: l₁).getLast (by simp)) (next x)) x none) h
      (p :: (l₁ ++ l₂)) := by
  have hnd := hl.nodup
  induction l₁ generalizing h p with
  | nil =>
    have hpx : p ≠ x := by
      rintro rfl
      simp at hnd
    refine ⟨hl.1, ?_⟩
    rw [update_of_ne hpx]
    simp only [List.getLast_singleton, update_self, List.nil_append]
    have hx2 : x ∉ l₂ := by
      have := (List.nodup_cons.mp hnd).2
      exact (List.nodup_cons.mp this).1
    have hp2 : p ∉ l₂ := fun hc => (List.nodup_cons.mp hnd).1 (by simp [hc])
    exact (hl.2.2.update hp2 _).update hx2 _
  | cons a l₁ ih =>
    refine ⟨hl.1, ?_⟩
    have hnd' : (a :: (l₁ ++ x :: l₂)).Nodup := (List.nodup_cons.mp hnd).2
    have hlast : (p :: a :: l₁).getLast (by simp) = (a :: l₁).getLast (by simp) := rfl
    have hpx : p ≠ x := by
      rintro rfl
      exact (List.nodup_cons.mp hnd).1 (by simp)
    have hpl : p ≠ (a :: l₁).getLast (by simp) := by
      intro hc
      refine (List.nodup_cons.mp hnd).1 ?_
      have hmem : (a :: l₁).getLast (by simp) ∈ a :: l₁ := List.getLast_mem _
      rw [← hc] at hmem
      simpa using Or.imp_right Or.inl (List.mem_cons.mp hmem)
    rw [hlast, update_of_ne hpx, update_of_ne hpl]
    exact ih hl.2 hnd'

/-- **The loop unlinks a cell** that is on the list but not in front: it returns
when it may go as far as the cell, and what it leaves is the list without it. -/
theorem Chain.meets_unlinkLoop {p : α} {l₁ l₂ : List α}
    (hl : Chain next h (p :: (l₁ ++ x :: l₂))) (fuel : ℕ) :
    Meets (unlinkLoop next x fuel none h) (l₁.length + 2 ≤ fuel) fun next' =>
      Chain next' h (p :: (l₁ ++ l₂)) ∧ ∀ a, a ∉ p :: (l₁ ++ x :: l₂) → next' a = next a := by
  have hx : x ∉ p :: l₁ := by
    have hnd : (p :: l₁ ++ x :: l₂).Nodup := hl.nodup
    intro hmem
    exact (List.nodup_append.mp hnd).2.2 x hmem x (by simp) rfl
  rcases Nat.lt_or_ge fuel (l₁.length + 2) with hf | hf
  · have hl' : Chain next h ((p :: l₁) ++ x :: l₂) := hl
    rw [hl'.unlinkLoop_of_le hx (by simpa using Nat.lt_succ_iff.mp hf)]
    exact meets_outOfFuel.mpr (by omega)
  · obtain ⟨f, rfl⟩ := Nat.exists_eq_succ_of_ne_zero (by omega : fuel ≠ 0)
    have hpx : p ≠ x := fun hc => hx (by simp [hc])
    rw [hl.1, unlinkLoop_of_ne hpx, hl.2.unlinkLoop_of_lt (fun hc => hx (by simp [hc])) (by omega)]
    refine meets_ok.mpr ⟨?_, fun a ha => ?_⟩
    · rw [← hl.1]
      exact hl.unlink
    · have hax : a ≠ x := fun hc => ha (by simp [hc])
      have hal : a ≠ (p :: l₁).getLast (by simp) := by
        intro hc
        have hmem : (p :: l₁).getLast (by simp) ∈ p :: l₁ := List.getLast_mem _
        rw [← hc] at hmem
        exact ha (List.mem_append_left (x :: l₂) hmem : a ∈ p :: l₁ ++ x :: l₂)
      rw [update_of_ne hax, update_of_ne hal]

end Unlink

/-! ### Families of lists

A family of lists over the elements of a duplicate-free index list is read as one
list by `List.flatMap`. -/

section Family

variable {β : Type}

/-- **Adding an element to one list of a family** adds it to the family. -/
theorem flatMap_perm_cons {g g' : α → List β} {l : List α} {k : α} {x : β} (hnd : l.Nodup)
    (hk : k ∈ l) (hp : (g k).Perm (x :: g' k)) (hne : ∀ a, a ≠ k → g a = g' a) :
    (l.flatMap g).Perm (x :: l.flatMap g') := by
  induction l with
  | nil => simp at hk
  | cons a l ih =>
    rw [List.nodup_cons] at hnd
    simp only [List.flatMap_cons]
    by_cases hak : a = k
    · have hrest : l.flatMap g = l.flatMap g' := by
        refine List.flatMap_congr fun b hb => hne b fun hbk => ?_
        rw [hbk, ← hak] at hb
        exact hnd.1 hb
      rw [hak, hrest]
      exact hp.append_right _
    · rw [hne a hak]
      have hkl : k ∈ l := (List.mem_cons.mp hk).resolve_left (Ne.symm hak)
      exact ((ih hnd.2 hkl).append_left (g' a)).trans List.perm_middle

end Family

end Valkyrie
