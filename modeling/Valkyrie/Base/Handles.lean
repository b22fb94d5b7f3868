import Mathlib.Data.Finset.Card
import Mathlib.Tactic
import Valkyrie.Base.Exec

/-!
# Handles and what they hold

A *handle* is a place that holds a name, or nothing. `Valkyrie.Handles` is a finite
set of handles together with what each of them holds. Reference counting is about the
number of handles that hold a name, `Valkyrie.Handles.count`.

While a handle is being given up there is a moment when its share has been taken from
the count but the handle is still there. So the count leaves out a set of handles, those
on their way out.
-/

namespace Valkyrie

open Function

/-- **A finite set of handles** and what each of them holds. -/
structure Handles (ι β : Type) where
  /-- The handles there are. -/
  live : Finset ι
  /-- What a handle holds. -/
  holds : ι → Option β

namespace Handles

variable {ι β : Type} [DecidableEq ι]

/-- A handle is overwritten. -/
def set (H : Handles ι β) (h : ι) (c : Option β) : Handles ι β :=
  { H with holds := update H.holds h c }

/-- A handle is made. -/
def add (H : Handles ι β) (h : ι) (c : Option β) : Handles ι β :=
  ⟨insert h H.live, update H.holds h c⟩

/-- A handle is given up. What it held is forgotten. -/
def remove (H : Handles ι β) (h : ι) : Handles ι β :=
  ⟨H.live.erase h, update H.holds h none⟩

section Fields

variable (H : Handles ι β) (h h' : ι) (c : Option β)

@[simp] theorem live_add : (H.add h c).live = insert h H.live := rfl

@[simp] theorem live_remove : (H.remove h).live = H.live.erase h := rfl

@[simp] theorem holds_set_self : (H.set h c).holds h = c := update_self ..

@[simp] theorem holds_add_self : (H.add h c).holds h = c := update_self ..

variable {h h'}

theorem holds_set_of_ne (hne : h' ≠ h) : (H.set h c).holds h' = H.holds h' :=
  update_of_ne hne ..

theorem holds_add_of_ne (hne : h' ≠ h) : (H.add h c).holds h' = H.holds h' :=
  update_of_ne hne ..

theorem holds_remove_of_ne (hne : h' ≠ h) : (H.remove h).holds h' = H.holds h' :=
  update_of_ne hne ..

end Fields

variable [DecidableEq β]

/-- The handles that hold a name, but for those on their way out. -/
def holders (H : Handles ι β) (D : Finset ι) (b : β) : Finset ι :=
  (H.live \ D).filter fun h => H.holds h = some b

/-- **The number of handles that hold a name**, but for those on their way out. -/
def count (H : Handles ι β) (D : Finset ι) (b : β) : ℕ := (H.holders D b).card

section Count

variable {H : Handles ι β} {D : Finset ι} {h : ι} {b : β} {c : Option β}

theorem mem_holders : h ∈ H.holders D b ↔ h ∈ H.live ∧ h ∉ D ∧ H.holds h = some b := by
  simp [holders, and_assoc]

theorem count_pos : 0 < H.count D b ↔ ∃ h ∈ H.live, h ∉ D ∧ H.holds h = some b := by
  simp only [count, Finset.card_pos, Finset.Nonempty, mem_holders]

theorem count_eq_zero : H.count D b = 0 ↔ ∀ h ∈ H.live, h ∉ D → H.holds h ≠ some b := by
  rw [← Nat.le_zero, ← not_lt, count_pos]
  simp

end Count

end Handles

end Valkyrie
