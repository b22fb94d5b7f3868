import Valkyrie.Base.Exec

/-!
# Arrays

An array is the list of its slots. An access to a slot that is not in the array stops the call. The
lemmas are about an array that is cut at the slot.
-/

namespace Valkyrie.Slots

open Exec

variable {α : Type}

/-- A slot is read. -/
def load (b : List α) (i : ℕ) : Exec α :=
  match b[i]? with
  | none => .error .wild
  | some x => return x

/-- A slot is written. -/
def store (b : List α) (i : ℕ) (x : α) : Exec (List α) :=
  if i < b.length then return b.set i x else .error .wild

theorem load_append (l : List α) (x : α) (u : List α) : load (l ++ x :: u) l.length = .ok x := by
  rw [load, List.getElem?_append_right (Nat.le_refl _), Nat.sub_self]
  rfl

theorem store_append (l : List α) (x y : α) (u : List α) :
    store (l ++ x :: u) l.length y = .ok (l ++ y :: u) := by
  have hlt : l.length < (l ++ x :: u).length := by
    rw [List.length_append, List.length_cons]
    omega
  rw [store, if_pos hlt, List.set_append_right _ _ (Nat.le_refl _), Nat.sub_self]
  rfl

end Valkyrie.Slots
