import Valkyrie.Base.Exec

/-!
# Two runs of a program

Two runs are related if both return, with related results, or both stop for the same reason. This is
how it is said that a program does not depend on something: its runs with two values are related.
-/

namespace Valkyrie.Exec

variable {α β γ δ : Type} {R R' : α → β → Prop} {S : γ → δ → Prop} {x : Exec α} {y : Exec β}
  {f : α → Exec γ} {g : β → Exec δ}

/-- **Two runs with related results.** -/
inductive Related (R : α → β → Prop) : Exec α → Exec β → Prop
  | ok {a : α} {b : β} (h : R a b) : Related R (.ok a) (.ok b)
  | error (e : Stop) : Related R (.error e) (.error e)

theorem Related.bind (h : Related R x y) (hf : ∀ a b, R a b → Related S (f a) (g b)) :
    Related S (x >>= f) (y >>= g) := by
  cases h with
  | ok h => exact hf _ _ h
  | error e => exact .error e

/-- A part that both runs have in common. -/
theorem Related.bind_same {x : Exec α} {f : α → Exec γ} {g : α → Exec δ}
    (hf : ∀ a, x = .ok a → Related S (f a) (g a)) : Related S (x >>= f) (x >>= g) := by
  cases x with
  | ok a => exact hf a rfl
  | error e => exact .error e

theorem Related.of_ok {a : α} {b : β} (h : Related R (.ok a) (.ok b)) : R a b := by
  cases h with
  | ok h => exact h

end Valkyrie.Exec
