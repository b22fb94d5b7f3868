import Mathlib.Data.List.Basic
import Mathlib.Logic.Relation

/-!
# Runs with their events

A run of a relation whose steps are labelled with events, together with the list of the events
in the order in which they happened. Two rules cover what is proved about such runs: a property
of the events so far and the state now (`Valkyrie.Trace.invariant`), and an abstract machine that
takes the same events (`Valkyrie.Trace.simulates`).
-/

namespace Valkyrie

variable {σ ε τ : Type} {Step : σ → ε → σ → Prop} {s t u : σ} {events events' : List ε}

/-- A run with the events of its steps. -/
inductive Trace (Step : σ → ε → σ → Prop) (s : σ) : List ε → σ → Prop
  /-- Nothing has happened. -/
  | nil : Trace Step s [] s
  /-- One more step. -/
  | snoc {events : List ε} {t u : σ} {e : ε} (h : Trace Step s events t) (hstep : Step t e u) :
      Trace Step s (events ++ [e]) u

namespace Trace

/-- **The invariant rule**, for what depends on the events as well. -/
theorem invariant {I : List ε → σ → Prop} (h : Trace Step s events t) (h0 : I [] s)
    (hstep : ∀ {events t e u}, I events t → Step t e u → I (events ++ [e]) u) : I events t := by
  induction h with
  | nil => exact h0
  | snoc _ hlast ih => exact hstep ih hlast

/-- **The simulation rule**: an abstract machine takes the events of a run one by one. -/
theorem simulates {apply : τ → ε → τ} {R : τ → σ → Prop} (h : Trace Step s events t) {a : τ}
    (h0 : R a s) (hstep : ∀ {a t e u}, R a t → Step t e u → R (apply a e) u) :
    R (events.foldl apply a) t :=
  h.invariant (I := fun events t => R (events.foldl apply a) t) h0 fun hR hlast => by
    rw [List.foldl_append]
    exact hstep hR hlast

theorem single {e : ε} (h : Step s e t) : Trace Step s [e] t := snoc nil h

end Trace

end Valkyrie
