import Mathlib.Logic.Relation
import Mathlib.Data.List.Basic

/-!
# Executions that may stop

A shallow embedding of imperative code needs two things from its host: a result
type that says how a call can fail to return, and a way to speak of whole runs.

`Valkyrie.Exec` is the result type. A call returns a value, or it stops for one
of three reasons (`Valkyrie.Stop`): it aborted with a message, it reached through
a pointer that leads nowhere, or a loop used up the iterations it was given. The
last one is not a behaviour of the code but of the embedding: a loop takes its
bound as an argument, a call *returns* when some bound makes it return, and it
*runs forever* when every bound is used up. `Valkyrie.Exec.Meets` is the specification of a call: it says
what the call returns, that the first two ways of stopping do not happen, and
under which condition on the bound the third does not either.

A run is a path of a step relation. The one rule every invariant below is proved
by is `Valkyrie.Run.invariant`.
-/

namespace Valkyrie

/-- Why a call did not return. -/
inductive Stop where
  /-- The code aborted, with this message. -/
  | panic (msg : String) : Stop
  /-- The code read or wrote through a null or out-of-range pointer. -/
  | wild : Stop
  /-- A loop was still running when its bound was used up. -/
  | outOfFuel : Stop
deriving DecidableEq

/-- The result of a call: a value, or the reason why there is none. -/
abbrev Exec (α : Type) := Except Stop α

/-- A bound that is not used up yet. -/
theorem exists_succ_of_lt {k fuel : ℕ} (h : k < fuel) : ∃ n, fuel = n + 1 :=
  Nat.exists_eq_add_one_of_ne_zero (Nat.ne_zero_of_lt h)

namespace Exec

variable {α β : Type}

/-- **A sequence of two calls returns exactly when both do.** -/
theorem bind_eq_ok {x : Exec α} {f : α → Exec β} {b : β} :
    x >>= f = .ok b ↔ ∃ a, x = .ok a ∧ f a = .ok b := by
  cases x with
  | error e => exact iff_of_false (fun h => by cases h) (fun ⟨_, h, _⟩ => by cases h)
  | ok a =>
    constructor
    · exact fun h => ⟨a, rfl, h⟩
    · rintro ⟨a', ha, h⟩
      obtain rfl : a = a' := by simpa using ha
      exact h

/-- A sequence of two calls stops when the first does, or when the second does
on what the first returned. -/
theorem bind_eq_error {x : Exec α} {f : α → Exec β} {e : Stop} :
    x >>= f = .error e ↔ x = .error e ∨ ∃ a, x = .ok a ∧ f a = .error e := by
  cases x with
  | error e' =>
    constructor
    · exact fun h => Or.inl (congrArg Except.error (Except.error.inj h))
    · rintro (h | ⟨_, h, _⟩)
      · exact congrArg Except.error (Except.error.inj h)
      · cases h
  | ok a =>
    constructor
    · exact fun h => Or.inr ⟨a, rfl, h⟩
    · rintro (h | ⟨a', ha, h⟩)
      · cases h
      · obtain rfl : a = a' := by simpa using ha
        exact h

@[simp] theorem ok_bind (a : α) (f : α → Exec β) : (Except.ok a : Exec α) >>= f = f a := rfl

@[simp] theorem error_bind (e : Stop) (f : α → Exec β) :
    (Except.error e : Exec α) >>= f = .error e := rfl

@[simp] theorem pure_eq_ok {a b : α} : (pure a : Exec α) = .ok b ↔ a = b := by
  constructor
  · exact fun h => Except.ok.inj h
  · exact fun h => congrArg Except.ok h

theorem forM_append_bind (l l' : List α) (f : α → Exec Unit) (g : Unit → Exec β) :
    ((l ++ l').forM f >>= g) = l.forM f >>= fun _ => l'.forM f >>= g := by
  rw [show (l ++ l').forM f = l.forM f >>= fun _ => l'.forM f from List.forM_append, bind_assoc]

theorem forM_cons_bind (a : α) (l : List α) (f : α → Exec Unit) (g : Unit → Exec β) :
    ((a :: l).forM f >>= g) = f a >>= fun _ => l.forM f >>= g :=
  bind_assoc _ _ _

/-- A call for each element of a list. -/
theorem forM_eq_ok {l : List α} {f : α → Exec Unit} :
    l.forM f = .ok () ↔ ∀ a ∈ l, f a = .ok () := by
  induction l with
  | nil => simp
  | cons a l ih =>
    have hcons : (a :: l).forM f = f a >>= fun _ => l.forM f := rfl
    rw [hcons, bind_eq_ok, List.forall_mem_cons, ← ih]
    constructor
    · rintro ⟨⟨⟩, hf⟩
      exact hf
    · exact fun hf => ⟨(), hf⟩

/-- What a map returns is the image of what the call returns. -/
theorem map_eq_ok {g : α → β} {x : Exec α} {b : β} :
    g <$> x = .ok b ↔ ∃ a, x = .ok a ∧ g a = b := by
  cases x with
  | error e => exact iff_of_false (fun h => by cases h) fun ⟨_, h, _⟩ => by cases h
  | ok a =>
    refine ⟨fun h => ⟨a, rfl, Except.ok.inj h⟩, ?_⟩
    rintro ⟨_, h, rfl⟩
    cases h
    rfl

/-- The call returns, and what it returns passes the test. -/
def check (p : α → Bool) : Exec α → Bool
  | .ok a => p a
  | .error _ => false

/-- What an execution of a call shows. -/
theorem exists_ok_of_check {p : α → Bool} {x : Exec α} (h : check p x = true) :
    ∃ a, x = .ok a ∧ p a = true := by
  cases x with
  | ok a => exact ⟨a, rfl, h⟩
  | error e => cases h

/-- The call stops, for this reason. -/
def stops (e : Stop) : Exec α → Bool
  | .ok _ => false
  | .error e' => decide (e' = e)

theorem eq_error_of_stops {e : Stop} {x : Exec α} (h : stops e x = true) : x = .error e := by
  cases x with
  | ok a => cases h
  | error e' => rw [of_decide_eq_true h]

/-- **The call meets its specification**: it neither aborts nor reaches through a
wild pointer, what it returns has the property, and it does return when the
bound of its loops was enough. -/
structure Meets (x : Exec α) (enough : Prop) (Q : α → Prop) : Prop where
  /-- What a call that returned has returned. -/
  of_eq_ok : ∀ {a}, x = .ok a → Q a
  /-- Why a call did not return. -/
  of_eq_error : ∀ {e}, x = .error e → e = .outOfFuel ∧ ¬enough

section Meets

variable {x : Exec α} {f : α → Exec β} {enough : Prop} {Q Q' : α → Prop} {R : β → Prop} {a : α}

@[simp] theorem meets_ok : Meets (.ok a) enough Q ↔ Q a :=
  ⟨fun h => h.of_eq_ok rfl, fun h => ⟨fun hx => Except.ok.inj hx ▸ h, fun hx => by cases hx⟩⟩

@[simp] theorem meets_pure : Meets (pure a) enough Q ↔ Q a := meets_ok

@[simp] theorem meets_outOfFuel : Meets (.error .outOfFuel) enough Q ↔ ¬enough :=
  ⟨fun h => (h.of_eq_error rfl).2,
    fun h => ⟨fun hx => (by cases hx), fun hx => ⟨(Except.error.inj hx).symm, h⟩⟩⟩

/-- A result that is renamed. -/
theorem Meets.map {g : α → β} (h : Meets x enough fun a => R (g a)) : Meets (x.map g) enough R := by
  cases x with
  | ok a => exact meets_ok.mpr (h.of_eq_ok rfl)
  | error e =>
    refine ⟨fun hx => (by cases hx), fun hx => ?_⟩
    exact h.of_eq_error (congrArg Except.error (Except.error.inj hx))

/-- A call that can only run out of iterations. -/
theorem meets_self (h : ∀ e, x = .error e → e = .outOfFuel) (he : enough → ∃ a, x = .ok a) :
    Meets x enough fun a => x = .ok a := by
  refine ⟨fun hx => hx, fun {e} hx => ⟨h e hx, fun hc => ?_⟩⟩
  obtain ⟨a, ha⟩ := he hc
  rw [hx] at ha
  cases ha

/-- A call with enough iterations returns. -/
theorem Meets.exists_ok (h : Meets x enough Q) (he : enough) : ∃ a, x = .ok a ∧ Q a := by
  cases x with
  | ok a => exact ⟨a, rfl, h.of_eq_ok rfl⟩
  | error e => exact absurd he (h.of_eq_error rfl).2

/-- The only way for a call not to return is to run out of iterations. -/
theorem Meets.error_eq (h : Meets x enough Q) {e : Stop} (hx : x = .error e) :
    e = .outOfFuel :=
  (h.of_eq_error hx).1

theorem Meets.mono (h : Meets x enough Q) (hQ : ∀ a, Q a → Q' a) : Meets x enough Q' :=
  ⟨fun hx => hQ _ (h.of_eq_ok hx), h.of_eq_error⟩

theorem Meets.weaken {enough' : Prop} (h : Meets x enough Q) (he : enough' → enough) :
    Meets x enough' Q :=
  ⟨h.of_eq_ok, fun hx => ⟨(h.of_eq_error hx).1, fun hc => (h.of_eq_error hx).2 (he hc)⟩⟩

/-- **The rule of sequencing.** -/
theorem Meets.bind (h : Meets x enough Q) (hf : ∀ a, Q a → Meets (f a) enough R) :
    Meets (x >>= f) enough R := by
  cases x with
  | ok a => exact hf a (h.of_eq_ok rfl)
  | error e => exact ⟨fun hx => (by cases hx), fun hx => h.of_eq_error (congrArg _ (Except.error.inj hx))⟩

end Meets

/-- **What a call ensures** if it returns. -/
def Ensures (x : Exec α) (Q : α → Prop) : Prop := ∀ a, x = .ok a → Q a

section Ensures

variable {x : Exec α} {f : α → Exec β} {Q Q' : α → Prop} {R : β → Prop} {a : α}

theorem ensures_ok (h : Q a) : Ensures (.ok a) Q := fun _ hx => Except.ok.inj hx ▸ h

theorem ensures_pure (h : Q a) : Ensures (pure a) Q := ensures_ok h

theorem ensures_error (e : Stop) : Ensures (.error e) Q := fun _ hx => by cases hx

theorem Ensures.mono (h : Ensures x Q) (hQ : ∀ a, Q a → Q' a) : Ensures x Q' :=
  fun a hx => hQ a (h a hx)

/-- The rule of sequencing. -/
theorem Ensures.bind (h : Ensures x Q) (hf : ∀ a, Q a → Ensures (f a) R) :
    Ensures (x >>= f) R := by
  intro b hb
  obtain ⟨a, hx, hfa⟩ := bind_eq_ok.mp hb
  exact hf a (h a hx) b hfa

/-- The rule of sequencing, for a first call of which nothing matters. -/
theorem ensures_bind (hf : ∀ a, x = .ok a → Ensures (f a) R) : Ensures (x >>= f) R := by
  intro b hb
  obtain ⟨a, hx, hfa⟩ := bind_eq_ok.mp hb
  exact hf a hx b hfa

/-- **The rule of loops**: what the body makes of the items still to come. -/
theorem ensures_foldlM {ι : Type} {body : α → ι → Exec α} {I : List ι → α → Prop}
    (hbody : ∀ i l a, I (i :: l) a → Ensures (body a i) (I l)) :
    ∀ (l : List ι) (a : α), I l a → Ensures (l.foldlM body a) (I [])
  | [], _, h => ensures_pure h
  | i :: l, a, h => (hbody i l a h).bind fun a' h' => ensures_foldlM hbody l a' h'

end Ensures

/-- **What a call ensures** if it returns, and that it does not reach through a wild
pointer. It may abort. -/
structure Safe (x : Exec α) (Q : α → Prop) : Prop where
  ensures : Ensures x Q
  ne_wild : x ≠ .error .wild

section Safe

variable {x : Exec α} {f : α → Exec β} {Q Q' : α → Prop} {R : β → Prop} {a : α}

theorem safe_ok (h : Q a) : Safe (.ok a) Q := ⟨ensures_ok h, fun hx => by cases hx⟩

theorem safe_pure (h : Q a) : Safe (pure a) Q := safe_ok h

theorem Safe.mono (h : Safe x Q) (hQ : ∀ a, Q a → Q' a) : Safe x Q' := ⟨h.ensures.mono hQ, h.ne_wild⟩

theorem Safe.bind (h : Safe x Q) (hf : ∀ a, Q a → Safe (f a) R) : Safe (x >>= f) R := by
  refine ⟨h.ensures.bind fun a ha => (hf a ha).ensures, fun hwild => ?_⟩
  rcases bind_eq_error.mp hwild with hx | ⟨a, hx, hfa⟩
  · exact h.ne_wild hx
  · exact (hf a (h.ensures a hx)).ne_wild hfa

/-- The rule of loops. -/
theorem safe_foldlM {ι : Type} {body : α → ι → Exec α} {I : List ι → α → Prop}
    (hbody : ∀ i l a, I (i :: l) a → Safe (body a i) (I l)) :
    ∀ (l : List ι) (a : α), I l a → Safe (l.foldlM body a) (I [])
  | [], _, h => safe_pure h
  | i :: l, a, h => (hbody i l a h).bind fun a' h' => safe_foldlM hbody l a' h'

end Safe

end Exec

/-! ### Runs of a step relation -/

section Run

variable {σ : Type} {Step : σ → σ → Prop}

/-- A state is reached when a finite path of steps leads to it. -/
abbrev Run (Step : σ → σ → Prop) (s t : σ) : Prop := Relation.ReflTransGen Step s t

/-- **The invariant rule**: what holds at the start and is kept by every step
holds in every state reached. -/
theorem Run.invariant {P : σ → Prop} {s t : σ} (h : Run Step s t) (h0 : P s)
    (hstep : ∀ a b, P a → Step a b → P b) : P t := by
  induction h with
  | refl => exact h0
  | tail _ hbc ih => exact hstep _ _ ih hbc

end Run

end Valkyrie
