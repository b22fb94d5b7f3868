import Valkyrie.Base.Loop

/-!
# Loops along chains that need not end

Links may lead back to a cell in front of them, and then there is no list of all the cells. A loop
along such links still sees a list, namely that of the cells up to some point. It ends exactly if
such a list leads to a null link, or the body stops in it (`Valkyrie.terminates_followLinks_iff`).
-/

namespace Valkyrie

open Exec

variable {α β ι σ : Type}

/-- **The call returns**, with every sufficiently large bound of its loops. -/
def Exec.Terminates (call : ℕ → Exec α) : Prop := ∃ bound, ∀ fuel, bound < fuel → ∃ r, call fuel = .ok r

theorem Exec.Terminates.exists_ok {call : ℕ → Exec α} (h : Terminates call) :
    ∃ fuel r, call fuel = .ok r :=
  let ⟨bound, hcall⟩ := h
  ⟨bound + 1, hcall (bound + 1) (Nat.lt_succ_self bound)⟩

theorem Exec.terminates_map {call : ℕ → Exec α} (g : α → β) :
    Terminates (fun fuel => g <$> call fuel) ↔ Terminates call := by
  refine exists_congr fun bound => forall_congr' fun fuel => imp_congr_right fun _ => ?_
  dsimp only
  cases call fuel with
  | error e => exact iff_of_false (fun ⟨_, h⟩ => by cases h) fun ⟨_, h⟩ => by cases h
  | ok a => exact iff_of_true ⟨g a, rfl⟩ ⟨a, rfl⟩

/-- **The first cells from a link on**, and the link behind them. -/
def Path (next : α → Option α) : Option α → List α → Option α → Prop
  | h, [], h' => h = h'
  | h, a :: l, h' => h = some a ∧ Path next (next a) l h'

theorem path_none_iff {next : α → Option α} {h : Option α} {l : List α} :
    Path next h l none ↔ Chain next h l := by
  induction l generalizing h with
  | nil => exact Iff.rfl
  | cons a l ih => exact and_congr_right fun _ => ih

/-! ### Where a loop stops -/

section

variable {body : ι → σ → Exec (Bool × σ)} {l : List ι} {x y : σ} {stop : Bool}

/-- A loop that gets to an element at which the body stops has stopped. -/
theorem stop_of_mem {i : ι} (hi : i ∈ l) (hbody : ∀ x r, body i x = .ok r → r.1 = true)
    (h : untilStop body l x = .ok (stop, y)) : stop = true := by
  induction l generalizing x with
  | nil => cases hi
  | cons j l ih =>
    obtain ⟨⟨stop', x'⟩, hj, h⟩ := bind_eq_ok.mp h
    cases stop' with
    | true => exact congrArg Prod.fst (Except.ok.inj h).symm
    | false =>
      rcases List.mem_cons.mp hi with rfl | hi
      · exact absurd (hbody x _ hj) Bool.false_ne_true
      · exact ih hi h

/-- A loop without a reason to stop. -/
theorem exists_untilStop_false {l : List ι} (h : ∀ i ∈ l, ∀ x, ∃ y, body i x = .ok (false, y))
    (x : σ) : ∃ y, untilStop body l x = .ok (false, y) := by
  induction l generalizing x with
  | nil => exact ⟨x, rfl⟩
  | cons i l ih =>
    obtain ⟨y, hy⟩ := h i List.mem_cons_self x
    rw [untilStop, hy]
    exact ih (fun j hj => h j (List.mem_cons_of_mem i hj)) y

/-- A loop that has stopped has stopped at an element. -/
theorem exists_stop (h : untilStop body l x = .ok (true, y)) :
    ∃ i ∈ l, ∃ x', body i x' = .ok (true, y) := by
  induction l generalizing x with
  | nil => cases h
  | cons j l ih =>
    obtain ⟨⟨stop', x'⟩, hj, h⟩ := bind_eq_ok.mp h
    cases stop' with
    | true =>
      obtain rfl : x' = y := congrArg Prod.snd (Except.ok.inj h)
      exact ⟨j, List.mem_cons_self, x, hj⟩
    | false =>
      obtain ⟨i, hi, hstop⟩ := ih h
      exact ⟨i, List.mem_cons_of_mem j hi, hstop⟩

end

/-! ### Which loops end -/

section

variable {next : α → Option α} {body : α → σ → Exec (Bool × σ)} {h h' : Option α} {l : List α}
  {x y : σ} {fuel : ℕ} {stop : Bool}

/-- A loop that sees enough. -/
theorem followLinks_of_path (hpath : Path next h l h') (hloop : untilStop body l x = .ok (stop, y))
    (hend : stop = true ∨ h' = none) (hfuel : l.length < fuel) :
    followLinks (fun a _ => next a) body fuel h x = .ok y := by
  induction l generalizing fuel h x with
  | nil =>
    obtain ⟨fuel, rfl⟩ := exists_succ_of_lt hfuel
    cases hloop
    obtain rfl : h = h' := hpath
    obtain rfl := hend.resolve_left Bool.false_ne_true
    rfl
  | cons a l ih =>
    obtain ⟨fuel, rfl⟩ := exists_succ_of_lt hfuel
    obtain ⟨rfl, hpath⟩ := hpath
    obtain ⟨⟨stop', x'⟩, ha, hloop⟩ := bind_eq_ok.mp hloop
    rw [followLinks, ha]
    cases stop' with
    | true =>
      cases hloop
      rfl
    | false => exact ih hpath hloop (Nat.lt_of_succ_lt_succ hfuel)

/-- What a loop that has ended has seen. -/
theorem exists_path_of_followLinks (hloop : followLinks (fun a _ => next a) body fuel h x = .ok y) :
    ∃ l h' stop, Path next h l h' ∧ untilStop body l x = .ok (stop, y) ∧
      (stop = true ∨ h' = none) := by
  induction fuel generalizing h x with
  | zero => cases hloop
  | succ fuel ih =>
    cases h with
    | none =>
      cases hloop
      exact ⟨[], none, false, rfl, rfl, .inr rfl⟩
    | some a =>
      obtain ⟨⟨stop', x'⟩, ha, hloop⟩ := bind_eq_ok.mp hloop
      cases stop' with
      | true =>
        cases hloop
        exact ⟨[a], next a, true, ⟨rfl, rfl⟩, by rw [untilStop, ha]; rfl, .inl rfl⟩
      | false =>
        obtain ⟨l, h', stop, hpath, huntil, hend⟩ := ih hloop
        exact ⟨a :: l, h', stop, ⟨rfl, hpath⟩, by rw [untilStop, ha]; exact huntil, hend⟩

/-- **A loop along links ends** exactly if some of the first cells lead to a null link, or the body
stops there. -/
theorem terminates_followLinks_iff :
    Terminates (fun fuel => followLinks (fun a _ => next a) body fuel h x) ↔
      ∃ l h' stop y, Path next h l h' ∧ untilStop body l x = .ok (stop, y) ∧
        (stop = true ∨ h' = none) := by
  constructor
  · intro hterm
    obtain ⟨fuel, y, hloop⟩ := hterm.exists_ok
    obtain ⟨l, h', stop, hloop⟩ := exists_path_of_followLinks hloop
    exact ⟨l, h', stop, y, hloop⟩
  · rintro ⟨l, h', stop, y, hpath, hloop, hend⟩
    exact ⟨l.length, fun fuel hfuel => ⟨y, followLinks_of_path hpath hloop hend hfuel⟩⟩

/-- **A loop on a cell that leads to itself.** -/
theorem followLinks_of_self {a : α} {I : σ → Prop} (hnext : next a = some a)
    (hbody : ∀ x, I x → ∃ y, body a x = .ok (false, y) ∧ I y) (fuel : ℕ) (hx : I x) :
    followLinks (fun a _ => next a) body fuel (some a) x = .error .outOfFuel := by
  induction fuel generalizing x with
  | zero => rfl
  | succ fuel ih =>
    obtain ⟨y, hy, hI⟩ := hbody x hx
    rw [followLinks, hy]
    change followLinks (fun a _ => next a) body fuel (next a) y = _
    rw [hnext]
    exact ih hI

end

end Valkyrie
