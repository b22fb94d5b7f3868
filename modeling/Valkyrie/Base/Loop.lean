import Valkyrie.Base.Chain

/-!
# Loops with an early exit

Two loops of imperative code: one that goes through a list, and one that follows links. In both
the body says whether it is the last round. What a loop does to a list is composed of what it does
to the parts (`Valkyrie.untilStop_append`, `Valkyrie.untilStop_flatMap`), and a loop along a chain
is the loop through the cells of the chain (`Valkyrie.followLinks_eq`), provided that the bound of
the rounds is greater than the number of cells.
-/

namespace Valkyrie

variable {ι κ α σ τ : Type}

/-- A loop through a list. It ends when the body says so. -/
def untilStop (body : ι → σ → Exec (Bool × σ)) : List ι → σ → Exec (Bool × σ)
  | [], x => return (false, x)
  | i :: l, x => do
    let (stop, x) ← body i x
    if stop then return (true, x) else untilStop body l x

/-- A loop along links, which may change on the way. It ends at a null link, or when the body
says so. -/
def followLinks (next : α → σ → Option α) (body : α → σ → Exec (Bool × σ)) :
    ℕ → Option α → σ → Exec σ
  | 0, _, _ => .error .outOfFuel
  | _ + 1, none, x => return x
  | fuel + 1, some a, x => do
    let (stop, x) ← body a x
    if stop then return x else followLinks next body fuel (next a x) x

section

variable {body body' : ι → σ → Exec (Bool × σ)} {x : σ}

/-- **A loop through two lists** is one through the first and, unless that has ended, one through
the second. -/
theorem untilStop_append (l₁ l₂ : List ι) (x : σ) :
    untilStop body (l₁ ++ l₂) x = (untilStop body l₁ x >>= fun r =>
      if r.1 then pure (true, r.2) else untilStop body l₂ r.2) := by
  induction l₁ generalizing x with
  | nil => rfl
  | cons i l₁ ih =>
    rw [List.cons_append, untilStop, untilStop, bind_assoc]
    refine bind_congr fun ⟨stop, x'⟩ => ?_
    cases stop with
    | true => rfl
    | false => exact ih x'

/-- **Nested loops.** -/
theorem untilStop_flatMap (g : κ → List ι) (l : List κ) (x : σ) :
    untilStop body (l.flatMap g) x = untilStop (fun k => untilStop body (g k)) l x := by
  induction l generalizing x with
  | nil => rfl
  | cons k l ih =>
    rw [List.flatMap_cons, untilStop_append, untilStop]
    refine bind_congr fun ⟨stop, x'⟩ => ?_
    cases stop with
    | true => rfl
    | false => exact ih x'

/-- A loop through the images of a list. -/
theorem untilStop_map (g : κ → ι) (l : List κ) (x : σ) :
    untilStop body (l.map g) x = untilStop (fun k => body (g k)) l x := by
  induction l generalizing x with
  | nil => rfl
  | cons k l ih =>
    rw [List.map_cons, untilStop, untilStop]
    refine bind_congr fun ⟨stop, x'⟩ => ?_
    cases stop with
    | true => rfl
    | false => exact ih x'

/-- **A loop that keeps more in its state** than another one, and otherwise does the same, as long
as a round keeps an invariant. -/
theorem untilStop_forget {body' : ι → τ → Exec (Bool × τ)} (g : τ → σ) {I : τ → Prop} (l : List ι)
    (h : ∀ i ∈ l, ∀ y, I y → (fun r => (r.1, g r.2)) <$> body' i y = body i (g y) ∧
      Exec.Ensures (body' i y) fun r => I r.2) {y : τ} (hy : I y) :
    (fun r => (r.1, g r.2)) <$> untilStop body' l y = untilStop body l (g y) := by
  induction l generalizing y with
  | nil => rfl
  | cons i l ih =>
    obtain ⟨heq, hkeep⟩ := h i List.mem_cons_self y hy
    rw [untilStop, untilStop, ← heq, map_bind, bind_map_left]
    rcases hbody : body' i y with e | ⟨stop, y'⟩
    · rfl
    · cases stop with
      | true => rfl
      | false => exact ih (fun j hj => h j (List.mem_cons_of_mem i hj)) (hkeep _ hbody)

/-- A loop through a list whose rounds cannot fail. -/
def scanUntil (f : ι → σ → Bool × σ) : List ι → σ → Bool × σ
  | [], x => (false, x)
  | i :: l, x => if (f i x).1 then f i x else scanUntil f l (f i x).2

theorem untilStop_pure (f : ι → σ → Bool × σ) (l : List ι) (x : σ) :
    untilStop (fun i x => pure (f i x)) l x = .ok (scanUntil f l x) := by
  induction l generalizing x with
  | nil => rfl
  | cons i l ih =>
    rw [untilStop, scanUntil, pure_bind]
    rcases hf : f i x with ⟨stop, x'⟩
    cases stop with
    | true => rfl
    | false => exact ih x'

end

/-- **A loop along a chain** goes through its cells. The links may change, as long as those of the
cells in front of it do not: they are what they were, after a round that is not the last. -/
theorem followLinks_eq_of_invariant {next : α → σ → Option α} {links : α → Option α}
    {body : α → σ → Exec (Bool × σ)} {I : σ → Prop} {h : Option α} {l : List α}
    (hl : Chain links h l) (hbody : ∀ a ∈ l, ∀ x, I x →
      Exec.Ensures (body a x) fun r => r.1 = false → I r.2 ∧ next a r.2 = links a)
    {fuel : ℕ} (hfuel : l.length < fuel) {x : σ} (hx : I x) :
    followLinks next body fuel h x = Prod.snd <$> untilStop body l x := by
  induction l generalizing fuel h x with
  | nil =>
    obtain ⟨fuel, rfl⟩ := exists_succ_of_lt hfuel
    obtain rfl := hl
    rfl
  | cons a l ih =>
    obtain ⟨fuel, rfl⟩ := exists_succ_of_lt hfuel
    obtain ⟨rfl, hl⟩ := hl
    rw [followLinks, untilStop, map_bind]
    rcases hr : body a x with e | ⟨stop, x'⟩
    · rfl
    · cases stop with
      | true => rfl
      | false =>
        obtain ⟨hI, hnext⟩ := hbody a List.mem_cons_self x hx _ hr rfl
        change followLinks next body fuel (next a x') x' = _
        rw [hnext]
        exact ih hl (fun b hb => hbody b (List.mem_cons_of_mem a hb))
          (Nat.lt_of_succ_lt_succ hfuel) hI

/-- A loop along a chain whose links do not change. -/
theorem followLinks_eq {next : α → Option α} {body : α → σ → Exec (Bool × σ)} {h : Option α}
    {l : List α} (hl : Chain next h l) {fuel : ℕ} (hfuel : l.length < fuel) (x : σ) :
    followLinks (fun a _ => next a) body fuel h x = Prod.snd <$> untilStop body l x :=
  followLinks_eq_of_invariant (I := fun _ => True) hl (fun _ _ _ _ _ _ _ => ⟨trivial, rfl⟩) hfuel
    trivial

/-! ### Counting up -/

/-- A loop that counts up as long as a test holds. -/
def countWhile (p : ℕ → Bool) : ℕ → ℕ → Exec ℕ
  | 0, _ => .error .outOfFuel
  | fuel + 1, x => if p x then countWhile p fuel (x + 1) else return x

/-- **Where the counting ends**: at the first number that does not pass the test. -/
theorem countWhile_eq {p : ℕ → Bool} {n fuel x : ℕ} (h : ∀ k < n, p (x + k)) (hn : ¬p (x + n))
    (hfuel : n < fuel) : countWhile p fuel x = .ok (x + n) := by
  induction n generalizing fuel x with
  | zero =>
    obtain ⟨fuel, rfl⟩ := exists_succ_of_lt hfuel
    exact if_neg hn
  | succ n ih =>
    obtain ⟨fuel, rfl⟩ := exists_succ_of_lt hfuel
    have hstep : ∀ k, x + 1 + k = x + (k + 1) := fun k => by omega
    rw [countWhile, if_pos (show p x from h 0 (Nat.succ_pos n)), ih, hstep]
    · intro k hk
      rw [hstep]
      exact h (k + 1) (Nat.succ_lt_succ hk)
    · rw [hstep]
      exact hn
    · exact Nat.lt_of_succ_lt_succ hfuel

theorem not_of_countWhile {p : ℕ → Bool} {fuel x y : ℕ} (h : countWhile p fuel x = .ok y) :
    ¬p y := by
  induction fuel generalizing x with
  | zero => cases h
  | succ fuel ih =>
    rw [countWhile] at h
    split_ifs at h with hp
    · exact ih h
    · cases h
      exact hp

end Valkyrie
