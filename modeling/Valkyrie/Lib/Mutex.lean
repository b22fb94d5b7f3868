import Mathlib.Tactic
import Valkyrie.Base.Exec

/-!
# The kernel mutex

`include/lib/Mutex.h`. There is one processor, so locking is masking interrupts: `lock` masks
them and counts, `unlock` counts back and unmasks them when it comes to zero. What the mask
was before is not kept anywhere. So a pair of calls that finds interrupts masked, as the code
that handles an interrupt does, leaves them unmasked.

`Valkyrie.Mutex.after_eq` says what any sequence of calls comes to that never unlocks more than
it has locked. From there it is arithmetic: `Valkyrie.Mutex.restores_iff`.
-/

namespace Valkyrie.Mutex

/-- A `RecursiveMutex` and what it acts on: the interrupt mask of the processor, and whether
exceptions are activated. -/
structure State where
  /-- `_is_locked`. -/
  isLocked : Bool
  /-- `_depth`. -/
  depth : ℤ
  /-- The interrupts are masked. -/
  masked : Bool
  /-- `exception::is_activated()`. -/
  activated : Bool
deriving DecidableEq

/-- `exception::disable_irqs`. -/
def disableIrqs (s : State) : State := { s with masked := true }

/-- `exception::enable_irqs`. -/
def enableIrqs (s : State) : State := { s with masked := false }

/-- `RecursiveMutex::lock`. -/
def lock (s : State) : State :=
  if s.activated then
    let s := disableIrqs s
    { s with isLocked := true, depth := s.depth + 1 }
  else s

/-- The first half of `RecursiveMutex::unlock`. -/
def release (s : State) : State :=
  if s.activated then
    let s := { s with depth := s.depth - 1 }
    if s.depth = 0 then enableIrqs { s with isLocked := false } else s
  else s

/-- `RecursiveMutex::unlock`. A negative depth makes it loop forever. -/
def unlock (s : State) : Exec State :=
  if (release s).depth < 0 then .error .outOfFuel else .ok (release s)

/-! ### Sequences of guards -/

/-- A `LockGuard` is constructed or destroyed. -/
inductive Op where
  | acquire : Op
  | release : Op
deriving DecidableEq

/-- The call of the constructor or the destructor of a `LockGuard`. -/
def Op.exec (s : State) : Op → Exec State
  | .acquire => .ok (lock s)
  | .release => unlock s

/-- The state after a sequence of calls. -/
def after (ops : List Op) (s : State) : Exec State := ops.foldlM Op.exec s

/-- The guards that are held after a sequence. -/
def held (ops : List Op) : ℤ := ops.count .acquire - ops.count .release

/-- A sequence that destroys no guard before it is there, on the way. -/
def Lawful (ops : List Op) : Prop := ∀ l, l <+: ops → 0 ≤ held l

instance (ops : List Op) : Decidable (Lawful ops) :=
  decidable_of_iff (∀ l ∈ ops.inits, 0 ≤ held l) (by simp only [Lawful, List.mem_inits])

/-- **A properly nested sequence**: every guard that is constructed is destroyed, and none
is before it is there. -/
structure Nested (ops : List Op) : Prop where
  lawful : Lawful ops
  closed : held ops = 0

/-- **The interrupt mask is restored**: interrupts are masked as long as a guard is held, and
in the end the mask is as it was. -/
structure Restores (ops : List Op) (s : State) : Prop where
  masked : ∀ l, l <+: ops → 0 < held l → ∃ s', after l s = .ok s' ∧ s'.masked = true
  restored : ∃ s', after ops s = .ok s' ∧ s'.masked = s.masked

section Sequences

variable {ops : List Op} {s : State}

theorem held_append_acquire (ops : List Op) : held (ops ++ [.acquire]) = held ops + 1 := by
  simp only [held, List.count_append, List.count_singleton]
  push_cast
  simp
  ring

theorem held_append_release (ops : List Op) : held (ops ++ [.release]) = held ops - 1 := by
  simp only [held, List.count_append, List.count_singleton]
  push_cast
  simp
  ring

theorem after_append (ops : List Op) (op : Op) (s : State) :
    after (ops ++ [op]) s = after ops s >>= fun s' => op.exec s' := by
  rw [after, List.foldlM_append, after]
  refine congrArg (after ops s >>= ·) (funext fun s' => ?_)
  change op.exec s' >>= pure = op.exec s'
  exact bind_pure _

/-- What a sequence leaves behind. The interrupts are masked if and only if the depth is not
zero, once there was a call. -/
def result (ops : List Op) (s : State) : State where
  isLocked := if ops = [] then s.isLocked else decide (s.depth + held ops ≠ 0)
  depth := s.depth + held ops
  masked := if ops = [] then s.masked else decide (s.depth + held ops ≠ 0)
  activated := true

/-- **A sequence of calls**, by induction on its length. -/
theorem after_eq (hact : s.activated = true) (hdepth : 0 ≤ s.depth) (hlawful : Lawful ops) :
    after ops s = .ok (result ops s) := by
  induction ops using List.reverseRecOn with
  | nil =>
    obtain ⟨isLocked, depth, masked, activated⟩ := s
    obtain rfl : activated = true := hact
    simp [after, result, held]
  | append_singleton ops op ih =>
    have hops : Lawful ops := fun l hl => hlawful l (hl.trans (List.prefix_append _ _))
    have hheld := hlawful _ (List.prefix_refl _)
    have hprev := hops _ (List.prefix_refl _)
    rw [after_append, ih hops, Exec.ok_bind]
    cases op with
    | acquire =>
      simp only [Op.exec, lock, result, disableIrqs, held_append_acquire]
      simp
      omega
    | release =>
      rw [held_append_release] at hheld
      -- A guard is held, so there was a call before, and interrupts are masked.
      have hnil : ops ≠ [] := by
        rintro rfl
        simp [held] at hheld
      have hne : s.depth + held ops ≠ 0 := by omega
      have hsub : s.depth + held ops - 1 = s.depth + (held ops - 1) := by ring
      simp only [Op.exec, unlock, release, result, enableIrqs, held_append_release, hsub, hnil,
        if_true, if_false, List.append_eq_nil_iff, List.cons_ne_nil, and_false]
      by_cases hzero : s.depth + (held ops - 1) = 0
      · simp [hzero]
      · have hpos : ¬s.depth + (held ops - 1) < 0 := by omega
        simp [hzero, hpos, hne]

end Sequences

/-- **The mask is restored exactly if it was set already by a guard.** In every state with
exceptions activated, a properly nested sequence of at least one guard restores the mask if
and only if interrupts are masked exactly when the depth is not zero before it. In
particular, where no guard is held, this is the case if and only if interrupts are not
masked. -/
theorem restores_iff {ops : List Op} {s : State} (hact : s.activated = true) (hdepth : 0 ≤ s.depth)
    (hnested : Nested ops) (hne : ops ≠ []) :
    Restores ops s ↔ (s.masked = true ↔ s.depth ≠ 0) := by
  have hresult := after_eq hact hdepth hnested.lawful
  have hmasked : (result ops s).masked = decide (s.depth ≠ 0) := by
    simp [result, hne, hnested.closed]
  constructor
  · rintro ⟨-, s', hs', hrestored⟩
    rw [hresult] at hs'
    obtain rfl := Except.ok.inj hs'
    rw [← hrestored, hmasked, decide_eq_true_iff]
  · intro hiff
    refine ⟨fun l hl hheld => ?_, result ops s, hresult, ?_⟩
    · have hlawful : Lawful l := fun l' hl' => hnested.lawful l' (hl'.trans hl)
      have hnil : l ≠ [] := by
        rintro rfl
        simp [held] at hheld
      refine ⟨result l s, after_eq hact hdepth hlawful, ?_⟩
      have hpos : s.depth + held l ≠ 0 := by omega
      simp [result, hnil, hpos]
    · rw [hmasked, Bool.eq_iff_iff, decide_eq_true_iff]
      exact hiff.symm

/-- One guard, with interrupts unmasked before. -/
theorem restores_iff_unmasked :
    Restores [.acquire, .release] ⟨false, 0, false, true⟩ :=
  (restores_iff rfl le_rfl ⟨by decide, by decide⟩ (by decide)).mpr (by decide)

/-- One guard in the handler of an interrupt, where interrupts are masked: afterwards they
are not. -/
theorem not_restores_of_masked : ¬Restores [.acquire, .release] ⟨false, 0, true, true⟩ := by
  rintro ⟨-, s', hs', hmask⟩
  obtain rfl : (⟨false, 0, false, true⟩ : State) = s' := Except.ok.inj hs'
  cases hmask

end Valkyrie.Mutex
