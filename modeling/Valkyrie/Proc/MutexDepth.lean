import Valkyrie.Lib.Mutex
import Valkyrie.Proc.Steps

/-!
# Whose depth the depth of the mutex is

`Kernel::mutex` has one `_depth`, but the guards that it counts stand on the kernel stacks of
the tasks. `schedule` is called with its own guard held, and often with others around it, and
it switches stacks in the middle: the guards of the task that calls it stay where they are
until that task runs again, and from then on those of the next task are destroyed. A task that
runs for the first time has none; one that was forked has copies of those its parent held; one
that exits never destroys its own.

The depth is not saved on a switch. So it belongs to the running task as long as every switch
goes to a task that holds as many guards as the one that is left, and no longer
(`Valkyrie.MutexDepth.Step.belongs_iff`). The first switch of the kernel does not: it goes from the idle
task to the init task, which starts. So no run from the start of the kernel with a switch in it is
balanced, and a balanced one starts in a state that the kernel does not reach
(`Valkyrie.MutexDepth.owned_of_run_balanced`).
-/

namespace Valkyrie

namespace MutexDepth

open Exec Function Proc

/-- The tasks, the mutex, and for every task the guards on its kernel stack. -/
structure World where
  proc : State
  mutex : Mutex.State
  /-- The guards that stand on the kernel stack of a task. -/
  guards : ℕ → ℕ

namespace World

/-- The guards of the running task. -/
def own (w : World) : ℕ := w.guards w.proc.current

def setOwn (n : ℕ) (w : World) : World :=
  { w with guards := update w.guards w.proc.current n }

/-- The constructor of a `LockGuard`. -/
def acquire (w : World) : World := { w.setOwn (w.own + 1) with mutex := Mutex.lock w.mutex }

/-- The destructor of a `LockGuard`. -/
def release (w : World) : World := { w.setOwn (w.own - 1) with mutex := Mutex.release w.mutex }

/-- The kernel when it starts its first task. -/
def start (proc : State) : World where
  proc := proc
  mutex := ⟨false, 0, false, true⟩
  guards _ := 0

end World

/-- What the running task does next. -/
inductive Event where
  | acquire : Event
  | release : Event
  | fork : Event
  | schedule : Event
  | exit (errorCode : ℤ) : Event
  | wait : Event

/-- **One step.** The guards that `fork` and `schedule` construct first are steps of their own;
so are those of `wait`, and each switch that it makes. `exit` has constructed its guard, and
constructs that of `schedule` on the way. -/
inductive Step : World → Event → World → Prop
  | acquire {w : World} : Step w .acquire w.acquire
  | release {w : World} (hown : 0 < w.own) : Step w .release w.release
  /-- The child gets a copy of the kernel stack. -/
  | fork {w : World} {pid : ℕ} {proc : State} (hown : 0 < w.own)
      (h : fork w.proc = .ok (pid, proc)) :
      Step w .fork { w with
        proc := proc
        guards := update w.guards w.proc.next w.own }
  | schedule {w : World} {proc : State} (hown : 0 < w.own)
      (h : schedule w.proc = .ok proc) : Step w .schedule { w with proc := proc }
  | exit {w : World} {proc : State} {errorCode : ℤ} (hown : 0 < w.own)
      (h : exit errorCode w.proc = .ok proc) :
      Step w (.exit errorCode) { w.acquire with proc := proc }
  /-- A terminated child is destroyed, or there are no children. -/
  | wait {w : World} {proc : State} {result : WaitResult} (fuel : ℕ) (hown : 0 < w.own)
      (h : wait fuel w.proc = .ok (result, proc)) (hblocked : result ≠ .blocked) :
      Step w .wait { w with proc := proc }

/-- **The property**: without a guard of the running task the depth is zero, and it is never
negative. -/
structure Owned (w : World) : Prop where
  unlocked : w.own = 0 → w.mutex.depth = 0
  nonneg : 0 ≤ w.mutex.depth

/-- **The switch is balanced**: the next task holds as many guards as the running one, with
those that it constructs on the way. -/
def Balanced (w : World) : Event → Prop
  | .schedule => ∀ t, (rotate w.proc.runqueue).head? = some t → w.guards t = w.own
  | .exit _ => ∀ t, (rotate (w.proc.runqueue.erase w.proc.current)).head? = some t →
      w.guards t = w.own + 1
  | _ => True

/-- **The depth counts the guards of the running task.** -/
structure Belongs (w : World) : Prop where
  good : Good w.proc
  activated : w.mutex.activated = true
  depth : w.mutex.depth = w.own

section Steps

variable {w w' : World} {ev : Event}

theorem Belongs.owned (h : Belongs w) : Owned w where
  unlocked hown := by rw [h.depth, hown, Nat.cast_zero]
  nonneg := h.depth ▸ Int.natCast_nonneg _

theorem Step.good (h : Step w ev w') (hgood : Good w.proc) : Good w'.proc := by
  cases h with
  | acquire => exact hgood
  | release => exact hgood
  | fork hown h => exact hgood.step (.fork h)
  | schedule hown h => exact hgood.step (.schedule h)
  | exit hown h => exact hgood.step (.exit _ h)
  | wait fuel hown h hblocked => exact hgood.step (.wait fuel h)

theorem activated_lock (m : Mutex.State) : (Mutex.lock m).activated = m.activated := by
  rw [Mutex.lock]
  split_ifs <;> rfl

theorem activated_release (m : Mutex.State) : (Mutex.release m).activated = m.activated := by
  rw [Mutex.release]
  split_ifs
  · dsimp only
    split_ifs <;> rfl
  · rfl

theorem depth_lock {m : Mutex.State} (h : m.activated = true) :
    (Mutex.lock m).depth = m.depth + 1 := by
  rw [Mutex.lock, if_pos h]
  rfl

theorem depth_release {m : Mutex.State} (h : m.activated = true) :
    (Mutex.release m).depth = m.depth - 1 := by
  rw [Mutex.release, if_pos h]
  dsimp only
  split_ifs <;> rfl

theorem Step.activated (h : Step w ev w') : w'.mutex.activated = w.mutex.activated := by
  cases h with
  | acquire => exact activated_lock _
  | release => exact activated_release _
  | exit hown h => exact activated_lock _
  | _ => rfl

theorem own_acquire : w.acquire.own = w.own + 1 := update_self ..

theorem own_release : w.release.own = w.own - 1 := update_self ..

/-- `wait` does not switch, if it does not block. -/
theorem current_wait {s s' : State} {fuel : ℕ} {result : WaitResult}
    (h : wait fuel s = .ok (result, s')) (hblocked : result ≠ .blocked) :
    s'.current = s.current := by
  cases outcome_wait h with
  | childless => rfl
  | blocked => exact absurd rfl hblocked
  | reaped hwait hterm hkept => exact hkept.current

/-- **One step keeps the depth with the running task exactly if it is balanced.** -/
theorem Step.belongs_iff (h : Step w ev w') (hw : Belongs w) : Belongs w' ↔ Balanced w ev := by
  have hiff : Belongs w' ↔ w'.mutex.depth = w'.own :=
    ⟨Belongs.depth, fun hdepth => ⟨h.good hw.good, h.activated.trans hw.activated, hdepth⟩⟩
  rw [hiff]
  have hdepth := hw.depth
  cases h with
  | acquire =>
    refine iff_of_true ?_ trivial
    rw [own_acquire, Nat.cast_succ, ← hdepth]
    exact depth_lock hw.activated
  | release hown =>
    refine iff_of_true ?_ trivial
    rw [own_release, Nat.cast_pred hown, ← hdepth]
    exact depth_release hw.activated
  | fork hown h =>
    refine iff_of_true ?_ trivial
    obtain ⟨-, rfl⟩ := Prod.mk.inj (Except.ok.inj (hw.good.fork_eq.symm.trans h))
    -- The child is new, so the guards of the parent are as before.
    have hne : w.proc.current ≠ w.proc.next := hw.good.ne_next hw.good.current_live
    change w.mutex.depth = (update w.guards w.proc.next w.own w.proc.current : ℤ)
    rw [update_of_ne hne]
    exact hdepth
  | @schedule proc hown h =>
    have hhead := head_schedule h
    change w.mutex.depth = (w.guards proc.current : ℤ) ↔ _
    rw [hdepth, Nat.cast_inj, Balanced, hhead]
    exact ⟨fun hEq t ht => Option.some.inj ht ▸ hEq.symm, fun hall => (hall _ rfl).symm⟩
  | @exit proc errorCode hown h =>
    obtain ⟨p, hp⟩ : ∃ p, w.proc.parent w.proc.current = some p := by
      refine Option.ne_none_iff_exists'.mp fun hnone => ?_
      rw [(hw.good.exit errorCode).2 hnone] at h
      cases h
    rw [hw.good.exit_eq hp] at h
    have hhead := head_schedule h
    change (rotate (w.proc.runqueue.erase w.proc.current)).head? = _ at hhead
    -- The task that exits is off the runqueue, so it is not the next one.
    have hne : proc.current ≠ w.proc.current := by
      intro hEq
      rw [hEq] at hhead
      have hmem := (rotate_perm _).mem_iff.mp (List.mem_of_head? hhead)
      exact hw.good.nodup.not_mem_erase hmem
    change (Mutex.lock w.mutex).depth =
      (update w.guards w.proc.current (w.own + 1) proc.current : ℤ) ↔ _
    rw [depth_lock hw.activated, hdepth, update_of_ne hne, Balanced, hhead]
    refine ⟨fun hEq t ht => ?_, fun hall => ?_⟩
    · obtain rfl := Option.some.inj ht
      omega
    · have := hall _ rfl
      omega
  | @wait proc result fuel hown h hblocked =>
    refine iff_of_true ?_ trivial
    change w.mutex.depth = (w.guards proc.current : ℤ)
    rw [current_wait h hblocked]
    exact hdepth

end Steps

/-- The first switch of the kernel goes to the init task. -/
theorem exists_first_switch {s₀ : State} (hboot : boot = .ok s₀) :
    ∃ s₁, schedule s₀ = .ok s₁ ∧ s₁.current = 2 := by
  have hgood := Good.boot s₀ hboot
  obtain ⟨s₁, hs₁, -⟩ := (hgood.toInv.schedule hgood.current_live).exists_ok trivial
  obtain ⟨-, -, -, -, hqueue, -⟩ := boot_eq hboot
  have hhead := head_schedule hs₁
  rw [hqueue] at hhead
  exact ⟨s₁, hs₁, (Option.some.inj hhead).symm⟩

/-- **The depth of the mutex belongs to the running task**, in every run of balanced steps from
a state where it does. -/
theorem owned_of_run {w₀ w : World} (hstart : Belongs w₀)
    (hrun : Run (fun w w' => ∃ ev, Balanced w ev ∧ Step w ev w') w₀ w) : Owned w := by
  have hinv : Belongs w := by
    refine hrun.invariant hstart ?_
    rintro w w' hw ⟨ev, hbalanced, hstep⟩
    exact (hstep.belongs_iff hw).mpr hbalanced
  exact hinv.owned

/-- A switch between two tasks that hold the guard of `schedule` each. The next one destroys
it, and then the depth is zero. -/
theorem owned_of_run_balanced : ∃ w₀ w : World, Belongs w₀ ∧ w.proc.current ≠ w₀.proc.current ∧
    w.own = 0 ∧ w₀.mutex.depth = 1 ∧ Owned w := by
  obtain ⟨s₀, hboot⟩ : ∃ s₀, boot = .ok s₀ := ⟨_, rfl⟩
  obtain ⟨s₁, hs₁, hcurrent⟩ := exists_first_switch hboot
  let w₀ : World := ⟨s₀, ⟨true, 1, true, true⟩, fun _ => 1⟩
  let w₁ : World := { w₀ with proc := s₁ }
  have hstart : Belongs w₀ := ⟨Good.boot s₀ hboot, rfl, rfl⟩
  have hfirst : Step w₀ .schedule w₁ := .schedule Nat.one_pos hs₁
  have hsecond : Step w₁ .release w₁.release := .release Nat.one_pos
  refine ⟨w₀, w₁.release, hstart, ?_, own_release, rfl, owned_of_run hstart ?_⟩
  · change s₁.current ≠ s₀.current
    rw [hcurrent, (boot_eq hboot).2.2.2.2.2.2.1]
    decide
  · exact (Relation.ReflTransGen.single ⟨.schedule, fun _ _ => rfl, hfirst⟩).tail
      ⟨.release, trivial, hsecond⟩

/-- From the start of the kernel: the idle task calls `schedule`, which constructs its guard
and switches to the init task. That one holds no guard, and the depth is 1. -/
theorem not_owned_of_first_switch : ∃ s₀ w, boot = .ok s₀ ∧
    Run (fun w w' => ∃ ev, Step w ev w') (World.start s₀) w ∧ ¬Owned w := by
  obtain ⟨s₀, hboot⟩ : ∃ s₀, boot = .ok s₀ := ⟨_, rfl⟩
  obtain ⟨s₁, hs₁, hcurrent⟩ := exists_first_switch hboot
  have hne : (2 : ℕ) ≠ s₀.current := by
    rw [(boot_eq hboot).2.2.2.2.2.2.1]
    decide
  let w₁ := (World.start s₀).acquire
  have hown : w₁.own = 1 := own_acquire
  have hsecond : Step w₁ .schedule { w₁ with proc := s₁ } :=
    .schedule (hown ▸ Nat.one_pos) hs₁
  refine ⟨s₀, _, hboot, (Relation.ReflTransGen.single ⟨_, .acquire⟩).tail ⟨_, hsecond⟩, fun howned => ?_⟩
  have hguards : World.own { w₁ with proc := s₁ } = 0 := by
    change update (fun _ => 0) s₀.current _ s₁.current = 0
    rw [hcurrent, update_of_ne hne]
  cases howned.unlocked hguards

end MutexDepth

end Valkyrie
