import Valkyrie.Proc.Steps

/-!
# What the states of the tasks say

Three functions write the state of a task. `enqueue_task` sets it to running, although the task
has only been put on the runqueue; `exit` sets it to terminated; and `schedule`, which `exit`
calls at its end, sets the state of the current task to sleeping, whatever it was. So a task
that never ran says that it runs, and one that has terminated says that it sleeps.

`Valkyrie.TaskStates.Stated` is what the states say in every state reached, and
`Valkyrie.TaskStates.truthful_iff_of_run` is when this is the truth.
-/

namespace Valkyrie.TaskStates

open Exec Function Proc Finset

/-- The tasks, and those of them that have had the processor. -/
structure World where
  proc : State
  ran : Finset ℕ

/-- The start of the kernel. -/
def World.start (proc : State) : World := ⟨proc, {proc.current}⟩

/-- **One step.** The current task runs. -/
structure Step (w w' : World) : Prop where
  proc : Proc.Step w.proc w'.proc
  ran : w'.ran = insert w'.proc.current w.ran

/-- **The states of the tasks are truthful.** -/
structure Truthful (w : World) : Prop where
  head : w.proc.runqueue.head? = some w.proc.current
  running : ∀ t ∈ w.proc.live, w.proc.state t = .running ↔ t = w.proc.current
  queued : ∀ t ∈ w.proc.runqueue, t ≠ w.proc.current → w.proc.state t = .sleeping ∨ t ∉ w.ran
  terminated : ∀ q ∈ w.proc.live, ∀ c ∈ w.proc.terminatedChildren q, w.proc.state c = .terminated

/-! ### The invariant -/

/-- The states of the tasks other than the current one: those on the runqueue that never ran
are running, all others are sleeping. -/
structure Others (ran : Finset ℕ) (s : State) : Prop where
  queued : ∀ t ∈ s.runqueue, t ≠ s.current → s.state t = if t ∈ ran then .sleeping else .running
  zombie : ∀ t ∈ s.live, t ∉ s.runqueue → t ≠ s.current → s.state t = .sleeping

/-- **What the states say.** -/
structure Stated (w : World) : Prop where
  good : Good w.proc
  past : ∀ t ∈ w.ran, t < w.proc.next
  ran : w.proc.current ∈ w.ran
  running : w.proc.state w.proc.current = .running
  others : Others w.ran w.proc

section Steps

variable {s s' : State} {ran : Finset ℕ} {w w' : World}

theorem rotate_ne_nil {queue : List ℕ} (h : queue ≠ []) : rotate queue ≠ [] := by
  intro hnil
  have hlength := (rotate_perm queue).length_eq
  rw [hnil, List.length_nil] at hlength
  exact h (List.length_eq_zero_iff.mp hlength.symm)

/-- **A context switch**: the current task sleeps, the next one runs. -/
theorem Others.scheduled (h : Others ran s) (hran : s.current ∈ ran) (hne : s.runqueue ≠ []) :
    (scheduled s).state (scheduled s).current = .running ∧
      Others (insert (scheduled s).current ran) (scheduled s) := by
  obtain ⟨front, rest, hqueue⟩ := List.exists_cons_of_ne_nil (rotate_ne_nil hne)
  rw [scheduled_of_cons hqueue]
  have hmem : ∀ t, t ∈ front :: rest ↔ t ∈ s.runqueue := fun t => by
    rw [← hqueue]
    exact (rotate_perm s.runqueue).mem_iff
  refine ⟨update_self .., fun t ht hfront => ?_, fun t ht hnot hfront => ?_⟩
  · dsimp only at ht hfront ⊢
    rw [update_of_ne hfront, update_apply]
    have hiff : t ∈ insert front ran ↔ t ∈ ran := by
      rw [mem_insert, or_iff_right hfront]
    simp only [hiff]
    split_ifs with hcur hin hin
    · rfl
    · exact absurd (hcur ▸ hran) hin
    · rw [h.queued t ((hmem t).mp ht) hcur, if_pos hin]
    · rw [h.queued t ((hmem t).mp ht) hcur, if_neg hin]
  · dsimp only at ht hnot hfront ⊢
    rw [update_of_ne hfront, update_apply]
    split_ifs with hcur
    · rfl
    · exact h.zombie t ht (fun hmem' => hnot ((hmem t).mpr hmem')) hcur

/-- The current task leaves the runqueue. Its own state is not looked at. -/
theorem Others.exited (h : Others ran s) (p : ℕ) (code : ℤ) :
    Others ran (exited s.current p code s) where
  queued t ht hne := by
    change t ≠ s.current at hne
    change update s.state s.current .terminated t = _
    rw [update_of_ne hne]
    exact h.queued t (List.mem_of_mem_erase ht) hne
  zombie t ht hnot hne := by
    change t ≠ s.current at hne
    change update s.state s.current .terminated t = _
    rw [update_of_ne hne]
    exact h.zombie t ht (fun hmem => hnot ((List.mem_erase_of_ne hne).mpr hmem)) hne

theorem Stated.forked (h : Stated w) (hw' : w'.proc = forked w.proc)
    (hran : w'.ran = insert w'.proc.current w.ran) : Stated w' := by
  obtain ⟨proc', ran'⟩ := w'
  obtain rfl : proc' = forked w.proc := hw'
  have hnew : w.proc.next ∉ w.ran := fun hmem => lt_irrefl _ (h.past _ hmem)
  have hcur : w.proc.current ≠ w.proc.next := fun hEq => hnew (hEq ▸ h.ran)
  obtain rfl : ran' = w.ran := hran.trans (insert_eq_of_mem h.ran)
  have hstate : ∀ t, t ≠ w.proc.next → (forked w.proc).state t = w.proc.state t := by
    intro t ht
    change update (update w.proc.state w.proc.next _) w.proc.next _ t = _
    rw [update_of_ne ht, update_of_ne ht]
  refine ⟨h.good.fork, fun t ht => Nat.lt_succ_of_lt (h.past t ht), h.ran, ?_, ?_, ?_⟩
  · exact (hstate _ hcur).trans h.running
  · intro t ht hne
    rcases List.mem_append.mp ht with hold | hadded
    · rw [hstate t (h.good.ne_next (h.good.queued t hold))]
      exact h.others.queued t hold hne
    · obtain rfl := List.mem_singleton.mp hadded
      rw [if_neg hnew]
      exact update_self ..
  · intro t ht hnot hne
    have hqueue : t ∉ w.proc.runqueue ∧ t ≠ w.proc.next := by
      change t ∉ w.proc.runqueue ++ [w.proc.next] at hnot
      rw [List.mem_append, List.mem_singleton] at hnot
      exact not_or.mp hnot
    rw [hstate t hqueue.2]
    exact h.others.zombie t ((mem_insert.mp ht).resolve_left hqueue.2) hqueue.1 hne

/-- **One step keeps what the states say.** -/
theorem Stated.step (h : Stated w) (hstep : Step w w') : Stated w' := by
  obtain ⟨fuel, call, result, hcall⟩ := hstep.proc.exists_call
  have hgood := h.good.step hstep.proc
  have hran := hstep.ran
  have hcurrent : w'.proc.current ∈ w'.ran := hran ▸ mem_insert_self _ _
  -- A switch, from the state before or from the one that an exit leaves.
  have hswitch : ∀ {s}, Others w.ran s → s.current ∈ w.ran → s.runqueue ≠ [] →
      s.next = w.proc.next → w'.proc = scheduled s → Stated w' := by
    intro s hothers hcur hne hnext hEq
    obtain ⟨hrunning, hothers'⟩ := hothers.scheduled hcur hne
    rw [← hEq] at hrunning hothers'
    have hnext' : w'.proc.next = w.proc.next := by
      rw [hEq, ← hnext, scheduled]
      split <;> rfl
    refine ⟨hgood, fun t ht => ?_, hcurrent, hrunning, hran ▸ hothers'⟩
    rw [hran] at ht
    rcases mem_insert.mp ht with rfl | hold
    · exact hgood.bound _ hgood.current_live
    · exact hnext' ▸ h.past t hold
  have hqueue : w.proc.runqueue ≠ [] := List.ne_nil_of_mem h.good.current_queued
  generalize hproc : w'.proc = proc' at hcall
  cases h.good.outcome hcall with
  | forked => exact h.forked hproc hran
  | scheduled => exact hswitch h.others h.ran hqueue rfl hproc
  | exited code hp =>
    refine hswitch (h.others.exited _ code) h.ran ?_ rfl hproc
    exact List.ne_nil_of_mem (h.good.toInv.exited h.good.current_queued hp code).init
  | childless =>
    rw [hproc, insert_eq_of_mem h.ran] at hran
    obtain rfl : w' = w := by
      obtain ⟨proc', ran'⟩ := w'
      obtain rfl : proc' = w.proc := hproc
      obtain rfl : ran' = w.ran := hran
      rfl
    exact h
  | blocked => exact hswitch h.others h.ran hqueue rfl hproc
  | reaped hwait hterm hkept =>
    rw [← hproc] at hkept
    rw [hkept.current] at hran
    change w'.ran = insert w.proc.current w.ran at hran
    rw [insert_eq_of_mem h.ran] at hran
    refine ⟨hgood, fun t ht => ?_, hcurrent, ?_, fun t ht hne => ?_, fun t ht hnot hne => ?_⟩
    · rw [hkept.next]
      exact h.past t (hran ▸ ht)
    · rw [hkept.state, hkept.current]
      exact h.running
    · rw [hkept.runqueue] at ht
      rw [hkept.current] at hne
      rw [hkept.state, hran]
      exact h.others.queued t ht hne
    · rw [hkept.runqueue] at hnot
      rw [hkept.current] at hne
      rw [hkept.state]
      exact h.others.zombie t (hkept.live ht) hnot hne

theorem stated_start (hboot : boot = .ok s) : Stated (World.start s) := by
  have hgood := Good.boot s hboot
  have hstate : ∀ t ∈ [1, 2, 3], s.state t = .running := by
    obtain rfl := Except.ok.inj hboot
    intro t ht
    simp only [List.mem_cons, List.not_mem_nil, or_false] at ht
    rcases ht with rfl | rfl | rfl <;> rfl
  obtain ⟨-, -, -, hlive, hqueue, -⟩ := boot_eq hboot
  refine ⟨hgood, fun t ht => ?_, mem_singleton_self _, ?_, fun t ht hne => ?_,
    fun t ht hnot => ?_⟩
  · rw [mem_singleton.mp ht]
    exact hgood.bound _ hgood.current_live
  · exact hstate _ (hqueue ▸ hgood.current_queued)
  · have hnot : t ∉ (World.start s).ran := fun hmem => hne (mem_singleton.mp hmem)
    rw [if_neg hnot]
    exact hstate t (hqueue ▸ ht)
  · refine absurd ?_ hnot
    have hstarted : ∀ t ∈ started, t ∈ [1, 2, 3] := by decide
    change t ∈ s.runqueue
    rw [hqueue]
    exact hstarted t (hlive ▸ ht)

/-- **When the states are truthful**: as long as no task waits for its first turn, and there
are no zombies. -/
theorem Stated.truthful_iff (h : Stated w) : Truthful w ↔
    (∀ t ∈ w.proc.runqueue, t ∈ w.ran) ∧ ∀ q ∈ w.proc.live, w.proc.terminatedChildren q = [] := by
  have hzombie : ∀ q ∈ w.proc.live, ∀ c ∈ w.proc.terminatedChildren q, w.proc.state c = .sleeping := by
    intro q hq c hc
    obtain ⟨-, hnot, hclive, -⟩ := h.good.terminated q hq (notMem_empty q) c hc
    exact h.others.zombie c hclive hnot fun hEq => hnot (hEq ▸ h.good.current_queued)
  constructor
  · intro htrue
    constructor
    · intro t ht
      by_contra hnot
      have hne : t ≠ w.proc.current := fun hEq => hnot (hEq ▸ h.ran)
      have hrunning := h.others.queued t ht hne
      rw [if_neg hnot] at hrunning
      exact hne ((htrue.running t (h.good.queued t ht)).mp hrunning)
    · intro q hq
      refine List.eq_nil_iff_forall_not_mem.mpr fun c hc => ?_
      have hterm := htrue.terminated q hq c hc
      rw [hzombie q hq c hc] at hterm
      cases hterm
  · rintro ⟨hran, hnone⟩
    have hsleeping : ∀ t ∈ w.proc.live, t ≠ w.proc.current → w.proc.state t = .sleeping := by
      intro t ht hne
      by_cases hq : t ∈ w.proc.runqueue
      · rw [h.others.queued t hq hne, if_pos (hran t hq)]
      · exact h.others.zombie t ht hq hne
    refine ⟨h.good.head, fun t ht => ⟨fun hrunning => ?_, fun hEq => hEq ▸ h.running⟩, ?_, ?_⟩
    · by_contra hne
      rw [hsleeping t ht hne] at hrunning
      cases hrunning
    · exact fun t ht hne => Or.inl (hsleeping t (h.good.queued t ht) hne)
    · intro q hq c hc
      rw [hnone q hq] at hc
      exact absurd hc List.not_mem_nil

end Steps

/-- **The states of the tasks are truthful exactly if every task on the runqueue has run, and
no task has terminated that was not waited for**, in every state reached from the start of
the kernel. -/
theorem truthful_iff_of_run {s₀ : State} {w : World} (hboot : boot = .ok s₀)
    (hrun : Run Step (World.start s₀) w) : Truthful w ↔
      (∀ t ∈ w.proc.runqueue, t ∈ w.ran) ∧
        ∀ q ∈ w.proc.live, w.proc.terminatedChildren q = [] :=
  (hrun.invariant (stated_start hboot) fun _ _ h hstep => h.step hstep).truthful_iff

/-- After two switches each of the three tasks has run. -/
theorem truthful_iff_of_run_two_switches : ∃ s₀ w, boot = .ok s₀ ∧
    Run Step (World.start s₀) w ∧ w.proc.current = 3 ∧ Truthful w := by
  have hcheck : check (fun s₀ => check (fun s₁ => decide (s₁.current = 2) &&
      check (fun s₂ => decide (s₂.current = 3) && decide (s₂.runqueue = [3, 1, 2]) &&
        decide (s₂.live = {1, 2, 3}) && decide (∀ q ∈ s₂.live, s₂.terminatedChildren q = []) &&
        decide (s₀.current = 1)) (schedule s₁)) (schedule s₀)) boot = true := by
    decide +kernel
  obtain ⟨s₀, hboot, hcheck'⟩ := exists_ok_of_check hcheck
  obtain ⟨s₁, hs₁, htest⟩ := exists_ok_of_check hcheck'
  obtain ⟨hsecond, hcheck''⟩ := Bool.and_eq_true_iff.mp htest
  obtain ⟨s₂, hs₂, htest'⟩ := exists_ok_of_check hcheck''
  simp only [Bool.and_eq_true, decide_eq_true_eq] at htest' hsecond
  obtain ⟨⟨⟨⟨hthird, hqueue⟩, -⟩, hnone⟩, hfirst⟩ := htest'
  let w₁ : World := ⟨s₁, insert s₁.current {s₀.current}⟩
  let w₂ : World := ⟨s₂, insert s₂.current w₁.ran⟩
  have hrun : Run Step (World.start s₀) w₂ :=
    (Relation.ReflTransGen.single (b := w₁) ⟨.schedule hs₁, rfl⟩).tail ⟨.schedule hs₂, rfl⟩
  refine ⟨s₀, w₂, hboot, hrun, hthird, (truthful_iff_of_run hboot hrun).mpr ⟨?_, hnone⟩⟩
  change ∀ t ∈ s₂.runqueue, t ∈ insert s₂.current (insert s₁.current ({s₀.current} : Finset ℕ))
  rw [hqueue, hthird, hsecond, hfirst]
  decide

/-- At the start of the kernel the idle task runs, and the init task, which has not run yet,
says that it does. -/
theorem not_truthful_at_start : ∃ s₀, boot = .ok s₀ ∧ ¬Truthful (World.start s₀) := by
  obtain ⟨s₀, hboot⟩ : ∃ s₀, boot = .ok s₀ := ⟨_, rfl⟩
  refine ⟨s₀, hboot, fun htrue => ?_⟩
  obtain ⟨-, -, -, hlive, -, -, hcurrent, -⟩ := boot_eq hboot
  have hrunning : s₀.state 2 = .running := by
    obtain rfl := Except.ok.inj hboot
    rfl
  have hmem : 2 ∈ s₀.live := by
    rw [hlive]
    decide
  have hEq : 2 = s₀.current := (htrue.running 2 hmem).mp hrunning
  rw [hcurrent] at hEq
  cases hEq

end Valkyrie.TaskStates
