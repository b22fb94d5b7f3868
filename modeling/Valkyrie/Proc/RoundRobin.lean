import Valkyrie.Proc.Steps

/-!
# The order of the runqueue

`schedule` moves the first task of the runqueue to its end, on the assumption that it is the
one that was running. In that case the tasks are served in the order in which they began to
wait: the rest of the runqueue is sorted by that moment (`Valkyrie.RoundRobin.InOrder`), and
the first of it is next.

`exit` breaks the assumption. It takes the running task off the runqueue and then calls
`schedule`, which moves the one that has waited longest to the end. This goes well only if
there is just one task left, so the order is kept in the runs where this is so at every exit.
-/

namespace Valkyrie

namespace RoundRobin

open Exec Proc

/-- The tasks, the time, and for every task the moment since which it has been waiting. -/
structure World where
  proc : State
  clock : ℕ
  since : ℕ → ℕ

namespace World

/-- A step takes one unit of time. A task that waits has been waiting since the last moment at
which it was running, or was not on the runqueue yet. -/
def tick (proc : State) (w : World) : World where
  proc := proc
  clock := w.clock + 1
  since t := if t = w.proc.current ∨ t ∉ w.proc.runqueue then w.clock else w.since t

/-- The task waits for the processor. -/
def Waits (w : World) (t : ℕ) : Prop := t ∈ w.proc.runqueue ∧ t ≠ w.proc.current

/-- The start of the kernel, which has enqueued the tasks 1, 2 and 3 one after the other. -/
def start (proc : State) : World where
  proc := proc
  clock := 3
  since t := t - 1

/-- Of all the tasks that wait, this one does so longest. -/
structure Longest (w : World) (t : ℕ) : Prop where
  waits : w.Waits t
  first : ∀ u, w.Waits u → u ≠ t → w.since t < w.since u

end World

/-- **One step.** -/
def Step (w : World) (call : Call) (w' : World) : Prop :=
  ∃ (fuel : ℕ) (result : Option WaitResult) (proc : State),
    call.exec fuel w.proc = .ok (result, proc) ∧ w' = w.tick proc

/-- The runs of the steps that meet a condition. -/
abbrev Runs (P : World → Call → Prop) : World → World → Prop :=
  Run fun w w' => ∃ call, P w call ∧ Step w call w'

/-- **The property**, for the steps that meet a condition. A task that receives the processor
is the one that has waited longest; and a run that never gets to `x` never gets to `y` either,
if `x` is ahead of `y` and both wait. -/
structure Ordered (P : World → Call → Prop) (w : World) : Prop where
  longest : ∀ call w', P w call → Step w call w' → w'.proc.current ≠ w.proc.current →
    w.Longest w'.proc.current
  ahead : ∀ x y, w.Waits x → w.Waits y → [x, y].Sublist w.proc.runqueue → ∀ w',
    Run (fun w w' => (∃ call, P w call ∧ Step w call w') ∧ w'.proc.current ≠ x) w w' →
      w'.proc.current ≠ y

/-- At an exit there is at most one other task. -/
def OneOther (w : World) : Call → Prop
  | .exit _ => w.proc.runqueue.length ≤ 2
  | _ => True

/-! ### What a call does to the runqueue -/

/-- **The runqueue after a call.** -/
inductive Moves (queue : List ℕ) : Call → List ℕ → Prop
  | same {call : Call} : Moves queue call queue
  | enqueued {t : ℕ} (h : t ∉ queue) : Moves queue .fork (queue ++ [t])
  | rotated {call : Call} : Moves queue call (rotate queue)
  | removed {t : ℕ} {rest : List ℕ} (code : ℤ) (h : queue = t :: rest) :
      Moves queue (.exit code) (rotate rest)

section Moves

variable {s s' : State} {call : Call} {result : Option WaitResult} {w w' : World}

theorem exists_runqueue_eq (h : Good s) : ∃ rest, s.runqueue = s.current :: rest := by
  cases hqueue : s.runqueue with
  | nil => exact absurd h.current_queued (hqueue ▸ List.not_mem_nil)
  | cons t rest =>
    have hhead := h.head
    rw [hqueue] at hhead
    obtain rfl := Option.some.inj hhead
    exact ⟨rest, rfl⟩

theorem moves (hgood : Good s) (h : Outcome s call result s') :
    Moves s.runqueue call s'.runqueue := by
  cases h with
  | forked => exact .enqueued fun hmem => hgood.next_not_live (hgood.queued _ hmem)
  | scheduled =>
    rw [scheduled_runqueue]
    exact .rotated
  | exited code hp =>
    obtain ⟨rest, hrest⟩ := exists_runqueue_eq hgood
    have herase : s.runqueue.erase s.current = rest := by rw [hrest, List.erase_cons_head]
    rw [scheduled_runqueue]
    change Moves _ _ (rotate (s.runqueue.erase s.current))
    rw [herase]
    exact .removed code hrest
  | childless => exact .same
  | blocked =>
    rw [scheduled_runqueue]
    exact .rotated
  | reaped hwait hterm hkept =>
    rw [hkept.runqueue]
    exact .same

/-! ### The invariant -/

/-- **The tasks that wait are sorted** by the moment at which they began to. -/
structure InOrder (w : World) : Prop where
  good : Good w.proc
  sorted : w.proc.runqueue.tail.Pairwise fun t u => w.since t < w.since u
  past : ∀ t ∈ w.proc.runqueue.tail, w.since t < w.clock

theorem Step.good (hgood : Good w.proc) (h : Step w call w') : Good w'.proc := by
  obtain ⟨fuel, result, proc, hcall, rfl⟩ := h
  exact hgood.step (Call.step hcall)

theorem Step.moves (hgood : Good w.proc) (h : Step w call w') :
    Moves w.proc.runqueue call w'.proc.runqueue := by
  obtain ⟨fuel, result, proc, hcall, rfl⟩ := h
  exact RoundRobin.moves hgood (hgood.outcome hcall)

theorem Step.clock (h : Step w call w') : w'.clock = w.clock + 1 := by
  obtain ⟨fuel, result, proc, hcall, rfl⟩ := h
  rfl

theorem Step.since (h : Step w call w') (t : ℕ) :
    w'.since t = if t = w.proc.current ∨ t ∉ w.proc.runqueue then w.clock else w.since t := by
  obtain ⟨fuel, result, proc, hcall, rfl⟩ := h
  rfl

/-- The tasks behind the running one go on waiting. -/
theorem Step.since_tail (h : Step w call w') {rest : List ℕ} (hgood : Good w.proc)
    (hrest : w.proc.runqueue = w.proc.current :: rest) {t : ℕ} (ht : t ∈ rest) :
    w'.since t = w.since t := by
  have hnodup := hgood.nodup
  rw [hrest] at hnodup
  have hmem : t ∈ w.proc.runqueue := hrest ▸ List.mem_cons_of_mem _ ht
  have hne : t ≠ w.proc.current := fun hEq => (List.nodup_cons.mp hnodup).1 (hEq ▸ ht)
  rw [h.since, if_neg]
  exact not_or.mpr ⟨hne, not_not.mpr hmem⟩

theorem head_eq (hgood : Good s) {t : ℕ} {rest : List ℕ} (h : s.runqueue = t :: rest) :
    s.current = t := by
  have hhead := hgood.head
  rw [h] at hhead
  exact (Option.some.inj hhead).symm

/-- **One step keeps the order.** -/
theorem InOrder.step (hw : InOrder w) (hother : OneOther w call) (h : Step w call w') :
    InOrder w' := by
  obtain ⟨rest, hrest⟩ := exists_runqueue_eq hw.good
  have hsince : ∀ {t}, t ∈ rest → w'.since t = w.since t := h.since_tail hw.good hrest
  have hsorted : rest.Pairwise fun t u => w'.since t < w'.since u := by
    have hold := hw.sorted
    rw [hrest, List.tail_cons] at hold
    refine hold.imp_of_mem fun ht hu hlt => ?_
    rwa [hsince ht, hsince hu]
  have hpast : ∀ t ∈ rest, w'.since t < w.clock := by
    intro t ht
    have hold := hw.past t
    rw [hrest, List.tail_cons] at hold
    rw [hsince ht]
    exact hold ht
  have hlater : ∀ {t}, w'.since t ≤ w.clock → w'.since t < w'.clock := fun hle => by
    rw [h.clock]
    exact Nat.lt_succ_of_le hle
  -- A task that is put at the end begins to wait now.
  have happend : ∀ {us : List ℕ} {t : ℕ}, us.Sublist rest → w'.since t = w.clock →
      (us ++ [t]).Pairwise (fun t u => w'.since t < w'.since u) ∧
        ∀ u ∈ us ++ [t], w'.since u < w'.clock := by
    intro us t hus ht
    refine ⟨List.pairwise_append.mpr ⟨hsorted.sublist hus, List.pairwise_singleton _ _, ?_⟩, ?_⟩
    · intro u hu v hv
      rw [List.mem_singleton.mp hv, ht]
      exact hpast u (hus.subset hu)
    · intro u hu
      rcases List.mem_append.mp hu with hu' | hu'
      · exact hlater (hpast u (hus.subset hu')).le
      · rw [List.mem_singleton.mp hu']
        exact hlater ht.le
  have hcurrent : w'.since w.proc.current = w.clock := by
    rw [h.since, if_pos (Or.inl rfl)]
  suffices htail : w'.proc.runqueue.tail.Pairwise (fun t u => w'.since t < w'.since u) ∧
      ∀ t ∈ w'.proc.runqueue.tail, w'.since t < w'.clock from ⟨h.good hw.good, htail.1, htail.2⟩
  have hmoves := h.moves hw.good
  generalize w'.proc.runqueue = queue' at hmoves
  cases hmoves with
  | same =>
    rw [hrest]
    exact ⟨hsorted, fun t ht => hlater (hpast t ht).le⟩
  | @enqueued t hnew =>
    rw [hrest, List.cons_append, List.tail_cons]
    exact happend (List.Sublist.refl _) (by rw [h.since, if_pos (Or.inr hnew)])
  | rotated =>
    rw [hrest]
    cases rest with
    | nil => exact ⟨List.Pairwise.nil, fun t ht => absurd ht List.not_mem_nil⟩
    | cons u us => exact happend (List.sublist_cons_self u us) hcurrent
  | removed code hqueue =>
    obtain ⟨-, rfl⟩ := List.cons.inj (hrest.symm.trans hqueue)
    have hlength : rest.length ≤ 1 := by
      have hle : w.proc.runqueue.length ≤ 2 := hother
      rw [hrest, List.length_cons] at hle
      omega
    -- One task is left, which nobody is waiting behind.
    rcases rest with _ | ⟨u, _ | ⟨v, us⟩⟩
    · exact ⟨List.Pairwise.nil, fun t ht => absurd ht List.not_mem_nil⟩
    · exact ⟨List.Pairwise.nil, fun t ht => absurd ht List.not_mem_nil⟩
    · rw [List.length_cons, List.length_cons] at hlength
      omega

/-- **The next task is the one that has waited longest.** -/
theorem InOrder.longest (hw : InOrder w) (hother : OneOther w call) (h : Step w call w')
    (hne : w'.proc.current ≠ w.proc.current) : w.Longest w'.proc.current := by
  obtain ⟨rest, hrest⟩ := exists_runqueue_eq hw.good
  have hgood' := h.good hw.good
  have hwaits : ∀ {u}, w.Waits u → u ∈ rest := by
    rintro u ⟨hu, hucur⟩
    rw [hrest] at hu
    exact (List.mem_cons.mp hu).resolve_left hucur
  -- It is enough that the next task is the first of the rest.
  have hfirst : ∀ {u us}, rest = u :: us → w'.proc.current = u → w.Longest w'.proc.current := by
    rintro u us rfl hu
    have hsorted := hw.sorted
    rw [hrest, List.tail_cons] at hsorted
    refine ⟨⟨?_, hne⟩, fun v hv hvu => ?_⟩
    · rw [hu, hrest]
      exact List.mem_cons_of_mem _ List.mem_cons_self
    · rw [hu] at hvu ⊢
      exact List.rel_of_pairwise_cons hsorted ((List.mem_cons.mp (hwaits hv)).resolve_left hvu)
  have hmoves := h.moves hw.good
  generalize hqueue' : w'.proc.runqueue = queue' at hmoves
  cases hmoves with
  | same => exact absurd (head_eq hgood' (hqueue'.trans hrest)) hne
  | enqueued =>
    rw [hrest, List.cons_append] at hqueue'
    exact absurd (head_eq hgood' hqueue') hne
  | rotated =>
    rw [hrest] at hqueue'
    cases rest with
    | nil => exact absurd (head_eq hgood' hqueue') hne
    | cons u us => exact hfirst rfl (head_eq hgood' hqueue')
  | removed code hqueue =>
    obtain ⟨-, rfl⟩ := List.cons.inj (hrest.symm.trans hqueue)
    have hle : w.proc.runqueue.length ≤ 2 := hother
    rw [hrest] at hle
    rcases rest with _ | ⟨u, _ | ⟨v, us⟩⟩
    · obtain ⟨rest', hrest'⟩ := exists_runqueue_eq hgood'
      cases hqueue'.symm.trans hrest'
    · exact hfirst rfl (head_eq hgood' hqueue')
    · rw [List.length_cons, List.length_cons, List.length_cons] at hle
      omega

/-- **One step keeps `x` ahead of `y`**, unless it gives the processor to `x`. -/
theorem ahead_step {x y : ℕ} (hgood : Good w.proc) (hother : OneOther w call)
    (h : Step w call w') (hx : w'.proc.current ≠ x) (hahead : [x, y].Sublist w.proc.runqueue.tail) :
    [x, y].Sublist w'.proc.runqueue.tail := by
  obtain ⟨rest, hrest⟩ := exists_runqueue_eq hgood
  have hgood' := h.good hgood
  rw [hrest, List.tail_cons] at hahead
  have hmoves := h.moves hgood
  generalize hqueue' : w'.proc.runqueue = queue' at hmoves
  cases hmoves with
  | same => rwa [hrest, List.tail_cons]
  | enqueued =>
    rw [hrest, List.cons_append, List.tail_cons]
    exact hahead.trans (List.sublist_append_left _ _)
  | rotated =>
    rw [hrest] at hqueue' ⊢
    cases rest with
    | nil => cases hahead
    | cons u us =>
      have hu : x ≠ u := fun hEq => hx ((head_eq hgood' hqueue').trans hEq.symm)
      refine List.Sublist.trans ?_ (List.sublist_append_left us [w.proc.current])
      cases hahead with
      | cons _ hsub => exact hsub
      | cons_cons => exact absurd rfl hu
  | removed code hqueue =>
    obtain ⟨-, rfl⟩ := List.cons.inj (hrest.symm.trans hqueue)
    have hle : w.proc.runqueue.length ≤ 2 := hother
    have hlength := hahead.length_le
    rw [hrest] at hle
    simp only [List.length_cons, List.length_nil] at hle hlength
    omega

theorem not_current_of_tail {y : ℕ} (hgood : Good s) (hy : y ∈ s.runqueue.tail) :
    s.current ≠ y := by
  obtain ⟨rest, hrest⟩ := exists_runqueue_eq hgood
  have hnodup := hgood.nodup
  rw [hrest] at hnodup hy
  rintro rfl
  exact (List.nodup_cons.mp hnodup).1 hy

theorem InOrder.ahead (hw : InOrder w) {x y : ℕ} (hx : w.Waits x)
    (hahead : [x, y].Sublist w.proc.runqueue)
    (hrun : Run (fun w w' => (∃ call, OneOther w call ∧ Step w call w') ∧ w'.proc.current ≠ x)
      w w') : w'.proc.current ≠ y := by
  obtain ⟨rest, hrest⟩ := exists_runqueue_eq hw.good
  have htail : [x, y].Sublist w.proc.runqueue.tail := by
    rw [hrest] at hahead ⊢
    cases hahead with
    | cons _ hsub => exact hsub
    | cons_cons => exact absurd rfl hx.2
  have hinv : Good w'.proc ∧ [x, y].Sublist w'.proc.runqueue.tail := by
    refine hrun.invariant (P := fun w => Good w.proc ∧ [x, y].Sublist w.proc.runqueue.tail)
      ⟨hw.good, htail⟩ ?_
    rintro w₁ w₂ ⟨hgood, hsub⟩ ⟨⟨call, hother, hstep⟩, hne⟩
    exact ⟨hstep.good hgood, ahead_step hgood hother hstep hne hsub⟩
  exact not_current_of_tail hinv.1 (hinv.2.subset (List.mem_cons_of_mem x List.mem_cons_self))

end Moves

theorem inOrder_start {s₀ : State} (hboot : boot = .ok s₀) : InOrder (World.start s₀) := by
  obtain ⟨-, -, -, -, hqueue, -⟩ := boot_eq hboot
  refine ⟨Good.boot s₀ hboot, ?_, ?_⟩
  · change s₀.runqueue.tail.Pairwise fun t u => t - 1 < u - 1
    rw [hqueue]
    decide
  · change ∀ t ∈ s₀.runqueue.tail, t - 1 < 3
    rw [hqueue]
    decide

/-- **The processor goes round**, in every run in which an exit leaves at most one task, from
every state where the waiting tasks are in order, such as the start of the kernel. -/
theorem ordered_of_run {w₀ w : World} (hstart : InOrder w₀) (hrun : Runs OneOther w₀ w) :
    Ordered OneOther w := by
  have hw : InOrder w := by
    refine hrun.invariant hstart ?_
    rintro w w' hw ⟨call, hother, hstep⟩
    exact hw.step hother hstep
  exact ⟨fun call w' hother hstep hne => hw.longest hother hstep hne,
    fun x y hx _ hahead w' hrun' => hw.ahead hx hahead hrun'⟩

/-- The first switch of the kernel. -/
theorem ordered_of_run_first : ∃ s₀ w, boot = .ok s₀ ∧ Runs OneOther (World.start s₀) w ∧
    w.proc.current = 2 ∧ Ordered OneOther w := by
  have hcheck : check (fun s₀ => check (fun r => decide (r.2.current = 2))
      (Call.exec 0 s₀ .schedule)) boot = true := by decide +kernel
  obtain ⟨s₀, hboot, hcheck'⟩ := exists_ok_of_check hcheck
  obtain ⟨⟨result, s₁⟩, hs₁, hcurrent⟩ := exists_ok_of_check hcheck'
  have hrun : Runs OneOther (World.start s₀) ((World.start s₀).tick s₁) :=
    .single ⟨.schedule, trivial, 0, result, s₁, hs₁, rfl⟩
  exact ⟨s₀, _, hboot, hrun, of_decide_eq_true hcurrent, ordered_of_run (inOrder_start hboot) hrun⟩

/-! ### What an exit does -/

/-- One call after the other. -/
def execAll (fuel : ℕ) (calls : List Call) (w : World) : Exec World :=
  calls.foldlM (fun w call => do
    let (_, proc) ← call.exec fuel w.proc
    return w.tick proc) w

theorem runs_execAll {w : World} (fuel : ℕ) (calls : List Call) :
    Ensures (execAll fuel calls w) (Runs (fun _ _ => True) w) := by
  refine ensures_foldlM (I := fun _ w' => Runs (fun _ _ => True) w w') (fun call _ _ hrun => ?_) _ _
    .refl
  refine ensures_bind fun r hr => ensures_pure ?_
  exact hrun.tail ⟨call, trivial, fuel, r.1, r.2, hr, rfl⟩

/-- The init task forks, and the processor goes round until it comes to the child. When it
exits, the init task has waited longest; but `schedule` moves it to the end, and the kthreadd task
is next. -/
theorem not_ordered_of_exit : ∃ s₀ w, boot = .ok s₀ ∧
    Runs (fun _ _ => True) (World.start s₀) w ∧ ¬Ordered (fun _ _ => True) w := by
  have hcheck : check (fun s₀ => check (fun w =>
      decide (w.proc.runqueue = [4, 2, 3, 1]) && decide (w.since 2 < w.since 3) &&
        check (fun r => decide (r.2.current = 3)) (Call.exec 0 w.proc (.exit 0)))
      (execAll 0 [.schedule, .fork, .schedule, .schedule, .schedule] (World.start s₀)))
      boot = true := by decide +kernel
  obtain ⟨s₀, hboot, hcheck'⟩ := exists_ok_of_check hcheck
  obtain ⟨w, hw, htest⟩ := exists_ok_of_check hcheck'
  simp only [Bool.and_eq_true, decide_eq_true_eq] at htest
  obtain ⟨⟨hqueue, hsince⟩, hexit⟩ := htest
  obtain ⟨⟨result, proc⟩, hproc, hcurrent⟩ := exists_ok_of_check hexit
  have hrun := runs_execAll 0 _ w hw
  have hgood : Good w.proc := by
    refine hrun.invariant (P := fun w => Good w.proc) (Good.boot s₀ hboot) ?_
    rintro w w' hgood ⟨call, -, hstep⟩
    exact hstep.good hgood
  have hcur := head_eq hgood hqueue
  refine ⟨s₀, w, hboot, hrun, fun hordered => ?_⟩
  have hnext : (w.tick proc).proc.current = 3 := of_decide_eq_true hcurrent
  have hlongest := hordered.longest (.exit 0) (w.tick proc) trivial ⟨0, result, proc, hproc, rfl⟩
    (by rw [hnext, hcur]; decide)
  rw [hnext] at hlongest
  have hfirst : w.Waits 2 := by
    refine ⟨?_, ?_⟩
    · rw [hqueue]
      decide
    · rw [hcur]
      decide
  exact lt_asymm hsince (hlongest.first 2 hfirst (by decide))

end RoundRobin

end Valkyrie
