import Valkyrie.Proc.ProcessTree

/-!
# What a step of the current task comes to

The calls of the process tree are written with accesses that can fail. In a state that is in
order they do not, and then a call is one of five things: a new task, a context switch, the
end of the current task and a context switch, the destruction of a terminated child, or
nothing at all. `Valkyrie.Proc.Good.outcome` says so, and what follows about scheduling,
states, signals and exit codes starts from there, and so does `Valkyrie.Proc.execAll_returns`.
-/

namespace Valkyrie.Proc

open Exec Function Finset

variable {s s' : State} {t p c : ℕ}

/-! ### Context switches -/

/-- The tasks after `schedule`. -/
def scheduled (s : State) : State :=
  match rotate s.runqueue with
  | [] => s
  | front :: rest =>
    { s with
      runqueue := front :: rest
      state := update (update s.state s.current .sleeping) front .running
      current := front }

theorem scheduled_of_cons {front : ℕ} {rest : List ℕ} (h : rotate s.runqueue = front :: rest) :
    scheduled s = { s with
      runqueue := front :: rest
      state := update (update s.state s.current .sleeping) front .running
      current := front } := by
  rw [scheduled, h]

/-- A switch goes to the first task of the rotated runqueue. -/
theorem exists_rotate_of_schedule (h : schedule s = .ok s') :
    ∃ rest, rotate s.runqueue = s'.current :: rest ∧ s' = scheduled s := by
  obtain ⟨-, -, h⟩ := bind_eq_ok.mp h
  dsimp only [State.setState] at h
  cases hqueue : rotate s.runqueue with
  | nil =>
    rw [hqueue] at h
    cases h
  | cons front rest =>
    rw [hqueue] at h
    obtain ⟨-, -, h⟩ := bind_eq_ok.mp h
    obtain rfl := pure_eq_ok.mp h
    exact ⟨rest, rfl, (scheduled_of_cons hqueue).symm⟩

theorem eq_scheduled (h : schedule s = .ok s') : s' = scheduled s :=
  (exists_rotate_of_schedule h).choose_spec.2

theorem head_schedule (h : schedule s = .ok s') :
    (rotate s.runqueue).head? = some s'.current := by
  obtain ⟨rest, hqueue, -⟩ := exists_rotate_of_schedule h
  rw [hqueue, List.head?_cons]

/-- What a context switch leaves as it is. -/
structure Switched (s s' : State) : Prop where
  live : s'.live = s.live
  terminatedChildren : s'.terminatedChildren = s.terminatedChildren
  errorCode : s'.errorCode = s.errorCode
  pid : s'.pid = s.pid
  nextPid : s'.nextPid = s.nextPid
  init : s'.init = s.init
  next : s'.next = s.next

theorem switched (s : State) : Switched s (scheduled s) := by
  rw [scheduled]
  split <;> exact ⟨rfl, rfl, rfl, rfl, rfl, rfl, rfl⟩

theorem scheduled_runqueue : (scheduled s).runqueue = rotate s.runqueue := by
  rw [scheduled]
  split
  · rename_i hqueue
    have hlen := (rotate_perm s.runqueue).length_eq
    rw [hqueue, List.length_nil] at hlen
    rw [hqueue, List.length_eq_zero_iff.mp hlen.symm]
  · rename_i hqueue
    exact hqueue.symm

/-! ### Destruction -/

/-- **What destructors leave as it is**: all but the parents and the active children, of
tasks that live on. -/
structure Kept (s s' : State) : Prop where
  live : s'.live ⊆ s.live
  terminatedChildren : s'.terminatedChildren = s.terminatedChildren
  state : s'.state = s.state
  errorCode : s'.errorCode = s.errorCode
  pid : s'.pid = s.pid
  nextPid : s'.nextPid = s.nextPid
  init : s'.init = s.init
  runqueue : s'.runqueue = s.runqueue
  current : s'.current = s.current
  next : s'.next = s.next

theorem Kept.refl (s : State) : Kept s s :=
  ⟨Subset.refl _, rfl, rfl, rfl, rfl, rfl, rfl, rfl, rfl, rfl⟩

theorem Kept.trans {s'' : State} (h : Kept s s') (h' : Kept s' s'') : Kept s s'' where
  live := h'.live.trans h.live
  terminatedChildren := h'.terminatedChildren.trans h.terminatedChildren
  state := h'.state.trans h.state
  errorCode := h'.errorCode.trans h.errorCode
  pid := h'.pid.trans h.pid
  nextPid := h'.nextPid.trans h.nextPid
  init := h'.init.trans h.init
  runqueue := h'.runqueue.trans h.runqueue
  current := h'.current.trans h.current
  next := h'.next.trans h.next

theorem kept_adopt (children : List ℕ) : ∀ {s}, Ensures (adopt t children s) (Kept s) := by
  induction children with
  | nil => exact ensures_pure (Kept.refl _)
  | cons child rest ih =>
    intro s
    refine ensures_bind fun _ _ => ensures_bind fun _ _ => ih.mono fun s' h => ?_
    exact ⟨h.live, h.terminatedChildren, h.state, h.errorCode, h.pid, h.nextPid, h.init, h.runqueue,
      h.current, h.next⟩

theorem kept_destroy (fuel : ℕ) : ∀ {t s}, Ensures (destroy fuel t s) (Kept s) := by
  induction fuel with
  | zero => exact ensures_error _
  | succ fuel ih =>
    intro t s
    refine ensures_bind fun _ _ => (kept_adopt _).bind fun s₁ h₁ => ?_
    have hfold : Ensures ((s₁.terminatedChildren t).foldlM (fun s child => destroy fuel child s) s₁)
        (Kept s₁) :=
      ensures_foldlM (I := fun _ a => Kept s₁ a) (fun _ _ _ h => ih.mono fun _ h' => h.trans h') _ _
        (Kept.refl s₁)
    refine hfold.bind fun s₂ h₂ => ensures_pure ?_
    have h := h₁.trans h₂
    exact ⟨(erase_subset _ _).trans h.live, h.terminatedChildren, h.state, h.errorCode, h.pid,
      h.nextPid, h.init, h.runqueue, h.current, h.next⟩

/-! ### Calls -/

/-- What the current task does next. -/
inductive Call where
  | fork : Call
  | exit (errorCode : ℤ) : Call
  /-- `wait`, up to the first iteration of its loop. -/
  | wait : Call
  /-- Another iteration of the loop of `wait`. -/
  | waitLoop : Call
  | schedule : Call

/-- A call, with what `wait` comes to. -/
def Call.exec (fuel : ℕ) (s : State) : Call → Exec (Option WaitResult × State)
  | .fork => do
    let (_, s) ← Proc.fork s
    return (none, s)
  | .exit errorCode => do
    let s ← Proc.exit errorCode s
    return (none, s)
  | .wait => do
    let (result, s) ← Proc.wait fuel s
    return (some result, s)
  | .waitLoop => do
    let (result, s) ← Proc.waitLoop fuel s
    return (some result, s)
  | .schedule => do
    let s ← Proc.schedule s
    return (none, s)

/-- One call after the other. -/
def execAll (fuel : ℕ) (calls : List Call) (s : State) : Exec State :=
  calls.foldlM (fun s call => do
    let (_, s) ← call.exec fuel s
    return s) s

theorem Call.step {fuel : ℕ} {call : Call} {result : Option WaitResult}
    (h : call.exec fuel s = .ok (result, s')) : Step s s' := by
  cases call with
  | fork =>
    obtain ⟨⟨pid, s₁⟩, hs₁, h⟩ := bind_eq_ok.mp h
    obtain ⟨-, rfl⟩ := Prod.mk.inj (pure_eq_ok.mp h)
    exact .fork hs₁
  | exit errorCode =>
    obtain ⟨s₁, hs₁, h⟩ := bind_eq_ok.mp h
    obtain ⟨-, rfl⟩ := Prod.mk.inj (pure_eq_ok.mp h)
    exact .exit errorCode hs₁
  | wait =>
    obtain ⟨⟨result, s₁⟩, hs₁, h⟩ := bind_eq_ok.mp h
    obtain ⟨-, rfl⟩ := Prod.mk.inj (pure_eq_ok.mp h)
    exact .wait fuel hs₁
  | waitLoop =>
    obtain ⟨⟨result, s₁⟩, hs₁, h⟩ := bind_eq_ok.mp h
    obtain ⟨-, rfl⟩ := Prod.mk.inj (pure_eq_ok.mp h)
    exact .waitLoop fuel hs₁
  | schedule =>
    obtain ⟨s₁, hs₁, h⟩ := bind_eq_ok.mp h
    obtain ⟨-, rfl⟩ := Prod.mk.inj (pure_eq_ok.mp h)
    exact .schedule hs₁

theorem run_execAll (fuel : ℕ) (calls : List Call) : Ensures (execAll fuel calls s) (Run Step s) := by
  refine ensures_foldlM (I := fun _ s' => Run Step s s') (fun call _ _ hrun => ?_) _ _ .refl
  refine ensures_bind fun r hr => ensures_pure ?_
  exact hrun.tail (Call.step hr)

/-- The calls of `wait`. -/
def Call.IsWait (call : Call) : Prop := call = .wait ∨ call = .waitLoop

/-- There is nobody to wait for. -/
def Childless (s : State) : Prop :=
  s.activeChildren s.current = [] ∧ s.terminatedChildren s.current = []

/-- **What a call does**, and what `wait` comes to. -/
inductive Outcome (s : State) : Call → Option WaitResult → State → Prop
  | forked : Outcome s .fork none (forked s)
  | scheduled : Outcome s .schedule none (scheduled s)
  | exited {p : ℕ} (code : ℤ) (hp : s.parent s.current = some p) :
      Outcome s (.exit code) none (Proc.scheduled (exited s.current p code s))
  | childless (hnone : Childless s) : Outcome s .wait (some .noChildren) s
  | blocked {call : Call} (hwait : call.IsWait) (hsome : call = .wait → ¬Childless s)
      (hterm : s.terminatedChildren s.current = []) :
      Outcome s call (some .blocked) (Proc.scheduled s)
  | reaped {call : Call} {c : ℕ} {rest : List ℕ} {s' : State} (hwait : call.IsWait)
      (hterm : s.terminatedChildren s.current = c :: rest)
      (hkept : Kept (s.setTerminated s.current rest) s') :
      Outcome s call (some (.reaped (s.pid c) (s.errorCode c))) s'

/-- An iteration of `wait`, by whether there is a terminated child. -/
theorem outcome_waitLoop {fuel : ℕ} {result : WaitResult} {call : Call} (hwait : call.IsWait)
    (hsome : call = .wait → ¬Childless s) (h : waitLoop fuel s = .ok (result, s')) :
    Outcome s call (some result) s' := by
  obtain ⟨-, -, h⟩ := bind_eq_ok.mp h
  cases hterm : s.terminatedChildren s.current with
  | nil =>
    rw [hterm] at h
    obtain ⟨s₁, hs₁, h⟩ := bind_eq_ok.mp h
    obtain ⟨rfl, rfl⟩ := Prod.mk.inj (pure_eq_ok.mp h)
    rw [eq_scheduled hs₁]
    exact .blocked hwait hsome hterm
  | cons child rest =>
    rw [hterm] at h
    obtain ⟨-, -, h⟩ := bind_eq_ok.mp h
    obtain ⟨s₁, hs₁, h⟩ := bind_eq_ok.mp h
    obtain ⟨rfl, rfl⟩ := Prod.mk.inj (pure_eq_ok.mp h)
    exact .reaped hwait hterm (kept_destroy fuel _ hs₁)

/-- `wait`, by whether there are children. -/
theorem outcome_wait {fuel : ℕ} {result : WaitResult} (h : wait fuel s = .ok (result, s')) :
    Outcome s .wait (some result) s' := by
  obtain ⟨-, -, h⟩ := bind_eq_ok.mp h
  have hiff : (s.activeChildren s.current).length + (s.terminatedChildren s.current).length = 0 ↔
      Childless s := by
    rw [Nat.add_eq_zero_iff, List.length_eq_zero_iff, List.length_eq_zero_iff, Childless]
  split_ifs at h with hnone
  · obtain ⟨rfl, rfl⟩ := Prod.mk.inj (pure_eq_ok.mp h)
    exact .childless (hiff.mp hnone)
  · exact outcome_waitLoop (.inl rfl) (fun _ hboth => hnone (hiff.mpr hboth)) h

/-- **A call of a state in order** does what `Outcome` says. -/
theorem Good.outcome (h : Good s) {fuel : ℕ} {call : Call} {result : Option WaitResult}
    (hcall : call.exec fuel s = .ok (result, s')) : Outcome s call result s' := by
  cases call with
  | fork =>
    obtain ⟨⟨pid, s₁⟩, hs₁, hcall⟩ := bind_eq_ok.mp hcall
    obtain ⟨rfl, rfl⟩ := Prod.mk.inj (pure_eq_ok.mp hcall)
    obtain ⟨-, rfl⟩ := Prod.mk.inj (Except.ok.inj (h.fork_eq.symm.trans hs₁))
    exact .forked
  | exit errorCode =>
    obtain ⟨s₁, hs₁, hcall⟩ := bind_eq_ok.mp hcall
    obtain ⟨rfl, rfl⟩ := Prod.mk.inj (pure_eq_ok.mp hcall)
    cases hp : s.parent s.current with
    | none =>
      rw [(h.exit errorCode).2 hp] at hs₁
      cases hs₁
    | some p =>
      rw [h.exit_eq hp] at hs₁
      rw [eq_scheduled hs₁]
      exact .exited errorCode hp
  | wait =>
    obtain ⟨⟨r, s₁⟩, hs₁, hcall⟩ := bind_eq_ok.mp hcall
    obtain ⟨rfl, rfl⟩ := Prod.mk.inj (pure_eq_ok.mp hcall)
    exact outcome_wait hs₁
  | waitLoop =>
    obtain ⟨⟨r, s₁⟩, hs₁, hcall⟩ := bind_eq_ok.mp hcall
    obtain ⟨rfl, rfl⟩ := Prod.mk.inj (pure_eq_ok.mp hcall)
    exact outcome_waitLoop (.inr rfl) (fun hEq => by cases hEq) hs₁
  | schedule =>
    obtain ⟨s₁, hs₁, hcall⟩ := bind_eq_ok.mp hcall
    obtain ⟨rfl, rfl⟩ := Prod.mk.inj (pure_eq_ok.mp hcall)
    rw [eq_scheduled hs₁]
    exact .scheduled

/-- Every step is a call. -/
theorem Step.exists_call (h : Step s s') :
    ∃ (fuel : ℕ) (call : Call) (result : Option WaitResult), call.exec fuel s = .ok (result, s') := by
  cases h with
  | fork h => exact ⟨0, .fork, none, bind_eq_ok.mpr ⟨_, h, rfl⟩⟩
  | exit errorCode h => exact ⟨0, .exit errorCode, none, bind_eq_ok.mpr ⟨_, h, rfl⟩⟩
  | wait fuel h => exact ⟨fuel, .wait, _, bind_eq_ok.mpr ⟨_, h, rfl⟩⟩
  | waitLoop fuel h => exact ⟨fuel, .waitLoop, _, bind_eq_ok.mpr ⟨_, h, rfl⟩⟩
  | schedule h => exact ⟨0, .schedule, none, bind_eq_ok.mpr ⟨_, h, rfl⟩⟩

/-! ### Pids -/

/-- **Pids are given out in order**: that of a task follows from its address. The init task is
the second one. -/
structure Numbered (s : State) : Prop where
  pid : ∀ t ∈ s.live, s.pid t + 1 = t
  next : s.nextPid + 1 = s.next
  init : s.init = 2

theorem Numbered.of_le (h : Numbered s) (hlive : s'.live ⊆ s.live) (hpid : s'.pid = s.pid)
    (hnextPid : s'.nextPid = s.nextPid) (hnext : s'.next = s.next) (hinit : s'.init = s.init) :
    Numbered s' := by
  refine ⟨fun t ht => ?_, ?_, hinit.trans h.init⟩
  · rw [hpid]
    exact h.pid t (hlive ht)
  · rw [hnextPid, hnext]
    exact h.next

/-- Two tasks with one pid are the same. -/
theorem Numbered.eq_of_pid_eq (h : Numbered s) {t u : ℕ} (ht : t ∈ s.live) (hu : u ∈ s.live)
    (hpid : s.pid t = s.pid u) : t = u := by
  rw [← h.pid t ht, ← h.pid u hu, hpid]

theorem Outcome.numbered {call : Call} {result : Option WaitResult} (h : Outcome s call result s')
    (hs : Numbered s) : Numbered s' := by
  cases h with
  | forked =>
    refine ⟨fun t ht => ?_, Nat.succ_inj.mpr hs.next, hs.init⟩
    change update s.pid s.next s.nextPid t + 1 = t
    rw [update_apply]
    split_ifs with hEq
    · rw [hs.next, hEq]
    · exact hs.pid t ((mem_insert.mp ht).resolve_left hEq)
  | scheduled =>
    have h := switched s
    exact hs.of_le h.live.subset h.pid h.nextPid h.next h.init
  | @exited p code hp =>
    have h := switched (Proc.exited s.current p code s)
    exact hs.of_le h.live.subset h.pid h.nextPid h.next h.init
  | childless => exact hs
  | blocked =>
    have h := switched s
    exact hs.of_le h.live.subset h.pid h.nextPid h.next h.init
  | reaped hwait hterm hkept => exact hs.of_le hkept.live hkept.pid hkept.nextPid hkept.next hkept.init

theorem numbered_boot (hboot : boot = .ok s) : Numbered s := by
  obtain ⟨-, -, -, hlive, -⟩ := boot_eq hboot
  have hpid : ∀ t ∈ started, s.pid t + 1 = t := by
    obtain rfl := Except.ok.inj hboot
    intro t ht
    simp only [started, mem_insert, mem_singleton] at ht
    rcases ht with rfl | rfl | rfl <;> rfl
  obtain ⟨-, -, -, -, -, hinit, -, hnext, hnextPid⟩ := boot_eq hboot
  refine ⟨hlive ▸ hpid, ?_, hinit⟩
  rw [hnext, hnextPid]

theorem good_of_run {s₀ : State} (hboot : boot = .ok s₀) (hrun : Run Step s₀ s) : Good s :=
  hrun.invariant (Good.boot s₀ hboot) fun _ _ h hstep => h.step hstep

theorem numbered_of_run {s₀ : State} (hboot : boot = .ok s₀) (hrun : Run Step s₀ s) :
    Numbered s := by
  have hboth : Good s ∧ Numbered s := by
    refine hrun.invariant (P := fun s => Good s ∧ Numbered s)
      ⟨Good.boot s₀ hboot, numbered_boot hboot⟩ ?_
    rintro s s' ⟨hgood, hnum⟩ hstep
    obtain ⟨fuel, call, result, hcall⟩ := hstep.exists_call
    exact ⟨hgood.step hstep, (hgood.outcome hcall).numbered hnum⟩
  exact hboth.2

/-! ### Runs from the start -/

/-- **Every task descends from one that the kernel started with.** -/
theorem Good.exists_root (h : Good s) : ∀ t ∈ s.live,
    ∃ r ∈ started, Relation.ReflTransGen (fun t p => s.parent t = some p) t r := by
  intro t
  induction t using Nat.strong_induction_on with
  | _ t ih =>
    intro ht
    cases hp : s.parent t with
    | none => exact ⟨t, (h.root t ht (notMem_empty t) hp).1, .refl⟩
    | some p =>
      -- A parent has the lower address.
      obtain ⟨hlt, hplive, -⟩ := h.owned t ht (notMem_empty t) p hp
      obtain ⟨r, hr, hchain⟩ := ih p hlt hplive
      exact ⟨r, hr, .head hp hchain⟩

/-- **The tasks are a forest, and a pid is that of one task**, in every state that calls lead to
from the start of the kernel. The roots are the idle task, the init task and kthreadd. -/
theorem forest_of_execAll (fuel : ℕ) (calls : List Call) :
    Ensures (boot >>= execAll fuel calls) fun s =>
      (∀ t ∈ s.live, ∃ r ∈ started,
        Relation.ReflTransGen (fun t p => s.parent t = some p) t r) ∧
      ∀ t ∈ s.live, ∀ u ∈ s.live, s.pid t = s.pid u → t = u := by
  refine ensures_bind fun s₀ hboot => (run_execAll fuel calls).mono fun s hrun => ?_
  exact ⟨(good_of_run hboot hrun).exists_root,
    fun t ht u hu => (numbered_of_run hboot hrun).eq_of_pid_eq ht hu⟩

theorem Outcome.next_le {call : Call} {result : Option WaitResult} (h : Outcome s call result s') :
    s'.next ≤ s.next + 1 := by
  cases h with
  | forked => exact le_rfl
  | scheduled | blocked => exact (switched s).next.le.trans (Nat.le_succ _)
  | exited => exact (switched _).next.le.trans (Nat.le_succ _)
  | childless => exact Nat.le_succ _
  | reaped _ _ hkept => exact hkept.next.le.trans (Nat.le_succ _)

/-- **A call of a state in order returns**, or is the exit of a task that has no parent. -/
theorem Good.returns (h : Good s) {fuel : ℕ} (hfuel : s.next ≤ fuel) (call : Call) :
    (∃ r, call.exec fuel s = .ok r) ∨ call.exec fuel s =
      .error (.panic "Attempted to kill %s! exit code=0x%08x\n") := by
  cases call with
  | fork => exact .inl ⟨_, bind_eq_ok.mpr ⟨_, h.fork_eq, rfl⟩⟩
  | exit code =>
    cases hp : s.parent s.current with
    | none => exact .inr (bind_eq_error.mpr (.inl ((h.exit code).2 hp)))
    | some p =>
      obtain ⟨s', hs', -⟩ := ((h.exit code).1 p hp).exists_ok trivial
      exact .inl ⟨_, bind_eq_ok.mpr ⟨_, hs', rfl⟩⟩
  | wait =>
    obtain ⟨r, hr, -⟩ := (h.wait fuel).exists_ok hfuel
    exact .inl ⟨_, bind_eq_ok.mpr ⟨_, hr, rfl⟩⟩
  | waitLoop =>
    obtain ⟨r, hr, -⟩ := (h.waitLoop fuel).exists_ok hfuel
    exact .inl ⟨_, bind_eq_ok.mpr ⟨_, hr, rfl⟩⟩
  | schedule =>
    obtain ⟨s', hs', -⟩ := (h.toInv.schedule h.current_live).exists_ok trivial
    exact .inl ⟨_, bind_eq_ok.mpr ⟨_, hs', rfl⟩⟩

/-- **No run goes wrong.** From the start of the kernel, with enough memory, whatever the tasks do
and in whatever order, each call returns and touches no task that is gone, up to the panic when a
task without a parent exits. The destructors need as many rounds as there are tasks. -/
theorem execAll_returns (calls : List Call) (n : ℕ) : ∃ s₀, boot = .ok s₀ ∧
    ((∃ s, execAll (4 + calls.length + n) calls s₀ = .ok s) ∨
      execAll (4 + calls.length + n) calls s₀ =
        .error (.panic "Attempted to kill %s! exit code=0x%08x\n")) := by
  have hrun : ∀ (calls : List Call) {s fuel}, Good s → s.next + calls.length ≤ fuel →
      (∃ s', execAll fuel calls s = .ok s') ∨ execAll fuel calls s =
        .error (.panic "Attempted to kill %s! exit code=0x%08x\n") := by
    intro calls
    induction calls with
    | nil => exact fun _ _ => .inl ⟨_, rfl⟩
    | cons call calls ih =>
      intro s fuel h hfuel
      rw [List.length_cons] at hfuel
      rw [execAll, List.foldlM_cons]
      have hle : s.next ≤ fuel := by omega
      rcases h.returns hle call with ⟨r, hcall⟩ | hcall
      · rw [hcall]
        have hnext := (h.outcome hcall).next_le
        exact ih (h.step (Call.step hcall)) (by omega)
      · rw [hcall]
        exact .inr rfl
  obtain ⟨s₀, hboot⟩ : ∃ s₀, boot = .ok s₀ := ⟨_, rfl⟩
  obtain ⟨-, -, -, -, -, -, -, hnext, -⟩ := boot_eq hboot
  exact ⟨s₀, hboot, hrun calls (Good.boot s₀ hboot) (by omega)⟩

end Valkyrie.Proc
