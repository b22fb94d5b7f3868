import Valkyrie.Proc.Steps

/-!
# Exit statuses

A task that exits leaves its exit code in its own `_error_code`, and itself at the end of the
list of terminated children of its parent; `wait` takes the first task of that list, reads its
pid and its code, and destroys it. Between the two the list is where the statuses are that are
still due, and so the statuses that were left for a task are those that it was given, followed
by those on its list. This is the invariant (`Valkyrie.ExitStatus.Accounted`), with two logs
that the code does not keep. When the task itself is destroyed, what was still due is lost with
it, and nothing is added any more.
-/

namespace Valkyrie

namespace ExitStatus

open Exec

open Proc (Call WaitResult)

/-- An exit status, and the task that it is for. -/
structure Status where
  receiver : ℕ
  pid : ℕ
  code : ℤ
deriving DecidableEq

/-- The tasks, the statuses that exits have left, and those that `wait` has returned, both in
the order in which this happened. -/
structure World where
  proc : Proc.State
  exits : List Status
  waits : List Status

namespace World

def start (proc : Proc.State) : World := ⟨proc, [], []⟩

/-- A call is added to the logs. The status of an exit is for the parent at that moment. -/
def record (call : Call) (result : Option WaitResult) (proc : Proc.State) (w : World) : World where
  proc := proc
  exits :=
    match call, w.proc.parent w.proc.current with
    | .exit code, some p => w.exits ++ [⟨p, w.proc.pid w.proc.current, code⟩]
    | _, _ => w.exits
  waits :=
    match result with
    | some (.reaped pid code) => w.waits ++ [⟨w.proc.current, pid, code⟩]
    | _ => w.waits

end World

/-- The statuses for one task. -/
def forTask (q : ℕ) (statuses : List Status) : List Status :=
  statuses.filter fun status => status.receiver = q

/-- **One step.** -/
def Step (w w' : World) : Prop :=
  ∃ (fuel : ℕ) (call : Call) (result : Option WaitResult) (proc : Proc.State),
    call.exec fuel w.proc = .ok (result, proc) ∧ w' = w.record call result proc

/-- **Exit statuses are delivered exactly once.** What a task was given by `wait` is what was
left for it, from the first on, so the children are its own, the codes are right and the order
is that of the exits; no child is returned twice; and `wait` returns -1 exactly if there is
nobody to wait for. -/
structure Delivered (w : World) : Prop where
  inOrder : ∀ q, forTask q w.waits <+: forTask q w.exits
  once : (w.waits.map Status.pid).Nodup
  none : (∃ fuel proc, Call.exec fuel w.proc .wait = .ok (some .noChildren, proc)) ↔
    Proc.Childless w.proc

/-! ### The invariant -/

/-- The statuses that are still due to a task. -/
def due (s : Proc.State) (q : ℕ) : List Status :=
  (s.terminatedChildren q).map fun c => ⟨q, s.pid c, s.errorCode c⟩

/-- **The statuses that were left for a task** are those that it was given and those that are
due to it. -/
structure Accounted (w : World) : Prop where
  good : Proc.Good w.proc
  numbered : Proc.Numbered w.proc
  split : ∀ q, ∃ rest, forTask q w.exits = forTask q w.waits ++ rest ∧
    (q ∈ w.proc.live → rest = due w.proc q)
  past : ∀ status ∈ w.exits, status.receiver < w.proc.next ∧ status.pid + 1 < w.proc.next ∧
    status.pid + 1 ∉ w.proc.runqueue
  once : (w.exits.map Status.pid).Nodup

section Steps

variable {w w' : World} {s s' : Proc.State} {q c : ℕ}

theorem forTask_append (l l' : List Status) : forTask q (l ++ l') = forTask q l ++ forTask q l' :=
  List.filter_append l l'

theorem forTask_self (pid : ℕ) (code : ℤ) : forTask q [⟨q, pid, code⟩] = [⟨q, pid, code⟩] :=
  List.filter_cons_of_pos (decide_eq_true rfl)

theorem forTask_other {p : ℕ} (h : p ≠ q) (pid : ℕ) (code : ℤ) : forTask q [⟨p, pid, code⟩] = [] :=
  List.filter_cons_of_neg (by simpa using h)

/-- What is due to a task is the same, if its list is, and the pids and codes on it. -/
theorem due_congr (hterm : s'.terminatedChildren q = s.terminatedChildren q)
    (hchild : ∀ c ∈ s.terminatedChildren q, s'.pid c = s.pid c ∧ s'.errorCode c = s.errorCode c) :
    due s' q = due s q := by
  rw [due, due, hterm]
  refine List.map_congr_left fun c hc => ?_
  rw [(hchild c hc).1, (hchild c hc).2]

/-- A task on a list of terminated children lives, and is off the runqueue. -/
theorem child_of_terminated (h : Proc.Good s) (hq : q ∈ s.live) (hc : c ∈ s.terminatedChildren q) :
    c ∈ s.live ∧ c ∉ s.runqueue :=
  have hterm := h.terminated q hq (Finset.notMem_empty q) c hc
  ⟨hterm.2.2.1, hterm.2.1⟩

/-- **A step that leaves the logs as they are**: what is due to a task must not change. -/
theorem Accounted.quiet (h : Accounted w) {proc : Proc.State} (hgood : Proc.Good proc)
    (hnum : Proc.Numbered proc) (hnext : w.proc.next ≤ proc.next)
    (hqueue : ∀ t ∈ proc.runqueue, t ∈ w.proc.runqueue ∨ w.proc.next ≤ t)
    (hdue : ∀ q ∈ proc.live, q ∈ w.proc.live ∧ due proc q = due w.proc q ∨
      w.proc.next ≤ q ∧ due proc q = []) : Accounted { w with proc := proc } := by
  refine ⟨hgood, hnum, fun q => ?_, fun status hstatus => ?_, h.once⟩
  · obtain ⟨rest, hrest, hlive⟩ := h.split q
    refine ⟨rest, hrest, fun hq => ?_⟩
    rcases hdue q hq with ⟨hold, hEq⟩ | ⟨hnew, hEq⟩
    · exact (hlive hold).trans hEq.symm
    · -- A new task: nothing was left for it yet.
      have hnone : forTask q w.exits = [] := by
        refine List.filter_eq_nil_iff.mpr fun status hstatus hreceiver => ?_
        have hlt := (h.past status hstatus).1
        rw [of_decide_eq_true hreceiver] at hlt
        omega
      rw [hnone] at hrest
      rw [hEq, (List.append_eq_nil_iff.mp hrest.symm).2]
  · obtain ⟨hreceiver, hpid, hnot⟩ := h.past status hstatus
    refine ⟨hreceiver.trans_le hnext, hpid.trans_le hnext, fun hmem => ?_⟩
    rcases hqueue _ hmem with hold | hnew
    · exact hnot hold
    · omega

theorem Accounted.forked (h : Accounted w) (hnum : Proc.Numbered (Proc.forked w.proc)) :
    Accounted { w with proc := Proc.forked w.proc } := by
  have hnew := h.good.next_not_live
  refine h.quiet h.good.fork hnum (Nat.le_succ _) (fun t ht => ?_) fun q hq => ?_
  · rcases List.mem_append.mp ht with hold | hadded
    · exact Or.inl hold
    · exact Or.inr (List.mem_singleton.mp hadded).ge
  · have hterm : (Proc.forked w.proc).terminatedChildren q =
        if q = w.proc.next then [] else w.proc.terminatedChildren q := Function.update_apply ..
    rcases Finset.mem_insert.mp hq with rfl | hold
    · rw [if_pos rfl] at hterm
      refine Or.inr ⟨le_rfl, ?_⟩
      rw [due, hterm, List.map_nil]
    · have hne : q ≠ w.proc.next := fun hEq => hnew (hEq ▸ hold)
      rw [if_neg hne] at hterm
      refine Or.inl ⟨hold, due_congr hterm fun c hc => ?_⟩
      have hne : c ≠ w.proc.next := fun hEq =>
        hnew (hEq ▸ (child_of_terminated h.good hold hc).1)
      exact ⟨Function.update_of_ne hne .., Function.update_of_ne hne ..⟩

theorem Accounted.scheduled (h : Accounted w) (hgood : Proc.Good (Proc.scheduled w.proc))
    (hnum : Proc.Numbered (Proc.scheduled w.proc)) :
    Accounted { w with proc := Proc.scheduled w.proc } := by
  have hswitched := Proc.switched w.proc
  refine h.quiet hgood hnum hswitched.next.ge (fun t ht => Or.inl ?_) fun q hq => Or.inl ?_
  · rw [Proc.scheduled_runqueue] at ht
    exact (Proc.rotate_perm _).mem_iff.mp ht
  · refine ⟨hswitched.live ▸ hq, due_congr (by rw [hswitched.terminatedChildren]) fun c _ => ?_⟩
    rw [hswitched.pid, hswitched.errorCode]
    exact ⟨rfl, rfl⟩

/-- **An exit** leaves a status for the parent, at the end. -/
theorem Accounted.exited (h : Accounted w) {p : ℕ} {code : ℤ}
    (hp : w.proc.parent w.proc.current = some p)
    (hgood : Proc.Good (Proc.scheduled (Proc.exited w.proc.current p code w.proc)))
    (hnum : Proc.Numbered (Proc.scheduled (Proc.exited w.proc.current p code w.proc))) :
    Accounted { w with
      proc := Proc.scheduled (Proc.exited w.proc.current p code w.proc)
      exits := w.exits ++ [⟨p, w.proc.pid w.proc.current, code⟩] } := by
  set t := w.proc.current with ht
  set s' := Proc.scheduled (Proc.exited t p code w.proc) with hs'
  have hswitched : Proc.Switched (Proc.exited t p code w.proc) s' := Proc.switched _
  have hqueued : t ∈ w.proc.runqueue := h.good.current_queued
  have htlive := h.good.current_live
  have hpid : w.proc.pid t + 1 = t := h.numbered.pid t htlive
  have hplive : p ∈ w.proc.live := (h.good.owned t htlive (Finset.notMem_empty t) p hp).2.1
  have hqueue : ∀ x, x ∈ s'.runqueue ↔ x ∈ w.proc.runqueue.erase t := fun x => by
    rw [hs', Proc.scheduled_runqueue]
    exact (Proc.rotate_perm _).mem_iff
  have hcode : ∀ c, s'.errorCode c = if c = t then code else w.proc.errorCode c := fun c => by
    rw [hswitched.errorCode]
    exact Function.update_apply ..
  have hterm : ∀ q, s'.terminatedChildren q =
      if q = p then w.proc.terminatedChildren p ++ [t] else w.proc.terminatedChildren q := fun q => by
    rw [hswitched.terminatedChildren]
    exact Function.update_apply ..
  -- The tasks that had terminated before keep their pids and codes.
  have hold : ∀ q ∈ w.proc.live, ∀ c ∈ w.proc.terminatedChildren q,
      (⟨q, s'.pid c, s'.errorCode c⟩ : Status) = ⟨q, w.proc.pid c, w.proc.errorCode c⟩ := by
    intro q hq c hc
    have hne : c ≠ t := fun hEq => (child_of_terminated h.good hq hc).2 (hEq ▸ hqueued)
    rw [hcode, if_neg hne, hswitched.pid]
    rfl
  refine ⟨hgood, hnum, fun q => ?_, fun status hstatus => ?_, ?_⟩
  · obtain ⟨rest, hrest, hlive⟩ := h.split q
    dsimp only
    rw [forTask_append, hrest]
    by_cases hqp : q = p
    · subst hqp
      refine ⟨rest ++ [⟨q, w.proc.pid t, code⟩], ?_, fun _ => ?_⟩
      · rw [forTask_self, List.append_assoc]
      · rw [hlive hplive, due, due, hterm, if_pos rfl, List.map_append,
          List.map_congr_left (hold q hplive), List.map_singleton, hcode, if_pos rfl, hswitched.pid]
        rfl
    · refine ⟨rest, ?_, fun hq => ?_⟩
      · rw [forTask_other (Ne.symm hqp), List.append_nil]
      · have hq' : q ∈ w.proc.live := by
          rw [hswitched.live] at hq
          exact hq
        rw [hlive hq', due, due, hterm, if_neg hqp, List.map_congr_left (hold q hq')]
  · have hnext : s'.next = w.proc.next := hswitched.next
    rw [hnext, hqueue]
    rcases List.mem_append.mp hstatus with hbefore | hadded
    · obtain ⟨hreceiver, hlt, hnot⟩ := h.past status hbefore
      exact ⟨hreceiver, hlt, fun hmem => hnot (List.mem_of_mem_erase hmem)⟩
    · rw [List.mem_singleton.mp hadded]
      dsimp only
      rw [hpid]
      exact ⟨h.good.bound p hplive, h.good.bound t htlive, h.good.nodup.not_mem_erase⟩
  · rw [List.map_append, List.map_singleton]
    refine List.nodup_append.mpr ⟨h.once, List.nodup_singleton _, ?_⟩
    rintro a ha b hb rfl
    obtain ⟨status, hstatus, hEq⟩ := List.mem_map.mp ha
    have hnot := (h.past status hstatus).2.2
    rw [hEq, List.mem_singleton.mp hb, hpid] at hnot
    exact hnot hqueued

/-- **A terminated child is waited for**: the first status that is due is given. -/
theorem Accounted.reaped (h : Accounted w) {rest : List ℕ}
    (hterm : w.proc.terminatedChildren w.proc.current = c :: rest) {proc : Proc.State}
    (hkept : Proc.Kept (w.proc.setTerminated w.proc.current rest) proc) (hgood : Proc.Good proc)
    (hnum : Proc.Numbered proc) :
    Accounted { w with
      proc := proc
      waits := w.waits ++ [⟨w.proc.current, w.proc.pid c, w.proc.errorCode c⟩] } := by
  have hset : ∀ q, proc.terminatedChildren q =
      if q = w.proc.current then rest else w.proc.terminatedChildren q := fun q => by
    rw [hkept.terminatedChildren]
    exact Function.update_apply ..
  have hpid : proc.pid = w.proc.pid := hkept.pid
  have hcode : proc.errorCode = w.proc.errorCode := hkept.errorCode
  refine ⟨hgood, hnum, fun q => ?_, fun status hstatus => ?_, h.once⟩
  · obtain ⟨rest', hrest', hlive⟩ := h.split q
    dsimp only
    rw [forTask_append, hrest']
    by_cases hq : q = w.proc.current
    · subst hq
      have hdue : rest' = ⟨w.proc.current, w.proc.pid c, w.proc.errorCode c⟩ ::
          rest.map fun c => ⟨w.proc.current, w.proc.pid c, w.proc.errorCode c⟩ := by
        rw [hlive h.good.current_live, due, hterm, List.map_cons]
      refine ⟨rest.map fun c => ⟨w.proc.current, w.proc.pid c, w.proc.errorCode c⟩, ?_, fun _ => ?_⟩
      · rw [forTask_self, hdue, List.append_assoc]
        rfl
      · rw [due, hset, if_pos rfl, hpid, hcode]
    · refine ⟨rest', ?_, fun hq' => ?_⟩
      · rw [forTask_other (Ne.symm hq), List.append_nil]
      · rw [hlive (hkept.live hq'), due, due, hset, if_neg hq, hpid, hcode]
  · rw [hkept.next, hkept.runqueue]
    exact h.past status hstatus

/-- **One step keeps the account.** -/
theorem Accounted.step (h : Accounted w) (hstep : Step w w') : Accounted w' := by
  obtain ⟨fuel, call, result, proc, hcall, rfl⟩ := hstep
  have hgood := h.good.step (Call.step hcall)
  have houtcome := h.good.outcome hcall
  have hnum := houtcome.numbered h.numbered
  cases houtcome with
  | forked => exact h.forked hnum
  | scheduled => exact h.scheduled hgood hnum
  | exited code hp =>
    have hrecord := h.exited hp hgood hnum
    simp only [World.record, hp]
    exact hrecord
  | childless => exact h
  | blocked hwait =>
    rcases hwait with rfl | rfl
    · exact h.scheduled hgood hnum
    · exact h.scheduled hgood hnum
  | reaped hwait hterm hkept =>
    rcases hwait with rfl | rfl
    · exact h.reaped hterm hkept hgood hnum
    · exact h.reaped hterm hkept hgood hnum

theorem accounted_start (hboot : Proc.boot = .ok s) : Accounted (World.start s) := by
  obtain ⟨-, -, hterm, -⟩ := Proc.boot_eq hboot
  refine ⟨Proc.Good.boot s hboot, Proc.numbered_boot hboot, fun q => ⟨[], rfl, fun _ => ?_⟩, ?_,
    List.nodup_nil⟩
  · change [] = due s q
    rw [due, hterm, List.map_nil]
  · exact fun status hstatus => absurd hstatus List.not_mem_nil

/-! ### What follows -/

/-- What was given is part of what was left. -/
theorem Accounted.subperm (h : Accounted w) : w.waits.Subperm w.exits := by
  refine List.subperm_ext_iff.mpr fun status _ => ?_
  obtain ⟨rest, hrest, -⟩ := h.split status.receiver
  have hcount : ∀ l : List Status, (forTask status.receiver l).count status = l.count status :=
    fun l => List.count_filter (decide_eq_true rfl)
  rw [← hcount w.waits, ← hcount w.exits, hrest, List.count_append]
  exact Nat.le_add_right _ _

theorem exists_noChildren_iff (h : Proc.Good s) :
    (∃ fuel proc, Call.exec fuel s .wait = .ok (some .noChildren, proc)) ↔ Proc.Childless s := by
  constructor
  · rintro ⟨fuel, proc, hcall⟩
    generalize hresult : some WaitResult.noChildren = result at hcall
    cases h.outcome hcall with
    | childless hnone => exact hnone
    | blocked => cases hresult
    | reaped => cases hresult
  · rintro ⟨hactive, hterm⟩
    refine ⟨0, s, ?_⟩
    have hwait : Proc.wait 0 s = .ok (.noChildren, s) := by
      rw [Proc.wait, Proc.access_of_mem h.current_live, Exec.ok_bind, hactive, hterm]
      rfl
    rw [Call.exec, hwait]
    rfl

theorem Accounted.delivered (h : Accounted w) : Delivered w := by
  refine ⟨fun q => ?_, ?_, exists_noChildren_iff h.good⟩
  · obtain ⟨rest, hrest, -⟩ := h.split q
    exact ⟨rest, hrest.symm⟩
  · obtain ⟨l, hperm, hsub⟩ := h.subperm
    exact (hperm.map Status.pid).nodup_iff.mp (h.once.sublist (hsub.map Status.pid))

end Steps

/-- **Exit statuses are delivered exactly once**, in every run from the start of the kernel. -/
theorem delivered_of_run {s₀ : Proc.State} {w : World} (hboot : Proc.boot = .ok s₀)
    (hrun : Run Step (World.start s₀) w) : Delivered w :=
  (hrun.invariant (accounted_start hboot) fun _ _ h hstep => h.step hstep).delivered

/-- One call after the other. -/
def execAll (fuel : ℕ) (calls : List Call) (w : World) : Exec World :=
  calls.foldlM (fun w call => do
    let (result, proc) ← call.exec fuel w.proc
    return w.record call result proc) w

theorem execAll_run {w : World} (fuel : ℕ) (calls : List Call) :
    Ensures (execAll fuel calls w) (Run Step w) := by
  refine ensures_foldlM (I := fun _ w' => Run Step w w') (fun call _ _ hrun => ?_) _ _ .refl
  refine ensures_bind fun r hr => ensures_pure ?_
  exact hrun.tail ⟨fuel, call, r.1, r.2, hr, rfl⟩

/-- The init task forks, its child exits with code 7, and the init task waits for it. -/
theorem delivered_of_run_one_child : ∃ s₀ w, Proc.boot = .ok s₀ ∧ Run Step (World.start s₀) w ∧
    w.waits = [⟨2, 3, 7⟩] ∧ Delivered w := by
  have hcheck : Exec.check (fun s₀ => Exec.check (fun w => decide (w.waits = [⟨2, 3, 7⟩]))
      (execAll 6 [.schedule, .fork, .schedule, .schedule, .schedule, .exit 7, .schedule, .schedule,
        .wait] (World.start s₀))) Proc.boot = true := by decide +kernel
  obtain ⟨s₀, hboot, hcheck'⟩ := Exec.exists_ok_of_check hcheck
  obtain ⟨w, hw, hwaits⟩ := Exec.exists_ok_of_check hcheck'
  have hrun := execAll_run 6 _ w hw
  exact ⟨s₀, w, hboot, hrun, of_decide_eq_true hwaits, delivered_of_run hboot hrun⟩

end ExitStatus

end Valkyrie
