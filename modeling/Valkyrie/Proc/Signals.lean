import Valkyrie.Proc.Steps

/-!
# Signals

`kill` finds its target by pid, and `get_by_pid` looks for it in the tree below the init task:
a breadth-first search over the active children. A task that has exited is on no list of active
children any more, so the search does not come past it. The tasks below are still its active
children until it is waited for; only then does the init task adopt them. Until then they run,
and no signal reaches them.

The search itself is right: it ends, since the addresses go up along the tree, and finds exactly
the tasks below the init task on a path of active children (`Valkyrie.Signals.meets_search`).
So signals reach every running task exactly if no zombie has active children
(`Valkyrie.Signals.reach_iff_of_run`).
-/

namespace Valkyrie.Signals

open Exec Proc Relation

/-- The tasks, and the signals that are pending for each of them. -/
structure World where
  proc : State
  /-- `_pending_signals`. -/
  pending : ℕ → List ℤ

/-- `Task::_kthreadd`: the task with pid 2, which is the third one. -/
def kthreadd : ℕ := 3

/-- `is_signal_valid`. -/
def isSignalValid (signal : ℤ) : Prop := 0 ≤ signal ∧ signal < 12

instance (signal : ℤ) : Decidable (isSignalValid signal) :=
  inferInstanceAs (Decidable (0 ≤ signal ∧ signal < 12))

/-- The child with a pid, on a list of children. -/
def findIf (pid : ℤ) (s : State) : List ℕ → Exec (Option ℕ)
  | [] => return none
  | t :: rest => do
    s.access t
    if (s.pid t : ℤ) = pid then return some t else findIf pid s rest

/-- The search of `get_by_pid`. Its inner loop takes the tasks of one level off the queue, and
the outer one goes on as long as there are tasks on it; together they go on until it is
empty. -/
def search (pid : ℤ) (s : State) : ℕ → List ℕ → Exec (Option ℕ)
  | 0, _ => .error .outOfFuel
  | _ + 1, [] => return none
  | fuel + 1, task :: queue => do
    s.access task
    let found ← findIf pid s (s.activeChildren task)
    match found with
    | some t => return some t
    | none => search pid s fuel (queue ++ s.activeChildren task)

/-- `Task::get_by_pid`. -/
def getByPid (fuel : ℕ) (pid : ℤ) (s : State) : Exec (Option ℕ) :=
  if pid = 1 then return some s.init
  else if pid = 2 then return some kthreadd
  else search pid s fuel [s.init]

/-- The target of `kill`. -/
def target (fuel : ℕ) (pid : ℤ) (s : State) : Exec (Option ℕ) :=
  if pid = s.pid s.current then return some s.current else getByPid fuel pid s

/-- A signal is queued on a task. -/
def World.queue (t : ℕ) (signal : ℤ) (w : World) : World :=
  { w with pending := Function.update w.pending t (w.pending t ++ [signal]) }

/-- `Task::kill` of the current task. -/
def kill (fuel : ℕ) (pid signal : ℤ) (w : World) : Exec (ℤ × World) :=
  if ¬isSignalValid signal then return (-1, w)
  else do
    w.proc.access w.proc.current
    let task ← target fuel pid w.proc
    match task with
    | none => return (-1, w)
    | some t => do
      w.proc.access t
      return (0, w.queue t signal)

/-- The call returns, with this result. -/
def Returns {α : Type} (x : ℕ → Exec α) (a : α) : Prop := ∃ n, ∀ fuel, n ≤ fuel → x fuel = .ok a

/-- The task descends from the init task. -/
def FromInit (s : State) (t : ℕ) : Prop :=
  ReflTransGen (fun t p => s.parent t = some p) t s.init

/-- **Signals reach every running task** that descends from the init task, and `get_by_pid`
returns a null pointer for every other pid but 1 and 2. -/
structure Reach (w : World) : Prop where
  found : ∀ t ∈ w.proc.runqueue, FromInit w.proc t →
    Returns (fun fuel => getByPid fuel (w.proc.pid t) w.proc) (some t) ∧
      ∀ signal, isSignalValid signal →
        Returns (fun fuel => kill fuel (w.proc.pid t) signal w) (0, w.queue t signal)
  missing : ∀ pid : ℤ, pid ≠ 1 → pid ≠ 2 →
    (∀ t ∈ w.proc.runqueue, FromInit w.proc t → (w.proc.pid t : ℤ) ≠ pid) →
      Returns (fun fuel => getByPid fuel pid w.proc) none

/-! ### The search -/

section Search

variable {s : State} {pid : ℤ} {t c a : ℕ} {queue children : List ℕ}

/-- One step down the tree that the search sees. -/
def Child (s : State) (a c : ℕ) : Prop := c ∈ s.activeChildren a

theorem findIf_eq (h : ∀ c ∈ children, c ∈ s.live) :
    findIf pid s children = .ok (children.find? fun c => (s.pid c : ℤ) = pid) := by
  induction children with
  | nil => rfl
  | cons c children ih =>
    rw [findIf, access_of_mem (h c List.mem_cons_self), ok_bind, List.find?_cons]
    by_cases hc : (s.pid c : ℤ) = pid
    · rw [if_pos hc, decide_eq_true hc]
      rfl
    · rw [if_neg hc, decide_eq_false hc]
      exact ih fun d hd => h d (List.mem_cons_of_mem c hd)

/-- What an active child is, in a state in order. -/
theorem child_spec (h : Good s) (ha : a ∈ s.live) (hc : Child s a c) :
    s.parent c = some a ∧ c ∈ s.runqueue ∧ c ∈ s.live ∧ a < c := by
  obtain ⟨hparent, hqueue⟩ := h.active a ha (Finset.notMem_empty a) c hc
  have hlive := h.queued c hqueue
  exact ⟨hparent, hqueue, hlive, (h.owned c hlive (Finset.notMem_empty c) a hparent).1⟩

/-- A bound on the iterations that are left. A task counts more than all its children. -/
def weight (s : State) (queue : List ℕ) : ℕ :=
  (queue.map fun a => (s.live.card + 1) ^ (s.next - a)).sum

theorem weight_append (q q' : List ℕ) : weight s (q ++ q') = weight s q + weight s q' := by
  rw [weight, weight, weight, List.map_append, List.sum_append]

/-- **The children of a task count less than the task.** -/
theorem weight_children (h : Good s) (ha : a ∈ s.live) :
    weight s (s.activeChildren a) < (s.live.card + 1) ^ (s.next - a) := by
  have hchild := fun c (hc : c ∈ s.activeChildren a) => child_spec h ha hc
  have hbound := h.bound a ha
  obtain ⟨n, hn⟩ : ∃ n, s.next - a = n + 1 := ⟨s.next - a - 1, by omega⟩
  have hlength : (s.activeChildren a).length ≤ s.live.card := by
    rw [← List.toFinset_card_of_nodup (h.activeNodup a ha)]
    refine Finset.card_le_card fun c hc => ?_
    exact (hchild c (List.mem_toFinset.mp hc)).2.2.1
  have hterm : ∀ x ∈ (s.activeChildren a).map fun c => (s.live.card + 1) ^ (s.next - c),
      x ≤ (s.live.card + 1) ^ n := by
    intro x hx
    obtain ⟨c, hc, rfl⟩ := List.mem_map.mp hx
    have hlt := (hchild c hc).2.2.2
    exact Nat.pow_le_pow_right (Nat.succ_pos _) (by omega)
  have hsum := List.sum_le_card_nsmul _ _ hterm
  rw [List.length_map, smul_eq_mul] at hsum
  have hpos : 0 < (s.live.card + 1) ^ n := Nat.pow_pos (Nat.succ_pos _)
  calc weight s (s.activeChildren a)
      ≤ (s.activeChildren a).length * (s.live.card + 1) ^ n := hsum
    _ ≤ s.live.card * (s.live.card + 1) ^ n := Nat.mul_le_mul_right _ hlength
    _ < s.live.card * (s.live.card + 1) ^ n + (s.live.card + 1) ^ n := Nat.lt_add_of_pos_right hpos
    _ = (s.live.card + 1) ^ (s.next - a) := by rw [hn, pow_succ]; ring

/-- What the search returns: a task with the pid below one of the queue, if there is one. -/
def Found (s : State) (pid : ℤ) (queue : List ℕ) : Option ℕ → Prop
  | some t => (s.pid t : ℤ) = pid ∧ ∃ a ∈ queue, TransGen (Child s) a t
  | none => ∀ a ∈ queue, ∀ t, TransGen (Child s) a t → (s.pid t : ℤ) ≠ pid

/-- **The search**, by induction on its iterations. -/
theorem meets_search (h : Good s) (fuel : ℕ) : ∀ {queue}, (∀ a ∈ queue, a ∈ s.live) →
    Meets (search pid s fuel queue) (weight s queue < fuel) (Found s pid queue) := by
  induction fuel with
  | zero => exact fun _ => meets_outOfFuel.mpr (Nat.not_lt_zero _)
  | succ fuel ih =>
    intro queue hqueue
    cases queue with
    | nil => exact meets_pure.mpr fun a ha => absurd ha List.not_mem_nil
    | cons task queue =>
      have htask := hqueue task List.mem_cons_self
      have hlive : ∀ c ∈ s.activeChildren task, c ∈ s.live := fun c hc =>
        (child_spec h htask hc).2.2.1
      rw [search, access_of_mem htask, ok_bind, findIf_eq hlive, ok_bind]
      cases hfind : (s.activeChildren task).find? fun c => (s.pid c : ℤ) = pid with
      | some t =>
        have hpid : decide ((s.pid t : ℤ) = pid) = true :=
          List.find?_some (p := fun c => decide ((s.pid c : ℤ) = pid)) hfind
        refine meets_pure.mpr ⟨of_decide_eq_true hpid, task, List.mem_cons_self, ?_⟩
        exact .single (List.mem_of_find?_eq_some hfind)
      | none =>
        have hnext : ∀ a ∈ queue ++ s.activeChildren task, a ∈ s.live := fun a ha =>
          (List.mem_append.mp ha).elim (fun ha' => hqueue a (List.mem_cons_of_mem task ha')) (hlive a)
        -- The children of a task weigh less than the task, which bounds the iterations.
        have hless := weight_children h htask
        refine ((ih hnext).weaken fun henough => ?_).mono fun result hresult => ?_
        · rw [weight_append]
          change (s.live.card + 1) ^ (s.next - task) + weight s queue < fuel + 1 at henough
          omega
        · cases result with
          | some t =>
            obtain ⟨hpid, a, ha, hpath⟩ := hresult
            refine ⟨hpid, ?_⟩
            rcases List.mem_append.mp ha with ha' | ha'
            · exact ⟨a, List.mem_cons_of_mem task ha', hpath⟩
            · exact ⟨task, List.mem_cons_self, .head ha' hpath⟩
          | none =>
            intro a ha t hpath
            rcases List.mem_cons.mp ha with rfl | ha'
            · -- The first step of the path leads to a child that is not the one.
              obtain ⟨c, hc, hrest⟩ := TransGen.head'_iff.mp hpath
              rcases reflTransGen_iff_eq_or_transGen.mp hrest with rfl | hrest'
              · exact fun hpid => List.find?_eq_none.mp hfind t hc (decide_eq_true hpid)
              · exact hresult c (List.mem_append_right _ hc) t hrest'
            · exact hresult a (List.mem_append_left _ ha') t hpath

/-- The tasks that the search sees run, and descend from the init task. -/
theorem of_path (h : Good s) (hpath : TransGen (Child s) s.init t) :
    t ∈ s.runqueue ∧ FromInit s t := by
  induction hpath with
  | single hc =>
    obtain ⟨hparent, hqueue, -⟩ := child_spec h h.init_live hc
    exact ⟨hqueue, .single hparent⟩
  | tail _ hc ih =>
    obtain ⟨hparent, hqueue, -⟩ := child_spec h (h.queued _ ih.1) hc
    exact ⟨hqueue, .head hparent ih.2⟩

theorem init_lt_of_path (h : Good s) (hpath : TransGen (Child s) s.init t) :
    s.init < t := by
  induction hpath with
  | single hc => exact (child_spec h h.init_live hc).2.2.2
  | tail hpath hc ih => exact ih.trans (child_spec h (h.queued _ (of_path h hpath).1) hc).2.2.2

/-- What the search returns is determined, since pids are. -/
theorem found_unique (h : Good s) (hnum : Numbered s) {r r' : Option ℕ}
    (hr : Found s pid [s.init] r) (hr' : Found s pid [s.init] r') : r = r' := by
  have hpath : ∀ {t}, Found s pid [s.init] (some t) →
      (s.pid t : ℤ) = pid ∧ TransGen (Child s) s.init t := by
    rintro t ⟨hpid, a, ha, hpath⟩
    exact ⟨hpid, List.mem_singleton.mp ha ▸ hpath⟩
  cases r with
  | none =>
    cases r' with
    | none => rfl
    | some t' =>
      obtain ⟨hpid, hpath'⟩ := hpath hr'
      exact absurd hpid (hr _ (List.mem_singleton_self _) t' hpath')
  | some t =>
    obtain ⟨hpid, hpatht⟩ := hpath hr
    cases r' with
    | none => exact absurd hpid (hr' _ (List.mem_singleton_self _) t hpatht)
    | some t' =>
      obtain ⟨hpid', hpath'⟩ := hpath hr'
      refine congrArg some (hnum.eq_of_pid_eq ?_ ?_ ?_)
      · exact h.queued _ (of_path h hpatht).1
      · exact h.queued _ (of_path h hpath').1
      · exact Int.natCast_inj.mp (hpid.trans hpid'.symm)

/-- **The search returns** what is to be found. -/
theorem returns_search (h : Good s) (hnum : Numbered s) {result : Option ℕ}
    (hfound : Found s pid [s.init] result) :
    Returns (fun fuel => search pid s fuel [s.init]) result := by
  have hlive : ∀ a ∈ [s.init], a ∈ s.live := fun a ha => List.mem_singleton.mp ha ▸ h.init_live
  refine ⟨weight s [s.init] + 1, fun fuel hfuel => ?_⟩
  obtain ⟨result', hresult', hfound'⟩ := (meets_search h fuel hlive).exists_ok hfuel
  exact hresult'.trans (congrArg Except.ok (found_unique h hnum hfound' hfound))

theorem exists_returns_search (h : Good s) (hnum : Numbered s) (pid : ℤ) :
    ∃ result, Found s pid [s.init] result ∧
      Returns (fun fuel => search pid s fuel [s.init]) result := by
  have hlive : ∀ a ∈ [s.init], a ∈ s.live := fun a ha => List.mem_singleton.mp ha ▸ h.init_live
  obtain ⟨result, -, hfound⟩ :=
    (meets_search h (weight s [s.init] + 1) hlive).exists_ok (Nat.lt_succ_self _)
  exact ⟨result, hfound, returns_search h hnum hfound⟩

theorem Returns.unique {α : Type} {x : ℕ → Exec α} {r r' : α} (h : Returns x r)
    (h' : Returns x r') : r = r' := by
  obtain ⟨n, hn⟩ := h
  obtain ⟨n', hn'⟩ := h'
  have hr := hn (max n n') (le_max_left _ _)
  rw [hn' _ (le_max_right _ _)] at hr
  exact (Except.ok.inj hr).symm

end Search

/-! ### When signals arrive -/

section Reach

variable {w : World} {t z : ℕ}

/-- **No zombie below the init task has active children.** -/
def Adopted (s : State) : Prop :=
  ∀ z ∈ s.live, z ∉ s.runqueue → FromInit s z → s.activeChildren z = []

/-- A task that is not the init task and descends from it has a parent that does. -/
theorem exists_parent {s : State} (hfrom : FromInit s t) (hne : t ≠ s.init) :
    ∃ p, s.parent t = some p ∧ FromInit s p := by
  rcases ReflTransGen.cases_head hfrom with hEq | ⟨p, hp, hrest⟩
  · exact absurd hEq hne
  · exact ⟨p, hp, hrest⟩

/-- **Every running task is on a path of active children**, if no zombie is in between. The
induction goes up the tree, from parent to parent. -/
theorem path_of_adopted {s : State} (h : Good s) (hadopted : Adopted s)
    (hfrom : FromInit s t) :
    t ∈ s.runqueue → t = s.init ∨ TransGen (Child s) s.init t := by
  induction hfrom using ReflTransGen.head_induction_on with
  | refl => exact fun _ => Or.inl rfl
  | @head t p hparent hfrom ih =>
    intro ht
    have hlive := h.queued t ht
    obtain ⟨-, hplive, -, hactive, -⟩ := h.owned t hlive (Finset.notMem_empty t) p hparent
    have hchild : Child s p t := hactive ht
    have hp : p ∈ s.runqueue := by
      by_contra hnot
      have hnil := hadopted p hplive hnot hfrom
      rw [Child, hnil] at hchild
      exact List.not_mem_nil hchild
    refine Or.inr ?_
    rcases ih hp with rfl | hpath
    · exact .single hchild
    · exact .tail hpath hchild

/-- `kill` queues the signal on the task that `get_by_pid` returns. -/
theorem returns_kill (h : Good w.proc) (hnum : Numbered w.proc)
    (ht : t ∈ w.proc.live) {signal : ℤ} (hvalid : isSignalValid signal)
    (hfound : Returns (fun fuel => getByPid fuel (w.proc.pid t) w.proc) (some t)) :
    Returns (fun fuel => kill fuel (w.proc.pid t) signal w) (0, w.queue t signal) := by
  obtain ⟨n, hn⟩ := hfound
  refine ⟨n, fun fuel hfuel => ?_⟩
  have htarget : target fuel (w.proc.pid t) w.proc = .ok (some t) := by
    rw [target]
    split_ifs with hself
    · rw [hnum.eq_of_pid_eq ht h.current_live (Int.natCast_inj.mp hself)]
      rfl
    · exact hn fuel hfuel
  dsimp only
  rw [kill, if_neg (not_not.mpr hvalid), access_of_mem h.current_live, ok_bind, htarget,
    ok_bind]
  dsimp only
  rw [access_of_mem ht, ok_bind]
  rfl

theorem getByPid_eq_search {s : State} {pid : ℤ} (h1 : pid ≠ 1) (h2 : pid ≠ 2) :
    (fun fuel => getByPid fuel pid s) = fun fuel => search pid s fuel [s.init] := by
  funext fuel
  rw [getByPid, if_neg h1, if_neg h2]

/-- **Signals reach every running task** exactly if no zombie has active children. -/
theorem reach_iff (h : Good w.proc) (hnum : Numbered w.proc) :
    Reach w ↔ Adopted w.proc := by
  constructor
  · -- An active child of a zombie runs, and the search cannot find it.
    intro hreach z hz hnot hfrom
    refine List.eq_nil_iff_forall_not_mem.mpr fun c hc => ?_
    obtain ⟨hparent, hqueue, hlive, hlt⟩ := child_spec h hz hc
    have hzinit : z ≠ w.proc.init := fun hEq => hnot (hEq ▸ h.init)
    obtain ⟨p, hp, -⟩ := exists_parent hfrom hzinit
    have habove := h.above z hz p hp
    rw [hnum.init] at habove
    have hpid := hnum.pid c hlive
    have hreturns := (hreach.found c hqueue (.head hparent hfrom)).1
    rw [getByPid_eq_search (by omega) (by omega)] at hreturns
    obtain ⟨result, hfound, hresult⟩ := exists_returns_search h hnum (w.proc.pid c)
    rw [hresult.unique hreturns] at hfound
    obtain ⟨-, a, ha, hpath⟩ := hfound
    obtain rfl := List.mem_singleton.mp ha
    -- The last step of the path is from the parent, which is the zombie.
    obtain ⟨b, hb, hstep⟩ := TransGen.tail'_iff.mp hpath
    have hbqueue : b ∈ w.proc.runqueue := by
      rcases reflTransGen_iff_eq_or_transGen.mp hb with rfl | hb'
      · exact h.init
      · exact (of_path h hb').1
    have hparent' := (child_spec h (h.queued b hbqueue) hstep).1
    rw [hparent] at hparent'
    exact hnot (Option.some.inj hparent' ▸ hbqueue)
  · intro hadopted
    refine ⟨fun t ht hfrom => ?_, fun pid h1 h2 hno => ?_⟩
    · have hlive := h.queued t ht
      have hfound : Returns (fun fuel => getByPid fuel (w.proc.pid t) w.proc) (some t) := by
        have hpid := hnum.pid t hlive
        rcases path_of_adopted h hadopted hfrom ht with rfl | hpath
        · have hone : (w.proc.pid w.proc.init : ℤ) = 1 := by
            have hinit := hnum.init
            omega
          exact ⟨0, fun fuel _ => if_pos hone⟩
        · have hne : (w.proc.pid t : ℤ) ≠ 1 := by
            have habove := init_lt_of_path h hpath
            rw [hnum.init] at habove
            omega
          by_cases htwo : (w.proc.pid t : ℤ) = 2
          · have hEq : t = kthreadd := by
              rw [kthreadd]
              omega
            exact ⟨0, fun fuel _ => (if_neg hne).trans ((if_pos htwo).trans (hEq ▸ rfl))⟩
          · rw [getByPid_eq_search hne htwo]
            exact returns_search h hnum ⟨rfl, _, List.mem_singleton_self _, hpath⟩
      exact ⟨hfound, fun signal hvalid => returns_kill h hnum hlive hvalid hfound⟩
    · rw [getByPid_eq_search h1 h2]
      refine returns_search h hnum fun a ha t hpath => ?_
      obtain rfl := List.mem_singleton.mp ha
      obtain ⟨hqueue, hfrom⟩ := of_path h hpath
      exact hno t hqueue hfrom

end Reach

/-- **Signals reach every running task exactly if no zombie below the init task has active
children**, in every state reached from the start of the kernel, whatever signals are
pending. -/
theorem reach_iff_of_run {s₀ : State} {w : World} (hboot : boot = .ok s₀)
    (hrun : Run Step s₀ w.proc) : Reach w ↔ Adopted w.proc :=
  reach_iff (good_of_run hboot hrun) (numbered_of_run hboot hrun)

/-- The init task has forked, and all tasks run. -/
theorem reach_iff_of_run_one_child : ∃ s₀ s, boot = .ok s₀ ∧ Run Step s₀ s ∧
    4 ∈ s.runqueue ∧ s.parent 4 = some s.init ∧ Reach ⟨s, fun _ => []⟩ := by
  have hcheck : check (fun s₀ => check (fun s => decide (4 ∈ s.runqueue) &&
      decide (s.parent 4 = some s.init) && decide (∀ z ∈ s.live, z ∈ s.runqueue))
      (execAll 0 [.schedule, .fork] s₀)) boot = true := by decide +kernel
  obtain ⟨s₀, hboot, hcheck'⟩ := exists_ok_of_check hcheck
  obtain ⟨s, hs, htest⟩ := exists_ok_of_check hcheck'
  simp only [Bool.and_eq_true, decide_eq_true_eq] at htest
  obtain ⟨⟨hqueue, hparent⟩, hall⟩ := htest
  have hrun := run_execAll 0 _ s hs
  exact ⟨s₀, s, hboot, hrun, hqueue, hparent,
    (reach_iff_of_run (w := ⟨s, _⟩) hboot hrun).mpr fun z hz hnot => absurd (hall z hz) hnot⟩

/-- The init task forks, and its child forks and exits. Before anybody waits for it, the
grandchild runs, and `get_by_pid` does not find it. -/
theorem not_reach_of_zombie : ∃ s₀ s, boot = .ok s₀ ∧ Run Step s₀ s ∧ 5 ∈ s.runqueue ∧
    s.pid 5 = 4 ∧ getByPid 4 4 s = .ok none ∧ ∀ pending, ¬Reach ⟨s, pending⟩ := by
  have hcheck : check (fun s₀ => check (fun s => decide (5 ∈ s.runqueue) &&
      decide (s.pid 5 = 4) && decide (getByPid 4 4 s = .ok none) && decide (4 ∈ s.live) &&
      decide (4 ∉ s.runqueue) && decide (s.parent 4 = some s.init) &&
      decide (s.activeChildren 4 = [5]))
      (execAll 0 [.schedule, .fork, .schedule, .schedule, .schedule, .fork, .exit 0] s₀))
      boot = true := by decide +kernel
  obtain ⟨s₀, hboot, hcheck'⟩ := exists_ok_of_check hcheck
  obtain ⟨s, hs, htest⟩ := exists_ok_of_check hcheck'
  simp only [Bool.and_eq_true, decide_eq_true_eq] at htest
  obtain ⟨⟨⟨⟨⟨⟨hqueue, hpid⟩, hnone⟩, hlive⟩, hnot⟩, hparent⟩, hactive⟩ := htest
  have hrun := run_execAll 0 _ s hs
  refine ⟨s₀, s, hboot, hrun, hqueue, hpid, hnone, fun pending hreach => ?_⟩
  have hgood := good_of_run hboot hrun
  have hadopted := (reach_iff (w := ⟨s, pending⟩) hgood (numbered_of_run hboot hrun)).mp hreach
  have hnil := hadopted 4 hlive hnot (.single hparent)
  rw [hactive] at hnil
  cases hnil

end Valkyrie.Signals
