import Mathlib.Tactic
import Valkyrie.Proc.Task

/-!
# The process tree

A task is in one of two situations. While it runs, the scheduler owns it and its parent
knows it as an active child; after it has exited, its parent owns it until it waits for it.
`exit` moves a task from the first situation to the second, and `wait` destroys it. What
makes this more than bookkeeping is that tasks go away in any order: a task may exit before
its children do, and be destroyed while they still run or while they are zombies nobody has
waited for.

The destructor deals with both. Children that still run are adopted by the init task, and
zombies are destroyed with their parent, which in turn leaves *their* children to the init
task. In the middle of this some tasks belong to no list, and the lists of others no longer
count; the invariant (`Valkyrie.Proc.Inv`) names the two sets, and is the same before and
after, for both sets empty. Addresses go up along the tree and the init task is below all
of them, so the recursion ends (`Valkyrie.Proc.Inv.destroy`).

The result is `Valkyrie.Proc.conserved_of_run`: in every state reached, every task that is
not destroyed is in exactly one of the two situations, and no parent is a wild pointer.
-/

namespace Valkyrie.Proc

open Exec Function Finset

variable {s s' : State} {D X : Finset ℕ} {t p q c : ℕ}

/-! ### The property -/

/-- **A running task**: it is on the runqueue once, and it is an active child of its parent,
once, and of no other task. -/
structure Running (s : State) (t p : ℕ) : Prop where
  queued : s.runqueue.count t = 1
  active : (s.activeChildren p).count t = 1
  other : ∀ q ∈ s.live, q ≠ p → t ∉ s.activeChildren q
  owned : ∀ q ∈ s.live, t ∉ s.terminatedChildren q

/-- **A zombie**: it is off the runqueue, and its parent owns it, once, and no other task. -/
structure Zombie (s : State) (t p : ℕ) : Prop where
  unqueued : t ∉ s.runqueue
  terminated : (s.terminatedChildren p).count t = 1
  other : ∀ q ∈ s.live, q ≠ p → t ∉ s.terminatedChildren q
  inactive : ∀ q ∈ s.live, t ∉ s.activeChildren q

/-- The tasks that the kernel starts with: idle, init and kthreadd. -/
def started : Finset ℕ := {1, 2, 3}

/-- **No task is lost or doubled**: every parent is there, and every task but those the
kernel starts with is either running or a zombie. -/
structure Conserved (s : State) : Prop where
  parent : ∀ t ∈ s.live, ∀ p, s.parent t = some p → p ∈ s.live
  task : ∀ t ∈ s.live, t ∉ started → ∃ p, s.parent t = some p ∧ Xor (Running s t p) (Zombie s t p)

/-! ### The invariant -/

/-- **The process tree**, while some tasks are being destroyed. `X` are tasks that no list
owns any more; `D` are those of them whose destructor has begun, whose own lists no longer
count. -/
structure Inv (D X : Finset ℕ) (s : State) : Prop where
  sub : D ⊆ X
  detached : ∀ x ∈ X, x ∈ s.live ∧ x ∉ s.runqueue
  bound : ∀ t ∈ s.live, t < s.next
  pids : 1 < s.nextPid
  nodup : s.runqueue.Nodup
  queued : ∀ t ∈ s.runqueue, t ∈ s.live
  init : s.init ∈ s.runqueue
  above : ∀ t ∈ s.live, ∀ p, s.parent t = some p → s.init < t
  activeNodup : ∀ q ∈ s.live, (s.activeChildren q).Nodup
  terminatedNodup : ∀ q ∈ s.live, (s.terminatedChildren q).Nodup
  active : ∀ q ∈ s.live, q ∉ D → ∀ c ∈ s.activeChildren q, s.parent c = some q ∧ c ∈ s.runqueue
  terminated : ∀ q ∈ s.live, q ∉ D → ∀ c ∈ s.terminatedChildren q,
    s.parent c = some q ∧ c ∉ s.runqueue ∧ c ∈ s.live ∧ c ∉ X
  owned : ∀ t ∈ s.live, t ∉ X → ∀ p, s.parent t = some p →
    p < t ∧ p ∈ s.live ∧ p ∉ D ∧ (t ∈ s.runqueue → t ∈ s.activeChildren p) ∧
      (t ∉ s.runqueue → t ∈ s.terminatedChildren p)
  root : ∀ t ∈ s.live, t ∉ X → s.parent t = none → t ∈ started ∧ t ∈ s.runqueue

theorem Inv.ne_init (h : Inv D X s) (hx : t ∈ X) : t ≠ s.init :=
  fun hEq => (h.detached t hx).2 (hEq ▸ h.init)

theorem Inv.init_live (h : Inv D X s) : s.init ∈ s.live := h.queued _ h.init

theorem Inv.not_mem_of_queued (h : Inv D X s) (ht : t ∈ s.runqueue) : t ∉ X :=
  fun hx => (h.detached t hx).2 ht

theorem access_of_mem (h : t ∈ s.live) : s.access t = .ok () := if_pos h

/-! ### Destruction -/

/-- One child is adopted. -/
def adoptOne (t child : ℕ) (rest : List ℕ) (s : State) : State :=
  ((s.setActive s.init (s.activeChildren s.init ++ [child])).setParent child
    (some s.init)).setActive t rest

theorem activeChildren_adoptOne {child : ℕ} {rest : List ℕ} (q : ℕ) :
    (adoptOne t child rest s).activeChildren q =
      if q = t then rest
      else if q = s.init then s.activeChildren s.init ++ [child] else s.activeChildren q := by
  change update (update s.activeChildren s.init _) t rest q = _
  rw [update_apply, update_apply]

theorem parent_adoptOne {child : ℕ} {rest : List ℕ} (c : ℕ) :
    (adoptOne t child rest s).parent c = if c = child then some s.init else s.parent c :=
  update_apply ..

theorem Inv.adoptOne (h : Inv D X s) (ht : t ∈ X) (htD : t ∉ D) {child : ℕ} {rest : List ℕ}
    (hactive : s.activeChildren t = child :: rest) : Inv D X (adoptOne t child rest s) := by
  have hlive := (h.detached t ht).1
  have hne : t ≠ s.init := h.ne_init ht
  obtain ⟨hparent, hqueued⟩ := h.active t hlive htD child (hactive ▸ List.mem_cons_self)
  have hchild := h.queued child hqueued
  obtain ⟨hrest, hnodup⟩ : child ∉ rest ∧ rest.Nodup :=
    List.nodup_cons.mp (hactive ▸ h.activeNodup t hlive)
  have hinitD : s.init ∉ D := fun hD => h.not_mem_of_queued h.init (h.sub hD)
  have habove := h.above child hchild t hparent
  -- The child was on the list of `t`, so it was on no other.
  have hother : ∀ q ∈ s.live, q ∉ D → q ≠ t → child ∉ s.activeChildren q := by
    intro q hq hqD hqt hmem
    have hq' := (h.active q hq hqD child hmem).1
    exact hqt (Option.some.inj (hq'.symm.trans hparent))
  refine ⟨h.sub, h.detached, h.bound, h.pids, h.nodup, h.queued, h.init, ?_, ?_, h.terminatedNodup, ?_, ?_,
    ?_, ?_⟩
  · intro c hc p hp
    rw [parent_adoptOne] at hp
    split_ifs at hp with hEq
    · exact hEq ▸ habove
    · exact h.above c hc p hp
  · intro q hq
    rw [activeChildren_adoptOne]
    split_ifs with hqt hqi
    · exact hnodup
    · refine List.nodup_append.mpr ⟨h.activeNodup _ h.init_live, List.nodup_singleton _, ?_⟩
      rintro a ha b hb rfl
      exact hother _ h.init_live hinitD hne.symm (List.mem_singleton.mp hb ▸ ha)
    · exact h.activeNodup q hq
  · intro q hq hqD c hc
    rw [activeChildren_adoptOne] at hc
    rw [parent_adoptOne]
    split_ifs at hc with hqt hqi
    · have hcne : c ≠ child := fun hEq => hrest (hEq ▸ hc)
      rw [if_neg hcne]
      exact h.active q hq hqD c (hqt ▸ hactive ▸ List.mem_cons_of_mem child hc)
    · rcases List.mem_append.mp hc with hold | hnew
      · have hcne : c ≠ child := fun hEq => hother _ h.init_live hinitD hne.symm (hEq ▸ hold)
        rw [if_neg hcne]
        exact hqi ▸ h.active _ h.init_live hinitD c hold
      · obtain rfl := List.mem_singleton.mp hnew
        rw [if_pos rfl]
        exact ⟨congrArg some hqi.symm, hqueued⟩
    · have hcne : c ≠ child := fun hEq => hother q hq hqD hqt (hEq ▸ hc)
      rw [if_neg hcne]
      exact h.active q hq hqD c hc
  · intro q hq hqD c hc
    have hterm := h.terminated q hq hqD c hc
    have hcne : c ≠ child := fun hEq => hterm.2.1 (hEq ▸ hqueued)
    rw [parent_adoptOne, if_neg hcne]
    exact hterm
  · intro u hu huX p hp
    rw [parent_adoptOne] at hp
    rw [activeChildren_adoptOne]
    split_ifs at hp with hEq
    · obtain rfl := Option.some.inj hp
      obtain rfl := hEq
      rw [if_neg hne.symm, if_pos rfl]
      exact ⟨habove, h.init_live, hinitD, fun _ => List.mem_append_right _ (List.mem_singleton_self u),
        fun hnot => absurd hqueued hnot⟩
    · obtain ⟨hlt, hp', hpD, hq, hz⟩ := h.owned u hu huX p hp
      refine ⟨hlt, hp', hpD, fun huq => ?_, hz⟩
      have hmem := hq huq
      split_ifs with hpt hpi
      · rw [hpt, hactive] at hmem
        exact (List.mem_cons.mp hmem).resolve_left hEq
      · exact List.mem_append_left _ (hpi ▸ hmem)
      · exact hmem
  · intro u hu huX hp
    rw [parent_adoptOne] at hp
    split_ifs at hp with hEq
    exact h.root u hu huX hp

/-- What a destructor leaves as it is. -/
structure Frame (s s' : State) : Prop where
  runqueue : s'.runqueue = s.runqueue
  current : s'.current = s.current
  next : s'.next = s.next

theorem Frame.rfl : Frame s s := ⟨Eq.refl _, Eq.refl _, Eq.refl _⟩

theorem Frame.trans {s'' : State} (h : Frame s s') (h' : Frame s' s'') : Frame s s'' :=
  ⟨h'.runqueue.trans h.runqueue, h'.current.trans h.current, h'.next.trans h.next⟩

/-- **The loop of the destructor**: the init task gets all the active children. -/
theorem Inv.adopt (ht : t ∈ X) (htD : t ∉ D) (children : List ℕ) :
    ∀ {s}, Inv D X s → s.activeChildren t = children → Meets (adopt t children s) True fun s' =>
      Inv D X s' ∧ s'.activeChildren t = [] ∧ s'.terminatedChildren t = s.terminatedChildren t ∧
        Frame s s' := by
  induction children with
  | nil => exact fun h hactive => meets_pure.mpr ⟨h, hactive, rfl, Frame.rfl⟩
  | cons child rest ih =>
    intro s h hactive
    have hlive := (h.detached t ht).1
    have hchild := h.queued child (h.active t hlive htD child (hactive ▸ List.mem_cons_self)).2
    have hrest : (Proc.adoptOne t child rest s).activeChildren t = rest := by
      rw [activeChildren_adoptOne, if_pos rfl]
    have haccess : (s.setActive s.init (s.activeChildren s.init ++ [child])).access child = .ok () :=
      access_of_mem hchild
    rw [Proc.adopt, access_of_mem h.init_live, ok_bind]
    dsimp only
    rw [haccess, ok_bind]
    refine (ih (h.adoptOne ht htD hactive) hrest).mono ?_
    rintro s' ⟨hinv, hnil, hterm, hframe⟩
    exact ⟨hinv, hnil, hterm, hframe.runqueue, hframe.current, hframe.next⟩

/-- The lists of a task stop to count, and its terminated children are owned by no one. -/
theorem Inv.detach (h : Inv D X s) (ht : t ∈ X) (htD : t ∉ D) (hactive : s.activeChildren t = []) :
    Inv (insert t D) (X ∪ (s.terminatedChildren t).toFinset) s := by
  have hlive := (h.detached t ht).1
  have hchild : ∀ c ∈ (s.terminatedChildren t).toFinset,
      s.parent c = some t ∧ c ∉ s.runqueue ∧ c ∈ s.live := fun c hc =>
    have hterm := h.terminated t hlive htD c (List.mem_toFinset.mp hc)
    ⟨hterm.1, hterm.2.1, hterm.2.2.1⟩
  refine { h with
    sub := ?_
    detached := ?_
    active := ?_
    terminated := ?_
    owned := ?_
    root := ?_ }
  · intro x hx
    rcases mem_insert.mp hx with rfl | hxD
    · exact mem_union_left _ ht
    · exact mem_union_left _ (h.sub hxD)
  · intro x hx
    rcases mem_union.mp hx with hX | hc
    · exact h.detached x hX
    · exact ⟨(hchild x hc).2.2, (hchild x hc).2.1⟩
  · exact fun q hq hqD => h.active q hq fun hD => hqD (mem_insert_of_mem hD)
  · intro q hq hqD c hc
    obtain ⟨hparent, hqueue, hclive, hcX⟩ := h.terminated q hq
      (fun hD => hqD (mem_insert_of_mem hD)) c hc
    refine ⟨hparent, hqueue, hclive, fun hmem => ?_⟩
    rcases mem_union.mp hmem with hX | hc'
    · exact hcX hX
    · have hEq := Option.some.inj (hparent.symm.trans (hchild c hc').1)
      exact hqD (hEq ▸ mem_insert_self t D)
  · intro u hu huX p hp
    obtain ⟨hlt, hplive, hpD, hqueue, hzombie⟩ :=
      h.owned u hu (fun hX => huX (mem_union_left _ hX)) p hp
    refine ⟨hlt, hplive, fun hmem => ?_, hqueue, hzombie⟩
    rcases mem_insert.mp hmem with rfl | hD
    · by_cases huq : u ∈ s.runqueue
      · exact List.not_mem_nil (hactive ▸ hqueue huq)
      · exact huX (mem_union_right _ (List.mem_toFinset.mpr (hzombie huq)))
    · exact hpD hD
  · exact fun u hu huX => h.root u hu fun hX => huX (mem_union_left _ hX)

/-- A task is freed after its members were destroyed. -/
theorem Inv.free (h : Inv (insert t D) (insert t X) s) (hD : D ⊆ X) (ht : t ∉ X) :
    Inv D X { s with live := s.live.erase t } := by
  have hqueue : t ∉ s.runqueue := (h.detached t (mem_insert_self t X)).2
  have hX : ∀ {x}, x ≠ t → x ∉ X → x ∉ insert t X := fun hne hx hmem =>
    (mem_insert.mp hmem).elim hne hx
  have hD' : ∀ {x}, x ≠ t → x ∉ D → x ∉ insert t D := fun hne hx hmem =>
    (mem_insert.mp hmem).elim hne hx
  refine { h with
    sub := hD
    detached := ?_
    bound := ?_
    queued := ?_
    above := ?_
    activeNodup := ?_
    terminatedNodup := ?_
    active := ?_
    terminated := ?_
    owned := ?_
    root := ?_ }
  · intro x hx
    have hx' := h.detached x (mem_insert_of_mem hx)
    exact ⟨mem_erase.mpr ⟨fun hEq => ht (hEq ▸ hx), hx'.1⟩, hx'.2⟩
  · exact fun u hu => h.bound u (mem_of_mem_erase hu)
  · exact fun u hu => mem_erase.mpr ⟨fun hEq => hqueue (hEq ▸ hu), h.queued u hu⟩
  · exact fun u hu => h.above u (mem_of_mem_erase hu)
  · exact fun q hq => h.activeNodup q (mem_of_mem_erase hq)
  · exact fun q hq => h.terminatedNodup q (mem_of_mem_erase hq)
  · intro q hq hqD
    obtain ⟨hne, hq'⟩ := mem_erase.mp hq
    exact h.active q hq' (hD' hne hqD)
  · intro q hq hqD c hc
    obtain ⟨hne, hq'⟩ := mem_erase.mp hq
    obtain ⟨hparent, hcq, hclive, hcX⟩ := h.terminated q hq' (hD' hne hqD) c hc
    have hct : c ≠ t := fun hEq => hcX (hEq ▸ mem_insert_self t X)
    exact ⟨hparent, hcq, mem_erase.mpr ⟨hct, hclive⟩,
      fun hmem => hcX (mem_insert_of_mem hmem)⟩
  · intro u hu huX p hp
    obtain ⟨hne, hu'⟩ := mem_erase.mp hu
    obtain ⟨hlt, hplive, hpD, hrest⟩ := h.owned u hu' (hX hne huX) p hp
    have hpt : p ≠ t := fun hEq => hpD (hEq ▸ mem_insert_self t D)
    exact ⟨hlt, mem_erase.mpr ⟨hpt, hplive⟩,
      fun hmem => hpD (mem_insert_of_mem hmem), hrest⟩
  · intro u hu huX hp
    obtain ⟨hne, hu'⟩ := mem_erase.mp hu
    exact h.root u hu' (hX hne huX) hp

/-- A task that no list owns is destroyed, and with it the terminated tasks below it. The
addresses go up from a task to its children, which bounds the depth. -/
theorem Inv.destroy (fuel : ℕ) :
    ∀ {D X : Finset ℕ} {t : ℕ} {s : State}, Inv D (insert t X) s → D ⊆ X → t ∉ X →
      Meets (destroy fuel t s) (s.next ≤ t + fuel) fun s' => Inv D X s' ∧ Frame s s' := by
  induction fuel with
  | zero =>
    intro D X t s h _ _
    have hlt := h.bound t (h.detached t (mem_insert_self t X)).1
    exact meets_outOfFuel.mpr (by omega)
  | succ fuel ih =>
    -- The terminated children, one after the other.
    have hfold : ∀ (children : List ℕ) {D X : Finset ℕ} {t : ℕ} {s : State},
        Inv D (X ∪ children.toFinset) s → D ⊆ X → (∀ c ∈ children, c ∉ X) → children.Nodup →
          (∀ c ∈ children, t < c) →
            Meets (children.foldlM (fun s child => Proc.destroy fuel child s) s)
              (s.next ≤ t + (fuel + 1)) fun s' => Inv D X s' ∧ Frame s s' := by
      intro children
      induction children with
      | nil =>
        intro D X t s h _ _ _ _
        rw [List.toFinset_nil, union_empty] at h
        exact meets_pure.mpr ⟨h, Frame.rfl⟩
      | cons c children ihc =>
        intro D X t s h hD hX hnodup hlt
        obtain ⟨hc, hnodup'⟩ := List.nodup_cons.mp hnodup
        rw [List.toFinset_cons, union_insert] at h
        have hcX : c ∉ X ∪ children.toFinset := by
          rw [mem_union, List.mem_toFinset]
          exact not_or.mpr ⟨hX c List.mem_cons_self, hc⟩
        have hfirst := ih h (hD.trans subset_union_left) hcX
        have hct := hlt c List.mem_cons_self
        rw [List.foldlM_cons]
        refine (hfirst.weaken fun henough => (by omega)).bind ?_
        rintro s' ⟨h', hframe⟩
        refine ((ihc h' hD (fun d hd => hX d (List.mem_cons_of_mem c hd)) hnodup'
          fun d hd => hlt d (List.mem_cons_of_mem c hd)).weaken fun henough => ?_).mono ?_
        · rw [hframe.next]
          exact henough
        · rintro s'' ⟨h'', hframe'⟩
          exact ⟨h'', hframe.trans hframe'⟩
    intro D X t s h hD ht
    have htmem := mem_insert_self t X
    have htD : t ∉ D := fun hmem => ht (hD hmem)
    rw [Proc.destroy, access_of_mem (h.detached t htmem).1, ok_bind]
    refine ((Inv.adopt htmem htD _ h rfl).weaken fun _ => trivial).bind ?_
    rintro s₁ ⟨h₁, hactive, -, hframe₁⟩
    have hlive := (h₁.detached t htmem).1
    have hchild := h₁.terminated t hlive htD
    have hlt : ∀ c ∈ s₁.terminatedChildren t, t < c := fun c hc =>
      (h₁.owned c (hchild c hc).2.2.1 (hchild c hc).2.2.2 t (hchild c hc).1).1
    refine ((hfold _ (h₁.detach htmem htD hactive) (insert_subset_insert t hD)
      (fun c hc => (hchild c hc).2.2.2) (h₁.terminatedNodup t hlive) hlt).weaken ?_).bind ?_
    · intro henough
      rw [hframe₁.next]
      exact henough
    · rintro s₂ ⟨h₂, hframe₂⟩
      have hframe := hframe₁.trans hframe₂
      exact meets_pure.mpr ⟨h₂.free hD ht, hframe.runqueue, hframe.current, hframe.next⟩

/-! ### The calls -/

/-- **Between two calls** no task is being destroyed, and the current task is the first of
the runqueue. -/
structure Good (s : State) : Prop extends Inv ∅ ∅ s where
  head : s.runqueue.head? = some s.current

theorem rotate_perm (queue : List ℕ) : (rotate queue).Perm queue := by
  rcases queue with _ | ⟨t, _ | ⟨t', rest⟩⟩
  · exact List.Perm.refl _
  · exact List.Perm.refl _
  · exact List.perm_append_singleton t (t' :: rest)

/-- The order of the runqueue, the states of the tasks and their exit codes do not matter. -/
theorem Inv.reorder (h : Inv D X s) {queue : List ℕ} (hperm : queue.Perm s.runqueue)
    (state : ℕ → TaskState) (errorCode : ℕ → ℤ) (current : ℕ) :
    Inv D X { s with
      runqueue := queue, state := state, errorCode := errorCode, current := current } where
  sub := h.sub
  detached x hx := ⟨(h.detached x hx).1, fun hmem => (h.detached x hx).2 (hperm.mem_iff.mp hmem)⟩
  bound := h.bound
  pids := h.pids
  nodup := hperm.nodup_iff.mpr h.nodup
  queued t ht := h.queued t (hperm.mem_iff.mp ht)
  init := hperm.mem_iff.mpr h.init
  above := h.above
  activeNodup := h.activeNodup
  terminatedNodup := h.terminatedNodup
  active q hq hqD c hc := (h.active q hq hqD c hc).imp_right hperm.mem_iff.mpr
  terminated q hq hqD c hc :=
    have hterm := h.terminated q hq hqD c hc
    ⟨hterm.1, fun hmem => hterm.2.1 (hperm.mem_iff.mp hmem), hterm.2.2⟩
  owned t ht htX p hp :=
    have hown := h.owned t ht htX p hp
    ⟨hown.1, hown.2.1, hown.2.2.1, fun hmem => hown.2.2.2.1 (hperm.mem_iff.mp hmem),
      fun hnot => hown.2.2.2.2 fun hmem => hnot (hperm.mem_iff.mpr hmem)⟩
  root t ht htX hp := (h.root t ht htX hp).imp_right hperm.mem_iff.mpr

/-- **Scheduling** keeps the tree, and the first task of the runqueue is the current one. -/
theorem Inv.schedule (h : Inv ∅ ∅ s) (hcur : s.current ∈ s.live) :
    Meets (schedule s) True Good := by
  have hperm := rotate_perm s.runqueue
  have haccess : State.access s.current { s with runqueue := rotate s.runqueue } = .ok () :=
    access_of_mem hcur
  rw [Proc.schedule]
  dsimp only
  rw [haccess, ok_bind]
  cases hqueue : rotate s.runqueue with
  | nil =>
    have hinit := hperm.mem_iff.mpr h.init
    rw [hqueue] at hinit
    exact absurd hinit List.not_mem_nil
  | cons front rest =>
    have hfront : front ∈ s.live := h.queued front (hperm.mem_iff.mp (hqueue ▸ List.mem_cons_self))
    rw [hqueue] at hperm
    have hgood : Good { s with
        runqueue := front :: rest
        state := update (update s.state s.current .sleeping) front .running
        current := front } :=
      ⟨h.reorder hperm _ s.errorCode front, rfl⟩
    have haccess' : State.access front (State.setState s.current .sleeping
        { s with runqueue := front :: rest }) = .ok () := access_of_mem hfront
    simp only [State.setState] at haccess' ⊢
    rw [haccess', ok_bind]
    exact meets_pure.mpr hgood

theorem Good.current_queued (h : Good s) : s.current ∈ s.runqueue :=
  List.mem_of_head? h.head

theorem Good.current_live (h : Good s) : s.current ∈ s.live := h.queued _ h.current_queued

/-- The tree after `fork`: a new task at the end of the runqueue, and at the end of the list
of active children of the current task. -/
def forked (s : State) : State :=
  { s with
    live := insert s.next s.live
    parent := update s.parent s.next (some s.current)
    activeChildren := update (update s.activeChildren s.next []) s.current
      (s.activeChildren s.current ++ [s.next])
    terminatedChildren := update s.terminatedChildren s.next []
    state := update (update s.state s.next .created) s.next .running
    errorCode := update s.errorCode s.next 0
    pid := update s.pid s.next s.nextPid
    nextPid := s.nextPid + 1
    runqueue := s.runqueue ++ [s.next]
    next := s.next + 1 }

theorem Good.next_not_live (h : Good s) : s.next ∉ s.live := fun hmem =>
  lt_irrefl _ (h.bound _ hmem)

theorem Good.ne_next (h : Good s) {x : ℕ} (hx : x ∈ s.live) : x ≠ s.next :=
  fun hEq => h.next_not_live (hEq ▸ hx)

theorem Good.fork_eq (h : Good s) : fork s = .ok (s.nextPid, forked s) := by
  have hne : s.current ≠ s.next := h.ne_next h.current_live
  have hinit : (if s.nextPid = 1 then s.next else s.init) = s.init := if_neg h.pids.ne'
  have hactive : update s.activeChildren s.next [] s.current = s.activeChildren s.current :=
    update_of_ne hne ..
  rw [fork, newTask]
  simp only [hinit]
  rw [access_of_mem (mem_insert_of_mem h.current_live)]
  simp only [State.setActive, enqueueTask, State.setState, ok_bind, pure_bind, hactive,
    update_self, forked]
  rfl

theorem activeChildren_forked (s : State) (q : ℕ) : (forked s).activeChildren q =
    if q = s.current then s.activeChildren s.current ++ [s.next]
    else if q = s.next then [] else s.activeChildren q := by
  change update (update s.activeChildren s.next []) s.current _ q = _
  rw [update_apply, update_apply]

theorem terminatedChildren_forked (s : State) (q : ℕ) : (forked s).terminatedChildren q =
    if q = s.next then [] else s.terminatedChildren q :=
  update_apply ..

theorem parent_forked_next (s : State) : (forked s).parent s.next = some s.current :=
  update_self ..

theorem next_mem_runqueue_forked (s : State) : s.next ∈ (forked s).runqueue :=
  List.mem_append_right _ (List.mem_singleton_self _)

theorem mem_live_of_forked {x : ℕ} (hx : x ∈ (forked s).live) : x = s.next ∨ x ∈ s.live :=
  mem_insert.mp hx

theorem Good.parent_forked (h : Good s) {x : ℕ} (hx : x ∈ s.live) :
    (forked s).parent x = s.parent x :=
  update_of_ne (h.ne_next hx) ..

theorem Good.mem_runqueue_forked (h : Good s) {x : ℕ} (hx : x ∈ s.live) :
    x ∈ (forked s).runqueue ↔ x ∈ s.runqueue := by
  rw [forked, List.mem_append, List.mem_singleton, or_iff_left (h.ne_next hx)]

theorem Good.child_live (h : Good s) {q c : ℕ} (hq : q ∈ s.live) (hc : c ∈ s.activeChildren q) :
    c ∈ s.live :=
  h.queued c (h.active q hq (notMem_empty q) c hc).2

/-- The active children know their parents, and are on the runqueue. -/
theorem Good.active_forked (h : Good s) {q c : ℕ} (hq : q ∈ (forked s).live)
    (hc : c ∈ (forked s).activeChildren q) :
    (forked s).parent c = some q ∧ c ∈ (forked s).runqueue := by
  have hold : ∀ q ∈ s.live, c ∈ s.activeChildren q →
      (forked s).parent c = some q ∧ c ∈ (forked s).runqueue := by
    intro q hq hc
    have hclive := h.child_live hq hc
    rw [h.parent_forked hclive, h.mem_runqueue_forked hclive]
    exact h.active q hq (notMem_empty q) c hc
  rw [activeChildren_forked] at hc
  split_ifs at hc with hqc hqn
  · rcases List.mem_append.mp hc with hc' | hc'
    · exact hqc ▸ hold _ h.current_live hc'
    · obtain rfl := List.mem_singleton.mp hc'
      exact ⟨hqc ▸ parent_forked_next s, next_mem_runqueue_forked s⟩
  · exact absurd hc List.not_mem_nil
  · exact hold q ((mem_live_of_forked hq).resolve_left hqn) hc

/-- A parent has its child on one of its lists. -/
theorem Good.owned_forked (h : Good s) {u p : ℕ} (hu : u ∈ (forked s).live)
    (hp : (forked s).parent u = some p) :
    p < u ∧ p ∈ (forked s).live ∧ p ∉ (∅ : Finset ℕ) ∧
      (u ∈ (forked s).runqueue → u ∈ (forked s).activeChildren p) ∧
      (u ∉ (forked s).runqueue → u ∈ (forked s).terminatedChildren p) := by
  rcases mem_live_of_forked hu with rfl | hu'
  · obtain rfl := Option.some.inj ((parent_forked_next s).symm.trans hp)
    refine ⟨h.bound _ h.current_live, mem_insert_of_mem h.current_live, notMem_empty _,
      fun _ => ?_, fun hnot => absurd (next_mem_runqueue_forked s) hnot⟩
    rw [activeChildren_forked, if_pos rfl]
    exact List.mem_append_right _ (List.mem_singleton_self _)
  · rw [h.parent_forked hu'] at hp
    obtain ⟨hlt, hplive, hpD, hq, hz⟩ := h.owned u hu' (notMem_empty u) p hp
    have hne := h.ne_next hplive
    rw [h.mem_runqueue_forked hu', activeChildren_forked, terminatedChildren_forked, if_neg hne,
      if_neg hne]
    refine ⟨hlt, mem_insert_of_mem hplive, hpD, fun huq => ?_, hz⟩
    split_ifs with hpc
    · exact List.mem_append_left _ (hpc ▸ hq huq)
    · exact hq huq

theorem Good.fork (h : Good s) : Good (forked s) where
  sub := Subset.refl _
  detached x hx := absurd hx (notMem_empty x)
  bound x hx := by
    rcases mem_live_of_forked hx with rfl | hx'
    · exact Nat.lt_succ_self _
    · exact Nat.lt_succ_of_lt (h.bound x hx')
  pids := Nat.lt_succ_of_lt h.pids
  nodup := by
    refine List.nodup_append.mpr ⟨h.nodup, List.nodup_singleton _, ?_⟩
    rintro x hx y hy rfl
    exact h.ne_next (h.queued x hx) (List.mem_singleton.mp hy)
  queued x hx := by
    rcases List.mem_append.mp hx with hx' | hx'
    · exact mem_insert_of_mem (h.queued x hx')
    · exact List.mem_singleton.mp hx' ▸ mem_insert_self _ _
  init := List.mem_append_left _ h.init
  above x hx p hp := by
    rcases mem_live_of_forked hx with rfl | hx'
    · exact h.bound _ h.init_live
    · exact h.above x hx' p (h.parent_forked hx' ▸ hp)
  activeNodup q hq := by
    rw [activeChildren_forked]
    split_ifs with hqc hqn
    · refine List.nodup_append.mpr ⟨h.activeNodup _ h.current_live, List.nodup_singleton _, ?_⟩
      rintro x hx y hy rfl
      exact h.ne_next (h.child_live h.current_live hx) (List.mem_singleton.mp hy)
    · exact List.nodup_nil
    · exact h.activeNodup q ((mem_live_of_forked hq).resolve_left hqn)
  terminatedNodup q hq := by
    rw [terminatedChildren_forked]
    split_ifs with hqn
    · exact List.nodup_nil
    · exact h.terminatedNodup q ((mem_live_of_forked hq).resolve_left hqn)
  active q hq _ c hc := h.active_forked hq hc
  terminated q hq _ c hc := by
    rw [terminatedChildren_forked] at hc
    split_ifs at hc with hqn
    · exact absurd hc List.not_mem_nil
    · obtain ⟨hcp, hcq, hcl, hcX⟩ :=
        h.terminated q ((mem_live_of_forked hq).resolve_left hqn) (notMem_empty q) c hc
      rw [h.parent_forked hcl, h.mem_runqueue_forked hcl]
      exact ⟨hcp, hcq, mem_insert_of_mem hcl, hcX⟩
  owned u hu _ p hp := h.owned_forked hu hp
  root u hu huX hp := by
    rcases mem_live_of_forked hu with rfl | hu'
    · rw [parent_forked_next] at hp
      cases hp
    · rw [h.parent_forked hu'] at hp
      rw [h.mem_runqueue_forked hu']
      exact h.root u hu' huX hp
  head := List.head?_append_of_ne_nil _ (List.ne_nil_of_mem h.current_queued) ▸ h.head

/-- The tree after a task has left the runqueue, before another one is scheduled. -/
def exited (t p : ℕ) (errorCode : ℤ) (s : State) : State :=
  { s with
    state := update s.state t .terminated
    errorCode := update s.errorCode t errorCode
    activeChildren := update s.activeChildren p ((s.activeChildren p).erase t)
    runqueue := s.runqueue.erase t
    terminatedChildren := update s.terminatedChildren p (s.terminatedChildren p ++ [t]) }

theorem Inv.exited (h : Inv ∅ ∅ s) (ht : t ∈ s.runqueue) (hp : s.parent t = some p)
    (errorCode : ℤ) : Inv ∅ ∅ (exited t p errorCode s) := by
  have hempty : ∀ x : ℕ, x ∉ (∅ : Finset ℕ) := notMem_empty
  have htlive := h.queued t ht
  have hinit : s.init ≠ t := (h.above t htlive p hp).ne
  obtain ⟨hlt, hplive, -, hqueued, -⟩ := h.owned t htlive (hempty t) p hp
  have hactive : ∀ q, (Proc.exited t p errorCode s).activeChildren q =
      if q = p then (s.activeChildren p).erase t else s.activeChildren q := fun q =>
    update_apply ..
  have hterm : ∀ q, (Proc.exited t p errorCode s).terminatedChildren q =
      if q = p then s.terminatedChildren p ++ [t] else s.terminatedChildren q := fun q =>
    update_apply ..
  have hqueue : ∀ x, x ∈ (Proc.exited t p errorCode s).runqueue ↔ x ≠ t ∧ x ∈ s.runqueue := fun x =>
    h.nodup.mem_erase_iff
  -- A task on a list of another task than `p` is not `t`.
  have hother : ∀ q ∈ s.live, q ≠ p → t ∉ s.activeChildren q := by
    intro q hq hqp hmem
    exact hqp (Option.some.inj ((h.active q hq (hempty q) t hmem).1.symm.trans hp))
  have hzombie : ∀ q ∈ s.live, t ∉ s.terminatedChildren q := fun q hq hmem =>
    (h.terminated q hq (hempty q) t hmem).2.1 ht
  refine ⟨h.sub, fun x hx => absurd hx (hempty x), h.bound, h.pids, h.nodup.erase t, ?_, ?_, h.above,
    ?_, ?_, ?_, ?_, ?_, ?_⟩
  · exact fun x hx => h.queued x ((hqueue x).mp hx).2
  · exact (hqueue _).mpr ⟨hinit, h.init⟩
  · intro q hq
    rw [hactive]
    split_ifs
    · exact (h.activeNodup p hplive).erase t
    · exact h.activeNodup q hq
  · intro q hq
    rw [hterm]
    split_ifs
    · refine List.nodup_append.mpr ⟨h.terminatedNodup p hplive, List.nodup_singleton _, ?_⟩
      rintro x hx y hy rfl
      exact hzombie p hplive (List.mem_singleton.mp hy ▸ hx)
    · exact h.terminatedNodup q hq
  · intro q hq _ c hc
    rw [hactive] at hc
    rw [hqueue]
    split_ifs at hc with hqp
    · obtain ⟨hct, hc'⟩ := (h.activeNodup p hplive).mem_erase_iff.mp hc
      obtain ⟨hcp, hcq⟩ := h.active p hplive (hempty p) c hc'
      exact ⟨hqp ▸ hcp, hct, hcq⟩
    · obtain ⟨hcp, hcq⟩ := h.active q hq (hempty q) c hc
      exact ⟨hcp, fun hEq => hother q hq hqp (hEq ▸ hc), hcq⟩
  · intro q hq _ c hc
    have hnot : ∀ {x}, x ∉ s.runqueue → x ∉ (Proc.exited t p errorCode s).runqueue :=
      fun hx hmem => hx ((hqueue _).mp hmem).2
    rw [hterm] at hc
    split_ifs at hc with hqp
    · rcases List.mem_append.mp hc with hc' | hc'
      · obtain ⟨hcp, hcq, hcl, hcX⟩ := h.terminated p hplive (hempty p) c hc'
        exact ⟨hqp ▸ hcp, hnot hcq, hcl, hcX⟩
      · obtain rfl := List.mem_singleton.mp hc'
        exact ⟨hqp ▸ hp, fun hmem => ((hqueue c).mp hmem).1 rfl, htlive, hempty c⟩
    · obtain ⟨hcp, hcq, hcl, hcX⟩ := h.terminated q hq (hempty q) c hc
      exact ⟨hcp, hnot hcq, hcl, hcX⟩
  · intro u hu huX p' hp'
    obtain ⟨hlt', hplive', hpD, hq, hz⟩ := h.owned u hu huX p' hp'
    refine ⟨hlt', hplive', hpD, fun huq => ?_, fun hnot => ?_⟩
    · obtain ⟨hut, huq'⟩ := (hqueue u).mp huq
      rw [hactive]
      split_ifs with hpp
      · exact (h.activeNodup p hplive).mem_erase_iff.mpr ⟨hut, hpp ▸ hq huq'⟩
      · exact hq huq'
    · rw [hterm]
      rcases eq_or_ne u t with rfl | hut
      · rw [if_pos (Option.some.inj (hp'.symm.trans hp))]
        exact List.mem_append_right _ (List.mem_singleton_self _)
      · have hzu := hz fun huq => hnot ((hqueue u).mpr ⟨hut, huq⟩)
        split_ifs with hpp
        · exact List.mem_append_left _ (hpp ▸ hzu)
        · exact hzu
  · intro u hu huX hnone
    obtain ⟨hstarted, huq⟩ := h.root u hu huX hnone
    refine ⟨hstarted, (hqueue u).mpr ⟨fun hEq => ?_, huq⟩⟩
    change s.parent u = none at hnone
    rw [hEq, hp] at hnone
    cases hnone

theorem Good.exit_eq (h : Good s) (hp : s.parent s.current = some p) (code : ℤ) :
    Proc.exit code s = schedule (exited s.current p code s) := by
  obtain ⟨-, hplive, -⟩ := h.owned _ h.current_live (notMem_empty _) p hp
  have haccess : ∀ {s' : State}, s'.live = s.live → s'.access p = .ok () := fun hEq =>
    access_of_mem (hEq ▸ hplive)
  have hremove : ∀ {s' : State}, s'.runqueue = s.runqueue → removeTask s.current s' =
      .ok { s' with runqueue := s'.runqueue.erase s.current } := fun hEq =>
    if_pos (hEq ▸ h.current_queued)
  rw [Proc.exit, access_of_mem h.current_live, ok_bind]
  simp only [hp]
  rw [haccess, ok_bind, hremove, ok_bind]
  · rfl
  · rfl
  · rfl

/-- **A task with a parent can exit**, and one without cannot. -/
theorem Good.exit (h : Good s) (errorCode : ℤ) :
    (∀ p, s.parent s.current = some p → Meets (exit errorCode s) True Good) ∧
      (s.parent s.current = none →
        exit errorCode s = .error (.panic "Attempted to kill %s! exit code=0x%08x\n")) := by
  constructor
  · intro p hp
    rw [h.exit_eq hp]
    exact (h.toInv.exited h.current_queued hp errorCode).schedule h.current_live
  · intro hp
    rw [Proc.exit, access_of_mem h.current_live, ok_bind, hp]

/-- A terminated child is taken off the list of its parent. -/
theorem Inv.pop (h : Inv ∅ ∅ s) (hq : q ∈ s.live) {rest : List ℕ}
    (hterm : s.terminatedChildren q = c :: rest) : Inv ∅ {c} (s.setTerminated q rest) := by
  have hempty : ∀ x : ℕ, x ∉ (∅ : Finset ℕ) := notMem_empty
  obtain ⟨hcp, hcq, hcl, -⟩ := h.terminated q hq (hempty q) c (hterm ▸ List.mem_cons_self)
  obtain ⟨hrest, hnodup⟩ := List.nodup_cons.mp (hterm ▸ h.terminatedNodup q hq)
  have hset : ∀ x, (s.setTerminated q rest).terminatedChildren x =
      if x = q then rest else s.terminatedChildren x := fun x => update_apply ..
  refine { h with
    sub := empty_subset _
    detached := ?_
    terminatedNodup := ?_
    terminated := ?_
    owned := ?_
    root := fun u hu _ => h.root u hu (hempty u) }
  · intro x hx
    exact mem_singleton.mp hx ▸ ⟨hcl, hcq⟩
  · intro x hx
    rw [hset]
    split_ifs
    · exact hnodup
    · exact h.terminatedNodup x hx
  · intro x hx _ d hd
    rw [hset] at hd
    split_ifs at hd with hxq
    · obtain ⟨hdp, hdq, hdl, -⟩ := h.terminated q hq (hempty q) d (hterm ▸ List.mem_cons_of_mem c hd)
      exact ⟨hxq ▸ hdp, hdq, hdl, fun hmem => hrest (mem_singleton.mp hmem ▸ hd)⟩
    · obtain ⟨hdp, hdq, hdl, -⟩ := h.terminated x hx (hempty x) d hd
      refine ⟨hdp, hdq, hdl, fun hmem => hxq ?_⟩
      rw [mem_singleton.mp hmem] at hdp
      exact Option.some.inj (hdp.symm.trans hcp)
  · intro u hu huX p hp
    obtain ⟨hlt, hplive, hpD, hqueue, hz⟩ := h.owned u hu (hempty u) p hp
    refine ⟨hlt, hplive, hpD, hqueue, fun hnot => ?_⟩
    have hzu := hz hnot
    rw [hset]
    split_ifs with hpq
    · rw [hpq, hterm] at hzu
      exact (List.mem_cons.mp hzu).resolve_left fun hEq => huX (mem_singleton.mpr hEq)
    · exact hzu

/-- **An iteration of `wait`** blocks or destroys a terminated child, and all that it owns. -/
theorem Good.waitLoop (h : Good s) (fuel : ℕ) :
    Meets (waitLoop fuel s) (s.next ≤ fuel) fun r => Good r.2 := by
  rw [Proc.waitLoop, access_of_mem h.current_live, ok_bind]
  cases hterm : s.terminatedChildren s.current with
  | nil =>
    refine ((h.toInv.schedule h.current_live).weaken fun _ => trivial).bind fun s' h' => ?_
    exact meets_pure.mpr h'
  | cons child rest =>
    have hchild := (h.terminated _ h.current_live (notMem_empty _) child
      (hterm ▸ List.mem_cons_self)).2.2.1
    have hpop : Inv ∅ (insert child ∅) (s.setTerminated s.current rest) :=
      h.toInv.pop h.current_live hterm
    have hdestroy := Inv.destroy fuel hpop (Subset.refl _) (notMem_empty child)
    dsimp only
    rw [access_of_mem hchild, ok_bind]
    refine (hdestroy.weaken fun henough => ?_).bind ?_
    · exact henough.trans (Nat.le_add_left fuel child)
    · rintro s' ⟨h', hframe⟩
      refine meets_pure.mpr ⟨h', ?_⟩
      rw [hframe.runqueue, hframe.current]
      exact h.head

theorem Good.wait (h : Good s) (fuel : ℕ) :
    Meets (wait fuel s) (s.next ≤ fuel) fun r => Good r.2 := by
  rw [Proc.wait, access_of_mem h.current_live, ok_bind]
  split_ifs
  · exact meets_pure.mpr h
  · exact h.waitLoop fuel

/-! ### Runs -/

theorem boot_eq {s : State} (hs : boot = .ok s) :
    (∀ x, s.parent x = none) ∧ (∀ x, s.activeChildren x = []) ∧ (∀ x, s.terminatedChildren x = []) ∧
      s.live = started ∧ s.runqueue = [1, 2, 3] ∧ s.init = 2 ∧ s.current = 1 ∧ s.next = 4 ∧
        s.nextPid = 3 := by
  obtain rfl := Except.ok.inj hs
  refine ⟨fun x => ?_, fun x => ?_, fun x => ?_, by decide, rfl, rfl, rfl, rfl, rfl⟩
  · change update (update (update (fun _ => none) 1 none) 2 none) 3
      (none : Option ℕ) x = none
    simp only [update_apply, ite_self]
  · change update (update (update (fun _ => []) 1 []) 2 []) 3
      ([] : List ℕ) x = []
    simp only [update_apply, ite_self]
  · change update (update (update (fun _ => []) 1 []) 2 []) 3
      ([] : List ℕ) x = []
    simp only [update_apply, ite_self]

/-- **At the start** there are three tasks, all of them on the runqueue and without parents. -/
theorem Good.boot : Ensures boot Good := by
  intro s hs
  obtain ⟨hparent, hactive, hterm, hlive, hqueue, hinit, hcur, hnext, hpid⟩ := boot_eq hs
  have hno : ∀ {x p}, s.parent x ≠ some p := fun hp => by
    rw [hparent] at hp
    cases hp
  refine ⟨⟨Subset.refl _, fun x hx => absurd hx (notMem_empty x), ?_, ?_, ?_, ?_, ?_,
    fun x _ p hp => absurd hp hno, ?_, ?_, ?_, ?_, fun x _ _ p hp => absurd hp hno, ?_⟩, ?_⟩
  · rw [hlive, hnext]
    decide
  · rw [hpid]
    decide
  · rw [hqueue]
    decide
  · rw [hqueue, hlive]
    decide
  · rw [hqueue, hinit]
    decide
  · exact fun q _ => (hactive q).symm ▸ List.nodup_nil
  · exact fun q _ => (hterm q).symm ▸ List.nodup_nil
  · exact fun q _ _ c hc => absurd (hactive q ▸ hc) List.not_mem_nil
  · exact fun q _ _ c hc => absurd (hterm q ▸ hc) List.not_mem_nil
  · intro x hx _ _
    have hstarted : ∀ x ∈ started, x ∈ started ∧ x ∈ [1, 2, 3] := by decide
    rw [hqueue]
    exact hstarted x (hlive ▸ hx)
  · rw [hqueue, hcur]
    rfl

theorem Good.step (h : Good s) (hstep : Step s s') : Good s' := by
  cases hstep with
  | fork hx =>
    obtain ⟨-, rfl⟩ := Prod.mk.inj (Except.ok.inj (h.fork_eq.symm.trans hx))
    exact h.fork
  | exit errorCode hx =>
    cases hp : s.parent s.current with
    | none =>
      rw [(h.exit errorCode).2 hp] at hx
      cases hx
    | some p => exact ((h.exit errorCode).1 p hp).of_eq_ok hx
  | wait fuel hx => exact (h.wait fuel).of_eq_ok hx
  | waitLoop fuel hx => exact (h.waitLoop fuel).of_eq_ok hx
  | schedule hx => exact (h.toInv.schedule h.current_live).of_eq_ok hx

theorem Inv.conserved (h : Inv ∅ ∅ s) : Conserved s := by
  have hempty : ∀ x : ℕ, x ∉ (∅ : Finset ℕ) := notMem_empty
  refine ⟨fun t ht p hp => (h.owned t ht (hempty t) p hp).2.1, fun t ht hstarted => ?_⟩
  cases hp : s.parent t with
  | none => exact absurd (h.root t ht (hempty t) hp).1 hstarted
  | some p =>
    obtain ⟨-, hplive, -, hqueue, hzombie⟩ := h.owned t ht (hempty t) p hp
    -- Only the parent of a task has it on a list.
    have hactive : ∀ q ∈ s.live, q ≠ p → t ∉ s.activeChildren q := fun q hq hqp hmem =>
      hqp (Option.some.inj ((h.active q hq (hempty q) t hmem).1.symm.trans hp))
    have hterminated : ∀ q ∈ s.live, q ≠ p → t ∉ s.terminatedChildren q := fun q hq hqp hmem =>
      hqp (Option.some.inj ((h.terminated q hq (hempty q) t hmem).1.symm.trans hp))
    refine ⟨p, rfl, ?_⟩
    by_cases ht' : t ∈ s.runqueue
    · refine Or.inl ⟨⟨List.count_eq_one_of_mem h.nodup ht',
        List.count_eq_one_of_mem (h.activeNodup p hplive) (hqueue ht'), hactive,
        fun q hq hmem => (h.terminated q hq (hempty q) t hmem).2.1 ht'⟩, fun hz => hz.unqueued ht'⟩
    · refine Or.inr ⟨⟨ht', List.count_eq_one_of_mem (h.terminatedNodup p hplive) (hzombie ht'),
        hterminated, fun q hq hmem => ht' (h.active q hq (hempty q) t hmem).2⟩, fun hr => ?_⟩
      have hcount := hr.queued
      rw [List.count_eq_zero_of_not_mem ht'] at hcount
      cases hcount

/-- **No task is lost or doubled**, in every state that forks, exits, waits and the
scheduler lead to from the start of the kernel. -/
theorem conserved_of_run {s₀ : State} (hboot : boot = .ok s₀) (hrun : Run Step s₀ s) :
    Conserved s :=
  (hrun.invariant (Good.boot s₀ hboot) fun _ _ h hstep => h.step hstep).conserved

/-- The init task forks, its child forks and exits, and the init task waits for it. -/
def orphan (s : State) : Exec State := do
  let s ← schedule s
  let (_, s) ← fork s
  let s ← schedule s
  let s ← schedule s
  let s ← schedule s
  let (_, s) ← fork s
  let s ← exit 0 s
  let s ← schedule s
  let s ← schedule s
  let s ← schedule s
  let (_, s) ← wait 6 s
  return s

theorem run_orphan : Ensures (orphan s) (Run Step s) := by
  refine ensures_bind fun s₁ h₁ => ensures_bind fun ⟨_, s₂⟩ h₂ => ensures_bind fun s₃ h₃ =>
    ensures_bind fun s₄ h₄ => ensures_bind fun s₅ h₅ => ensures_bind fun ⟨_, s₆⟩ h₆ =>
    ensures_bind fun s₇ h₇ => ensures_bind fun s₈ h₈ => ensures_bind fun s₉ h₉ =>
    ensures_bind fun s₁₀ h₁₀ => ensures_bind fun ⟨_, s₁₁⟩ h₁₁ => ensures_pure ?_
  exact ((((((((((Relation.ReflTransGen.single (.schedule h₁)).tail (.fork h₂)).tail
    (.schedule h₃)).tail (.schedule h₄)).tail (.schedule h₅)).tail (.fork h₆)).tail
      (.exit 0 h₇)).tail (.schedule h₈)).tail (.schedule h₉)).tail (.schedule h₁₀)).tail
        (.wait 6 h₁₁)

/-- The grandchild is a child of the init task then, and the child is gone. -/
theorem conserved_of_run_orphan :
    ∃ s₀ s, boot = .ok s₀ ∧ Run Step s₀ s ∧ s.live = {1, 2, 3, 5} ∧ s.parent 5 = some 2 ∧
      Conserved s := by
  have hcheck : check (fun s₀ => check (fun s => decide (s.live = {1, 2, 3, 5}) &&
      decide (s.parent 5 = some 2)) (orphan s₀)) boot = true := by decide +kernel
  obtain ⟨s₀, hboot, hcheck'⟩ := exists_ok_of_check hcheck
  obtain ⟨s, hs, htest⟩ := exists_ok_of_check hcheck'
  obtain ⟨hlive, hparent⟩ := Bool.and_eq_true_iff.mp htest
  have hrun := run_orphan s hs
  exact ⟨s₀, s, hboot, hrun, of_decide_eq_true hlive, of_decide_eq_true hparent,
    conserved_of_run hboot hrun⟩

end Valkyrie.Proc
