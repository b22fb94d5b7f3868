import Valkyrie.Lib.RingBuffer

/-!
# Tasklets

`kernel/TaskletScheduler.h`: the work that an interrupt puts off is kept in a ring buffer. A tasklet
that finds the buffer full has all the others handled first. So no push finds it full, nothing is ever
popped, and the bookkeeping of the buffer is right. And since the buffer is filled from its first slot
on, the loop of `finish_all`, which counts up from 0, meets every tasklet: each of them is handled once
and in order (`Valkyrie.TaskletScheduler.handled_append`).

What a handler does is not modelled; it adds no tasklets.
-/

namespace Valkyrie

open Exec Slots

/-- **The scheduler**: `_tasklet_queue`, and the tasklets that were handled so far. -/
structure TaskletScheduler (τ : Type) where
  queue : RingBuffer (Option τ)
  handled : List τ

namespace TaskletScheduler

variable {τ : Type}

/-- The constructor. The buffer has `DEFAULT_CAPACITY` slots. -/
def new : TaskletScheduler τ := ⟨.new 32, []⟩

/-- The loop of `finish_all`, from an index on, with so many slots to come. -/
def finishLoop : ℕ → ℕ → List (Option τ) → List τ → Exec (List (Option τ) × List τ)
  | 0, _, data, handled => return (data, handled)
  | n + 1, i, data, handled => do
    match ← load data i with
    | none => .error .wild
    | some t => finishLoop n (i + 1) (← store data i none) (handled ++ [t])

/-- `finish_all`. -/
def finishAll (s : TaskletScheduler τ) : Exec (TaskletScheduler τ) := do
  let (data, handled) ← finishLoop s.queue.size 0 s.queue.data s.handled
  return ⟨{ s.queue with data := data }.clear, handled⟩

/-- `add_tasklet`. -/
def addTasklet (t : τ) (s : TaskletScheduler τ) : Exec (TaskletScheduler τ) := do
  let s ← if s.queue.full then s.finishAll else pure s
  return { s with queue := ← s.queue.push (some t) }

/-- **These tasklets are waiting**, in the slots from the first one on. -/
structure Waits (s : TaskletScheduler τ) (l : List τ) : Prop where
  holds : s.queue.Holds (l.map some)
  size_eq : s.queue.size = l.length
  head_eq : s.queue.head = 0
  capacity_eq : s.queue.capacity = 32

variable {s : TaskletScheduler τ} {l : List τ}

theorem waits_new : (new : TaskletScheduler τ).Waits [] :=
  ⟨RingBuffer.holds_new (by decide), rfl, rfl, rfl⟩

/-- The tasklets to come are handled, and their slots are emptied. -/
theorem exists_finishLoop (p rest : List (Option τ)) (l handled : List τ) : ∃ data,
    finishLoop l.length p.length (p ++ (l.map some ++ rest)) handled = .ok (data, handled ++ l) ∧
      data.length = (p ++ (l.map some ++ rest)).length := by
  induction l generalizing p handled with
  | nil => exact ⟨_, by rw [List.append_nil]; rfl, rfl⟩
  | cons t l ih =>
    obtain ⟨data, hloop, hlen⟩ := ih (p ++ [none]) (handled ++ [t])
    rw [List.length_append, List.length_singleton, ← List.append_cons, ← List.append_cons] at hloop
    refine ⟨data, ?_, ?_⟩
    · rw [List.length_cons, List.map_cons, List.cons_append, finishLoop, load_append, ok_bind]
      change (store _ _ _ >>= _) = _
      rw [store_append, ok_bind, hloop]
    · rw [hlen]
      simp

namespace Waits

theorem exists_data (h : s.Waits l) : ∃ rest, s.queue.data = l.map some ++ rest := by
  refine ⟨s.queue.data.drop l.length, ?_⟩
  have hlen := h.holds.length_eq
  have hlt := h.holds.length_lt
  rw [List.length_map] at hlt
  have htake : s.queue.data.take l.length = l.map some := by
    refine List.ext_getElem? fun k => ?_
    rcases Nat.lt_or_ge k l.length with hk | hk
    · have hslot := h.holds.lies k (by rwa [List.length_map])
      rw [h.head_eq, Nat.zero_add, Nat.mod_eq_of_lt (Nat.lt_trans hk hlt)] at hslot
      rw [List.getElem?_take_of_lt hk, hslot]
    · rw [List.getElem?_eq_none (by rw [List.length_take]; omega),
        List.getElem?_eq_none (by rwa [List.length_map])]
  rw [← htake, List.take_append_drop]

/-- **All tasklets are handled**, in order. -/
theorem finishAll (h : s.Waits l) :
    ∃ s', s.finishAll = .ok s' ∧ s'.Waits [] ∧ s'.handled = s.handled ++ l := by
  obtain ⟨rest, hdata⟩ := h.exists_data
  obtain ⟨data, hloop, hlen⟩ := exists_finishLoop [] rest l s.handled
  rw [List.nil_append, ← hdata] at hloop hlen
  refine ⟨⟨{ s.queue with data := data }.clear, s.handled ++ l⟩, ?_, ⟨?_, rfl, rfl, h.capacity_eq⟩, rfl⟩
  · rw [TaskletScheduler.finishAll, h.size_eq]
    change (finishLoop l.length ([] : List (Option τ)).length _ _ >>= _) = _
    rw [hloop]
    rfl
  · have hempty : s.queue.clear.Holds [] := h.holds.clear
    exact ⟨hlen.trans h.holds.length_eq, hempty.head_lt, hempty.tail_eq, hempty.length_lt,
      fun _ hk => absurd hk (Nat.not_lt_zero _)⟩

/-- **A tasklet is added** to a buffer that is not full. -/
theorem push (h : s.Waits l) (t : τ) (hroom : s.queue.full = false) :
    ∃ queue, s.queue.push (some t) = .ok queue ∧
      Waits { s with queue := queue } (l ++ [t]) := by
  obtain ⟨b, hpush, hb, hc, hs⟩ := h.holds.push (some t)
  have hfull : (l.map some).length + 1 ≠ s.queue.capacity := fun hEq =>
    absurd (h.holds.full_iff.mpr hEq) (by rw [hroom]; decide)
  have hlt := h.holds.length_lt
  rw [if_neg hfull] at hb
  rw [List.length_map] at hlt
  refine ⟨b, hpush, ?_, ?_, ?_, hc.trans h.capacity_eq⟩
  · rw [List.map_append]
    exact hb
  · change b.size = (l ++ [t]).length
    rw [hs, h.size_eq, if_pos hlt, List.length_append, List.length_singleton]
  · obtain ⟨data, -, hreturn⟩ := bind_eq_ok.mp hpush
    obtain rfl := pure_eq_ok.mp hreturn
    exact (if_neg (by rw [hroom]; decide)).trans h.head_eq

theorem addTasklet (h : s.Waits l) (t : τ) : ∃ s' l', s.addTasklet t = .ok s' ∧ s'.Waits (l' ++ [t]) ∧
    s'.handled ++ l' = s.handled ++ l := by
  rw [TaskletScheduler.addTasklet]
  split_ifs with hfull
  · obtain ⟨s₁, hfinish, h₁, hhandled⟩ := h.finishAll
    have hroom : s₁.queue.full = false := by
      rw [Bool.eq_false_iff, ne_eq, h₁.holds.full_iff, h₁.capacity_eq, List.map_nil]
      exact show 0 + 1 ≠ 32 by decide
    obtain ⟨queue, hpush, hs'⟩ := h₁.push t hroom
    rw [hfinish, ok_bind]
    dsimp only
    rw [hpush]
    exact ⟨_, [], rfl, hs', by rw [List.append_nil]; exact hhandled⟩
  · obtain ⟨queue, hpush, hs'⟩ := h.push t (Bool.eq_false_iff.mpr hfull)
    rw [pure_bind]
    dsimp only
    rw [hpush]
    exact ⟨_, l, rfl, hs', rfl⟩

end Waits

/-! ### Whole runs -/

/-- The calls of the kernel: a tasklet is added, or all of them are handled. -/
def exec : Option τ → TaskletScheduler τ → Exec (TaskletScheduler τ)
  | some t, s => s.addTasklet t
  | none, s => s.finishAll

theorem Waits.exec (h : s.Waits l) (call : Option τ) : ∃ s' l', s.exec call = .ok s' ∧ s'.Waits l' ∧
    s'.handled ++ l' = s.handled ++ l ++ call.toList := by
  cases call with
  | none =>
    obtain ⟨s', hcall, hs', hhandled⟩ := h.finishAll
    exact ⟨s', [], hcall, hs', by rw [hhandled]; rfl⟩
  | some t =>
    obtain ⟨s', l', hcall, hs', hhandled⟩ := h.addTasklet t
    refine ⟨s', l' ++ [t], hcall, hs', ?_⟩
    rw [← List.append_assoc, hhandled]
    rfl

/-- **Every tasklet is handled once, and in order**, or it is still waiting, after any calls; and what the
buffer says of itself is right. -/
theorem handled_append (calls : List (Option τ)) : ∃ s l,
    calls.foldlM (fun s call => s.exec call) new = .ok s ∧ s.queue.Tells (l.map some) ∧
      s.handled ++ l = calls.flatMap Option.toList := by
  have hrun : ∀ (calls : List (Option τ)) {s : TaskletScheduler τ} {l : List τ}, s.Waits l → ∃ s' l',
      calls.foldlM (fun s call => s.exec call) s = .ok s' ∧ s'.Waits l' ∧
        s'.handled ++ l' = s.handled ++ l ++ calls.flatMap Option.toList := by
    intro calls
    induction calls with
    | nil => exact fun {s l} h => ⟨s, l, rfl, h, (List.append_nil _).symm⟩
    | cons call calls ih =>
      intro s l h
      obtain ⟨s₁, l₁, hcall, h₁, hhandled₁⟩ := h.exec call
      obtain ⟨s', l', hcalls, hs', hhandled⟩ := ih h₁
      refine ⟨s', l', ?_, hs', ?_⟩
      · rw [List.foldlM_cons, hcall]
        exact hcalls
      · rw [hhandled, hhandled₁, List.flatMap_cons, List.append_assoc]
  obtain ⟨s, l, hcalls, hs, hhandled⟩ := hrun calls waits_new
  exact ⟨s, l, hcalls, hs.holds.tells (by rw [hs.size_eq, List.length_map]), hhandled⟩

end TaskletScheduler

end Valkyrie
