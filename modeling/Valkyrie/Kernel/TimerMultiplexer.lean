import Valkyrie.Lib.Deque
import Mathlib.Data.UInt

/-!
# Timers

`kernel/TimerMultiplexer.cc`. An event is a callback and the number of ticks until it is due. In every
tick all events are counted down, and those that were at zero are run and erased, in one loop over the
deque that they are in.

The loop steps its index back before an erased event, to the event that has moved into its place. At
the first event this is a `size_t` below zero, which is 2^64 - 1; it is not looked at before it is zero
again, and here it is -1. So nothing is skipped and nothing is counted down twice, whichever events
are due together (`Valkyrie.Timer.exists_tick`), and a callback runs in the tick that it was registered
for, and in no other one (`Valkyrie.Timer.fires_on_time`).

The callbacks themselves do not use the timers. What is left of them is the order in which they run.
The heap is taken to serve and to free every array of events, of whatever size.
-/

namespace Valkyrie.Timer

open Exec Slots

variable {κ : Type}

/-- `TimerMultiplexer::Event`. A `Function` that was moved from, or default-constructed, has no
callback. -/
structure Event (κ : Type) where
  /-- What is called. -/
  callback : Option κ
  /-- The ticks that are left. -/
  timeout : UInt32

instance : Element (Event κ) where
  default := ⟨none, 0⟩
  newArray _ := return ()

/-- What a move leaves of an event. -/
def Event.moved (e : Event κ) : Event κ := { e with callback := none }

/-- `TimerMultiplexer`, with its `ARMCoreTimer`. -/
structure State (κ : Type) where
  /-- `_arm_core_timer._is_enabled`. -/
  isEnabled : Bool
  /-- `_arm_core_timer._jiffies`. -/
  jiffies : UInt32
  /-- `_events`. -/
  events : Deque (Event κ)

/-- The constructor. -/
def init : State κ := ⟨false, 0, Deque.blank Deque.defaultSize⟩

/-- `add_timer`. -/
def addTimer (callback : κ) (timeout : UInt32) (s : State κ) : Exec (State κ) := do
  return { s with
    events := ← s.events.pushBack Event.moved ⟨some callback, timeout⟩
    isEnabled := true }

/-- A `Function` is called. -/
def call : Option κ → Exec κ
  | none => .error .wild
  | some f => return f

/-- The end of a round of `tick`. -/
def whenEmpty (s : State κ) : Exec (State κ) :=
  if s.events.size = 0 then do
    return { s with events := ← s.events.clear, isEnabled := false }
  else return s

/-- A round of `tick`, at an event: the next index but one step, and the callbacks that were run. -/
def round (i : ℤ) (s : State κ) : Exec (ℤ × State κ × List κ) := do
  let ev ← load s.events.data i.toNat
  let data ← store s.events.data i.toNat { ev with timeout := ev.timeout - 1 }
  let s := { s with events := { s.events with data := data } }
  if ev.timeout = 0 then
    let f ← call ev.callback
    let events ← s.events.erase Event.moved i.toNat
    return (i - 1, ← whenEmpty { s with events := events }, [f])
  else return (i, ← whenEmpty s, [])

/-- The loop of `tick`, and the callbacks that it runs, in order. -/
def tickLoop : ℕ → ℤ → State κ → Exec (State κ × List κ)
  | 0, _, _ => .error .outOfFuel
  | fuel + 1, i, s =>
    if i < s.events.size then do
      let (i, s, ran) ← round i s
      let (s, rest) ← tickLoop fuel (i + 1) s
      return (s, ran ++ rest)
    else return (s, [])

/-- `tick`, and the callbacks that it runs, in order. -/
def tick (fuel : ℕ) (s : State κ) : Exec (State κ × List κ) :=
  tickLoop fuel 0 { s with jiffies := s.jiffies + 1 }

/-! ### A tick -/

/-- An event that is not due. -/
def Event.next (e : Event κ) : Event κ := { e with timeout := e.timeout - 1 }

/-- **The events after a tick.** -/
def left (l : List (Event κ)) : List (Event κ) := (l.filter (·.timeout ≠ 0)).map Event.next

/-- **The callbacks of the events that are due.** -/
def due (l : List (Event κ)) : List κ := (l.filter (·.timeout = 0)).filterMap Event.callback

variable {s : State κ} {l p q : List (Event κ)} {e : Event κ}

theorem left_of_due (h : e.timeout = 0) : left [e] = [] := by
  rw [left, List.filter_cons_of_neg (by simpa using h)]
  rfl

theorem left_of_not_due (h : e.timeout ≠ 0) : left [e] = [e.next] := by
  rw [left, List.filter_cons_of_pos (by simpa using h)]
  rfl

theorem due_of_due {f : κ} (h : e.timeout = 0) (hf : e.callback = some f) : due [e] = [f] := by
  rw [due, List.filter_cons_of_pos (by simpa using h), List.filterMap_cons_some hf]
  rfl

theorem due_of_not_due (h : e.timeout ≠ 0) : due [e] = [] := by
  rw [due, List.filter_cons_of_neg (by simpa using h)]
  rfl

theorem left_cons (e : Event κ) (q : List (Event κ)) : left (e :: q) = left [e] ++ left q := by
  rw [left, left, left, ← List.map_append, ← List.filter_append, List.singleton_append]

theorem due_cons (e : Event κ) (q : List (Event κ)) : due (e :: q) = due [e] ++ due q := by
  rw [due, due, due, ← List.filterMap_append, ← List.filter_append, List.singleton_append]

theorem exists_whenEmpty (h : s.events.Holds l) :
    ∃ s', whenEmpty s = .ok s' ∧ s'.events.Holds l := by
  rw [whenEmpty]
  split_ifs with hsize
  · obtain ⟨events, hclear, hevents⟩ := s.events.becomes_clear.exists_ok fun _ => rfl
    rw [h.size_eq] at hsize
    obtain rfl := List.length_eq_zero_iff.mp hsize
    exact ⟨⟨false, s.jiffies, events⟩, by rw [hclear]; rfl, hevents⟩
  · exact ⟨s, rfl, h⟩

/-- **A round**, at the event behind those that were counted down. -/
theorem exists_round (h : s.events.Holds (p ++ e :: q)) (he : e.callback ≠ none) : ∃ i s',
    round p.length s = .ok (i, s', due [e]) ∧ i + 1 = (p ++ left [e]).length ∧
      s'.events.Holds (p ++ left [e] ++ q) := by
  obtain ⟨rest, hrest⟩ := h.exists_append
  rw [List.append_assoc, List.cons_append] at hrest
  have hload := load_append p e (q ++ rest)
  have hstore := store_append p e e.next (q ++ rest)
  have hcounted : (⟨p ++ e.next :: (q ++ rest), s.events.size, s.events.capacity⟩ :
      Deque (Event κ)).Holds (p ++ e.next :: q) := by
    refine ⟨?_, ?_, rest, by rw [List.append_assoc, List.cons_append]⟩
    · rw [← h.length_eq, hrest]
      simp only [List.length_append, List.length_cons]
    · rw [h.size_eq, List.length_append, List.length_append, List.length_cons, List.length_cons]
  have hbegin : round p.length s = (if e.timeout = 0 then do
      let f ← call e.callback
      let events ← Deque.erase Event.moved p.length
        ⟨p ++ e.next :: (q ++ rest), s.events.size, s.events.capacity⟩
      return ((p.length : ℤ) - 1, ← whenEmpty { s with events := events }, [f])
    else return ((p.length : ℤ), ← whenEmpty
      { s with events := ⟨p ++ e.next :: (q ++ rest), s.events.size, s.events.capacity⟩ }, [])) := by
    rw [round, hrest, Int.toNat_natCast, hload, ok_bind]
    change (store (p ++ e :: (q ++ rest)) p.length e.next >>= _) = _
    rw [hstore, ok_bind]
  rw [hbegin]
  by_cases hdue : e.timeout = 0
  · -- The event is erased, and the index goes back to where it was.
    obtain ⟨f, hf⟩ := Option.ne_none_iff_exists'.mp he
    obtain ⟨events, herase, hevents⟩ := (hcounted.erase Event.moved).exists_ok fun _ => rfl
    obtain ⟨s', hempty, hs'⟩ := @exists_whenEmpty κ { s with events := events } (p ++ q) hevents
    have hleft : left [e] = [] := left_of_due hdue
    refine ⟨(p.length : ℤ) - 1, s', ?_, ?_, ?_⟩
    · rw [if_pos hdue, hf, call, pure_bind, herase, ok_bind, hempty, ok_bind,
        due_of_due hdue hf]
      rfl
    · rw [hleft, List.append_nil, Int.sub_add_cancel]
    · rwa [hleft, List.append_nil]
  · obtain ⟨s', hempty, hs'⟩ := @exists_whenEmpty κ { s with
      events := ⟨p ++ e.next :: (q ++ rest), s.events.size, s.events.capacity⟩ }
      (p ++ e.next :: q) hcounted
    have hleft : left [e] = [e.next] := left_of_not_due hdue
    refine ⟨p.length, s', ?_, ?_, ?_⟩
    · rw [if_neg hdue, hempty, ok_bind, due_of_not_due hdue]
      rfl
    · rw [hleft, List.length_append, List.length_singleton, Int.natCast_add, Int.natCast_one]
    · rwa [hleft, ← List.append_cons]

/-- **The loop of a tick** runs the events that are due and counts down the others. -/
theorem exists_tickLoop (h : s.events.Holds (p ++ q)) (hq : ∀ e ∈ q, e.callback ≠ none) : ∃ s',
    (∀ fuel, q.length < fuel → tickLoop fuel p.length s = .ok (s', due q)) ∧
      s'.events.Holds (p ++ left q) := by
  induction q generalizing p s with
  | nil =>
    refine ⟨s, fun fuel hfuel => ?_, h⟩
    obtain ⟨fuel, rfl⟩ := exists_succ_of_lt hfuel
    have hend : ¬(p.length : ℤ) < s.events.size := by
      rw [h.size_eq, List.append_nil]
      exact Int.lt_irrefl _
    exact if_neg hend
  | cons e q ih =>
    obtain ⟨i, s₁, hround, hi, hs₁⟩ := exists_round h (hq e List.mem_cons_self)
    obtain ⟨s', hloop, hs'⟩ := ih hs₁ fun e' he' => hq e' (List.mem_cons_of_mem e he')
    refine ⟨s', fun fuel hfuel => ?_, ?_⟩
    · obtain ⟨fuel, rfl⟩ := exists_succ_of_lt hfuel
      have hlt : (p.length : ℤ) < s.events.size := by
        rw [h.size_eq, List.length_append, List.length_cons]
        omega
      rw [tickLoop, if_pos hlt, hround, ok_bind]
      dsimp only
      rw [hi, hloop fuel (Nat.lt_of_succ_lt_succ hfuel), ok_bind, due_cons e q]
      rfl
    · rwa [left_cons, ← List.append_assoc]

/-- **A tick** runs the events that are due, in the order of the deque, and counts down the others. -/
theorem exists_tick (h : s.events.Holds l) (hl : ∀ e ∈ l, e.callback ≠ none) : ∃ s',
    (∀ fuel, l.length < fuel → tick fuel s = .ok (s', due l)) ∧ s'.events.Holds (left l) :=
  @exists_tickLoop κ { s with jiffies := s.jiffies + 1 } [] l h hl

/-! ### Whole runs -/

/-- The calls of the rest of the kernel. -/
inductive Op (κ : Type) where
  /-- `add_timer(callback, timeout)`. -/
  | addTimer (callback : κ) (timeout : UInt32)
  /-- `tick()`. -/
  | tick

/-- A call, and the callbacks that each tick so far has run. -/
def exec (fuel : ℕ) (r : State κ × List (List κ)) : Op κ → Exec (State κ × List (List κ))
  | .addTimer callback timeout => do return (← addTimer callback timeout r.1, r.2)
  | .tick => do
    let (s, ran) ← tick fuel r.1
    return (s, r.2 ++ [ran])

/-- A sequence of calls, and the callbacks that each of its ticks runs. -/
def run (fuel : ℕ) (ops : List (Op κ)) : Exec (State κ × List (List κ)) :=
  ops.foldlM (exec fuel) (init, [])

/-- **A callback that was registered**, and the number of ticks before that. -/
structure Registration (κ : Type) where
  /-- The ticks before it. -/
  time : ℕ
  /-- What is to be called. -/
  callback : κ
  /-- The ticks to wait. -/
  timeout : UInt32

/-- The number of ticks. -/
def ticks : List (Op κ) → ℕ
  | [] => 0
  | .addTimer _ _ :: ops => ticks ops
  | .tick :: ops => ticks ops + 1

/-- The callbacks that are registered, in order, when some ticks have been before. -/
def registrationsFrom : ℕ → List (Op κ) → List (Registration κ)
  | _, [] => []
  | k, .addTimer callback timeout :: ops => ⟨k, callback, timeout⟩ :: registrationsFrom k ops
  | k, .tick :: ops => registrationsFrom (k + 1) ops

/-- The tick that a callback is registered for, where the first tick is 0: so many ticks are before the
registration, and so many are waited for. -/
def Registration.tick (r : Registration κ) : ℕ := r.time + r.timeout.toNat

/-- **What each tick has to run**: the callbacks that are registered for it, in the order of their
registration. -/
def onTime (ops : List (Op κ)) : List (List κ) := (List.range (ticks ops)).map fun j =>
  (registrationsFrom 0 ops).filterMap fun r => if r.tick = j then some r.callback else none

/-- The event of a callback after some ticks, unless it was run. -/
def pendingAt (n : ℕ) (r : Registration κ) : Option (Event κ) :=
  if n ≤ r.tick then some ⟨some r.callback, UInt32.ofNat (r.tick - n)⟩ else none

theorem ticks_concat (ops : List (Op κ)) (op : Op κ) : ticks (ops ++ [op]) = ticks ops + ticks [op] := by
  induction ops with
  | nil => exact (Nat.zero_add _).symm
  | cons op' ops ih =>
    cases op' with
    | addTimer callback timeout => exact ih
    | tick =>
      change ticks (ops ++ [op]) + 1 = ticks ops + 1 + ticks [op]
      rw [ih]
      omega

theorem registrationsFrom_concat (k : ℕ) (ops : List (Op κ)) (op : Op κ) :
    registrationsFrom k (ops ++ [op]) =
      registrationsFrom k ops ++ registrationsFrom (k + ticks ops) [op] := by
  induction ops generalizing k with
  | nil => rfl
  | cons op' ops ih =>
    cases op' with
    | addTimer callback timeout => exact congrArg (_ :: ·) (ih k)
    | tick =>
      change registrationsFrom (k + 1) (ops ++ [op]) = _
      rw [ih, ticks, Nat.add_assoc, Nat.add_comm 1]
      rfl

theorem registrationsFrom_tick (ops : List (Op κ)) :
    registrationsFrom 0 (ops ++ [.tick]) = registrationsFrom 0 ops :=
  (registrationsFrom_concat ..).trans (List.append_nil _)

theorem time_le (ops : List (Op κ)) {r : Registration κ} (h : r ∈ registrationsFrom 0 ops) :
    r.time ≤ ticks ops := by
  suffices hfrom : ∀ k, r ∈ registrationsFrom k ops → r.time ≤ k + ticks ops by
    have h0 := hfrom 0 h
    omega
  clear h
  induction ops with
  | nil => exact fun k h => absurd h List.not_mem_nil
  | cons op ops ih =>
    intro k h
    cases op with
    | addTimer callback timeout =>
      rcases List.mem_cons.mp h with rfl | h
      · exact Nat.le_add_right k _
      · exact ih k h
    | tick =>
      have hle := ih (k + 1) h
      rw [ticks]
      omega

theorem length_registrationsFrom_le (k : ℕ) (ops : List (Op κ)) :
    (registrationsFrom k ops).length ≤ ops.length := by
  induction ops generalizing k with
  | nil => exact le_rfl
  | cons op ops ih =>
    cases op with
    | addTimer callback timeout => exact Nat.succ_le_succ (ih k)
    | tick => exact Nat.le_trans (ih (k + 1)) (Nat.le_succ _)

section

variable {rs : List (Registration κ)} {n : ℕ}

theorem lt_of_time_le {r : Registration κ} (hr : r.time ≤ n) : r.tick - n < 2 ^ 32 := by
  have hlt := r.timeout.toNat_lt
  rw [Registration.tick]
  omega

theorem ofNat_eq_zero_iff {k : ℕ} (hk : k < 2 ^ 32) : UInt32.ofNat k = 0 ↔ k = 0 := by
  rw [← UInt32.toNat_inj, UInt32.toNat_ofNat_of_lt' hk]
  rfl

theorem ofNat_sub_one (k : ℕ) : UInt32.ofNat (k + 1) - 1 = UInt32.ofNat k := by
  rw [UInt32.ofNat_add]
  exact UInt32.add_sub_cancel _ _

/-- One event in a tick: it is run if it is registered for that, and otherwise it is left. -/
theorem pendingAt_cases {r : Registration κ} (hr : r.time ≤ n) :
    (r.tick < n ∧ pendingAt n r = none ∧ pendingAt (n + 1) r = none) ∨
    (r.tick = n ∧ pendingAt (n + 1) r = none ∧
      ∃ e, pendingAt n r = some e ∧ due [e] = [r.callback] ∧ left [e] = []) ∨
    (n < r.tick ∧ ∃ e, pendingAt n r = some e ∧ due [e] = [] ∧
      pendingAt (n + 1) r = some e.next ∧ left [e] = [e.next]) := by
  have hlt := lt_of_time_le hr
  rcases Nat.lt_trichotomy r.tick n with h | h | h
  · exact Or.inl ⟨h, if_neg (by omega), if_neg (by omega)⟩
  · have hzero : UInt32.ofNat (r.tick - n) = 0 := (ofNat_eq_zero_iff hlt).mpr (by omega)
    exact Or.inr (Or.inl ⟨h, if_neg (by omega), ⟨some r.callback, UInt32.ofNat (r.tick - n)⟩,
      if_pos (by omega), due_of_due hzero rfl, left_of_due hzero⟩)
  · have hne : UInt32.ofNat (r.tick - n) ≠ 0 := fun h0 => by
      have h0 := (ofNat_eq_zero_iff hlt).mp h0
      omega
    obtain ⟨k, hk⟩ : ∃ k, r.tick - n = k + 1 := ⟨r.tick - n - 1, by omega⟩
    refine Or.inr (Or.inr ⟨h, ⟨some r.callback, UInt32.ofNat (r.tick - n)⟩, if_pos (by omega),
      due_of_not_due hne, ?_, left_of_not_due hne⟩)
    rw [pendingAt, if_pos (by omega), Event.next, hk, ofNat_sub_one,
      show r.tick - (n + 1) = k by omega]

/-- **The events that are due** are those of the callbacks that are registered for the tick. -/
theorem due_filterMap (hrs : ∀ r ∈ rs, r.time ≤ n) : due (rs.filterMap (pendingAt n)) =
    rs.filterMap fun r => if r.tick = n then some r.callback else none := by
  induction rs with
  | nil => rfl
  | cons r rs ih =>
    have ih := ih fun r' hr' => hrs r' (List.mem_cons_of_mem r hr')
    rcases pendingAt_cases (hrs r List.mem_cons_self) with
      ⟨hlt, hnone, -⟩ | ⟨hEq, -, e, he, hdue, -⟩ | ⟨hlt, e, he, hdue, -⟩
    · rw [List.filterMap_cons_none hnone, ih, List.filterMap_cons, if_neg (by omega)]
    · rw [List.filterMap_cons_some he, due_cons, hdue, ih, List.filterMap_cons, if_pos hEq]
      rfl
    · rw [List.filterMap_cons_some he, due_cons, hdue, ih, List.filterMap_cons, if_neg (by omega)]
      rfl

/-- **The events that are left** are those after the tick. -/
theorem left_filterMap (hrs : ∀ r ∈ rs, r.time ≤ n) :
    left (rs.filterMap (pendingAt n)) = rs.filterMap (pendingAt (n + 1)) := by
  induction rs with
  | nil => rfl
  | cons r rs ih =>
    have ih := ih fun r' hr' => hrs r' (List.mem_cons_of_mem r hr')
    rcases pendingAt_cases (hrs r List.mem_cons_self) with
      ⟨-, hnone, hnext⟩ | ⟨-, hnext, e, he, -, hleft⟩ | ⟨-, e, he, -, hnext, hleft⟩
    · rw [List.filterMap_cons_none hnone, ih, List.filterMap_cons_none hnext]
    · rw [List.filterMap_cons_some he, left_cons, hleft, ih, List.filterMap_cons_none hnext]
      rfl
    · rw [List.filterMap_cons_some he, left_cons, hleft, ih, List.filterMap_cons_some hnext]
      rfl

end

/-- A registration does not change what the ticks before it had to run. -/
theorem onTime_addTimer (ops : List (Op κ)) (callback : κ) (timeout : UInt32) :
    onTime (ops ++ [.addTimer callback timeout]) = onTime ops := by
  rw [onTime, onTime, ticks_concat]
  refine List.map_congr_left fun j hj => ?_
  have hlt : j < ticks ops := List.mem_range.mp hj
  rw [registrationsFrom_concat, List.filterMap_append]
  have hnone : (registrationsFrom (0 + ticks ops) [Op.addTimer callback timeout]).filterMap
      (fun r => if r.tick = j then some r.callback else none) = [] := by
    refine List.filterMap_cons_none (if_neg ?_)
    rw [Registration.tick]
    dsimp only
    omega
  rw [hnone, List.append_nil]

theorem onTime_tick (ops : List (Op κ)) : onTime (ops ++ [.tick]) = onTime ops ++
    [(registrationsFrom 0 ops).filterMap fun r =>
      if r.tick = ticks ops then some r.callback else none] := by
  rw [onTime, ticks_concat, registrationsFrom_tick]
  change List.map _ (List.range (ticks ops + 1)) = _
  rw [List.range_succ, List.map_append, onTime]
  rfl

/-- **The invariant of a run**: the deque holds the events of the callbacks that are still to be run, in
the order of their registration, and each tick has run what it had to. -/
theorem exists_run (ops : List (Op κ)) : ∃ s : State κ,
    (∀ fuel, ops.length < fuel → run fuel ops = .ok (s, onTime ops)) ∧
      s.events.Holds ((registrationsFrom 0 ops).filterMap (pendingAt (ticks ops))) := by
  induction ops using List.reverseRecOn with
  | nil => exact ⟨init, fun fuel _ => rfl, Deque.holds_blank _⟩
  | append_singleton ops op ih =>
    obtain ⟨s, hrun, hs⟩ := ih
    have hfuel : ∀ {fuel}, (ops ++ [op]).length < fuel → ops.length < fuel := by
      intro fuel h
      rw [List.length_append] at h
      omega
    cases op with
    | addTimer callback timeout =>
      -- The new event is the last one, and it has all of its ticks before it.
      obtain ⟨events, hpush, hevents⟩ :=
        (hs.pushBack Event.moved ⟨some callback, timeout⟩).exists_ok fun _ => rfl
      refine ⟨{ s with events := events, isEnabled := true }, fun fuel h => ?_, ?_⟩
      · rw [run, List.foldlM_append, ← run, hrun fuel (hfuel h), ok_bind, List.foldlM_cons, exec,
          addTimer, hpush, onTime_addTimer]
        rfl
      · have hnew : pendingAt (ticks ops) (Registration.mk (0 + ticks ops) callback timeout) =
            some ⟨some callback, timeout⟩ := by
          have htick : (Registration.mk (0 + ticks ops) callback timeout).tick - ticks ops =
              timeout.toNat := by
            rw [Registration.tick]
            dsimp only
            omega
          rw [pendingAt, if_pos (by rw [Registration.tick]; dsimp only; omega), htick,
            UInt32.ofNat_toNat]
        rw [ticks_concat, registrationsFrom_concat, List.filterMap_append]
        change events.Holds (_ ++ List.filterMap (pendingAt (ticks ops))
          [Registration.mk (0 + ticks ops) callback timeout])
        rw [List.filterMap_cons_some hnew]
        exact hevents
    | tick =>
      have hcallback : ∀ e ∈ (registrationsFrom 0 ops).filterMap (pendingAt (ticks ops)),
          e.callback ≠ none := by
        intro e he
        obtain ⟨r, -, hr⟩ := List.mem_filterMap.mp he
        rw [pendingAt] at hr
        split_ifs at hr
        cases hr
        exact Option.some_ne_none _
      obtain ⟨s', htick, hs'⟩ := exists_tick hs hcallback
      refine ⟨s', fun fuel h => ?_, ?_⟩
      · have hlen : ((registrationsFrom 0 ops).filterMap (pendingAt (ticks ops))).length < fuel :=
          Nat.lt_of_le_of_lt (Nat.le_trans (List.length_filterMap_le _ _)
            (length_registrationsFrom_le 0 ops)) (hfuel h)
        rw [run, List.foldlM_append, ← run, hrun fuel (hfuel h), ok_bind, List.foldlM_cons, exec,
          htick fuel hlen, due_filterMap fun r hr => time_le ops hr, onTime_tick]
        rfl
      · rw [left_filterMap fun r hr => time_le ops hr] at hs'
        rw [ticks_concat, registrationsFrom_tick]
        exact hs'

/-- **Callbacks run on time**: in any sequence of calls each tick runs the callbacks that were registered
for it, each of them once and in the order of their registration, and no others. -/
theorem fires_on_time (ops : List (Op κ)) :
    ∃ bound s, ∀ fuel, bound < fuel → run fuel ops = .ok (s, onTime ops) := by
  obtain ⟨s, hrun, -⟩ := exists_run ops
  exact ⟨ops.length, s, hrun⟩

end Valkyrie.Timer
