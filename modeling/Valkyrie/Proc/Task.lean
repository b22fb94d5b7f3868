import Mathlib.Data.Finset.Basic
import Mathlib.Logic.Function.Basic
import Valkyrie.Base.Exec

/-!
# Tasks

`proc/Task.cc` and `proc/TaskScheduler.cc`, as far as the process tree goes: the
constructor and the destructor of `Task`, `fork`, `wait`, `exit`, and the runqueue.

A task is an address. The fields of the tasks are maps over addresses, and an access
through a pointer to a task that was destroyed is a wild one. The runqueue and the lists
of terminated children hold `UniquePtr`s: what is taken off such a list and not put on
another one is destroyed. The lists of active children and the parents are plain pointers.

All of these functions run with interrupts disabled, so one of them is one step. Only
`wait` gives the processor away before it is done: an iteration of its loop either calls
the scheduler or finds a terminated child, and in between other tasks run.
-/

namespace Valkyrie.Proc

open Function

/-- `Task::State`. -/
inductive TaskState where
  | created : TaskState
  | running : TaskState
  | sleeping : TaskState
  | terminated : TaskState

/-- The tasks and the scheduler. -/
structure State where
  /-- The tasks that were created and not destroyed. -/
  live : Finset ℕ
  /-- `_parent`. -/
  parent : ℕ → Option ℕ
  /-- `_active_children`. -/
  activeChildren : ℕ → List ℕ
  /-- `_terminated_children`. -/
  terminatedChildren : ℕ → List ℕ
  /-- `_state`. -/
  state : ℕ → TaskState
  /-- `_error_code`. -/
  errorCode : ℕ → ℤ
  /-- `_pid`. -/
  pid : ℕ → ℕ
  /-- `_next_pid`: a `uint32_t` that does not wrap around, since each fork takes a page for a user
  stack that `~Task` does not give back, and there are fewer than 2^32 pages. -/
  nextPid : ℕ
  /-- `_init`. -/
  init : ℕ
  /-- `_runqueue`. -/
  runqueue : List ℕ
  /-- `Task::current()`. -/
  current : ℕ
  /-- The address of the next task. -/
  next : ℕ

/-- An access to a task. -/
def State.access (t : ℕ) (s : State) : Exec Unit :=
  if t ∈ s.live then .ok () else .error .wild

def State.setState (t : ℕ) (state : TaskState) (s : State) : State :=
  { s with state := update s.state t state }

def State.setActive (t : ℕ) (children : List ℕ) (s : State) : State :=
  { s with activeChildren := update s.activeChildren t children }

def State.setTerminated (t : ℕ) (children : List ℕ) (s : State) : State :=
  { s with terminatedChildren := update s.terminatedChildren t children }

def State.setParent (t : ℕ) (parent : Option ℕ) (s : State) : State :=
  { s with parent := update s.parent t parent }

/-! ### The scheduler -/

/-- `TaskScheduler::enqueue_task`. -/
def enqueueTask (t : ℕ) (s : State) : State :=
  { s.setState t .running with runqueue := s.runqueue ++ [t] }

/-- `TaskScheduler::remove_task`. -/
def removeTask (t : ℕ) (s : State) : Exec State :=
  if t ∈ s.runqueue then .ok { s with runqueue := s.runqueue.erase t }
  else .error (.panic "sched: removed_task is empty\n")

/-- The first task of the runqueue goes to its end, if there is another one. -/
def rotate : List ℕ → List ℕ
  | t :: t' :: rest => t' :: rest ++ [t]
  | queue => queue

/-- `TaskScheduler::schedule`. -/
def schedule (s : State) : Exec State := do
  let s := { s with runqueue := rotate s.runqueue }
  s.access s.current
  let s := s.setState s.current .sleeping
  match s.runqueue with
  | [] => .error .wild
  | front :: _ => do
    s.access front
    return { s.setState front .running with current := front }

/-! ### Creation and destruction -/

/-- `Task::Task`. -/
def newTask (parent : Option ℕ) (s : State) : Exec (ℕ × State) := do
  let t := s.next
  let s := { s with
    live := insert t s.live
    parent := update s.parent t parent
    activeChildren := update s.activeChildren t []
    terminatedChildren := update s.terminatedChildren t []
    state := update s.state t .created
    errorCode := update s.errorCode t 0
    pid := update s.pid t s.nextPid
    nextPid := s.nextPid + 1
    init := if s.nextPid = 1 then t else s.init
    next := s.next + 1 }
  match parent with
  | none => return (t, s)
  | some p => do
    s.access p
    return (t, s.setActive p (s.activeChildren p ++ [t]))

/-- The loop of `Task::~Task`: the init task adopts the active children. -/
def adopt (t : ℕ) : List ℕ → State → Exec State
  | [], s => return s
  | child :: rest, s => do
    s.access s.init
    let s := s.setActive s.init (s.activeChildren s.init ++ [child])
    s.access child
    let s := s.setParent child (some s.init)
    adopt t rest (s.setActive t rest)

/-- `Task::~Task`, and the destruction of the members: terminated children are destroyed
with their parent. -/
def destroy : ℕ → ℕ → State → Exec State
  | 0, _, _ => .error .outOfFuel
  | fuel + 1, t, s => do
    s.access t
    let s ← adopt t (s.activeChildren t) s
    let s ← (s.terminatedChildren t).foldlM (fun s child => destroy fuel child s) s
    return { s with live := s.live.erase t }

/-! ### System calls -/

/-- `Task::fork` of the current task, with enough memory. -/
def fork (s : State) : Exec (ℕ × State) := do
  let (child, s) ← newTask (some s.current) s
  let s := enqueueTask child s
  return (s.pid child, s)

/-- `Task::exit` of the current task. The closing of its files is left out. -/
def exit (errorCode : ℤ) (s : State) : Exec State := do
  let t := s.current
  s.access t
  match s.parent t with
  | none => .error (.panic "Attempted to kill %s! exit code=0x%08x\n")
  | some p => do
    let s := s.setState t .terminated
    let s := { s with errorCode := update s.errorCode t errorCode }
    s.access p
    let s := s.setActive p ((s.activeChildren p).erase t)
    let s ← removeTask t s
    let s := s.setTerminated p (s.terminatedChildren p ++ [t])
    schedule s

/-- What one iteration of `wait` comes to. -/
inductive WaitResult where
  /-- There are no children: `wait` returns -1. -/
  | noChildren : WaitResult
  /-- No child has terminated: other tasks run, and the loop goes on. -/
  | blocked : WaitResult
  /-- A child was destroyed: `wait` returns its pid, and stores its exit code. -/
  | reaped (pid : ℕ) (errorCode : ℤ) : WaitResult

/-- An iteration of the loop of `Task::wait`, and what follows if it is the last. -/
def waitLoop (fuel : ℕ) (s : State) : Exec (WaitResult × State) := do
  s.access s.current
  match s.terminatedChildren s.current with
  | [] => do
    let s ← schedule s
    return (.blocked, s)
  | child :: rest => do
    s.access child
    let result := .reaped (s.pid child) (s.errorCode child)
    let s ← destroy fuel child (s.setTerminated s.current rest)
    return (result, s)

/-- `Task::wait` of the current task, up to the first iteration of its loop. -/
def wait (fuel : ℕ) (s : State) : Exec (WaitResult × State) := do
  s.access s.current
  if (s.activeChildren s.current).length + (s.terminatedChildren s.current).length = 0 then
    return (.noChildren, s)
  else
    waitLoop fuel s

/-! ### Runs -/

/-- Before the first task. -/
def empty : State where
  live := ∅
  parent _ := none
  activeChildren _ := []
  terminatedChildren _ := []
  state _ := .created
  errorCode _ := 0
  pid _ := 0
  nextPid := 0
  init := 0
  runqueue := []
  current := 0
  next := 1

/-- The start of the kernel: the idle task, the init task and the kthreadd task are
enqueued, and the first of them runs. -/
def boot : Exec State := do
  let (idle, s) ← newTask none empty
  let s := enqueueTask idle s
  let (init, s) ← newTask none s
  let s := enqueueTask init s
  let (kthreadd, s) ← newTask none s
  let s := enqueueTask kthreadd s
  return { s with current := idle }

/-- **One step** of the current task. -/
inductive Step : State → State → Prop
  | fork {s s' : State} {pid : ℕ} (h : fork s = .ok (pid, s')) : Step s s'
  | exit {s s' : State} (errorCode : ℤ) (h : exit errorCode s = .ok s') : Step s s'
  | wait {s s' : State} {result : WaitResult} (fuel : ℕ)
      (h : wait fuel s = .ok (result, s')) : Step s s'
  | waitLoop {s s' : State} {result : WaitResult} (fuel : ℕ)
      (h : waitLoop fuel s = .ok (result, s')) : Step s s'
  /-- The time slice of the task is used up, or it gives the rest of it away. -/
  | schedule {s s' : State} (h : schedule s = .ok s') : Step s s'

end Valkyrie.Proc
