import Valkyrie.Proc.Steps
import Valkyrie.Mm.AddressSanitizer
import Valkyrie.Mm.VirtualMemoryMap.Basic

/-!
# A fork that fails

`Task::fork` with everything it may run out of: the memory of the task object and of the objects that
the constructor of `Task` allocates, and the pages of the two stacks. The constructor runs before any
of this is checked. It runs on a null pointer if there is no task object, since `operator new` may
return one and is not declared `noexcept`. And it puts the child on `_active_children` of its parent,
from where neither the destructor nor `fork` removes it.

So a fork that returns has left a trace (`Valkyrie.Proc.activeChildren_of_forkOrFail`), and a fork that
fails is never one that leaves none (`Valkyrie.Proc.leavesNoTrace_iff`). Most of them do not return at
all: a null pointer is handed out only when the table of the sanitizer is full, and then the
destructor of the child gives back what the sanitizer has not noted. The kernel gets there from its
start, by requests for memory alone (`Valkyrie.Proc.exists_starved`).
-/

namespace Valkyrie.Proc

open Exec VMMap Function BuddyAllocator MemoryManager

/-! ### The calls -/

/-- What a task has of the heap and the first zone: the sentinels of `_active_children` and
`_terminated_children`, the page table of `_vmmap`, `_kstack_page` and `_ustack_page`, and its node on
the runqueue. -/
structure Pages where
  active : ℕ
  terminated : ℕ
  pgd : ℕ
  kstack : ℕ
  ustack : ℕ
  node : ℕ

/-- The objects that only the destructor needs: the task object, the sentinel of `_pending_signals`,
and the `File` of the descriptors 0, 1 and 2 with its control block. -/
structure Objects where
  object : ℕ
  pending : ℕ
  file : ℕ
  control : ℕ

/-- The tasks, the memory, and what each task has of it. -/
structure System where
  proc : State
  vm : VMMap.State
  pages : ℕ → Pages

/-- `new`, and the constructor of the object on whatever pointer that gives. -/
def newObject (fuel size : ℕ) (s : VMMap.State) : Exec (ℕ × VMMap.State) := do
  let (p, mm) ← kmalloc fuel size s.mm
  if p = 0 then .error .wild else return (p, { s with mm := mm })

/-- `delete` of some objects. -/
def deleteObjects (fuel : ℕ) (ps : List ℕ) (s : VMMap.State) : Exec VMMap.State := do
  return { s with mm := ← ps.foldlM (fun mm p => MemoryManager.kfree fuel p mm) s.mm }

/-- The size of a node of a list: two links and a pointer. -/
def nodeSize : ℕ := 24

/-- The members of a `Task` up to `_ustack_page`. -/
def newPages (fuel : ℕ) (s : VMMap.State) : Exec (Pages × VMMap.State) := do
  let (active, s) ← newObject fuel nodeSize s
  let (terminated, s) ← newObject fuel nodeSize s
  let (pgd, s) ← VMMap.construct fuel s
  let (kstack, s) ← getFreePage fuel s
  let (ustack, s) ← getFreePage fuel s
  return (⟨active, terminated, pgd, kstack, ustack, 0⟩, s)

/-- The node on `_active_children` of the parent. -/
def newChild (fuel : ℕ) : Option ℕ → VMMap.State → Exec VMMap.State
  | none, s => return s
  | some _, s => return (← newObject fuel nodeSize s).2

/-- `make_unique<Task>`, where a task object has this size. -/
def makeTask (fuel size : ℕ) (parent : Option ℕ) (s : System) :
    Exec (ℕ × Pages × Objects × State × VMMap.State) := do
  let (object, vm) ← newObject fuel size s.vm
  let (pages, vm) ← newPages fuel vm
  let (pending, vm) ← newObject fuel nodeSize vm
  let vm ← newChild fuel parent vm
  let (task, proc) ← newTask parent s.proc
  let (file, vm) ← newObject fuel 40 vm
  let (control, vm) ← newObject fuel 16 vm
  return (task, pages, ⟨object, pending, file, control⟩, proc, vm)

/-- `TaskScheduler::enqueue_task`. -/
def System.enqueueTask (fuel task : ℕ) (pages : Pages) (s : System) : Exec System := do
  let (node, vm) ← newObject fuel nodeSize s.vm
  return ⟨Proc.enqueueTask task s.proc, vm, update s.pages task { pages with node := node }⟩

/-- `kfree` of a page, which may be null. -/
def kfreePage (fuel p : ℕ) (s : VMMap.State) : Exec VMMap.State :=
  if p = 0 then deleteObjects fuel [0] s else VMMap.kfree fuel p s

/-- `Task::fork` of the current task. -/
def forkOrFail (fuel size : ℕ) (s : System) : Exec (ℤ × System) := do
  let (child, pages, objects, proc, vm) ← makeTask fuel size (some s.proc.current) s
  if pages.kstack = 0 ∨ pages.ustack = 0 then
    let proc ← destroy fuel child proc
    let vm ← kfreePage fuel pages.kstack vm
    -- The members, the last one first.
    let vm ← deleteObjects fuel [objects.file, objects.control, objects.pending] vm
    if pages.pgd = 0 then .error .wild
    else
      let vm ← VMMap.destruct fuel pages.pgd vm
      let vm ← deleteObjects fuel [pages.terminated, pages.active, objects.object] vm
      return (-1, ⟨proc, vm, s.pages⟩)
  else
    let s' ← System.enqueueTask fuel child pages ⟨proc, vm, s.pages⟩
    let vm ← copyPage pages.kstack (s.pages s.proc.current).kstack s'.vm
    let vm ← copyPage pages.ustack (s.pages s.proc.current).ustack vm
    if pages.pgd = 0 then .error .wild
    else
      let vm ← copyFrom fuel pages.pgd (s.pages s.proc.current).pgd vm
      return (s'.proc.pid child, { s' with vm := vm })

/-- `TaskScheduler::schedule`. The first task of the runqueue gets another node. -/
def System.schedule (fuel : ℕ) (s : System) : Exec System := do
  let proc ← Proc.schedule s.proc
  match s.proc.runqueue with
  | front :: _ :: _ => do
    let vm ← deleteObjects fuel [(s.pages front).node] s.vm
    let (node, vm) ← newObject fuel nodeSize vm
    return ⟨proc, vm, update s.pages front { s.pages front with node := node }⟩
  | _ => return { s with proc := proc }

/-- `Kernel::run`: a task without a parent is enqueued. -/
def startTask (fuel size : ℕ) (s : System) : Exec (ℕ × System) := do
  let (task, pages, _, proc, vm) ← makeTask fuel size none s
  return (task, ← System.enqueueTask fuel task pages ⟨proc, vm, s.pages⟩)

/-- `Kernel::run`, with the memory manager just constructed: the idle task, the init task and the
kthreadd task are enqueued, and the first of them runs. -/
def start (fuel size : ℕ) : Exec System := do
  -- The sentinel of the runqueue.
  let (_, vm) ← newObject fuel nodeSize
    ⟨MemoryManager.init (fun _ => none) (fun _ => 0) (fun _ => 0), fun _ => 0, []⟩
  let (idle, s) ← startTask fuel size ⟨empty, vm, fun _ => ⟨0, 0, 0, 0, 0, 0⟩⟩
  let (_, s) ← startTask fuel size s
  let (_, s) ← startTask fuel size s
  return { s with proc := { s.proc with current := idle } }

/-- Requests for memory that is not given back. -/
def request (fuel : ℕ) (sizes : List ℕ) (s : System) : Exec System := do
  return { s with vm := ← sizes.foldlM (fun vm size => Prod.snd <$> newObject fuel size vm) s.vm }

/-- **An allocation returns a null pointer**: that of the task object, or that of a stack. -/
def AllocationFails (fuel size : ℕ) (s : System) : Prop :=
  (∃ mm, kmalloc fuel size s.vm.mm = .ok (0, mm)) ∨
    ∃ object vm pages vm', newObject fuel size s.vm = .ok (object, vm) ∧
      newPages fuel vm = .ok (pages, vm') ∧ (pages.kstack = 0 ∨ pages.ustack = 0)

/-- **No trace**: the children of the parent, the runqueue and the pages are as before. -/
structure Untouched (s s' : System) : Prop where
  activeChildren : s'.proc.activeChildren s.proc.current = s.proc.activeChildren s.proc.current
  runqueue : s'.proc.runqueue = s.proc.runqueue
  live : ∀ p, p ∈ s'.vm.live ↔ p ∈ s.vm.live

/-- **A failed fork leaves no trace**, and returns -1. -/
def LeavesNoTrace (fuel size : ℕ) (s : System) : Prop :=
  AllocationFails fuel size s → ∃ s', forkOrFail fuel size s = .ok (-1, s') ∧ Untouched s s'

variable {s s' : System} {proc proc' : State} {fuel size child t : ℕ} {r : ℤ}

theorem newTask_of_makeTask {parent : Option ℕ} {pages : Pages} {objects : Objects}
    {vm : VMMap.State} (hcall : makeTask fuel size parent s = .ok (t, pages, objects, proc, vm)) :
    newTask parent s.proc = .ok (t, proc) := by
  obtain ⟨⟨object, vm₁⟩, -, hcall⟩ := bind_eq_ok.mp hcall
  obtain ⟨⟨pages', vm₂⟩, -, hcall⟩ := bind_eq_ok.mp hcall
  obtain ⟨⟨pending, vm₃⟩, -, hcall⟩ := bind_eq_ok.mp hcall
  obtain ⟨vm₄, -, hcall⟩ := bind_eq_ok.mp hcall
  obtain ⟨⟨task, proc'⟩, hnew, hcall⟩ := bind_eq_ok.mp hcall
  obtain ⟨⟨file, vm₅⟩, -, hcall⟩ := bind_eq_ok.mp hcall
  obtain ⟨⟨control, vm₆⟩, -, hcall⟩ := bind_eq_ok.mp hcall
  cases pure_eq_ok.mp hcall
  exact hnew

/-- The constructor puts the child on the list of its parent. -/
theorem newTask_eq (hcall : newTask (some proc.current) proc = .ok (child, proc'))
    (hne : proc.current ≠ proc.next) : child = proc.next ∧
      proc'.activeChildren proc.current = proc.activeChildren proc.current ++ [child] ∧
      proc'.activeChildren child = [] ∧ proc'.terminatedChildren child = [] := by
  obtain ⟨-, -, hcall⟩ := bind_eq_ok.mp hcall
  cases pure_eq_ok.mp hcall
  refine ⟨rfl, ?_, ?_, update_self ..⟩
  · simp only [State.setActive, update_self, update_of_ne hne]
  · simp only [State.setActive, update_of_ne hne.symm, update_self]

/-- The destructor of a task without children takes nothing off any list. -/
theorem destroy_childless (hactive : proc.activeChildren t = [])
    (hterm : proc.terminatedChildren t = []) (hcall : destroy fuel t proc = .ok proc') :
    proc' = { proc with live := proc.live.erase t } := by
  cases fuel with
  | zero => cases hcall
  | succ fuel =>
    obtain ⟨-, -, hcall⟩ := bind_eq_ok.mp hcall
    rw [hactive] at hcall
    obtain ⟨proc₁, hadopt, hcall⟩ := bind_eq_ok.mp hcall
    cases pure_eq_ok.mp hadopt
    rw [hterm] at hcall
    exact (pure_eq_ok.mp hcall).symm

/-- **The pointer that is left behind.** After a fork that has returned, well or not, the child is the
last one of its parent. -/
theorem activeChildren_of_forkOrFail (hne : s.proc.current ≠ s.proc.next)
    (hcall : forkOrFail fuel size s = .ok (r, s')) :
    s'.proc.activeChildren s.proc.current =
      s.proc.activeChildren s.proc.current ++ [s.proc.next] := by
  obtain ⟨⟨child, pages, objects, proc, vm₁⟩, hmake, hcall⟩ := bind_eq_ok.mp hcall
  obtain ⟨rfl, hactive, hnone, hterm⟩ := newTask_eq (newTask_of_makeTask hmake) hne
  dsimp only at hcall
  by_cases hnull : pages.kstack = 0 ∨ pages.ustack = 0
  · rw [if_pos hnull] at hcall
    obtain ⟨proc', hdestroy, hcall⟩ := bind_eq_ok.mp hcall
    obtain ⟨vm₂, -, hcall⟩ := bind_eq_ok.mp hcall
    obtain ⟨vm₃, -, hcall⟩ := bind_eq_ok.mp hcall
    split_ifs at hcall
    obtain ⟨vm₄, -, hcall⟩ := bind_eq_ok.mp hcall
    obtain ⟨vm, -, hcall⟩ := bind_eq_ok.mp hcall
    cases pure_eq_ok.mp hcall
    rw [destroy_childless hnone hterm hdestroy]
    exact hactive
  · rw [if_neg hnull] at hcall
    obtain ⟨s₁, henqueue, hcall⟩ := bind_eq_ok.mp hcall
    obtain ⟨⟨node, vm₂⟩, -, henqueue⟩ := bind_eq_ok.mp henqueue
    cases pure_eq_ok.mp henqueue
    obtain ⟨vm₃, -, hcall⟩ := bind_eq_ok.mp hcall
    obtain ⟨vm₄, -, hcall⟩ := bind_eq_ok.mp hcall
    split_ifs at hcall
    obtain ⟨vm, -, hcall⟩ := bind_eq_ok.mp hcall
    cases pure_eq_ok.mp hcall
    exact hactive

/-- **A fork that fails leaves a trace**, or does not return: in every state in which the child gets
an address of its own, whatever allocation fails. -/
theorem leavesNoTrace_iff (hne : s.proc.current ≠ s.proc.next) :
    LeavesNoTrace fuel size s ↔ ¬AllocationFails fuel size s := by
  constructor
  · intro h hfail
    obtain ⟨s', hcall, huntouched⟩ := h hfail
    have hleft := activeChildren_of_forkOrFail hne hcall
    rw [huntouched.activeChildren] at hleft
    exact absurd hleft (by simp)
  · exact fun hserved hfail => absurd hfail hserved

/-! ### No pages left -/

/-- Requests for all pages that the first three tasks leave of the first zone. -/
def blocks : List ℕ := [2 ^ 20, 2 ^ 19, 2 ^ 18, 2 ^ 17, 2 ^ 16, 2 ^ 14, 2 ^ 13, 2 ^ 12]

/-- **The memory has run out**: the kernel has started, the idle task has given way to the init task,
all pages have been asked for, and then 16 bytes so often that the table of the sanitizer is full. -/
def Starved (s : System) : Prop :=
  (start 100 784 >>= System.schedule 100 >>= request 100 (blocks ++ List.replicate 961 16)) = .ok s

/-- **Memory without pages**, whose chunks are cut from the front. -/
def Dry (m free : ℕ) (mm : MemoryManager.State) : Prop :=
  Packed m free mm ∧ allocateOnePageFrame 100 mm.zone0 = .ok (0, mm.zone0)

section Starved

variable {m c free : ℕ} {vm : VMMap.State}

/-- The next object. -/
theorem Dry.newObject (h : Dry m free vm.mm) (hfits : Fits size c) (hm : m < 40960)
    (hroom : m % 4096 + c ≤ 4096) : ∃ vm', newObject 100 size vm = .ok (zone1Begin + m + 16, vm') ∧
      Dry (m + c) (free - 1) vm'.mm := by
  obtain ⟨mm, hcall, h', hzone, -⟩ := h.1.kmalloc hfits hm hroom
  refine ⟨{ vm with mm := mm }, ?_, h', by rw [hzone, h.2]⟩
  rw [Proc.newObject, hcall]
  rfl

/-- The requests for 16 bytes. The chunks fill their pages, so no rest is put on a bin. -/
theorem Dry.requests (n : ℕ) (h : Dry m free vm.mm) (hdvd : 32 ∣ m) (hm : m + 32 * n ≤ 40960) :
    ∃ vm', (List.replicate n 16).foldlM (fun vm size => Prod.snd <$> Proc.newObject 100 size vm) vm =
        .ok vm' ∧ Dry (m + 32 * n) (free - n) vm'.mm := by
  induction n generalizing m free vm with
  | zero => exact ⟨vm, rfl, h⟩
  | succ n ih =>
    obtain ⟨vm₁, hcall, h₁⟩ := h.newObject (show Fits 16 32 by decide +kernel) (by omega) (by omega)
    obtain ⟨vm', hrest, h'⟩ := ih h₁ (by omega) (by omega)
    refine ⟨vm', ?_, ?_⟩
    · rw [List.replicate_succ, List.foldlM_cons, hcall]
      exact hrest
    · rwa [show m + 32 + 32 * n = m + 32 * (n + 1) by omega, Nat.sub_sub, Nat.add_comm 1] at h'

/-- A full table does not notice that there is no page. -/
theorem Dry.getFreePage (h : Dry m 0 vm.mm) : VMMap.getFreePage 100 vm = .ok (0, vm) := by
  simp only [VMMap.getFreePage, MemoryManager.getFreePage, h.2, ok_bind,
    markAllocated_zero, if_neg (List.count_eq_zero.mp h.1.count)]
  rfl

/-- The null pointer is given back. -/
theorem Dry.kfreePage (h : Dry m 0 vm.mm) : kfreePage 100 0 vm =
    .error (.panic "*** kasan: double free detected at 0x%x ***\n") := by
  have hnull : toPhysical 0 ∉ vm.mm.allocatedPointers := List.count_eq_zero.mp h.1.count
  rw [Proc.kfreePage, if_pos rfl, deleteObjects, List.foldlM_cons,
    kfree_of_notMem hnull]
  rfl

/-- **A fork without pages.** The child gets its objects, but no stack. The destructor gives back the
null pointer, and the sanitizer, whose table has no free entry, takes it for a pointer that was given
back before. -/
theorem Dry.fork (h : Dry m 0 s.vm.mm) (hm : m < 36864) (hroom : m % 4096 + 1088 ≤ 4096)
    (hnew : newTask (some s.proc.current) s.proc = .ok (child, proc))
    (hdestroy : destroy 100 child proc = .ok proc') :
    AllocationFails 100 784 s ∧ forkOrFail 100 784 s =
      .error (.panic "*** kasan: double free detected at 0x%x ***\n") := by
  have hnode : Fits nodeSize 48 := by decide +kernel
  obtain ⟨vm₁, hobject, h₁⟩ := h.newObject (show Fits 784 800 by decide +kernel) (by omega) (by omega)
  obtain ⟨vm₂, hactive, h₂⟩ := h₁.newObject hnode (by omega) (by omega)
  obtain ⟨vm₃, hterminated, h₃⟩ := h₂.newObject hnode (by omega) (by omega)
  obtain ⟨vm₄, hpending, h₄⟩ := h₃.newObject hnode (by omega) (by omega)
  obtain ⟨vm₅, hchild, h₅⟩ := h₄.newObject hnode (by omega) (by omega)
  obtain ⟨vm₆, hfile, h₆⟩ := h₅.newObject (show Fits 40 64 by decide +kernel) (by omega) (by omega)
  obtain ⟨vm₇, hcontrol, h₇⟩ := h₆.newObject (show Fits 16 32 by decide +kernel) (by omega) (by omega)
  obtain ⟨pages, hpages, hnull⟩ : ∃ pages, newPages 100 vm₁ = .ok (pages, vm₃) ∧ pages.kstack = 0 := by
    simp only [newPages, hactive, hterminated, VMMap.construct, h₃.getFreePage, ok_bind, if_true,
      pure_bind]
    exact ⟨_, rfl, rfl⟩
  refine ⟨.inr ⟨_, vm₁, pages, vm₃, hobject, hpages, .inl hnull⟩, ?_⟩
  simp only [forkOrFail, makeTask, newChild, hobject, hpages, hpending, hchild, hnew, hfile, hcontrol,
    ok_bind, pure_bind, hnull, true_or, if_true, hdestroy, h₇.kfreePage, error_bind]

end Starved

theorem allocateOnePageFrame_of_none {b : BuddyAllocator.State}
    (hnone : findFreeList b 0 maxOrder = none) : allocateOnePageFrame 100 b = .ok (0, b) := by
  have hnorm : BuddyAllocator.normalizeSize 100 pageSize = .ok pageSize := by decide +kernel
  have horder : sizeToOrder 100 pageSize = .ok 0 := by decide +kernel
  rw [allocateOnePageFrame, BuddyAllocator.allocate, hnorm, ok_bind, horder, ok_bind,
    if_neg (by decide), if_neg (by decide), findFreeList_eq_none hnone le_rfl (by decide)]
  simp only [Nat.sub_zero, hnone]
  rfl

/-- The kernel has no pages left, its chunks are cut from the front, and the init task can have a child
that can be destroyed. -/
theorem start_checks : check (fun r => decide (Packed 3360 961 r.1.vm.mm ∧
    findFreeList r.1.vm.mm.zone0 0 maxOrder = none ∧ r.1.proc.current ≠ r.1.proc.next)) (do
    let s ← start 100 784 >>= System.schedule 100 >>= request 100 blocks
    let (child, proc) ← newTask (some s.proc.current) s.proc
    return (s, ← destroy 100 child proc)) = true := by
  decide +kernel

/-- **Memory that has run out** is reached by the kernel, and then the init task forks. -/
theorem exists_starved : ∃ s, Starved s ∧ s.proc.current ≠ s.proc.next ∧
    AllocationFails 100 784 s ∧ forkOrFail 100 784 s =
      .error (.panic "*** kasan: double free detected at 0x%x ***\n") := by
  obtain ⟨⟨s, proc'⟩, hrun, hchecks⟩ := exists_ok_of_check start_checks
  obtain ⟨s, hstart, hrun⟩ := bind_eq_ok.mp hrun
  obtain ⟨⟨child, proc⟩, hnew, hrun⟩ := bind_eq_ok.mp hrun
  obtain ⟨proc', hdestroy, hrun⟩ := bind_eq_ok.mp hrun
  cases pure_eq_ok.mp hrun
  obtain ⟨hpacked, hnone, hne⟩ := of_decide_eq_true hchecks
  have hdry : Dry 3360 961 s.vm.mm := ⟨hpacked, allocateOnePageFrame_of_none hnone⟩
  obtain ⟨vm, hfill, h⟩ := hdry.requests 961 (by decide) (by decide)
  refine ⟨{ s with vm := vm }, ?_, hne, h.fork (by decide) (by decide) hnew hdestroy⟩
  obtain ⟨s₁, hschedule, hrequest⟩ := bind_eq_ok.mp hstart
  obtain ⟨vm₁, hblocks, hrequest⟩ := bind_eq_ok.mp hrequest
  cases pure_eq_ok.mp hrequest
  rw [Starved, hschedule, ok_bind, request, List.foldlM_append, hblocks, ok_bind, hfill]
  rfl

/-- The memory has run out. -/
theorem leavesNoTrace_iff_starved : ∃ s, Starved s ∧ ¬LeavesNoTrace 100 784 s := by
  obtain ⟨s, hs, hne, hfail, -⟩ := exists_starved
  exact ⟨s, hs, fun h => (leavesNoTrace_iff hne).mp h hfail⟩

/-- **A fork that has no page for the stacks** does not return -1: the kernel stops. -/
theorem fork_panics_without_stack : ∃ s, Starved s ∧ AllocationFails 100 784 s ∧
    forkOrFail 100 784 s = .error (.panic "*** kasan: double free detected at 0x%x ***\n") := by
  obtain ⟨s, hs, -, hfork⟩ := exists_starved
  exact ⟨s, hs, hfork⟩

end Valkyrie.Proc
