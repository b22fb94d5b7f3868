import Valkyrie.Base.Slots
import Valkyrie.Mm.Buddy.Basic
import Mathlib.Data.List.Induction

/-!
# Deques

The class `Deque` of `lib/Deque.h`: an array of which the first slots are in use. It doubles its
capacity when it is full, and halves it when no more than a quarter is in use, but never below 4. An
element is inserted or erased by shifting those behind it.

A deque is a sequence (`Valkyrie.Deque.Holds`): the slots in use hold its elements. A slot that an
element was moved from holds what a move leaves behind, and a new slot holds the default value. No
access is out of the array.

An array comes from the heap, which has none of 0 bytes and none of more than 2 MiB. So a call returns
exactly when the heap has the array that it asks for, and which arrays these are can be told from the
calls alone (`Valkyrie.Deque.Op.arrays`). The first one is the only one that can have 0 bytes.

The sizes and indices are natural numbers here. A deque that is too large for the `int`s of the code
does not fit into the memory.
-/

namespace Valkyrie

open Exec Slots

/-- **An element type**: its default value, and `new T[n]`. -/
class Element (α : Type) extends Inhabited α where
  /-- An array of so many elements is asked for. -/
  newArray : ℕ → Exec Unit

/-- The elements have a size, and in front of an array is a cookie if they have destructors. -/
abbrev Element.onHeap {α : Type} [Inhabited α] (bytes cookie : ℕ) : Element α where
  newArray n := operatorNew (cookie + n * bytes)

/-- **A deque**: its array, the number of slots in use, and their number. -/
structure Deque (α : Type) where
  /-- `_data`. -/
  data : List α
  /-- `_size`. -/
  size : ℕ
  /-- `_capacity`. -/
  capacity : ℕ

namespace Deque

variable {α : Type}

/-- `DEFAULT_SIZE`. -/
def defaultSize : ℕ := 4

/-- A deque of default values, of which none is in use. -/
def blank [Inhabited α] (capacity : ℕ) : Deque α := ⟨List.replicate capacity default, 0, capacity⟩

/-- The constructor. -/
def new [Element α] (initCapacity : ℕ) : Exec (Deque α) := do
  Element.newArray α initCapacity
  return blank initCapacity

/-- The loop of `resize` that moves the elements, from an index on, with so many to come. -/
def migrateLoop (data : List α) : ℕ → ℕ → List α → Exec (List α)
  | 0, _, newData => return newData
  | n + 1, i, newData => do migrateLoop data n (i + 1) (← store newData i (← load data i))

/-- `resize`. The old array is deleted. -/
def resize [Element α] (newCapacity : ℕ) (migrateData : Bool) (d : Deque α) : Exec (Deque α) := do
  let capacity := max defaultSize newCapacity
  Element.newArray α capacity
  let newData := List.replicate capacity default
  let newData ← if migrateData then migrateLoop d.data d.size 0 newData else pure newData
  return { d with data := newData, capacity := capacity }

/-- `data[i] = move(data[j])`. -/
def moveSlot (moved : α → α) (i j : ℕ) (data : List α) : Exec (List α) := do
  let x ← load data j
  store (← store data j (moved x)) i x

/-- The loop of `insert`, down from an index, with so many slots to shift. -/
def insertLoop (moved : α → α) : ℕ → ℕ → List α → Exec (List α)
  | 0, _, data => return data
  | n + 1, i, data => do insertLoop moved n (i - 1) (← moveSlot moved i (i - 1) data)

/-- The beginning of `insert`: a full array is replaced by a larger one. -/
def grow [Element α] (d : Deque α) : Exec (Deque α) :=
  if d.size = d.capacity then d.resize (d.capacity * 2) true else return d

/-- `insert`. -/
def insert [Element α] (moved : α → α) (index : ℕ) (val : α) (d : Deque α) : Exec (Deque α) := do
  let d ← d.grow
  let data ← insertLoop moved (d.size - index) d.size d.data
  let data ← store data index val
  return { d with data := data, size := d.size + 1 }

/-- `push_back`. -/
def pushBack [Element α] (moved : α → α) (val : α) (d : Deque α) : Exec (Deque α) :=
  d.insert moved d.size val

/-- `push_front`. -/
def pushFront [Element α] (moved : α → α) (val : α) (d : Deque α) : Exec (Deque α) :=
  d.insert moved 0 val

/-- The loop of `erase`, up from an index, with so many slots to shift. -/
def eraseLoop (moved : α → α) : ℕ → ℕ → List α → Exec (List α)
  | 0, _, data => return data
  | n + 1, i, data => do eraseLoop moved n (i + 1) (← moveSlot moved i (i + 1) data)

/-- `erase`. -/
def erase [Element α] (moved : α → α) (index : ℕ) (d : Deque α) : Exec (Deque α) := do
  let data ← eraseLoop moved (d.size - 1 - index) index d.data
  let d := { d with data := data, size := d.size - 1 }
  if d.size ≤ d.capacity / 4 then d.resize (d.capacity / 2) true else return d

/-- `pop_back`. -/
def popBack [Element α] (moved : α → α) (d : Deque α) : Exec (Deque α) := d.erase moved (d.size - 1)

/-- `pop_front`. -/
def popFront [Element α] (moved : α → α) (d : Deque α) : Exec (Deque α) := d.erase moved 0

/-- The loop of `remove`, from an index on, with so many slots to come. -/
def removeLoop [Element α] [BEq α] (moved : α → α) (val : α) (d : Deque α) :
    ℕ → ℕ → Exec (Deque α)
  | 0, _ => return d
  | n + 1, i => do
    if (← load d.data i) == val then d.erase moved i else removeLoop moved val d n (i + 1)

/-- `remove`. -/
def remove [Element α] [BEq α] (moved : α → α) (val : α) (d : Deque α) : Exec (Deque α) :=
  removeLoop moved val d d.size 0

/-- `clear`. -/
def clear [Element α] (d : Deque α) : Exec (Deque α) := do
  return { ← d.resize defaultSize false with size := 0 }

/-- **A deque holds a sequence**, in the first slots of its array. -/
structure Holds (d : Deque α) (l : List α) : Prop where
  /-- The array has the capacity. -/
  length_eq : d.data.length = d.capacity
  /-- `size` is the number of elements. -/
  size_eq : d.size = l.length
  /-- The elements are in the first slots, and something is behind them. -/
  exists_append : ∃ rest, d.data = l ++ rest

variable {d : Deque α} {moved : α → α} {l p q r : List α} {x y : α} {n : ℕ}

theorem Holds.size_le (h : d.Holds l) : d.size ≤ d.capacity := by
  obtain ⟨rest, hrest⟩ := h.exists_append
  rw [← h.length_eq, hrest, List.length_append, h.size_eq]
  exact Nat.le_add_right _ _

theorem Holds.load_eq (h : d.Holds (p ++ x :: q)) : load d.data p.length = .ok x := by
  obtain ⟨rest, hrest⟩ := h.exists_append
  rw [hrest, List.append_assoc, List.cons_append]
  exact load_append p x (q ++ rest)

theorem holds_blank [Inhabited α] (n : ℕ) : (blank n : Deque α).Holds [] :=
  ⟨List.length_replicate, rfl, _, rfl⟩

/-- The elements to come are moved behind those that have been. -/
theorem migrateLoop_eq (p q r u v : List α) (hlen : v.length = q.length) :
    migrateLoop (p ++ q ++ r) q.length p.length (p ++ v ++ u) = .ok (p ++ q ++ u) := by
  induction q generalizing p v with
  | nil =>
    rw [List.length_eq_zero_iff.mp hlen]
    rfl
  | cons x q ih =>
    obtain ⟨y, v, rfl⟩ := List.exists_cons_of_length_eq_add_one hlen
    have hload : load (p ++ x :: q ++ r) p.length = .ok x := by
      rw [List.append_assoc, List.cons_append]
      exact load_append p x (q ++ r)
    have hstore : store (p ++ y :: v ++ u) p.length x = .ok (p ++ [x] ++ v ++ u) := by
      rw [List.append_assoc, List.cons_append, store_append]
      simp
    have hstep := ih (p ++ [x]) v (Nat.succ_inj.mp hlen)
    rw [List.length_append, List.length_singleton, ← List.append_cons] at hstep
    rw [List.length_cons, migrateLoop, hload, ok_bind, hstore, ok_bind, hstep]

/-- **What a call comes to**: it asks for at most one array, of a new capacity, and if the heap has it,
the deque then holds a sequence. -/
def Becomes [Element α] (call : Exec (Deque α)) (asked : List ℕ) (capacity : ℕ) (l : List α) : Prop :=
  ∃ d', call = (asked.forM (Element.newArray α) >>= fun _ => .ok d') ∧ d'.Holds l ∧
    d'.capacity = asked.headD capacity

/-- Where the heap has every array, the call returns. -/
theorem Becomes.exists_ok [Element α] {call : Exec (Deque α)} {asked : List ℕ}
    (h : Becomes call asked n l) (hserved : ∀ n, Element.newArray α n = .ok ()) :
    ∃ d', call = .ok d' ∧ d'.Holds l := by
  obtain ⟨d', hcall, hd', -⟩ := h
  exact ⟨d', by rw [hcall, forM_eq_ok.mpr fun n _ => hserved n, ok_bind], hd'⟩

/-- **A new array** has the elements, if there is room for them. -/
theorem Holds.resize [Element α] (h : d.Holds l) (hn : l.length ≤ max defaultSize n) :
    Becomes (d.resize n true) [max defaultSize n] d.capacity l := by
  obtain ⟨rest, hrest⟩ := h.exists_append
  have hsplit : List.replicate (max defaultSize n) (default : α) =
      List.replicate l.length default ++ List.replicate (max defaultSize n - l.length) default := by
    rw [List.replicate_append_replicate, Nat.add_sub_cancel' hn]
  have hmove := migrateLoop_eq [] l rest (List.replicate (max defaultSize n - l.length) default)
    (List.replicate l.length default) List.length_replicate
  rw [List.nil_append, List.nil_append, ← hsplit, ← hrest] at hmove
  refine ⟨⟨l ++ List.replicate (max defaultSize n - l.length) default, d.size, _⟩, ?_,
    ⟨?_, h.size_eq, _, rfl⟩, rfl⟩
  · rw [Deque.resize, forM_cons_bind]
    refine congrArg _ (funext fun _ => ?_)
    change (migrateLoop d.data d.size ([] : List α).length _ >>= _) = _
    rw [h.size_eq, hmove]
    rfl
  · rw [List.length_append, List.length_replicate, Nat.add_sub_cancel' hn]

/-- One slot is moved to the one in front of it. -/
theorem moveSlot_down (moved : α → α) (p : List α) (y x : α) (r : List α) :
    moveSlot moved p.length (p.length + 1) (p ++ y :: x :: r) = .ok (p ++ x :: moved x :: r) := by
  have hload := load_append (p ++ [y]) x r
  have hstore := store_append (p ++ [y]) x (moved x) r
  rw [List.length_append, List.length_singleton, ← List.append_cons] at hload hstore
  rw [← List.append_cons] at hstore
  rw [moveSlot, hload, ok_bind, hstore, ok_bind, store_append]

/-- One slot is moved to the one behind it. -/
theorem moveSlot_up (moved : α → α) (p : List α) (x y : α) (r : List α) :
    moveSlot moved (p.length + 1) p.length (p ++ x :: y :: r) = .ok (p ++ moved x :: x :: r) := by
  have hstore := store_append (p ++ [moved x]) y x r
  rw [List.length_append, List.length_singleton, ← List.append_cons, ← List.append_cons] at hstore
  rw [moveSlot, load_append, ok_bind, store_append, ok_bind, hstore]

/-- **The loop of `erase`** shifts the slots down, and leaves one behind that was moved from. -/
theorem exists_eraseLoop (moved : α → α) (p : List α) (y : α) (q r : List α) :
    ∃ z, eraseLoop moved q.length p.length (p ++ y :: (q ++ r)) = .ok (p ++ q ++ z :: r) := by
  induction q generalizing p y with
  | nil => exact ⟨y, by rw [List.append_nil]; rfl⟩
  | cons x q ih =>
    obtain ⟨z, hz⟩ := ih (p ++ [x]) (moved x)
    rw [List.length_append, List.length_singleton, ← List.append_cons, ← List.append_cons] at hz
    refine ⟨z, ?_⟩
    rw [List.length_cons, eraseLoop, List.cons_append, moveSlot_down, ok_bind, hz]

/-- **The loop of `insert`** shifts the slots up, and leaves one behind that was moved from. -/
theorem exists_insertLoop (moved : α → α) (p q : List α) (y : α) (r : List α) :
    ∃ z, insertLoop moved q.length (p ++ q).length (p ++ q ++ y :: r) = .ok (p ++ z :: (q ++ r)) := by
  induction q using List.reverseRecOn generalizing y r with
  | nil => exact ⟨y, by rw [List.append_nil]; rfl⟩
  | append_singleton q x ih =>
    obtain ⟨z, hz⟩ := ih (moved x) (x :: r)
    refine ⟨z, ?_⟩
    rw [← List.append_assoc, List.length_append, List.length_append, List.length_singleton,
      insertLoop, Nat.add_sub_cancel, ← List.append_cons, moveSlot_up, ok_bind, hz, ← List.append_cons]

variable [Element α]

/-- The array that `insert` asks for, if it has so many elements and slots. -/
def grown (size capacity : ℕ) : List ℕ :=
  if size = capacity then [max defaultSize (capacity * 2)] else []

/-- The array that `erase` asks for. -/
def shrunk (size capacity : ℕ) : List ℕ :=
  if size - 1 ≤ capacity / 4 then [max defaultSize (capacity / 2)] else []

/-- **An element is erased.** -/
theorem Holds.erase (moved : α → α) (h : d.Holds (p ++ x :: q)) :
    Becomes (d.erase moved p.length) (shrunk d.size d.capacity) d.capacity (p ++ q) := by
  obtain ⟨rest, hrest⟩ := h.exists_append
  obtain ⟨z, hz⟩ := exists_eraseLoop moved p x q rest
  have hcount : d.size - 1 - p.length = q.length := by
    rw [h.size_eq, List.length_append, List.length_cons]
    omega
  have hdata : d.data = p ++ x :: (q ++ rest) := by
    rw [hrest, List.append_assoc, List.cons_append]
  have hle := h.size_le
  have hshifted : Holds ⟨p ++ q ++ z :: rest, d.size - 1, d.capacity⟩ (p ++ q) := by
    refine ⟨?_, ?_, _, rfl⟩
    · change (p ++ q ++ z :: rest).length = d.capacity
      rw [← h.length_eq, hdata]
      simp only [List.length_append, List.length_cons]
      omega
    · change d.size - 1 = (p ++ q).length
      rw [h.size_eq, List.length_append, List.length_append, List.length_cons]
      omega
  rw [Deque.erase, hcount, hdata, hz, ok_bind, shrunk]
  dsimp only
  split_ifs with hsmall
  · have hroom : (p ++ q).length ≤ max defaultSize (d.capacity / 2) := by
      rw [← hshifted.size_eq]
      dsimp only
      omega
    exact hshifted.resize hroom
  · exact ⟨_, rfl, hshifted, rfl⟩

/-- **There is a free slot** once the deque is not full any more. -/
theorem Holds.grow (h : d.Holds l) : Becomes d.grow (grown d.size d.capacity) d.capacity l ∧
    d.size < (grown d.size d.capacity).headD d.capacity := by
  have hle := h.size_le
  rw [Deque.grow, grown]
  split_ifs with hfull
  · have hsize := h.size_eq
    refine ⟨h.resize (by omega), ?_⟩
    rw [List.headD_cons, defaultSize]
    omega
  · exact ⟨⟨d, rfl, h, rfl⟩, show d.size < d.capacity by omega⟩

/-- **An element is inserted.** -/
theorem Holds.insert (moved : α → α) (h : d.Holds (p ++ q)) (x : α) :
    Becomes (d.insert moved p.length x) (grown d.size d.capacity) d.capacity (p ++ x :: q) := by
  obtain ⟨⟨d₁, hroom, h₁, hcapacity⟩, hlt⟩ := h.grow
  obtain ⟨rest, hrest⟩ := h₁.exists_append
  have hlen := h₁.length_eq
  have hsize := h₁.size_eq
  rw [← hcapacity, h.size_eq, ← hlen, hrest] at hlt
  rcases rest with _ | ⟨y, rest⟩
  · rw [List.append_nil] at hlt
    exact absurd hlt (Nat.lt_irrefl _)
  obtain ⟨z, hz⟩ := exists_insertLoop moved p q y rest
  have hcount : (p ++ q).length - p.length = q.length := by
    rw [List.length_append, Nat.add_sub_cancel_left]
  refine ⟨⟨p ++ x :: (q ++ rest), d₁.size + 1, d₁.capacity⟩, ?_, ⟨?_, ?_, rest, ?_⟩, hcapacity⟩
  · rw [Deque.insert, hroom, bind_assoc]
    refine congrArg _ (funext fun _ => ?_)
    rw [ok_bind, hsize, hcount, hrest, hz, ok_bind, store_append, ok_bind]
    rfl
  · change (p ++ x :: (q ++ rest)).length = d₁.capacity
    rw [← hlen, hrest]
    simp only [List.length_append, List.length_cons]
    omega
  · change d₁.size + 1 = (p ++ x :: q).length
    rw [hsize, List.length_append, List.length_append, List.length_cons]
    omega
  · change p ++ x :: (q ++ rest) = p ++ x :: q ++ rest
    rw [List.append_assoc, List.cons_append]

theorem Holds.pushBack (moved : α → α) (h : d.Holds l) (x : α) :
    Becomes (d.pushBack moved x) (grown d.size d.capacity) d.capacity (l ++ [x]) := by
  have hcut : d.Holds (l ++ []) := by rwa [List.append_nil]
  have hinsert := hcut.insert moved x
  rwa [← h.size_eq] at hinsert

theorem Holds.popBack (moved : α → α) (h : d.Holds (l ++ [x])) :
    Becomes (d.popBack moved) (shrunk d.size d.capacity) d.capacity l := by
  have hcall := h.erase moved
  have hlast : d.size - 1 = l.length := by
    rw [h.size_eq, List.length_append, List.length_singleton, Nat.add_sub_cancel]
  rwa [List.append_nil, ← hlast] at hcall

/-- **The loop of `remove`** erases the first of the elements to come that is equal to the value. -/
theorem Holds.removeLoop [BEq α] (moved : α → α) (val : α) (h : d.Holds (p ++ q)) :
    Becomes (removeLoop moved val d q.length p.length)
      (if q.any (· == val) then shrunk d.size d.capacity else []) d.capacity (p ++ q.erase val) := by
  induction q generalizing p with
  | nil => exact ⟨d, rfl, h, rfl⟩
  | cons x q ih =>
    rw [List.length_cons, Deque.removeLoop, h.load_eq, ok_bind, List.erase_cons, List.any_cons]
    by_cases hx : x == val
    · rw [if_pos hx, if_pos hx, hx, Bool.true_or, if_pos rfl]
      exact h.erase moved
    · rw [if_neg hx, if_neg hx, Bool.eq_false_of_not_eq_true hx, Bool.false_or]
      rw [List.append_cons] at h ⊢
      have hloop := ih h
      rwa [List.length_append, List.length_singleton] at hloop

theorem Holds.remove [BEq α] (moved : α → α) (val : α) (h : d.Holds l) :
    Becomes (d.remove moved val) (if l.any (· == val) then shrunk d.size d.capacity else [])
      d.capacity (l.erase val) := by
  have hloop := Holds.removeLoop (p := []) moved val h
  rwa [← h.size_eq] at hloop

theorem becomes_clear (d : Deque α) : Becomes d.clear [defaultSize] d.capacity [] := by
  refine ⟨blank defaultSize, ?_, holds_blank defaultSize, rfl⟩
  rw [Deque.clear, Deque.resize, forM_cons_bind, bind_assoc]
  rfl

/-! ### Whole runs -/

omit [Element α] in
theorem insertIdx_append (p q : List α) (x : α) : (p ++ q).insertIdx p.length x = p ++ x :: q := by
  induction p with
  | nil => rfl
  | cons y p ih => rw [List.cons_append, List.length_cons, List.insertIdx_succ_cons, ih, List.cons_append]

/-- The calls of a program. A value is copied or moved, and with it the elements behind it. -/
inductive Op (α : Type) where
  /-- `insert(index, val)`. -/
  | insert (isMove : Bool) (index : ℕ) (val : α)
  /-- `push_front(val)`. -/
  | pushFront (isMove : Bool) (val : α)
  /-- `push_back(val)`. -/
  | pushBack (isMove : Bool) (val : α)
  /-- `erase(index)`. -/
  | erase (index : ℕ)
  /-- `pop_front()`. -/
  | popFront
  /-- `pop_back()`. -/
  | popBack
  /-- `remove(val)`. -/
  | remove (val : α)
  /-- `clear()`. -/
  | clear

namespace Op

/-- **The calls that a deque is meant for**: an index is within the sequence, and nothing is taken
from an empty one. -/
def Legal : Op α → List α → Prop
  | .insert _ index _, l => index ≤ l.length
  | .erase index, l => index < l.length
  | .popFront, l => l ≠ []
  | .popBack, l => l ≠ []
  | _, _ => True

/-- What is left of a value that is forwarded. -/
def forwarded (moved : α → α) (isMove : Bool) : α → α := if isMove then moved else id

variable [BEq α]

/-- A call. -/
def exec (moved : α → α) : Op α → Deque α → Exec (Deque α)
  | .insert isMove index val, d => d.insert (forwarded moved isMove) index val
  | .pushFront isMove val, d => d.pushFront (forwarded moved isMove) val
  | .pushBack isMove val, d => d.pushBack (forwarded moved isMove) val
  | .erase index, d => d.erase moved index
  | .popFront, d => d.popFront moved
  | .popBack, d => d.popBack moved
  | .remove val, d => d.remove moved val
  | .clear, d => d.clear

/-- **What a call does to the sequence.** -/
def apply : Op α → List α → List α
  | .insert _ index val, l => l.insertIdx index val
  | .pushFront _ val, l => val :: l
  | .pushBack _ val, l => l ++ [val]
  | .erase index, l => l.eraseIdx index
  | .popFront, l => l.tail
  | .popBack, l => l.dropLast
  | .remove val, l => l.erase val
  | .clear, _ => []

/-- **The array that a call asks for**, if the sequence, its length and the capacity are these. -/
def asks : Op α → List α → ℕ → ℕ → List ℕ
  | .insert .., _, size, capacity => grown size capacity
  | .pushFront .., _, size, capacity => grown size capacity
  | .pushBack .., _, size, capacity => grown size capacity
  | .erase _, _, size, capacity => shrunk size capacity
  | .popFront, _, size, capacity => shrunk size capacity
  | .popBack, _, size, capacity => shrunk size capacity
  | .remove val, l, size, capacity => if l.any (· == val) then shrunk size capacity else []
  | .clear, _, _, _ => [defaultSize]

/-- **The calls one after the other.** -/
def execAll (moved : α → α) (ops : List (Op α)) (d : Deque α) : Exec (Deque α) :=
  ops.foldlM (fun d op => op.exec moved d) d

/-- What the calls make of a sequence. -/
def applyAll (ops : List (Op α)) (l : List α) : List α := ops.foldl (fun l op => op.apply l) l

/-- The arrays that the calls ask for. -/
def arrays : List (Op α) → List α → ℕ → List ℕ
  | [], _, _ => []
  | op :: ops, l, capacity =>
    let asked := op.asks l l.length capacity
    asked ++ arrays ops (op.apply l) (asked.headD capacity)

/-- Each of the calls is one that a deque is meant for, when its turn comes. -/
def LegalAll : List (Op α) → List α → Prop
  | [], _ => True
  | op :: ops, l => op.Legal l ∧ LegalAll ops (op.apply l)

end Op

/-- **A call refines the operation on the sequence.** -/
theorem Holds.exec [BEq α] {op : Op α} (h : d.Holds l) (hop : op.Legal l) (moved : α → α) :
    Becomes (op.exec moved d) (op.asks l d.size d.capacity) d.capacity (op.apply l) := by
  cases op with
  | insert isMove index val =>
    obtain ⟨p, q, rfl, rfl⟩ : ∃ p q, l = p ++ q ∧ index = p.length :=
      ⟨l.take index, l.drop index, (List.take_append_drop index l).symm,
        (List.length_take_of_le hop).symm⟩
    rw [Op.apply, insertIdx_append]
    exact h.insert _ val
  | pushFront isMove val => exact Holds.insert (p := []) _ h val
  | pushBack isMove val => exact h.pushBack _ val
  | erase index =>
    have hlt : index < l.length := hop
    have hsplit : l = l.take index ++ l[index] :: l.drop (index + 1) := by
      rw [List.getElem_cons_drop, List.take_append_drop]
    rw [hsplit] at h
    have hcall := h.erase moved
    rwa [List.length_take_of_le (Nat.le_of_lt hlt), ← List.eraseIdx_eq_take_drop_succ] at hcall
  | popFront =>
    obtain ⟨x, l, rfl⟩ := List.exists_cons_of_ne_nil hop
    exact Holds.erase (p := []) moved h
  | popBack =>
    rw [← List.dropLast_append_getLast hop] at h
    exact h.popBack moved
  | remove val => exact h.remove moved val
  | clear => exact becomes_clear d

/-- **The calls refine the operations on the sequence**, in any order, if the heap has the arrays. -/
theorem Holds.execAll [BEq α] {ops : List (Op α)} (h : d.Holds l) (hops : Op.LegalAll ops l)
    (moved : α → α) : ∃ d', Op.execAll moved ops d =
        ((Op.arrays ops l d.capacity).forM (Element.newArray α) >>= fun _ => .ok d') ∧
      d'.Holds (Op.applyAll ops l) := by
  induction ops generalizing d l with
  | nil => exact ⟨d, rfl, h⟩
  | cons op ops ih =>
    obtain ⟨d₁, hcall, h₁, hcapacity⟩ := h.exec hops.1 moved
    obtain ⟨d', hrest, h'⟩ := ih h₁ hops.2
    refine ⟨d', ?_, h'⟩
    rw [h.size_eq] at hcall hcapacity
    rw [Op.execAll, List.foldlM_cons, hcall, bind_assoc, Op.arrays, ← hcapacity, forM_append_bind]
    exact congrArg _ (funext fun _ => hrest)

/-- **A deque is a sequence**: the constructor and the calls all return, so that no slot outside of an
array is read or written, and then the first slots hold the elements, `size` is their number, and the
array has as many slots as `capacity` says. -/
def RefinesSequence [BEq α] (moved : α → α) (initCapacity : ℕ) (ops : List (Op α)) : Prop :=
  ∃ d, (new initCapacity >>= Op.execAll moved ops) = .ok d ∧
    d.size = (Op.applyAll ops []).length ∧ d.data.take d.size = Op.applyAll ops [] ∧
    d.size ≤ d.capacity ∧ d.data.length = d.capacity

theorem refinesSequence_iff_newArray [BEq α] (moved : α → α) (initCapacity : ℕ) {ops : List (Op α)}
    (hops : Op.LegalAll ops []) : RefinesSequence moved initCapacity ops ↔
      ∀ n ∈ initCapacity :: Op.arrays ops [] initCapacity, Element.newArray α n = .ok () := by
  obtain ⟨d, hrun, hd⟩ := (holds_blank initCapacity).execAll hops moved
  have hall : (new initCapacity >>= Op.execAll moved ops) =
      ((initCapacity :: Op.arrays ops [] initCapacity).forM (Element.newArray α) >>= fun _ =>
        .ok d) := by
    rw [new, bind_assoc, forM_cons_bind]
    exact congrArg _ (funext fun _ => hrun)
  rw [RefinesSequence, ← forM_eq_ok, hall]
  constructor
  · rintro ⟨d', hok, -⟩
    exact (bind_eq_ok.mp hok).choose_spec.1
  · intro hok
    obtain ⟨rest, hrest⟩ := hd.exists_append
    refine ⟨d, by rw [hok, ok_bind], hd.size_eq, ?_, hd.size_le, hd.length_eq⟩
    rw [hrest, hd.size_eq, List.take_left]

end Deque

end Valkyrie
