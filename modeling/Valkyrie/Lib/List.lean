import Valkyrie.Base.Ring
import Valkyrie.Lib.Math

/-!
# Lists

The class `List` of `lib/List.h`, a circular doubly linked list with a node that is not an element. The
two functions that change links first check that the neighbours point at each other, and return
without a word if they do not.

A list that is used as it is meant to be is a sequence, in both directions; the checks never reject
anything, and every node that is removed is deleted once (`Valkyrie.CxxList.reaches_refines`). The
exception is `remove_if` when it is told to go on after the first match: it goes on from the node that
it has just deleted (`Valkyrie.CxxList.removesAll_iff`).

A node is at an address. The address of a new one is what the allocator returns, any address where no
node is. An access to a node that is not there, or through a null pointer, stops the call. The heap is
taken to serve and to free every node; in the kernel its checker knows 1000 pointers.
-/

namespace Valkyrie

namespace CxxList

open Exec Function

/-- `List::Node`. -/
structure Node (α : Type) where
  /-- The node in front. -/
  prev : Option ℕ
  /-- The node behind. -/
  next : Option ℕ
  /-- The element. -/
  data : α

/-- **A list and its nodes.** The logs are of the nodes that were allocated and deleted, and of the
checks that have failed. -/
structure State (α : Type) where
  /-- The nodes, by their addresses. -/
  heap : ℕ → Option (Node α)
  /-- `_head`. -/
  head : ℕ
  /-- `_size`. -/
  size : ℕ
  /-- The addresses that were returned by `new`. -/
  allocated : List ℕ
  /-- The addresses that were given to `delete`. -/
  deleted : List ℕ
  /-- How often a check has failed. -/
  rejected : ℕ

variable {α : Type}

/-- The constructor: a node that points at itself. -/
def init (head : ℕ) (data : α) : State α where
  heap := update (fun _ => none) head (some ⟨some head, some head, data⟩)
  head := head
  size := 0
  allocated := []
  deleted := []
  rejected := 0

namespace State

/-- A pointer that is followed. -/
def ptr : Option ℕ → Exec ℕ
  | none => .error .wild
  | some a => return a

/-- The node at an address. -/
def node (a : ℕ) (s : State α) : Exec (Node α) :=
  match s.heap a with
  | none => .error .wild
  | some n => return n

/-- `a->prev = p`. -/
def setPrev (a : ℕ) (p : Option ℕ) (s : State α) : Exec (State α) := do
  let n ← s.node a
  return { s with heap := update s.heap a (some { n with prev := p }) }

/-- `a->next = p`. -/
def setNext (a : ℕ) (p : Option ℕ) (s : State α) : Exec (State α) := do
  let n ← s.node a
  return { s with heap := update s.heap a (some { n with next := p }) }

/-- `new Node(val)`, at the address that the allocator returns. -/
def new (a : ℕ) (val : α) (s : State α) : State α :=
  { s with
    heap := update s.heap a (some ⟨none, none, val⟩)
    allocated := s.allocated ++ [a] }

/-- `delete`. -/
def delete (a : ℕ) (s : State α) : Exec (State α) := do
  let _ ← s.node a
  return { s with heap := update s.heap a none, deleted := s.deleted ++ [a] }

/-- A check has failed. -/
def reject (s : State α) : State α := { s with rejected := s.rejected + 1 }

/-- `is_list_add_valid`. -/
def isListAddValid (newNode prev next : ℕ) (s : State α) : Exec Bool := do
  return (← s.node next).prev = some prev ∧ (← s.node prev).next = some next ∧
    newNode ≠ prev ∧ newNode ≠ next

/-- `is_list_del_entry_valid`. -/
def isListDelEntryValid (entry : ℕ) (s : State α) : Exec Bool := do
  let n ← s.node entry
  return (← s.node (← ptr n.prev)).next = some entry ∧ (← s.node (← ptr n.next)).prev = some entry

/-- `list_add`. -/
def listAdd (newNode prev next : ℕ) (s : State α) : Exec (State α) := do
  if ← s.isListAddValid newNode prev next then
    let s ← s.setPrev next newNode
    let s ← s.setNext newNode next
    let s ← s.setPrev newNode prev
    let s ← s.setNext prev newNode
    return { s with size := s.size + 1 }
  else return s.reject

/-- `list_del`. -/
def listDel (prev next : ℕ) (s : State α) : Exec (State α) := do
  let s ← s.setPrev next prev
  s.setNext prev next

/-- `list_del_entry`. -/
def listDelEntry (entry : ℕ) (s : State α) : Exec (State α) := do
  if ← s.isListDelEntryValid entry then
    let n ← s.node entry
    let s ← s.listDel (← ptr n.prev) (← ptr n.next)
    let s ← s.setPrev entry none
    let s ← s.setNext entry none
    let s ← s.delete entry
    -- A `size_t` wraps around.
    return { s with size := if s.size = 0 then sizeMod - 1 else s.size - 1 }
  else return s.reject

/-- `push_back`. -/
def pushBack (a : ℕ) (val : α) (s : State α) : Exec (State α) := do
  let s := s.new a val
  s.listAdd a (← ptr (← s.node s.head).prev) s.head

/-- `push_front`. -/
def pushFront (a : ℕ) (val : α) (s : State α) : Exec (State α) := do
  let s := s.new a val
  s.listAdd a s.head (← ptr (← s.node s.head).next)

/-- `pop_back`. -/
def popBack (s : State α) : Exec (State α) := do
  s.listDelEntry (← ptr (← s.node s.head).prev)

/-- `pop_front`. -/
def popFront (s : State α) : Exec (State α) := do
  s.listDelEntry (← ptr (← s.node s.head).next)

/-- The loop of `erase`, from a node. -/
def walk (s : State α) : ℕ → ℕ → Exec ℕ
  | 0, a => return a
  | index + 1, a => do s.walk index (← ptr (← s.node a).next)

/-- `erase`. -/
def erase (index : ℕ) (s : State α) : Exec (State α) := do
  s.listDelEntry (← s.walk index (← ptr (← s.node s.head).next))

/-- The loop of `remove_if`, from a node, and the elements that the predicate was called with. -/
def removeIfLoop (predicate : α → Bool) (checkAll : Bool) :
    ℕ → ℕ → List α → State α → Exec (State α × List α)
  | 0, _, _, _ => .error .outOfFuel
  | fuel + 1, a, log, s =>
    if a = s.head then return (s, log)
    else do
      let n ← s.node a
      if predicate n.data then
        let s ← s.listDelEntry a
        if checkAll then
          removeIfLoop predicate checkAll fuel (← ptr (← s.node a).next) (log ++ [n.data]) s
        else return (s, log ++ [n.data])
      else removeIfLoop predicate checkAll fuel (← ptr n.next) (log ++ [n.data]) s

/-- `remove_if`, and the elements that the predicate was called with. -/
def removeIf (fuel : ℕ) (predicate : α → Bool) (checkAll : Bool) (s : State α) :
    Exec (State α × List α) := do
  removeIfLoop predicate checkAll fuel (← ptr (← s.node s.head).next) [] s

/-- `remove`, whose loop is that of `remove_if` up to the first match. -/
def remove [BEq α] (fuel : ℕ) (val : α) (s : State α) : Exec (State α) :=
  Prod.fst <$> s.removeIf fuel (· == val) false

/-- The loop of `find_if`, from an iterator: its node and its index. The iterator that it returns at
the end is that of `end()`. -/
def findIfLoop (predicate : α → Bool) (s : State α) : ℕ → ℕ → ℕ → Exec (ℕ × ℕ)
  | 0, _, _ => .error .outOfFuel
  | fuel + 1, current, index =>
    if current = s.head then return (s.head, 0)
    else do
      let n ← s.node current
      if predicate n.data then return (current, index)
      else findIfLoop predicate s fuel (← ptr n.next) (index + 1)

/-- `find_if`. -/
def findIf (fuel : ℕ) (predicate : α → Bool) (s : State α) : Exec (ℕ × ℕ) := do
  s.findIfLoop predicate fuel (← ptr (← s.node s.head).next) 0

/-- What is seen of an iterator: its index and its element, unless it is at the end. -/
def look (it : ℕ × ℕ) (s : State α) : Exec (Option (ℕ × α)) :=
  if it.1 = s.head then return none else do return some (it.2, (← s.node it.1).data)

/-- `clear`. -/
def clear : ℕ → State α → Exec (State α)
  | 0, _ => .error .outOfFuel
  | fuel + 1, s => do
    if (← s.node s.head).next = some s.head then return s
    else clear fuel (← s.popFront)

/-- The elements that are met by following `next` from a node, up to the head. -/
def forwardFrom (s : State α) : ℕ → ℕ → Exec (List α)
  | 0, _ => .error .outOfFuel
  | fuel + 1, a =>
    if a = s.head then return []
    else do
      let n ← s.node a
      return n.data :: (← s.forwardFrom fuel (← ptr n.next))

/-- The elements that are met by following `next` from the head, until it is met again. -/
def forward (fuel : ℕ) (s : State α) : Exec (List α) := do
  s.forwardFrom fuel (← ptr (← s.node s.head).next)

/-- The elements that are met by following `prev` from a node, up to the head. -/
def backwardFrom (s : State α) : ℕ → ℕ → Exec (List α)
  | 0, _ => .error .outOfFuel
  | fuel + 1, a =>
    if a = s.head then return []
    else do
      let n ← s.node a
      return n.data :: (← s.backwardFrom fuel (← ptr n.prev))

/-- The elements that are met by following `prev` from the head, until it is met again. -/
def backward (fuel : ℕ) (s : State α) : Exec (List α) := do
  s.backwardFrom fuel (← ptr (← s.node s.head).prev)

end State

/-! ### The links -/

/-- The links to the next nodes. -/
def nextOf (h : ℕ → Option (Node α)) (a : ℕ) : Option ℕ := (h a).bind Node.next

/-- The links to the previous nodes. -/
def prevOf (h : ℕ → Option (Node α)) (a : ℕ) : Option ℕ := (h a).bind Node.prev

/-- The elements, by the addresses of their nodes. -/
def dataOf (h : ℕ → Option (Node α)) (a : ℕ) : Option α := (h a).map Node.data

theorem nextOf_update (h : ℕ → Option (Node α)) (a : ℕ) (o : Option (Node α)) :
    nextOf (update h a o) = update (nextOf h) a (o.bind Node.next) :=
  comp_update (fun o => Option.bind o Node.next) h a o

theorem prevOf_update (h : ℕ → Option (Node α)) (a : ℕ) (o : Option (Node α)) :
    prevOf (update h a o) = update (prevOf h) a (o.bind Node.prev) :=
  comp_update (fun o => Option.bind o Node.prev) h a o

theorem dataOf_update (h : ℕ → Option (Node α)) (a : ℕ) (o : Option (Node α)) :
    dataOf (update h a o) = update (dataOf h) a (o.map Node.data) :=
  comp_update (Option.map Node.data) h a o

namespace State

variable {s : State α} {a b : ℕ} {p : Option ℕ} {x : α}

/-- A node has the links and the element of its address. -/
theorem exists_node (h : dataOf s.heap a ≠ none) : ∃ n, s.node a = .ok n ∧
    n.next = nextOf s.heap a ∧ n.prev = prevOf s.heap a ∧ dataOf s.heap a = some n.data := by
  rcases hn : s.heap a with _ | n
  · rw [dataOf, hn] at h
    exact absurd rfl h
  · refine ⟨n, ?_, ?_, ?_, ?_⟩
    · rw [node, hn]
      rfl
    · rw [nextOf, hn]
      rfl
    · rw [prevOf, hn]
      rfl
    · rw [dataOf, hn]
      rfl

theorem dataOf_ne_none_of_next (h : nextOf s.heap a = some b) : dataOf s.heap a ≠ none := by
  intro hdata
  rw [dataOf, Option.map_eq_none_iff] at hdata
  rw [nextOf, hdata] at h
  cases h

/-- **A link to the next node is changed**, and nothing else. -/
theorem exists_setNext (h : dataOf s.heap a ≠ none) (p : Option ℕ) : ∃ heap,
    s.setNext a p = .ok { s with heap := heap } ∧ nextOf heap = update (nextOf s.heap) a p ∧
      prevOf heap = prevOf s.heap ∧ dataOf heap = dataOf s.heap := by
  obtain ⟨n, hn, -, hprev, hdata⟩ := exists_node h
  refine ⟨update s.heap a (some { n with next := p }), ?_, ?_, ?_, ?_⟩
  · rw [setNext, hn]
    rfl
  · exact nextOf_update _ _ _
  · refine (prevOf_update _ _ _).trans ?_
    exact update_eq_self_iff.mpr hprev
  · refine (dataOf_update _ _ _).trans ?_
    exact update_eq_self_iff.mpr hdata.symm

theorem exists_setPrev (h : dataOf s.heap a ≠ none) (p : Option ℕ) : ∃ heap,
    s.setPrev a p = .ok { s with heap := heap } ∧ nextOf heap = nextOf s.heap ∧
      prevOf heap = update (prevOf s.heap) a p ∧ dataOf heap = dataOf s.heap := by
  obtain ⟨n, hn, hnext, -, hdata⟩ := exists_node h
  refine ⟨update s.heap a (some { n with prev := p }), ?_, ?_, ?_, ?_⟩
  · rw [setPrev, hn]
    rfl
  · refine (nextOf_update _ _ _).trans ?_
    exact update_eq_self_iff.mpr hnext
  · exact prevOf_update _ _ _
  · refine (dataOf_update _ _ _).trans ?_
    exact update_eq_self_iff.mpr hdata.symm

variable {u v : ℕ}

/-- **A new node is linked in** between two nodes that point at each other. -/
theorem exists_listAdd (hadj : Adjacent (nextOf s.heap) (prevOf s.heap) u v)
    (ha : dataOf s.heap a ≠ none) (hu : dataOf s.heap u ≠ none) (hv : dataOf s.heap v ≠ none)
    (hau : a ≠ u) (hav : a ≠ v) : ∃ heap,
      s.listAdd a u v = .ok { s with heap := heap, size := s.size + 1 } ∧
        nextOf heap = update (update (nextOf s.heap) a (some v)) u (some a) ∧
        prevOf heap = update (update (prevOf s.heap) v (some a)) a (some u) ∧
        dataOf heap = dataOf s.heap := by
  obtain ⟨nu, hnu, hunext, -⟩ := exists_node hu
  obtain ⟨nv, hnv, -, hvprev, -⟩ := exists_node hv
  have hvalid : s.isListAddValid a u v = .ok true := by
    rw [isListAddValid, hnv, ok_bind, hnu, ok_bind, pure_eq_ok, decide_eq_true_iff]
    exact ⟨hvprev.trans hadj.2, hunext.trans hadj.1, hau, hav⟩
  obtain ⟨h₁, e₁, hn₁, hp₁, hd₁⟩ := exists_setPrev hv (some a)
  obtain ⟨h₂, e₂, hn₂, hp₂, hd₂⟩ := @exists_setNext α { s with heap := h₁ } a (by rwa [hd₁]) (some v)
  obtain ⟨h₃, e₃, hn₃, hp₃, hd₃⟩ := @exists_setPrev α { s with heap := h₂ } a
    (by rwa [hd₂, hd₁]) (some u)
  obtain ⟨h₄, e₄, hn₄, hp₄, hd₄⟩ := @exists_setNext α { s with heap := h₃ } u
    (by rwa [hd₃, hd₂, hd₁]) (some a)
  refine ⟨h₄, ?_, ?_, ?_, ?_⟩
  · rw [listAdd, hvalid, ok_bind, if_pos rfl, e₁, ok_bind, e₂, ok_bind, e₃, ok_bind, e₄, ok_bind]
    rfl
  · rw [hn₄, hn₃, hn₂, hn₁]
  · rw [hp₄, hp₃, hp₂, hp₁]
  · rw [hd₄, hd₃, hd₂, hd₁]

/-- **A node is unlinked and deleted**, and its neighbours are joined. -/
theorem exists_listDelEntry (hfront : Adjacent (nextOf s.heap) (prevOf s.heap) u a)
    (hback : Adjacent (nextOf s.heap) (prevOf s.heap) a v)
    (hv : dataOf s.heap v ≠ none) (hsize : s.size ≠ 0) : ∃ heap,
      s.listDelEntry a =
          .ok { s with heap := heap, size := s.size - 1, deleted := s.deleted ++ [a] } ∧
        nextOf heap = update (update (nextOf s.heap) u (some v)) a none ∧
        prevOf heap = update (update (prevOf s.heap) v (some u)) a none ∧
        dataOf heap = update (dataOf s.heap) a none := by
  have hu := dataOf_ne_none_of_next hfront.1
  have ha := dataOf_ne_none_of_next hback.1
  obtain ⟨n, hn, hnext, hprev, -⟩ := exists_node ha
  obtain ⟨nu, hnu, hunext, -⟩ := exists_node hu
  obtain ⟨nv, hnv, -, hvprev, -⟩ := exists_node hv
  rw [hback.1] at hnext
  rw [hfront.2] at hprev
  have hvalid : s.isListDelEntryValid a = .ok true := by
    rw [isListDelEntryValid, hn, ok_bind, hprev, ptr, pure_bind, hnu, ok_bind, hnext, ptr, pure_bind,
      hnv, ok_bind, pure_eq_ok, decide_eq_true_iff]
    exact ⟨hunext.trans hfront.1, hvprev.trans hback.2⟩
  obtain ⟨h₁, e₁, hn₁, hp₁, hd₁⟩ := exists_setPrev hv (some u)
  obtain ⟨h₂, e₂, hn₂, hp₂, hd₂⟩ := @exists_setNext α { s with heap := h₁ } u (by rwa [hd₁]) (some v)
  obtain ⟨h₃, e₃, hn₃, hp₃, hd₃⟩ := @exists_setPrev α { s with heap := h₂ } a (by rwa [hd₂, hd₁]) none
  obtain ⟨h₄, e₄, hn₄, hp₄, hd₄⟩ := @exists_setNext α { s with heap := h₃ } a
    (by rwa [hd₃, hd₂, hd₁]) none
  obtain ⟨n₄, hn', -⟩ := @exists_node α { s with heap := h₄ } a (by rwa [hd₄, hd₃, hd₂, hd₁])
  refine ⟨update h₄ a none, ?_, ?_, ?_, ?_⟩
  · rw [listDelEntry, hvalid, ok_bind, if_pos rfl, hn, ok_bind, hprev, ptr, pure_bind, hnext, ptr,
      pure_bind, listDel, e₁, ok_bind, e₂, ok_bind, e₃, ok_bind, e₄, ok_bind, delete, hn', ok_bind,
      pure_bind, if_neg (show ({ s with heap := h₄ } : State α).size ≠ 0 from hsize)]
    rfl
  · rw [nextOf_update, Option.bind_none, hn₄, hn₃, hn₂, hn₁, update_idem]
  · rw [prevOf_update, Option.bind_none, hp₄, hp₃, hp₂, hp₁, update_idem]
  · rw [dataOf_update, Option.map_none, hd₄, hd₃, hd₂, hd₁]

end State

/-! ### A list as a sequence -/

/-- **A list holds a sequence**: its nodes are in a circle and have the elements, their number is right,
no check has failed, and the nodes that were allocated are those that were deleted and those that are
still there. -/
structure Refines (s : State α) (ns : List ℕ) (l : List α) : Prop where
  /-- The nodes are in a circle with the head. -/
  ring : Ring (nextOf s.heap) (prevOf s.heap) s.head ns
  /-- The nodes have the elements. -/
  data : ns.map (dataOf s.heap) = l.map some
  /-- `size` is their number. -/
  size_eq : s.size = l.length
  /-- No check has failed. -/
  rejected_eq : s.rejected = 0
  /-- A node is deleted once it is removed, and only then. -/
  perm : s.allocated.Perm (s.deleted ++ ns)

theorem refines_init (head : ℕ) (data : α) : Refines (init head data) [] [] where
  ring := by
    refine ⟨List.nodup_singleton head, List.isChain_cons_cons.mpr ⟨⟨?_, ?_⟩, List.isChain_singleton _⟩⟩
    · change (update (fun _ => none) head (some (Node.mk (some head) (some head) data))
        head).bind Node.next = some head
      rw [update_self]
      rfl
    · change (update (fun _ => none) head (some (Node.mk (some head) (some head) data))
        head).bind Node.prev = some head
      rw [update_self]
      rfl
  data := rfl
  size_eq := rfl
  rejected_eq := rfl
  perm := List.Perm.nil

namespace Refines

variable {s : State α} {ns xs ys : List ℕ} {l lx ly : List α} {a e : ℕ} {x y : α}
  {f : ℕ → Option α} {ls : List (Option α)}

theorem length_eq (h : Refines s ns l) : ns.length = l.length := by
  have hlen := congrArg List.length h.data
  rwa [List.length_map, List.length_map] at hlen

/-- The nodes in front of a place and behind it, and their elements. -/
theorem data_append (h : Refines s (xs ++ ys) (lx ++ ly)) (hlen : xs.length = lx.length) :
    xs.map (dataOf s.heap) = lx.map some ∧ ys.map (dataOf s.heap) = ly.map some := by
  have hdata := h.data
  rw [List.map_append, List.map_append] at hdata
  exact List.append_inj hdata (by rw [List.length_map, List.length_map, hlen])

theorem dataOf_ne_none (h : Refines s ns l) (ha : a ∈ s.head :: ns) : dataOf s.heap a ≠ none := by
  rcases List.mem_cons.mp ha with rfl | ha
  · exact State.dataOf_ne_none_of_next (@Ring.chain_cut _ _ _ _ [] ns h.ring).2.1.1
  · have hmem : dataOf s.heap a ∈ l.map some := h.data ▸ List.mem_map_of_mem ha
    obtain ⟨x, -, hx⟩ := List.mem_map.mp hmem
    rw [← hx]
    exact Option.some_ne_none x

/-- The links of the head. -/
theorem exists_head (h : Refines s ns l) : ∃ n, s.node s.head = .ok n ∧
    n.next = some (ns.headD s.head) ∧ n.prev = some (ns.getLastD s.head) := by
  obtain ⟨n, hn, hnext, hprev, -⟩ := State.exists_node (h.dataOf_ne_none List.mem_cons_self)
  refine ⟨n, hn, hnext.trans ?_, hprev.trans ?_⟩
  · exact (@Ring.chain_cut _ _ _ _ [] ns h.ring).2.1.1
  · have hring := h.ring
    rw [← List.append_nil ns] at hring
    exact hring.chain_cut.2.1.2

/-- The links of the head, when a new node is not linked in yet. -/
theorem exists_head_of_new (h : Refines s ns l) (ha : s.heap a = none) (x : α) :
    ∃ n, (s.new a x).node (s.new a x).head = .ok n ∧
      n.next = some (ns.headD s.head) ∧ n.prev = some (ns.getLastD s.head) := by
  obtain ⟨n, hn, hlinks⟩ := h.exists_head
  refine ⟨n, ?_, hlinks⟩
  have hne : s.head ≠ a := by
    intro hEq
    rw [State.node, hEq, ha] at hn
    cases hn
  rw [← hn, State.node, State.node]
  change (match update s.heap a _ s.head with | none => _ | some n => _) = _
  rw [update_of_ne hne]

/-- The two links at a node. -/
theorem adjacent (h : Refines s (xs ++ e :: ys) l) :
    Adjacent (nextOf s.heap) (prevOf s.heap) (xs.getLastD s.head) e ∧
      Adjacent (nextOf s.heap) (prevOf s.heap) e (ys.headD s.head) := by
  refine ⟨h.ring.chain_cut.2.1, ?_⟩
  have hring := h.ring
  rw [List.append_cons] at hring
  have hback := hring.chain_cut.2.1
  rwa [List.getLastD_concat] at hback

/-- A node of the circle: its element and its links. -/
theorem exists_node (h : Refines s (xs ++ e :: ys) (lx ++ y :: ly)) (hlen : xs.length = lx.length) :
    e ≠ s.head ∧ ∃ n, s.node e = .ok n ∧ n.data = y ∧ n.next = some (ys.headD s.head) ∧
      n.prev = some (xs.getLastD s.head) := by
  have hmem : e ∈ xs ++ e :: ys := List.mem_append_right xs List.mem_cons_self
  obtain ⟨n, hn, hnext, hprev, hdata⟩ :=
    State.exists_node (h.dataOf_ne_none (List.mem_cons_of_mem _ hmem))
  obtain ⟨hfront, hback⟩ := h.adjacent
  refine ⟨?_, n, hn, ?_, hnext.trans hback.1, hprev.trans hfront.2⟩
  · rintro rfl
    exact (List.nodup_cons.mp h.ring.nodup).1 hmem
  · have hy := (List.cons.inj (h.data_append hlen).2).1
    exact Option.some.inj (hdata.symm.trans hy)

/-- Elements that are read elsewhere than at an address. -/
theorem map_update (hx : xs.map f = ls) (ha : a ∉ xs) (o : Option α) :
    xs.map (update f a o) = ls := by
  rw [← hx]
  refine List.map_congr_left fun b hb => ?_
  have hne : b ≠ a := fun hEq => ha (hEq ▸ hb)
  exact update_of_ne hne o f

/-- **A new node** is linked in at a place. -/
theorem insert (h : Refines s (xs ++ ys) (lx ++ ly)) (hlen : xs.length = lx.length)
    (ha : s.heap a = none) (x : α) : ∃ s',
      (s.new a x).listAdd a (xs.getLastD s.head) (ys.headD s.head) = .ok s' ∧
        Refines s' (xs ++ a :: ys) (lx ++ x :: ly) := by
  have hnone : dataOf s.heap a = none := by rw [dataOf, ha]; rfl
  have hnotMem : a ∉ s.head :: (xs ++ ys) := fun hmem => h.dataOf_ne_none hmem hnone
  have hne : ∀ {b}, b ∈ s.head :: (xs ++ ys) → b ≠ a := fun hb hEq => hnotMem (hEq ▸ hb)
  have hu := getLastD_mem s.head xs ys
  have hv := headD_mem s.head xs ys
  -- The new node is not in the circle yet, so the links and the elements there are as before.
  have hnext : nextOf (s.new a x).heap = update (nextOf s.heap) a none :=
    nextOf_update _ _ _
  have hprev : prevOf (s.new a x).heap = update (prevOf s.heap) a none :=
    prevOf_update _ _ _
  have hdata : dataOf (s.new a x).heap = update (dataOf s.heap) a (some x) :=
    dataOf_update _ _ _
  have hadj := h.ring.chain_cut.2.1
  obtain ⟨heap, hadd, hnext', hprev', hdata'⟩ := @State.exists_listAdd α (s.new a x) a
    (xs.getLastD s.head) (ys.headD s.head)
    ⟨by rw [hnext, update_of_ne (hne hu)]; exact hadj.1,
      by rw [hprev, update_of_ne (hne hv)]; exact hadj.2⟩
    (by rw [hdata, update_self]; exact Option.some_ne_none x)
    (by rw [hdata, update_of_ne (hne hu)]; exact h.dataOf_ne_none hu)
    (by rw [hdata, update_of_ne (hne hv)]; exact h.dataOf_ne_none hv)
    (hne hu).symm (hne hv).symm
  rw [hnext, update_idem] at hnext'
  rw [hprev] at hprev'
  rw [hdata] at hdata'
  refine ⟨_, hadd, ?_, ?_, ?_, h.rejected_eq, ?_⟩
  · refine h.ring.link hnotMem (fun b hb hbu => ?_) (fun b hb hbv => ?_) ⟨?_, ?_⟩ ⟨?_, ?_⟩
    · rw [hnext', update_of_ne hbu, update_of_ne (hne hb)]
    · rw [hprev', update_of_ne (hne hb), update_of_ne hbv,
        update_of_ne (hne hb)]
    · rw [hnext', update_self]
    · rw [hprev', update_self]
    · rw [hnext', update_of_ne (hne hu).symm, update_self]
    · rw [hprev', update_of_ne (hne hv), update_self]
  · obtain ⟨hxs, hys⟩ := h.data_append hlen
    have hin : a ∉ xs ++ ys := fun hmem => hnotMem (List.mem_cons_of_mem s.head hmem)
    change (xs ++ a :: ys).map (dataOf heap) = _
    rw [hdata', List.map_append, List.map_cons, update_self,
      map_update hxs (fun hmem => hin (List.mem_append_left ys hmem)),
      map_update hys (fun hmem => hin (List.mem_append_right xs hmem)), List.map_append, List.map_cons]
  · change s.size + 1 = _
    rw [h.size_eq, List.length_append, List.length_append, List.length_cons]
    omega
  · change (s.allocated ++ [a]).Perm (s.deleted ++ (xs ++ a :: ys))
    have hmiddle : (s.deleted ++ (xs ++ a :: ys)).Perm (s.deleted ++ (xs ++ ys) ++ [a]) := by
      rw [List.append_assoc]
      exact (List.perm_middle.trans (List.perm_append_singleton a _).symm).append_left _
    exact (h.perm.append_right [a]).trans hmiddle.symm

/-- **A node is removed** from a place. -/
theorem delete (h : Refines s (xs ++ e :: ys) (lx ++ y :: ly)) (hlen : xs.length = lx.length) :
    ∃ s', s.listDelEntry e = .ok s' ∧ Refines s' (xs ++ ys) (lx ++ ly) ∧ s'.head = s.head ∧
      s'.heap e = none := by
  obtain ⟨hfront, hback⟩ := h.adjacent
  have hperm : (s.head :: (xs ++ e :: ys)).Perm (e :: s.head :: (xs ++ ys)) :=
    (List.perm_middle.cons s.head).trans (List.Perm.swap e s.head _)
  have hnotMem : e ∉ s.head :: (xs ++ ys) :=
    (List.nodup_cons.mp (hperm.nodup_iff.mp h.ring.nodup)).1
  have hne : ∀ {b}, b ∈ s.head :: (xs ++ ys) → b ≠ e := fun hb hEq => hnotMem (hEq ▸ hb)
  have hu := getLastD_mem s.head xs ys
  have hv := headD_mem s.head xs ys
  have hv' : ys.headD s.head ∈ s.head :: (xs ++ e :: ys) :=
    hperm.mem_iff.mpr (List.mem_cons_of_mem e hv)
  have hlength : s.size = (lx ++ ly).length + 1 := by
    rw [h.size_eq, List.length_append, List.length_append, List.length_cons, Nat.add_assoc]
  obtain ⟨heap, hdel, hnext', hprev', hdata'⟩ :=
    State.exists_listDelEntry hfront hback (h.dataOf_ne_none hv') (by omega)
  refine ⟨_, hdel, ⟨?_, ?_, ?_, h.rejected_eq, ?_⟩, rfl, ?_⟩
  · refine h.ring.unlink (fun b hb hbu => ?_) (fun b hb hbv => ?_) ⟨?_, ?_⟩
    · rw [hnext', update_of_ne (hne hb), update_of_ne hbu]
    · rw [hprev', update_of_ne (hne hb), update_of_ne hbv]
    · rw [hnext', update_of_ne (hne hu), update_self]
    · rw [hprev', update_of_ne (hne hv), update_self]
  · obtain ⟨hxs, hys⟩ := h.data_append hlen
    have hin : e ∉ xs ++ ys := fun hmem => hnotMem (List.mem_cons_of_mem s.head hmem)
    change (xs ++ ys).map (dataOf heap) = _
    rw [hdata', List.map_append, map_update hxs (fun hmem => hin (List.mem_append_left ys hmem)),
      map_update (List.cons.inj hys).2 (fun hmem => hin (List.mem_append_right xs hmem)),
      List.map_append]
  · exact Nat.sub_eq_of_eq_add hlength
  · change s.allocated.Perm (s.deleted ++ [e] ++ (xs ++ ys))
    refine h.perm.trans ?_
    rw [List.append_assoc]
    exact List.perm_middle.append_left s.deleted
  · have hnone : dataOf heap e = none := by rw [hdata', update_self]
    exact Option.map_eq_none_iff.mp hnone

/-! ### The operations -/

theorem pushBack (h : Refines s ns l) (ha : s.heap a = none) (x : α) :
    ∃ s', s.pushBack a x = .ok s' ∧ Refines s' (ns ++ [a]) (l ++ [x]) := by
  have hcut : Refines s (ns ++ []) (l ++ []) := by rwa [List.append_nil, List.append_nil]
  obtain ⟨s', hadd, hs'⟩ := hcut.insert h.length_eq ha x
  obtain ⟨n, hn, -, hprev⟩ := h.exists_head_of_new ha x
  refine ⟨s', ?_, hs'⟩
  rw [State.pushBack, hn, ok_bind, hprev, State.ptr, pure_bind]
  exact hadd

theorem pushFront (h : Refines s ns l) (ha : s.heap a = none) (x : α) :
    ∃ s', s.pushFront a x = .ok s' ∧ Refines s' (a :: ns) (x :: l) := by
  obtain ⟨s', hadd, hs'⟩ := @insert α s [] ns [] l a h rfl ha x
  obtain ⟨n, hn, hnext, -⟩ := h.exists_head_of_new ha x
  refine ⟨s', ?_, hs'⟩
  rw [State.pushFront, hn, ok_bind, hnext, State.ptr, pure_bind]
  exact hadd

theorem popBack (h : Refines s ns l) (hl : l ≠ []) :
    ∃ s' ns', s.popBack = .ok s' ∧ Refines s' ns' l.dropLast := by
  obtain ⟨n, hn, -, hprev⟩ := h.exists_head
  have hlen := h.length_eq
  rcases List.eq_nil_or_concat' l with rfl | ⟨lx, y, rfl⟩
  · exact absurd rfl hl
  rcases List.eq_nil_or_concat' ns with rfl | ⟨xs, e, rfl⟩
  · rw [List.length_append] at hlen
    exact absurd hlen (Nat.succ_ne_zero _).symm
  rw [List.length_append, List.length_append] at hlen
  obtain ⟨s', hdel, hs', -⟩ := h.delete (Nat.add_right_cancel hlen)
  rw [List.append_nil, List.append_nil] at hs'
  refine ⟨s', xs, ?_, by rwa [List.dropLast_concat]⟩
  rw [State.popBack, hn, ok_bind, hprev, State.ptr, pure_bind, List.getLastD_concat, hdel]

theorem popFront (h : Refines s (e :: ys) (y :: ly)) :
    ∃ s', s.popFront = .ok s' ∧ Refines s' ys ly ∧ s'.head = s.head := by
  obtain ⟨n, hn, hnext, -⟩ := h.exists_head
  obtain ⟨s', hdel, hs', hhead, -⟩ := @delete α s [] ys [] ly e y h rfl
  refine ⟨s', ?_, hs', hhead⟩
  rw [State.popFront, hn, ok_bind, hnext, State.ptr, pure_bind]
  exact hdel

/-- **A place moves on** by one node, or it is at the end. -/
theorem place_cases (h : Refines s (xs ++ ys) (lx ++ ly)) (hlen : xs.length = lx.length) :
    ys = [] ∧ ly = [] ∨ ∃ e ys' y ly', ys = e :: ys' ∧ ly = y :: ly' ∧
      Refines s ((xs ++ [e]) ++ ys') ((lx ++ [y]) ++ ly') ∧
      (xs ++ [e]).length = (lx ++ [y]).length := by
  have hall := h.length_eq
  rw [List.length_append, List.length_append, hlen] at hall
  rcases ys with _ | ⟨e, ys⟩
  · exact Or.inl ⟨rfl, List.length_eq_zero_iff.mp (Nat.add_left_cancel hall).symm⟩
  rcases ly with _ | ⟨y, ly⟩
  · exact absurd (Nat.add_left_cancel hall) (Nat.succ_ne_zero _)
  refine Or.inr ⟨e, ys, y, ly, rfl, rfl, ?_, ?_⟩
  · rwa [← List.append_cons, ← List.append_cons]
  · rw [List.length_append, List.length_append, hlen]
    rfl

/-- The walk of `erase` gets to the node with the index. -/
theorem walk_eq (h : Refines s (xs ++ ys) (lx ++ ly)) (hlen : xs.length = lx.length) {i : ℕ}
    (hi : i < ys.length) : s.walk i (ys.headD s.head) = .ok (ys.get ⟨i, hi⟩) := by
  induction i generalizing xs ys lx ly with
  | zero =>
    cases ys with
    | nil => cases hi
    | cons e ys => rfl
  | succ i ih =>
    rcases h.place_cases hlen with ⟨rfl, -⟩ | ⟨e, ys, y, ly, rfl, rfl, hmoved, hlen'⟩
    · cases hi
    obtain ⟨-, n, hn, -, hnext, -⟩ := h.exists_node hlen
    have hstep := ih hmoved hlen' (Nat.lt_of_succ_lt_succ hi)
    rw [List.headD_cons, State.walk, hn, ok_bind, hnext, State.ptr, pure_bind, hstep]
    rfl

theorem erase (h : Refines s ns l) {i : ℕ} (hi : i < l.length) :
    ∃ s' ns', s.erase i = .ok s' ∧ Refines s' ns' (l.eraseIdx i) := by
  obtain ⟨n, hn, hnext, -⟩ := h.exists_head
  have hi' : i < ns.length := h.length_eq ▸ hi
  have hwalk := @walk_eq α s [] ns [] l h rfl i hi'
  have hcut : Refines s (ns.take i ++ ns.get ⟨i, hi'⟩ :: ns.drop (i + 1))
      (l.take i ++ l.get ⟨i, hi⟩ :: l.drop (i + 1)) := by
    rw [List.get_eq_getElem, List.get_eq_getElem, List.getElem_cons_drop, List.getElem_cons_drop,
      List.take_append_drop, List.take_append_drop]
    exact h
  obtain ⟨s', hdel, hs', -⟩ := hcut.delete (by rw [List.length_take, List.length_take, h.length_eq])
  refine ⟨s', _, ?_, by rwa [List.eraseIdx_eq_take_drop_succ]⟩
  rw [State.erase, hn, ok_bind, hnext, State.ptr, pure_bind, hwalk, ok_bind, hdel]

/-- **The loop of `remove_if`** up to the first match, from a place on. -/
theorem exists_removeIfLoop (p : α → Bool) (h : Refines s (xs ++ ys) (lx ++ ly))
    (hlen : xs.length = lx.length) (log : List α) :
    ∃ s' ns' log', (∀ fuel, ys.length < fuel →
      State.removeIfLoop p false fuel (ys.headD s.head) log s = .ok (s', log')) ∧
        Refines s' ns' (lx ++ ly.eraseP p) := by
  induction ys generalizing xs lx ly log with
  | nil =>
    rcases h.place_cases hlen with ⟨-, rfl⟩ | ⟨_, _, _, _, hcons, -⟩
    · refine ⟨s, _, log, fun fuel hfuel => ?_, h⟩
      obtain ⟨fuel, rfl⟩ := exists_succ_of_lt hfuel
      exact if_pos rfl
    · cases hcons
  | cons e ys ih =>
    rcases h.place_cases hlen with ⟨hnil, -⟩ | ⟨e', ys', y, ly, hcons, rfl, hmoved, hlen'⟩
    · cases hnil
    cases hcons
    obtain ⟨hne, n, hn, hdata, hnext, -⟩ := h.exists_node hlen
    by_cases hp : p y
    · obtain ⟨s', hdel, hs', -⟩ := h.delete hlen
      refine ⟨s', _, log ++ [y], fun fuel hfuel => ?_, by rwa [List.eraseP_cons_of_pos hp]⟩
      obtain ⟨fuel, rfl⟩ := exists_succ_of_lt hfuel
      rw [State.removeIfLoop, List.headD_cons, if_neg hne, hn, ok_bind, hdata, if_pos hp, hdel]
      rfl
    · obtain ⟨s', ns', log', hloop, hs'⟩ := ih hmoved hlen' (log ++ [y])
      rw [List.append_assoc, List.singleton_append] at hs'
      refine ⟨s', ns', log', fun fuel hfuel => ?_, by rwa [List.eraseP_cons_of_neg hp]⟩
      obtain ⟨fuel, rfl⟩ := exists_succ_of_lt hfuel
      rw [State.removeIfLoop, List.headD_cons, if_neg hne, hn, ok_bind, hdata, if_neg hp, hnext,
        State.ptr, pure_bind, hloop fuel (Nat.lt_of_succ_lt_succ hfuel)]

theorem exists_removeIf (p : α → Bool) (h : Refines s ns l) : ∃ s' ns' log,
    (∀ fuel, l.length < fuel → s.removeIf fuel p false = .ok (s', log)) ∧
      Refines s' ns' (l.eraseP p) := by
  obtain ⟨n, hn, hnext, -⟩ := h.exists_head
  obtain ⟨s', ns', log, hloop, hs'⟩ := @exists_removeIfLoop α s [] ns [] l p h rfl []
  refine ⟨s', ns', log, fun fuel hfuel => ?_, hs'⟩
  rw [State.removeIf, hn, ok_bind, hnext, State.ptr, pure_bind, hloop fuel (h.length_eq ▸ hfuel)]

theorem findIfLoop_eq (p : α → Bool) (h : Refines s (xs ++ ys) (lx ++ ly))
    (hlen : xs.length = lx.length) {fuel : ℕ} (hfuel : ys.length < fuel) (k : ℕ) :
    ∃ it, s.findIfLoop p fuel (ys.headD s.head) k = .ok it ∧
      s.look it = .ok (((ly.zipIdx k).find? fun q => p q.1).map Prod.swap) := by
  induction fuel generalizing xs ys lx ly k with
  | zero => cases hfuel
  | succ fuel ih =>
    rw [State.findIfLoop]
    rcases h.place_cases hlen with ⟨rfl, rfl⟩ | ⟨e, ys, y, ly, rfl, rfl, hmoved, hlen'⟩
    · exact ⟨(s.head, 0), if_pos rfl, if_pos rfl⟩
    obtain ⟨hne, n, hn, hdata, hnext, -⟩ := h.exists_node hlen
    rw [List.headD_cons, if_neg hne, hn, ok_bind, hdata, List.zipIdx_cons]
    by_cases hp : p y
    · have hfirst : ((y, k) :: ly.zipIdx (k + 1)).find? (fun q => p q.1) = some (y, k) :=
        List.find?_cons_of_pos hp
      refine ⟨(e, k), if_pos hp, ?_⟩
      rw [hfirst, State.look, if_neg hne, hn, ok_bind, hdata]
      rfl
    · obtain ⟨it, hloop, hlook⟩ := ih hmoved hlen' (Nat.lt_of_succ_lt_succ hfuel) (k + 1)
      have hrest : ((y, k) :: ly.zipIdx (k + 1)).find? (fun q => p q.1) =
          (ly.zipIdx (k + 1)).find? fun q => p q.1 := List.find?_cons_of_neg hp
      rw [if_neg hp, hnext, State.ptr, pure_bind, hrest]
      exact ⟨it, hloop, hlook⟩

theorem findIf (p : α → Bool) (h : Refines s ns l) {fuel : ℕ} (hfuel : l.length < fuel) :
    ∃ it, s.findIf fuel p = .ok it ∧
      s.look it = .ok ((l.zipIdx.find? fun q => p q.1).map Prod.swap) := by
  obtain ⟨n, hn, hnext, -⟩ := h.exists_head
  rw [State.findIf, hn, ok_bind, hnext, State.ptr, pure_bind]
  exact @findIfLoop_eq α s [] ns [] l p h rfl fuel (h.length_eq ▸ hfuel) 0

theorem exists_clear (h : Refines s ns l) : ∃ s',
    (∀ fuel, l.length < fuel → s.clear fuel = .ok s') ∧ Refines s' [] [] := by
  induction l generalizing s ns with
  | nil =>
    obtain rfl := List.length_eq_zero_iff.mp h.length_eq
    obtain ⟨n, hn, hnext, -⟩ := h.exists_head
    refine ⟨s, fun fuel hfuel => ?_, h⟩
    obtain ⟨fuel, rfl⟩ := exists_succ_of_lt hfuel
    rw [State.clear, hn, ok_bind, hnext]
    exact if_pos rfl
  | cons y ly ih =>
    obtain ⟨e, ys, rfl⟩ := List.exists_cons_of_length_eq_add_one h.length_eq
    obtain ⟨n, hn, hnext, -⟩ := h.exists_head
    obtain ⟨s₁, hpop, hs₁, -⟩ := h.popFront
    have hne : e ≠ s.head := (@exists_node α s [] ys [] ly e y h rfl).1
    have hguard : ¬some ((e :: ys).headD s.head) = some s.head := fun hEq => hne (Option.some.inj hEq)
    obtain ⟨s', hclear, hs'⟩ := ih hs₁
    refine ⟨s', fun fuel hfuel => ?_, hs'⟩
    obtain ⟨fuel, rfl⟩ := exists_succ_of_lt hfuel
    rw [State.clear, hn, ok_bind, hnext, if_neg hguard, hpop, ok_bind,
      hclear fuel (Nat.lt_of_succ_lt_succ hfuel)]

/-! ### What is seen of it -/

theorem forwardFrom_eq (h : Refines s (xs ++ ys) (lx ++ ly)) (hlen : xs.length = lx.length)
    {fuel : ℕ} (hfuel : ys.length < fuel) : s.forwardFrom fuel (ys.headD s.head) = .ok ly := by
  induction fuel generalizing xs ys lx ly with
  | zero => cases hfuel
  | succ fuel ih =>
    rw [State.forwardFrom]
    rcases h.place_cases hlen with ⟨rfl, rfl⟩ | ⟨e, ys, y, ly, rfl, rfl, hmoved, hlen'⟩
    · exact if_pos rfl
    obtain ⟨hne, n, hn, hdata, hnext, -⟩ := h.exists_node hlen
    rw [List.headD_cons, if_neg hne, hn, ok_bind, hnext, State.ptr, pure_bind,
      ih hmoved hlen' (Nat.lt_of_succ_lt_succ hfuel), ok_bind, hdata]
    rfl

/-- **Following `next`** from the head meets the elements in order, and then the head. -/
theorem forward (h : Refines s ns l) {fuel : ℕ} (hfuel : l.length < fuel) :
    s.forward fuel = .ok l := by
  obtain ⟨n, hn, hnext, -⟩ := h.exists_head
  rw [State.forward, hn, ok_bind, hnext, State.ptr, pure_bind]
  exact @forwardFrom_eq α s [] ns [] l h rfl fuel (h.length_eq ▸ hfuel)

theorem backwardFrom_eq (h : Refines s (xs ++ ys) (lx ++ ly)) (hlen : xs.length = lx.length)
    {fuel : ℕ} (hfuel : xs.length < fuel) :
    s.backwardFrom fuel (xs.getLastD s.head) = .ok lx.reverse := by
  induction fuel generalizing xs ys lx ly with
  | zero => cases hfuel
  | succ fuel ih =>
    rw [State.backwardFrom]
    rcases List.eq_nil_or_concat' xs with rfl | ⟨xs, e, rfl⟩
    · rw [List.length_eq_zero_iff.mp hlen.symm]
      exact if_pos rfl
    rcases List.eq_nil_or_concat' lx with rfl | ⟨lx, y, rfl⟩
    · rw [List.length_append] at hlen
      exact absurd hlen (Nat.succ_ne_zero _)
    rw [List.length_append, List.length_append] at hlen
    rw [List.length_append] at hfuel
    have hlen' := Nat.add_right_cancel hlen
    rw [← List.append_cons, ← List.append_cons] at h
    obtain ⟨hne, n, hn, hdata, -, hprev⟩ := h.exists_node hlen'
    rw [List.getLastD_concat, if_neg hne, hn, ok_bind, hprev, State.ptr, pure_bind,
      ih h hlen' (Nat.lt_of_succ_lt_succ hfuel), ok_bind, hdata, List.reverse_concat]
    rfl

/-- **Following `prev`** from the head meets the elements in reverse, and then the head. -/
theorem backward (h : Refines s ns l) {fuel : ℕ} (hfuel : l.length < fuel) :
    s.backward fuel = .ok l.reverse := by
  obtain ⟨n, hn, -, hprev⟩ := h.exists_head
  have hcut : Refines s (ns ++ []) (l ++ []) := by rwa [List.append_nil, List.append_nil]
  rw [State.backward, hn, ok_bind, hprev, State.ptr, pure_bind]
  exact hcut.backwardFrom_eq h.length_eq (h.length_eq ▸ hfuel)

/-! ### Going on after a match -/

/-- Without a match `remove_if` calls the predicate with every element, and removes nothing. -/
theorem removeIfLoop_of_none {p : α → Bool} (h : Refines s (xs ++ ys) (lx ++ ly))
    (hlen : xs.length = lx.length) (hp : ∀ x ∈ ly, ¬p x) {fuel : ℕ} (hfuel : ys.length < fuel)
    (log : List α) :
    State.removeIfLoop p true fuel (ys.headD s.head) log s = .ok (s, log ++ ly) := by
  induction fuel generalizing xs ys lx ly log with
  | zero => cases hfuel
  | succ fuel ih =>
    rw [State.removeIfLoop]
    rcases h.place_cases hlen with ⟨rfl, rfl⟩ | ⟨e, ys, y, ly, rfl, rfl, hmoved, hlen'⟩
    · rw [List.append_nil]
      exact if_pos rfl
    obtain ⟨hne, n, hn, hdata, hnext, -⟩ := h.exists_node hlen
    have htail : ∀ x ∈ ly, ¬p x := fun x hx => hp x (List.mem_cons_of_mem y hx)
    rw [List.headD_cons, if_neg hne, hn, ok_bind, hdata, if_neg (hp y List.mem_cons_self), hnext,
      State.ptr, pure_bind, ih hmoved hlen' htail (Nat.lt_of_succ_lt_succ hfuel),
      List.append_assoc, List.singleton_append]

/-- **With a match** it deletes the node and reads the link to the next one from it. -/
theorem removeIfLoop_of_match {p : α → Bool} (h : Refines s (xs ++ ys) (lx ++ ly))
    (hlen : xs.length = lx.length) (hp : ∃ x ∈ ly, p x) {fuel : ℕ} (hfuel : ys.length < fuel)
    (log : List α) :
    State.removeIfLoop p true fuel (ys.headD s.head) log s = .error .wild := by
  induction fuel generalizing xs ys lx ly log with
  | zero => cases hfuel
  | succ fuel ih =>
    rw [State.removeIfLoop]
    rcases h.place_cases hlen with ⟨-, rfl⟩ | ⟨e, ys, y, ly, rfl, rfl, hmoved, hlen'⟩
    · obtain ⟨x, hx, -⟩ := hp
      cases hx
    obtain ⟨hne, n, hn, hdata, hnext, -⟩ := h.exists_node hlen
    rw [List.headD_cons, if_neg hne, hn, ok_bind, hdata]
    by_cases hy : p y
    · obtain ⟨s', hdel, -, -, hgone⟩ := h.delete hlen
      rw [if_pos hy, hdel, ok_bind, if_pos rfl, State.node, hgone]
      rfl
    · obtain ⟨x, hx, hpx⟩ := hp
      have hin : x ∈ ly := (List.mem_cons.mp hx).resolve_left fun hEq => hy (hEq ▸ hpx)
      rw [if_neg hy, hnext, State.ptr, pure_bind]
      exact ih hmoved hlen' ⟨x, hin, hpx⟩ (Nat.lt_of_succ_lt_succ hfuel) (log ++ [y])

end Refines

/-! ### Whole runs -/

/-- The calls of a program. A call that makes a node has the address that the allocator returns. -/
inductive Op (α : Type) where
  /-- `push_back(val)`. -/
  | pushBack (a : ℕ) (val : α)
  /-- `push_front(val)`. -/
  | pushFront (a : ℕ) (val : α)
  /-- `pop_back()`. -/
  | popBack
  /-- `pop_front()`. -/
  | popFront
  /-- `erase(index)`. -/
  | erase (index : ℕ)
  /-- `remove(val)`. -/
  | remove (val : α)
  /-- `remove_if(predicate)`. -/
  | removeIf (predicate : α → Bool)
  /-- `find_if(predicate)`. -/
  | findIf (predicate : α → Bool)
  /-- `clear()`. -/
  | clear

variable [BEq α]

/-- A call, and what is seen of the iterator that it returns. -/
def exec (fuel : ℕ) : Op α → State α → Exec (State α × Option (ℕ × α))
  | .pushBack a val, s => (·, none) <$> s.pushBack a val
  | .pushFront a val, s => (·, none) <$> s.pushFront a val
  | .popBack, s => (·, none) <$> s.popBack
  | .popFront, s => (·, none) <$> s.popFront
  | .erase index, s => (·, none) <$> s.erase index
  | .remove val, s => (·, none) <$> s.remove fuel val
  | .removeIf predicate, s => (fun r => (r.1, none)) <$> s.removeIf fuel predicate false
  | .findIf predicate, s => do return (s, ← s.look (← s.findIf fuel predicate))
  | .clear, s => (·, none) <$> s.clear fuel

/-- **The calls that a list is meant for**: the address of a new node is free, nothing is taken from an
empty list, and an index is within the list. -/
def Legal : Op α → State α → List α → Prop
  | .pushBack a _, s, _ => s.heap a = none
  | .pushFront a _, s, _ => s.heap a = none
  | .popBack, _, l => l ≠ []
  | .popFront, _, l => l ≠ []
  | .erase index, _, l => index < l.length
  | _, _, _ => True

/-- **What a call does to the sequence.** -/
def apply : Op α → List α → List α
  | .pushBack _ val, l => l ++ [val]
  | .pushFront _ val, l => val :: l
  | .popBack, l => l.dropLast
  | .popFront, l => l.tail
  | .erase index, l => l.eraseIdx index
  | .remove val, l => l.eraseP (· == val)
  | .removeIf predicate, l => l.eraseP predicate
  | .findIf _, l => l
  | .clear, _ => []

/-- **What a call returns**: the index and the element of the first match. -/
def answer : Op α → List α → Option (ℕ × α)
  | .findIf predicate, l => (l.zipIdx.find? fun q => predicate q.1).map Prod.swap
  | _, _ => none

variable {s s' : State α} {ns : List ℕ} {l : List α} {op : Op α}

/-- **A call refines the operation on the sequence.** -/
theorem Refines.exec (h : Refines s ns l) (hop : Legal op s l) : ∃ s' ns' bound,
    (∀ fuel, bound < fuel → CxxList.exec fuel op s = .ok (s', answer op l)) ∧
      Refines s' ns' (apply op l) := by
  cases op with
  | pushBack a val =>
    obtain ⟨s', hcall, hs'⟩ := h.pushBack hop val
    exact ⟨s', _, 0, fun _ _ => by rw [CxxList.exec, hcall]; rfl, hs'⟩
  | pushFront a val =>
    obtain ⟨s', hcall, hs'⟩ := h.pushFront hop val
    exact ⟨s', _, 0, fun _ _ => by rw [CxxList.exec, hcall]; rfl, hs'⟩
  | popBack =>
    obtain ⟨s', ns', hcall, hs'⟩ := h.popBack hop
    exact ⟨s', ns', 0, fun _ _ => by rw [CxxList.exec, hcall]; rfl, hs'⟩
  | popFront =>
    rcases @Refines.place_cases α s [] ns [] l h rfl with ⟨-, rfl⟩ | ⟨e, ys, y, ly, rfl, rfl, -, -⟩
    · exact absurd rfl hop
    obtain ⟨s', hcall, hs', -⟩ := h.popFront
    exact ⟨s', ys, 0, fun _ _ => by rw [CxxList.exec, hcall]; rfl, hs'⟩
  | erase index =>
    obtain ⟨s', ns', hcall, hs'⟩ := h.erase hop
    exact ⟨s', ns', 0, fun _ _ => by rw [CxxList.exec, hcall]; rfl, hs'⟩
  | remove val =>
    obtain ⟨s', ns', log, hcall, hs'⟩ := h.exists_removeIf (· == val)
    refine ⟨s', ns', l.length, fun fuel hfuel => ?_, hs'⟩
    rw [CxxList.exec, State.remove, hcall fuel hfuel]
    rfl
  | removeIf predicate =>
    obtain ⟨s', ns', log, hcall, hs'⟩ := h.exists_removeIf predicate
    refine ⟨s', ns', l.length, fun fuel hfuel => ?_, hs'⟩
    rw [CxxList.exec, hcall fuel hfuel]
    rfl
  | findIf predicate =>
    refine ⟨s, ns, l.length, fun fuel hfuel => ?_, h⟩
    obtain ⟨it, hfind, hlook⟩ := h.findIf predicate hfuel
    rw [CxxList.exec, hfind, ok_bind, hlook]
    rfl
  | clear =>
    obtain ⟨s', hcall, hs'⟩ := h.exists_clear
    refine ⟨s', [], l.length, fun fuel hfuel => ?_, hs'⟩
    rw [CxxList.exec, hcall fuel hfuel]
    rfl

/-- **The states that a program reaches**, and the sequences that its calls make of an empty one. -/
inductive Reaches : State α → List α → Prop
  /-- A new list. -/
  | init (head : ℕ) (data : α) : Reaches (init head data) []
  /-- A call that the list is meant for returns. -/
  | call {s s' : State α} {l : List α} {op : Op α} {bound : ℕ} {r : Option (ℕ × α)} :
    Reaches s l → Legal op s l → (∀ fuel, bound < fuel → exec fuel op s = .ok (s', r)) →
      Reaches s' (apply op l)

theorem Reaches.refines (h : Reaches s l) : ∃ ns, Refines s ns l := by
  induction h with
  | init head data => exact ⟨[], refines_init head data⟩
  | @call s s' l op bound r _ hop hcall ih =>
    obtain ⟨ns, hs⟩ := ih
    obtain ⟨s₁, ns', bound', hcall', hs₁⟩ := hs.exec hop
    have hEq := (hcall (bound + bound' + 1) (by omega)).symm.trans
      (hcall' (bound + bound' + 1) (by omega))
    cases hEq
    exact ⟨ns', hs₁⟩

/-- **A list is a sequence**, in every state that a program reaches. Following `next` from the head
meets its elements in order and returns to the head, following `prev` meets them in reverse, `size` is
their number, and no check has failed. The nodes that were allocated are, one by one, those that were
deleted and those in the circle. And every further call that the list is meant for returns what it
returns of the sequence. -/
theorem reaches_refines (h : Reaches s l) :
    (∃ bound, ∀ fuel, bound < fuel → s.forward fuel = .ok l ∧ s.backward fuel = .ok l.reverse) ∧
    s.size = l.length ∧ s.rejected = 0 ∧
    (∃ ns, Ring (nextOf s.heap) (prevOf s.heap) s.head ns ∧ ns.map (dataOf s.heap) = l.map some ∧
      s.allocated.Perm (s.deleted ++ ns)) ∧
    ∀ op, Legal op s l → ∃ s' bound, ∀ fuel, bound < fuel →
      exec fuel op s = .ok (s', answer op l) := by
  obtain ⟨ns, hs⟩ := h.refines
  refine ⟨⟨l.length, fun fuel hfuel => ⟨hs.forward hfuel, hs.backward hfuel⟩⟩, hs.size_eq,
    hs.rejected_eq, ⟨ns, hs.ring, hs.data, hs.perm⟩, fun op hop => ?_⟩
  obtain ⟨s', -, bound, hcall, -⟩ := hs.exec hop
  exact ⟨s', bound, hcall⟩

/-- Three elements are put into a list, and the one in front is taken out. -/
def pushAndPop : Exec (State ℕ) := do
  let s ← (init 0 0).pushBack 1 5
  let s ← s.pushBack 2 6
  let s ← s.pushFront 3 7
  s.popFront

theorem Reaches.of_exec (h : Reaches s l) (op : Op α) (hop : Legal op s l)
    (hcall : ∀ fuel, exec fuel op s = .ok (s', none)) : Reaches s' (apply op l) :=
  h.call hop fun fuel (_ : 0 < fuel) => hcall fuel

theorem exists_pushAndPop : ∃ s, pushAndPop = .ok s ∧ Reaches s [5, 6] := by
  have h₁ := (Reaches.init 0 0).of_exec (.pushBack 1 5) rfl fun _ => rfl
  have h₂ := h₁.of_exec (.pushBack 2 6) rfl fun _ => rfl
  have h₃ := h₂.of_exec (.pushFront 3 7) rfl fun _ => rfl
  exact ⟨_, rfl, h₃.of_exec .popFront (List.cons_ne_nil _ _) fun _ => rfl⟩

theorem reaches_refines_popped : ∃ s, pushAndPop = .ok s ∧ s.size = 2 := by
  obtain ⟨s, hcall, hs⟩ := exists_pushAndPop
  exact ⟨s, hcall, (reaches_refines hs).2.1⟩

/-- **`remove_if` that goes on after a match** calls the predicate once with each element, removes those
that satisfy it, and follows no link of a node that was deleted. -/
def RemovesAll (predicate : α → Bool) (s : State α) (l : List α) : Prop := ∃ bound s' ns,
  (∀ fuel, bound < fuel → s.removeIf fuel predicate true = .ok (s', l)) ∧
    Refines s' ns (l.filter fun x => !predicate x)

/-- **When it does**: if there is nothing to be removed. -/
theorem removesAll_iff (h : Reaches s l) (predicate : α → Bool) :
    RemovesAll predicate s l ↔ ∀ x ∈ l, ¬predicate x := by
  obtain ⟨ns, hs⟩ := h.refines
  obtain ⟨n, hn, hnext, -⟩ := hs.exists_head
  have hcall : ∀ fuel, s.removeIf fuel predicate true =
      State.removeIfLoop predicate true fuel (ns.headD s.head) [] s := by
    intro fuel
    rw [State.removeIf, hn, ok_bind, hnext, State.ptr, pure_bind]
  constructor
  · rintro ⟨bound, s', ns', hall, -⟩ x hx hp
    have hwild := @Refines.removeIfLoop_of_match α s [] ns [] l predicate hs rfl ⟨x, hx, hp⟩
      (bound + ns.length + 1) (by omega) []
    have hok := hall (bound + ns.length + 1) (by omega)
    rw [hcall, hwild] at hok
    cases hok
  · intro hnone
    refine ⟨ns.length, s, ns, fun fuel hfuel => ?_, ?_⟩
    · rw [hcall]
      exact @Refines.removeIfLoop_of_none α s [] ns [] l predicate hs rfl hnone fuel hfuel []
    · have hfilter : (l.filter fun x => !predicate x) = l :=
        List.filter_eq_self.mpr fun x hx => by simpa using hnone x hx
      rw [hfilter]
      exact hs

/-- The element that was taken out is not there any more. -/
theorem removesAll_popped : ∃ s, pushAndPop = .ok s ∧ RemovesAll (· == 7) s [5, 6] := by
  obtain ⟨s, hcall, hs⟩ := exists_pushAndPop
  exact ⟨s, hcall, (removesAll_iff hs (· == 7)).mpr (by decide)⟩

/-- **The only element of a list is removed**, and the link to the next one is read from its node. -/
theorem not_removesAll_five : ((init 0 0).pushBack 1 5 >>= fun s =>
    s.removeIf 3 (fun x => x == 5) true) = .error .wild :=
  eq_error_of_stops (by decide)

end CxxList

end Valkyrie
