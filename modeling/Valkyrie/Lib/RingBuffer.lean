import Mathlib.Data.List.Induction
import Valkyrie.Base.Slots

/-!
# Ring buffers

The class `RingBuffer` of `lib/RingBuffer.h`: an array, the index of the slot that is taken from next
and the index of the slot that is filled next. Both go around. The buffer is full while one slot is
free, and then a push moves the head along, so that the oldest element is dropped.

The number of elements is counted apart from the indices. The two agree as long as no push finds the
buffer full and no pop finds it empty (`Valkyrie.RingBuffer.bookkeeping_iff`): the first makes the
counter one too large, and the second moves the head past the tail, which makes a full buffer of an
empty one. What the head and the tail say is right even if pushes find the buffer full
(`Valkyrie.RingBuffer.Holds.push`).

The heap is taken to serve the array, whatever its size is; in the kernel it has at most 2 MiB.
-/

namespace Valkyrie

open Exec Slots

/-- **A ring buffer.** -/
structure RingBuffer (α : Type) where
  /-- `_data`. -/
  data : List α
  /-- `_head`. -/
  head : ℕ
  /-- `_tail`. -/
  tail : ℕ
  /-- `_size`. -/
  size : ℕ
  /-- `_capacity`. -/
  capacity : ℕ

namespace RingBuffer

variable {α : Type}

/-- The constructor. -/
def new [Inhabited α] (capacity : ℕ) : RingBuffer α :=
  ⟨List.replicate capacity default, 0, 0, 0, capacity⟩

/-- `empty`. -/
def empty (b : RingBuffer α) : Bool := b.tail = b.head

/-- `full`. -/
def full (b : RingBuffer α) : Bool := (b.tail + 1) % b.capacity = b.head

/-- `push`. -/
def push (val : α) (b : RingBuffer α) : Exec (RingBuffer α) := do
  let data ← store b.data b.tail val
  return { b with
    data := data
    head := if b.full then (b.head + 1) % b.capacity else b.head
    tail := (b.tail + 1) % b.capacity
    size := if b.size < b.capacity then b.size + 1 else b.size }

/-- `pop`. -/
def pop (b : RingBuffer α) : RingBuffer α :=
  { b with
    head := (b.head + 1) % b.capacity
    size := if 0 < b.size then b.size - 1 else b.size }

/-- `clear`. -/
def clear (b : RingBuffer α) : RingBuffer α := { b with head := 0, tail := 0, size := 0 }

/-! ### What a ring buffer stores -/

/-- The number of slots from the head to the tail. -/
def count (b : RingBuffer α) : ℕ := (b.tail + b.capacity - b.head) % b.capacity

/-- The elements from the head to the tail. -/
def elements (b : RingBuffer α) : List α :=
  (List.range b.count).filterMap fun k => b.data[(b.head + k) % b.capacity]?

/-- The elements lie in the slots from the head on, around the end of the array. -/
def Lies (data : List α) (c head : ℕ) (l : List α) : Prop :=
  ∀ k < l.length, data[(head + k) % c]? = l[k]?

/-- **The head and the tail of a ring buffer tell its elements.** One slot is free. -/
structure Holds (b : RingBuffer α) (l : List α) : Prop where
  length_eq : b.data.length = b.capacity
  head_lt : b.head < b.capacity
  tail_eq : b.tail = (b.head + l.length) % b.capacity
  length_lt : l.length < b.capacity
  lies : Lies b.data b.capacity b.head l

section Indices

variable {a c n k : ℕ}

theorem mod_of_lt_two_mul (h : n < 2 * c) : n % c = if n < c then n else n - c := by
  split_ifs with hlt
  · exact Nat.mod_eq_of_lt hlt
  · rw [Nat.mod_eq_sub_mod (by omega), Nat.mod_eq_of_lt (by omega)]

theorem add_mod_ne (ha : a < c) (hk : k < n) (hn : n < c) : (a + k) % c ≠ (a + n) % c := by
  rw [mod_of_lt_two_mul (by omega), mod_of_lt_two_mul (by omega)]
  split_ifs <;> omega

/-- The distance to an index that is so many slots further. -/
theorem distance_eq (ha : a < c) (hn : n < c) : ((a + n) % c + c - a) % c = n := by
  rw [mod_of_lt_two_mul (n := a + n) (by omega)]
  split_ifs
  · rw [show a + n + c - a = n + c by omega, Nat.add_mod_right, Nat.mod_eq_of_lt hn]
  · rw [show a + n - c + c - a = n by omega, Nat.mod_eq_of_lt hn]

end Indices

variable {b b' : RingBuffer α} {data l : List α} {x y : α} {c head : ℕ}

theorem Lies.set (h : Lies data c head l) (hc : data.length = c) (hhead : head < c)
    (hl : l.length < c) : Lies (data.set ((head + l.length) % c) x) c head (l ++ [x]) := by
  intro k hk
  rw [List.length_append, List.length_singleton] at hk
  rcases Nat.lt_succ_iff_lt_or_eq.mp hk with hlt | rfl
  · rw [List.getElem?_set_ne (add_mod_ne hhead hlt hl).symm, List.getElem?_append_left hlt]
    exact h k hlt
  · have hin : (head + l.length) % c < data.length := hc ▸ Nat.mod_lt _ (by omega)
    rw [List.getElem?_set_self hin, List.getElem?_concat_length]

/-- The first element is left behind. -/
theorem Lies.tail (h : Lies data c head l) : Lies data c ((head + 1) % c) l.tail := by
  intro k hk
  rw [List.length_tail] at hk
  rw [Nat.mod_add_mod, Nat.add_assoc, Nat.add_comm 1, h (k + 1) (by omega), List.getElem?_tail]

theorem filterMap_range (l : List α) : (List.range l.length).filterMap (l[·]?) = l := by
  induction l using List.reverseRecOn with
  | nil => rfl
  | append_singleton l x ih =>
    have hleft : (List.range l.length).filterMap ((l ++ [x])[·]?) = l :=
      (List.filterMap_congr fun k hk => List.getElem?_append_left (List.mem_range.mp hk)).trans ih
    rw [List.length_append, List.length_singleton, List.range_succ, List.filterMap_append, hleft,
      List.filterMap_cons_some (List.getElem?_concat_length ..), List.filterMap_nil]

theorem holds_new [Inhabited α] (hc : 0 < c) : (new c : RingBuffer α).Holds [] :=
  ⟨List.length_replicate, hc, (Nat.zero_mod c).symm, hc, fun _ hk => absurd hk (Nat.not_lt_zero _)⟩

namespace Holds

theorem count_eq (h : b.Holds l) : b.count = l.length := by
  rw [count, h.tail_eq]
  exact distance_eq h.head_lt h.length_lt

theorem elements_eq (h : b.Holds l) : b.elements = l := by
  rw [elements, h.count_eq, List.filterMap_congr fun k hk => h.lies k (List.mem_range.mp hk)]
  exact filterMap_range l

theorem empty_iff (h : b.Holds l) : b.empty = true ↔ l = [] := by
  have hlt := h.length_lt
  have hhead := h.head_lt
  rw [empty, decide_eq_true_iff, h.tail_eq, mod_of_lt_two_mul (by omega), ← List.length_eq_zero_iff]
  split_ifs <;> omega

theorem full_iff (h : b.Holds l) : b.full = true ↔ l.length + 1 = b.capacity := by
  have hlt := h.length_lt
  have hhead := h.head_lt
  rw [full, decide_eq_true_iff, h.tail_eq, Nat.mod_add_mod, mod_of_lt_two_mul (by omega)]
  split_ifs <;> omega

/-- **A push** puts an element behind the others. If it finds the buffer full, the oldest one is
dropped. -/
theorem push (h : b.Holds l) (x : α) : ∃ b', b.push x = .ok b' ∧
    b'.Holds (if l.length + 1 = b.capacity then (l ++ [x]).tail else l ++ [x]) ∧
    b'.capacity = b.capacity ∧ b'.size = if b.size < b.capacity then b.size + 1 else b.size := by
  have htail : b.tail < b.data.length := by
    rw [h.tail_eq, h.length_eq]
    exact Nat.mod_lt _ (Nat.zero_lt_of_lt h.head_lt)
  have hlies : Lies (b.data.set b.tail x) b.capacity b.head (l ++ [x]) := by
    rw [h.tail_eq]
    exact h.lies.set h.length_eq h.head_lt h.length_lt
  have hnext : (b.tail + 1) % b.capacity = (b.head + (l ++ [x]).length) % b.capacity := by
    rw [h.tail_eq, Nat.mod_add_mod, List.length_append, List.length_singleton, Nat.add_assoc]
  have hlen : (b.data.set b.tail x).length = b.capacity := by rw [List.length_set, h.length_eq]
  refine ⟨{ b with
    data := b.data.set b.tail x
    head := if b.full then (b.head + 1) % b.capacity else b.head
    tail := (b.tail + 1) % b.capacity
    size := if b.size < b.capacity then b.size + 1 else b.size }, ?_, ?_, rfl, rfl⟩
  · rw [RingBuffer.push, store, if_pos htail]
    rfl
  by_cases hfull : l.length + 1 = b.capacity
  · rw [if_pos hfull]
    refine ⟨hlen, ?_, ?_, ?_, ?_⟩
    all_goals simp only [if_pos (h.full_iff.mpr hfull)]
    · exact Nat.mod_lt _ (Nat.zero_lt_of_lt h.head_lt)
    · rw [hnext, Nat.mod_add_mod, List.length_tail, List.length_append, List.length_singleton]
      congr 1
      omega
    · rw [List.length_tail, List.length_append, List.length_singleton]
      exact h.length_lt
    · exact hlies.tail
  · have hlt := h.length_lt
    rw [if_neg hfull]
    refine ⟨hlen, ?_, ?_, ?_, ?_⟩
    all_goals simp only [if_neg (fun hc => hfull (h.full_iff.mp hc))]
    · exact h.head_lt
    · exact hnext
    · rw [List.length_append, List.length_singleton]
      omega
    · exact hlies

/-- **A pop** takes the oldest element. -/
theorem pop (h : b.Holds (y :: l)) : b.pop.Holds l := by
  have hlt := h.length_lt
  rw [List.length_cons] at hlt
  refine ⟨h.length_eq, Nat.mod_lt _ (Nat.zero_lt_of_lt h.head_lt), ?_, Nat.lt_of_succ_lt hlt,
    h.lies.tail⟩
  change b.tail = ((b.head + 1) % b.capacity + l.length) % b.capacity
  rw [h.tail_eq, Nat.mod_add_mod, List.length_cons, Nat.add_assoc, Nat.add_comm 1]

theorem clear (h : b.Holds l) : b.clear.Holds [] :=
  ⟨h.length_eq, Nat.zero_lt_of_lt h.head_lt, (Nat.zero_mod _).symm, Nat.zero_lt_of_lt h.head_lt,
    fun _ hk => absurd hk (Nat.not_lt_zero _)⟩

end Holds

/-! ### Whole runs -/

/-- The calls of a program. -/
inductive Op (α : Type) where
  /-- `push(val)`. -/
  | push (val : α)
  /-- `pop()`. -/
  | pop
  /-- `clear()`. -/
  | clear

namespace Op

/-- A call. -/
def exec : Op α → RingBuffer α → Exec (RingBuffer α)
  | .push val, b => b.push val
  | .pop, b => return b.pop
  | .clear, b => return b.clear

/-- **What a call does to the elements** that are stored: all but one of the slots can be used, and
the oldest element is dropped if they are. -/
def apply (c : ℕ) : Op α → List α → List α
  | .push val, l => if l.length + 1 = c then (l ++ [val]).tail else l ++ [val]
  | .pop, l => l.tail
  | .clear, _ => []

/-- A push does not find the buffer full, and a pop does not find it empty. -/
def Careful (c : ℕ) : Op α → List α → Prop
  | .push _, l => l.length + 1 ≠ c
  | .pop, l => l ≠ []
  | .clear, _ => True

/-- The calls one after the other. -/
def execAll (ops : List (Op α)) (b : RingBuffer α) : Exec (RingBuffer α) :=
  ops.foldlM (fun b op => op.exec b) b

/-- The elements that are stored after the calls. -/
def applyAll (c : ℕ) (ops : List (Op α)) (l : List α) : List α :=
  ops.foldl (fun l op => op.apply c l) l

/-- No push finds the buffer full, and no pop finds it empty. -/
def CarefulAll (c : ℕ) : List (Op α) → List α → Prop
  | [], _ => True
  | op :: ops, l => op.Careful c l ∧ CarefulAll c ops (op.apply c l)

end Op

/-- **The bookkeeping of a ring buffer**: `size` is the number of slots from the head to the tail,
`empty` says whether it is zero, and in these slots are the elements. -/
structure Tells (b : RingBuffer α) (l : List α) : Prop where
  size_eq : b.size = b.count
  empty_iff : b.empty = true ↔ b.size = 0
  elements_eq : b.elements = l

/-- **The bookkeeping is right all the time**, from a buffer with these elements on. -/
def TellsThroughout (b : RingBuffer α) (l : List α) (ops : List (Op α)) : Prop :=
  ∀ pre, pre <+: ops → ∃ b', Op.execAll pre b = .ok b' ∧ b'.Tells (Op.applyAll b.capacity pre l)

variable {op : Op α} {ops : List (Op α)}

theorem Holds.tells (h : b.Holds l) (hsize : b.size = l.length) : b.Tells l := by
  refine ⟨hsize.trans h.count_eq.symm, ?_, h.elements_eq⟩
  rw [h.empty_iff, hsize, List.length_eq_zero_iff]

/-- **A careful call** keeps the count. -/
theorem Holds.exec (h : b.Holds l) (hsize : b.size = l.length) (hop : op.Careful b.capacity l) :
    ∃ b', op.exec b = .ok b' ∧ b'.Holds (op.apply b.capacity l) ∧
      b'.size = (op.apply b.capacity l).length ∧ b'.capacity = b.capacity := by
  cases op with
  | push val =>
    obtain ⟨b', hcall, hb', hc, hs⟩ := h.push val
    have hlt := h.length_lt
    refine ⟨b', hcall, hb', ?_, hc⟩
    rw [hs, hsize, if_pos hlt, Op.apply, if_neg hop, List.length_append, List.length_singleton]
  | pop =>
    obtain ⟨y, l, rfl⟩ := List.exists_cons_of_ne_nil hop
    refine ⟨b.pop, rfl, h.pop, ?_, rfl⟩
    change (if 0 < b.size then b.size - 1 else b.size) = l.length
    rw [hsize, List.length_cons, if_pos (Nat.zero_lt_succ _), Nat.add_sub_cancel]
  | clear => exact ⟨b.clear, rfl, h.clear, rfl, rfl⟩

/-- **A call that is not careful** makes the count wrong at once. -/
theorem Holds.careful_of_tells (h : b.Holds l) (hsize : b.size = l.length) (hc : 2 ≤ b.capacity)
    (hcall : op.exec b = .ok b') (htells : b'.size = b'.count) : op.Careful b.capacity l := by
  cases op with
  | push val =>
    intro hfull
    obtain ⟨b₁, hcall₁, hb₁, -, hs⟩ := h.push val
    obtain rfl : b₁ = b' := Except.ok.inj (hcall₁.symm.trans hcall)
    rw [hb₁.count_eq, hs, hsize, if_pos h.length_lt, if_pos hfull, List.length_tail,
      List.length_append, List.length_singleton] at htells
    omega
  | pop =>
    rintro rfl
    obtain rfl : b.pop = b' := Except.ok.inj hcall
    have hhead := h.head_lt
    have hcount : b.pop.count = b.capacity - 1 := by
      change (b.tail + b.capacity - (b.head + 1) % b.capacity) % b.capacity = b.capacity - 1
      rw [h.tail_eq, List.length_nil, Nat.add_zero, Nat.mod_eq_of_lt hhead,
        mod_of_lt_two_mul (n := b.head + 1) (by omega)]
      split_ifs
      · rw [show b.head + b.capacity - (b.head + 1) = b.capacity - 1 by omega]
        exact Nat.mod_eq_of_lt (by omega)
      · rw [mod_of_lt_two_mul (by omega)]
        split_ifs <;> omega
    rw [hcount] at htells
    change (if 0 < b.size then b.size - 1 else b.size) = b.capacity - 1 at htells
    rw [hsize, List.length_nil, if_neg (Nat.lt_irrefl 0)] at htells
    omega
  | clear => trivial

theorem Op.execAll_cons (h : op.exec b = .ok b') :
    Op.execAll (op :: ops) b = Op.execAll ops b' := by
  rw [Op.execAll, List.foldlM_cons, h]
  rfl

theorem Holds.tellsThroughout_iff (h : b.Holds l) (hsize : b.size = l.length)
    (hc : 2 ≤ b.capacity) : b.TellsThroughout l ops ↔ Op.CarefulAll b.capacity ops l := by
  induction ops generalizing b l with
  | nil =>
    refine iff_of_true (fun pre hpre => ?_) trivial
    rw [List.prefix_nil.mp hpre]
    exact ⟨b, rfl, h.tells hsize⟩
  | cons op ops ih =>
    have hrest : ∀ {b₁}, op.exec b = .ok b₁ → b₁.capacity = b.capacity →
        (b₁.TellsThroughout (op.apply b.capacity l) ops ↔ ∀ pre, pre <+: ops → ∃ b',
          Op.execAll (op :: pre) b = .ok b' ∧ b'.Tells (Op.applyAll b.capacity (op :: pre) l)) := by
      intro b₁ hcall hEq
      simp only [TellsThroughout, Op.execAll_cons hcall, hEq, Op.applyAll, List.foldl_cons]
    constructor
    · intro htells
      obtain ⟨b', hb', htell⟩ := htells [op] (List.cons_prefix_cons.mpr ⟨rfl, List.nil_prefix⟩)
      obtain ⟨b₁, hcall, hone⟩ := bind_eq_ok.mp hb'
      obtain rfl := pure_eq_ok.mp hone
      have hop := h.careful_of_tells hsize hc hcall htell.size_eq
      obtain ⟨b₂, hcall₂, hb₂, hs₂, hc₂⟩ := h.exec hsize hop
      refine ⟨hop, hc₂ ▸ (ih hb₂ hs₂ (hc₂ ▸ hc)).mp ((hrest hcall₂ hc₂).mpr fun pre hpre => ?_)⟩
      exact htells (op :: pre) (List.cons_prefix_cons.mpr ⟨rfl, hpre⟩)
    · rintro ⟨hop, hops⟩ pre hpre
      obtain ⟨b₁, hcall, hb₁, hs₁, hc₁⟩ := h.exec hsize hop
      rcases pre with _ | ⟨op', pre⟩
      · exact ⟨b, rfl, h.tells hsize⟩
      · obtain ⟨rfl, hpre'⟩ := List.cons_prefix_cons.mp hpre
        refine (hrest hcall hc₁).mp ((ih hb₁ hs₁ (hc₁ ▸ hc)).mpr ?_) pre hpre'
        rwa [hc₁]

/-- **The bookkeeping of a ring buffer is right** exactly if no push finds it full and no pop finds it
empty. -/
theorem bookkeeping_iff [Inhabited α] (hc : 2 ≤ c) (ops : List (Op α)) :
    (new c).TellsThroughout [] ops ↔ Op.CarefulAll c ops [] :=
  (holds_new (Nat.zero_lt_of_lt hc)).tellsThroughout_iff rfl hc

/-- Two elements in three slots, one after the other. -/
theorem bookkeeping_three :
    (new 3 : RingBuffer ℕ).TellsThroughout [] [.push 1, .push 2, .pop, .push 3, .clear] := by
  refine (bookkeeping_iff (by decide) _).mpr ⟨?_, ?_, ?_, ?_, ?_, trivial⟩
  · exact show 1 ≠ 3 by decide
  · exact show 2 ≠ 3 by decide
  · exact show [1, 2] ≠ [] by decide
  · exact show 2 ≠ 3 by decide
  · trivial

/-- **The second push** into a buffer of two slots: one element is stored, and `size` is 2. And after
a pop of an empty buffer `size` is 0, and `empty` is false. -/
theorem not_tells_of_full_or_empty :
    ¬(new 2 : RingBuffer ℕ).TellsThroughout [] [.push 1, .push 2] ∧
      ¬(new 2 : RingBuffer ℕ).TellsThroughout [] [.pop] := by
  constructor
  · intro htells
    obtain ⟨b, hb, htell⟩ := htells _ List.prefix_rfl
    obtain rfl := Except.ok.inj hb
    exact absurd htell.size_eq (by decide)
  · intro htells
    obtain ⟨b, hb, htell⟩ := htells _ List.prefix_rfl
    obtain rfl := Except.ok.inj hb
    exact absurd htell.empty_iff (by decide)

end RingBuffer

end Valkyrie
