import Valkyrie.Mm.VirtualMemoryMap.Effect

/-!
# Accesses of user programs

`kernel/Exception.cc`, as far as memory goes: `handle_page_fault`, and around it the load and the
store of a user program. The processor goes down the page tables of the task. A load takes the
byte that the last descriptor leads to. A store is carried out if the descriptor has no
`PD_RDONLY`; otherwise, or without a descriptor, the processor calls `handle_page_fault`, and
tries again when this returns.

`handle_page_fault` sends `SIGSEGV` to the task where the page is no copy-on-write page. Here the
access then ends with `false`.
-/

namespace Valkyrie.VMMap

open Exec MemoryManager

/-- `get_fault_page_addr`. -/
def faultPage (v : ℕ) : ℕ := v / pageSize * pageSize

/-- `handle_page_fault`. The result tells whether the page was taken care of. -/
def handlePageFault (fuel pgd v : ℕ) (s : State) : Exec (Bool × State) := do
  if ← isCowPage fuel pgd (faultPage v) s then
    return (true, ← copyPageFrame fuel pgd (faultPage v) s)
  else
    return (false, s)

/-- A load: the byte at an address, if there is a page. -/
def load (pgd : ℕ) (m : Mem) (v : ℕ) : Option UInt8 :=
  (look 3 pgd m (pathOf v)).map fun e => m (frame e + pageOffset v)

/-- The descriptor that a store goes through. -/
def writable (pgd : ℕ) (m : Mem) (v : ℕ) : Option Descriptor :=
  (look 3 pgd m (pathOf v)).filter fun e => !has pdRdonly e

/-- A store: the processor tries again after each page fault. -/
def userStore (fuel pgd v : ℕ) (b : UInt8) : ℕ → State → Exec (Bool × State)
  | 0, _ => .error .outOfFuel
  | tries + 1, s =>
    match writable pgd s.mem v with
    | some e => return (true, { s with mem := Function.update s.mem (frame e + pageOffset v) b })
    | none => do
      let (handled, s) ← handlePageFault fuel pgd v s
      if handled then userStore fuel pgd v b tries s else return (false, s)

attribute [local irreducible] look occupies holders

variable {w w' : World} {s s' : State} {m : Mem} {pgd v fuel tries : ℕ} {b : UInt8} {e : Descriptor}

/-! ### The page of an address -/

/-- An address and the start of its page have the same path. -/
theorem pathOf_faultPage (v : ℕ) : pathOf (faultPage v) = pathOf v :=
  pathOf_congr (Nat.mul_div_cancel (v / pageSize) (by decide))

theorem pageIsAligned_faultPage (v : ℕ) : pageIsAligned (faultPage v) = true := by
  simp [pageIsAligned, faultPage]

theorem writable_eq_some :
    writable pgd m v = some e ↔ look 3 pgd m (pathOf v) = some e ∧ has pdRdonly e = false := by
  rw [writable, Option.filter_eq_some_iff]
  simp

/-- A descriptor that a store does not go through. -/
theorem writable_eq_none (hlook : look 3 pgd m (pathOf v) = some e) (hrdonly : has pdRdonly e = true) :
    writable pgd m v = none := by
  rw [writable, hlook, Option.filter_some]
  simp [hrdonly]

/-! ### Page faults -/

/-- `is_cow_page`, of a page that is mapped. -/
theorem isCowPage_faultPage (hlook : look 3 pgd s.mem (pathOf v) = some e) :
    isCowPage fuel pgd (faultPage v) s = .ok (has pdCowPage e) := by
  obtain ⟨a, hslot, hread, -⟩ := slotAt_of_look hlook
  rw [isCowPage, if_neg (by simp [pageIsAligned_faultPage]), walk, walkFrom_false,
    pathOf_faultPage, hslot, ok_bind]
  dsimp only
  rw [hread]
  rfl

theorem copyPageFrame_faultPage :
    copyPageFrame fuel pgd (faultPage v) s = copyPageFrame fuel pgd v s := by
  rw [copyPageFrame, copyPageFrame, walk, walk, pathOf_faultPage]

/-- **A page fault** at a page that is mapped. -/
theorem handlePageFault_eq (hlook : look 3 pgd s.mem (pathOf v) = some e) :
    handlePageFault fuel pgd v s =
      if has pdCowPage e then do return (true, ← copyPageFrame fuel pgd v s)
      else .ok (false, s) := by
  rw [handlePageFault, isCowPage_faultPage hlook, ok_bind, copyPageFrame_faultPage]
  rfl

/-- A store to a read-only page that is no copy-on-write page ends in `SIGSEGV`. -/
theorem userStore_of_rdonly (hlook : look 3 pgd s.mem (pathOf v) = some e)
    (hrdonly : has pdRdonly e = true) (hcow : has pdCowPage e = false) :
    userStore fuel pgd v b (tries + 1) s = .ok (false, s) := by
  rw [userStore, writable_eq_none hlook hrdonly]
  dsimp only
  rw [handlePageFault_eq hlook, hcow, if_neg Bool.false_ne_true, ok_bind]
  rfl

theorem userStore_of_writable (hlook : look 3 pgd s.mem (pathOf v) = some e)
    (hwrite : has pdRdonly e = false) : userStore fuel pgd v b (tries + 1) s =
      .ok (true, { s with mem := Function.update s.mem (frame e + pageOffset v) b }) := by
  rw [userStore, writable_eq_some.mpr ⟨hlook, hwrite⟩]
  rfl

theorem has_rdonly_unshare : has pdRdonly (unshare e) = false := has_and_zero (by decide)

theorem has_rdonly_ownCopy {p : ℕ} : has pdRdonly (ownCopy p e) = false := has_and_zero (by decide)

theorem has_rdonly_share (h : IsFrame (frame e)) : has pdRdonly (share e) = true := by
  rw [share, has_descriptor h (outside_of_lt (by decide))]
  decide

/-- **A store** is at most one page fault and a write. -/
theorem Inv.userStore (h : Inv w) (hpgd : pgd ∈ w.maps)
    (hlook : look 3 pgd w.s.mem (pathOf v) = some e)
    (hcall : userStore fuel pgd v b tries w.s = .ok (true, s')) :
    ∃ s₁, (s₁ = w.s ∨ Step w (.copyPageFrame pgd v) { w with s := s₁ }) ∧
      Step { w with s := s₁ } (.store pgd v b) { w with s := s' } := by
  obtain _ | tries := tries
  · cases hcall
  cases hrdonly : has pdRdonly e with
  | false =>
    rw [userStore_of_writable hlook hrdonly] at hcall
    obtain rfl := (Prod.mk.inj (Except.ok.inj hcall)).2
    exact ⟨w.s, Or.inl rfl, .store b hpgd hlook hrdonly⟩
  | true =>
    rw [VMMap.userStore, writable_eq_none hlook hrdonly] at hcall
    dsimp only at hcall
    rw [handlePageFault_eq hlook] at hcall
    split_ifs at hcall with hcow
    · obtain ⟨⟨handled, s₁⟩, hfault, hcall⟩ := bind_eq_ok.mp hcall
      obtain ⟨s₁', hcopy, hpair⟩ := bind_eq_ok.mp hfault
      obtain ⟨rfl, rfl⟩ := Prod.mk.inj (pure_eq_ok.mp hpair)
      have hstep : Step w (.copyPageFrame pgd v) { w with s := s₁' } :=
        .copyPageFrame fuel hpgd hlook hcow hcopy
      obtain ⟨e', fresh, hres⟩ := h.resolved hpgd hlook hcopy
      have hlook' : look 3 pgd s₁'.mem (pathOf v) = some e' := by
        rw [hres.look, Function.update_self]
      have hwrite : has pdRdonly e' = false := by
        rcases hres.cases with ⟨-, -, rfl⟩ | ⟨-, -, hEq⟩
        · exact has_rdonly_unshare
        · rw [hEq]
          exact has_rdonly_ownCopy
      refine ⟨s₁', Or.inr hstep, ?_⟩
      obtain _ | tries := tries
      · cases hcall
      rw [if_pos rfl, userStore_of_writable hlook' hwrite] at hcall
      obtain rfl := (Prod.mk.inj (Except.ok.inj hcall)).2
      exact Step.store (w := { w with s := s₁' }) b hpgd hlook' hwrite
    · cases hcall

end Valkyrie.VMMap
