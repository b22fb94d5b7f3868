import Valkyrie.Base.Trace
import Valkyrie.Kernel.Exception
import Valkyrie.Mm.VirtualMemoryMap.OnePage

/-!
# Permissions of pages

A page is mapped with attributes, and a task that forks passes its pages on. This file keeps
account of the attributes that each page of each map was mapped with, or inherited
(`Valkyrie.VMMap.grantsAfter`), and compares them with what the processor finds.

`dfs_copy_page_tables` does not look at the attributes of a page. Whatever they were, parent and
child get `USER_PAGE_RX | PD_COW_PAGE`: a page without write permission becomes a copy-on-write
page, so that a page fault makes it writable, and a page with `PD_EL0_EXEC_NEVER` becomes
executable (`Valkyrie.VMMap.not_respected_of_fork`). Apart from this, and from a caller of `map`
that asks for a copy-on-write page without write permission, permissions do not grow
(`Valkyrie.VMMap.respected_of_run`).
-/

namespace Valkyrie.VMMap

open Exec MemoryManager Function

attribute [local irreducible] look occupies holders

/-! ### What pages were mapped with -/

/-- The attributes that the pages of each map were mapped with. -/
abbrev Grants := ℕ → Path 3 → Option Descriptor

/-- What an event adds to this. -/
def Event.grant (grants : Grants) : Event → Grants
  | .construct pgd | .reset pgd => update grants pgd fun _ => none
  | .map pgd v _ attr =>
    update grants pgd (update (grants pgd) (pathOf v) (some attr))
  | .copyFrom pgd r => update grants pgd (grants r)
  | .destruct _ | .copyPageFrame _ _ | .store _ _ _ | .write | .manage => grants

/-- The attributes after a list of events. -/
def grantsAfter (events : List Event) : Grants := events.foldl Event.grant fun _ _ => none

/-- **Permissions have not grown.** A store to a page that was mapped with `PD_RDONLY` ends in
`SIGSEGV`, and a page that was mapped with `PD_EL0_EXEC_NEVER` still has it. -/
structure Respected (grants : Grants) (w : World) : Prop where
  rdonly : ∀ pgd ∈ w.maps, ∀ v attr, grants pgd (pathOf v) = some attr →
    has pdRdonly attr = true → ∀ fuel b tries,
      userStore fuel pgd v b (tries + 1) w.s = .ok (false, w.s)
  execNever : ∀ pgd ∈ w.maps, ∀ path attr, grants pgd path = some attr →
    has pdEl0ExecNever attr = true →
      ∃ e, look 3 pgd w.s.mem path = some e ∧ has pdEl0ExecNever e = true

/-- **What a step must not do**: fork from a map with a page that is read-only and not
copy-on-write, or with a page that is not to be executed; or map a page both read-only and
copy-on-write. -/
def Event.Careful (w : World) : Event → Prop
  | .map _ _ _ attr => has pdRdonly attr = true → has pdCowPage attr = false
  | .copyFrom _ r => ∀ path e, look 3 r w.s.mem path = some e →
      (has pdRdonly e = true → has pdCowPage e = true) ∧ has pdEl0ExecNever e = false
  | _ => True

/-- A step that is careful. -/
def CarefulStep (w : World) (ev : Event) (w' : World) : Prop := Step w ev w' ∧ ev.Careful w

variable {w w' : World} {ev : Event} {grants : Grants} {pgd v p : ℕ} {path : Path 3}
  {e attr : Descriptor}

/-! ### Attributes of descriptors that are written -/

theorem has_cow_share (h : IsFrame (frame e)) : has pdCowPage (share e) = true := by
  rw [share, has_descriptor h (outside_of_lt (by decide))]
  decide

theorem execNever_share (h : IsFrame (frame e)) : ¬has pdEl0ExecNever (share e) = true := by
  rw [share, has_descriptor h (outside_of_lt (by decide))]
  decide

theorem execNever_unshare : has pdEl0ExecNever (unshare e) = has pdEl0ExecNever e := by
  rw [unshare, has_and_self (by decide), has_and_self (by decide)]

theorem has_or_of_and_eq_zero {bits : Descriptor} (h : bits &&& attr = 0) :
    has attr (e ||| bits) = has attr e := by
  have hor : (e ||| bits) &&& attr = e &&& attr := by
    rw [BitVec.and_comm, BitVec.and_or_distrib_left, BitVec.and_comm attr bits, h,
      BitVec.and_comm attr e]
    exact BitVec.or_zero
  rw [has, has, hor]

theorem execNever_makeCow : has pdEl0ExecNever (makeCow attr) = has pdEl0ExecNever attr := by
  rw [makeCow]
  split_ifs
  · rfl
  · exact has_or_of_and_eq_zero (by decide)

theorem makeCow_of_rdonly (h : has pdRdonly attr = true) : makeCow attr = attr := if_pos h

/-! ### The invariant -/

/-- What is found at a page allows no more than what the page was mapped with. -/
structure Limits (attr e : Descriptor) : Prop where
  rdonly : has pdRdonly attr = true → has pdRdonly e = true ∧ has pdCowPage e = false
  execNever : has pdEl0ExecNever attr = true → has pdEl0ExecNever e = true

/-- **Every page is limited to what it was mapped with**, and the frame of a page that is not to
be executed is not shared. -/
structure Limited (grants : Grants) (w : World) : Prop where
  inv : Inv w
  sole : Sole (fun e => has pdEl0ExecNever e = true) w
  pages : ∀ pgd ∈ w.maps, ∀ path attr, grants pgd path = some attr →
    ∃ e, look 3 pgd w.s.mem path = some e ∧ Limits attr e

theorem Limited.respected (h : Limited grants w) : Respected grants w where
  rdonly pgd hpgd v attr hattr hrdonly fuel b tries := by
    obtain ⟨e, hlook, hlimits⟩ := h.pages pgd hpgd _ attr hattr
    exact userStore_of_rdonly hlook (hlimits.rdonly hrdonly).1 (hlimits.rdonly hrdonly).2
  execNever pgd hpgd path attr hattr hnever := by
    obtain ⟨e, hlook, hlimits⟩ := h.pages pgd hpgd _ attr hattr
    exact ⟨e, hlook, hlimits.execNever hnever⟩

/-- The account of a page that is not overwritten. -/
theorem grant_of_not_overwrites (h : ¬ev.Overwrites pgd path) :
    ev.grant grants pgd path = grants pgd path := by
  cases ev with
  | construct _ | reset _ => exact congrFun (update_of_ne h _ _) path
  | map pgd' v p attr =>
    by_cases hpgd : pgd = pgd'
    · subst hpgd
      rw [Event.grant, update_self, update_of_ne fun hpath => h ⟨rfl, hpath⟩]
    · exact congrFun (update_of_ne hpgd _ _) path
  | copyFrom _ _ => exact congrFun (update_of_ne (fun hEq => h (Or.inl hEq)) _ _) path
  | destruct _ | copyPageFrame _ _ | store _ _ _ | write | manage => rfl

theorem limits_map (hp : IsFrame p) (h : has pdRdonly attr = true → has pdCowPage attr = false) :
    Limits attr (descriptor p (makeCow attr)) where
  rdonly hrdonly := by
    rw [makeCow_of_rdonly hrdonly, has_descriptor hp (outside_of_lt (by decide)),
      has_descriptor hp (outside_of_lt (by decide))]
    exact ⟨hrdonly, h hrdonly⟩
  execNever hnever := by
    rw [has_descriptor hp (outside_of_lt (by decide)), execNever_makeCow, hnever]

/-- **One careful step** gives no page more than it had. -/
theorem Limited.step (h : Limited grants w) (hstep : CarefulStep w ev w') :
    Limited (ev.grant grants) w' := by
  obtain ⟨hstep, hcareful⟩ := hstep
  refine ⟨h.inv.step hstep, h.sole.step (fun e => execNever_share) h.inv hstep, ?_⟩
  intro pgd hpgd path attr hattr
  by_cases hover : ev.Overwrites pgd path
  · have hwritten := h.inv.step_written hstep hpgd hover
    generalize look 3 pgd w'.s.mem path = x at hwritten ⊢
    cases hwritten with
    | construct | reset =>
      rw [hover, Event.grant, update_self] at hattr
      cases hattr
    | map hp _ =>
      rw [hover.1, hover.2, Event.grant, update_self, update_self] at hattr
      obtain rfl := Option.some.inj hattr
      exact ⟨_, rfl, limits_map (h.inv.of_others hp).1 hcareful⟩
    | @share child r hr =>
      -- What child and parent have now, the parent had.
      have hold : grants r path = some attr := by
        rcases hover with rfl | rfl
        · rwa [Event.grant, update_self] at hattr
        · rwa [Event.grant, update_apply, ite_self] at hattr
      obtain ⟨e, hlook, hlimits⟩ := h.pages r hr path attr hold
      obtain ⟨hrdonly, hnever⟩ := hcareful path e hlook
      refine ⟨share e, by rw [hlook]; rfl, fun hro => ?_, fun hnx => ?_⟩
      · obtain ⟨hro, hcow⟩ := hlimits.rdonly hro
        rw [hrdonly hro] at hcow
        cases hcow
      · rw [hlimits.execNever hnx] at hnever
        cases hnever
    | unshare hpgd' hlook hcow _ _ =>
      obtain ⟨e', hlook', hlimits⟩ := h.pages _ hpgd' path attr (hover.1 ▸ hattr)
      obtain rfl := Option.some.inj (hlook.symm.trans hlook')
      refine ⟨_, rfl, fun hro => ?_, fun hnx => ?_⟩
      · rw [(hlimits.rdonly hro).2] at hcow
        cases hcow
      · rw [execNever_unshare, hlimits.execNever hnx]
    | ownCopy hpgd' hlook hcow hmany _ _ _ =>
      obtain ⟨e', hlook', hlimits⟩ := h.pages _ hpgd' path attr (hover.1 ▸ hattr)
      obtain rfl := Option.some.inj (hlook.symm.trans hlook')
      refine ⟨_, rfl, fun hro => ?_, fun hnx => ?_⟩
      · rw [(hlimits.rdonly hro).2] at hcow
        cases hcow
      · -- A page that is not to be executed has its frame for itself, and is not copied.
        exact absurd (h.sole.ptesOf_eq_one h.inv hpgd' hlook (hlimits.execNever hnx)) hmany
  · obtain ⟨hmem, hkept⟩ := h.inv.step_kept hstep hpgd hover
    rw [grant_of_not_overwrites hover] at hattr
    rw [hkept]
    exact h.pages pgd hmem path attr hattr

theorem limited_init (next : ℕ → Option ℕ) (index prevChunkSize : ℕ → ℤ) (mem : Mem) :
    Limited (fun _ _ => none) (World.init next index prevChunkSize mem) :=
  ⟨inv_init next index prevChunkSize mem, fun _ _ _ _ _ _ hpgd => absurd hpgd List.not_mem_nil,
    fun _ hpgd => absurd hpgd List.not_mem_nil⟩

/-- **Permissions do not grow** in a run whose steps are all careful. -/
theorem respected_of_run {next : ℕ → Option ℕ} {index prevChunkSize : ℕ → ℤ} {mem : Mem}
    {events : List Event}
    (h : Trace CarefulStep (World.init next index prevChunkSize mem) events w) :
    Respected (grantsAfter events) w := by
  have hlimited : Limited (grantsAfter events) w :=
    h.simulates (R := Limited) (limited_init next index prevChunkSize mem) fun h => h.step
  exact hlimited.respected

/-- A task with a page that it must not write to and must not execute. -/
theorem respected_of_run_one_page : ∃ events w pgd,
    Trace CarefulStep World.zero events w ∧ pgd ∈ w.maps ∧
      grantsAfter events pgd (pathOf 0) = some userPageR ∧
      userStore 20 pgd 0 1 2 w.s = .ok (false, w.s) := by
  have hcheck : check (fun r => decide (r.1 ≠ 0 ∧ r.2.1 ≠ 0 ∧ toPhysical r.2.1 = r.2.1))
      (onePage userPageR) = true := by decide +kernel
  obtain ⟨⟨pgd, p, s₁, mm, s₂⟩, hrun, hr⟩ := exists_ok_of_check hcheck
  obtain ⟨hpgd, hp, hphys⟩ := of_decide_eq_true hr
  obtain ⟨hstep₁, hstep₂, hstep₃⟩ := steps_of_onePage hrun hpgd hp hphys (by decide)
  have htrace : Trace CarefulStep World.zero [.construct pgd, .manage, .map pgd 0 p userPageR] _ :=
    ((Trace.single ⟨hstep₁, trivial⟩).snoc ⟨hstep₂, trivial⟩).snoc ⟨hstep₃, fun _ => by decide⟩
  have hgrant : grantsAfter [.construct pgd, .manage, .map pgd 0 p userPageR] pgd (pathOf 0) =
      some userPageR := by
    simp only [grantsAfter, List.foldl_cons, List.foldl_nil, Event.grant, update_self]
  exact ⟨_, _, pgd, htrace, List.mem_singleton_self pgd, hgrant,
    (respected_of_run htrace).rdonly pgd (List.mem_singleton_self pgd) 0 _ hgrant (by decide) 20 1 1⟩

/-- A store to a copy-on-write page does not end in `SIGSEGV`. -/
theorem userStore_ne_of_cow {s s' : State} {fuel : ℕ} {b : UInt8}
    (hlook : look 3 pgd s.mem (pathOf v) = some e) (hrdonly : has pdRdonly e = true)
    (hcow : has pdCowPage e = true) : userStore fuel pgd v b 1 s ≠ .ok (false, s') := by
  intro hcall
  rw [userStore, writable_eq_none hlook hrdonly] at hcall
  dsimp only at hcall
  rw [handlePageFault_eq hlook, if_pos hcow] at hcall
  obtain ⟨⟨handled, s₁⟩, hfault, hcall⟩ := bind_eq_ok.mp hcall
  obtain ⟨s₂, -, hpair⟩ := bind_eq_ok.mp hfault
  cases pure_eq_ok.mp hpair
  cases hcall

/-- **Permissions grow with a fork**: the child may write to a page that its parent may only
read. -/
theorem not_respected_of_fork :
    ∃ events w, Trace Step World.zero events w ∧ ¬Respected (grantsAfter events) w := by
  have hcheck : check (fun r => decide (r.1.Nodup ∧ ∀ q ∈ r.2.2.1 :: r.1, IsFrame q))
      (forkedPage userPageR) = true := by decide +kernel
  obtain ⟨⟨tables, pgd, p, child, s₁, mm, s₃, s₄, s₆⟩, hrun, hr⟩ := exists_ok_of_check hcheck
  obtain ⟨hnodup, hframe⟩ := of_decide_eq_true hr
  obtain ⟨w₁, w₂, w₃, w₄, ⟨hstep₁, hstep₂, hstep₃, hstep₄, hstep₅⟩, -, -, hne, hlook⟩ :=
    steps_of_forkedPage hrun hnodup hframe (by decide)
  have htrace := ((((Trace.single hstep₁).snoc hstep₂).snoc hstep₃).snoc hstep₄).snoc hstep₅
  have hp : IsFrame p := hframe p List.mem_cons_self
  have hgrant : grantsAfter [.construct pgd, .manage, .map pgd 0 p userPageR, .construct child,
      .copyFrom child pgd] child (pathOf 0) = some userPageR := by
    simp only [grantsAfter, List.foldl_cons, List.foldl_nil, Event.grant, update_self,
      update_of_ne hne]
  have hframe' : IsFrame (frame (descriptor p (makeCow userPageR))) := by
    rwa [frame_descriptor hp (by decide)]
  refine ⟨_, _, htrace, fun hrespected => ?_⟩
  refine userStore_ne_of_cow hlook ?_ ?_ (hrespected.rdonly child List.mem_cons_self 0 _ hgrant
    (by decide) 20 1 0)
  · exact has_rdonly_share hframe'
  · exact has_cow_share hframe'

end Valkyrie.VMMap
