import Valkyrie.Base.Trace
import Valkyrie.Kernel.Exception
import Valkyrie.Mm.VirtualMemoryMap.OnePage

/-!
# Independent address spaces

What copy-on-write is for: every task has an address space of its own. The abstract machine of
this file has nothing but that. A space is a function from addresses to bytes
(`Valkyrie.VMMap.Space`); `fork` gives the child the space of its parent, and a store changes one
byte of one space (`Valkyrie.VMMap.Act.apply`). There are no frames in it, no reference counts and
no page faults.

The kernel refines this machine (`Valkyrie.VMMap.load_eq_of_run`). What makes it work is one
invariant about the descriptors of all maps together: a descriptor without `PD_RDONLY` is the
only one that leads to its frame (`Valkyrie.VMMap.Unshared`). So a store that the processor
carries out is seen through the descriptor it went through, and nowhere else.
-/

namespace Valkyrie.VMMap

open Exec MemoryManager

attribute [local irreducible] look occupies holders

/-! ### The abstract machine -/

/-- What a task finds at each address: a byte, or nothing. -/
abbrev Space := ℕ → Option UInt8

/-- Two addresses of the same byte. They are the same but for the bits that no index is taken
from. -/
def SameCell (v v' : ℕ) : Prop := pathOf v' = pathOf v ∧ pageOffset v' = pageOffset v

instance (v v' : ℕ) : Decidable (SameCell v v') := inferInstanceAs (Decidable (_ ∧ _))

/-- What happens to address spaces. A task is named by its `_pgd`. -/
inductive Act where
  /-- A new task with nothing in its space. -/
  | create (pgd : ℕ) : Act
  /-- The task gets a page at an address, with these bytes in it. -/
  | page (pgd v : ℕ) (bytes : ℕ → UInt8) : Act
  /-- A fork. -/
  | fork (child parent : ℕ) : Act
  /-- The task stores a byte. -/
  | store (pgd v : ℕ) (b : UInt8) : Act
  /-- The task gives up all its pages. -/
  | clear (pgd : ℕ) : Act
  /-- Nothing that a task could see. -/
  | silent : Act

/-- **The abstract machine**: the spaces after an act. -/
def Act.apply (spaces : ℕ → Space) : Act → ℕ → Space
  | .create pgd | .clear pgd => Function.update spaces pgd fun _ => none
  | .page pgd v bytes => Function.update spaces pgd fun v' =>
      if pathOf v' = pathOf v then some (bytes (pageOffset v')) else spaces pgd v'
  | .fork child parent => Function.update spaces child (spaces parent)
  | .store pgd v b => Function.update spaces pgd fun v' =>
      if SameCell v v' then some b else spaces pgd v'
  | .silent => spaces

/-- The spaces after a list of acts. -/
def spacesAfter (acts : List Act) : ℕ → Space := acts.foldl Act.apply fun _ _ => none

/-! ### What the kernel does -/

/-- A page of memory is overwritten. -/
def overwritten (p : ℕ) (bytes : ℕ → UInt8) (m : Mem) : Mem := fun a =>
  if p ≤ a ∧ a < p + pageSize then bytes (a - p) else m a

/-- **One step**, with what it is in the abstract machine. A page that was mapped is filled by the
kernel as long as nobody else has it; all other writes of the kernel go to pages that no task
has. -/
inductive SpaceStep : World → Act → World → Prop
  | construct {w w' : World} {pgd : ℕ} (h : Step w (.construct pgd) w') (hpgd : pgd ≠ 0) :
      SpaceStep w (.create pgd) w'
  | constructNull {w w' : World} (h : Step w (.construct 0) w') : SpaceStep w .silent w'
  | map {w w' : World} {pgd v p : ℕ} {attr : Descriptor} (h : Step w (.map pgd v p attr) w') :
      SpaceStep w (.page pgd v fun k => w.s.mem (p + k)) w'
  | fill {w : World} {pgd v : ℕ} {e : Descriptor} (bytes : ℕ → UInt8) (hpgd : pgd ∈ w.maps)
      (hlook : look 3 pgd w.s.mem (pathOf v) = some e) (hone : refCount (frame e) w.s = 1) :
      SpaceStep w (.page pgd v bytes)
        { w with s := { w.s with mem := overwritten (frame e) bytes w.s.mem } }
  | copyFrom {w w' : World} {child parent : ℕ} (h : Step w (.copyFrom child parent) w') :
      SpaceStep w (.fork child parent) w'
  | handlePageFault {w w' : World} {pgd v : ℕ} (h : Step w (.copyPageFrame pgd v) w') :
      SpaceStep w .silent w'
  | userStore {w : World} {pgd v : ℕ} {e : Descriptor} {b : UInt8} {s' : State} (fuel tries : ℕ)
      (hpgd : pgd ∈ w.maps) (hlook : look 3 pgd w.s.mem (pathOf v) = some e)
      (h : userStore fuel pgd v b tries w.s = .ok (true, s')) :
      SpaceStep w (.store pgd v b) { w with s := s' }
  | reset {w w' : World} {pgd : ℕ} (h : Step w (.reset pgd) w') : SpaceStep w (.clear pgd) w'
  | destruct {w w' : World} {pgd : ℕ} (h : Step w (.destruct pgd) w') : SpaceStep w .silent w'
  | write {w w' : World} (h : Step w .write w')
      (hframes : ∀ pgd ∈ w.maps, ∀ path e, look 3 pgd w.s.mem path = some e →
        Agree w.s.mem w'.s.mem (frame e)) : SpaceStep w .silent w'
  | manage {w w' : World} (h : Step w .manage w') : SpaceStep w .silent w'

variable {w w' : World} {s' : State} {ev : Event} {m m' : Mem} {pgd pgd' r p f q v v' fuel : ℕ}
  {e e' attr : Descriptor} {path : Path 3} {b : UInt8}

/-! ### Addresses -/

/-- Where the addresses of user programs end: they have 48 bits. -/
def userEnd : ℕ := 2 ^ 48

/-- An address of a user program is given by its path and its offset. -/
theorem eq_of_sameCell (hv : v < userEnd) (hv' : v' < userEnd) (h : SameCell v v') : v' = v := by
  obtain ⟨hpath, hoff⟩ := h
  simp only [pathOf, pgdIndex, pudIndex, pmdIndex, pteIndex, Prod.mk.injEq, Fin.ext_iff,
    Fin.val_ofNat, Nat.shiftRight_eq_div_pow] at hpath
  simp only [pageOffset, pageSize] at hoff
  simp only [userEnd] at hv hv'
  omega

/-- Every path and every offset are those of an address. -/
theorem exists_address (path : Path 3) {k : ℕ} (hk : k < pageSize) :
    ∃ v < userEnd, pathOf v = path ∧ pageOffset v = k := by
  obtain ⟨a, b, c, d⟩ := path
  have ha := a.isLt
  have hb := b.isLt
  have hc := c.isLt
  have hd := d.isLt
  simp only [pageSize] at hk
  refine ⟨a * 2 ^ 39 + b * 2 ^ 30 + c * 2 ^ 21 + d * 2 ^ 12 + k, ?_, ?_, ?_⟩
  · simp only [userEnd]
    omega
  · simp only [pathOf, pgdIndex, pudIndex, pmdIndex, pteIndex, Prod.mk.injEq, Fin.ext_iff,
      Fin.val_ofNat, Nat.shiftRight_eq_div_pow]
    omega
  · simp only [pageOffset, pageSize]
    omega

/-! ### Descriptors without `PD_RDONLY` -/

/-- **A descriptor without `PD_RDONLY`** is the only one to its frame. -/
abbrev Unshared (w : World) : Prop := Sole (fun e => has pdRdonly e = false) w

theorem Unshared.step (h : Unshared w) (hinv : Inv w) (hstep : Step w ev w') : Unshared w' :=
  Sole.step (fun e hframe => by simp [has_rdonly_share hframe]) h hinv hstep

/-! ### Loads -/

/-- A load depends on one descriptor and on the bytes it leads to. -/
theorem load_congr (hlook : look 3 pgd m' (pathOf v) = look 3 pgd m (pathOf v))
    (hbytes : ∀ e, look 3 pgd m (pathOf v) = some e → Agree m m' (frame e)) :
    load pgd m' v = load pgd m v := by
  rw [load, load, hlook]
  cases hEq : look 3 pgd m (pathOf v) with
  | none => rfl
  | some e => exact congrArg some (hbytes e hEq _ (pageOffset_lt v))

theorem load_eq_some (hlook : look 3 pgd m (pathOf v) = some e) :
    load pgd m v = some (m (frame e + pageOffset v)) := by
  rw [load, hlook, Option.map_some]

theorem load_eq_none (hlook : look 3 pgd m (pathOf v) = none) : load pgd m v = none := by
  rw [load, hlook, Option.map_none]

/-- The bytes of a frame are left alone by the calls on maps. -/
theorem Inv.agree_frame (h : Inv w) (hstep : Step w ev w') (hev : ¬ev.Writes) (hpgd : pgd ∈ w.maps)
    (hlook : look 3 pgd w.s.mem path = some e) : Agree w.s.mem w'.s.mem (frame e) := by
  obtain ⟨-, hlive, -, htable⟩ := h.mapped_frame hpgd hlook
  exact h.step_bytes hstep hev hlive htable

/-- A load through a descriptor that is not overwritten. -/
theorem Inv.load_kept (h : Inv w) (hstep : Step w ev w') (hev : ¬ev.Writes) (hpgd : pgd ∈ w'.maps)
    (hnot : ¬ev.Overwrites pgd (pathOf v)) :
    pgd ∈ w.maps ∧ load pgd w'.s.mem v = load pgd w.s.mem v := by
  obtain ⟨hmem, hkept⟩ := h.step_kept hstep hpgd hnot
  exact ⟨hmem, load_congr hkept fun e hlook => h.agree_frame hstep hev hmem hlook⟩

/-- Two bytes in pages are the same byte only if they are in the same page. -/
theorem eq_of_add_offset {k k' : ℕ} (hp : pageSize ∣ p) (hq : pageSize ∣ q) (hk : k < pageSize)
    (hk' : k' < pageSize) (h : p + k = q + k') : p = q ∧ k = k' := by
  by_cases hEq : p = q
  · exact ⟨hEq, by omega⟩
  · rcases disjoint_of_dvd hq hp hEq with hlt | hlt <;> omega

/-! ### Refinement -/

/-- **The kernel refines the spaces**: what a task loads is what is in its space. -/
structure Refines (spaces : ℕ → Space) (w : World) : Prop where
  inv : Inv w
  unshared : Unshared w
  load : ∀ pgd ∈ w.maps, ∀ v, load pgd w.s.mem v = spaces pgd v

variable {spaces : ℕ → Space}

/-- A step that no task sees. -/
theorem Refines.silent (h : Refines spaces w) (hstep : Step w ev w')
    (hload : ∀ pgd ∈ w'.maps, ∀ v, pgd ∈ w.maps ∧ VMMap.load pgd w'.s.mem v = VMMap.load pgd w.s.mem v) :
    Refines spaces w' :=
  ⟨h.inv.step hstep, h.unshared.step h.inv hstep, fun pgd hpgd v =>
    (hload pgd hpgd v).2.trans (h.load pgd (hload pgd hpgd v).1 v)⟩

/-- A step that changes what one task sees. -/
theorem Refines.update (h : Refines spaces w) (hstep : Step w ev w') {space : Space}
    (hself : ∀ v, VMMap.load pgd w'.s.mem v = space v)
    (hother : ∀ pgd' ∈ w'.maps, pgd' ≠ pgd → ∀ v,
      pgd' ∈ w.maps ∧ VMMap.load pgd' w'.s.mem v = VMMap.load pgd' w.s.mem v) :
    Refines (Function.update spaces pgd space) w' := by
  refine ⟨h.inv.step hstep, h.unshared.step h.inv hstep, fun pgd' hpgd' v => ?_⟩
  by_cases hne : pgd' = pgd
  · subst hne
    rw [Function.update_self, hself]
  · rw [Function.update_of_ne hne, (hother pgd' hpgd' hne v).2, h.load pgd' (hother pgd' hpgd' hne v).1]

theorem Refines.construct (h : Refines spaces w) (hstep : Step w (.construct pgd) w')
    (hpgd : pgd ≠ 0) : Refines ((Act.create pgd).apply spaces) w' := by
  have hin : pgd ∈ w'.maps := by
    cases hstep with | construct _ _ => simp [hpgd]
  refine h.update hstep (fun v => ?_) fun pgd' hpgd' hne v => h.inv.load_kept hstep id hpgd' hne
  have hwritten : Written w w' (pathOf v) _ _ := h.inv.step_written hstep hin rfl
  generalize hx : look 3 pgd w'.s.mem (pathOf v) = x at hwritten
  cases hwritten
  exact load_eq_none hx

theorem Refines.constructNull (h : Refines spaces w) (hstep : Step w (.construct 0) w') :
    Refines spaces w' := by
  refine h.silent hstep fun pgd' hpgd' v => h.inv.load_kept hstep id hpgd' ?_
  rintro rfl
  exact not_isFrame_zero ((h.inv.step hstep).isFrame_pgd hpgd')

theorem Refines.map (h : Refines spaces w) (hstep : Step w (.map pgd v p attr) w') :
    Refines ((Act.page pgd v fun k => w.s.mem (p + k)).apply spaces) w' := by
  refine h.update hstep (fun v' => ?_) fun pgd' hpgd' hne v' =>
    h.inv.load_kept hstep id hpgd' fun hover => hne hover.1
  have hin : pgd ∈ w'.maps := by
    cases hstep with | map _ hpgd _ _ _ => exact hpgd
  split_ifs with hpath
  · have hwritten := h.inv.step_written hstep hin ⟨rfl, hpath⟩
    generalize hx : look 3 pgd w'.s.mem (pathOf v') = x at hwritten
    cases hwritten with | map hp hattr =>
    obtain ⟨hframe, hcount, htable, -⟩ := h.inv.of_others hp
    have hlive : p ∈ w.s.live := List.count_pos_iff.mp (by rw [h.inv.live, hcount]; omega)
    rw [load_eq_some hx, frame_descriptor hframe (isAttr_makeCow hattr).mask,
      h.inv.step_bytes hstep id hlive htable _ (pageOffset_lt v')]
  · obtain ⟨hmem, hload⟩ := h.inv.load_kept hstep id hin (v := v') fun hover => hpath hover.2
    rw [hload, h.load pgd hmem]

theorem Refines.fork (h : Refines spaces w) (hstep : Step w (.copyFrom pgd r) w') :
    Refines ((Act.fork pgd r).apply spaces) w' := by
  have hmaps : r ∈ w.maps ∧ pgd ∈ w'.maps ∧ pgd ≠ r ∧ w'.maps = w.maps := by
    cases hstep with | copyFrom _ hpgd hr hne _ _ => exact ⟨hr, hpgd, hne, rfl⟩
  obtain ⟨hr, hin, hne, hEq⟩ := hmaps
  -- Parent and child find the frames of the parent.
  have hshared : ∀ pgd' ∈ w'.maps, pgd' = pgd ∨ pgd' = r → ∀ v,
      VMMap.load pgd' w'.s.mem v = VMMap.load r w.s.mem v := by
    intro pgd' hpgd' hover v
    have hwritten : Written w w' (pathOf v) _ _ := h.inv.step_written hstep hpgd' hover
    generalize hx : look 3 pgd' w'.s.mem (pathOf v) = x at hwritten
    cases hwritten with | share hr =>
    cases hlook : look 3 r w.s.mem (pathOf v) with
    | none =>
      rw [hlook] at hx
      rw [load_eq_none hx, load_eq_none hlook]
    | some e =>
      rw [hlook] at hx
      rw [load_eq_some hx, load_eq_some hlook, frame_share (h.inv.mapped_frame hr hlook).1,
        h.inv.agree_frame hstep id hr hlook _ (pageOffset_lt v)]
  refine h.update hstep (fun v => ?_) fun pgd' hpgd' hne' v => ?_
  · rw [hshared pgd hin (Or.inl rfl), h.load r hr]
  · by_cases hparent : pgd' = r
    · subst hparent
      exact ⟨hr, hshared pgd' hpgd' (Or.inr rfl) v⟩
    · exact h.inv.load_kept hstep id hpgd' fun hover => hover.elim hne' hparent

theorem Refines.handlePageFault (h : Refines spaces w) (hstep : Step w (.copyPageFrame pgd v) w') :
    Refines spaces w' := by
  refine h.silent hstep fun pgd' hpgd' v' => ?_
  by_cases hover : pgd' = pgd ∧ pathOf v' = pathOf v
  · have hwritten := h.inv.step_written hstep hpgd' hover
    obtain ⟨rfl, hpath⟩ := hover
    generalize hx : look 3 pgd' w'.s.mem (pathOf v') = x at hwritten
    cases hwritten with
    | unshare hpgd hlook _ _ hbytes =>
      rw [load_eq_some hx, load_eq_some hlook, frame_unshare, hbytes _ (pageOffset_lt v')]
      exact ⟨hpgd, rfl⟩
    | ownCopy hpgd hlook _ _ hp _ hbytes =>
      rw [load_eq_some hx, load_eq_some hlook, frame_ownCopy hp, hbytes _ (pageOffset_lt v')]
      exact ⟨hpgd, rfl⟩
  · exact h.inv.load_kept hstep id hpgd' hover

/-- **A write to one frame** that one descriptor leads to is seen at one page of one task. -/
theorem Refines.written (h : Refines spaces w) (hstep : Step w ev w')
    (hev : ∀ pgd path, ¬ev.Overwrites pgd path) (hpgd : pgd ∈ w.maps)
    (hlook : look 3 pgd w.s.mem (pathOf v) = some e)
    (hone : ∀ {pgd' path' e'}, pgd' ∈ w.maps → look 3 pgd' w.s.mem path' = some e' →
      frame e' = frame e → pgd' = pgd ∧ path' = pathOf v)
    (hout : ∀ q, pageSize ∣ q → q ≠ frame e → Agree w.s.mem w'.s.mem q) {space : Space}
    (hin : ∀ v', pathOf v' = pathOf v → some (w'.s.mem (frame e + pageOffset v')) = space v')
    (hrest : ∀ v', pathOf v' ≠ pathOf v → spaces pgd v' = space v') :
    Refines (Function.update spaces pgd space) w' := by
  have hkept : ∀ pgd' ∈ w'.maps, ∀ v', (pgd' ≠ pgd ∨ pathOf v' ≠ pathOf v) →
      pgd' ∈ w.maps ∧ VMMap.load pgd' w'.s.mem v' = VMMap.load pgd' w.s.mem v' := by
    intro pgd' hpgd' v' hplace
    obtain ⟨hmem, hkept⟩ := h.inv.step_kept hstep hpgd' (hev pgd' (pathOf v'))
    refine ⟨hmem, load_congr hkept fun e' hlook' => ?_⟩
    refine hout _ (h.inv.mapped_frame hmem hlook').1.bounds.2.2 fun hframe => ?_
    obtain ⟨rfl, hpath⟩ := hone hmem hlook' hframe
    exact hplace.elim (absurd rfl) (absurd hpath)
  have hpgd' : pgd ∈ w'.maps := by
    cases hstep with
    | construct _ _ => exact absurd rfl (hev _ (pathOf v))
    | destruct _ _ _ => exact absurd rfl (hev _ (pathOf v))
    | _ => exact hpgd
  refine h.update hstep (fun v' => ?_) fun pgd' hin' hne v' => hkept pgd' hin' v' (Or.inl hne)
  by_cases hpath : pathOf v' = pathOf v
  · have hlook' : look 3 pgd w'.s.mem (pathOf v') = some e := by
      rw [(h.inv.step_kept hstep hpgd' (hev pgd _)).2, hpath, hlook]
    rw [load_eq_some hlook', hin v' hpath]
  · rw [(hkept pgd hpgd' v' (Or.inr hpath)).2, h.load pgd hpgd, hrest v' hpath]

theorem Refines.store (h : Refines spaces w) (hstep : Step w (.store pgd v b) w') :
    Refines ((Act.store pgd v b).apply spaces) w' := by
  cases hstep with | store _ hpgd hlook hwrite =>
  have hstep := Step.store b hpgd hlook hwrite
  have hframe := (h.inv.mapped_frame hpgd hlook).1
  refine h.written hstep (fun _ _ => id) hpgd hlook
    (fun hmem' hlook' => h.unshared hpgd hlook hwrite hmem' hlook') (fun q hq hne k hk => ?_)
    (fun v' hpath => ?_) fun v' hpath => ?_
  · refine Function.update_of_ne (fun hEq => hne ?_) _ _
    exact (eq_of_add_offset hq hframe.bounds.2.2 hk (pageOffset_lt v) hEq).1
  · dsimp only
    rw [Function.update_apply]
    by_cases hoff : pageOffset v' = pageOffset v
    · have hcell : SameCell v v' := ⟨hpath, hoff⟩
      rw [if_pos (by rw [hoff]), if_pos hcell]
    · have hcell : ¬SameCell v v' := fun hcell => hoff hcell.2
      have hlook' := hpath ▸ hlook
      rw [if_neg (by omega), if_neg hcell, ← h.load pgd hpgd, load_eq_some hlook']
  · have hcell : ¬SameCell v v' := fun hcell => hpath hcell.1
    exact (if_neg hcell).symm

theorem agree_overwritten (hp : pageSize ∣ p) (hq : pageSize ∣ q) (hne : q ≠ p)
    (bytes : ℕ → UInt8) : Agree m (overwritten p bytes m) q := by
  intro k hk
  have hdis := disjoint_of_dvd hp hq hne
  exact if_neg (by omega)

/-- A frame is no page table, so the kernel may write to it. -/
theorem Inv.step_overwritten (h : Inv w) (hpgd : pgd ∈ w.maps)
    (hlook : look 3 pgd w.s.mem path = some e) (bytes : ℕ → UInt8) :
    Step w .write { w with s := { w.s with mem := overwritten (frame e) bytes w.s.mem } } := by
  refine .write fun pgd' hpgd' q hq => agree_overwritten (h.mapped_frame hpgd hlook).1.bounds.2.2
    (h.owned.dvd ((h.tables hpgd').mem q hq)) ?_ bytes
  rintro rfl
  exact hq.ne' (h.mapped_not_table hpgd hlook hpgd')

theorem Refines.fill (h : Refines spaces w) (bytes : ℕ → UInt8) (hpgd : pgd ∈ w.maps)
    (hlook : look 3 pgd w.s.mem (pathOf v) = some e) (hone : refCount (frame e) w.s = 1) :
    Refines ((Act.page pgd v bytes).apply spaces)
      { w with s := { w.s with mem := overwritten (frame e) bytes w.s.mem } } := by
  have hframe := (h.inv.mapped_frame hpgd hlook).1
  rw [h.inv.refs _ hframe] at hone
  refine h.written (h.inv.step_overwritten hpgd hlook bytes) (fun _ _ => id) hpgd hlook
    (fun hmem' hlook' => eq_of_ptesOf_le_one (by omega) hpgd hmem' hlook hlook')
    (fun q hq hne => agree_overwritten hframe.bounds.2.2 hq hne bytes) (fun v' hpath => ?_)
    fun v' hpath => ?_
  · have hoff := pageOffset_lt v'
    dsimp only
    rw [if_pos hpath, overwritten, if_pos (by omega), Nat.add_sub_cancel_left]
  · exact (if_neg hpath).symm

theorem Refines.reset (h : Refines spaces w) (hstep : Step w (.reset pgd) w') :
    Refines ((Act.clear pgd).apply spaces) w' := by
  have hin : pgd ∈ w'.maps := by
    cases hstep with | reset _ hpgd _ => exact hpgd
  refine h.update hstep (fun v => ?_) fun pgd' hpgd' hne v => h.inv.load_kept hstep id hpgd' hne
  have hwritten : Written w w' (pathOf v) _ _ := h.inv.step_written hstep hin rfl
  generalize hx : look 3 pgd w'.s.mem (pathOf v) = x at hwritten
  cases hwritten
  exact load_eq_none hx

/-- **One step** of the kernel is one step of the abstract machine. -/
theorem Refines.step {act : Act} (h : Refines spaces w) (hstep : SpaceStep w act w') :
    Refines (act.apply spaces) w' := by
  cases hstep with
  | construct hstep hpgd => exact h.construct hstep hpgd
  | constructNull hstep => exact h.constructNull hstep
  | map hstep => exact h.map hstep
  | fill bytes hpgd hlook hone => exact h.fill bytes hpgd hlook hone
  | copyFrom hstep => exact h.fork hstep
  | handlePageFault hstep => exact h.handlePageFault hstep
  | userStore fuel tries hpgd hlook hcall =>
    obtain ⟨s₁, hfault, hstore⟩ := h.inv.userStore hpgd hlook hcall
    have h₁ : Refines spaces { w with s := s₁ } := by
      rcases hfault with rfl | hfault
      · exact h
      · exact h.handlePageFault hfault
    exact h₁.store hstore
  | reset hstep => exact h.reset hstep
  | destruct hstep =>
    refine h.silent hstep fun pgd' hpgd' v => h.inv.load_kept hstep id hpgd' ?_
    rintro rfl
    cases hstep with | destruct _ _ _ => exact h.inv.nodup_maps.not_mem_erase hpgd'
  | write hstep hframes =>
    refine h.silent hstep fun pgd hpgd v => ?_
    obtain ⟨hmem, hkept⟩ : _ ∧ look 3 pgd _ (pathOf v) = _ := h.inv.step_kept hstep hpgd id
    exact ⟨hmem, load_congr hkept fun e hlook => hframes pgd hmem _ e hlook⟩
  | manage hstep => exact h.silent hstep fun pgd hpgd v => h.inv.load_kept hstep id hpgd id

theorem refines_init (next : ℕ → Option ℕ) (index prevChunkSize : ℕ → ℤ) (mem : Mem) :
    Refines (fun _ _ => none) (World.init next index prevChunkSize mem) :=
  ⟨inv_init next index prevChunkSize mem, fun _ _ _ _ _ _ hpgd => absurd hpgd List.not_mem_nil,
    fun _ hpgd => absurd hpgd List.not_mem_nil⟩

/-- **A run refines** what its acts make of the address spaces. -/
theorem refines_of_trace {next : ℕ → Option ℕ} {index prevChunkSize : ℕ → ℤ} {mem : Mem}
    {acts : List Act} (h : Trace SpaceStep (World.init next index prevChunkSize mem) acts w) :
    Refines (spacesAfter acts) w :=
  h.simulates (R := Refines) (refines_init next index prevChunkSize mem) fun h => h.step

/-- **Copy-on-write gives every task an address space of its own.** In every run, with any number
of tasks, what a task loads is what is in its space of the abstract machine: the byte that it
stored there last, or else what its parent had there at the fork, or else what the page had in it
when it was mapped. And a store of one task changes no load of another. -/
theorem load_eq_of_run {next : ℕ → Option ℕ} {index prevChunkSize : ℕ → ℤ} {mem : Mem}
    {acts : List Act} (h : Trace SpaceStep (World.init next index prevChunkSize mem) acts w) :
    (∀ pgd ∈ w.maps, ∀ v, load pgd w.s.mem v = spacesAfter acts pgd v) ∧
      ∀ pgd v b w', SpaceStep w (.store pgd v b) w' →
        ∀ pgd' ∈ w.maps, pgd' ≠ pgd → ∀ v', load pgd' w'.s.mem v' = load pgd' w.s.mem v' := by
  have hrefines := refines_of_trace h
  refine ⟨hrefines.load, fun pgd v b w' hstep pgd' hpgd' hne v' => ?_⟩
  have hmaps : w'.maps = w.maps := by
    cases hstep
    rfl
  rw [(hrefines.step hstep).load pgd' (hmaps ▸ hpgd'), hrefines.load pgd' hpgd']
  exact congrFun (Function.update_of_ne hne _ _) v'

/-- A child stores a byte to the page that it shares with its parent since the fork, and the parent
still finds there what it had. -/
theorem load_eq_of_run_fork : ∃ acts w pgd child, Trace SpaceStep World.zero acts w ∧
    pgd ∈ w.maps ∧ child ∈ w.maps ∧ load child w.s.mem 5 = some 1 ∧ load pgd w.s.mem 5 = some 0 := by
  have hcheck : check (fun r => decide (r.1.1.Nodup ∧ (∀ q ∈ r.1.2.2.1 :: r.1.1, IsFrame q) ∧
      r.2.1 = true ∧ load r.1.2.1 r.1.2.2.2.2.2.2.2.2.mem 5 = some 0)) (do
        let r ← forkedPage userPageRW
        return (r, ← userStore 20 r.2.2.2.1 5 1 2 r.2.2.2.2.2.2.2.2)) = true := by decide +kernel
  obtain ⟨⟨⟨tables, pgd, p, child, s₁, mm, s₃, s₄, s₆⟩, handled, s₇⟩, hrun, hr⟩ :=
    exists_ok_of_check hcheck
  obtain ⟨r, hfork, hrun⟩ := bind_eq_ok.mp hrun
  obtain ⟨r', hcall, hrun⟩ := bind_eq_ok.mp hrun
  cases pure_eq_ok.mp hrun
  obtain ⟨hnodup, hframe, rfl, hload⟩ := of_decide_eq_true hr
  obtain ⟨w₁, w₂, w₃, w₄, ⟨hstep₁, hstep₂, hstep₃, hstep₄, hstep₅⟩, hpgd, hchild, hne, hlook⟩ :=
    steps_of_forkedPage hfork hnodup hframe (by decide)
  have htrace := ((((Trace.single (SpaceStep.construct hstep₁ hpgd)).snoc (.manage hstep₂)).snoc
    (.map hstep₃)).snoc (.construct hstep₄ hchild)).snoc (.copyFrom hstep₅)
  have hmem : child ∈ [child, pgd] := List.mem_cons_self
  have hmem' : pgd ∈ [child, pgd] := List.mem_cons_of_mem child (List.mem_singleton_self pgd)
  have hstore : SpaceStep ⟨s₆, [], [], [child, pgd]⟩ (.store child 5 1) ⟨s₇, [], [], [child, pgd]⟩ :=
    .userStore 20 2 hmem (v := 5) hlook hcall
  refine ⟨_, _, pgd, child, htrace.snoc hstore, hmem', hmem, ?_, ?_⟩
  · rw [(load_eq_of_run (htrace.snoc hstore)).1 child hmem]
    have hcell : SameCell 5 5 := ⟨rfl, rfl⟩
    exact (congrFun (Function.update_self child _ _) 5).trans (if_pos hcell)
  · rw [(load_eq_of_run htrace).2 child 5 1 _ hstore pgd hmem' hne]
    exact hload

end Valkyrie.VMMap
