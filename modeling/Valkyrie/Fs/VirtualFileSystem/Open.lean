import Valkyrie.Fs.VirtualFileSystem.OpenFiles

/-!
# What `open` returns

`open` looks a path up, and then searches the table of opened files for the vnode it has
found. A path that leads nowhere gives a null vnode, and the search is made all the same. A
`create` that fails gives a null vnode as well, and a `File` is made for it all the same,
which goes to the table. It is what the next path that leads nowhere finds there.

So `open` does what it shall (`Valkyrie.Vfs.OpensCleanly`) as long as the table holds no file
without a vnode, and a file that shall be created can be created. Before that the lookup has to
come to an end. It does not when the path asks for the parent of the root of a TmpFS that is the
root file system, since that one is mounted on itself; and a file that shall be created in a
ProcFS makes the kernel abort.
-/

namespace Valkyrie.Vfs

open Exec

variable {env : Env} {fuel task held f : ℕ} {pathname : Name} {options : ℕ} {s s' : State}
  {w : Option ℕ} {call : Call}

/-! ### The table, after any calls -/

theorem Good.exec (h : Good s) (henv : env.OnDisk) (hmay : MayResolve task pathname s) :
    Ensures (exec env fuel task pathname s) fun r => Good r.2 ∧ Grown s r.2 := by
  rw [Vfs.exec]
  refine (h.openFile henv hmay 0).bind ?_
  rintro ⟨file, s'⟩ ⟨h', hgrown⟩
  replace h' : Good s' := h'
  dsimp only
  split
  · exact ensures_pure ⟨h', hgrown⟩
  · refine ensures_bind fun file _ => ?_
    split
    · exact ensures_error _
    · refine ensures_bind fun vnode _ => ensures_bind fun segments _ => ?_
      split_ifs
      · refine (h'.loadElfBinary henv segments).bind fun s₁ h₁ => ?_
        exact (h₁.good.closeWith 1 _).bind fun r hr =>
          ensures_pure (hr.imp_right (hgrown.trans h₁.toGrown).trans)
      · exact ensures_pure ⟨h', hgrown⟩

/-- **Every call** keeps the vnodes and the files sound, and puts what is new at new addresses. -/
theorem Good.event (h : Good s) (hevent : Event call s s') : Good s' ∧ Grown s s' := by
  cases hevent with
  | other hstep _ => exact h.step hstep
  | newTask hnew hx => exact h.step (.newTask _ hnew hx)
  | fork htask hnew hx => exact h.step (.fork _ _ htask hnew hx)
  | «open» henv htask hx => exact h.step (.open henv _ _ _ (Or.inr htask) _ hx)
  | close hx => exact h.step (.close _ _ hx)
  | exec henv htask hx => exact h.exec henv (Or.inr htask) _ hx
  | exit hx =>
    refine ensures_foldlM (I := fun _ s' => Good s' ∧ Grown s s') (fun fd _ s₁ h₁ => ?_)
      unclosed s ⟨h, Grown.rfl⟩ _ hx
    split_ifs
    · exact (h₁.1.sysClose _ fd).bind fun r hr => ensures_pure (hr.imp_right h₁.2.trans)
    · exact ensures_pure h₁
  | reap _ =>
    refine ⟨⟨fun v vnode hv => (h.vnodes v vnode hv).mono State.Grows.rfl, h.files, h.mounts,
      fun task' htask' => h.cwd task' ?_⟩, grown_with (List.Subset.refl _) _⟩
    exact ((mem_live_foldl_remove _).mp htask').1

/-- The files in the table are there. -/
theorem opened_of_run (hrun : Run CallStep init s) :
    Good s ∧ ∀ f ∈ s.openedFiles, f < s.next ∧ (s.files f).isSome := by
  refine hrun.invariant (P := fun s => Good s ∧ ∀ f ∈ s.openedFiles, f < s.next ∧ (s.files f).isSome)
    ⟨good_init, fun f hf => by cases hf⟩ ?_
  rintro s s' ⟨hgood, hopened⟩ ⟨call, hevent⟩
  obtain ⟨hgood', hgrown⟩ := hgood.event hevent
  refine ⟨hgood', fun f hf => (hgrown.opened f hf).elim (fun hold => ?_) id⟩
  obtain ⟨hlt, hsome⟩ := hopened f hold
  exact ⟨hlt.trans_le hgrown.next, (hgrown.isSome hlt).trans hsome⟩

/-! ### What `open` shall return -/

/-- The vnode that `open` shall open, if any: the one that the path leads to, or else the one
that `create` makes. -/
def openTarget (env : Env) (fuel task : ℕ) (pathname : Name) (options : ℕ) (s : State) :
    Exec (Option ℕ) := do
  let (target, _, _, s) ← resolvePath env fuel task pathname s
  match target with
  | some v => return some v
  | none =>
    if options &&& oCreat = 0 then return none
    else return (← create env fuel task pathname [] sIfreg s).1

/-- **`open` reports failure cleanly**: it returns, and it returns a file of the vnode there shall
be; and if there shall be none it returns null, and leaves the table alone. -/
def OpensCleanly (env : Env) (fuel task : ℕ) (pathname : Name) (options : ℕ) (s : State) : Prop :=
  ∃ file s', openFile env fuel task pathname options s = .ok (file, s') ∧
    ((∃ v f, openTarget env fuel task pathname options s = .ok (some v) ∧ file = some f ∧
      s'.fileVnode f = some (some v)) ∨
    (openTarget env fuel task pathname options s = .ok none ∧ file = none ∧
      s'.openedFiles = s.openedFiles))

/-- The path leads to a vnode. -/
def Resolves (env : Env) (fuel task : ℕ) (pathname : Name) (s : State) : Prop :=
  ∃ v parent basename s₁,
    resolvePath env fuel task pathname s = .ok (some v, parent, basename, s₁)

/-- The path is looked up, and leads nowhere. -/
def LeadsNowhere (env : Env) (fuel task : ℕ) (pathname : Name) (s : State) : Prop :=
  ∃ parent basename s₁, resolvePath env fuel task pathname s = .ok (none, parent, basename, s₁)

/-- A file that is looked up, and then created, is created. -/
def Creatable (env : Env) (fuel task : ℕ) (pathname : Name) (s : State) : Prop :=
  ∃ target parent basename s₁ v s₂,
    resolvePath env fuel task pathname s = .ok (target, parent, basename, s₁) ∧
      create env fuel task pathname [] sIfreg s₁ = .ok (some v, s₂)

/-- A file is returned where there should be none. -/
theorem not_opensCleanly (hopen : openFile env fuel task pathname options s = .ok (some f, s'))
    (htarget : openTarget env fuel task pathname options s = .ok none) :
    ¬OpensCleanly env fuel task pathname options s := by
  rintro ⟨file, s'', hopen', ⟨v, f', hv, -⟩ | ⟨-, rfl, -⟩⟩
  · cases htarget.symm.trans hv
  · cases hopen.symm.trans hopen'

section Lookup

variable {v : ℕ} {parent : Option ℕ} {basename : Name} {s₁ : State}

/-- What is found in the table after the lookup. -/
theorem findOpened_of_lookup (hrun : Run CallStep init s) (henv : env.OnDisk)
    (hmay : MayResolve task pathname s)
    (hresolve : resolvePath env fuel task pathname s = .ok (w, parent, basename, s₁)) :
    s₁.openedFiles = s.openedFiles ∧ (∀ f, s₁.fileVnode f = s.fileVnode f) ∧
      findOpened w s₁ = .ok (s.openedFiles.find? fun f => s.fileVnode f = some w) := by
  obtain ⟨hgood, hopened⟩ := opened_of_run hrun
  have hleaves : Leaves s s₁ w := (hgood.resolvePath henv hmay _ hresolve).1
  have hvnode : ∀ f, s₁.fileVnode f = s.fileVnode f := fun f => by
    rw [State.fileVnode, State.fileVnode, hleaves.files]
  have hfind := findOpened_eq (s := s₁) (fun f hf => by
    rw [hleaves.files]
    exact (hopened f (hleaves.openedFiles ▸ hf)).2) w
  simp only [hvnode, hleaves.openedFiles] at hfind
  exact ⟨hleaves.openedFiles, hvnode, hfind⟩

/-- A path that leads to a vnode is opened. -/
theorem opensCleanly_of_resolves (hrun : Run CallStep init s) (henv : env.OnDisk)
    (hmay : MayResolve task pathname s)
    (hresolve : resolvePath env fuel task pathname s = .ok (some v, parent, basename, s₁)) :
    OpensCleanly env fuel task pathname options s := by
  obtain ⟨-, hvnode, hfind⟩ := findOpened_of_lookup hrun henv hmay hresolve
  have htarget : openTarget env fuel task pathname options s = .ok (some v) := by
    rw [openTarget, hresolve]
    rfl
  rcases hsearch : s.openedFiles.find? fun f => s.fileVnode f = some (some v) with _ | f
  · refine ⟨_, (s₁.newFile ⟨some v, 0, options⟩).2, ?_,
      Or.inl ⟨v, _, htarget, rfl, State.fileVnode_newFile ⟨some v, 0, options⟩ s₁⟩⟩
    simp only [openFile, hresolve, ok_bind, hfind, hsearch]
    rfl
  · have hw := of_decide_eq_true (List.find?_some (p := fun f => decide (_ = _)) hsearch)
    refine ⟨_, s₁, ?_, Or.inl ⟨v, f, htarget, rfl, (hvnode f).trans hw⟩⟩
    simp only [openFile, hresolve, ok_bind, hfind, hsearch]
    rfl

/-- A path that leads nowhere: the search of the table has to fail, and `create` to succeed. -/
theorem opensCleanly_iff_of_nowhere (hrun : Run CallStep init s) (henv : env.OnDisk)
    (hmay : MayResolve task pathname s)
    (hresolve : resolvePath env fuel task pathname s = .ok (none, parent, basename, s₁)) :
    OpensCleanly env fuel task pathname options s ↔
      (∀ f ∈ s.openedFiles, s.fileVnode f ≠ some none) ∧ (options &&& oCreat = 0 ∨
        ∃ v s₂, create env fuel task pathname [] sIfreg s₁ = .ok (some v, s₂)) := by
  obtain ⟨hfiles, hvnode, hfind⟩ := findOpened_of_lookup hrun henv hmay hresolve
  rcases hsearch : s.openedFiles.find? fun f => s.fileVnode f = some none with _ | f
  · have hnone : ∀ f ∈ s.openedFiles, s.fileVnode f ≠ some none := fun f hf hw =>
      List.find?_eq_none.mp hsearch f hf (decide_eq_true hw)
    rw [and_iff_right hnone]
    by_cases hopt : options &&& oCreat = 0
    · refine iff_of_true ⟨none, s₁, ?_, Or.inr ⟨?_, rfl, hfiles⟩⟩ (Or.inl hopt)
      · simp only [openFile, hresolve, ok_bind, hfind, hsearch, if_pos hopt]
        rfl
      · simp only [openTarget, hresolve, ok_bind, if_pos hopt]
        rfl
    · rw [or_iff_right hopt]
      rcases hcreate : create env fuel task pathname [] sIfreg s₁ with e | ⟨w, s₂⟩
      · refine iff_of_false ?_ (by rintro ⟨v, s₂, h⟩; cases h)
        rintro ⟨file, s', hopen, -⟩
        simp only [openFile, hresolve, ok_bind, hfind, hsearch, if_neg hopt, hcreate] at hopen
        cases hopen
      · have hopen : openFile env fuel task pathname options s =
            .ok (some s₂.next, (s₂.newFile ⟨w, 0, options⟩).2) := by
          simp only [openFile, hresolve, ok_bind, hfind, hsearch, if_neg hopt, hcreate]
          rfl
        have htarget : openTarget env fuel task pathname options s = .ok w := by
          simp only [openTarget, hresolve, ok_bind, if_neg hopt, hcreate]
          rfl
        cases w with
        | some v =>
          exact iff_of_true ⟨_, _, hopen, Or.inl ⟨v, _, htarget, rfl,
            State.fileVnode_newFile ⟨some v, 0, options⟩ s₂⟩⟩ ⟨v, s₂, rfl⟩
        | none => exact iff_of_false (not_opensCleanly hopen htarget) (by rintro ⟨v, s₂, h⟩; cases h)
  · -- The file in the table is one of a `create` that failed.
    have hw := of_decide_eq_true (List.find?_some (p := fun f => decide (_ = _)) hsearch)
    refine iff_of_false ?_ fun h => h.1 f (List.mem_of_find?_eq_some hsearch) hw
    have hopen : openFile env fuel task pathname options s = .ok (some f, s₁) := by
      simp only [openFile, hresolve, ok_bind, hfind, hsearch]
      rfl
    rintro ⟨file, s', hopen', ⟨v, f', -, rfl, hv⟩ | ⟨-, rfl, -⟩⟩
    · cases hopen.symm.trans hopen'
      rw [hvnode, hw] at hv
      cases hv
    · cases hopen.symm.trans hopen'

end Lookup

end Valkyrie.Vfs
