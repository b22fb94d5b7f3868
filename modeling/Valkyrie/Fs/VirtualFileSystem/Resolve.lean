import Valkyrie.Fs.VirtualFileSystem.Read
import Valkyrie.Lib.Split

/-!
# Path resolution

`resolve_path` has three exits: for a path without components, for one with a single component,
and for the others after a loop, which counts the components to know which of the vnodes is the
parent. They all do the same (`Valkyrie.Vfs.resolve_eq_fold`): a path is resolved by going from
one vnode to the next, component by component, and the parent is where all but the last component
lead. In `Valkyrie.Vfs.resolvePath` the last two exits are one
(`Valkyrie.Vfs.resolve_eq_resolvePath`). The heap is taken to serve and to free the strings and the
nodes of the components, however many there are.
-/

namespace Valkyrie

namespace CxxString

theorem length_parts_le (delimiter : UInt8) (s : List UInt8) :
    (parts delimiter s).length ≤ s.length + 1 := by
  refine (List.length_filter_le _ _).trans ?_
  rw [List.splitOn]
  induction s with
  | nil => exact le_rfl
  | cons c s ih =>
    rw [List.splitOnP_cons_eq_if_modifyHead]
    split_ifs
    · exact Nat.succ_le_succ ih
    · rw [List.length_modifyHead]
      exact ih.trans (Nat.le_succ _)

end CxxString

namespace Vfs

open Exec

variable {env : Env} {fuel task : ℕ} {pathname : Name} {s : State}

/-! ### The three exits -/

/-- The loop of `resolve_path`, over the components from an index on: the vnode, and what
`out_parent` points to. -/
def resolveLoop (env : Env) (fuel size : ℕ) :
    List Name → ℕ → ℕ → Option ℕ → State → Exec (Option ℕ × Option ℕ × State)
  | [], _, vnode, outParent, s => return (some vnode, outParent, s)
  | it :: rest, index, vnode, outParent, s => do
    let outParent := if index = subSize size 1 then some vnode else outParent
    let (child, s) ← getChild env fuel vnode it s
    match ← getMountedVnodeOrHostVnode child s with
    | none => return (none, outParent, s)
    | some child => resolveLoop env fuel size rest (index + 1) child outParent s

/-- `resolve_path`, for what `out_parent` and `out_basename` point to before the call: the vnode,
and what they point to afterwards. -/
def resolve (env : Env) (fuel task : ℕ) (pathname : Name) (outParent : Option ℕ)
    (outBasename : Name) (s : State) : Exec (Option ℕ × Option ℕ × Name × State) := do
  if pathname = dot then
    return (some (s.cwd task), outParent, outBasename, s)
  let components := CxxString.split slash 0 pathname
  if components = [] then
    return (some (← rootVnode s), none, [], s)
  let absolute := pathname.head? = some slash
  let root ← (if absolute then rootVnode s else pure (s.cwd task) : Exec ℕ)
  if components.length = 1 then
    let (child, s) ← getChild env fuel root (components.headD []) s
    return (← getMountedVnodeOrHostVnode child s, some root, components.headD [], s)
  let (vnode, outParent, s) ← resolveLoop env fuel components.length components 0 root outParent s
  return (vnode, outParent, components.getLastD [], s)

/-! ### The fold -/

/-- The components of a path. -/
def components (pathname : Name) : List Name := CxxString.parts slash pathname

/-- From a vnode to the next one, if there is one. -/
def lookupStep (env : Env) (fuel : ℕ) (r : Option ℕ × State) (name : Name) :
    Exec (Option ℕ × State) :=
  match r.1 with
  | none => return (none, r.2)
  | some v => do
    let (child, s) ← getChild env fuel v name r.2
    return (← getMountedVnodeOrHostVnode child s, s)

/-- Where a path starts. -/
def startVnode (task : ℕ) (pathname : Name) (s : State) : Exec ℕ :=
  if pathname.head? = some slash ∨ components pathname = [] then rootVnode s
  else pure (s.cwd task)

/-- **A path is resolved by a fold** over its components. The parent is what all but the last one
lead to; if they lead nowhere, or if there is no component, it is what is given for that case. -/
def resolveFold (env : Env) (fuel task : ℕ) (pathname : Name) (outParent : Option ℕ) (s : State) :
    Exec (Option ℕ × Option ℕ × Name × State) := do
  let start ← startVnode task pathname s
  let (vnode, s') ← (components pathname).foldlM (lookupStep env fuel) (some start, s)
  if components pathname = [] then
    return (vnode, none, [], s')
  let (parent, _) ← (components pathname).dropLast.foldlM (lookupStep env fuel) (some start, s)
  return (vnode, parent.or outParent, (components pathname).getLastD [], s')

/-- From nowhere, nowhere is reached. -/
theorem foldlM_lookupStep_none (names : List Name) :
    names.foldlM (lookupStep env fuel) (none, s) = .ok (none, s) := by
  induction names with
  | nil => rfl
  | cons name names ih => exact ih

/-- The fold over the components from an index on, and what the loop leaves of the parent. -/
def foldFrom (env : Env) (fuel : ℕ) (names : List Name) (v : ℕ) (outParent : Option ℕ) (s : State) :
    Exec (Option ℕ × Option ℕ × State) := do
  let (vnode, s') ← names.foldlM (lookupStep env fuel) (some v, s)
  let (parent, _) ← names.dropLast.foldlM (lookupStep env fuel) (some v, s)
  return (vnode, parent.or outParent, s')

theorem foldFrom_singleton (name : Name) (v : ℕ) (outParent : Option ℕ) (s : State) :
    foldFrom env fuel [name] v outParent s = do
      let (child, s) ← getChild env fuel v name s
      return (← getMountedVnodeOrHostVnode child s, some v, s) := by
  rw [foldFrom, List.foldlM_cons, lookupStep]
  dsimp only
  rcases getChild env fuel v name s with e | ⟨child, s₁⟩
  · rfl
  rcases hmount : getMountedVnodeOrHostVnode child s₁ with e | w
  · simp only [ok_bind, hmount]
    rfl
  · simp only [ok_bind, hmount]
    rfl

theorem foldFrom_cons (name : Name) {names : List Name} (hne : names ≠ []) (v : ℕ)
    (outParent : Option ℕ) (s : State) :
    foldFrom env fuel (name :: names) v outParent s = (do
      let (child, s) ← getChild env fuel v name s
      match ← getMountedVnodeOrHostVnode child s with
      | none => return (none, outParent, s)
      | some child => foldFrom env fuel names child outParent s) := by
  rw [foldFrom, List.dropLast_cons_of_ne_nil hne]
  simp only [List.foldlM_cons, lookupStep]
  rcases getChild env fuel v name s with e | ⟨child, s₁⟩
  · rfl
  rcases hmount : getMountedVnodeOrHostVnode child s₁ with e | w
  · simp only [ok_bind, hmount]
    rfl
  · cases w with
    | none =>
      simp only [ok_bind, hmount]
      change (List.foldlM (lookupStep env fuel) (none, s₁) names >>= fun x => _) = _
      rw [foldlM_lookupStep_none, ok_bind]
      dsimp only
      change (List.foldlM (lookupStep env fuel) (none, s₁) names.dropLast >>= fun x => _) = _
      rw [foldlM_lookupStep_none]
      rfl
    | some w =>
      simp only [ok_bind, hmount]
      rfl

/-- **The loop is the fold**, whatever the index starts with. -/
theorem resolveLoop_eq_fold {size : ℕ} (hsize : size < sizeMod) (names : List Name) :
    ∀ {index v : ℕ} {outParent : Option ℕ} {s : State}, names ≠ [] → index + names.length = size →
      resolveLoop env fuel size names index v outParent s =
        foldFrom env fuel names v outParent s := by
  induction names with
  | nil => exact fun hne => absurd rfl hne
  | cons name names ih =>
    intro index v outParent s _ hindex
    rw [List.length_cons] at hindex
    rw [resolveLoop, subSize_of_le (by omega) hsize]
    by_cases hnames : names = []
    · subst hnames
      rw [if_pos (by rw [List.length_nil] at hindex; omega), foldFrom_singleton]
      rcases getChild env fuel v name s with e | ⟨child, s₁⟩
      · rfl
      simp only [ok_bind]
      rcases getMountedVnodeOrHostVnode child s₁ with e | w
      · rfl
      · cases w with
        | none => rfl
        | some w => rfl
    · have hlength : names.length ≠ 0 := fun h => hnames (List.length_eq_zero_iff.mp h)
      rw [if_neg (by omega), foldFrom_cons name hnames]
      refine bind_congr fun r => bind_congr fun w => ?_
      cases w with
      | none => rfl
      | some w => exact ih hnames (by omega)

/-- The exits with and without components. -/
theorem resolveFold_eq (env : Env) (fuel task : ℕ) (pathname : Name) (outParent : Option ℕ)
    (s : State) : resolveFold env fuel task pathname outParent s =
      if components pathname = [] then do return (some (← rootVnode s), none, [], s)
      else do
        let root ← (if pathname.head? = some slash then rootVnode s else pure (s.cwd task) : Exec ℕ)
        let (vnode, outParent, s) ← foldFrom env fuel (components pathname) root outParent s
        return (vnode, outParent, (components pathname).getLastD [], s) := by
  rw [resolveFold, startVnode]
  by_cases hnil : components pathname = []
  · rw [if_pos (Or.inr hnil), if_pos hnil, hnil]
    rfl
  · rw [if_neg hnil, if_congr (or_iff_left hnil) rfl rfl]
    refine bind_congr fun root => ?_
    rw [foldFrom]
    rcases (components pathname).foldlM (lookupStep env fuel) (some root, s) with e | ⟨v, s'⟩
    · rfl
    simp only [ok_bind]
    rw [if_neg hnil]
    rcases (components pathname).dropLast.foldlM (lookupStep env fuel) (some root, s) with e | r
    · rfl
    · rfl

theorem length_components_lt (hlen : pathname.length + 1 < sizeMod) :
    (components pathname).length < sizeMod :=
  (CxxString.length_parts_le slash pathname).trans_lt hlen

/-- A path of one component. -/
theorem foldFrom_of_length_eq_one {names : List Name} (h : names.length = 1) (v : ℕ)
    (outParent : Option ℕ) (s : State) :
    (do
      let (child, s) ← getChild env fuel v (names.headD []) s
      return (← getMountedVnodeOrHostVnode child s, some v, names.headD [], s)) = do
      let (vnode, outParent, s) ← foldFrom env fuel names v outParent s
      return (vnode, outParent, names.getLastD [], s) := by
  obtain ⟨name, rfl⟩ := List.length_eq_one_iff.mp h
  rw [foldFrom_singleton]
  simp only [List.headD_cons, List.getLastD_cons, List.getLastD_nil]
  rcases getChild env fuel v name s with e | ⟨child, s₁⟩
  · rfl
  simp only [ok_bind]
  rcases getMountedVnodeOrHostVnode child s₁ with e | w
  · rfl
  · rfl

theorem resolve_eq_resolveFold (env : Env) (fuel task : ℕ) (outParent : Option ℕ)
    (outBasename : Name) (s : State) (hdot : pathname ≠ dot) (hlen : pathname.length + 1 < sizeMod) :
    resolve env fuel task pathname outParent outBasename s =
      resolveFold env fuel task pathname outParent s := by
  rw [resolve, if_neg hdot, CxxString.split_eq slash (Nat.lt_of_succ_lt hlen), resolveFold_eq]
  change (if components pathname = [] then _ else _) = _
  by_cases hnil : components pathname = []
  · rw [if_pos hnil, if_pos hnil]
  · rw [if_neg hnil, if_neg hnil]
    refine bind_congr fun root => ?_
    change (if (components pathname).length = 1 then _ else _) = _
    split_ifs with hone
    · exact foldFrom_of_length_eq_one hone root outParent s
    · change (resolveLoop env fuel (components pathname).length (components pathname) 0 root
        outParent s >>= fun r => _) = _
      rw [resolveLoop_eq_fold (length_components_lt hlen) _ hnil (Nat.zero_add _)]
      rfl

/-- **Path resolution is a fold**, for every path but `.`, whichever of the exits it takes; and so
paths with the same components, which both start at the root or both do not, lead to the same. -/
theorem resolve_eq_fold (env : Env) (fuel task : ℕ) (outParent : Option ℕ) (outBasename : Name)
    (s : State) (hdot : pathname ≠ dot) (hlen : pathname.length + 1 < sizeMod) :
    resolve env fuel task pathname outParent outBasename s =
        resolveFold env fuel task pathname outParent s ∧
      ∀ pathname' : Name, pathname' ≠ dot → pathname'.length + 1 < sizeMod →
        components pathname' = components pathname →
          (pathname'.head? = some slash ↔ pathname.head? = some slash) →
            resolve env fuel task pathname' outParent outBasename s =
              resolve env fuel task pathname outParent outBasename s := by
  refine ⟨resolve_eq_resolveFold env fuel task outParent outBasename s hdot hlen, ?_⟩
  intro pathname' hdot' hlen' hcomponents hslash
  rw [resolve_eq_resolveFold env fuel task outParent outBasename s hdot' hlen',
    resolve_eq_resolveFold env fuel task outParent outBasename s hdot hlen, resolveFold_eq,
    resolveFold_eq, hcomponents]
  simp only [hslash]

/-- The path `//a/` is resolved like `/a`, in an empty TmpFS. -/
theorem resolve_eq_fold_slashes : ∃ s,
    mountRootfs (newTmpFS init).1 (newTmpFS init).2 = .ok s ∧
      resolve noDisk 1 1 [slash, slash, 97, slash] none [] s =
        resolve noDisk 1 1 [slash, 97] none [] s := by
  refine ⟨_, rfl, ?_⟩
  have hfold := @resolve_eq_fold [slash, 97] noDisk 1 1 none []
    { (newTmpFS init).2 with mounts := [⟨(newTmpFS init).1, (newTmpFS init).1⟩] } (by decide)
    (by decide +kernel)
  exact hfold.2 [slash, slash, 97, slash] (by decide) (by decide +kernel) (by decide) (by decide)

/-! ### The same with one exit less -/

theorem split_eq_partsFrom (delimiter : UInt8) (s : Name) :
    ∀ part, split delimiter s part = CxxString.partsFrom delimiter part s := by
  induction s with
  | nil =>
    intro part
    rw [split, CxxString.partsFrom_end]
  | cons c s ih =>
    intro part
    rw [split]
    by_cases hc : c = delimiter
    · rw [if_pos hc, hc, CxxString.partsFrom_delimiter, ih, CxxString.partsFrom_nil]
      split_ifs
      · rfl
      · rfl
    · rw [if_neg hc, ih, CxxString.partsFrom_cons hc]

theorem split_eq_components (pathname : Name) : split slash pathname [] = components pathname := by
  rw [split_eq_partsFrom, CxxString.partsFrom_nil, components]

theorem walk_eq_foldFrom (names : List Name) : ∀ {v : ℕ} {s : State}, names ≠ [] →
    walk env fuel names v s = foldFrom env fuel names v none s := by
  induction names with
  | nil => exact fun hne => absurd rfl hne
  | cons name names ih =>
    intro v s _
    rw [walk]
    by_cases hnames : names = []
    · subst hnames
      rw [foldFrom_singleton]
      refine bind_congr fun r => bind_congr fun w => ?_
      cases w with
      | none => rfl
      | some w => rfl
    · rw [foldFrom_cons name hnames]
      simp only [if_neg hnames]
      refine bind_congr fun r => bind_congr fun w => ?_
      cases w with
      | none => rfl
      | some w => exact ih hnames

/-- **The model of the other modules is that of the source**, for a caller who has set nothing. -/
theorem resolve_eq_resolvePath (env : Env) (fuel task : ℕ) (s : State)
    (hlen : pathname.length + 1 < sizeMod) :
    resolve env fuel task pathname none [] s = resolvePath env fuel task pathname s := by
  by_cases hdot : pathname = dot
  · rw [resolve, resolvePath, if_pos hdot, if_pos hdot]
  rw [resolve_eq_resolveFold env fuel task none [] s hdot hlen, resolveFold_eq, resolvePath,
    if_neg hdot, split_eq_components]
  change _ = if components pathname = [] then _ else _
  by_cases hnil : components pathname = []
  · rw [if_pos hnil, if_pos hnil]
  · rw [if_neg hnil, if_neg hnil]
    dsimp only
    simp only [walk_eq_foldFrom _ hnil]
    split_ifs
    · rfl
    · rfl

end Vfs

end Valkyrie
