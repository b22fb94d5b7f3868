import Valkyrie.Fs.VirtualFileSystem.Run

/-!
# Reading regular files

A file has a size and, while it is open, a position, and nothing relates the two. `write`
replaces the content by what is written, however little, and moves the position on; the
`File` is shared by all who have opened it; `mmap` sets the position to whatever it was
given. `read` subtracts the position from the size without looking which is greater.

So a read stays within the content of a TmpFS file exactly when the position has not run
past the size (`Valkyrie.Vfs.readsWithin_iff`), and a shorter write after a longer one is
enough to bring that about.
-/

namespace Valkyrie.Vfs

open Exec

variable {env : Env} {s : State} {vnode : Vnode} {fuel f pos : ℕ}

/-- The file at an address is one of a regular TmpFS file, with this content. -/
structure OfTmpFS (f : ℕ) (file : File) (vnode : Vnode) (content : List UInt8) (s : State) :
    Prop where
  opened : s.files f = some file
  found : ∃ v, file.vnode = some v ∧ s.vnodes v = some vnode
  regular : vnode.isRegularFile = true
  buffer : ∃ root name parent children, vnode.impl = .tmpfs root name content parent children

/-- How many bytes there are to read. -/
def readable (size pos len : ℕ) : ℕ := if pos ≤ size then min len (size - pos) else 0

/-- **A read stays within the content**: it returns, it copies the bytes from the position
on, as many as were asked for and there are, and it moves the position past them. -/
def ReadsWithin (env : Env) (fuel f len size pos : ℕ) (content : List UInt8) (s : State) : Prop :=
  let n := readable size pos len
  read env fuel f len s = .ok (toInt n, (content.drop pos).take n, s.setPos f (toSize (pos + n)))

theorem copyFrom_of_le {content : List UInt8} {len : ℕ} (h : pos + len ≤ content.length) :
    copyFrom content pos len = .ok ((content.drop pos).take len) :=
  if_pos (Or.inr h)

theorem copyFrom_of_lt {content : List UInt8} {len : ℕ} (hlen : len ≠ 0)
    (h : content.length < pos) : copyFrom content pos len = .error .wild :=
  if_neg (not_or.mpr ⟨hlen, by omega⟩)

/-- A difference that goes below zero is not zero. -/
theorem subSize_ne_zero {x y : ℕ} (hxy : x < y) (hy : y < sizeMod) : subSize x y ≠ 0 := by
  rw [subSize, Nat.mod_eq_of_lt hy, Nat.mod_eq_of_lt]
  · generalize sizeMod = M at hy ⊢
    omega
  · generalize sizeMod = M at hy ⊢
    omega

section Read

variable {file : File} {content : List UInt8} {len : ℕ}

theorem OfTmpFS.size (h : OfTmpFS f file vnode content s) (hs : Good s) :
    content.length = vnode.size ∧ vnode.size < sizeMod := by
  obtain ⟨v, -, hv⟩ := h.found
  obtain ⟨root, name, parent, children, himpl⟩ := h.buffer
  exact (hs.vnodes v vnode hv).buffer root name content parent children himpl

/-- What `read` does with such a file. -/
theorem OfTmpFS.read_eq (h : OfTmpFS f file vnode content s) :
    read env fuel f len s =
      (copyFrom content file.pos (min len (subSize vnode.size file.pos))).map fun bytes =>
        (toInt (min len (subSize vnode.size file.pos)), bytes,
          s.setPos f (toSize (file.pos + min len (subSize vnode.size file.pos)))) := by
  obtain ⟨v, hfile, hv⟩ := h.found
  obtain ⟨root, name, parent, children, himpl⟩ := h.buffer
  have hf : s.readFile f = .ok file := by rw [State.readFile, h.opened]
  have hvn := readVnode_of_some hv
  have hcontent : getContent env vnode = (content, vnode.size) := by rw [getContent, himpl]
  rw [Vfs.read, hf, ok_bind]
  simp only [hfile]
  rw [hvn, ok_bind, if_pos h.regular, readRegular, hcontent]
  dsimp only
  cases copyFrom content file.pos (min len (subSize vnode.size file.pos)) with
  | ok bytes => rfl
  | error e => rfl

/-- Up to the size, what is read is within the content. -/
theorem OfTmpFS.readsWithin (h : OfTmpFS f file vnode content s) (hs : Good s)
    (hpos : file.pos ≤ vnode.size) :
    ReadsWithin env fuel f len vnode.size file.pos content s := by
  obtain ⟨hlength, hsize⟩ := h.size hs
  have hmin : file.pos + min len (vnode.size - file.pos) ≤ content.length := by omega
  rw [ReadsWithin, readable, if_pos hpos, h.read_eq, subSize_of_le hpos hsize,
    copyFrom_of_le hmin]
  rfl

/-- A read of nothing reads nothing. -/
theorem OfTmpFS.readsWithin_zero (h : OfTmpFS f file vnode content s) :
    ReadsWithin env fuel f 0 vnode.size file.pos content s := by
  have hreadable : readable vnode.size file.pos 0 = 0 := by
    rw [readable, Nat.zero_min, ite_self]
  have hcopy : copyFrom content file.pos 0 = .ok ((content.drop file.pos).take 0) :=
    if_pos (Or.inl rfl)
  rw [ReadsWithin, hreadable, h.read_eq, Nat.zero_min, hcopy]
  rfl

/-- **Past the size, every read of a byte is a wild one.** -/
theorem OfTmpFS.read_of_lt (h : OfTmpFS f file vnode content s) (hs : Good s)
    (hpos : vnode.size < file.pos) (hlen : len ≠ 0) : read env fuel f len s = .error .wild := by
  have hsub := subSize_ne_zero hpos (hs.files f file h.opened)
  have hmin : min len (subSize vnode.size file.pos) ≠ 0 := by omega
  rw [h.read_eq, copyFrom_of_lt hmin ((h.size hs).1 ▸ hpos)]
  rfl

/-- **Which reads stay within the content**, in every state that calls lead to: those from
a position that is not past the size, and those of nothing. -/
theorem readsWithin_iff (hrun : Run Step init s) (h : OfTmpFS f file vnode content s)
    (env : Env) (fuel len : ℕ) :
    ReadsWithin env fuel f len vnode.size file.pos content s ↔
      file.pos ≤ vnode.size ∨ len = 0 := by
  have hs := good_of_run hrun
  constructor
  · intro hwithin
    by_contra hnot
    obtain ⟨hpos, hlen⟩ := not_or.mp hnot
    rw [ReadsWithin, h.read_of_lt hs (not_le.mp hpos) hlen] at hwithin
    cases hwithin
  · rintro (hpos | rfl)
    · exact h.readsWithin hs hpos
    · exact h.readsWithin_zero

end Read

/-! ### Two runs -/

/-- No disk, no devices and no tasks. -/
def noDisk : Env := ⟨fun _ => [], fun _ _ _ => none, fun _ => ([], 0), [], fun _ _ => [], []⟩

theorem onDisk_noDisk : noDisk.OnDisk :=
  ⟨fun _ _ h => (by cases h), fun _ _ _ _ h => (by cases h)⟩

/-- A task opens `/a` in an empty TmpFS. -/
def openNew : Exec State := do
  let s ← mountRootfs (newTmpFS init).1 (newTmpFS init).2
  let s ← newTask 1 s
  let (_, s) ← sysOpen noDisk 1 1 [slash, 97] oCreat s
  return s

theorem run_openNew : Ensures openNew (Run Step init) := by
  refine ensures_bind fun s₁ h₁ => ensures_bind fun s₂ h₂ => ensures_bind fun ⟨_, s₃⟩ h₃ =>
    ensures_pure ?_
  exact ((Relation.ReflTransGen.single (.rootTmpFS h₁)).tail (.newTask 1 (no_fds h₁) h₂)).tail
    (.open onDisk_noDisk 1 1 _ (Or.inl rfl) _ h₃)

/-- It writes three bytes, and then one. -/
def writeShorter : Exec State := do
  let (_, s) ← sysWrite 1 3 [1, 2, 3] (← openNew)
  let (_, s) ← sysWrite 1 3 [4] s
  return s

theorem run_writeShorter : Ensures writeShorter (Run Step init) := by
  refine ensures_bind fun s h => ensures_bind fun ⟨_, s₁⟩ h₁ => ensures_bind fun ⟨_, s₂⟩ h₂ =>
    ensures_pure ?_
  exact ((run_openNew s h).tail (.write 1 3 _ (by decide +kernel) h₁)).tail
    (.write 1 3 _ (by decide +kernel) h₂)

/-- It writes three bytes, closes the file and opens it again. -/
def writeReopen : Exec State := do
  let (_, s) ← sysWrite 1 3 [1, 2, 3] (← openNew)
  let (_, s) ← sysClose 1 3 s
  let (_, s) ← sysOpen noDisk 1 1 [slash, 97] 0 s
  return s

theorem run_writeReopen : Ensures writeReopen (Run Step init) := by
  refine ensures_bind fun s h => ensures_bind fun ⟨_, s₁⟩ h₁ => ensures_bind fun ⟨_, s₂⟩ h₂ =>
    ensures_bind fun ⟨_, s₃⟩ h₃ => ensures_pure ?_
  exact (((run_openNew s h).tail (.write 1 3 _ (by decide +kernel) h₁)).tail (.close 1 3 h₂)).tail
    (.open onDisk_noDisk 1 1 _ (Or.inl rfl) _ h₃)

/-- The file behind a descriptor, for a test. -/
def testFile (s : State) (p : ℕ → File → Vnode → List UInt8 → Bool) : Bool :=
  match getFileByFd 1 3 s with
  | none => false
  | some f =>
    match s.files f with
    | none => false
    | some file =>
      match file.vnode.bind s.vnodes with
      | none => false
      | some vnode =>
        match vnode.impl with
        | .tmpfs _ _ content _ _ => vnode.isRegularFile && p f file vnode content
        | _ => false

theorem exists_of_testFile {p : ℕ → File → Vnode → List UInt8 → Bool} (h : testFile s p = true) :
    ∃ f file vnode content, OfTmpFS f file vnode content s ∧ p f file vnode content = true := by
  rw [testFile] at h
  split at h
  · cases h
  · split at h
    · cases h
    · rename_i f _ _ file hfile
      split at h
      · cases h
      · rename_i vnode hvnode
        split at h
        · rename_i root name content parent children himpl
          obtain ⟨hreg, hp⟩ := Bool.and_eq_true_iff.mp h
          exact ⟨f, file, vnode, content,
            ⟨hfile, Option.bind_eq_some_iff.mp hvnode, hreg, root, name, parent, children, himpl⟩, hp⟩
        · cases h

/-- A shorter write after a longer one: the position is 4 and the size 1, and a read of one
byte is past the content. -/
theorem read_wild_of_shorter_write :
    ∃ s f file vnode content, Run Step init s ∧ OfTmpFS f file vnode content s ∧
      ¬ReadsWithin noDisk 1 f 1 vnode.size file.pos content s ∧
      read noDisk 1 f 1 s = .error .wild := by
  have hcheck : check (fun s => testFile s fun _ file vnode _ =>
      decide (vnode.size < file.pos)) writeShorter = true := by decide +kernel
  obtain ⟨s, hs, htest⟩ := exists_ok_of_check hcheck
  obtain ⟨f, file, vnode, content, h, hpos⟩ := exists_of_testFile htest
  have hrun := run_writeShorter s hs
  have hwild : read noDisk 1 f 1 s = .error .wild :=
    h.read_of_lt (good_of_run hrun) (of_decide_eq_true hpos) one_ne_zero
  refine ⟨s, f, file, vnode, content, hrun, h, fun hwithin => ?_, hwild⟩
  rw [ReadsWithin, hwild] at hwithin
  cases hwithin

/-- A read of two of the three bytes of a file that was written, closed and opened again. -/
theorem readsWithin_iff_reopened :
    ∃ s f file vnode, Run Step init s ∧ OfTmpFS f file vnode [1, 2, 3] s ∧ file.pos = 0 ∧
      vnode.size = 3 ∧ ReadsWithin noDisk 1 f 2 vnode.size file.pos [1, 2, 3] s := by
  have hcheck : check (fun s => testFile s fun _ file vnode content =>
      decide (content = [1, 2, 3] ∧ file.pos = 0 ∧ vnode.size = 3)) writeReopen = true := by
    decide +kernel
  obtain ⟨s, hs, htest⟩ := exists_ok_of_check hcheck
  obtain ⟨f, file, vnode, content, h, htest⟩ := exists_of_testFile htest
  obtain ⟨rfl, hpos, hsize⟩ := of_decide_eq_true htest
  have hrun := run_writeReopen s hs
  exact ⟨s, f, file, vnode, hrun, h, hpos, hsize,
    (readsWithin_iff hrun h noDisk 1 2).mpr (Or.inl (by omega))⟩

end Valkyrie.Vfs
