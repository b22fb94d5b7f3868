import Valkyrie.Dev.Console
import Valkyrie.Fs.VirtualFileSystem.SharedFile

/-!
# How much `read` writes

`read` of a regular file copies no more than it was asked for, and the character devices stop
at the end of the buffer. `read` of a directory never looks at the length: it copies one
`DirectoryEntry`, which is 256 bytes, and returns 256.

All this is about reads that return (`Valkyrie.Vfs.honoursLength_iff`). One that does not is of the root
of a TmpFS that is the root file system, at position 1: its entry `..` is the parent, and `get_parent`
of this root asks for the parent of where it is mounted, which is the root itself.
-/

namespace Valkyrie.Vfs

open Exec

variable {env : Env} {fuel f len v : ℕ} {file : File} {vnode : Vnode} {s s' : State} {ret : ℤ}
  {bytes : List UInt8}

/-- **A read honours the length**: no more bytes are stored through the buffer, and the result is
no greater. -/
structure HonoursLength (len : ℕ) (ret : ℤ) (bytes : List UInt8) : Prop where
  writes : bytes.length ≤ len
  result : 0 ≤ ret → ret ≤ len

/-- The directory has an entry at the position of the file. -/
def EntryLeft (env : Env) (v : ℕ) (vnode : Vnode) (file : File) (s : State) : Prop :=
  vnode.isDirectory = true ∧
    ∃ count s', getChildrenCount env v s = .ok (count, s') ∧ file.pos < count

theorem ensures_copyFrom (content : List UInt8) (pos len : ℕ) :
    Ensures (copyFrom content pos len) fun bytes => bytes.length ≤ len := by
  rw [copyFrom]
  split_ifs
  · exact ensures_ok (List.length_take_le len _)
  · exact ensures_error _

/-- What is read of a regular file is as much as the result says, and no more than asked for. -/
theorem honoursLength_readRegular :
    Ensures (readRegular env f len file vnode s) fun r => HonoursLength len r.1 r.2.1 := by
  refine (ensures_copyFrom _ _ _).bind fun bytes hbytes => ensures_pure ?_
  dsimp only at hbytes ⊢
  have hle := min_le_left len (subSize (getContent env vnode).2 file.pos)
  refine ⟨hbytes.trans hle, fun hret => ?_⟩
  exact (toInt_le hret).trans (Int.ofNat_le.mpr hle)

/-- An entry of a directory is 256 bytes. -/
theorem ensures_readDirectory (hstack : env.stack.length = nameLen) :
    Ensures (readDirectory env fuel f v file s) fun r =>
      ((∃ count s', getChildrenCount env v s = .ok (count, s') ∧ file.pos < count) ∧
        r.1 = nameLen ∧ r.2.1.length = nameLen) ∨
      ((∃ count s', getChildrenCount env v s = .ok (count, s') ∧ count ≤ file.pos) ∧
        r.1 = 0 ∧ r.2.1 = []) := by
  refine ensures_bind ?_
  rintro ⟨count, s₁⟩ hcount
  dsimp only
  by_cases hpos : count ≤ file.pos
  · rw [if_pos hpos]
    exact ensures_pure (Or.inr ⟨⟨count, s₁, hcount, hpos⟩, rfl, rfl⟩)
  · rw [if_neg hpos]
    refine ensures_bind ?_
    rintro ⟨child, s₂⟩ -
    cases child with
    | none => exact ensures_error _
    | some child =>
      refine ensures_bind fun vnode _ => ensures_pure (Or.inl ⟨⟨count, s₁, hcount, ?_⟩, rfl, ?_⟩)
      · exact not_le.mp hpos
      rw [List.length_append, List.length_take, List.length_drop, hstack, Nat.min_comm]
      omega

/-- **When `read` honours the length**: if the file is not a directory with an entry at its
position, or if there is room for an entry. -/
theorem honoursLength_iff {devices : List (ℕ × Device)} (hstack : env.stack.length = nameLen)
    (hdevice : vnode.isCharacterDevice = true →
      Device.read vnode.dev len devices = .ok (env.device vnode.dev len))
    (hfile : s.files f = some file) (hv : file.vnode = some v) (hvnode : s.vnodes v = some vnode)
    (h : read env fuel f len s = .ok (ret, bytes, s')) :
    HonoursLength len ret bytes ↔ ¬EntryLeft env v vnode file s ∨ nameLen ≤ len := by
  rw [read, State.readFile, hfile, ok_bind] at h
  simp only [hv] at h
  rw [State.readVnode, hvnode, ok_bind] at h
  have hmode : vnode.isDirectory = true → vnode.isRegularFile = false := by
    rw [Vnode.isDirectory, Vnode.isRegularFile, beq_iff_eq]
    intro hmode
    rw [hmode]
    rfl
  by_cases hreg : vnode.isRegularFile = true
  · rw [if_pos hreg] at h
    refine iff_of_true (honoursLength_readRegular _ h) (Or.inl fun hleft => ?_)
    exact absurd (hmode hleft.1) (by rw [hreg]; decide)
  rw [if_neg hreg] at h
  by_cases hdir : vnode.isDirectory = true
  · rw [if_pos hdir] at h
    rcases ensures_readDirectory hstack _ h with ⟨hleft, hret, hbytes⟩ | ⟨hend, hret, hbytes⟩
    · dsimp only at hret hbytes
      constructor
      · exact fun hhonours => Or.inr (hbytes ▸ hhonours.writes)
      · rintro (hnot | hle)
        · exact absurd ⟨hdir, hleft⟩ hnot
        · exact ⟨hbytes ▸ hle, fun _ => hret ▸ Int.ofNat_le.mpr hle⟩
    · dsimp only at hret hbytes
      refine iff_of_true ⟨by rw [hbytes]; exact Nat.zero_le _, fun _ => ?_⟩ (Or.inl ?_)
      · rw [hret]
        exact Int.natCast_nonneg len
      · rintro ⟨-, count, s₁, hcount, hlt⟩
        obtain ⟨count', s₂, hcount', hle⟩ := hend
        cases hcount.symm.trans hcount'
        omega
  rw [if_neg hdir] at h
  refine iff_of_true ?_ (Or.inl fun hleft => hdir hleft.1)
  by_cases hchar : vnode.isCharacterDevice = true
  · rw [if_pos hchar] at h
    obtain ⟨rfl, hrest⟩ := Prod.mk.inj (pure_eq_ok.mp h)
    obtain ⟨rfl, -⟩ := Prod.mk.inj hrest
    exact ⟨Device.ensures_read _ _ _ _ (hdevice hchar), toInt_le⟩
  · rw [if_neg hchar] at h
    cases pure_eq_ok.mp h
    exact ⟨Nat.zero_le _, fun hret => absurd hret (by decide)⟩

/-! ### Two reads -/

/-- No disk, and zeros on the stack. -/
def zeroStack : Env := { noDisk with stack := List.replicate nameLen 0 }

theorem length_zeroStack : zeroStack.stack.length = nameLen := List.length_replicate

/-- The file at an address, and its vnode. -/
def lookupFile (f : ℕ) (s : State) : Option (File × ℕ × Vnode) := do
  let file ← s.files f
  let v ← file.vnode
  let vnode ← s.vnodes v
  return (file, v, vnode)

theorem lookupFile_eq_some (h : lookupFile f s = some (file, v, vnode)) :
    s.files f = some file ∧ file.vnode = some v ∧ s.vnodes v = some vnode := by
  obtain ⟨file', hfile, h⟩ := Option.bind_eq_some_iff.mp h
  obtain ⟨v', hv, h⟩ := Option.bind_eq_some_iff.mp h
  obtain ⟨vnode', hvnode, h⟩ := Option.bind_eq_some_iff.mp h
  cases Option.some.inj h
  exact ⟨hfile, hv, hvnode⟩

/-- Two bytes of a file with three are read. -/
theorem honoursLength_iff_regular : ∃ s f ret bytes s', Run TidyStep init s ∧
    getFileByFd 1 3 s = some f ∧ read zeroStack 1 f 2 s = .ok (ret, bytes, s') ∧
      bytes.length = 2 ∧ HonoursLength 2 ret bytes := by
  have hcheck : check (fun s => (getFileByFd 1 3 s).any fun f =>
      (lookupFile f s).any (fun r => !r.2.2.isCharacterDevice && !r.2.2.isDirectory) &&
        check (fun r => decide (r.2.1.length = 2)) (read zeroStack 1 f 2 s))
      twoReaders = true := by decide +kernel
  obtain ⟨s, hs, htest⟩ := exists_ok_of_check hcheck
  obtain ⟨f, hf, htest⟩ := (Option.any_eq_true _ _).mp htest
  obtain ⟨hlookup, hread⟩ := Bool.and_eq_true_iff.mp htest
  obtain ⟨⟨file, v, vnode⟩, hlookup, hmode⟩ := (Option.any_eq_true _ _).mp hlookup
  obtain ⟨⟨ret, bytes, s'⟩, hread, hlen⟩ := exists_ok_of_check hread
  obtain ⟨hfile, hv, hvnode⟩ := lookupFile_eq_some hlookup
  obtain ⟨hchar, hdir⟩ := Bool.and_eq_true_iff.mp hmode
  rw [Bool.not_eq_true'] at hchar hdir
  refine ⟨s, f, ret, bytes, s', twoReaders_run s hs, hf, hread, of_decide_eq_true hlen, ?_⟩
  have hdevice : vnode.isCharacterDevice = true →
      Device.read vnode.dev 2 [] = .ok (zeroStack.device vnode.dev 2) := fun h =>
    absurd h (by rw [hchar]; decide)
  refine (honoursLength_iff length_zeroStack hdevice hfile hv hvnode hread).mpr (Or.inl ?_)
  exact fun hleft => absurd hleft.1 (by rw [hdir]; decide)

/-- The root directory is read with room for one byte: the result is 256, and so many bytes are
written. -/
theorem read_directory_overruns : ∃ s f ret bytes s', Run TidyStep init s ∧
    getFileByFd 1 3 s = some f ∧ read zeroStack 1 f 1 s = .ok (ret, bytes, s') ∧
      ret = 256 ∧ bytes.length = 256 ∧ ¬HonoursLength 1 ret bytes := by
  have hcheck : check (fun s => decide ((1, 0) ∈ s.fds.live ∧ s.fds.holds (1, 3) = none) &&
      check (fun r => (getFileByFd 1 3 r.2).any fun f =>
        check (fun r => decide (r.1 = 256 ∧ r.2.1.length = 256)) (read zeroStack 1 f 1 r.2))
        (sysOpen noDisk 1 1 [slash] 0 s)) startTask = true := by decide +kernel
  obtain ⟨s, hs, htest⟩ := exists_ok_of_check hcheck
  obtain ⟨hopen, htest⟩ := Bool.and_eq_true_iff.mp htest
  obtain ⟨hlive, hfree⟩ := of_decide_eq_true hopen
  obtain ⟨⟨ret, s₁⟩, hs₁, htest⟩ := exists_ok_of_check htest
  obtain ⟨f, hf, htest⟩ := (Option.any_eq_true _ _).mp htest
  obtain ⟨⟨ret', bytes, s₂⟩, hread, hlen⟩ := exists_ok_of_check htest
  obtain ⟨hret, hbytes⟩ := of_decide_eq_true hlen
  have hrun : Run TidyStep init s₁ := (startTask_run s hs).1.tail
    ⟨.open noDisk 1 1 [slash] 0, Or.inl ⟨3, by decide, hfree⟩, .open onDisk_noDisk hlive hs₁⟩
  refine ⟨s₁, f, ret', bytes, s₂, hrun, hf, hread, hret, hbytes, fun hhonours => ?_⟩
  exact absurd (hbytes ▸ hhonours.writes) (by decide)

end Valkyrie.Vfs
