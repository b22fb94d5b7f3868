import Mathlib.Algebra.BigOperators.Group.List.Basic
import Valkyrie.Lib.Math

/-!
# Vnodes

`include/fs/Vnode.h` and its three implementations, `TmpFSInode`, `ProcFSInode` and
`FAT32Inode`. A vnode is an object at an address. The tree of a memory-based file
system consists of such objects; a FAT32 vnode is made afresh for every lookup and
stands for a directory entry on the disk.

Vnodes are compared by *hash codes*. These are sums of the fields, each times a small
prime, and of the characters of the name (`Valkyrie.Vnode.hashCode`). A sum does not
know the order of its summands, so two names of the same letters have the same code,
and the same amount can come from a size in one vnode and from a cluster number in
another. `Valkyrie.Vnode.hashCode_eq_weight` says what the sum is.
-/

namespace Valkyrie

/-- The content of a `String`, without the terminating null character. -/
abbrev Name := List UInt8

/-! ### Modes -/

/-- The file type bits of a mode, `S_IFMT`. -/
def sIfmt : ℕ := 0o170000

def sIfdir : ℕ := 0o040000

def sIfchr : ℕ := 0o020000

def sIfreg : ℕ := 0o100000

def sIfblk : ℕ := 0o060000

def sIfifo : ℕ := 0o010000

/-! ### Objects -/

/-- The fields of the three classes derived from `Vnode`. A file system is known by the
address of its root vnode, and a parent by the address of its control block. -/
inductive Impl where
  /-- `TmpFSInode`. -/
  | tmpfs (root : ℕ) (name : Name) (content : List UInt8) (parent : Option ℕ)
      (children : List ℕ) : Impl
  /-- `ProcFSInode`. -/
  | procfs (root : ℕ) (name : Name) (parent : Option ℕ) (children : List ℕ) : Impl
  /-- `FAT32Inode`. -/
  | fat32 (root : ℕ) (name : Name) (firstCluster parentCluster parentOffset : ℕ) : Impl

/-- `Vnode`, with the fields that the virtual file system looks at. -/
structure Vnode where
  size : ℕ
  mode : ℕ
  dev : ℕ
  impl : Impl

namespace Vnode

def isDirectory (v : Vnode) : Bool := v.mode &&& sIfmt == sIfdir

def isRegularFile (v : Vnode) : Bool := v.mode &&& sIfmt == sIfreg

def isCharacterDevice (v : Vnode) : Bool := v.mode &&& sIfmt == sIfchr

/-- `get_name`. -/
def name (v : Vnode) : Name :=
  match v.impl with
  | .tmpfs _ name _ _ _ => name
  | .procfs _ name _ _ => name
  | .fat32 _ name _ _ _ => name

/-- The address of the root of the file system of the vnode. -/
def root (v : Vnode) : ℕ :=
  match v.impl with
  | .tmpfs root _ _ _ _ => root
  | .procfs root _ _ _ => root
  | .fat32 root _ _ _ _ => root

/-- `_children`. A FAT32 directory has its children on the disk. -/
def children (v : Vnode) : List ℕ :=
  match v.impl with
  | .tmpfs _ _ _ _ children => children
  | .procfs _ _ _ children => children
  | .fat32 .. => []

/-- `_children.push_back(child)`. -/
def addChild (child : ℕ) (v : Vnode) : Vnode :=
  { v with
    impl := match v.impl with
      | .tmpfs root name content parent children =>
        .tmpfs root name content parent (children ++ [child])
      | .procfs root name parent children => .procfs root name parent (children ++ [child])
      | .fat32 root name first parent offset => .fat32 root name first parent offset }

/-- `_parent`, of a vnode in memory. -/
def parent (vnode : Vnode) : Option ℕ :=
  match vnode.impl with
  | .tmpfs _ _ _ parent _ => parent
  | .procfs _ _ parent _ => parent
  | .fat32 .. => none

theorem parent_addChild (child : ℕ) (vnode : Vnode) :
    (vnode.addChild child).parent = vnode.parent := by
  rw [parent, parent, addChild]
  cases vnode.impl <;> rfl

/-! ### Hash codes -/

/-- `Hash<String>`. -/
def hashString (s : Name) : ℕ := s.foldl (fun ret c => toSize (ret + 19 * c.toNat)) 5

/-- `Hash<WeakPtr<T>>`, of the address of a control block. -/
def hashWeakPtr (ctrl : Option ℕ) : ℕ := toSize (7 + toSize (31 * ctrl.getD 0))

/-- `hash_code`. -/
def hashCode (v : Vnode) : ℕ :=
  match v.impl with
  | .tmpfs _ name _ parent _ =>
    let ret := 5
    let ret := toSize (ret + toSize (11 * v.size))
    let ret := toSize (ret + toSize (11 * v.mode))
    let ret := toSize (ret + hashString name)
    toSize (ret + toSize (11 * hashWeakPtr parent))
  | .procfs _ name parent _ =>
    let ret := 5
    let ret := toSize (ret + toSize (11 * v.mode))
    let ret := toSize (ret + hashString name)
    toSize (ret + toSize (11 * hashWeakPtr parent))
  | .fat32 _ _ first _ _ =>
    let ret := 7
    let ret := toSize (ret + toSize (17 * v.size))
    let ret := toSize (ret + toSize (17 * v.mode))
    toSize (ret + toSize (17 * first))

/-- The sum of the characters of a name. -/
def letters (s : Name) : ℕ := (s.map UInt8.toNat).sum

/-- **What the hash code adds up**, before it is cut to 64 bits: the fields in any order,
and the characters of the name in any order. -/
def weight (v : Vnode) : ℕ :=
  match v.impl with
  | .tmpfs _ name _ parent _ => 87 + 11 * (v.size + v.mode) + 19 * letters name + 341 * parent.getD 0
  | .procfs _ name parent _ => 87 + 11 * v.mode + 19 * letters name + 341 * parent.getD 0
  | .fat32 _ _ first _ _ => 7 + 17 * (v.size + v.mode + first)

theorem toSize_add_toSize (x y : ℕ) : toSize (x + toSize y) = toSize (x + y) :=
  Nat.add_mod_mod x y sizeMod

theorem toSize_toSize_add (x y : ℕ) : toSize (toSize x + y) = toSize (x + y) :=
  Nat.mod_add_mod x sizeMod y

theorem toSize_add_mul_toSize (x n y : ℕ) :
    toSize (x + n * toSize y) = toSize (x + n * y) := by
  have hmul : toSize (n * toSize y) = toSize (n * y) := Nat.mul_mod_mod n y sizeMod
  rw [← toSize_add_toSize, hmul, toSize_add_toSize]

/-- The hash of a name is the sum of its characters. -/
theorem hashString_eq (s : Name) : hashString s = toSize (5 + 19 * letters s) := by
  have hfold : ∀ (s : Name) (n : ℕ), s.foldl (fun ret c => toSize (ret + 19 * c.toNat)) (toSize n) =
      toSize (n + 19 * letters s) := by
    intro s
    induction s with
    | nil => intro n; simp [letters]
    | cons c s ih =>
      intro n
      rw [List.foldl_cons, toSize_toSize_add, ih]
      simp only [letters, List.map_cons, List.sum_cons]
      congr 1
      ring
  have h5 : toSize 5 = 5 := rfl
  rw [hashString, ← h5, hfold, h5]

/-- **The hash code is the sum**, cut to 64 bits. -/
theorem hashCode_eq_weight (v : Vnode) : v.hashCode = toSize v.weight := by
  unfold hashCode weight
  cases v.impl with
  | tmpfs root name content parent children =>
    simp only [hashString_eq, hashWeakPtr, toSize_add_toSize, toSize_toSize_add,
      toSize_add_mul_toSize]
    congr 1
    ring
  | procfs root name parent children =>
    simp only [hashString_eq, hashWeakPtr, toSize_add_toSize, toSize_toSize_add,
      toSize_add_mul_toSize]
    congr 1
    ring
  | fat32 root name first parent offset =>
    simp only [toSize_add_toSize, toSize_toSize_add]
    congr 1
    ring

end Vnode

end Valkyrie
