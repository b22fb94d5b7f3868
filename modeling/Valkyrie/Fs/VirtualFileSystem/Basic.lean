import Valkyrie.Base.Handles
import Valkyrie.Fs.Vnode
import Valkyrie.Mm.Buddy.Basic

/-!
# The virtual file system

`fs/VirtualFileSystem.cc`, with the parts of `fs/TmpFS.cc` and `fs/ProcFS.cc` that it
calls: lookups, mounts, opened files, and the file descriptors of the tasks.

What lies outside of memory is a parameter (`Valkyrie.Vfs.Env`): the directories and
files of the disk, the contents that ProcFS makes up, the tasks there are, and what a
character device delivers. It may be another one in every call.

A `File` is shared by all the descriptors of its vnode: there is one position. `close`
goes by the use count of the `File`, which is the number of the handles that hold it:
one in the table of opened files, one for each descriptor, and two in the call itself.
-/

namespace Valkyrie

namespace Vfs

open Function

/-- `File`. The vnode of a file that could not be created is null. -/
structure File where
  vnode : Option ℕ
  /-- The next position to read or write. -/
  pos : ℕ
  options : ℕ

/-- `VFS::Mount`. The guest file system is known by its root, the guest vnode. -/
structure Mount where
  guestVnode : ℕ
  hostVnode : ℕ
deriving DecidableEq

/-- The state of the virtual file system. -/
structure State where
  /-- The vnodes in memory. -/
  vnodes : ℕ → Option Vnode
  /-- The files in memory. -/
  files : ℕ → Option File
  /-- An address from which on nothing was allocated yet. -/
  next : ℕ
  /-- `_mounts`. -/
  mounts : List Mount
  /-- `_opened_files`. -/
  openedFiles : List ℕ
  /-- `_fd_table` of every task: the handle of a task and a descriptor. -/
  fds : Handles (ℕ × ℕ) ℕ
  /-- `_cwd_vnode` of every task. -/
  cwd : ℕ → ℕ

/-- What is not in memory. -/
structure Env where
  /-- `FAT32Inode::iterate_children`: the vnodes of the entries, in this order. -/
  fatChildren : Vnode → List Vnode
  /-- `FAT32Inode::create_child`. -/
  fatCreate : Vnode → Name → ℕ → Option Vnode
  /-- `get_content` of a FAT32 or ProcFS file: the buffer, and the size afterwards. -/
  content : Vnode → List UInt8 × ℕ
  /-- The pids of `Task::get_active_tasks`. -/
  tasks : List ℕ
  /-- What a character device delivers, for a device number and a length. -/
  device : ℕ → ℕ → List UInt8
  /-- What lies on the stack at the place of a directory entry. -/
  stack : List UInt8

/-- `NR_SPECIAL_ENTRIES`: `.` and `..`. -/
def nrSpecialEntries : ℕ := 2

/-- `NR_TASK_FD_LIMITS`. -/
def nrTaskFdLimits : ℕ := 16

/-- `NAME_LEN`. -/
def nameLen : ℕ := 256

/-- `FAT32_EOC_MAX`, the cluster that the root directory has for its parent. -/
def fat32EocMax : ℕ := 0x0fffffff

/-- `O_CREAT`. -/
def oCreat : ℕ := 1 <<< 3

/-- The name `.`. -/
def dot : Name := [46]

/-- The name `..`. -/
def dotdot : Name := [46, 46]

/-- The character `/`. -/
def slash : UInt8 := 47

namespace State

/-- The vnode at an address. -/
def readVnode (v : ℕ) (s : State) : Exec Vnode :=
  match s.vnodes v with
  | some vnode => .ok vnode
  | none => .error .wild

/-- The vnode at an address is overwritten. -/
def setVnode (v : ℕ) (vnode : Vnode) (s : State) : State :=
  { s with vnodes := update s.vnodes v (some vnode) }

/-- `make_shared` of a vnode. Which address is next is up to the heap
(`Valkyrie.Vfs.Step.elsewhere`). -/
def newVnode (vnode : Vnode) (s : State) : ℕ × State :=
  (s.next, { s.setVnode s.next vnode with next := s.next + 1 })

/-- The file at an address. -/
def readFile (f : ℕ) (s : State) : Exec File :=
  match s.files f with
  | some file => .ok file
  | none => .error .wild

/-- `file->pos = pos`. -/
def setPos (f pos : ℕ) (s : State) : State :=
  { s with files := update s.files f ((s.files f).map ({ · with pos := pos })) }

/-- `_opened_files.push_back(make_shared<File>(...))`. -/
def newFile (file : File) (s : State) : ℕ × State :=
  (s.next, { s with
    files := update s.files s.next (some file)
    openedFiles := s.openedFiles ++ [s.next]
    next := s.next + 1 })

end State

/-! ### Names -/

/-- `String::split` without a limit: the runs of characters between the delimiters. -/
def split (delimiter : UInt8) : Name → Name → List Name
  | [], part => if part = [] then [] else [part]
  | c :: s, part =>
    if c = delimiter then
      if part = [] then split delimiter s [] else part :: split delimiter s []
    else split delimiter s (part ++ [c])

/-- `all_digits`. -/
def allDigits (s : Name) : Bool := !s.isEmpty && s.all fun c => 48 ≤ c && c ≤ 57

/-- `atoi` of a string of digits. -/
def atoi (s : Name) : ℕ := min (2 ^ 31 - 1) (s.foldl (fun n c => 10 * n + (c.toNat - 48)) 0)

/-- The decimal form of a number. -/
def numeral (n : ℕ) : Name :=
  if n = 0 then [48] else (Nat.digits 10 n).reverse.map fun d => UInt8.ofNat (48 + d)

/-- `sprintf` of a pid with `%d`, which takes the 32 bits for a signed number. -/
def decimal (pid : ℕ) : Name :=
  if pid < 2 ^ 31 then numeral pid else 45 :: numeral (2 ^ 32 - pid)

/-! ### Lookups -/

/-- `get_host_vnode`. -/
def getHostVnode (guest : ℕ) (s : State) : Option ℕ :=
  (s.mounts.find? (·.guestVnode = guest)).map (·.hostVnode)

/-- The mount that a lookup of a vnode finds: vnodes are compared by their hash codes. -/
def findMount (v : ℕ) (s : State) : Exec (Option Mount) := do
  let vnode ← s.readVnode v
  s.mounts.findM? fun m => do
    let host ← s.readVnode m.hostVnode
    return decide (host.hashCode = vnode.hashCode)

/-- `get_mounted_vnode_or_host_vnode`. -/
def getMountedVnodeOrHostVnode (v : Option ℕ) (s : State) : Exec (Option ℕ) :=
  match v with
  | none => return none
  | some v => do
    match ← findMount v s with
    | some m => return some m.guestVnode
    | none => return some v

/-- `FAT32Inode::is_root_vnode`. -/
def isFatRoot (vnode : Vnode) (s : State) : Exec Bool := do
  return decide (vnode.hashCode = (← s.readVnode vnode.root).hashCode)

/-- `FAT32Inode::find_child_if`: a new vnode for the first entry that is found. -/
def fatFindChildIf (children : List Vnode) (p : ℕ → Vnode → Bool) (s : State) :
    Option ℕ × State :=
  match children.zipIdx.find? (fun e => p e.2 e.1) with
  | some (child, _) => ((s.newVnode child).1, (s.newVnode child).2)
  | none => (none, s)

/-- `FAT32Inode::get_child`. -/
def fatGetChild (env : Env) (vnode : Vnode) (name : Name) (s : State) :
    Exec (Option ℕ × State) := do
  if (← isFatRoot vnode s) && (name == dot || name == dotdot) then
    return (vnode.root, s)
  else
    return fatFindChildIf (env.fatChildren vnode) (fun _ child => child.name == name) s

/-- `get_parent`. The parent of a root is looked up at the place where it is mounted. -/
def getParent (env : Env) : ℕ → ℕ → State → Exec (Option ℕ × State)
  | 0, _, _ => .error .outOfFuel
  | fuel + 1, v, s => do
    let vnode ← s.readVnode v
    match vnode.impl with
    | .tmpfs root _ _ parent _ | .procfs root _ parent _ =>
      if v = root then
        match getHostVnode root s with
        | some host => getParent env fuel host s
        | none => .error .wild
      else
        -- `_parent.lock()`
        return (parent.filter fun p => (s.vnodes p).isSome, s)
    | .fat32 root .. =>
      let (parent, s) ← fatGetChild env vnode dotdot s
      return (some (parent.getD root), s)

/-- The first child with a name. -/
def findChild (children : List ℕ) (name : Name) (s : State) : Exec (Option ℕ) :=
  children.findM? fun c => do return decide ((← s.readVnode c).name = name)

/-- A directory of a task in ProcFS, and the file in it. -/
def newTaskDir (root : ℕ) (name : Name) (s : State) : Exec (ℕ × State) := do
  let (dir, s) := s.newVnode ⟨0, sIfdir, 0, .procfs root name (some root) []⟩
  -- The name is `status`.
  let (file, s) := s.newVnode
    ⟨0, sIfreg, 0, .procfs root [115, 116, 97, 116, 117, 115] (some dir) []⟩
  let s := s.setVnode dir (Vnode.addChild file ⟨0, sIfdir, 0, .procfs root name (some root) []⟩)
  let vnode ← s.readVnode root
  return (dir, s.setVnode root (vnode.addChild dir))

/-- A child is taken off the list of children. -/
def removeChild (v child : ℕ) (s : State) : Exec State := do
  let vnode ← s.readVnode v
  match vnode.impl with
  | .tmpfs root name content parent children =>
    return s.setVnode v { vnode with impl := .tmpfs root name content parent (children.erase child) }
  | .procfs root name parent children =>
    return s.setVnode v { vnode with impl := .procfs root name parent (children.erase child) }
  | .fat32 .. => return s

/-- `ProcFSInode::get_child`, but for `.` and `..`. -/
def procGetChild (env : Env) (v : ℕ) (vnode : Vnode) (name : Name) (s : State) :
    Exec (Option ℕ × State) := do
  let it ← findChild vnode.children name s
  if v = vnode.root ∧ allDigits name then
    if atoi name ∈ env.tasks then
      match it with
      | some child => return (some child, s)
      | none =>
        let (dir, s) ← newTaskDir vnode.root name s
        return (some dir, s)
    else
      match it with
      | some child => return (none, ← removeChild v child s)
      | none => return (none, s)
  else
    return (it, s)

/-- `get_child`. -/
def getChild (env : Env) (fuel v : ℕ) (name : Name) (s : State) : Exec (Option ℕ × State) := do
  let vnode ← s.readVnode v
  match vnode.impl with
  | .tmpfs _ _ _ _ children =>
    if name = dot then return (some v, s)
    else if name = dotdot then getParent env fuel v s
    else return (← findChild children name s, s)
  | .procfs .. =>
    if name = dot then return (some v, s)
    else if name = dotdot then getParent env fuel v s
    else procGetChild env v vnode name s
  | .fat32 .. => fatGetChild env vnode name s

/-- `get_rootfs().get_root_vnode()`. -/
def rootVnode (s : State) : Exec ℕ :=
  match s.mounts with
  | m :: _ => .ok m.guestVnode
  | [] => .error .wild

/-- The loop of `resolve_path`: the vnode that is reached, and the parent of the last
component if the loop got that far. -/
def walk (env : Env) (fuel : ℕ) : List Name → ℕ → State → Exec (Option ℕ × Option ℕ × State)
  | [], v, s => return (some v, none, s)
  | name :: rest, v, s => do
    let parent := if rest = [] then some v else none
    let (child, s) ← getChild env fuel v name s
    match ← getMountedVnodeOrHostVnode child s with
    | none => return (none, parent, s)
    | some child =>
      if rest = [] then return (some child, parent, s)
      else walk env fuel rest child s

/-- `resolve_path`: the vnode, `out_parent` and `out_basename`. -/
def resolvePath (env : Env) (fuel task : ℕ) (pathname : Name) (s : State) :
    Exec (Option ℕ × Option ℕ × Name × State) := do
  if pathname = dot then
    return (some (s.cwd task), none, [], s)
  let components := split slash pathname []
  if components = [] then
    return (some (← rootVnode s), none, [], s)
  let absolute := pathname.head? = some slash
  let start ← if absolute then rootVnode s else pure (s.cwd task)
  let (v, parent, s) ← walk env fuel components start s
  return (v, parent, components.getLastD [], s)

/-! ### Creation -/

/-- `create_child`. -/
def createChild (env : Env) (parent : ℕ) (name : Name) (content : List UInt8) (mode : ℕ)
    (s : State) : Exec (Option ℕ × State) := do
  let vnode ← s.readVnode parent
  match vnode.impl with
  | .tmpfs root .. =>
    (if content = [] then .ok () else operatorNew content.length)
    let (v, s) := s.newVnode ⟨content.length, mode, 0, .tmpfs root name content (some parent) []⟩
    return (some v, s.setVnode parent (vnode.addChild v))
  | .procfs .. => .error (.panic "ProcFS: invalid version of `create_child()` called: %s\n")
  | .fat32 .. =>
    match env.fatCreate vnode name mode with
    | some child => return ((s.newVnode child).1, (s.newVnode child).2)
    | none => return (none, s)

/-- `create`. -/
def create (env : Env) (fuel task : ℕ) (pathname : Name) (content : List UInt8) (mode : ℕ)
    (s : State) : Exec (Option ℕ × State) := do
  if pathname = dot ∨ pathname = dotdot then
    return (none, s)
  let (target, parent, basename, s) ← resolvePath env fuel task pathname s
  match target, parent with
  | some _, _ => return (none, s)
  | none, none => return (none, s)
  | none, some parent => createChild env parent basename content mode s

/-- `mkdir`. -/
def mkdir (env : Env) (fuel task : ℕ) (pathname : Name) (s : State) : Exec (ℤ × State) := do
  let (v, s) ← create env fuel task pathname [] sIfdir s
  return (if v.isSome then 0 else -1, s)

/-- `mknod`. -/
def mknod (env : Env) (fuel task : ℕ) (pathname : Name) (mode dev : ℕ) (s : State) :
    Exec (ℤ × State) := do
  if mode &&& sIfchr = 0 ∧ mode &&& sIfblk = 0 ∧ mode &&& sIfifo = 0 then
    return (-1, s)
  else
    let (v, s) ← create env fuel task pathname [] mode s
    match v with
    | none => return (-1, s)
    | some v =>
      let vnode ← s.readVnode v
      return (0, s.setVnode v { vnode with dev := dev })

/-- `access`. -/
def access (env : Env) (fuel task : ℕ) (pathname : Name) (s : State) : Exec (ℤ × State) := do
  let (v, _, _, s) ← resolvePath env fuel task pathname s
  return (if v.isSome then 0 else -1, s)

/-! ### Mounts -/

/-- `FAT32::FAT32`, for the first cluster of the root directory. -/
def newFAT32 (rootCluster : ℕ) (s : State) : ℕ × State :=
  s.newVnode ⟨0, sIfdir, 0, .fat32 s.next [slash] rootCluster fat32EocMax 0⟩

/-- `TmpFS::TmpFS`. -/
def newTmpFS (s : State) : ℕ × State :=
  s.newVnode ⟨0, sIfdir, 0, .tmpfs s.next [slash] [] none []⟩

/-- `ProcFS::ProcFS`. The files are `switch`, `hello`, `buddyinfo` and `slobinfo`. -/
def newProcFS (s : State) : ℕ × State :=
  let root := s.next
  let file (name : Name) : Vnode := ⟨0, sIfreg, 0, .procfs root name (some root) []⟩
  let (_, s) := s.newVnode ⟨0, sIfdir, 0, .procfs root [slash] none []⟩
  let (a, s) := s.newVnode (file [115, 119, 105, 116, 99, 104])
  let (b, s) := s.newVnode (file [104, 101, 108, 108, 111])
  let (c, s) := s.newVnode (file [98, 117, 100, 100, 121, 105, 110, 102, 111])
  let (d, s) := s.newVnode (file [115, 108, 111, 98, 105, 110, 102, 111])
  (root, s.setVnode root ⟨0, sIfdir, 0, .procfs root [slash] none [a, b, c, d]⟩)

/-- The names that `mount` knows. -/
inductive FsName where
  | tmpfs : FsName
  | procfs : FsName
  | other : FsName

/-- `mount_rootfs`, for a file system with this root. -/
def mountRootfs (root : ℕ) (s : State) : Exec State :=
  match s.mounts with
  | [] => .ok { s with mounts := [⟨root, root⟩] }
  | _ :: _ => .error (.panic "VFS::mount_rootfs: root filesystem is already mounted!\n")

/-- `mount`. -/
def mount (env : Env) (fuel task : ℕ) (mountpoint : Name) (fsName : FsName) (s : State) :
    Exec (ℤ × State) := do
  let (v, _, _, s) ← resolvePath env fuel task mountpoint s
  match v with
  | none => return (-1, s)
  | some host =>
    match fsName with
    | .tmpfs =>
      let (root, s) := newTmpFS s
      return (0, { s with mounts := s.mounts ++ [⟨root, host⟩] })
    | .procfs =>
      let (root, s) := newProcFS s
      return (0, { s with mounts := s.mounts ++ [⟨root, host⟩] })
    | .other => return (0, s)

/-- `umount`. -/
def umount (env : Env) (fuel task : ℕ) (mountpoint : Name) (s : State) : Exec (ℤ × State) := do
  let (v, _, _, s) ← resolvePath env fuel task mountpoint s
  match v with
  | none => return (-1, s)
  | some v =>
    match s.mounts.find? (·.guestVnode = v) with
    | none => return (-1, s)
    | some m => return (0, { s with mounts := s.mounts.erase m })

/-! ### Opened files -/

/-- The first opened file of a vnode. -/
def findOpened (v : Option ℕ) (s : State) : Exec (Option ℕ) :=
  s.openedFiles.findM? fun f => do return decide ((← s.readFile f).vnode = v)

/-- `open`. -/
def openFile (env : Env) (fuel task : ℕ) (pathname : Name) (options : ℕ) (s : State) :
    Exec (Option ℕ × State) := do
  let (target, _, _, s) ← resolvePath env fuel task pathname s
  match ← findOpened target s with
  | some f => return (some f, s)
  | none =>
    match target with
    | some v => return ((s.newFile ⟨some v, 0, options⟩).1, (s.newFile ⟨some v, 0, options⟩).2)
    | none =>
      if options &&& oCreat = 0 then
        return (none, s)
      else
        let (target, s) ← create env fuel task pathname [] sIfreg s
        return ((s.newFile ⟨target, 0, options⟩).1, (s.newFile ⟨target, 0, options⟩).2)

/-- `use_count` of a file, in a call that holds it in two variables. -/
def useCount (f : ℕ) (s : State) : ℕ :=
  s.openedFiles.count f + s.fds.count ∅ f + 2

/-- `close`. -/
def close (f : ℕ) (s : State) : Exec (ℤ × State) := do
  let file ← s.readFile f
  match ← findOpened file.vnode s with
  | none => return (-1, s)
  | some it =>
    let s := s.setPos f 0
    if useCount f s ≤ 3 then
      return (0, { s with openedFiles := s.openedFiles.erase it })
    else
      return (0, s)

/-- `close`, of a file that is held in so many variables. -/
def closeWith (held f : ℕ) (s : State) : Exec (ℤ × State) := do
  let file ← s.readFile f
  match ← findOpened file.vnode s with
  | none => return (-1, s)
  | some it =>
    let s := s.setPos f 0
    if s.openedFiles.count f + s.fds.count ∅ f + held ≤ 3 then
      return (0, { s with openedFiles := s.openedFiles.erase it })
    else
      return (0, s)

/-! ### Reading and writing -/

/-- `memcpy` from a buffer: the bytes that are read have to be in it. -/
def copyFrom (content : List UInt8) (pos len : ℕ) : Exec (List UInt8) :=
  if len = 0 ∨ pos + len ≤ content.length then .ok ((content.drop pos).take len)
  else .error .wild

/-- `get_content` and `get_size`. -/
def getContent (env : Env) (vnode : Vnode) : List UInt8 × ℕ :=
  match vnode.impl with
  | .tmpfs _ _ content _ _ => (content, vnode.size)
  | _ => env.content vnode

/-- `set_content`, as far as it changes what is in memory. A FAT32 file is on a disk with room. -/
def setContent (content : List UInt8) (vnode : Vnode) : Vnode :=
  match vnode.impl with
  | .tmpfs root name _ parent children =>
    { vnode with size := content.length, impl := .tmpfs root name content parent children }
  | .procfs .. => vnode
  | .fat32 .. => { vnode with size := content.length }

/-- The directory of a task is made if it is missing. -/
def addTaskDirectory (root pid : ℕ) (s : State) : Exec State := do
  let vnode ← s.readVnode root
  let it ← vnode.children.findM? fun c => do
    let name := (← s.readVnode c).name
    return allDigits name && decide (atoi name = pid)
  match it with
  | some _ => return s
  | none => return (← newTaskDir root (decimal pid) s).2

/-- `ProcFS::repopulate_task_directories`: at most one directory goes, of a task that is
no longer there, and the missing ones are made. -/
def repopulateTaskDirectories (env : Env) (root : ℕ) (s : State) : Exec State := do
  let vnode ← s.readVnode root
  let stale ← vnode.children.findM? fun c => do
    let name := (← s.readVnode c).name
    return allDigits name && decide (atoi name ∉ env.tasks)
  let s ← match stale with
    | some child => removeChild root child s
    | none => pure s
  env.tasks.foldlM (fun s pid => addTaskDirectory root pid s) s

/-- `get_children_count`. -/
def getChildrenCount (env : Env) (v : ℕ) (s : State) : Exec (ℕ × State) := do
  let vnode ← s.readVnode v
  match vnode.impl with
  | .tmpfs _ _ _ _ children => return (nrSpecialEntries + children.length, s)
  | .procfs root _ _ _ =>
    let s ← repopulateTaskDirectories env root s
    return (nrSpecialEntries + (← s.readVnode v).children.length, s)
  | .fat32 .. =>
    let special := if ← isFatRoot vnode s then nrSpecialEntries else 0
    return (special + (env.fatChildren vnode).length, s)

/-- `get_ith_child`. -/
def getIthChild (env : Env) (fuel v i : ℕ) (s : State) : Exec (Option ℕ × State) := do
  let vnode ← s.readVnode v
  match vnode.impl with
  | .tmpfs .. | .procfs .. =>
    if i = 0 then return (some v, s)
    else if i = 1 then getParent env fuel v s
    else return (vnode.children[i - nrSpecialEntries]?, s)
  | .fat32 root .. =>
    if ← isFatRoot vnode s then
      if i < nrSpecialEntries then return (some root, s)
      else return fatFindChildIf (env.fatChildren vnode) (fun j _ => j = i - nrSpecialEntries) s
    else return fatFindChildIf (env.fatChildren vnode) (fun j _ => j = i) s

/-- `read` of a regular file. The difference of the size and the position is unsigned. -/
def readRegular (env : Env) (f len : ℕ) (file : File) (vnode : Vnode) (s : State) :
    Exec (ℤ × List UInt8 × State) := do
  let (content, size) := getContent env vnode
  let readableSize := subSize size file.pos
  let len := min len readableSize
  let bytes ← copyFrom content file.pos len
  return (toInt len, bytes, s.setPos f (toSize (file.pos + len)))

/-- `read` of a directory: the entry of the next child. Here the position is the index of
the child. -/
def readDirectory (env : Env) (fuel f v : ℕ) (file : File) (s : State) :
    Exec (ℤ × List UInt8 × State) := do
  let (count, s) ← getChildrenCount env v s
  if count ≤ file.pos then
    return (0, [], s.setPos f 0)
  else
    let (child, s) ← getIthChild env fuel v file.pos s
    match child with
    | none => .error (.panic
        "VFS::read: child_vnode == nullptr. get_ith_child() is probably buggy.\n")
    | some child =>
      let vnode ← s.readVnode child
      let name := if file.pos = 0 then dot else if file.pos = 1 then dotdot else vnode.name
      let entry := name.take nameLen ++ env.stack.drop (min name.length nameLen)
      return (nameLen, entry, s.setPos f (toSize (file.pos + 1)))

/-- `read`: the result, and the bytes that were stored through the buffer. -/
def read (env : Env) (fuel f len : ℕ) (s : State) : Exec (ℤ × List UInt8 × State) := do
  let file ← s.readFile f
  match file.vnode with
  | none => .error .wild
  | some v =>
    let vnode ← s.readVnode v
    if vnode.isRegularFile then readRegular env f len file vnode s
    else if vnode.isDirectory then readDirectory env fuel f v file s
    else if vnode.isCharacterDevice then return (toInt len, env.device vnode.dev len, s)
    else return (-1, [], s)

/-- `write`. -/
def write (f : ℕ) (bytes : List UInt8) (s : State) : Exec (ℤ × State) := do
  let file ← s.readFile f
  match file.vnode with
  | none => .error .wild
  | some v =>
    let vnode ← s.readVnode v
    if vnode.isRegularFile then
      -- `make_unique<char[]>(len)`
      operatorNew bytes.length
      let s := s.setVnode v (setContent bytes vnode)
      return (toInt bytes.length, s.setPos f (toSize (file.pos + bytes.length)))
    else if vnode.isCharacterDevice then
      return (toInt bytes.length, s.setPos f (toSize (file.pos + bytes.length)))
    else
      return (-1, s)

/-- The reads of `do_mmap`: one page after the other. -/
def mmapReads (env : Env) (fuel f : ℕ) : ℕ → State → Exec State
  | 0, s => return s
  | n + 1, s => do
    let (_, _, s) ← read env fuel f pageSize s
    mmapReads env fuel f n s

/-- `do_mmap` of `n` pages, as far as the file goes: the position is that of the caller
again in the end. -/
def mmapFile (env : Env) (fuel f : ℕ) (fileOffset : ℤ) (n : ℕ) (s : State) : Exec State := do
  let file ← s.readFile f
  let s ← mmapReads env fuel f n (s.setPos f (ofInt fileOffset))
  return s.setPos f file.pos

/-! ### System calls -/

/-- `Task::Task`: descriptors, of which the first three share a file without a vnode. -/
def newTask (task : ℕ) (s : State) : Exec State := do
  let cwd ← rootVnode s
  let opened := s.next
  return { s with
    files := update s.files opened (some ⟨none, 0, 0⟩)
    next := s.next + 1
    fds := (List.range nrTaskFdLimits).foldl
      (fun fds i => fds.add (task, i) (if i < 3 then some opened else none)) s.fds
    cwd := update s.cwd task cwd }

/-- `Task::fork`: the descriptors of the child are new ones. -/
def fork (task child : ℕ) (s : State) : Exec State := do
  let s ← newTask child s
  return { s with cwd := update s.cwd child (s.cwd task) }

/-- `sys_chdir`: the path is resolved twice. -/
def chdir (env : Env) (fuel task : ℕ) (pathname : Name) (s : State) : Exec (ℤ × State) := do
  let (found, s) ← access env fuel task pathname s
  if found = -1 then
    return (-1, s)
  else
    let (v, _, _, s) ← resolvePath env fuel task pathname s
    match v with
    | none => .error .wild
    | some v =>
      let vnode ← s.readVnode v
      if vnode.isDirectory then
        return (0, { s with cwd := update s.cwd task v })
      else
        return (-1, s)

/-- `Task::get_file_by_fd`. -/
def getFileByFd (task fd : ℕ) (s : State) : Option ℕ :=
  if fd < nrTaskFdLimits then s.fds.holds (task, fd) else none

/-- `Task::allocate_fd_for_file`. -/
def allocateFdForFile (task f : ℕ) (s : State) : ℤ × State :=
  match (List.range nrTaskFdLimits).find? fun i => (s.fds.holds (task, i)).isNone with
  | some i => (i, { s with fds := s.fds.set (task, i) (some f) })
  | none => (-1, s)

/-- `sys_open`. -/
def sysOpen (env : Env) (fuel task : ℕ) (pathname : Name) (options : ℕ) (s : State) :
    Exec (ℤ × State) := do
  let (file, s) ← openFile env fuel task pathname options s
  match file with
  | none => return (-1, s)
  | some f => return allocateFdForFile task f s

/-- `sys_read`, for a descriptor that is not the console. -/
def sysRead (env : Env) (fuel task fd len : ℕ) (s : State) : Exec (ℤ × List UInt8 × State) :=
  match getFileByFd task fd s with
  | none => return (-1, [], s)
  | some f => read env fuel f len s

/-- `sys_write`, for a descriptor that is not the console. -/
def sysWrite (task fd : ℕ) (bytes : List UInt8) (s : State) : Exec (ℤ × State) :=
  match getFileByFd task fd s with
  | none => return (-1, s)
  | some f => write f bytes s

/-- `sys_close`. -/
def sysClose (task fd : ℕ) (s : State) : Exec (ℤ × State) :=
  match getFileByFd task fd s with
  | none => return (-1, s)
  | some f => close f { s with fds := s.fds.set (task, fd) none }

/-- `sys_mmap` of `n` pages of a file, as far as the file goes. -/
def sysMmap (env : Env) (fuel task fd : ℕ) (fileOffset : ℤ) (n : ℕ) (s : State) : Exec State :=
  match getFileByFd task fd s with
  | none => return s
  | some f => mmapFile env fuel f fileOffset n s

end Vfs

end Valkyrie
