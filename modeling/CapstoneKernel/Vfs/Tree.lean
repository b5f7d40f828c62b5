import CapstoneKernel.Lib.Execution

/-!
# The tree of vnodes

`vfs.c` with the functions of `tmpfs.c`, `ramdisk.c` and `fat32.c` that change the tree: looking up
paths, creating files and directories, and mounting.

Vnodes are named by the order in which they have been allocated, and mounts by their positions in
the list of all mounts.  A name is a C string without its terminator.  Whether an allocation
succeeds is an argument of the functions.  What the parsers of initramfs and FAT32 find at a mount
is an argument, too; it can be any list of files and directories below the new root.
-/

namespace CapstoneKernel.Vfs

open Execution Function

inductive Fault
  | nullPointer
  | outOfBounds
  | uninitialized
  | useAfterFree
  deriving DecidableEq, Repr

abbrev Name := List UInt8

/-- `STRLEN`. -/
def strLen : ℕ := 256

def slash : UInt8 := 47

def dot : Name := [46]

def dotDot : Name := [46, 46]

inductive FileType
  | file
  | dir
  | dev
  | link
  deriving DecidableEq, Repr

/-- The file systems that can be registered. -/
inductive FsType
  | tmpfs
  | initramfs
  | fat32
  deriving DecidableEq, Repr

/-- `struct vnode` without what belongs to its file system. -/
structure Vnode where
  mount : ℕ
  children : List ℕ
  hidden : Bool
  parent : Option ℕ
  type : FileType
  name : Name
  deriving DecidableEq

/-- `struct mount`.  The root is none as long as it has not been initialised, and `ops` tells
whether its tables of operations are there. -/
structure Mount where
  root : Option ℕ
  fs : FsType
  flags : UInt32
  ops : Bool
  deriving DecidableEq

/-- The vnodes from `size` on have not been allocated. -/
structure State where
  vnodes : ℕ → Vnode
  size : ℕ
  mounts : List Mount
  rootfs : Option ℕ
  fsList : List FsType

/-! ## Paths -/

/-- What `strtok_r` returns one after the other for a path and `"/"`. -/
def tokens (path : Name) : List Name := path.splitOn slash

namespace State

/-- `rootfs->root`. -/
def root (s : State) : Except Fault ℕ :=
  match s.rootfs with
  | none => .error .nullPointer
  | some m =>
    match s.mounts[m]?.bind Mount.root with
    | none => .error .uninitialized
    | some r => .ok r

/-- The file system whose operations are called for a vnode. -/
def ops (s : State) (i : ℕ) : Except Fault FsType :=
  match s.mounts[(s.vnodes i).mount]? with
  | none => .error .uninitialized
  | some m => if m.ops then .ok m.fs else .error .useAfterFree

/-- `vfs_tree_child`. -/
def isChild (s : State) (component : Name) (c : ℕ) : Bool :=
  !(s.vnodes c).hidden && (s.vnodes c).name == component

/-- `tmpfs_lookup`, which all file systems use. -/
def lookup (s : State) (dir : ℕ) (component : Name) : Option ℕ :=
  (s.vnodes dir).children.find? (s.isChild component)

end State

/-- What `find_parent_vnode` returns: `-1`, or a vnode that may be missing, with the parent and the
last component. -/
inductive Found
  | noDirectory
  | existing (node : ℕ) (parent : Option ℕ) (component : Name)
  | missing (parent : ℕ) (component : Name)
  deriving DecidableEq

/-- The loop of `find_parent_vnode`. -/
def walk (s : State) : List Name → ℕ → Option ℕ → Name → Except Fault Found
  | [], cur, parent, comp => .ok (.existing cur parent comp)
  | tok :: rest, cur, parent, comp =>
    if tok = [] then .ok (.existing cur parent comp)
    else do
      let _ ← s.ops cur
      match s.lookup cur tok with
      | none => if rest = [] then return .missing cur tok else return .noDirectory
      | some child => walk s rest child (some cur) tok

/-- The vnode at which the path with the given first token begins. -/
def startOf (s : State) (cwd : ℕ) (comp : Name) : Except Fault ℕ :=
  if comp = [] then s.root
  else if cwd < s.size then
    if comp = dotDot then
      match (s.vnodes cwd).parent with
      | none => .error .nullPointer
      | some p => .ok p
    else .ok cwd
  else .error .uninitialized

/-- The tokens that are looked up, if the others are not empty. -/
def lookups : List Name → List Name
  | [] => []
  | comp :: rest => if comp = [] ∨ comp = dotDot ∨ comp = dot then rest else comp :: rest

/-- `find_parent_vnode` from a current directory; `ctx` tells whether `strtok_r` gets its memory. -/
def findParentVnode (s : State) (ctx : Bool) (cwd : ℕ) (path : Name) : Except Fault Found :=
  if ¬ctx then .error .nullPointer
  else if path.length < strLen then do
    let comp := (tokens path).headD []
    let cur ← startOf s cwd comp
    walk s (lookups (tokens path)) cur (s.vnodes cur).parent comp
  else .error .outOfBounds

/-- `vfs_lookup`: none for `-1`, and the vnode or null. -/
def vfsLookup (s : State) (cwd : ℕ) (path : Name) : Except Fault (Option (Option ℕ)) := do
  match ← findParentVnode s true cwd path with
  | .noDirectory => return none
  | .existing node _ _ => return some (some node)
  | .missing _ _ => return some none

/-! ## Creating -/

/-- Which of the allocations of a call succeed. -/
structure Allocs where
  /-- The context of `strtok_r`. -/
  ctx : Bool
  vnode : Bool
  /-- The node that `list_push` puts into the list of children. -/
  listNode : Bool
  /-- The content of a file of tmpfs, or the metadata of FAT32. -/
  internal : Bool
  mnt : Bool
  vOps : Bool
  fOps : Bool
  file : Bool
  deriving DecidableEq

/-- No allocation fails. -/
def Allocs.all : Allocs := ⟨true, true, true, true, true, true, true, true⟩

/-- `list_push` for the list of children of a vnode, if there is one. -/
def pushChild (vnodes : ℕ → Vnode) (parent : Option ℕ) (c : ℕ) : ℕ → Vnode :=
  match parent with
  | none => vnodes
  | some p => update vnodes p { vnodes p with children := (vnodes p).children ++ [c] }

/-- A new vnode, which is put on the list of its parent. -/
def State.push (s : State) (v : Vnode) : State :=
  { s with vnodes := update (pushChild s.vnodes v.parent s.size) s.size v, size := s.size + 1 }

/-- `init_vnode` with a directory. -/
def State.addChild (s : State) (dir : ℕ) (type : FileType) (name : Name) : State :=
  s.push ⟨(s.vnodes dir).mount, [], false, some dir, type, name⟩

/-- Whether a new vnode needs memory for `internal`. -/
def needsInternal (fs : FsType) (type : FileType) : Bool := fs == .fat32 || type == .file

/-- The result of a creating call: the vnode or null, and whether the call has succeeded. -/
structure Created where
  target : Option ℕ
  done : Bool
  deriving DecidableEq

/-- `tmpfs_create`, `tmpfs_mkdir`, `fat32_create` and `fat32_mkdir`, as far as they change the
tree. -/
def createNode (s : State) (fs : FsType) (dir : ℕ) (type : FileType) (name : Name) (m : Allocs) :
    Except Fault (Created × State) :=
  if ¬m.vnode then .ok (⟨none, false⟩, s)
  else if ¬m.listNode then .error .nullPointer
  else .ok (⟨some s.size, !(needsInternal fs type && !m.internal)⟩, s.addChild dir type name)

/-- `vfs_create` for the given type, and `vfs_mkdir` for directories. -/
def vfsCreate (s : State) (cwd : ℕ) (path : Name) (type : FileType) (m : Allocs) :
    Except Fault (Created × State) := do
  match ← findParentVnode s m.ctx cwd path with
  | .noDirectory => return (⟨none, false⟩, s)
  | .existing _ _ _ => return (⟨none, false⟩, s)
  | .missing parent comp =>
    let fs ← s.ops parent
    createNode s fs parent type comp m

def vfsMkdir (s : State) (cwd : ℕ) (path : Name) (m : Allocs) : Except Fault (Created × State) :=
  vfsCreate s cwd path .dir m

/-- `O_CREAT`. -/
def oCreat : UInt32 := 0o100

/-- `vfs_open` up to the call of `open`: none for `-1`, and the vnode or null.  The first lookup has
its own context. -/
def openNode (s : State) (cwd : ℕ) (path : Name) (flags : UInt32) (ctx : Bool) (m : Allocs) :
    Except Fault (Option (Option ℕ) × State) := do
  match ← findParentVnode s ctx cwd path with
  | .noDirectory => return (none, s)
  | .existing node _ _ => return (some (some node), s)
  | .missing _ _ =>
    if flags &&& oCreat ≠ 0 then
      let (created, s) ← vfsCreate s cwd path .file m
      return (some created.target, s)
    else return (none, s)

/-- `vfs_open` with `tmpfs_open`, which all file systems use: the vnode of the new handle, or none
for `-1`. -/
def vfsOpen (s : State) (cwd : ℕ) (path : Name) (flags : UInt32) (ctx : Bool) (m : Allocs) :
    Except Fault (Option ℕ × State) := do
  match ← openNode s cwd path flags ctx m with
  | (none, s) => return (none, s)
  | (some none, _) => throw .nullPointer
  | (some (some node), s) =>
    let _ ← s.ops node
    return (if m.file then some node else none, s)

/-! ## Mounting -/

/-- A file or directory that a parser finds: the position of its parent among the vnodes of the
mount, and its type and name. -/
structure Entry where
  parent : ℕ
  type : FileType
  name : Name
  deriving DecidableEq

/-- The vnodes a parser adds below the new root. -/
def addContents (s : State) (root : ℕ) (contents : List Entry) : State :=
  contents.foldl (fun s e ↦ if root + e.parent < s.size then s.addChild (root + e.parent) e.type e.name else s) s

/-- What the file systems find when they are mounted; a tmpfs is empty. -/
def contentsOf (fs : FsType) (contents : List Entry) : List Entry :=
  match fs with
  | .tmpfs => []
  | _ => contents

/-- The root of the mount that is the last one of the list, with the mount. -/
def State.addRoot (s : State) (fs : FsType) (flags : UInt32) (parent : Option ℕ) (name : Name) (ops : Bool) : State :=
  { s.push ⟨s.mounts.length - 1, [], false, parent, .dir, name⟩ with
    mounts := s.mounts.set (s.mounts.length - 1) ⟨some s.size, fs, flags, ops⟩ }

/-- `tmpfs_setup_mount`, `initramfs_setup_mount` and `fat32_setup_mount` for the mount that is the
last one of the list. -/
def setupMount (s : State) (fs : FsType) (flags : UInt32) (parent : Option ℕ) (comp : Name) (m : Allocs)
    (contents : List Entry) : Except Fault (Bool × State) :=
  if ¬m.vOps then .ok (false, s)
  else if ¬m.fOps then .ok (false, s)
  else if parent.isSome ∧ ¬m.listNode then .error .nullPointer
  -- FAT32 frees the tables again if it gets no memory for its metadata
  else if fs = .fat32 ∧ ¬m.internal then .ok (false, s.addRoot fs flags parent comp false)
  else .ok (true, addContents (s.addRoot fs flags parent comp true) s.size (contentsOf fs contents))

/-- The mount before its root is set up. -/
def State.addMount (s : State) (fs : FsType) (flags : UInt32) : State :=
  { s with mounts := s.mounts ++ [⟨none, fs, flags, false⟩] }

def State.hide (s : State) (node : ℕ) : State :=
  { s with vnodes := update s.vnodes node { s.vnodes node with hidden := true } }

/-- `vfs_mount` returns whether it has succeeded. -/
def vfsMount (s : State) (cwd : ℕ) (target : Name) (fs : FsType) (flags : UInt32) (m : Allocs)
    (contents : List Entry) : Except Fault (Bool × State) :=
  if fs ∉ s.fsList then .ok (false, s)
  else if ¬m.mnt then .ok (false, s)
  else if ¬m.vnode then .ok (false, s)
  else if target = [slash] then
    setupMount { s.addMount fs flags with rootfs := some s.mounts.length } fs flags none [] m contents
  else do
    match ← findParentVnode s m.ctx cwd target with
    | .noDirectory => return (false, s)
    | .missing _ _ => return (false, s)
    | .existing node parent comp =>
      if (s.vnodes node).type ≠ .dir then return (false, s)
      else setupMount ((s.hide node).addMount fs flags) fs flags parent comp m contents

/-- `register_filesystem`. -/
def registerFilesystem (s : State) (fs : FsType) : State :=
  if fs ∈ s.fsList then s else { s with fsList := s.fsList ++ [fs] }

/-! ## Runs -/

/-- Before `tmpfs_init`. -/
def boot : State := ⟨fun _ ↦ ⟨0, [], false, none, .file, []⟩, 0, [], none, [.tmpfs]⟩

/-- The mount of `tmpfs_init`. -/
def tmpfsInit : Except Fault (Bool × State) := vfsMount boot 0 [slash] .tmpfs 0 .all []

/-- After `tmpfs_init`. -/
def start : State :=
  ⟨update boot.vnodes 0 ⟨0, [], false, none, .dir, []⟩, 1, [⟨some 0, .tmpfs, 0, true⟩], some 0, [.tmpfs]⟩

theorem tmpfsInit_eq : tmpfsInit = .ok (true, start) := rfl

inductive Act
  | registerFilesystem (fs : FsType)
  | vfsCreate (cwd : ℕ) (path : Name) (type : FileType) (m : Allocs)
  | vfsMkdir (cwd : ℕ) (path : Name) (m : Allocs)
  | vfsOpen (cwd : ℕ) (path : Name) (flags : UInt32) (ctx : Bool) (m : Allocs)
  | vfsMount (cwd : ℕ) (target : Name) (fs : FsType) (flags : UInt32) (m : Allocs) (contents : List Entry)

/-- The call, and whether it has succeeded. -/
def Act.run (s : State) : Act → Except Fault (Bool × State)
  | .registerFilesystem fs => .ok (true, Vfs.registerFilesystem s fs)
  | .vfsCreate cwd path type m => (Vfs.vfsCreate s cwd path type m).map fun r ↦ (r.1.done, r.2)
  | .vfsMkdir cwd path m => (Vfs.vfsMkdir s cwd path m).map fun r ↦ (r.1.done, r.2)
  | .vfsOpen cwd path flags ctx m => (Vfs.vfsOpen s cwd path flags ctx m).map fun r ↦ (r.1.isSome, r.2)
  | .vfsMount cwd target fs flags m contents => Vfs.vfsMount s cwd target fs flags m contents

end CapstoneKernel.Vfs
