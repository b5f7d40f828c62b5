import CapstoneKernel.Fat32.Writing
import CapstoneKernel.VMem.Process
import CapstoneKernel.Vfs.Invariant
import CapstoneKernel.Vfs.Tmpfs

/-!
# Read-only mounts and handles

The calls that open, create, write and read files, on the tree of vnodes together with the data of
the vnodes: a block of memory for a file of tmpfs, a part of the ramdisk for one of initramfs, and a
cluster with cached sectors for FAT32.  Only `vfs_write` looks at `MS_RDONLY`, and no call looks for
`O_RDONLY`, which is zero.  What the two flags promise holds as long as nothing is created below a
read-only mount and no handle is written to that has been opened for reading.
-/

namespace CapstoneKernel.Permissions

open Execution Function
open Vfs (Name Allocs Created FileType FsType findParentVnode oCreat)
open Tmpfs (subSize)

variable {a : Act} {d : Data} {t : State} {node len : ℕ} {r : ℕ × State} {c : Creation} {m : Allocs}
  {block : Tmpfs.Buffer} {tree : Vfs.State}

/-! ## Data of the vnodes -/

inductive Fault
  | nullPointer
  | outOfBounds
  | uninitialized
  | vfs (e : Vfs.Fault)
  | tmpfs (e : Tmpfs.Fault)
  | fat32 (e : Fat32.Fault)
  deriving DecidableEq

/-- `struct fat32_f_data`. -/
structure Metadata where
  clusIdx : UInt32
  dirty : Bool
  contentCache : List Fat32.Sector
  deriving DecidableEq

/-- What `internal` points to. -/
inductive Internal
  /-- Null, or never set. -/
  | unset
  | buffer (block : Tmpfs.Buffer)
  /-- A file of the ramdisk. -/
  | image (bytes : List UInt8)
  | metadata (m : Metadata)
  deriving DecidableEq

/-- The fields of `struct vnode` that belong to its file system. -/
structure Data where
  fileSize : ℕ
  internal : Internal
  deriving DecidableEq

/-- `struct file`. -/
structure Handle where
  vnode : ℕ
  flags : UInt32
  fPos : ℕ
  deriving DecidableEq

/-- The tree with the data of its vnodes, `fat32_data` and the disk, and the open files. -/
structure State where
  tree : Vfs.State
  data : ℕ → Data
  vol : Fat32.Volume
  fat : UInt32 → UInt32
  disk : UInt32 → Fat32.Sector
  handles : List Handle

namespace State

def handle (s : State) (h : ℕ) : Except Fault Handle :=
  match s.handles[h]? with
  | none => .error .nullPointer
  | some file => .ok file

def setPos (s : State) (h : ℕ) (file : Handle) (fPos : ℕ) : State :=
  { s with handles := s.handles.set h { file with fPos := fPos } }

def setData (s : State) (i : ℕ) (d : Data) : State := { s with data := update s.data i d }

/-- The volume with the vnodes that a function of FAT32 works on. -/
def withNodes (s : State) (nodes : List Fat32.Vnode) : Fat32.Fs := ⟨s.vol, s.fat, s.disk, nodes⟩

/-- A vnode of FAT32.  `load_content` reads by the size of a file, and else up to the end of the
chain. -/
def fatNode (s : State) (i : ℕ) (parent : Option ℕ) : Except Fault Fat32.Vnode :=
  match (s.data i).internal with
  | .metadata m =>
    .ok ⟨parent, if (s.tree.vnodes i).type = .file then .file else .dir, (s.tree.vnodes i).name,
      (s.data i).fileSize, [], m.clusIdx, m.dirty, m.contentCache⟩
  | _ => .error .uninitialized

/-- The volume after a function of FAT32. -/
def setVolume (s : State) (fs : Fat32.Fs) : State := { s with vol := fs.vol, fat := fs.fat, disk := fs.disk }

end State

/-- The data of a vnode of FAT32. -/
def dataOf (v : Fat32.Vnode) : Data := ⟨v.fileSize, .metadata ⟨v.clusIdx, v.dirty, v.contentCache⟩⟩

/-! ## Creating -/

/-- `fat32_create` for the given type, or `fat32_mkdir`. -/
inductive Creation
  | create (type : FileType)
  | mkdir

def Creation.type : Creation → FileType
  | create type => type
  | mkdir => .dir

/-- The entry of a new vnode differs only for directories. -/
def Creation.fatRun (c : Creation) (fs : Fat32.Fs) (name : Name) : Except Fat32.Fault Fat32.Fs :=
  match c with
  | create type => Fat32.fat32Create fs 0 name (if type = .dir then .dir else .file)
  | mkdir => Fat32.fat32Mkdir fs 0 name

/-- `fat32_create` and `fat32_mkdir` from the allocation of the metadata on. -/
def initFat (s : State) (node : ℕ) (c : Creation) : Except Fault State :=
  match (s.tree.vnodes node).parent with
  | none => .error .nullPointer
  | some p => do
      let dir ← s.fatNode p none
      let fs ← (c.fatRun (s.withNodes [dir]) (s.tree.vnodes node).name).mapError .fat32
      let dir ← (fs.node 0).mapError .fat32
      let new ← (fs.node 1).mapError .fat32
      return ((s.setVolume fs).setData p (dataOf dir)).setData node (dataOf new)

/-- The data of a new vnode; `block` is what `malloc` returns for a file of tmpfs. -/
def initData (s : State) (node : ℕ) (c : Creation) (m : Allocs) (block : Tmpfs.Buffer) : Except Fault State := do
  match ← (s.tree.ops node).mapError .vfs with
  | .tmpfs | .initramfs =>
    return s.setData node ⟨0, if c.type = .file ∧ m.internal then .buffer block else .unset⟩
  | .fat32 => if m.internal then initFat s node c else return s.setData node ⟨0, .unset⟩

/-- The state after a call that may have added a vnode to the tree. -/
def State.grow (s : State) (tree : Vfs.State) (c : Creation) (m : Allocs) (block : Tmpfs.Buffer) :
    Except Fault State :=
  if s.tree.size < tree.size then initData { s with tree := tree } s.tree.size c m block
  else .ok { s with tree := tree }

def vfsCreate (s : State) (cwd : ℕ) (path : Name) (type : FileType) (m : Allocs) (block : Tmpfs.Buffer) :
    Except Fault (Bool × State) := do
  let (created, tree) ← (Vfs.vfsCreate s.tree cwd path type m).mapError .vfs
  let s ← s.grow tree (.create type) m block
  return (created.done, s)

def vfsMkdir (s : State) (cwd : ℕ) (path : Name) (m : Allocs) (block : Tmpfs.Buffer) :
    Except Fault (Bool × State) := do
  let (created, tree) ← (Vfs.vfsMkdir s.tree cwd path m).mapError .vfs
  let s ← s.grow tree .mkdir m block
  return (created.done, s)

/-- `vfs_open` returns the handle, or none for `-1`. -/
def vfsOpen (s : State) (cwd : ℕ) (path : Name) (flags : UInt32) (ctx : Bool) (m : Allocs)
    (block : Tmpfs.Buffer) : Except Fault (Option ℕ × State) := do
  let (node, tree) ← (Vfs.vfsOpen s.tree cwd path flags ctx m).mapError .vfs
  let s ← s.grow tree (.create .file) m block
  match node with
  | none => return (none, s)
  | some node => return (some s.handles.length, { s with handles := s.handles ++ [⟨node, flags, 0⟩] })

/-! ## Writing and reading -/

def oAccmode : UInt32 := 0o3

def oRdonly : UInt32 := 0o0

def oWronly : UInt32 := 0o1

def oRdwr : UInt32 := 0o2

def msRdonly : UInt32 := 1

/-- `vnode->mount->flags & MS_RDONLY`. -/
def isRdonly (tree : Vfs.State) (i : ℕ) : Bool :=
  tree.mounts[(tree.vnodes i).mount]?.any fun m ↦ m.flags &&& msRdonly ≠ 0

/-- The call of `tmpfs_write`. -/
def writeTmpfs (s : State) (h : ℕ) (file : Handle) (buf : List UInt8) : Except Fault (ℕ × State) :=
  match (s.data file.vnode).internal with
  | .buffer block => do
      let (n, fPos, v) ← (Tmpfs.tmpfsWrite ⟨(s.data file.vnode).fileSize, block⟩ file.fPos buf).mapError .tmpfs
      return (n, (s.setData file.vnode ⟨v.fileSize, .buffer v.internal⟩).setPos h file fPos)
  | _ => .error .uninitialized

/-- The call of `fat32_write`, which works on the vnode and its directory. -/
def writeFat32 (s : State) (h : ℕ) (file : Handle) (buf : List UInt8) : Except Fault (ℕ × State) :=
  match (s.tree.vnodes file.vnode).parent with
  | none => .error .nullPointer
  | some p => do
      let dir ← s.fatNode p none
      let node ← s.fatNode file.vnode (some 0)
      let (n, f, fs) ← (Fat32.fat32Write (s.withNodes [dir, node]) ⟨1, file.fPos⟩ buf).mapError .fat32
      let dir ← (fs.node 0).mapError .fat32
      let node ← (fs.node 1).mapError .fat32
      return (n, (((s.setVolume fs).setData p (dataOf dir)).setData file.vnode (dataOf node)).setPos h file f.fPos)

/-- `vfs_write` returns the number of bytes, or none for `-1`. -/
def vfsWrite (s : State) (h : ℕ) (buf : List UInt8) : Except Fault (Option ℕ × State) := do
  let file ← s.handle h
  if isRdonly s.tree file.vnode ∨ file.flags &&& oRdonly ≠ 0 then return (none, s)
  else
    match ← (s.tree.ops file.vnode).mapError .vfs with
    | .tmpfs => (writeTmpfs s h file buf).map fun r ↦ (some r.1, r.2)
    -- initramfs has no function for writing
    | .initramfs => throw .nullPointer
    | .fat32 => (writeFat32 s h file buf).map fun r ↦ (some r.1, r.2)

/-- The call of `tmpfs_read`, also for initramfs. -/
def readTmpfs (s : State) (h : ℕ) (file : Handle) (len : ℕ) : Except Fault (List UInt8 × State) :=
  match (s.data file.vnode).internal with
  | .buffer block => do
      let (bytes, fPos) ← (Tmpfs.tmpfsRead ⟨(s.data file.vnode).fileSize, block⟩ file.fPos len).mapError .tmpfs
      return (bytes, s.setPos h file fPos)
  | .image bytes =>
    let sz := min len (subSize (s.data file.vnode).fileSize file.fPos)
    if file.fPos + sz ≤ bytes.length then
      .ok ((bytes.drop file.fPos).take sz, s.setPos h file (file.fPos + sz))
    else .error .outOfBounds
  | _ => .error .uninitialized

/-- The call of `fat32_read`. -/
def readFat32 (s : State) (h : ℕ) (file : Handle) (len : ℕ) : Except Fault (List UInt8 × State) := do
  let node ← s.fatNode file.vnode none
  let (bytes, f, fs) ← (Fat32.fat32Read (s.withNodes [node]) ⟨0, file.fPos⟩ len).mapError .fat32
  let node ← (fs.node 0).mapError .fat32
  return (bytes, ((s.setVolume fs).setData file.vnode (dataOf node)).setPos h file f.fPos)

/-- `vfs_read` returns the bytes, or none for `-1`. -/
def vfsRead (s : State) (h len : ℕ) : Except Fault (Option (List UInt8) × State) := do
  let file ← s.handle h
  if file.flags &&& oWronly ≠ 0 then return (none, s)
  else
    match ← (s.tree.ops file.vnode).mapError .vfs with
    | .tmpfs | .initramfs => (readTmpfs s h file len).map fun r ↦ (some r.1, r.2)
    | .fat32 => (readFat32 s h file len).map fun r ↦ (some r.1, r.2)

/-! ## Runs -/

inductive Act
  | vfsOpen (cwd : ℕ) (path : Name) (flags : UInt32) (ctx : Bool) (m : Allocs) (block : Tmpfs.Buffer)
  | vfsCreate (cwd : ℕ) (path : Name) (type : FileType) (m : Allocs) (block : Tmpfs.Buffer)
  | vfsMkdir (cwd : ℕ) (path : Name) (m : Allocs) (block : Tmpfs.Buffer)
  | vfsWrite (handle : ℕ) (buf : List UInt8)
  | vfsRead (handle len : ℕ)

/-- What a call returns. -/
inductive Out
  | opened (handle : Option ℕ)
  | status (done : Bool)
  | count (n : Option ℕ)
  | bytes (data : Option (List UInt8))
  deriving DecidableEq

def Act.run (s : State) : Act → Except Fault (Out × State)
  | vfsOpen cwd path flags ctx m block =>
    (Permissions.vfsOpen s cwd path flags ctx m block).map fun r ↦ (.opened r.1, r.2)
  | vfsCreate cwd path type m block =>
    (Permissions.vfsCreate s cwd path type m block).map fun r ↦ (.status r.1, r.2)
  | vfsMkdir cwd path m block => (Permissions.vfsMkdir s cwd path m block).map fun r ↦ (.status r.1, r.2)
  | vfsWrite h buf => (Permissions.vfsWrite s h buf).map fun r ↦ (.count r.1, r.2)
  | vfsRead h len => (Permissions.vfsRead s h len).map fun r ↦ (.bytes r.1, r.2)

/-- The access mode of the handle allows writing. -/
def Writable (flags : UInt32) : Prop := flags &&& oAccmode = oWronly ∨ flags &&& oAccmode = oRdwr
deriving Decidable

/-- A directory in which the entries of its children can be stored, on a mount that is not
read-only. -/
def StoresEntries (s : State) (p : ℕ) : Prop := isRdonly s.tree p = false ∧ (s.tree.vnodes p).type ≠ .file
deriving Decidable

/-- The directory in which the path is missing can be changed.  FAT32 stores an entry in it. -/
def MayCreate (s : State) (cwd : ℕ) (path : Name) : Prop :=
  match findParentVnode s.tree true cwd path with
  | .ok (.missing p _) => isRdonly s.tree p = false ∧ (s.tree.ops p = .ok .fat32 → StoresEntries s p)
  | _ => True

instance (s : State) (cwd : ℕ) (path : Name) : Decidable (MayCreate s cwd path) := by
  unfold MayCreate
  split <;> infer_instance

/-- Nothing is created in a directory that must not be changed, and nothing is written through a
handle that has been opened for reading, unless the mount is read-only anyway. -/
def Guarded (s : State) : Act → Prop
  | .vfsOpen cwd path flags _ _ _ => flags &&& oCreat ≠ 0 → MayCreate s cwd path
  | .vfsCreate cwd path _ _ _ | .vfsMkdir cwd path _ _ => MayCreate s cwd path
  | .vfsWrite h _ => ∀ file ∈ s.handles[h]?, isRdonly s.tree file.vnode = true ∨ (Writable file.flags ∧
      (s.tree.ops file.vnode = .ok .fat32 → ∀ p ∈ (s.tree.vnodes file.vnode).parent, StoresEntries s p))
  | .vfsRead _ _ => True

instance (s : State) (a : Act) : Decidable (Guarded s a) := by
  cases a <;> unfold Guarded <;> infer_instance

/-- `load_content` fills the empty cache of a vnode. -/
def Loads (s : State) (v : ℕ) (d : Data) : Prop :=
  ∃ node secs, s.fatNode v none = .ok node ∧ node.contentCache = [] ∧
    Fat32.readContent (s.withNodes [node]) node = .ok secs ∧ d = dataOf { node with contentCache := secs }

/-- The FAT32 volume has the same disk. -/
def SameDisk (s s' : State) : Prop := s'.vol = s.vol ∧ s'.disk = s.disk

/-- What a guarded call does. -/
inductive Effect (s : State) : Act → State → Prop
  | kept {a : Act} {s' : State} : s'.tree = s.tree → s'.data = s.data → Effect s a s'
  | loaded {a : Act} {s' : State} {v : ℕ} {d : Data} : s'.tree = s.tree → Loads s v d →
      s'.data = update s.data v d → Effect s a s'
  | created {a : Act} {s' : State} {p : ℕ} {type : FileType} {comp : Name} : isRdonly s.tree p = false →
      s'.tree = s.tree.addChild p type comp →
      (∀ i < s.tree.size, s'.data i = s.data i ∨ StoresEntries s i) → Effect s a s'
  | written {h : ℕ} {buf : List UInt8} {s' : State} {file : Handle} : s.handles[h]? = some file →
      isRdonly s.tree file.vnode = false → Writable file.flags → s'.tree = s.tree →
      (∀ i, s'.data i = s.data i ∨ i = file.vnode ∨ StoresEntries s i) → Effect s (.vfsWrite h buf) s'

section Effects

variable {s s' : State} {h : ℕ} {file : Handle} {buf : List UInt8}

/-- The effects are on the tree and the data. -/
theorem Effect.congr (heffect : Effect s a t) (htree : s'.tree = t.tree) (hdata : s'.data = t.data) :
    Effect s a s' := by
  cases heffect with
  | kept htree' hdata' => exact .kept (htree.trans htree') (hdata.trans hdata')
  | loaded htree' hload hdata' => exact .loaded (htree.trans htree') hload (hdata.trans hdata')
  | created hrdonly htree' hdata' =>
    exact .created hrdonly (htree.trans htree') fun i hi ↦ hdata ▸ hdata' i hi
  | written hfile hrdonly hwritable htree' hdata' =>
    exact .written hfile hrdonly hwritable (htree.trans htree') fun i ↦ hdata ▸ hdata' i

theorem handle_eq_ok (hfile : s.handle h = .ok file) : s.handles[h]? = some file := by
  unfold State.handle at hfile
  split at hfile
  · cases hfile
  · next hsome => rw [hsome, Except.ok.inj hfile]

/-- Reading a vnode of FAT32 and storing it changes nothing. -/
theorem dataOf_fatNode {i : ℕ} {parent : Option ℕ} {node : Fat32.Vnode} (hnode : s.fatNode i parent = .ok node) :
    dataOf node = s.data i := by
  unfold State.fatNode at hnode
  split at hnode
  · next m hm =>
    cases hnode
    change Data.mk (s.data i).fileSize (.metadata m) = s.data i
    rw [← hm]
  · cases hnode

theorem fatRun_disk {fs fs' : Fat32.Fs} {name : Name} (hrun : c.fatRun fs name = .ok fs') :
    Fat32.SameDisk fs fs' := by
  cases c with
  | create type =>
    obtain ⟨fs₁, hadd, hreg⟩ := of_bind_eq_ok hrun
    exact Fat32.addNode_disk hadd hreg
  | mkdir =>
    obtain ⟨cache, -, hrun⟩ := of_bind_eq_ok hrun
    obtain ⟨fs₁, hadd, hreg⟩ := of_bind_eq_ok hrun
    exact Fat32.addNode_disk hadd hreg

theorem initFat_eq_ok (hinit : initFat s node c = .ok s') :
    SameDisk s s' ∧ ∃ p d d', (s.tree.vnodes node).parent = some p ∧ s'.tree = s.tree ∧
      s'.data = update (update s.data p d) node d' := by
  unfold initFat at hinit
  split at hinit
  · cases hinit
  · next p hp =>
    obtain ⟨dir, -, hinit⟩ := of_bind_eq_ok hinit
    obtain ⟨fs, hfs, hinit⟩ := of_bind_eq_ok hinit
    obtain ⟨dir', -, hinit⟩ := of_bind_eq_ok hinit
    obtain ⟨new, -, hinit⟩ := of_bind_eq_ok hinit
    cases hinit
    exact ⟨fatRun_disk (mapError_eq_ok hfs), p, _, _, hp, rfl, rfl⟩

/-- Besides the new vnode only a directory of FAT32 gets new data. -/
theorem initData_eq_ok (hinit : initData s node c m block = .ok s') :
    SameDisk s s' ∧ s'.tree = s.tree ∧ ∀ i ≠ node, s'.data i = s.data i ∨
      ((s.tree.vnodes node).parent = some i ∧ s.tree.ops node = .ok .fat32) := by
  obtain ⟨fs, hops, hinit⟩ := of_bind_eq_ok hinit
  have hops := mapError_eq_ok hops
  have hset {d : Data} (hinit : s.setData node d = s') : SameDisk s s' ∧ s'.tree = s.tree ∧
      ∀ i ≠ node, s'.data i = s.data i ∨ ((s.tree.vnodes node).parent = some i ∧
        s.tree.ops node = .ok .fat32) := by
    obtain rfl := hinit
    exact ⟨⟨rfl, rfl⟩, rfl, fun i hi ↦ .inl (update_of_ne hi ..)⟩
  cases fs with
  | tmpfs | initramfs => exact hset (Except.ok.inj hinit)
  | fat32 =>
    dsimp only at hinit
    split at hinit
    · obtain ⟨hdisk, p, d, d', hp, htree, hdata⟩ := initFat_eq_ok hinit
      refine ⟨hdisk, htree, fun i hi ↦ ?_⟩
      rw [hdata, update_of_ne hi]
      by_cases hip : i = p
      · exact .inr ⟨hip ▸ hp, hops⟩
      · exact .inl (update_of_ne hip ..)
    · exact hset (Except.ok.inj hinit)

/-- A call that leaves the tree as it is or adds the missing vnode. -/
theorem grow_effect (cwd : ℕ) (path : Name)
    (htree : tree = s.tree ∨ ∃ p type comp, findParentVnode s.tree true cwd path = .ok (.missing p comp) ∧
      MayCreate s cwd path ∧ tree = s.tree.addChild p type comp)
    (hgrow : s.grow tree c m block = .ok s') : Effect s a s' ∧ SameDisk s s' := by
  unfold State.grow at hgrow
  rcases htree with rfl | ⟨p, type, comp, hfind, hmay, rfl⟩
  · rw [if_neg (Nat.lt_irrefl _)] at hgrow
    cases hgrow
    exact ⟨.kept rfl rfl, rfl, rfl⟩
  · have hlt : s.tree.size < (s.tree.addChild p type comp).size := Nat.lt_succ_self _
    rw [if_pos hlt] at hgrow
    obtain ⟨hdisk, htree, hdata⟩ := initData_eq_ok hgrow
    rw [MayCreate, hfind] at hmay
    refine ⟨.created hmay.1 htree fun i hi ↦ (hdata i (Nat.ne_of_lt hi)).imp_right ?_, hdisk⟩
    rintro ⟨hparent, hops⟩
    rw [Vfs.State.addChild, Vfs.push_new] at hparent
    cases hparent
    rw [Vfs.State.ops, Vfs.State.addChild, Vfs.push_new] at hops
    exact hmay.2 hops

theorem writeTmpfs_eq_ok (hwrite : writeTmpfs s h file buf = .ok r) :
    SameDisk s r.2 ∧ r.2.tree = s.tree ∧ ∀ i, r.2.data i = s.data i ∨ i = file.vnode := by
  unfold writeTmpfs at hwrite
  split at hwrite
  · obtain ⟨⟨n, fPos, v⟩, -, hwrite⟩ := of_bind_eq_ok hwrite
    cases hwrite
    exact ⟨⟨rfl, rfl⟩, rfl, fun i ↦ or_iff_not_imp_right.2 fun hi ↦ update_of_ne hi ..⟩
  · cases hwrite

theorem writeFat32_eq_ok (hwrite : writeFat32 s h file buf = .ok r) :
    SameDisk s r.2 ∧ r.2.tree = s.tree ∧ ∀ i, r.2.data i = s.data i ∨ i = file.vnode ∨
      (s.tree.vnodes file.vnode).parent = some i := by
  unfold writeFat32 at hwrite
  split at hwrite
  · cases hwrite
  · next p hp =>
    obtain ⟨dir, -, hwrite⟩ := of_bind_eq_ok hwrite
    obtain ⟨node, -, hwrite⟩ := of_bind_eq_ok hwrite
    obtain ⟨⟨n, f, fs⟩, hfs, hwrite⟩ := of_bind_eq_ok hwrite
    obtain ⟨dir', -, hwrite⟩ := of_bind_eq_ok hwrite
    obtain ⟨node', -, hwrite⟩ := of_bind_eq_ok hwrite
    cases hwrite
    refine ⟨Fat32.fat32Write_disk (mapError_eq_ok hfs), rfl, fun i ↦ ?_⟩
    rw [or_iff_not_imp_right, not_or]
    rintro ⟨hi, hip⟩
    exact (update_of_ne hi ..).trans (update_of_ne (fun heq : i = p ↦ hip (heq ▸ hp)) ..)

/-- Only a handle that can be written to gets to the write function of its file system. -/
theorem vfsWrite_effect {r : Option ℕ} (hguard : Guarded s (.vfsWrite h buf))
    (hwrite : vfsWrite s h buf = .ok (r, s')) : Effect s (.vfsWrite h buf) s' ∧ SameDisk s s' := by
  obtain ⟨file, hfile, hwrite⟩ := of_bind_eq_ok hwrite
  have hfile := handle_eq_ok hfile
  split at hwrite
  · cases hwrite
    exact ⟨.kept rfl rfl, rfl, rfl⟩
  · next hrefused =>
    have hrdonly : isRdonly s.tree file.vnode = false := Bool.eq_false_iff.2 fun h ↦
      hrefused (.inl h)
    obtain ⟨hwritable, hdir⟩ :=
      (hguard file hfile).resolve_left fun h ↦ Bool.false_ne_true (hrdonly.symm.trans h)
    obtain ⟨fs, hops, hwrite⟩ := of_bind_eq_ok hwrite
    have hops := mapError_eq_ok hops
    cases fs with
    | initramfs => cases hwrite
    | tmpfs =>
      obtain ⟨r, hr, hwrite⟩ := map_eq_ok hwrite
      cases hwrite
      obtain ⟨hdisk, htree, hdata⟩ := writeTmpfs_eq_ok hr
      exact ⟨.written hfile hrdonly hwritable htree fun i ↦ (hdata i).imp_right .inl, hdisk⟩
    | fat32 =>
      obtain ⟨r, hr, hwrite⟩ := map_eq_ok hwrite
      cases hwrite
      obtain ⟨hdisk, htree, hdata⟩ := writeFat32_eq_ok hr
      exact ⟨.written hfile hrdonly hwritable htree fun i ↦
        (hdata i).imp_right (Or.imp_right (hdir hops i)), hdisk⟩

theorem readTmpfs_eq_ok {r : List UInt8 × State} (hread : readTmpfs s h file len = .ok r) :
    SameDisk s r.2 ∧ r.2.tree = s.tree ∧ r.2.data = s.data := by
  unfold readTmpfs at hread
  split at hread
  · obtain ⟨⟨bytes, fPos⟩, -, hread⟩ := of_bind_eq_ok hread
    cases hread
    exact ⟨⟨rfl, rfl⟩, rfl, rfl⟩
  · dsimp only at hread
    split at hread
    · cases hread
      exact ⟨⟨rfl, rfl⟩, rfl, rfl⟩
    · cases hread
  · cases hread

theorem readFat32_effect {r : List UInt8 × State} (hread : readFat32 s h file len = .ok r) :
    Effect s a r.2 ∧ SameDisk s r.2 := by
  obtain ⟨node, hnode, hread⟩ := of_bind_eq_ok hread
  obtain ⟨⟨bytes, f, fs⟩, hfat, hread⟩ := of_bind_eq_ok hread
  obtain ⟨node', hnode', hread⟩ := of_bind_eq_ok hread
  cases hread
  obtain ⟨fs₁, hload, hfat⟩ := of_bind_eq_ok (mapError_eq_ok hfat)
  obtain ⟨v, -, hfat⟩ := of_bind_eq_ok hfat
  obtain ⟨cur, -, hfat⟩ := of_bind_eq_ok hfat
  obtain ⟨⟨fPos, bytes'⟩, -, hfat⟩ := of_bind_eq_ok hfat
  obtain ⟨-, -, rfl⟩ := Prod.mk.inj (Except.ok.inj hfat)
  obtain ⟨v', secs, hv', hsecs, rfl⟩ := Fat32.loadIf_eq_ok hload
  obtain rfl : node = v' := Option.some.inj hv'
  obtain rfl : _ = node' := Except.ok.inj (mapError_eq_ok hnode')
  unfold Fat32.contentOf at hsecs
  split at hsecs
  · next hload => exact ⟨.loaded rfl ⟨node, secs, hnode, hload.1, hsecs, rfl⟩ rfl, rfl, rfl⟩
  · cases hsecs
    refine ⟨.kept rfl ?_, rfl, rfl⟩
    exact (congrArg (update s.data file.vnode) (dataOf_fatNode hnode)).trans (update_eq_self ..)

theorem vfsRead_effect {r : Option (List UInt8)} (hread : vfsRead s h len = .ok (r, s')) :
    Effect s a s' ∧ SameDisk s s' := by
  obtain ⟨file, -, hread⟩ := of_bind_eq_ok hread
  split at hread
  · cases hread
    exact ⟨.kept rfl rfl, rfl, rfl⟩
  · obtain ⟨fs, -, hread⟩ := of_bind_eq_ok hread
    cases fs with
    | tmpfs | initramfs =>
      obtain ⟨r, hr, hread⟩ := map_eq_ok hread
      cases hread
      obtain ⟨hdisk, htree, hdata⟩ := readTmpfs_eq_ok hr
      exact ⟨.kept htree hdata, hdisk⟩
    | fat32 =>
      obtain ⟨r, hr, hread⟩ := map_eq_ok hread
      cases hread
      exact readFat32_effect hr

theorem create_effect {cwd : ℕ} {path : Name} {type : FileType} {created : Created}
    (hmay : MayCreate s cwd path)
    (hcreate : Vfs.vfsCreate s.tree cwd path type m = .ok (created, tree))
    (hgrow : s.grow tree c m block = .ok s') : Effect s a s' ∧ SameDisk s s' := by
  refine grow_effect cwd path ?_ hgrow
  rcases Vfs.vfsCreate_eq_ok hcreate with ⟨-, htree, -⟩ | ⟨p, comp, fs, hfind, -, -, -, htree⟩
  · exact .inl htree
  · exact .inr ⟨p, type, comp, hfind, hmay, htree⟩

/-- Every guarded call has one of the effects and leaves the disk. -/
theorem Act.effect {out : Out} (hguard : Guarded s a) (hrun : a.run s = .ok (out, s')) :
    Effect s a s' ∧ SameDisk s s' := by
  cases a with
  | vfsOpen cwd path flags ctx m block =>
    obtain ⟨⟨r, s₁⟩, hopen, hout⟩ := map_eq_ok hrun
    cases hout
    obtain ⟨⟨node, tree⟩, htree, hopen⟩ := of_bind_eq_ok hopen
    obtain ⟨s₂, hgrow, hopen⟩ := of_bind_eq_ok hopen
    obtain ⟨heffect, hdisk⟩ : Effect s (.vfsOpen cwd path flags ctx m block) s₂ ∧ SameDisk s s₂ := by
      refine grow_effect cwd path ?_ hgrow
      refine (Vfs.vfsOpen_eq_ok (mapError_eq_ok htree)).imp_right ?_
      rintro ⟨p, comp, hflags, hfind, htree⟩
      exact ⟨p, .file, comp, hfind, hguard hflags, htree⟩
    cases node with
    | none =>
      cases hopen
      exact ⟨heffect, hdisk⟩
    | some node =>
      cases hopen
      exact ⟨heffect.congr rfl rfl, hdisk⟩
  | vfsCreate cwd path type m block | vfsMkdir cwd path m block =>
    obtain ⟨⟨r, s₁⟩, hcreate, hout⟩ := map_eq_ok hrun
    cases hout
    obtain ⟨⟨created, tree⟩, htree, hcreate⟩ := of_bind_eq_ok hcreate
    obtain ⟨s₂, hgrow, hcreate⟩ := of_bind_eq_ok hcreate
    cases hcreate
    exact create_effect hguard (mapError_eq_ok htree) hgrow
  | vfsWrite h buf =>
    obtain ⟨⟨r, s₁⟩, hwrite, hout⟩ := map_eq_ok hrun
    cases hout
    exact vfsWrite_effect hguard hwrite
  | vfsRead h len =>
    obtain ⟨⟨r, s₁⟩, hread, hout⟩ := map_eq_ok hrun
    cases hout
    exact vfsRead_effect hread

end Effects

section Runs

variable {s s' : State} {a : Act} {v : ℕ}

theorem Loads.update {w : ℕ} (hload : Loads s w d) (hdata : s'.data = update s.data w d) (v : ℕ) :
    s'.data v = s.data v ∨ Loads s v (s'.data v) := by
  rw [hdata]
  by_cases hvw : v = w
  · rw [hvw, update_self]
    exact .inr hload
  · exact .inl (update_of_ne hvw ..)

/-- What is not cached stays on the disk. -/
theorem guarded_run_same_disk {init s : State}
    (hreach : Reachable (· = init) (CallStep Guarded fun s a ↦ a.run s) s) : SameDisk init s := by
  refine Reachable.calls (P := SameDisk init) ?_ (fun s a out s' hsame hguard hrun ↦ ?_) hreach
  · rintro s rfl
    exact ⟨rfl, rfl⟩
  · obtain ⟨hvol, hdisk⟩ := (a.effect hguard hrun).2
    exact ⟨hvol.trans hsame.1, hdisk.trans hsame.2⟩

end Runs

end CapstoneKernel.Permissions
