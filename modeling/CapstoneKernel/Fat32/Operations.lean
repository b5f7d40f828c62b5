import CapstoneKernel.Fat32.Volume
import CapstoneKernel.Lib.Writes
import CapstoneKernel.Vfs.Tmpfs

/-!
# File operations

`fat32_create`, `fat32_mkdir`, `fat32_write`, `fat32_read` and `sync` as functions on the mounted
volume, with `tmpfs_open` and `tmpfs_lseek64`, which FAT32 takes from tmpfs.  Positions in a list of cached sectors stand for the nodes of the list, and
the position behind the last sector for the null pointer.
-/

namespace CapstoneKernel.Fat32

open Execution

export Tmpfs (File tmpfsOpen Whence lseek seekIn subSize)

/-! ## Directories -/

/-- Stores into the directory entry at position `k`. -/
def storeSlot (cache : List Sector) (k off : ℕ) (data : List UInt8) : Except Fault (List Sector) :=
  match cache[k / (blkSz / entrySz)]? with
  | none => .error .nullPointer
  | some sec => do
      let sec ← sec.store (entrySz * (k % (blkSz / entrySz)) + off) data
      return cache.set (k / (blkSz / entrySz)) sec

/-- The test of `get_dir_entry`. -/
def isEntryOf (clusIdx : UInt32) (d : List UInt8) : Bool := dirAttr d != attrLongName && dirFstClus d == clusIdx

/-- `get_dir_entry`: the vnode of the directory, and the position of the entry. -/
def getDirEntry (fs : Fs) (i : ℕ) : Except Fault (Fs × ℕ × Option ℕ) := do
  let v ← fs.node i
  match v.parent with
  | none => throw .nullPointer
  | some parent =>
    let fs ← loadIf fs parent fun _ ↦ true
    let p ← fs.node parent
    return (fs, parent, (dirSlots p.contentCache).findIdx? (isEntryOf v.clusIdx))

/-- The test of `fat32_reg_to_dir_entry` for entries that can be taken. -/
def isFreeEntry (d : List UInt8) : Bool :=
  dirName d 0 == dirEntryLastAndUnused || dirName d 0 == dirEntryUnused || dirName d 0 == dirEntryUnusedJp

/-- The cluster of the sector behind sector `i`. -/
def clusOfNext (fs : Fs) (i : ℕ) (clus : UInt32) : Except Fault UInt32 :=
  if (i + 1) % fs.vol.secPerClus = 0 then (getFatEntry fs clus).map (· &&& fatValMask) else .ok clus

/-- The loops of `fat32_reg_to_dir_entry` from sector `i` on: the position of the entry that is
taken and the cluster of its sector. -/
def findFreeEntry (fs : Fs) : List Sector → ℕ → UInt32 → Except Fault (Option (ℕ × UInt32))
  | [], _, _ => .ok none
  | sec :: rest, i, clus =>
    match sec.slots.findIdx? isFreeEntry with
    | some j => .ok (some (blkSz / entrySz * i + j, clus))
    | none => do
        let clus ← clusOfNext fs i clus
        findFreeEntry fs rest (i + 1) clus

/-- The name before the dot, and the one after it. -/
def baseName (name : List UInt8) : List UInt8 := name.takeWhile (· ≠ 46)

@[inherit_doc baseName]
def extName (name : List UInt8) : List UInt8 := (name.dropWhile (· ≠ 46)).drop 1

def spaces (n : ℕ) : List UInt8 := List.replicate n space

/-- The stores of `fat32_reg_to_dir_entry` into the entry at position `k`, in their order. -/
def storeEntry (cache : List Sector) (k : ℕ) (v : Vnode) : Except Fault (List Sector) := do
  let cache ← storeSlot cache k 0 (baseName v.name)
  let cache ← storeSlot cache k (baseName v.name).length (spaces (8 - (baseName v.name).length))
  let cache ← storeSlot cache k 8 (extName v.name)
  let cache ← storeSlot cache k (8 + (extName v.name).length) (spaces (3 - (extName v.name).length))
  let cache ← storeSlot cache k 11 [if v.type = .dir then attrArchive ||| attrDirectory else attrArchive]
  let cache ← storeSlot cache k 28 (bytesOf32 (UInt32.ofNat v.fileSize))
  let cache ← storeSlot cache k 20 (bytesOf16 (v.clusIdx >>> 16))
  storeSlot cache k 26 (bytesOf16 v.clusIdx)

/-- The entry at position `k` ends the directory. -/
def isLast (cache : List Sector) (k : ℕ) : Bool :=
  dirName ((dirSlots cache).getD k []) 0 == dirEntryLastAndUnused

/-- The end of the directory is moved behind the entry at position `k`, to a new sector if that is
the last of its sector. -/
def moveLast (fs : Fs) (cache : List Sector) (k : ℕ) (clus : UInt32) : Except Fault (Fs × List Sector) :=
  if isLast cache k then
    if k % (blkSz / entrySz) + 1 = blkSz / entrySz then do
      let (_, fs) ← linkFreeClus fs clus
      let cache ← storeSlot (cache ++ [.zero]) (blkSz / entrySz * cache.length) 0 [dirEntryLastAndUnused]
      return (fs, cache)
    else do
      let cache ← storeSlot cache (k + 1) 0 [dirEntryLastAndUnused]
      return (fs, cache)
  else .ok (fs, cache)

/-- `fat32_reg_to_dir_entry`, which marks the directory as dirty only if it finds no entry. -/
def regToDirEntry (fs : Fs) (i : ℕ) : Except Fault Fs := do
  let v ← fs.node i
  match v.parent with
  | none => throw .nullPointer
  | some parent =>
    let fs ← loadIf fs parent fun _ ↦ true
    let p ← fs.node parent
    match ← findFreeEntry fs p.contentCache 0 p.clusIdx with
    | none => return fs.setNode parent { p with dirty := true }
    | some (k, clus) =>
      let (fs, cache) ← moveLast fs p.contentCache k clus
      let cache ← storeEntry cache k v
      return fs.setNode parent { p with contentCache := cache }

/-- `init_vnode` and what `fat32_create` and `fat32_mkdir` have in common: a vnode with a
cluster. -/
def addNode (fs : Fs) (dir : ℕ) (type : FileType) (name : List UInt8) (cache : List Sector) :
    Except Fault Fs := do
  let d ← fs.node dir
  let free := getFreeClusIdx fs
  let v : Vnode := ⟨some dir, type, name, 0, [], free, true, cache⟩
  let fs ← setFatEntry (fs.setNode dir { d with children := d.children ++ [fs.nodes.length] }) free fs.vol.endOfFile
  return { fs with nodes := fs.nodes ++ [v] }

def fat32Create (fs : Fs) (dir : ℕ) (name : List UInt8) (type : FileType) : Except Fault Fs := do
  let fs' ← addNode fs dir type name []
  regToDirEntry fs' fs.nodes.length

/-- The first sector of a new directory. -/
def dotEntries : Except Fault (List Sector) := do
  let cache := [Sector.zero]
  let cache ← storeSlot cache 0 0 [46, 0]
  let cache ← storeSlot cache 0 11 [attrArchive ||| attrDirectory]
  let cache ← storeSlot cache 1 0 [46, 46, 0]
  let cache ← storeSlot cache 1 11 [attrArchive ||| attrDirectory]
  storeSlot cache 2 0 [dirEntryLastAndUnused]

def fat32Mkdir (fs : Fs) (dir : ℕ) (name : List UInt8) : Except Fault Fs := do
  let fs' ← addNode fs dir .dir name (← dotEntries)
  regToDirEntry fs' fs.nodes.length

/-! ## Files -/

/-- `cur` after `n` steps from the head of a list with the given number of nodes. -/
def walk (length : ℕ) : ℕ → Except Fault ℕ
  | 0 => .ok 0
  | n + 1 => do
      let cur ← walk length n
      if cur < length then return cur + 1 else throw .nullPointer

/-- The first loop of `fat32_write`, which adds sectors until it finds the one with the number. -/
def seekSector (whichSec : ℕ) : ℕ → List Sector → Except Fault (ℕ × List Sector)
  | 0, _ => .error .diverges
  | fuel + 1, cache => do
      let cur ← walk cache.length whichSec
      if cur < cache.length then return (cur, cache) else seekSector whichSec fuel (cache ++ [.zero])

/-- The cluster behind the given one, which is added if there is none. -/
def nextClus (fs : Fs) (clus : UInt32) : Except Fault (UInt32 × Fs) := do
  let entry ← getFatEntry fs clus
  if entry &&& fatValMask = fs.vol.endOfFile then linkFreeClus fs clus
  else return (entry &&& fatValMask, fs)

/-- The cluster of the sector behind the given one, which is added to the chain if there is none. -/
def advanceClus (fs : Fs) (whichSec : ℕ) (clus : UInt32) : Except Fault (UInt32 × Fs) :=
  if (whichSec + 1) % fs.vol.secPerClus = 0 then nextClus fs clus else .ok (clus, fs)

/-- The variables of the second loop of `fat32_write`. -/
structure WriteState where
  fs : Fs
  cache : List Sector
  fileSize : ℕ
  fPos : ℕ
  whichSec : ℕ
  clusIdx : UInt32

/-- One round of the loop at sector `cur`: what is left of the buffer, and the variables. -/
def writeRound (w : WriteState) (cur : ℕ) (buf : List UInt8) : Except Fault (List UInt8 × WriteState) :=
  match w.cache[cur]? with
  | none => .error .nullPointer
  | some sec => do
      let sz := min buf.length (blkSz - w.fPos % blkSz)
      let sec ← sec.store (w.fPos % blkSz) (buf.take sz)
      let cache := w.cache.set cur sec
      let fPos := w.fPos + sz
      let rest := buf.drop sz
      let cache := if rest ≠ [] ∧ cur + 1 = cache.length then cache ++ [.zero] else cache
      let (clusIdx, fs) ← advanceClus w.fs w.whichSec w.clusIdx
      return (rest, ⟨fs, cache, max w.fileSize fPos, fPos, w.whichSec + 1, clusIdx⟩)

/-- The second loop of `fat32_write`. -/
def writeLoop : ℕ → WriteState → ℕ → List UInt8 → Except Fault WriteState
  | _, w, _, [] => .ok w
  | 0, _, _, _ :: _ => .error .diverges
  | fuel + 1, w, cur, c :: buf => do
      let (rest, w) ← writeRound w cur (c :: buf)
      writeLoop fuel w (cur + 1) rest

/-- The update of the size in the directory entry at the end of `fat32_write`. -/
def updateEntry (fs : Fs) (parent : ℕ) (d : Option ℕ) (fileSize : ℕ) : Except Fault Fs := do
  match d with
  | none => throw .nullPointer
  | some k =>
    let p ← fs.node parent
    let cache ← storeSlot p.contentCache k 28 (bytesOf32 (UInt32.ofNat fileSize))
    let cache ← storeSlot cache k 11 [dirAttr ((dirSlots cache).getD k []) ||| attrArchive]
    return fs.setNode parent { p with contentCache := cache, dirty := true }

/-- `fat32_write` returns the number of bytes. -/
def fat32Write (fs : Fs) (file : File) (buf : List UInt8) : Except Fault (ℕ × File × Fs) := do
  let (fs, parent, d) ← getDirEntry fs file.vnode
  let fs ← loadIf fs file.vnode fun v ↦ decide (0 < v.fileSize)
  let v ← fs.node file.vnode
  let (cur, cache) ← seekSector (file.fPos / blkSz) 2 v.contentCache
  let w ← writeLoop buf.length ⟨fs, cache, v.fileSize, file.fPos, file.fPos / blkSz, v.clusIdx⟩ cur buf
  let fs := w.fs.setNode file.vnode { v with contentCache := w.cache, fileSize := w.fileSize, dirty := true }
  let fs ← updateEntry fs parent d w.fileSize
  return (buf.length, { file with fPos := w.fPos }, fs)

/-- The loop of `fat32_read` at sector `cur` with `len` bytes left to read: the position and the
bytes. -/
def readLoop (cache : List Sector) (fileSize : ℕ) : ℕ → ℕ → ℕ → ℕ → Except Fault (ℕ × List UInt8)
  | _, fPos, _, 0 => .ok (fPos, [])
  | 0, _, _, _ + 1 => .error .diverges
  | fuel + 1, fPos, cur, len + 1 =>
    match cache[cur]? with
    | none => .error .nullPointer
    | some sec =>
      let sz := min (min (len + 1) (blkSz - fPos % blkSz)) (subSize fileSize fPos)
      let data := (sec.bytes.drop (fPos % blkSz)).take sz
      if fileSize ≤ fPos + sz then .ok (fPos + sz, data)
      else do
        let (fPos, rest) ← readLoop cache fileSize fuel (fPos + sz) (cur + 1) (len + 1 - sz)
        return (fPos, data ++ rest)

/-- `fat32_read` returns the number of bytes it has put into the buffer. -/
def fat32Read (fs : Fs) (file : File) (len : ℕ) : Except Fault (List UInt8 × File × Fs) := do
  let fs ← loadIf fs file.vnode fun v ↦ decide (0 < v.fileSize)
  let v ← fs.node file.vnode
  let cur ← walk v.contentCache.length (file.fPos / blkSz)
  let (fPos, data) ← readLoop v.contentCache v.fileSize len file.fPos cur len
  return (data, { file with fPos := fPos }, fs)

/-- `tmpfs_lseek64` for a file of FAT32. -/
def fat32Lseek64 (fs : Fs) (file : File) (offset : ℤ) (whence : Whence) : Except Fault (Bool × File) := do
  let v ← fs.node file.vnode
  match lseek v.fileSize file.fPos offset whence with
  | none => return (false, file)
  | some fPos => return (true, { file with fPos := fPos })

/-! ## `sync` -/

/-- The cluster of the sector behind the given one, without a mask. -/
def syncClus (fs : Fs) (whichSec : ℕ) (clus : UInt32) : Except Fault UInt32 :=
  if (whichSec + 1) % fs.vol.secPerClus = 0 then getFatEntry fs clus else .ok clus

/-- The loop of `sync_file_recursive`: the sectors that stay in the cache, and the disk. -/
def syncSectors (fs : Fs) (fileSize : ℕ) :
    List Sector → UInt32 → ℕ → (UInt32 → Sector) → Except Fault (List Sector × (UInt32 → Sector))
  | [], _, _, disk => .ok ([], disk)
  | buf :: rest, clus, whichSec, disk => do
      let disk := Function.update disk (fs.vol.block clus whichSec) buf
      let clus ← syncClus fs whichSec clus
      if fileSize ≤ bytesOfSectors (whichSec + 1) then return (rest, disk)
      else syncSectors fs fileSize rest clus (whichSec + 1) disk

/-- `sync_file_recursive` for the vnode itself. -/
def syncNode (fs : Fs) (i : ℕ) : Except Fault Fs := do
  let v ← fs.node i
  if v.dirty then
    let (left, disk) ← syncSectors fs v.fileSize v.contentCache v.clusIdx 0 fs.disk
    return { fs with disk := disk }.setNode i { v with dirty := false, contentCache := left }
  else return fs

def syncFileRecursive : ℕ → Fs → ℕ → Except Fault Fs
  | 0, _, _ => .error .diverges
  | fuel + 1, fs, i => do
      let fs ← syncNode fs i
      let v ← fs.node i
      v.children.foldlM (fun fs child ↦ syncFileRecursive fuel fs child) fs

/-- The sector of the table with number `j`. -/
def fatSector (fat : UInt32 → UInt32) (j : ℕ) : Sector :=
  ⟨(List.range (blkSz / 4)).flatMap fun k ↦ bytesOf32 (fat (UInt32.ofNat (blkSz / 4 * j + k))), by
    rw [List.length_flatMap]
    simp [bytesOf32, bytesOf16, blkSz]⟩

/-- The blocks that hold the copies of the table, with their content. -/
def fatBlocks (fs : Fs) : List (UInt32 × Sector) :=
  (List.range fs.vol.numFATs).flatMap fun i ↦ (List.range fs.vol.fatSz32).map fun j ↦
    (fs.vol.startBlkIdx + fs.vol.rsvdSecCnt + UInt32.ofNat fs.vol.fatSz32 * UInt32.ofNat i + UInt32.ofNat j,
      fatSector fs.fat j)

def sync (fs : Fs) : Except Fault Fs :=
  syncFileRecursive (fs.nodes.length + 1) { fs with disk := Writes.apply fs.disk (fatBlocks fs) } 0

end CapstoneKernel.Fat32
