import CapstoneKernel.Lib.Execution
import CapstoneKernel.Lib.Overlay

/-!
# FAT32 volumes

The data of `fat32.c`: the parameters of a mounted volume, the table of clusters in memory, the
disk, and the vnodes with their cached sectors, together with the functions on which the file
operations rest.  As the source says, blocks and sectors are the same and all have 512 bytes.

Vnodes are named by their positions in the list of all vnodes.  Memory is never exhausted.
-/

namespace CapstoneKernel.Fat32

open Overlay Execution

inductive Fault
  | outOfBounds
  | nullPointer
  | diverges
  deriving DecidableEq, Repr

/-! ## Sectors and directory entries -/

def blkSz : ℕ := 512

structure Sector where
  bytes : List UInt8
  length_eq : bytes.length = blkSz
  deriving DecidableEq

namespace Sector

def zero : Sector := ⟨List.replicate blkSz 0, List.length_replicate⟩

/-- Stores that stay inside of the sector. -/
def store (s : Sector) (off : ℕ) (data : List UInt8) : Except Fault Sector :=
  if h : off + data.length ≤ blkSz then
    .ok ⟨overlay s.bytes off data, by rw [length_overlay (by rw [s.length_eq]; exact h), s.length_eq]⟩
  else .error .outOfBounds

end Sector

def entrySz : ℕ := 32

/-- The directory entries of a sector. -/
def Sector.slots (s : Sector) : List (List UInt8) :=
  (List.range (blkSz / entrySz)).map fun i ↦ (s.bytes.drop (entrySz * i)).take entrySz

/-- The directory entries of all the sectors. -/
def dirSlots (cache : List Sector) : List (List UInt8) := cache.flatMap Sector.slots

def dirEntryUnused : UInt8 := 0xe5

def dirEntryUnusedJp : UInt8 := 0x05

def dirEntryLastAndUnused : UInt8 := 0x00

def space : UInt8 := 0x20

def attrVolumeId : UInt8 := 0x08

def attrDirectory : UInt8 := 0x10

def attrArchive : UInt8 := 0x20

def attrLongName : UInt8 := 0x0f

/-! The fields of `struct s_dir_entry`, little endian. -/

section Entry

variable (d : List UInt8)

def dirName (i : ℕ) : UInt8 := d.getD i 0

def dirNameExt (i : ℕ) : UInt8 := d.getD (8 + i) 0

def dirAttr : UInt8 := d.getD 11 0

def bytesOf16 (x : UInt32) : List UInt8 := [x.toUInt8, (x >>> 8).toUInt8]

def bytesOf32 (x : UInt32) : List UInt8 := bytesOf16 x ++ bytesOf16 (x >>> 16)

def half (i : ℕ) : UInt32 := (d.getD i 0).toUInt32 + ((d.getD (i + 1) 0).toUInt32 <<< 8)

/-- `DIR_FstClusHI` and `DIR_FstClusLO`. -/
def dirFstClus : UInt32 := (half d 20 <<< 16) + half d 26

def dirFileSize : UInt32 := half d 28 + (half d 30 <<< 16)

end Entry

/-! ## The volume -/

def fatValMask : UInt32 := 0x0fffffff

def fatEntryFree : UInt32 := 0

/-- `fat32_data` without the table of clusters.  A cluster has at least one sector, and FAT32 has
fewer than `2 ^ 28` clusters. -/
structure Volume where
  startBlkIdx : UInt32
  endOfFile : UInt32
  secPerClus : ℕ
  rsvdSecCnt : UInt32
  numFATs : ℕ
  fatSz32 : ℕ
  rootClus : UInt32
  secPerClus_pos : 0 < secPerClus
  secPerClus_lt : secPerClus < 2 ^ 8
  fatSz32_lt : fatSz32 < 2 ^ 21

namespace Volume

variable (v : Volume)

/-- The number of entries of the table of clusters. -/
def fatEntries : ℕ := v.fatSz32 * (blkSz / 4)

def firstDataSector : UInt32 := v.rsvdSecCnt + UInt32.ofNat v.numFATs * UInt32.ofNat v.fatSz32

def firstSectorOfCluster (n : UInt32) : UInt32 := (n - 2) * UInt32.ofNat v.secPerClus + v.firstDataSector

/-- The block on the disk that holds a sector of a cluster. -/
def block (clus : UInt32) (i : ℕ) : UInt32 := v.startBlkIdx + v.firstSectorOfCluster clus + UInt32.ofNat i

theorem fatEntries_lt : v.fatEntries < 0x0fffffff := by
  have h := v.fatSz32_lt
  unfold fatEntries blkSz
  omega

end Volume

inductive FileType
  | file
  | dir
  deriving DecidableEq, Repr

/-- `struct vnode` with its `struct fat32_f_data`. -/
structure Vnode where
  parent : Option ℕ
  type : FileType
  name : List UInt8
  fileSize : ℕ
  children : List ℕ
  clusIdx : UInt32
  dirty : Bool
  contentCache : List Sector
  deriving DecidableEq

/-- The mounted volume; the vnode of its root is the first one. -/
structure Fs where
  vol : Volume
  /-- `fat_cache`. -/
  fat : UInt32 → UInt32
  disk : UInt32 → Sector
  nodes : List Vnode

namespace Fs

def node (fs : Fs) (i : ℕ) : Except Fault Vnode :=
  match fs.nodes[i]? with
  | none => .error .nullPointer
  | some v => .ok v

def setNode (fs : Fs) (i : ℕ) (v : Vnode) : Fs := { fs with nodes := fs.nodes.set i v }

end Fs

/-! ## The table of clusters -/

def getFatEntry (fs : Fs) (clus : UInt32) : Except Fault UInt32 :=
  if clus.toNat < fs.vol.fatEntries then .ok (fs.fat clus) else .error .outOfBounds

def setFatEntry (fs : Fs) (clus val : UInt32) : Except Fault Fs :=
  if clus.toNat < fs.vol.fatEntries then
    .ok { fs with fat := Function.update fs.fat clus (fs.fat clus &&& ~~~fatValMask ||| val) }
  else .error .outOfBounds

/-- The first free entry of the table. -/
def freeClus? (fs : Fs) : Option ℕ :=
  (List.range fs.vol.fatEntries).find? fun i ↦ fs.fat (UInt32.ofNat i) = fatEntryFree

/-- `get_free_clus_idx`, which returns `~0` if there is none. -/
def getFreeClusIdx (fs : Fs) : UInt32 :=
  match freeClus? fs with
  | some i => UInt32.ofNat i
  | none => ~~~0

/-- A new cluster behind the given one. -/
def linkFreeClus (fs : Fs) (clus : UInt32) : Except Fault (UInt32 × Fs) := do
  let tmp := getFreeClusIdx fs
  let fs ← setFatEntry fs clus tmp
  let fs ← setFatEntry fs tmp fs.vol.endOfFile
  return (tmp, fs)

/-! ## Loading -/

/-- The product of type `int` converted to `size_t`. -/
def bytesOfSectors (secCnt : ℕ) : ℕ :=
  if secCnt * blkSz % 2 ^ 32 < 2 ^ 31 then secCnt * blkSz % 2 ^ 32
  else secCnt * blkSz % 2 ^ 32 + (2 ^ 64 - 2 ^ 32)

section Load

variable (fs : Fs) (fileSize : Option ℕ)

/-- The inner loop of `load_content` from sector `i` of a cluster on, and whether the function
returns in it; files end with their size. -/
def loadCluster (clus : UInt32) : ℕ → ℕ → ℕ → List Sector × Bool
  | 0, _, _ => ([], false)
  | left + 1, i, secCnt =>
    if fileSize.any (· ≤ bytesOfSectors secCnt) then ([], true)
    else
      let (secs, done) := loadCluster clus left (i + 1) (secCnt + 1)
      (fs.disk (fs.vol.block clus i) :: secs, done)

/-- The outer loop. -/
def loadClusters : ℕ → UInt32 → ℕ → Except Fault (List Sector)
  | 0, _, _ => .error .diverges
  | fuel + 1, clus, secCnt =>
    let (secs, done) := loadCluster fs fileSize clus fs.vol.secPerClus 0 secCnt
    if done then .ok secs
    else do
      let entry ← getFatEntry fs clus
      if entry = fs.vol.endOfFile then return secs
      let rest ← loadClusters fuel (entry &&& fatValMask) (secCnt + fs.vol.secPerClus)
      return secs ++ rest

end Load

def Vnode.sizeLimit (v : Vnode) : Option ℕ :=
  match v.type with
  | .file => some v.fileSize
  | .dir => none

/-- The sectors `load_content` reads.  The loop ends after as many clusters as the table or the file
has, or never. -/
def readContent (fs : Fs) (v : Vnode) : Except Fault (List Sector) :=
  loadClusters fs v.sizeLimit (fs.vol.fatEntries + v.fileSize + 2) v.clusIdx 0

def loadContent (fs : Fs) (i : ℕ) : Except Fault Fs := do
  let v ← fs.node i
  let secs ← readContent fs v
  return fs.setNode i { v with contentCache := v.contentCache ++ secs }

/-- `load_content` for a vnode with an empty cache. -/
def loadIf (fs : Fs) (i : ℕ) (needed : Vnode → Bool) : Except Fault Fs := do
  let v ← fs.node i
  if v.contentCache = [] ∧ needed v then loadContent fs i else return fs

end CapstoneKernel.Fat32
