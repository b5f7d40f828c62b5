import CapstoneKernel.Fat32.Writing

/-!
# Runs of file operations

The system the kernel's file calls drive: a mounted volume and the open files on it.  In every run
the chains of files and directories stay sound and apart.
-/

namespace CapstoneKernel.Fat32

open Execution List

variable {a : Act} {fs' : Fs} {s s₀ : Sys} {allowed : Sys → Act → Prop}

/-- The volume and the open files. -/
structure Sys where
  fs : Fs
  files : List File

/-- A call of the file system.  Open files are named by their positions. -/
inductive Act
  | create (dir : ℕ) (name : List UInt8) (type : FileType)
  | mkdir (dir : ℕ) (name : List UInt8)
  | openFile (node : ℕ)
  | write (file : ℕ) (buf : List UInt8)
  | read (file len : ℕ)
  | lseek64 (file : ℕ) (offset : ℤ) (whence : Whence)
  deriving DecidableEq

/-- What a call returns. -/
inductive Out
  | none
  | count (n : ℕ)
  | data (bytes : List UInt8)
  | status (done : Bool)
  deriving DecidableEq

namespace Sys

def file (s : Sys) (i : ℕ) : Except Fault File :=
  match s.files[i]? with
  | .none => .error .nullPointer
  | some f => .ok f

end Sys

def Act.run (s : Sys) : Act → Except Fault (Out × Sys)
  | create dir name type => do
      let fs ← fat32Create s.fs dir name type
      return (.none, { s with fs := fs })
  | mkdir dir name => do
      let fs ← fat32Mkdir s.fs dir name
      return (.none, { s with fs := fs })
  | openFile node => do
      let _ ← s.fs.node node
      return (.none, { s with files := s.files ++ [tmpfsOpen node] })
  | write i buf => do
      let f ← s.file i
      let (n, f, fs) ← fat32Write s.fs f buf
      return (.count n, ⟨fs, s.files.set i f⟩)
  | read i len => do
      let f ← s.file i
      let (bytes, f, fs) ← fat32Read s.fs f len
      return (.data bytes, ⟨fs, s.files.set i f⟩)
  | lseek64 i offset whence => do
      let f ← s.file i
      let (done, f) ← fat32Lseek64 s.fs f offset whence
      return (.status done, { s with files := s.files.set i f })

/-- A call that is `allowed` and returns. -/
def FsStep (allowed : Sys → Act → Prop) (s s' : Sys) : Prop :=
  ∃ (a : Act) (out : Out), allowed s a ∧ a.run s = .ok (out, s')

/-- The states that calls lead to from the given one. -/
abbrev FsReachable (allowed : Sys → Act → Prop) (s₀ : Sys) : Sys → Prop :=
  Reachable (· = s₀) (FsStep allowed)

theorem FsReachable.exists_run (allowed : Sys → Act → Prop) [∀ s a, Decidable (allowed s a)] (s₀ : Sys)
    (actions : List Act) (Q : Sys → Prop) [DecidablePred Q]
    (h : ((runAll allowed (fun s a ↦ (a.run s).map Prod.snd) actions s₀).any fun s ↦ decide (Q s)) = true) :
    ∃ s, FsReachable allowed s₀ s ∧ Q s :=
  Reachable.exists_calls allowed (fun s a ↦ a.run s) s₀ actions Q h

/-! ## What a call does to the volume -/

theorem fat32Read_eq_ok {fs : Fs} {file file' : File} {len : ℕ} {bytes : List UInt8}
    (h : fat32Read fs file len = .ok (bytes, file', fs')) :
    ∃ v secs fPos, fs.nodes[file.vnode]? = some v ∧ contentOf fs v (decide (0 < v.fileSize)) = .ok secs ∧
      fs' = fs.setNode file.vnode { v with contentCache := secs } ∧ file.fPos / blkSz ≤ secs.length ∧
      readLoop secs v.fileSize len file.fPos (file.fPos / blkSz) len = .ok (fPos, bytes) ∧
      file' = { file with fPos := fPos } := by
  obtain ⟨fs₁, hload, h⟩ := of_bind_eq_ok h
  obtain ⟨v, secs, hv, hsecs, rfl⟩ := loadIf_eq_ok hload
  rw [Fs.node_of_getElem? (Fs.getElem?_setNode_self hv), ok_bind] at h
  obtain ⟨cur, hwalk, h⟩ := of_bind_eq_ok h
  obtain ⟨⟨fPos, data⟩, hloop, h⟩ := of_bind_eq_ok h
  obtain ⟨rfl, hrest⟩ := Prod.mk.inj (Except.ok.inj h)
  cases hrest
  rw [walk_eq] at hwalk
  split at hwalk
  · next hle =>
    cases hwalk
    exact ⟨v, secs, fPos, hv, hsecs, rfl, hle, hloop, rfl⟩
  · cases hwalk

/-- The volume after a call. -/
inductive FsEffect (s : Sys) : Act → Fs → Prop
  | create {dir : ℕ} {name : List UInt8} {type : FileType} {t : UInt32} {fs' : Fs} :
      Creates s.fs dir (newNode dir type name t []) fs' → FsEffect s (.create dir name type) fs'
  | mkdir {dir : ℕ} {name : List UInt8} {t : UInt32} {cache : List Sector} {fs' : Fs} : dotEntries = .ok cache →
      Creates s.fs dir (newNode dir .dir name t cache) fs' → FsEffect s (.mkdir dir name) fs'
  | write {i : ℕ} {buf : List UInt8} {file file' : File} {fs' : Fs} : s.files[i]? = some file →
      Writes s.fs file buf file' fs' → FsEffect s (.write i buf) fs'
  | read {i len : ℕ} {file : File} {v : Vnode} {secs : List Sector} : s.files[i]? = some file →
      s.fs.nodes[file.vnode]? = some v → contentOf s.fs v (decide (0 < v.fileSize)) = .ok secs →
      FsEffect s (.read i len) (s.fs.setNode file.vnode { v with contentCache := secs })
  | openFile {i : ℕ} : FsEffect s (.openFile i) s.fs
  | lseek64 {i : ℕ} {offset : ℤ} {whence : Whence} : FsEffect s (.lseek64 i offset whence) s.fs

theorem Sys.file_eq_ok {i : ℕ} {f : File} (h : s.file i = .ok f) : s.files[i]? = some f := by
  unfold Sys.file at h
  split at h
  · cases h
  · next heq => rw [heq, Except.ok.inj h]

section

variable (hok : s.fs.ChainsOk)
include hok

theorem Act.effect {s' : Sys} {out : Out} (h : a.run s = .ok (out, s')) : FsEffect s a s'.fs := by
  cases a with
  | create dir name type =>
    obtain ⟨fs, hcreate, h⟩ := of_bind_eq_ok h
    cases h
    obtain ⟨t, hcreates⟩ := fat32Create_creates hok hcreate
    exact .create hcreates
  | mkdir dir name =>
    obtain ⟨fs, hmkdir, h⟩ := of_bind_eq_ok h
    cases h
    obtain ⟨t, cache, hcache, hcreates⟩ := fat32Mkdir_creates hok hmkdir
    exact .mkdir hcache hcreates
  | openFile node =>
    obtain ⟨v, hv, h⟩ := of_bind_eq_ok h
    cases h
    exact .openFile
  | write i buf =>
    obtain ⟨f, hf, h⟩ := of_bind_eq_ok h
    obtain ⟨⟨n, f', fs⟩, hwrite, h⟩ := of_bind_eq_ok h
    cases h
    exact .write (Sys.file_eq_ok hf) (fat32Write_writes hwrite).2
  | read i len =>
    obtain ⟨f, hf, h⟩ := of_bind_eq_ok h
    obtain ⟨⟨bytes, f', fs⟩, hread, h⟩ := of_bind_eq_ok h
    cases h
    obtain ⟨v, secs, fPos, hv, hsecs, rfl, -⟩ := fat32Read_eq_ok hread
    exact .read (Sys.file_eq_ok hf) hv hsecs
  | lseek64 i offset whence =>
    obtain ⟨f, hf, h⟩ := of_bind_eq_ok h
    obtain ⟨⟨done, f'⟩, hseek, h⟩ := of_bind_eq_ok h
    cases h
    exact .lseek64

theorem FsEffect.chainsOk (h : FsEffect s a fs') : fs'.ChainsOk := by
  cases h with
  | create hcreates | mkdir _ hcreates => exact hcreates.chainsOk hok
  | write _ hwrites =>
    obtain ⟨hvol, hheads, happends⟩ := hwrites.appends hok
    rw [Fs.ChainsOk, hvol, hheads]
    exact happends.chainsOk hok
  | read _ hv _ =>
    rw [Fs.ChainsOk, Fs.heads_withCache hv]
    exact hok
  | openFile | lseek64 => exact hok

omit hok in
theorem FsReachable.chainsOk (hstart : s₀.fs.ChainsOk) (h : FsReachable allowed s₀ s) :
    s.fs.ChainsOk := by
  refine h.invariant (P := fun s ↦ s.fs.ChainsOk) (fun s hs ↦ hs ▸ hstart) ?_
  rintro s s' hok ⟨a, out, -, hrun⟩
  exact (a.effect hok hrun).chainsOk hok

/-- The volume stays the same, and the vnodes keep their first clusters. -/
theorem FsEffect.keeps (h : FsEffect s a fs') : fs'.vol = s.fs.vol ∧ s.fs.heads <+: fs'.heads := by
  cases h with
  | create hcreates | mkdir _ hcreates =>
    exact ⟨hcreates.vol_eq, hcreates.heads_eq ▸ prefix_append ..⟩
  | write _ hwrites =>
    obtain ⟨hvol, hheads, -⟩ := hwrites.appends hok
    exact ⟨hvol, hheads ▸ prefix_rfl⟩
  | read _ hv _ =>
    rw [Fs.heads_withCache hv]
    exact ⟨rfl, prefix_rfl⟩
  | openFile | lseek64 => exact ⟨rfl, prefix_rfl⟩

end

theorem FsReachable.keeps (hstart : s₀.fs.ChainsOk) (h : FsReachable allowed s₀ s) :
    s.fs.vol = s₀.fs.vol ∧ s₀.fs.heads <+: s.fs.heads := by
  induction h with
  | start hs => exact hs ▸ ⟨rfl, prefix_rfl⟩
  | next hreach hstep ih =>
    obtain ⟨a, out, -, hrun⟩ := hstep
    have hok := FsReachable.chainsOk hstart hreach
    obtain ⟨hvol, hheads⟩ := (a.effect hok hrun).keeps hok
    exact ⟨hvol.trans ih.1, ih.2.trans hheads⟩

/-- The volume just after it has been mounted, with only the root directory, whose sectors are all
the same. -/
def rootSys (entries : List UInt32) (sector : Sector) : Sys :=
  ⟨⟨smallVolume, tableOf entries, fun _ ↦ sector, [⟨none, .dir, [], 0, [], 2, false, []⟩]⟩, []⟩

section RootSys

variable {entries clusters : List UInt32} {sector : Sector}

theorem rootSys_chainsOk (hzero : tableOf entries 0 ≠ fatEntryFree) (hone : tableOf entries 1 = endMark)
    (hchain : FatChain smallVolume (tableOf entries) 2 clusters) :
    ChainsOk (rootSys entries sector).fs.vol (rootSys entries sector).fs.fat (rootSys entries sector).fs.heads := by
  refine ⟨rfl, hzero, hone, fun head hhead ↦ ?_, pairwise_singleton ..⟩
  obtain rfl := mem_singleton.1 hhead
  exact ⟨clusters, hchain⟩

end RootSys

/-- The table of a volume whose root directory has one cluster. -/
def smallTable : List UInt32 := [0x0ffffff8, endMark, endMark]

end CapstoneKernel.Fat32
