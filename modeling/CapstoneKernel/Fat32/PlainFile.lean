import CapstoneKernel.Fat32.FreeSpace
import CapstoneKernel.Fat32.LostClusters

/-!
# A file as an array of bytes

The sectors of a file stand for an array of bytes, and its handles for positions in the array.
`fat32_read`, `fat32_write` and `tmpfs_lseek64` do what one expects of the array, with one
exception: `fat32_read` looks at the sector of the position before it looks at the size, and there
is none at the end of a file that fills its sectors.
-/

namespace CapstoneKernel.Fat32

open Overlay Execution List Option

variable {secs : List Sector} {bytes d : List UInt8} {p v v' : Vnode}
  {fPos fileSize i len parent f : ℕ} {offset : ℤ} {whence : Whence} {file : File}

/-! ## The array -/

structure PlainFile where
  bytes : List UInt8
  positions : List ℕ

namespace PlainFile

variable (r : PlainFile)

def position (i : ℕ) : ℕ := r.positions.getD i 0

/-- The calls on the array. -/
def run : Act → Out × PlainFile
  | .openFile _ => (.none, { r with positions := r.positions ++ [0] })
  | .write i buf => (.count buf.length,
      ⟨overlay r.bytes (r.position i) buf, r.positions.set i (r.position i + buf.length)⟩)
  | .read i len =>
    let data := (r.bytes.drop (r.position i)).take len
    (.data data, { r with positions := r.positions.set i (r.position i + data.length) })
  | .lseek64 i offset whence =>
    match seekIn r.bytes.length (r.position i) offset whence with
    | none => (.status false, r)
    | some pos => (.status true, { r with positions := r.positions.set i pos })
  | .create .. => (.none, r)
  | .mkdir .. => (.none, r)

end PlainFile

/-! ## The calls -/

/-- The number of sectors that a file has in memory once it is loaded. -/
def sectorCount (v : Vnode) : ℕ := if v.contentCache = [] then sectorsOf v.fileSize else v.contentCache.length

/-- Calls on the file `i` that find a sector to read from and clusters to write to.  The sectors of
a file are counted with an `int`. -/
def staysInFile (i : ℕ) (s : Sys) : Act → Bool
  | .openFile node => node == i
  | .write f buf => s.files[f]?.any fun file ↦ s.fs.nodes[i]?.any fun v ↦
      decide (file.fPos + buf.length < 2 ^ 40) && (buf.isEmpty ||
        decide (sectorsAfter file.fPos buf.length / s.fs.vol.secPerClus - file.fPos / blkSz / s.fs.vol.secPerClus <
          available s.fs (clustersOf s.fs.vol s.fs.fat s.fs.vol.fatEntries v.clusIdx)))
  | .read f len => s.files[f]?.any fun file ↦ s.fs.nodes[i]?.any fun v ↦
      len == 0 || decide (file.fPos / blkSz < sectorCount v)
  | .lseek64 f offset whence => s.files[f]?.isSome && whence != .seekEnd &&
      decide (-2 ^ 63 ≤ offset ∧ offset < 2 ^ 63)
  | .create .. => false
  | .mkdir .. => false

def StaysInFile (i : ℕ) (s : Sys) (a : Act) : Prop := staysInFile i s a = true
deriving Decidable

/-! ## The relation -/

/-- The directory of the vnode has an entry for it. -/
def Registered (fs : Fs) (i : ℕ) (v : Vnode) : Prop :=
  ∃ parent p psecs, v.parent = some parent ∧ parent ≠ i ∧ fs.nodes[parent]? = some p ∧
    contentOf fs p true = .ok psecs ∧ ∃ d ∈ dirSlots psecs, isEntryOf v.clusIdx d = true

/-- The file `i` holds the bytes. -/
structure Holds (fs : Fs) (i : ℕ) (v : Vnode) (bytes : List UInt8) : Prop where
  chainsOk : fs.ChainsOk
  node : fs.nodes[i]? = some v
  registered : Registered fs i v
  content : ∃ secs, contentOf fs v (decide (0 < v.fileSize)) = .ok secs ∧ secs.length = sectorCount v ∧
    v.fileSize ≤ blkSz * secs.length ∧ bytes = contentBytes secs v.fileSize
  size_lt : v.fileSize < 2 ^ 40

/-- The state and the array with its positions. -/
def Simulates (i : ℕ) (s : Sys) (r : PlainFile) : Prop :=
  ∃ v, Holds s.fs i v r.bytes ∧ (∀ f ∈ s.files, f.vnode = i ∧ f.fPos ≤ v.fileSize) ∧
    s.files.map (·.fPos) = r.positions

section Relation

variable {fs fs' : Fs} {i : ℕ} {v : Vnode} {bytes : List UInt8}

theorem contentOf_congr (hok : fs.ChainsOk) (hv : v.clusIdx ∈ fs.heads) (hvol : fs'.vol = fs.vol)
    (hfat : fs'.fat = fs.fat) (hdisk : fs'.disk = fs.disk) (needed : Bool) :
    contentOf fs' v needed = contentOf fs v needed := by
  obtain ⟨clusters, hchain⟩ := hok.chain v.clusIdx hv
  have hread : readContent fs' v = readContent fs v :=
    readContent_congr hchain (by rw [hvol, hfat]; exact hchain) hvol hdisk rfl
  rw [contentOf, contentOf, hread]

theorem contentOf_setNode {j : ℕ} {w : Vnode} (hok : fs.ChainsOk) (hv : v.clusIdx ∈ fs.heads)
    (needed : Bool) : contentOf (fs.setNode j w) v needed = contentOf fs v needed := by
  have hvol : (fs.setNode j w).vol = fs.vol := rfl
  exact contentOf_congr hok hv hvol rfl rfl needed

theorem Holds.length_eq (h : Holds fs i v bytes) : bytes.length = v.fileSize := by
  obtain ⟨secs, -, -, hsize, rfl⟩ := h.content
  exact length_contentBytes hsize

theorem Holds.clusIdx_mem (h : Holds fs i v bytes) : v.clusIdx ∈ fs.heads :=
  mem_map_of_mem (mem_of_getElem? h.node)

theorem contentOf_of_ne_nil (h : v.contentCache ≠ []) (needed : Bool) : contentOf fs v needed = .ok v.contentCache := by
  rw [contentOf, if_neg fun hand ↦ h hand.1]

/-- Loading leaves a vnode without sectors as it was. -/
theorem withContent_cases {needed : Bool} (h : contentOf fs v needed = .ok secs) :
    { v with contentCache := secs } = v ∨ secs ≠ [] := by
  by_cases hsecs : secs = []
  · left
    by_cases hcache : v.contentCache = []
    · rw [hsecs, ← hcache]
    · rw [contentOf_of_ne_nil hcache] at h
      rw [← Except.ok.inj h]
  · exact .inr hsecs

theorem Registered.setNode_self (h : Registered fs i v) (hok : fs.ChainsOk)
    (hparent : v'.parent = v.parent) (hclus : v'.clusIdx = v.clusIdx) :
    Registered (fs.setNode i v') i v' := by
  obtain ⟨parent, p, psecs, hp, hne, hnode, hpsecs, hentry⟩ := h
  refine ⟨parent, p, psecs, hparent.trans hp, hne, ?_, ?_, hclus ▸ hentry⟩
  · rw [Fs.setNode_nodes, getElem?_set_ne hne.symm, hnode]
  · rw [contentOf_setNode hok (mem_map_of_mem (mem_of_getElem? hnode)), hpsecs]

theorem Holds.withContent (h : Holds fs i v bytes)
    (hsecs : contentOf fs v (decide (0 < v.fileSize)) = .ok secs) :
    Holds (fs.setNode i { v with contentCache := secs }) i { v with contentCache := secs } bytes := by
  have hheads := Fs.heads_withCache h.node secs
  refine ⟨by rw [Fs.ChainsOk, hheads]; exact h.chainsOk, Fs.getElem?_setNode_self h.node, ?_, ?_, h.size_lt⟩
  · exact h.registered.setNode_self h.chainsOk rfl rfl
  · obtain ⟨secs', hsecs', hcount, hsize, hbytes⟩ := h.content
    obtain rfl : secs = secs' := Except.ok.inj (hsecs.symm.trans hsecs')
    refine ⟨secs, ?_, ?_, hsize, hbytes⟩
    · rcases withContent_cases hsecs with hsame | hne
      · rw [hsame, contentOf_setNode h.chainsOk h.clusIdx_mem, hsecs]
      · exact contentOf_of_ne_nil (v := { v with contentCache := secs }) hne _
    · rcases withContent_cases hsecs with hsame | hne
      · rw [hsame, hcount]
      · rw [sectorCount, if_neg hne]

end Relation

/-! ## Reading -/

theorem Holds.fat32Read {fs : Fs} (h : Holds fs i v bytes) (hpos : fPos ≤ v.fileSize)
    (hsec : len = 0 ∨ fPos / blkSz < sectorCount v) :
    ∃ v', v'.fileSize = v.fileSize ∧ Holds (fs.setNode i v') i v' bytes ∧
      fat32Read fs ⟨i, fPos⟩ len = .ok ((bytes.drop fPos).take len,
        ⟨i, fPos + ((bytes.drop fPos).take len).length⟩, fs.setNode i v') := by
  obtain ⟨secs, hsecs, hcount, hsize, hbytes⟩ := h.content
  refine ⟨{ v with contentCache := secs }, rfl, h.withContent hsecs, ?_⟩
  have hlength : ((bytes.drop fPos).take len).length = min len (v.fileSize - fPos) := by
    rw [length_take, length_drop, h.length_eq]
  have hwalk : fPos / blkSz ≤ secs.length := by
    rw [Nat.div_le_iff_le_mul_add_pred (by decide)]
    omega
  have hloop := readLoop_eq hsize (Nat.lt_trans h.size_lt (by decide)) hpos (Nat.le_refl len)
    fun hlen ↦ ⟨rfl, hcount ▸ hsec.resolve_left hlen⟩
  rw [Fat32.fat32Read, loadIf_eq, Fs.node_of_getElem? h.node, ok_bind, hsecs, ok_bind, ok_bind,
    Fs.node_of_getElem? (Fs.getElem?_setNode_self h.node), ok_bind]
  dsimp only
  rw [walk_eq, if_pos hwalk, ok_bind, hloop, ok_bind, hlength, hbytes]
  rfl

/-! ## Writing -/

section Write

variable {fs fs' : Fs} {i fPos : ℕ} {v : Vnode} {bytes buf : List UInt8}

theorem getDirEntry_eq {psecs : List Sector} (hv : fs.nodes[i]? = some v)
    (hparent : v.parent = some parent) (hp : fs.nodes[parent]? = some p)
    (hpsecs : contentOf fs p true = .ok psecs) :
    getDirEntry fs i = .ok (fs.setNode parent { p with contentCache := psecs }, parent,
      (dirSlots psecs).findIdx? (isEntryOf v.clusIdx)) := by
  rw [getDirEntry, Fs.node_of_getElem? hv, ok_bind, hparent]
  dsimp only
  rw [loadIf_eq, Fs.node_of_getElem? hp, ok_bind, hpsecs, ok_bind, ok_bind,
    Fs.node_of_getElem? (Fs.getElem?_setNode_self hp), ok_bind]
  rfl

theorem updateEntry_returns {k : ℕ} (hp : fs.nodes[parent]? = some p)
    (hk : (dirSlots p.contentCache)[k]? = some d) :
    ∃ fs', updateEntry fs parent (some k) fileSize = .ok fs' := by
  obtain ⟨cache₁, cache₂, h₁, h₂⟩ := storeSize_returns hk
  rw [updateEntry, Fs.node_of_getElem? hp, ok_bind, h₁, ok_bind, h₂]
  exact ⟨_, rfl⟩

theorem findIdx?_of_mem {slots : List (List UInt8)} (hd : d ∈ slots)
    (hentry : isEntryOf v.clusIdx d = true) :
    ∃ k d, slots.findIdx? (isEntryOf v.clusIdx) = some k ∧ slots[k]? = some d := by
  obtain ⟨k, hk⟩ := isSome_iff_exists.1 (findIdx?_isSome.trans (any_eq_true.2 ⟨d, hd, hentry⟩))
  obtain ⟨hlt, -⟩ := findIdx?_eq_some_iff_getElem.1 hk
  exact ⟨k, slots[k], hk, getElem?_eq_getElem hlt⟩

theorem length_le_soughtCache (whichSec : ℕ) (cache : List Sector) :
    cache.length ≤ (soughtCache whichSec cache).length := by
  unfold soughtCache
  split
  · exact Nat.le_refl _
  · rw [length_append]
    exact Nat.le_add_right ..

theorem lt_length_soughtCache {whichSec : ℕ} {cache : List Sector} (h : whichSec ≤ cache.length) :
    whichSec < (soughtCache whichSec cache).length := by
  unfold soughtCache
  split
  · next hlt => exact hlt
  · rw [length_append, length_singleton]
    omega

theorem Holds.fat32Write_returns {clusters : List UInt32} (h : Holds fs i v bytes) (hpos : fPos ≤ v.fileSize)
    (hchain : FatChain fs.vol fs.fat v.clusIdx clusters) (hspace : buf ≠ [] →
      sectorsAfter fPos buf.length / fs.vol.secPerClus - fPos / blkSz / fs.vol.secPerClus < available fs clusters) :
    ∃ r, fat32Write fs ⟨i, fPos⟩ buf = .ok r := by
  obtain ⟨secs, hsecs, -, hsize, -⟩ := h.content
  obtain ⟨parent, p, psecs, hparent, hne, hp, hpsecs, d, hd, hentry⟩ := h.registered
  obtain ⟨k, d, hfind, hk⟩ := findIdx?_of_mem hd hentry
  have hv₁ : (fs.setNode parent { p with contentCache := psecs }).nodes[i]? = some v := by
    rw [Fs.setNode_nodes, getElem?_set_ne hne, h.node]
  have hle : fPos / blkSz ≤ secs.length := by
    rw [Nat.div_le_iff_le_mul_add_pred (by decide)]
    omega
  -- The volume with both vnodes loaded.
  obtain ⟨fs₂, hfs₂⟩ : ∃ fs₂, fs₂ = (fs.setNode parent { p with contentCache := psecs }).setNode i
      { v with contentCache := secs } := ⟨_, rfl⟩
  have hvol : fs₂.vol = fs.vol := by rw [hfs₂]; rfl
  have hfat : fs₂.fat = fs.fat := by rw [hfs₂]; rfl
  have hcursor : Cursor fs₂ fs.heads v.clusIdx clusters 0 v.clusIdx := by
    refine ⟨?_, h.clusIdx_mem, ?_, hchain.getElem?_zero⟩
    · rw [hvol, hfat]
      exact h.chainsOk
    · rw [hvol, hfat]
      exact hchain
  obtain ⟨w, hloop⟩ : ∃ w, writeLoop buf.length (writeStart fs₂ v fPos secs) (fPos / blkSz) buf =
    .ok w := by
    refine writeLoop_returns (Nat.le_refl _) hcursor fun hbuf ↦
      ⟨rfl, rfl, lt_length_soughtCache hle, ?_⟩
    rw [Nat.zero_add, writeStart, available, hvol, hfat]
    exact hspace hbuf
  obtain ⟨fat, -, hfs, -⟩ := (writeLoop_rounds hloop).moves hcursor
  have hp₂ : ∀ v', (w.fs.setNode i v').nodes[parent]? = some { p with contentCache := psecs } := by
    intro v'
    rw [hfs, Fs.setNode_nodes, getElem?_set_ne hne.symm, writeStart, hfs₂, Fs.setNode_nodes,
      getElem?_set_ne hne.symm, Fs.getElem?_setNode_self hp]
  obtain ⟨fs₃, hupdate⟩ := updateEntry_returns
    (hp₂ { v with contentCache := w.cache, fileSize := w.fileSize, dirty := true }) hk
  rw [fat32Write, getDirEntry_eq h.node hparent hp hpsecs, ok_bind]
  dsimp only
  rw [loadIf_eq, Fs.node_of_getElem? hv₁, ok_bind, contentOf_setNode h.chainsOk h.clusIdx_mem,
    hsecs, ok_bind, ok_bind,
    Fs.node_of_getElem? (Fs.getElem?_setNode_self hv₁), ok_bind, seekSector_eq hle, ok_bind]
  dsimp only
  rw [← hfs₂]
  rw [writeStart] at hloop
  rw [hloop, ok_bind, hfind, hupdate]
  exact ⟨_, rfl⟩

theorem Writes.holds {file' : File} (hwrites : Writes fs file buf file' fs') (h : Holds fs file.vnode v bytes)
    (hpos : file.fPos ≤ v.fileSize) (hlt : file.fPos + buf.length < 2 ^ 40) :
    file' = ⟨file.vnode, file.fPos + buf.length⟩ ∧ ∃ v', Holds fs' file.vnode v' (overlay bytes file.fPos buf) ∧
      v'.fileSize = max v.fileSize (file.fPos + buf.length) := by
  obtain ⟨parent, p, -, hparent, hne, hp, -⟩ := h.registered
  have hok' : fs'.ChainsOk := by
    obtain ⟨hvol, hheads, happends⟩ := hwrites.appends h.chainsOk
    rw [Fs.ChainsOk, hvol, hheads]
    exact happends.chainsOk h.chainsOk
  obtain ⟨fat, w, fs₂, secs, psecs, k, pcache₁, pcache, -, -, hentry, hsecs, hle, hrounds, hstore₁,
    hstore, hfile', hfs'⟩ := hwrites.stores h.chainsOk h.node hparent hp hne
  rw [contentOf_setNode h.chainsOk h.clusIdx_mem] at hsecs
  obtain ⟨secs', hsecs', -, hsize, hbytes⟩ := h.content
  obtain rfl : secs = secs' := Except.ok.inj (hsecs.symm.trans hsecs')
  have hsought := Nat.mul_le_mul_left blkSz (length_le_soughtCache (file.fPos / blkSz) secs)
  have hover := hrounds.overwrites (fun _ ↦ rfl) hpos (Nat.le_trans hsize hsought)
  have hfPos : w.fPos = file.fPos + buf.length := hover.fPos
  have hfileSize : w.fileSize = max v.fileSize (file.fPos + buf.length) := hfPos ▸ hover.fileSize
  have hcache : w.cache ≠ [] := by
    intro hempty
    have hlength := hrounds.length_ge
    have hlt := lt_length_soughtCache hle
    rw [hempty] at hlength
    exact absurd (Nat.lt_of_lt_of_le hlt hlength) (Nat.not_lt_zero _)
  obtain ⟨hk, hd, -⟩ := findIdx?_eq_some_iff_getElem.1 hentry
  have hslots := (storeSize_stored (getElem?_eq_getElem hk) hstore₁ hstore).2
  have hmem : withSize ((dirSlots psecs)[k]) (UInt32.ofNat w.fileSize) ∈ dirSlots pcache := by
    rw [hslots]
    exact mem_set hk _
  have hpcache : pcache ≠ [] := by
    rintro rfl
    exact absurd hmem (not_mem_nil)
  have hlt : file.vnode < fs.nodes.length := (List.getElem?_eq_some_iff.1 h.node).1
  have hplt : parent < fs.nodes.length := (List.getElem?_eq_some_iff.1 hp).1
  refine ⟨by rw [hfile', hfPos],
    { v with contentCache := w.cache, fileSize := w.fileSize, dirty := true },
    ⟨hok', ?_, ?_, ?_, ?_⟩, hfileSize⟩
  · rw [hfs', getElem?_set_ne hne, getElem?_set_self hlt]
  · refine ⟨parent, { p with contentCache := pcache, dirty := true }, pcache, hparent, hne, ?_,
      contentOf_of_ne_nil (v := { p with contentCache := pcache, dirty := true }) hpcache true, _,
        hmem, ?_⟩
    · rw [hfs', getElem?_set_self (by rwa [length_set])]
    · exact isEntryOf_withSize (length_of_mem_dirSlots _ (getElem_mem hk)) hd
  · refine ⟨w.cache, contentOf_of_ne_nil hcache _, ?_, hover.covered, ?_⟩
    · rw [sectorCount, if_neg hcache]
    · dsimp only
      rw [hover.bytes, writeStart, contentBytes_soughtCache _ hsize, hbytes]
  · dsimp only
    have hsmall := h.size_lt
    omega

end Write

/-! ## Runs -/

section Calls

variable {i : ℕ} {s : Sys} {r : PlainFile}

theorem Sys.file_of_getElem? (h : s.files[f]? = some file) : s.file f = .ok file := by
  unfold Sys.file
  rw [h]

section

variable (h : Simulates i s r)
include h

theorem Simulates.position_eq (hf : s.files[f]? = some file) : r.position f = file.fPos := by
  obtain ⟨v, -, -, hpositions⟩ := h
  rw [PlainFile.position, ← hpositions, getD_eq_getElem?_getD, getElem?_map, hf]
  rfl

/-- A call that changes the handle `f` and keeps or extends the file. -/
theorem Simulates.setFile {fs' : Fs} (hv : s.fs.nodes[i]? = some v) (hholds : Holds fs' i v' bytes)
    (hsize : v.fileSize ≤ v'.fileSize) (hpos : fPos ≤ v'.fileSize) :
    Simulates i ⟨fs', s.files.set f ⟨i, fPos⟩⟩ ⟨bytes, r.positions.set f fPos⟩ := by
  obtain ⟨v₀, hold, hfiles, hpositions⟩ := h
  obtain rfl := mem_unique hv hold.node
  refine ⟨v', hholds, fun file hfile ↦ ?_, ?_⟩
  · rcases mem_or_eq_of_mem_set hfile with hmem | rfl
    · exact ⟨(hfiles file hmem).1, Nat.le_trans (hfiles file hmem).2 hsize⟩
    · exact ⟨rfl, hpos⟩
  · rw [map_set, hpositions]

omit h in
/-- The call returns what it returns for the array, and the relation holds afterwards. -/
def Agrees (i : ℕ) (s : Sys) (r : PlainFile) (a : Act) : Prop :=
  Returns (a.run s) fun o ↦ o.1 = (r.run a).1 ∧ Simulates i o.2 (r.run a).2

theorem Simulates.write {buf : List UInt8} (hallowed : StaysInFile i s (.write f buf)) :
    Agrees i s r (.write f buf) := by
  obtain ⟨file, hf, hallowed⟩ := (Option.any_eq_true ..).1 hallowed
  obtain ⟨v, hv, hallowed⟩ := (Option.any_eq_true ..).1 hallowed
  rw [Bool.and_eq_true, Bool.or_eq_true, decide_eq_true_eq, decide_eq_true_eq,
    List.isEmpty_iff] at hallowed
  obtain ⟨hlt, hspace⟩ := hallowed
  obtain ⟨v', hholds, hfiles, hpositions⟩ := id h
  obtain rfl := mem_unique hv hholds.node
  obtain ⟨rfl, hpos⟩ := hfiles file (mem_of_getElem? hf)
  obtain ⟨clusters, hchain⟩ := hholds.chainsOk.chain _ hholds.clusIdx_mem
  rw [hchain.clustersOf_eq hchain.length_le] at hspace
  obtain ⟨⟨n, file', fs'⟩, hwrite⟩ := hholds.fat32Write_returns hpos hchain hspace.resolve_left
  obtain ⟨rfl, hwrites⟩ := fat32Write_writes hwrite
  obtain ⟨rfl, v', hholds', hsize⟩ := hwrites.holds hholds hpos hlt
  rw [Agrees, Act.run, Sys.file_of_getElem? hf, ok_bind, hwrite, ok_bind]
  refine .ok ⟨rfl, ?_⟩
  rw [PlainFile.run, h.position_eq hf]
  exact h.setFile hv hholds' (by omega) (by omega)

theorem Simulates.read (hallowed : StaysInFile i s (.read f len)) : Agrees i s r (.read f len) := by
  obtain ⟨file, hf, hallowed⟩ := (Option.any_eq_true ..).1 hallowed
  obtain ⟨v, hv, hsec⟩ := (Option.any_eq_true ..).1 hallowed
  rw [Bool.or_eq_true, beq_iff_eq, decide_eq_true_eq] at hsec
  obtain ⟨v', hholds, hfiles, hpositions⟩ := id h
  obtain rfl := mem_unique hv hholds.node
  obtain ⟨rfl, hpos⟩ := hfiles file (mem_of_getElem? hf)
  obtain ⟨v', hsize, hholds', hread⟩ := hholds.fat32Read hpos hsec
  rw [Agrees, Act.run, Sys.file_of_getElem? hf, ok_bind, hread, ok_bind, PlainFile.run,
    h.position_eq hf]
  refine .ok ⟨rfl, h.setFile hv hholds' (Nat.le_of_eq hsize.symm) ?_⟩
  rw [length_take, length_drop, hholds.length_eq, hsize]
  omega

theorem Simulates.lseek64 (hallowed : StaysInFile i s (.lseek64 f offset whence)) :
    Agrees i s r (.lseek64 f offset whence) := by
  rw [StaysInFile, staysInFile, Bool.and_eq_true, Bool.and_eq_true, bne_iff_ne,
    decide_eq_true_eq] at hallowed
  obtain ⟨⟨hsome, hwhence⟩, hoffset⟩ := hallowed
  obtain ⟨file, hf⟩ := isSome_iff_exists.1 hsome
  obtain ⟨v, hholds, hfiles, hpositions⟩ := id h
  obtain ⟨rfl, hpos⟩ := hfiles file (mem_of_getElem? hf)
  have hseek := Tmpfs.lseek_eq hwhence (Nat.lt_trans hholds.size_lt (by decide)) hpos hoffset
  rw [Agrees, Act.run, Sys.file_of_getElem? hf, ok_bind, fat32Lseek64,
    Fs.node_of_getElem? hholds.node, ok_bind,
    PlainFile.run, h.position_eq hf, hseek, hholds.length_eq]
  cases htarget : seekIn v.fileSize file.fPos offset whence with
  | none =>
    have hsame : s.files.set f file = s.files := by
      obtain ⟨hlt, rfl⟩ := List.getElem?_eq_some_iff.1 hf
      exact set_getElem_self hlt
    refine .ok ⟨rfl, ?_⟩
    dsimp only
    rw [hsame]
    exact h
  | some pos =>
    exact .ok ⟨rfl, h.setFile hholds.node hholds (Nat.le_refl _) (Tmpfs.seekIn_le htarget)⟩

/-- Every allowed call returns what it returns for the array. -/
theorem Simulates.call {a : Act} (hallowed : StaysInFile i s a) : Agrees i s r a := by
  cases a with
  | create dir name type | mkdir dir name => cases hallowed
  | openFile node =>
    obtain ⟨v, hholds, hfiles, hpositions⟩ := h
    obtain rfl : node = i := eq_of_beq hallowed
    rw [Agrees, Act.run, Fs.node_of_getElem? hholds.node, ok_bind]
    refine .ok ⟨rfl, v, hholds, fun file hfile ↦ ?_, ?_⟩
    · rcases mem_append.1 hfile with hold | hnew
      · exact hfiles file hold
      · rw [mem_singleton.1 hnew]
        exact ⟨rfl, Nat.zero_le _⟩
    · rw [map_append, hpositions]
      rfl
  | write f buf => exact h.write hallowed
  | read f len => exact h.read hallowed
  | lseek64 f offset whence => exact h.lseek64 hallowed

end

end Calls

/-! ## The file and the array -/

/-- The file `i` before it is used for the first time: its sectors are on the disk, in a chain that
is long enough, and its size is one that `load_content` can count.  The array has the bytes on the
disk. -/
structure OnDisk (i : ℕ) (s : Sys) (r : PlainFile) : Prop where
  chainsOk : s.fs.ChainsOk
  file : ∃ v clusters, s.fs.nodes[i]? = some v ∧ v.type = .file ∧ v.contentCache = [] ∧ v.fileSize ≤ 2 ^ 31 ∧
    Registered s.fs i v ∧ FatChain s.fs.vol s.fs.fat v.clusIdx clusters ∧
    sectorsOf v.fileSize ≤ s.fs.vol.secPerClus * clusters.length ∧
    r.bytes = contentBytes (chainSectors s.fs.vol s.fs.disk clusters) v.fileSize
  handles : ∀ f ∈ s.files, f.vnode = i ∧ f.fPos ≤ r.bytes.length
  positions : r.positions = s.files.map (·.fPos)

theorem OnDisk.simulates {s : Sys} {r : PlainFile} (h : OnDisk i s r) : Simulates i s r := by
  obtain ⟨hok, ⟨v, clusters, hv, hfile, hcache, hsize, hreg, hchain, hlong, hbytes⟩, hhandles,
    hpositions⟩ := h
  have hload : ∃ secs, contentOf s.fs v (decide (0 < v.fileSize)) = .ok secs ∧
      secs = (chainSectors s.fs.vol s.fs.disk clusters).take (sectorsOf v.fileSize) := by
    rw [contentOf]
    by_cases hzero : 0 < v.fileSize
    · rw [if_pos ⟨hcache, decide_eq_true hzero⟩, readContent_file hchain hfile hsize]
      exact ⟨_, rfl, rfl⟩
    · rw [if_neg fun hand ↦ hzero (of_decide_eq_true hand.2), hcache]
      have hnone : sectorsOf v.fileSize = 0 := by
        rw [Nat.eq_zero_of_not_pos hzero]
        rfl
      rw [hnone, take_zero]
      exact ⟨_, rfl, rfl⟩
  obtain ⟨secs, hsecs, rfl⟩ := hload
  have hlength : ((chainSectors s.fs.vol s.fs.disk clusters).take (sectorsOf v.fileSize)).length =
      sectorsOf v.fileSize := by
    rw [length_take, length_chainSectors, Nat.min_eq_left hlong]
  have hcovered : v.fileSize ≤ blkSz * sectorsOf v.fileSize := by
    unfold sectorsOf blkSz
    omega
  have hholds : Holds s.fs i v r.bytes := by
    refine ⟨hok, hv, hreg, ⟨_, hsecs, ?_, ?_, ?_⟩, by omega⟩
    · rw [hlength, sectorCount, if_pos hcache]
    · rw [hlength]
      exact hcovered
    · rw [hbytes, contentBytes_take (by rw [hlength]; exact hcovered)]
  exact ⟨v, hholds, fun f hf ↦ hholds.length_eq ▸ hhandles f hf, hpositions.symm⟩

/-- If reads find a sector and writes find clusters, reads, writes and seeks do to the file what
they do to the array, and none of them runs behind the sectors of the file. -/
theorem file_refines_bytes {i : ℕ} {s₀ s : Sys} {r₀ r : PlainFile} (hstart : OnDisk i s₀ r₀)
    (hrun : Reachable (· = (s₀, r₀)) (LockStep (StaysInFile i) (fun s a ↦ a.run s) PlainFile.run) (s, r)) :
    (∃ v, s.fs.nodes[i]? = some v ∧ v.fileSize = r.bytes.length) ∧ s.files.map (·.fPos) = r.positions ∧
      ∀ a, StaysInFile i s a → Returns (a.run s) fun o ↦ o.1 = (r.run a).1 := by
  have hsim : Simulates i s r := hrun.lockStep
    (fun s r a h hallowed ↦ h.call hallowed) hstart.simulates
  obtain ⟨v, hholds, -, hpositions⟩ := id hsim
  refine ⟨⟨v, hholds.node, hholds.length_eq.symm⟩, hpositions, fun a hallowed ↦ ?_⟩
  exact (hsim.call hallowed).mono fun o ho ↦ ho.1

/-- The entry of a file in the cluster with number 3. -/
def fileEntry (fileSize : UInt32) : List UInt8 :=
  65 :: spaces 10 ++ [attrArchive] ++ List.replicate 14 0 ++ [3, 0] ++ bytesOf32 fileSize

/-- A directory with one entry. -/
def entrySector (fileSize : UInt32) : Sector :=
  ⟨fileEntry fileSize ++ List.replicate 480 0, by
    rw [length_append, length_replicate]
    rfl⟩

def oneFileTable : List UInt32 := [0x0ffffff8, endMark, endMark, endMark]

/-- A volume with one file, which has just been opened. -/
def oneFile (fileSize : UInt32) : Sys :=
  ⟨⟨smallVolume, tableOf oneFileTable, fun _ ↦ entrySector fileSize,
    [⟨none, .dir, [], 0, [1], 2, false, []⟩, ⟨some 0, .file, [65], fileSize.toNat, [], 3, false, []⟩]⟩, [⟨1, 0⟩]⟩

theorem oneFile_onDisk {fileSize : UInt32} (h : fileSize.toNat ≤ blkSz)
    (hentry : isEntryOf 3 (fileEntry fileSize) = true) :
    OnDisk 1 (oneFile fileSize) ⟨(entrySector fileSize).bytes.take fileSize.toNat, [0]⟩ := by
  have hroot : FatChain (oneFile fileSize).fs.vol (oneFile fileSize).fs.fat 2 [2] :=
    show FatChain smallVolume (tableOf oneFileTable) 2 [2] by decide +kernel
  have hfile : FatChain (oneFile fileSize).fs.vol (oneFile fileSize).fs.fat 3 [3] :=
    show FatChain smallVolume (tableOf oneFileTable) 3 [3] by decide +kernel
  have hok : ChainsOk (oneFile fileSize).fs.vol (oneFile fileSize).fs.fat [2, 3] := by
    have hzero : tableOf oneFileTable 0 ≠ fatEntryFree := by decide
    have hone : tableOf oneFileTable 1 = endMark := by decide
    refine ⟨rfl, hzero, hone, fun head hhead ↦ ?_, pairwise_pair.2 fun c hc hc' ↦ ?_⟩
    · rcases mem_pair.1 hhead with rfl | rfl
      · exact ⟨[2], hroot⟩
      · exact ⟨[3], hfile⟩
    · obtain ⟨clusters, hchain, hmem⟩ := hc
      obtain ⟨clusters', hchain', hmem'⟩ := hc'
      rw [hchain.unique hroot, mem_singleton] at hmem
      rw [hchain'.unique hfile, mem_singleton] at hmem'
      exact absurd (hmem.symm.trans hmem') (by decide)
  have hsmall : fileSize.toNat ≤ 2 ^ 31 := Nat.le_trans h (by decide)
  refine ⟨hok, ⟨_, [3], rfl, rfl, rfl, hsmall, ?_, hfile, ?_, ?_⟩, fun f hf ↦ ?_, rfl⟩
  · have hload : contentOf (oneFile fileSize).fs ⟨none, .dir, [], 0, [1], 2, false, []⟩ true =
        .ok [entrySector fileSize] := by
      rw [contentOf, if_pos ⟨rfl, rfl⟩]
      exact readContent_dir (v := ⟨none, .dir, [], 0, [1], 2, false, []⟩) hroot rfl
    exact ⟨0, _, [entrySector fileSize], rfl, by rintro ⟨⟩, rfl, hload, fileEntry fileSize,
      mem_cons_self, hentry⟩
  · have hone : sectorsOf fileSize.toNat ≤ 1 := by
      unfold sectorsOf blkSz at *
      omega
    exact hone
  · change _ = ((entrySector fileSize).bytes ++ []).take fileSize.toNat
    rw [append_nil]
  · obtain rfl := mem_singleton.1 hf
    exact ⟨rfl, Nat.zero_le _⟩

/-- Reading, overwriting and extending a file of three bytes. -/
theorem file_refines_bytes_extend : ∃ s r, (Reachable (· = (oneFile 3, ⟨[65, 32, 32], [0]⟩))
      (LockStep (StaysInFile 1) (fun s a ↦ a.run s) PlainFile.run) (s, r) ∧
      StaysInFile 1 s (.read 0 9) ∧ (r.run (.read 0 9)).1 = .data [65, 7, 8, 9]) ∧
    Returns ((Act.read 0 9).run s) fun o ↦ o.1 = (r.run (.read 0 9)).1 := by
  obtain ⟨⟨s, r⟩, hreach, hs⟩ := Reachable.exists_lockStep (StaysInFile 1)
    (fun s a ↦ Act.run s a) PlainFile.run
    (oneFile 3, ⟨[65, 32, 32], [0]⟩) [.read 0 1, .write 0 [7, 8, 9], .lseek64 0 0 .seekSet]
    (fun x ↦ StaysInFile 1 x.1 (.read 0 9) ∧ (x.2.run (.read 0 9)).1 = .data [65, 7, 8, 9])
      (by decide +kernel)
  have hstart : OnDisk 1 (oneFile 3) ⟨[65, 32, 32], [0]⟩ := oneFile_onDisk (by decide) (by decide)
  exact ⟨s, r, ⟨hreach, hs⟩, (file_refines_bytes hstart hreach).2.2 _ hs.1⟩

/-- The end of an empty file is behind its sectors. -/
theorem read_empty_file : ∃ s r, OnDisk 1 s r ∧ (Act.read 0 1).run s = .error .nullPointer ∧
    (r.run (.read 0 1)).1 = .data [] := by
  have hstart : OnDisk 1 (oneFile 0) ⟨[], [0]⟩ := oneFile_onDisk (by decide) (by decide)
  exact ⟨oneFile 0, _, hstart, rfl, rfl⟩

end CapstoneKernel.Fat32
