import CapstoneKernel.Fat32.FirstSector
import CapstoneKernel.Fat32.Parsing

/-!
# Directories on the disk

What is left of new files and directories after `sync`.  A directory is marked dirty when a file in
it is written, but not when an entry is added to it, and `sync` writes no more than its first
sector. So the entries get to the disk if they are in first sectors and a file has been written in
every directory that has changed.
-/

namespace CapstoneKernel.Fat32

open Execution List Option

/-! ## The tree of a mounted volume -/

/-- The vnodes that mounting leaves: a tree, with nothing cached. -/
structure Fresh (fs : Fs) : Prop where
  tree : Tree fs.nodes
  root : 0 < fs.nodes.length
  empty : ∀ v ∈ fs.nodes, v.contentCache = []
  size : ∀ v ∈ fs.nodes, v.type = .dir → v.fileSize = 0

/-- There is a directory with the number. -/
def IsDirAt (fs : Fs) (i : ℕ) : Prop := ∃ d, fs.nodes[i]? = some d ∧ d.type = .dir

/-- Parsing has added to the tree. -/
def TreeGrows (fs fs' : Fs) : Prop := Fresh fs' ∧ ∀ i, IsDirAt fs i → IsDirAt fs' i

section Mount

variable {recurse : Fs → ℕ → UInt32 → Except Fault Fs} {parent : ℕ} {fs fs' : Fs}
    {lfn lfn' d : List UInt8} {v : Vnode}

theorem TreeGrows.trans {fs₁ : Fs} (h : TreeGrows fs fs₁) (h' : TreeGrows fs₁ fs') :
    TreeGrows fs fs' :=
  ⟨h'.1, fun i hi ↦ h'.2 i (h.2 i hi)⟩

theorem addParsed_nodes {p : Vnode} (hp : fs.nodes[parent]? = some p) :
    (fs.addParsed parent v).nodes = fs.nodes.set parent (withChild fs p) ++ [v] := by
  rw [Fs.addParsed, modify_eq_set_getElem?, hp]
  rfl

theorem Fresh.addParsed (h : Fresh fs) (hparent : IsDirAt fs parent) (hv : v.parent = some parent)
    (hleaf : v.children = []) (hempty : v.contentCache = [])
    (hsize : v.type = .dir → v.fileSize = 0) : TreeGrows fs (fs.addParsed parent v) := by
  obtain ⟨p, hp, hdir⟩ := hparent
  have hnodes := addParsed_nodes (v := v) hp
  have hmem := mem_of_getElem? hp
  -- The directory has a new child and is otherwise as before.
  have hcases : ∀ u ∈ (fs.addParsed parent v).nodes, u = withChild fs p ∨ u ∈ fs.nodes ∨ u = v := by
    intro u hu
    obtain ⟨i, hi⟩ := getElem?_of_mem hu
    rw [hnodes] at hi
    rcases getElem?_set_append_cases hi with ⟨-, rfl⟩ | ⟨-, rfl⟩ | ⟨-, -, hold⟩
    · exact .inl rfl
    · exact .inr (.inr rfl)
    · exact .inr (.inl (mem_of_getElem? hold))
  refine ⟨⟨?_, ?_, fun u hu ↦ ?_, fun u hu hutype ↦ ?_⟩, fun i ⟨u, hu, hutype⟩ ↦ ?_⟩
  · rw [hnodes]
    exact h.tree.add hp hdir rfl rfl rfl hv hleaf
  · rw [hnodes, length_append]
    exact Nat.add_pos_right _ Nat.one_pos
  · rcases hcases u hu with rfl | hold | rfl
    · exact h.empty p hmem
    · exact h.empty u hold
    · exact hempty
  · rcases hcases u hu with rfl | hold | rfl
    · exact h.size p hmem hdir
    · exact h.size u hold hutype
    · exact hsize hutype
  · rw [IsDirAt, hnodes]
    by_cases hi : i = parent
    · subst hi
      exact ⟨_, getElem?_set_append_dir hp, hdir⟩
    · exact ⟨u, getElem?_set_append_ne hu hi, hutype⟩

theorem Fresh.addParsedVnode (h : Fresh fs) (hparent : IsDirAt fs parent) (type : FileType)
    (name d : List UInt8) :
    TreeGrows fs (fs.addParsed parent (parsedVnode parent type name d)) := by
  refine h.addParsed hparent rfl rfl rfl fun hdir ↦ if_neg ?_
  rintro rfl
  cases hdir

section Loop

variable (hcall : ∀ fs node clus fs', Fresh fs → IsDirAt fs node → recurse fs node clus = .ok fs' →
  TreeGrows fs fs')

include hcall

theorem parseShort_treeGrows (h : Fresh fs) (hparent : IsDirAt fs parent)
    (hok : parseShort recurse parent fs lfn d = .ok fs') : TreeGrows fs fs' := by
  unfold parseShort at hok
  dsimp only at hok
  split at hok
  · have hadd := h.addParsedVnode hparent .dir (if lfn ≠ [] then lfn else sfnName d) d
    refine hadd.trans (hcall _ _ _ _ hadd.1 ?_ hok)
    obtain ⟨p, hp, -⟩ := hparent
    refine ⟨parsedVnode parent .dir (if lfn ≠ [] then lfn else sfnName d) d, ?_, rfl⟩
    rw [addParsed_nodes hp, getElem?_append_right (by rw [length_set]), length_set, Nat.sub_self]
    rfl
  · cases hok
    exact h.addParsedVnode hparent .file _ d

theorem parseSlot_treeGrows (h : Fresh fs) (hparent : IsDirAt fs parent)
    (hok : parseSlot recurse parent fs lfn d = .ok (fs', lfn')) : TreeGrows fs fs' := by
  unfold parseSlot at hok
  split at hok
  · cases hok
    exact ⟨h, fun _ ↦ id⟩
  · split at hok
    · cases hok
      exact ⟨h, fun _ ↦ id⟩
    · split at hok
      · obtain ⟨lfn', -, hpair⟩ := map_eq_ok hok
        cases hpair
        exact ⟨h, fun _ ↦ id⟩
      · obtain ⟨fs₁, hshort, hpair⟩ := map_eq_ok hok
        cases hpair
        exact parseShort_treeGrows hcall h hparent hshort

theorem parseSlots_treeGrows {slots : List (List UInt8)} {done : Bool} (h : Fresh fs)
    (hparent : IsDirAt fs parent)
    (hok : parseSlots recurse parent slots fs lfn = .ok (fs', lfn', done)) : TreeGrows fs fs' := by
  induction slots generalizing fs lfn with
  | nil =>
    cases hok
    exact ⟨h, fun _ ↦ id⟩
  | cons d slots ih =>
    cases hend : isEnd d with
    | true =>
      rw [parseSlots_end hend] at hok
      cases hok
      exact ⟨h, fun _ ↦ id⟩
    | false =>
      rw [parseSlots_cons hend] at hok
      obtain ⟨⟨fs₁, lfn₁⟩, hslot, hok⟩ := of_bind_eq_ok hok
      have hgrows := parseSlot_treeGrows hcall h hparent hslot
      exact hgrows.trans (ih hgrows.1 (hgrows.2 _ hparent) hok)

end Loop

theorem parseSdRecursive_treeGrows {fuel : ℕ} {clus : UInt32} (h : Fresh fs)
    (hparent : IsDirAt fs parent) (hok : parseSdRecursive fuel fs parent clus lfn = .ok fs') :
    TreeGrows fs fs' := by
  induction fuel generalizing fs fs' parent clus lfn with
  | zero => cases hok
  | succ fuel ih =>
    rw [parseSdRecursive_succ] at hok
    obtain ⟨⟨fs₁, lfn₁, done⟩, hslots, hok⟩ := of_bind_eq_ok hok
    have hgrows := parseSlots_treeGrows
      (fun _ _ _ _ h hnode hcall ↦ ih h hnode hcall) h hparent hslots
    cases done with
    | true =>
      cases hok
      exact hgrows
    | false =>
      obtain ⟨entry, -, hok⟩ := of_bind_eq_ok hok
      exact hgrows.trans (ih hgrows.1 (hgrows.2 _ hparent) hok)

theorem fat32SetupMount_fresh {fuel : ℕ} {name : List UInt8}
    (hok : fat32SetupMount fuel fs name = .ok fs') : Fresh fs' := by
  have hone {i : ℕ} {v : Vnode} (hv : [fs.root name][i]? = some v) : i = 0 ∧ v = fs.root name := by
    cases i with
    | zero => exact ⟨rfl, (some.inj hv).symm⟩
    | succ i => cases hv
  have htree : Tree [fs.root name] := by
    refine ⟨fun v hv ↦ ?_, fun i v hv c hc ↦ ?_, fun i v hv hi ↦ absurd (hone hv).1 hi⟩
    · rw [(hone hv).2]
      rfl
    · rw [(hone hv).2] at hc
      exact absurd hc not_mem_nil
  have hstart : Fresh { fs with nodes := [fs.root name] } := by
    refine ⟨htree, Nat.one_pos, fun v hv ↦ ?_, fun v hv _ ↦ ?_⟩
    · rw [mem_singleton.1 hv]
      rfl
    · rw [mem_singleton.1 hv]
      rfl
  exact (parseSdRecursive_treeGrows hstart ⟨fs.root name, rfl, rfl⟩ hok).1

end Mount

/-- A volume that can be worked with: it has sound chains, and no entry in the first sector of a
directory names a free cluster. -/
structure Sound (fs : Fs) : Prop where
  onDisk : fs.vol.OnDisk
  chainsOk : fs.ChainsOk
  used : ∀ d ∈ fs.nodes, d.type = .dir →
    EntriesUsed fs.fat (fs.disk (fs.vol.block d.clusIdx 0)).slots

theorem Fresh.inv {fs : Fs} (h : Fresh fs) (hsound : Sound fs) : Inv fs.nodes.length fs := by
  have hout {i : ℕ} {v : Vnode} (hi : fs.nodes.length ≤ i) (hv : fs.nodes[i]? = some v) : False :=
    absurd (List.getElem?_eq_some_iff.1 hv).1 (Nat.not_lt.2 hi)
  refine ⟨hsound.chainsOk, h.tree, fun d hd hdir ↦ ⟨h.size d hd hdir, fun _ _ ↦ ?_, ?_⟩,
    fun i v hi hv ↦ (hout hi hv).elim, fun i v _ _ hi hv _ _ ↦ (hout hi hv).elim⟩
  · rw [h.empty d hd]
    exact List.nil_prefix
  · rw [firstSlots, h.empty d hd]
    exact hsound.used d hd hdir

/-! ## After `sync` -/

/-- Every directory with cached sectors is marked, and what is marked ends in its first cluster. -/
def Marked (fs : Fs) : Prop :=
  ∀ v ∈ fs.nodes, (v.type = .dir → v.contentCache ≠ [] → v.dirty = true) ∧
    (v.dirty = true → v.fileSize ≤ blkSz * fs.vol.secPerClus)
deriving Decidable

/-- The sectors of a directory have a short entry in use with the name, the first cluster and the
size of the vnode, and the directory does not end before it. -/
def HasEntry (v : Vnode) (secs : List Sector) : Prop :=
  ∃ k e, (dirSlots secs)[k]? = some e ∧ e.take 11 = shortName v.name ∧ dirAttr e ≠ attrLongName ∧
    dirFstClus e = v.clusIdx ∧ (dirFileSize e).toNat = v.fileSize ∧
      ∀ d ∈ (dirSlots secs).take (k + 1), isFreeEntry d = false

/-- What is on the disk after `sync`: the table, the cached sectors of directories, and the entries
of the vnodes from number `created` on.  Directories are read through their chains. -/
structure Persists (created : ℕ) (fs fs' : Fs) : Prop where
  table : ∀ w ∈ fatBlocks fs, fs'.disk w.1 = w.2
  sectors : ∀ d ∈ fs.nodes, d.type = .dir → Returns (readContent fs' d) (d.contentCache <+: ·)
  entries : ∀ i v, created ≤ i → fs.nodes[i]? = some v →
    ∃ p d, v.parent = some p ∧ fs.nodes[p]? = some d ∧ Returns (readContent fs' d) (HasEntry v)

section Sync

variable {created : ℕ} {fs fs' : Fs} {d v : Vnode} {clusters : List UInt32}

theorem Inv.syncReady (h : Inv created fs) (hdisk : fs.vol.OnDisk) (hmarked : Marked fs) :
    SyncReady fs := by
  refine ⟨hdisk, h.chainsOk, h.tree, fun v hv hdirty ↦ ?_⟩
  have hsize := (hmarked v hv).2 hdirty
  unfold sectorsOf
  unfold blkSz at hsize ⊢
  omega

/-- `sync` leaves the sectors of a directory behind the first one. -/
theorem Synced.tail_chainSectors (hsync : Synced fs fs') (hok : fs.ChainsOk)
    (hd : d ∈ fs.nodes) (hsize : d.fileSize = 0)
    (hchain : FatChain fs.vol fs.fat d.clusIdx clusters) :
    (chainSectors fs.vol fs'.disk clusters).tail = (chainSectors fs.vol fs.disk clusters).tail := by
  have hspc := fs.vol.secPerClus_pos
  refine ext_getElem? fun m ↦ ?_
  rw [getElem?_tail, getElem?_tail]
  by_cases hm : m + 1 < fs.vol.secPerClus * clusters.length
  · have hq : (m + 1) / fs.vol.secPerClus < clusters.length := Nat.div_lt_of_lt_mul hm
    have hj : (m + 1) % fs.vol.secPerClus < fs.vol.secPerClus := Nat.mod_lt _ hspc
    have hc := getElem?_eq_getElem hq
    have hmem := mem_of_getElem? hc
    rw [← Nat.div_add_mod (m + 1) fs.vol.secPerClus, getElem?_chainSectors hc hj,
      getElem?_chainSectors hc hj, hsync.kept _ _ (hchain.inRange _ hmem) hj]
    intro v hv _ hclus
    -- A vnode that begins in the chain is the directory, and the cluster is the first one.
    obtain ⟨i, hi⟩ := getElem?_of_mem hd
    obtain ⟨j, hjv⟩ := getElem?_of_mem hv
    obtain rfl : i = j := hok.index_eq_of_onChain hi hjv ⟨clusters, hchain, hclus ▸ hmem⟩
    obtain rfl := mem_unique hi hjv
    have hzero : 0 = (m + 1) / fs.vol.secPerClus :=
      (getElem?_inj (Nat.zero_lt_of_lt hq) hchain.chain.nodup).1
        (hchain.getElem?_zero.trans (hclus ▸ hc.symm))
    have hmod := Nat.div_add_mod (m + 1) fs.vol.secPerClus
    rw [← hzero, Nat.mul_zero, Nat.zero_add] at hmod
    rw [hmod, hsize]
    exact Nat.succ_pos m
  · rw [getElem?_eq_none (by rw [length_chainSectors]; omega),
      getElem?_eq_none (by rw [length_chainSectors]; omega)]

/-- The cached sectors of a directory are on the disk. -/
theorem Synced.isPrefix_chainSectors (hsync : Synced fs fs') (hinv : Inv created fs)
    (hmarked : Marked fs) (hd : d ∈ fs.nodes) (hdir : d.type = .dir)
    (hchain : FatChain fs.vol fs.fat d.clusIdx clusters) :
    d.contentCache <+: chainSectors fs.vol fs'.disk clusters := by
  obtain ⟨hsize, htail, -⟩ := hinv.dir d hd hdir
  cases hcache : d.contentCache with
  | nil => exact List.nil_prefix
  | cons s rest =>
    have hdirty := (hmarked d hd).1 hdir (hcache ▸ cons_ne_nil s rest)
    have hfirst : fs'.disk (fs.vol.block d.clusIdx 0) = s :=
      hsync.written d hd hdirty 0 s (by rw [hsize]; decide) (by rw [hcache]; rfl)
    rw [chainSectors_eq_cons hchain, hfirst, hsync.tail_chainSectors hinv.chainsOk hd hsize hchain,
      prefix_cons_inj]
    have hrest := htail clusters hchain
    rwa [hcache] at hrest

theorem Synced.readContent_dir (hsync : Synced fs fs') (hdir : d.type = .dir)
    (hchain : FatChain fs.vol fs.fat d.clusIdx clusters) :
    readContent fs' d = .ok (chainSectors fs.vol fs'.disk clusters) := by
  rw [← hsync.vol_eq]
  refine Fat32.readContent_dir ?_ hdir
  rwa [hsync.vol_eq, hsync.fat_eq]

/-- What is listed in the first sector is found by reading the directory. -/
theorem Listed.hasEntry {s : Sector} {rest secs : List Sector} (h : Listed s.slots v)
    (hpre : s :: rest <+: secs) (hsize : v.fileSize < 2 ^ 32) : HasEntry v secs := by
  obtain ⟨more, rfl⟩ := hpre
  obtain ⟨k, e, he, hentry, hused, -⟩ := h
  have hlt : k < s.slots.length := (List.getElem?_eq_some_iff.1 he).1
  have hclus := hentry.clus
  rw [isEntryOf, Bool.and_eq_true] at hclus
  have htake : (dirSlots (s :: rest ++ more)).take (k + 1) = s.slots.take (k + 1) := by
    rw [cons_append, dirSlots, flatMap_cons, take_append_of_le_length hlt]
  refine ⟨k, e, ?_, hentry.name, bne_iff_ne.1 hclus.1, beq_iff_eq.1 hclus.2, ?_, htake ▸ hused⟩
  · rw [cons_append]
    exact getElem?_dirSlots_cons he
  · rw [hentry.size, UInt32.toNat_ofNat_of_lt' hsize]

theorem Synced.persists (hsync : Synced fs fs') (hinv : Inv created fs) (hmarked : Marked fs)
    (hcreated : 0 < created) : Persists created fs fs' := by
  refine ⟨hsync.table, fun d hd hdir ↦ ?_, fun i v hi hv ↦ ?_⟩
  · obtain ⟨clusters, hchain⟩ := hinv.chainsOk.chain d.clusIdx (mem_map_of_mem hd)
    exact .of_eq (hsync.readContent_dir hdir hchain)
      (hsync.isPrefix_chainSectors hinv hmarked hd hdir hchain)
  · obtain ⟨p, d, hp, hd, hdir, -⟩ := hinv.tree.parent i v hv (by omega)
    obtain ⟨hne, hlisted⟩ := hinv.listed i v p d hi hv hp hd
    have hmem := mem_of_getElem? hd
    obtain ⟨clusters, hchain⟩ := hinv.chainsOk.chain d.clusIdx (mem_map_of_mem hmem)
    refine ⟨p, d, hp, hd, .of_eq (hsync.readContent_dir hdir hchain) ?_⟩
    have hpre := hsync.isPrefix_chainSectors hinv hmarked hmem hdir hchain
    have hsize : v.fileSize < 2 ^ 32 := by
      have hle := (hmarked v (mem_of_getElem? hv)).2 (hinv.dirty i v hi hv)
      have hspc := fs.vol.secPerClus_lt
      unfold blkSz at hle
      omega
    cases hcache : d.contentCache with
    | nil => exact absurd hcache hne
    | cons s rest =>
      rw [firstSlots, hcache] at hlisted
      rw [hcache] at hpre
      exact hlisted.hasEntry hpre hsize

end Sync

/-- If new vnodes get their entries in first sectors, and every directory that has changed is marked
before `sync`, then the directories, with an entry for every vnode that has been created since the
volume was mounted, are on the disk. -/
theorem directories_persist {fuel : ℕ} {fs fs₀ : Fs} {name : List UInt8} {files : List File}
    {s : Sys} (hmount : fat32SetupMount fuel fs name = .ok fs₀) (hsound : Sound fs₀)
    (hrun : FsReachable FirstSector ⟨fs₀, files⟩ s) (hmarked : Marked s.fs) :
    Returns (sync s.fs) (Persists fs₀.nodes.length s.fs) := by
  have hfresh := fat32SetupMount_fresh hmount
  have hinv := hrun.inv (hfresh.inv hsound)
  obtain ⟨hvol, hheads⟩ := hrun.keeps hsound.chainsOk
  have hroot : 0 < s.fs.nodes.length := by
    have hle := hheads.length_le
    rw [Fs.heads, Fs.heads, length_map, length_map] at hle
    exact Nat.lt_of_lt_of_le hfresh.root hle
  have hready := hinv.syncReady (hvol ▸ hsound.onDisk) hmarked
  exact (sync_returns hready hroot).mono fun fs' hsync ↦
    hsync.persists hinv hmarked hfresh.root

theorem rootSys_mount :
    fat32SetupMount 1 (rootSys smallTable .zero).fs [] = .ok (rootSys smallTable .zero).fs := rfl

theorem rootSys_sound : Sound (rootSys smallTable .zero).fs := by
  have hchain : FatChain smallVolume (tableOf smallTable) 2 [2] := by decide +kernel
  refine ⟨by decide, rootSys_chainsOk (by decide) (by decide) hchain, fun d _ _ e he hused ↦ ?_⟩
  have hfree : ∀ e ∈ Sector.zero.slots, isFreeEntry e = true := by decide +kernel
  exact absurd ((hfree e he).symm.trans hused) Bool.noConfusion

/-- A file that has been created and written is found in the root directory on the disk. -/
theorem directories_persist_file : ∃ s, (FsReachable FirstSector (rootSys smallTable .zero) s ∧
      Marked s.fs ∧ s.fs.nodes.map Vnode.fileSize = [0, 100]) ∧
    Returns (sync s.fs) (Persists 1 s.fs) := by
  obtain ⟨s, hreach, hmarked, hsizes⟩ :=
    FsReachable.exists_run FirstSector (rootSys smallTable .zero)
    [.create 0 [65] .file, .openFile 1, .write 0 (List.replicate 100 7)]
    (fun s ↦ Marked s.fs ∧ s.fs.nodes.map Vnode.fileSize = [0, 100]) (by decide +kernel)
  exact ⟨s, ⟨hreach, hmarked, hsizes⟩,
    directories_persist rootSys_mount rootSys_sound hreach hmarked⟩

/-- The entry of a file that has only been created is not written. -/
theorem created_entry_lost : ∃ fs s fs', fat32SetupMount 1 fs [] = .ok fs ∧ Sound fs ∧
    FsReachable FirstSector ⟨fs, []⟩ s ∧ sync s.fs = .ok fs' ∧
      ¬Persists fs.nodes.length s.fs fs' := by
  obtain ⟨s, hreach, ⟨v, hv, hparent, hclus⟩, fs', hsync, d, hd, secs, hsecs, hmissing⟩ :=
    FsReachable.exists_run FirstSector (rootSys smallTable .zero) [.create 0 [65] .file]
    (fun s ↦ (∃ v ∈ s.fs.nodes[1]?, v.parent = some 0 ∧ v.clusIdx = 3) ∧
      ∃ fs' ∈ (sync s.fs).toOption, ∃ d ∈ s.fs.nodes[0]?, ∃ secs ∈ (readContent fs' d).toOption,
        ∀ e ∈ dirSlots secs, dirFstClus e ≠ 3) (by decide +kernel)
  refine ⟨_, s, fs', rootSys_mount, rootSys_sound, hreach, eq_ok_of_toOption hsync,
    fun hpersists ↦ ?_⟩
  obtain ⟨p, d', hp, hd', hread⟩ := hpersists.entries 1 v (Nat.le_refl 1) hv
  obtain rfl := mem_unique hparent hp
  obtain rfl := mem_unique hd hd'
  obtain ⟨k, e, he, -, -, hfst, -⟩ := hread.post_of_eq (eq_ok_of_toOption hsecs)
  exact hmissing e (mem_of_getElem? he) (hfst.trans hclus)

end CapstoneKernel.Fat32
