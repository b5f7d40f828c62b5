import CapstoneKernel.Fat32.Directory
import CapstoneKernel.Fat32.Loading

/-!
# Writing a file back

`sync_file_recursive` writes the cached sectors of a file to the disk and `load_content` reads them
again.  The first counts the sectors of the file where the second counts those of a cluster, so that
they agree on files of one cluster only.
-/

namespace CapstoneKernel.Fat32

open Execution Function List Option

/-! ## The blocks that are written -/

/-- Sectors `k`, `k + 1`, … of a cluster with their new contents. -/
def sectorWrites (vol : Volume) (c : UInt32) (k : ℕ) (secs : List Sector) : List (UInt32 × Sector) :=
  (secs.zipIdx k).map fun s ↦ (vol.block c s.2, s.1)

section Blocks

variable {vol : Volume} {c : UInt32} {k : ℕ} {secs : List Sector}

theorem sectorWrites_cons (s : Sector) :
    sectorWrites vol c k (s :: secs) = (vol.block c k, s) :: sectorWrites vol c (k + 1) secs := rfl

theorem getElem?_sectorWrites (j : ℕ) :
    (sectorWrites vol c k secs)[j]? = secs[j]?.map fun s ↦ (vol.block c (k + j), s) := by
  rw [sectorWrites, getElem?_map, getElem?_zipIdx, Option.map_map]
  rfl

theorem mem_sectorWrites {w : UInt32 × Sector} (h : w ∈ sectorWrites vol c k secs) :
    ∃ j < secs.length, secs[j]? = some w.2 ∧ w.1 = vol.block c (k + j) := by
  obtain ⟨j, hj⟩ := getElem?_of_mem h
  rw [getElem?_sectorWrites] at hj
  obtain ⟨s, hs, rfl⟩ := map_eq_some_iff.1 hj
  exact ⟨j, (List.getElem?_eq_some_iff.1 hs).1, hs, rfl⟩

theorem block_inj {i j : ℕ} (hi : i < 2 ^ 32) (hj : j < 2 ^ 32) (h : vol.block c i = vol.block c j) : i = j := by
  have heq := (UInt32.add_right_inj _).1 h
  have hnat := congrArg UInt32.toNat heq
  rwa [UInt32.toNat_ofNat_of_lt' hi, UInt32.toNat_ofNat_of_lt' hj] at hnat

theorem sectorWrites_nodup (h : k + secs.length ≤ 2 ^ 32) : ((sectorWrites vol c k secs).map Prod.fst).Nodup := by
  induction secs generalizing k with
  | nil => exact nodup_nil
  | cons s secs ih =>
    rw [length_cons] at h
    rw [sectorWrites_cons, map_cons, nodup_cons]
    refine ⟨fun hmem ↦ ?_, ih (by omega)⟩
    obtain ⟨w, hw, heq⟩ := mem_map.1 hmem
    obtain ⟨j, hj, -, hblock⟩ := mem_sectorWrites hw
    have hsame := block_inj (by omega) (by omega) (hblock.symm.trans heq)
    omega

end Blocks

theorem bytesOfSectors_of_lt {k : ℕ} (h : k < 2 ^ 22) : bytesOfSectors k = k * blkSz := by
  unfold bytesOfSectors
  unfold blkSz
  split <;> omega

theorem not_le_bytesOfSectors {fileSize k : ℕ} (hk : k < 2 ^ 22) (h : k < sectorsOf fileSize) :
    ¬fileSize ≤ bytesOfSectors k := by
  rw [bytesOfSectors_of_lt hk]
  unfold sectorsOf blkSz at *
  omega

/-! ## The loop of `sync_file_recursive` -/

section Sync

variable {fs : Fs} {fileSize k : ℕ} {clus : UInt32} {secs left : List Sector}
    {disk disk' : UInt32 → Sector}

/-- The number of sectors the loop writes, if the cache has as many. -/
def writtenCount (fileSize : ℕ) : ℕ := max 1 (sectorsOf fileSize)

section

variable (hclus : clus.toNat < fs.vol.fatEntries)
include hclus

/-- The loop ends in the first cluster if the size does. -/
theorem syncSectors_cluster (hfits : sectorsOf fileSize ≤ fs.vol.secPerClus)
    (hk : k < writtenCount fileSize) :
    syncSectors fs fileSize secs clus k disk = .ok (secs.drop (writtenCount fileSize - k),
      Writes.apply disk (sectorWrites fs.vol clus k (secs.take (writtenCount fileSize - k)))) := by
  have hpos := fs.vol.secPerClus_pos
  have hspc := fs.vol.secPerClus_lt
  have hsize : fileSize ≤ 2 ^ 31 := by
    unfold sectorsOf blkSz at hfits
    omega
  induction secs generalizing k disk with
  | nil =>
    rw [drop_nil, take_nil]
    rfl
  | cons s secs ih =>
    obtain ⟨m, hm⟩ : ∃ m, writtenCount fileSize - k = m + 1 :=
      ⟨writtenCount fileSize - k - 1, by omega⟩
    rw [hm, drop_succ_cons, take_succ_cons, syncSectors, sectorWrites_cons, Writes.apply_cons]
    by_cases hlast : k + 1 = writtenCount fileSize
    · have hdone : fileSize ≤ bytesOfSectors (k + 1) := by
        rw [bytesOfSectors_of_lt (by unfold writtenCount at *; omega)]
        unfold writtenCount sectorsOf blkSz at *
        omega
      obtain ⟨clus', hclus'⟩ : ∃ clus', syncClus fs k clus = .ok clus' := by
        unfold syncClus
        split
        · exact ⟨_, getFatEntry_eq hclus⟩
        · exact ⟨_, rfl⟩
      obtain rfl : m = 0 := by omega
      rw [hclus', ok_bind, if_pos hdone]
      rfl
    · have hmod : (k + 1) % fs.vol.secPerClus ≠ 0 := by
        rw [Nat.mod_eq_of_lt (by unfold writtenCount at *; omega)]
        omega
      have hnot : ¬fileSize ≤ bytesOfSectors (k + 1) := by
        unfold writtenCount at *
        exact not_le_bytesOfSectors (by omega) (by omega)
      rw [syncClus, if_neg hmod, ok_bind, if_neg hnot, ih (by omega)]
      obtain rfl : writtenCount fileSize - (k + 1) = m := by omega
      rfl

theorem syncSectors_within (hlength : secs.length = sectorsOf fileSize)
    (hfits : sectorsOf fileSize ≤ fs.vol.secPerClus) :
    syncSectors fs fileSize secs clus 0 disk = .ok ([], Writes.apply disk (sectorWrites fs.vol clus 0 secs)) := by
  have hle : secs.length ≤ writtenCount fileSize - 0 := by
    unfold writtenCount
    omega
  rw [syncSectors_cluster hclus hfits (Nat.lt_of_lt_of_le Nat.one_pos (Nat.le_max_left ..)),
    drop_eq_nil_of_le hle, take_of_length_le hle]

/-- The first cluster of a longer file is written, and the loop goes on with the entry of the
table. -/
theorem syncSectors_front (hne : secs ≠ []) (hlength : k + secs.length = fs.vol.secPerClus)
    (hlong : fs.vol.secPerClus < sectorsOf fileSize) (rest : List Sector) :
    syncSectors fs fileSize (secs ++ rest) clus k disk =
      syncSectors fs fileSize rest (fs.fat clus) fs.vol.secPerClus
        (Writes.apply disk (sectorWrites fs.vol clus k secs)) := by
  have hspc := fs.vol.secPerClus_lt
  induction secs generalizing k disk with
  | nil => exact absurd rfl hne
  | cons s secs ih =>
    rw [length_cons] at hlength
    have hnot : ¬fileSize ≤ bytesOfSectors (k + 1) :=
      not_le_bytesOfSectors (by omega) (by omega)
    rw [cons_append, syncSectors, sectorWrites_cons, Writes.apply_cons]
    cases secs with
    | nil =>
      rw [length_nil] at hlength
      have hk : k + 1 = fs.vol.secPerClus := by omega
      rw [syncClus, hk, Nat.mod_self, if_pos rfl, getFatEntry_eq hclus, ok_bind, if_neg (hk ▸ hnot)]
      rfl
    | cons s' secs =>
      rw [length_cons] at hlength
      have hmod : (k + 1) % fs.vol.secPerClus ≠ 0 := by
        rw [Nat.mod_eq_of_lt (by omega)]
        omega
      rw [syncClus, if_neg hmod, ok_bind, if_neg hnot]
      exact ih nofun (by rw [length_cons]; omega)

end

/-- A block that is empty stays so when nothing but empty sectors is written. -/
theorem syncSectors_zero {b : UInt32} (hzero : ∀ s ∈ secs, s = .zero) (hb : disk b = .zero)
    (h : syncSectors fs fileSize secs clus k disk = .ok (left, disk')) : disk' b = .zero := by
  induction secs generalizing clus k disk with
  | nil =>
    cases h
    exact hb
  | cons s secs ih =>
    have hb' : update disk (fs.vol.block clus k) s b = .zero := by
      by_cases heq : b = fs.vol.block clus k
      · rw [heq, update_self]
        exact hzero s mem_cons_self
      · rwa [update_of_ne heq]
    obtain ⟨clus', -, h⟩ := of_bind_eq_ok h
    split at h
    · cases h
      exact hb'
    · exact ih (fun s' hs' ↦ hzero s' (mem_cons_of_mem s hs')) hb' h

end Sync

/-- The blocks of the second cluster do not begin where the loop goes on after the first one. -/
theorem block_second_ne {vol : Volume} {c e : UInt32} (hc : 2 ≤ c.toNat) (he : e &&& fatValMask = c) :
    vol.block c 0 ≠ vol.block e vol.secPerClus := by
  intro heq
  have hpos := vol.secPerClus_pos
  have hlt := vol.secPerClus_lt
  have hprod : (c - 2) * UInt32.ofNat vol.secPerClus =
      (e - 2) * UInt32.ofNat vol.secPerClus + UInt32.ofNat vol.secPerClus := by
    unfold Volume.block Volume.firstSectorOfCluster at heq
    have hzero : UInt32.ofNat 0 = 0 := rfl
    rw [hzero] at heq
    grind
  have hmod : c.toNat = e.toNat % 2 ^ 28 := by
    have hmask : fatValMask.toNat = 2 ^ 28 - 1 := rfl
    rw [← he, UInt32.toNat_and, hmask, Nat.and_two_pow_sub_one_eq_mod]
  have hspc : (UInt32.ofNat vol.secPerClus).toNat = vol.secPerClus :=
    UInt32.toNat_ofNat_of_lt' (Nat.lt_trans hlt (by decide))
  have htwo : (2 : UInt32).toNat = 2 := rfl
  have hsubc : (c - 2).toNat = c.toNat - 2 :=
    UInt32.toNat_sub_of_le c 2 (UInt32.le_iff_toNat_le.2 (by omega))
  have hsube : (e - 2).toNat = e.toNat - 2 :=
    UInt32.toNat_sub_of_le e 2 (UInt32.le_iff_toNat_le.2 (by omega))
  have hnat := congrArg UInt32.toNat hprod
  rw [UInt32.toNat_add, UInt32.toNat_mul, UInt32.toNat_mul, hspc, hsubc, hsube] at hnat
  -- The high bits of the entry add a multiple of the sector count, times `2 ^ 28`.
  obtain ⟨high, hhigh⟩ : ∃ high, e.toNat = c.toNat + 2 ^ 28 * high := ⟨e.toNat / 2 ^ 28, by omega⟩
  have hexpand : (e.toNat - 2) * vol.secPerClus = (c.toNat - 2) * vol.secPerClus + 2 ^ 28 *
    (high * vol.secPerClus) := by
    have hsub : e.toNat - 2 = c.toNat - 2 + 2 ^ 28 * high := by omega
    rw [hsub, Nat.add_mul, Nat.mul_assoc]
  rw [hexpand] at hnat
  generalize (c.toNat - 2) * vol.secPerClus = a at hnat
  generalize high * vol.secPerClus = b at hnat
  omega

/-! ## The round trip -/

/-- `load_content` for a vnode whose cache has been emptied. -/
def reload (fs : Fs) (i : ℕ) : Except Fault (List Sector) := do
  let v ← fs.node i
  let fs ← loadContent (fs.setNode i { v with contentCache := [] }) i
  let v ← fs.node i
  return v.contentCache

/-- The file is written and read back as it was, and no block outside of its clusters changes. -/
def RoundTrips (fs : Fs) (i : ℕ) (secs : List Sector) (clusters : List UInt32) : Prop :=
  Returns (syncFileRecursive 1 fs i) fun fs' ↦ reload fs' i = .ok secs ∧
    ∀ b, (∀ c ∈ clusters, ∀ j < fs.vol.secPerClus, b ≠ fs.vol.block c j) → fs'.disk b = fs.disk b

section RoundTrip

variable {fs : Fs} {i : ℕ} {v : Vnode} {clusters : List UInt32}

section

variable (hv : fs.nodes[i]? = some v)
include hv

theorem reload_eq (hchain : FatChain fs.vol fs.fat v.clusIdx clusters) :
    reload fs i = readContent fs v := by
  have hself : (fs.setNode i { v with contentCache := [] }).nodes[i]? = some
    { v with contentCache := [] } :=
    Fs.getElem?_setNode_self hv
  have hread : readContent (fs.setNode i { v with contentCache := [] })
    { v with contentCache := [] } =
      readContent fs v :=
    readContent_congr hchain hchain rfl rfl rfl
  rw [reload, Fs.node_of_getElem? hv, ok_bind, loadContent, Fs.node_of_getElem? hself, ok_bind,
    hread]
  cases readContent fs v with
  | error e => rfl
  | ok secs =>
    rw [ok_bind]
    have hnode : ((fs.setNode i { v with contentCache := [] }).setNode i
        { v with contentCache := [] ++ secs }).node i = .ok
          { v with contentCache := [] ++ secs } :=
      Fs.node_of_getElem? (Fs.getElem?_setNode_self hself)
    change (Fs.node _ i >>= fun v ↦ Except.ok v.contentCache) = _
    rw [hnode]
    rfl

omit hv in
/-- The volume after a vnode has been written to the disk. -/
def synced (fs : Fs) (i : ℕ) (v : Vnode) (left : List Sector) (disk : UInt32 → Sector) : Fs :=
  { fs with disk := disk }.setNode i { v with dirty := false, contentCache := left }

theorem getElem?_synced (left : List Sector) (disk : UInt32 → Sector) :
    (synced fs i v left disk).nodes[i]? = some { v with dirty := false, contentCache := left } :=
  getElem?_set_self (List.getElem?_eq_some_iff.1 hv).1

theorem syncFileRecursive_leaf (hleaf : v.children = []) (hdirty : v.dirty = true) :
    syncFileRecursive 1 fs i = syncSectors fs v.fileSize v.contentCache v.clusIdx 0 fs.disk >>= fun r ↦
      .ok (synced fs i v r.1 r.2) := by
  rw [syncFileRecursive, syncNode, Fs.node_of_getElem? hv, ok_bind, if_pos hdirty]
  cases syncSectors fs v.fileSize v.contentCache v.clusIdx 0 fs.disk with
  | error e => rfl
  | ok r =>
    rw [ok_bind, ok_bind]
    change (Fs.node (synced fs i v r.1 r.2) i >>= _) = _
    rw [Fs.node_of_getElem? (getElem?_synced hv ..), ok_bind]
    change List.foldlM _ (synced fs i v r.1 r.2) v.children = _
    rw [hleaf]
    rfl

theorem reload_file (hfile : v.type = .file) (hsize : v.fileSize ≤ 2 ^ 31)
    (hchain : FatChain fs.vol fs.fat v.clusIdx clusters) :
    reload fs i = .ok ((chainSectors fs.vol fs.disk clusters).take (sectorsOf v.fileSize)) := by
  rw [reload_eq hv hchain, readContent_file hchain hfile hsize]

omit hv in
theorem take_chainSectors {vol : Volume} {disk : UInt32 → Sector} {c : UInt32} {secs : List Sector}
    (hzero : clusters[0]? = some c) (hlength : secs.length ≤ vol.secPerClus)
    (hdisk : ∀ j sec, secs[j]? = some sec → disk (vol.block c j) = sec) :
    (chainSectors vol disk clusters).take secs.length = secs := by
  refine ext_getElem? fun j ↦ ?_
  by_cases hj : j < secs.length
  · have hload : (chainSectors vol disk clusters)[vol.secPerClus * 0 + j]? = some
      (disk (vol.block c j)) :=
      getElem?_chainSectors hzero (by omega)
    rw [Nat.mul_zero, Nat.zero_add] at hload
    rw [getElem?_take_of_lt hj, hload, getElem?_eq_getElem hj]
    exact congrArg some (hdisk j _ (getElem?_eq_getElem hj))
  · have htake : ((chainSectors vol disk clusters).take secs.length).length ≤ secs.length :=
      length_take_le ..
    rw [getElem?_eq_none (by omega), getElem?_eq_none (by omega)]

theorem roundTrips_of_le (hfile : v.type = .file) (hleaf : v.children = [])
    (hdirty : v.dirty = true) (hchain : FatChain fs.vol fs.fat v.clusIdx clusters)
    (hlength : v.contentCache.length = sectorsOf v.fileSize)
    (hfits : sectorsOf v.fileSize ≤ fs.vol.secPerClus) :
    RoundTrips fs i v.contentCache clusters := by
  have hspc := fs.vol.secPerClus_lt
  have hzero := hchain.getElem?_zero
  have hhead : v.clusIdx ∈ clusters := mem_of_getElem? hzero
  have hsize : v.fileSize ≤ 2 ^ 31 := by
    unfold sectorsOf blkSz at hfits
    omega
  have hsync : syncSectors fs v.fileSize v.contentCache v.clusIdx 0 fs.disk =
      .ok ([], Writes.apply fs.disk (sectorWrites fs.vol v.clusIdx 0 v.contentCache)) :=
    syncSectors_within (hchain.inRange _ hhead).2 hlength hfits
  refine .of_eq (by rw [syncFileRecursive_leaf hv hleaf hdirty, hsync, ok_bind]) ⟨?_, fun b hb ↦ ?_⟩
  · refine (reload_file (getElem?_synced hv ..) hfile hsize hchain).trans (congrArg Except.ok ?_)
    change (chainSectors fs.vol (Writes.apply fs.disk _) clusters).take (sectorsOf v.fileSize) = _
    rw [← hlength]
    refine take_chainSectors hzero (by omega) fun j sec hsec ↦ ?_
    refine Writes.apply_of_mem (sectorWrites_nodup (by omega)) (mem_of_getElem? (i := j) ?_)
    rw [getElem?_sectorWrites, hsec, map_some, Nat.zero_add]
  · refine Writes.apply_of_notMem fun w hw heq ↦ ?_
    obtain ⟨j, hj, -, hblock⟩ := mem_sectorWrites hw
    exact hb v.clusIdx hhead j (by omega) (by rw [← heq, hblock, Nat.zero_add])

end

end RoundTrip

/-! ## Longer files -/

section Long

variable {fs : Fs} {fileSize fuel : ℕ} {c d : UInt32} {rest : List UInt32} {secs : List Sector}

theorem loadCluster_all (clus : UInt32) (left i k : ℕ) (hsmall : k + left ≤ 2 ^ 22)
    (hk : k + left ≤ sectorsOf fileSize) :
    loadCluster fs (some fileSize) clus left i k =
      ((List.range' i left).map fun j ↦ fs.disk (fs.vol.block clus j), false) := by
  induction left generalizing i k with
  | zero => rfl
  | succ left ih =>
    have hnot : ¬fileSize ≤ bytesOfSectors k := not_le_bytesOfSectors (by omega) (by omega)
    rw [loadCluster, any_some, decide_eq_false hnot, if_neg Bool.false_ne_true,
      ih _ _ (by omega) (by omega)]
    rfl

theorem loadAll_head {k : ℕ} (hk : k < 2 ^ 22) (hnot : k < sectorsOf fileSize) :
    (loadAll fs (some fileSize) (d :: rest) k)[0]? = some (fs.disk (fs.vol.block d 0)) := by
  obtain ⟨m, hm⟩ : ∃ m, fs.vol.secPerClus = m + 1 :=
    ⟨fs.vol.secPerClus - 1, by have := fs.vol.secPerClus_pos; omega⟩
  have hfirst : (loadCluster fs (some fileSize) d fs.vol.secPerClus 0 k).1[0]? =
      some (fs.disk (fs.vol.block d 0)) := by
    rw [hm, loadCluster, any_some, decide_eq_false (not_le_bytesOfSectors hk hnot),
      if_neg Bool.false_ne_true]
    rfl
  rw [loadAll]
  split
  · exact hfirst
  · rw [getElem?_append_left (List.getElem?_eq_some_iff.1 hfirst).1]
    exact hfirst

theorem loadAll_second (hlong : fs.vol.secPerClus < sectorsOf fileSize) :
    (loadAll fs (some fileSize) (c :: d :: rest) 0)[fs.vol.secPerClus]? =
      some (fs.disk (fs.vol.block d 0)) := by
  have hspc := fs.vol.secPerClus_lt
  have hlength : ((List.range' 0 fs.vol.secPerClus).map fun j ↦ fs.disk (fs.vol.block c j)).length =
      fs.vol.secPerClus := by rw [length_map, length_range']
  rw [loadAll, loadCluster_all c _ 0 0 (by omega) (by omega)]
  dsimp only
  rw [if_neg Bool.false_ne_true, getElem?_append_right (by omega), hlength, Nat.sub_self]
  exact loadAll_head (by omega) (by omega)

def ones : Sector := ⟨List.replicate blkSz 1, length_replicate⟩

/-- Empty sectors except for the first one behind a cluster. -/
def marked (spc n : ℕ) : List Sector := List.replicate spc .zero ++ ones :: List.replicate (n - spc - 1) .zero

theorem length_marked {spc n : ℕ} (h : spc < n) : (marked spc n).length = n := by
  rw [marked, length_append, length_cons, length_replicate, length_replicate]
  omega

/-- On an empty disk the mark does not get to the first block of the second cluster. -/
theorem syncSectors_marked {left : List Sector} {disk' : UInt32 → Sector}
    (hchain : FatChain fs.vol fs.fat c (c :: d :: rest)) (hlong : fs.vol.secPerClus < sectorsOf fileSize)
    (h : syncSectors fs fileSize (marked fs.vol.secPerClus (sectorsOf fileSize)) c 0 (fun _ ↦ .zero) =
      .ok (left, disk')) : disk' (fs.vol.block d 0) = .zero := by
  have hpos := fs.vol.secPerClus_pos
  obtain ⟨-, -, hnext, -⟩ := hchain.tail
  have hd := (hchain.inRange d (by simp)).1
  have hne : List.replicate fs.vol.secPerClus Sector.zero ≠ [] := by
    rw [ne_eq, replicate_eq_nil_iff]
    omega
  rw [marked, syncSectors_front (hchain.inRange c mem_cons_self).2 hne
    (by rw [length_replicate, Nat.zero_add]) hlong] at h
  have hfront : ∀ b, Writes.apply (fun _ ↦ Sector.zero)
      (sectorWrites fs.vol c 0 (List.replicate fs.vol.secPerClus .zero)) b = .zero := by
    intro b
    refine Writes.apply_induct (P := (· = Sector.zero)) rfl fun w hw _ ↦ ?_
    obtain ⟨j, -, hsec, -⟩ := mem_sectorWrites hw
    exact eq_of_mem_replicate (mem_of_getElem? hsec)
  have hkept : update (Writes.apply (fun _ ↦ Sector.zero)
      (sectorWrites fs.vol c 0 (List.replicate fs.vol.secPerClus .zero)))
      (fs.vol.block (fs.fat c) fs.vol.secPerClus) ones (fs.vol.block d 0) = .zero := by
    rw [update_of_ne (block_second_ne hd hnext)]
    exact hfront _
  obtain ⟨clus', -, h⟩ := of_bind_eq_ok h
  split at h
  · cases h
    exact hkept
  · exact syncSectors_zero (fun s hs ↦ eq_of_mem_replicate hs) hkept h

theorem not_roundTrips_marked {i : ℕ} {v : Vnode} {clusters : List UInt32} (hv : fs.nodes[i]? = some v)
    (hfile : v.type = .file) (hleaf : v.children = []) (hdirty : v.dirty = true)
    (hchain : FatChain fs.vol fs.fat v.clusIdx (v.clusIdx :: d :: rest))
    (hlong : fs.vol.secPerClus < sectorsOf v.fileSize) (hdisk : fs.disk = fun _ ↦ .zero)
    (hsecs : v.contentCache = marked fs.vol.secPerClus (sectorsOf v.fileSize)) :
    ¬RoundTrips fs i v.contentCache clusters := by
  rintro ⟨fs', hsync, hload, -⟩
  rw [syncFileRecursive_leaf hv hleaf hdirty, hdisk, hsecs] at hsync
  obtain ⟨⟨left, disk'⟩, hsectors, hsync⟩ := of_bind_eq_ok hsync
  cases hsync
  have hself := getElem?_synced hv left disk'
  have hread : readContent (synced fs i v left disk')
    { v with dirty := false, contentCache := left } = _ := readContent_eq hchain
  rw [reload_eq hself hchain, hread, Vnode.sizeLimit] at hload
  simp only [hfile] at hload
  have hsecond : (loadAll (synced fs i v left disk') _ (v.clusIdx :: d :: rest) 0)[
    fs.vol.secPerClus]? = some (disk' (fs.vol.block d 0)) := loadAll_second hlong
  rw [Except.ok.inj hload] at hsecond
  have hmark : v.contentCache[fs.vol.secPerClus]? = some ones := by
    rw [hsecs, marked, getElem?_append_right (by rw [length_replicate]), length_replicate,
      Nat.sub_self]
    rfl
  have hzero : disk' (fs.vol.block d 0) = .zero := syncSectors_marked hchain hlong hsectors
  have hsame : some ones = some Sector.zero :=
    hmark.symm.trans (hsecond.trans (congrArg some hzero))
  exact absurd (some.inj hsame) (by decide +kernel)

end Long

/-- Whatever a dirty file holds, it is read back as it was written, and nothing else on the disk
changes: this is so exactly for files of at most one cluster. -/
theorem file_written_back_iff {vol : Volume} {fat : UInt32 → UInt32} {nodes : List Vnode} {i : ℕ} {v : Vnode}
    {clusters : List UInt32} (hv : nodes[i]? = some v) (hfile : v.type = .file) (hleaf : v.children = [])
    (hdirty : v.dirty = true) (hchain : FatChain vol fat v.clusIdx clusters)
    (henough : sectorsOf v.fileSize ≤ vol.secPerClus * clusters.length) :
    (∀ disk secs, secs.length = sectorsOf v.fileSize →
      RoundTrips ⟨vol, fat, disk, nodes.set i { v with contentCache := secs }⟩ i secs clusters) ↔
    sectorsOf v.fileSize ≤ vol.secPerClus := by
  have hlt : i < nodes.length := (List.getElem?_eq_some_iff.1 hv).1
  constructor
  · intro htrips
    by_contra hlong
    rw [Nat.not_le] at hlong
    obtain ⟨d, rest, rfl⟩ : ∃ d rest, clusters = v.clusIdx :: d :: rest := by
      cases clusters with
      | nil => exact absurd hchain.chain nofun
      | cons c rest =>
        obtain rfl : v.clusIdx = c := some.inj hchain.chain.1
        cases rest with
        | nil =>
          rw [length_singleton] at henough
          omega
        | cons d rest => exact ⟨d, rest, rfl⟩
    have htrip := htrips (fun _ ↦ .zero) _ (length_marked hlong)
    exact not_roundTrips_marked (v := { v with contentCache := marked vol.secPerClus (sectorsOf
      v.fileSize) })
      (getElem?_set_self hlt) hfile hleaf hdirty hchain hlong rfl rfl htrip
  · intro hfits disk secs hlength
    exact roundTrips_of_le (v := { v with contentCache := secs })
      (getElem?_set_self hlt) hfile hleaf hdirty
      hchain hlength hfits

/-- The table of a volume with a file in clusters 3 and 4. -/
def fileTable : List UInt32 := [0x0ffffff8, endMark, endMark, 4, endMark]

def dirtyFile (fileSize : ℕ) : Vnode := ⟨some 0, .file, [65], fileSize, [], 3, true, []⟩

/-- A volume with four sectors in a cluster. -/
def wideVolume : Volume :=
  { smallVolume with secPerClus := 4, secPerClus_pos := by decide, secPerClus_lt := by decide }

/-- A file of 1500 bytes is written back, since it has three sectors. -/
theorem file_written_back_iff_short : sectorsOf 1500 = 3 ∧
    ∀ disk secs, secs.length = sectorsOf 1500 → RoundTrips ⟨wideVolume, tableOf fileTable, disk,
        [{ dirtyFile 1500 with contentCache := secs }]⟩ 0 secs [3, 4] := by
  have hv : [dirtyFile 1500][0]? = some (dirtyFile 1500) := rfl
  have hchain : FatChain wideVolume (tableOf fileTable) (dirtyFile 1500).clusIdx [3, 4] := by
    decide +kernel
  exact ⟨rfl, (file_written_back_iff hv rfl rfl rfl hchain (by decide)).2 (by decide)⟩

/-- A file of 600 bytes, in two clusters of one sector, does not come back. -/
theorem second_cluster_misplaced : ∃ (fs : Fs) (i : ℕ) (v : Vnode) (clusters : List UInt32),
    fs.nodes[i]? = some v ∧ v.type = .file ∧ v.dirty = true ∧ v.contentCache.length = sectorsOf v.fileSize ∧
    FatChain fs.vol fs.fat v.clusIdx clusters ∧
    sectorsOf v.fileSize ≤ fs.vol.secPerClus * clusters.length ∧ ¬RoundTrips fs i v.contentCache clusters := by
  have hchain : FatChain smallVolume (tableOf fileTable) 3 [3, 4] := by decide +kernel
  refine ⟨⟨smallVolume, tableOf fileTable, fun _ ↦ .zero,
    [{ dirtyFile 600 with contentCache := marked 1 2 }]⟩, 0,
    { dirtyFile 600 with contentCache := marked 1 2 }, [3, 4], rfl, rfl, rfl, rfl, hchain,
      Nat.le_refl 2, ?_⟩
  exact not_roundTrips_marked rfl rfl rfl rfl hchain (Nat.lt_succ_self 1) rfl rfl

end CapstoneKernel.Fat32
