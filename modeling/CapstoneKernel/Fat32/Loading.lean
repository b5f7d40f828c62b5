import CapstoneKernel.Fat32.Chain

/-!
# Loading the sectors of a chain

`load_content` reads the sectors of the clusters of a chain in order, all of them for a directory
and as many as the size asks for for a file.
-/

namespace CapstoneKernel.Fat32

open LinkedChain Execution List Option

variable {c : UInt32} {fat : UInt32 → UInt32} {v : Vnode} {vol : Volume} {k : ℕ}

section Sectors

/-- The sectors of a cluster on the disk. -/
def clusterSectors (vol : Volume) (disk : UInt32 → Sector) (c : UInt32) : List Sector :=
  (List.range vol.secPerClus).map fun i ↦ disk (vol.block c i)

def chainSectors (vol : Volume) (disk : UInt32 → Sector) (clusters : List UInt32) : List Sector :=
  clusters.flatMap (clusterSectors vol disk)

/-- The number of sectors of a file. -/
def sectorsOf (fileSize : ℕ) : ℕ := (fileSize + (blkSz - 1)) / blkSz

variable {vol : Volume} {disk : UInt32 → Sector}

theorem length_clusterSectors (c : UInt32) : (clusterSectors vol disk c).length = vol.secPerClus := by
  rw [clusterSectors, length_map, length_range]

theorem length_chainSectors (clusters : List UInt32) :
    (chainSectors vol disk clusters).length = vol.secPerClus * clusters.length := by
  induction clusters with
  | nil => rfl
  | cons c rest ih =>
    rw [chainSectors, flatMap_cons, length_append, length_clusterSectors]
    rw [chainSectors] at ih
    rw [ih, length_cons, Nat.mul_succ, Nat.add_comm]

theorem getElem?_chainSectors {clusters : List UInt32} {i j : ℕ} (hi : clusters[i]? = some c)
    (hj : j < vol.secPerClus) :
    (chainSectors vol disk clusters)[vol.secPerClus * i + j]? = some (disk (vol.block c j)) := by
  have hall : ∀ b ∈ clusters.map (clusterSectors vol disk), b.length = vol.secPerClus := by
    intro b hb
    obtain ⟨c, -, rfl⟩ := mem_map.1 hb
    exact length_clusterSectors c
  have hget : (clusters.map (clusterSectors vol disk))[i]? = some (clusterSectors vol disk c) := by
    rw [getElem?_map, hi, map_some]
  rw [chainSectors, flatMap_def, Overlay.getElem?_flatten hall hget hj, clusterSectors,
    getElem?_map,
    getElem?_range hj, map_some]

end Sectors

/-- The test of the inner loop, as long as no more sectors are loaded than the file has. -/
theorem le_bytesOfSectors_iff {fileSize : ℕ} (hsize : fileSize ≤ 2 ^ 31)
    (hk : k ≤ sectorsOf fileSize) :
    fileSize ≤ bytesOfSectors k ↔ sectorsOf fileSize ≤ k := by
  unfold bytesOfSectors sectorsOf at *
  unfold blkSz at *
  split <;> omega

section Load

variable {fs : Fs} {fileSize : ℕ} {head : UInt32} {clusters : List UInt32}

theorem loadCluster_none (clus : UInt32) (left i k : ℕ) :
    loadCluster fs none clus left i k =
      ((List.range' i left).map fun j ↦ fs.disk (fs.vol.block clus j), false) := by
  induction left generalizing i k with
  | zero => rfl
  | succ left ih =>
    rw [loadCluster, any_none, if_neg Bool.false_ne_true, ih]
    rfl

theorem loadCluster_some (hsize : fileSize ≤ 2 ^ 31) (clus : UInt32) (left i k : ℕ) (hk : k ≤ sectorsOf fileSize) :
    loadCluster fs (some fileSize) clus left i k =
      (((List.range' i left).map fun j ↦ fs.disk (fs.vol.block clus j)).take (sectorsOf fileSize - k),
        decide (sectorsOf fileSize < k + left)) := by
  induction left generalizing i k with
  | zero =>
    rw [decide_eq_false (by omega), range'_zero, map_nil, take_nil]
    rfl
  | succ left ih =>
    have htest := le_bytesOfSectors_iff hsize hk
    rw [loadCluster, any_some]
    by_cases hdone : sectorsOf fileSize ≤ k
    · rw [decide_eq_true (htest.2 hdone), if_pos rfl, Nat.sub_eq_zero_of_le hdone, take_zero,
        decide_eq_true (by omega)]
    · rw [decide_eq_false (fun hle ↦ hdone (htest.1 hle)), if_neg Bool.false_ne_true,
        ih _ _ (by omega)]
      obtain ⟨m, hm⟩ : ∃ m, sectorsOf fileSize - k = m + 1 :=
        ⟨sectorsOf fileSize - k - 1, by omega⟩
      have hm' : sectorsOf fileSize - (k + 1) = m := by omega
      rw [hm, hm', range'_succ, map_cons, take_succ_cons]
      rw [Nat.add_assoc, Nat.add_comm 1 left]

theorem FatChain.tail {d : UInt32} {rest : List UInt32} (h : FatChain vol fat head (c :: d :: rest)) :
    head = c ∧ fat c ≠ vol.endOfFile ∧ fat c &&& fatValMask = d ∧ FatChain vol fat d (d :: rest) := by
  obtain ⟨⟨hhead, hnext, hrest⟩, hrange⟩ := h
  have hrange' : ∀ c ∈ d :: rest, 2 ≤ c.toNat ∧ c.toNat < vol.fatEntries :=
    fun e he ↦ hrange e (mem_cons_of_mem c he)
  unfold fatNext at hnext
  split at hnext
  · cases hnext
  · next hne => exact ⟨some.inj hhead, hne, some.inj hnext, ⟨rfl, hrest⟩, hrange'⟩

theorem FatChain.singleton (h : FatChain vol fat head [c]) : head = c ∧ fat c = vol.endOfFile := by
  obtain ⟨⟨hhead, hnext⟩, -⟩ := h
  change fatNext vol fat c = none at hnext
  unfold fatNext at hnext
  split at hnext
  · next heq => exact ⟨some.inj hhead, heq⟩
  · cases hnext

theorem getFatEntry_eq {clus : UInt32} (h : clus.toNat < fs.vol.fatEntries) :
    getFatEntry fs clus = .ok (fs.fat clus) := if_pos h

/-- What `load_content` reads from the clusters of a chain. -/
def loadAll (fs : Fs) (limit : Option ℕ) : List UInt32 → ℕ → List Sector
  | [], _ => []
  | c :: rest, k =>
    let first := loadCluster fs limit c fs.vol.secPerClus 0 k
    if first.2 then first.1 else first.1 ++ loadAll fs limit rest (k + fs.vol.secPerClus)

section AnyLimit

variable {limit : Option ℕ}

theorem loadClusters_eq (hchain : FatChain fs.vol fs.fat head clusters) {fuel : ℕ}
    (hfuel : clusters.length ≤ fuel) (k : ℕ) :
    loadClusters fs limit fuel head k = .ok (loadAll fs limit clusters k) := by
  induction clusters generalizing head fuel k with
  | nil => exact absurd hchain.chain nofun
  | cons c rest ih =>
    obtain ⟨fuel, rfl⟩ := Nat.exists_eq_add_one_of_ne_zero (Nat.ne_zero_of_lt hfuel)
    obtain rfl : head = c := some.inj hchain.chain.1
    rw [loadClusters, loadAll]
    cases loadCluster fs limit head fs.vol.secPerClus 0 k with
    | mk secs done =>
      cases done with
      | true => rfl
      | false =>
        dsimp only
        rw [if_neg Bool.false_ne_true, if_neg Bool.false_ne_true,
          getFatEntry_eq (hchain.inRange head mem_cons_self).2, ok_bind]
        cases rest with
        | nil =>
          rw [if_pos hchain.singleton.2, loadAll, append_nil]
          rfl
        | cons d rest =>
          obtain ⟨-, hne, hnext, htail⟩ := hchain.tail
          rw [if_neg hne, hnext, ih htail (Nat.le_of_succ_le_succ hfuel)]
          rfl

theorem loadCluster_length_le (fs : Fs) (limit : Option ℕ) (clus : UInt32) (left i k : ℕ) :
    (loadCluster fs limit clus left i k).1.length ≤ left := by
  induction left generalizing i k with
  | zero => exact Nat.le_refl 0
  | succ left ih =>
    rw [loadCluster]
    split
    · exact Nat.zero_le _
    · exact Nat.succ_le_succ (ih _ _)

theorem loadAll_length_le (fs : Fs) (limit : Option ℕ) (clusters : List UInt32) (k : ℕ) :
    (loadAll fs limit clusters k).length ≤ fs.vol.secPerClus * clusters.length := by
  induction clusters generalizing k with
  | nil => exact Nat.zero_le _
  | cons c rest ih =>
    have hfirst := loadCluster_length_le fs limit c fs.vol.secPerClus 0 k
    have hrest := ih (k + fs.vol.secPerClus)
    rw [loadAll, length_cons, Nat.mul_succ]
    split
    · omega
    · rw [length_append]
      omega

variable {fs' : Fs} (hvol : fs'.vol = fs.vol) (hdisk : fs'.disk = fs.disk)

include hvol hdisk

theorem loadCluster_congr (clus : UInt32) (left i k : ℕ) :
    loadCluster fs' limit clus left i k = loadCluster fs limit clus left i k := by
  induction left generalizing i k with
  | zero => rfl
  | succ left ih => rw [loadCluster, loadCluster, ih, hvol, hdisk]

theorem loadAll_congr (clusters : List UInt32) (k : ℕ) :
    loadAll fs' limit clusters k = loadAll fs limit clusters k := by
  induction clusters generalizing k with
  | nil => rfl
  | cons c rest ih => rw [loadAll, loadAll, loadCluster_congr hvol hdisk, hvol, ih]

end AnyLimit

theorem loadAll_none (clusters : List UInt32) (k : ℕ) :
    loadAll fs none clusters k = chainSectors fs.vol fs.disk clusters := by
  induction clusters generalizing k with
  | nil => rfl
  | cons c rest ih =>
    rw [loadAll, loadCluster_none, ih, ← range_eq_range']
    rfl

theorem loadAll_some (hsize : fileSize ≤ 2 ^ 31) (hk : k ≤ sectorsOf fileSize) :
    loadAll fs (some fileSize) clusters k =
      (chainSectors fs.vol fs.disk clusters).take (sectorsOf fileSize - k) := by
  induction clusters generalizing k with
  | nil => exact take_nil.symm
  | cons c rest ih =>
    have hlength : (clusterSectors fs.vol fs.disk c).length = fs.vol.secPerClus :=
      length_clusterSectors c
    rw [loadAll, loadCluster_some hsize _ _ _ _ hk, ← range_eq_range', chainSectors, flatMap_cons,
      take_append, hlength]
    change (if decide _ = true then (clusterSectors fs.vol fs.disk c).take _ else _) = _
    by_cases hdone : sectorsOf fileSize < k + fs.vol.secPerClus
    · have hzero : sectorsOf fileSize - k - fs.vol.secPerClus = 0 := by omega
      rw [if_pos (decide_eq_true hdone), hzero, take_zero, append_nil]
    · rw [if_neg (by rwa [decide_eq_true_eq]), ih (by omega), Nat.sub_add_eq]
      rfl

theorem FatChain.length_le (h : FatChain vol fat head clusters) :
    clusters.length ≤ vol.fatEntries := by
  have hnodup : (clusters.map UInt32.toNat).Nodup :=
    h.chain.nodup.map fun a b hab ↦ UInt32.toNat.inj hab
  have hsub : clusters.map UInt32.toNat ⊆ List.range vol.fatEntries := by
    intro n hn
    obtain ⟨c, hc, rfl⟩ := mem_map.1 hn
    exact mem_range.2 (h.inRange c hc).2
  have hle := (subperm_of_subset hnodup hsub).length_le
  rwa [length_map, length_range] at hle

section

variable (hchain : FatChain fs.vol fs.fat v.clusIdx clusters)
include hchain

theorem readContent_eq : readContent fs v = .ok (loadAll fs v.sizeLimit clusters 0) := by
  have hle := hchain.length_le
  exact loadClusters_eq hchain (by omega) 0

theorem readContent_congr {fs' : Fs} {v' : Vnode}
    (hchain' : FatChain fs'.vol fs'.fat v'.clusIdx clusters) (hvol : fs'.vol = fs.vol)
    (hdisk : fs'.disk = fs.disk) (hlimit : v'.sizeLimit = v.sizeLimit) :
    readContent fs' v' = readContent fs v := by
  rw [readContent_eq hchain, readContent_eq hchain', loadAll_congr hvol hdisk, hlimit]

theorem readContent_dir (hdir : v.type = .dir) :
    readContent fs v = .ok (chainSectors fs.vol fs.disk clusters) := by
  rw [readContent_eq hchain, Vnode.sizeLimit, hdir, loadAll_none]

theorem readContent_file (hfile : v.type = .file) (hsize : v.fileSize ≤ 2 ^ 31) :
    readContent fs v = .ok ((chainSectors fs.vol fs.disk clusters).take (sectorsOf v.fileSize)) := by
  rw [readContent_eq hchain, Vnode.sizeLimit, hfile, loadAll_some hsize (Nat.zero_le _), Nat.sub_zero]

end

end Load

end CapstoneKernel.Fat32
