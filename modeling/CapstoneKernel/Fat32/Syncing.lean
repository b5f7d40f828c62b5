import CapstoneKernel.Fat32.WriteBack

/-!
# What `sync` leaves on the disk

`sync` writes the copies of the table and then goes through the tree of vnodes from the root.  Each
dirty vnode is written to its first cluster, as far as its size says, and at least one sector of it.
If no dirty vnode has more than one cluster, the sectors of different vnodes do not get in each
other's way: what is written is found on the disk afterwards, and the other sectors are as before.
-/

namespace CapstoneKernel.Fat32

open Execution List Option

/-! ## Blocks -/

namespace Volume

/-- The tables and the clusters fit between the first block of the volume and the last number of a
block. -/
def OnDisk (vol : Volume) : Prop :=
  vol.startBlkIdx.toNat + vol.rsvdSecCnt.toNat + vol.numFATs * vol.fatSz32 +
    vol.secPerClus * vol.fatEntries ≤ 2 ^ 32
deriving Decidable

/-- The number of the first block behind the tables. -/
def dataStart (vol : Volume) : ℕ :=
  vol.startBlkIdx.toNat + vol.rsvdSecCnt.toNat + vol.numFATs * vol.fatSz32

/-- The cluster is one of the volume. -/
def HasCluster (vol : Volume) (c : UInt32) : Prop := 2 ≤ c.toNat ∧ c.toNat < vol.fatEntries

variable {vol : Volume} {c c' : UInt32} {k k' : ℕ}

theorem OnDisk.toNat_block (h : vol.OnDisk) (hc : vol.HasCluster c) (hk : k < vol.secPerClus) :
    (vol.block c k).toNat = vol.dataStart + ((c.toNat - 2) * vol.secPerClus + k) := by
  obtain ⟨htwo, hlt⟩ := hc
  have hsub : c - 2 = UInt32.ofNat (c.toNat - 2) := by
    rw [UInt32.ofNat_sub htwo, UInt32.ofNat_toNat]
    rfl
  have hblock : vol.block c k =
      UInt32.ofNat (vol.dataStart + ((c.toNat - 2) * vol.secPerClus + k)) := by
    unfold block firstSectorOfCluster firstDataSector dataStart
    rw [hsub]
    simp only [UInt32.ofNat_add, UInt32.ofNat_mul, UInt32.ofNat_toNat]
    ac_rfl
  have hcluster : (c.toNat - 2) * vol.secPerClus + k < vol.secPerClus * vol.fatEntries := by
    calc (c.toNat - 2) * vol.secPerClus + k
      _ < (c.toNat - 2) * vol.secPerClus + vol.secPerClus := Nat.add_lt_add_left hk _
      _ = vol.secPerClus * (c.toNat - 2 + 1) := by rw [Nat.mul_comm, Nat.mul_succ]
      _ ≤ vol.secPerClus * vol.fatEntries := Nat.mul_le_mul_left _ (by omega)
  unfold OnDisk at h
  rw [hblock]
  exact UInt32.toNat_ofNat_of_lt' (Nat.lt_of_lt_of_le (Nat.add_lt_add_left hcluster _) h)

theorem OnDisk.block_inj (h : vol.OnDisk) (hc : vol.HasCluster c) (hc' : vol.HasCluster c')
    (hk : k < vol.secPerClus) (hk' : k' < vol.secPerClus) (heq : vol.block c k = vol.block c' k') :
    c = c' ∧ k = k' := by
  have hnat := congrArg UInt32.toNat heq
  rw [h.toNat_block hc hk, h.toNat_block hc' hk', Nat.add_right_inj, Nat.mul_comm,
    Nat.mul_comm _ vol.secPerClus] at hnat
  have hdiv : c.toNat - 2 = c'.toNat - 2 := by
    have hdivs := congrArg (· / vol.secPerClus) hnat
    simpa only [Nat.mul_add_div vol.secPerClus_pos, Nat.div_eq_of_lt hk, Nat.div_eq_of_lt hk',
      Nat.add_zero] using hdivs
  rw [hdiv] at hnat
  obtain ⟨htwo, -⟩ := hc
  obtain ⟨htwo', -⟩ := hc'
  exact ⟨UInt32.toNat.inj (by omega), by omega⟩

/-- The tables lie in front of the clusters, and each block holds one sector of the table. -/
theorem OnDisk.toNat_fatBlock (h : vol.OnDisk) {i j : ℕ} (hi : i < vol.numFATs)
    (hj : j < vol.fatSz32) (hpos : 0 < vol.fatEntries) :
    (vol.startBlkIdx + vol.rsvdSecCnt + UInt32.ofNat vol.fatSz32 * UInt32.ofNat i +
      UInt32.ofNat j).toNat = vol.startBlkIdx.toNat + vol.rsvdSecCnt.toNat + (vol.fatSz32 * i + j) ∧
    vol.fatSz32 * i + j < vol.numFATs * vol.fatSz32 := by
  have hlt : vol.fatSz32 * i + j < vol.numFATs * vol.fatSz32 := by
    calc vol.fatSz32 * i + j
      _ < vol.fatSz32 * (i + 1) := by rw [Nat.mul_succ]; exact Nat.add_lt_add_left hj _
      _ ≤ vol.numFATs * vol.fatSz32 := by rw [Nat.mul_comm]; exact Nat.mul_le_mul_right _ hi
  have hclusters : 0 < vol.secPerClus * vol.fatEntries := Nat.mul_pos vol.secPerClus_pos hpos
  have hblock : vol.startBlkIdx + vol.rsvdSecCnt + UInt32.ofNat vol.fatSz32 * UInt32.ofNat i +
      UInt32.ofNat j =
        UInt32.ofNat (vol.startBlkIdx.toNat + vol.rsvdSecCnt.toNat + (vol.fatSz32 * i + j)) := by
    simp only [UInt32.ofNat_add, UInt32.ofNat_mul, UInt32.ofNat_toNat]
    ac_rfl
  unfold OnDisk at h
  refine ⟨?_, hlt⟩
  rw [hblock]
  exact UInt32.toNat_ofNat_of_lt' (Nat.lt_of_lt_of_le (by omega) h)

end Volume

section Table

variable {fs : Fs} {w w' : UInt32 × Sector}

theorem mem_fatBlocks (h : w ∈ fatBlocks fs) : ∃ i < fs.vol.numFATs, ∃ j < fs.vol.fatSz32,
    w.1 = fs.vol.startBlkIdx + fs.vol.rsvdSecCnt + UInt32.ofNat fs.vol.fatSz32 * UInt32.ofNat i +
      UInt32.ofNat j ∧ w.2 = fatSector fs.fat j := by
  obtain ⟨i, hi, h⟩ := mem_flatMap.1 h
  obtain ⟨j, hj, rfl⟩ := mem_map.1 h
  exact ⟨i, mem_range.1 hi, j, mem_range.1 hj, rfl, rfl⟩

variable (hdisk : fs.vol.OnDisk)

include hdisk

theorem fatBlocks_functional (h : w ∈ fatBlocks fs) (h' : w' ∈ fatBlocks fs) (heq : w'.1 = w.1) :
    w'.2 = w.2 := by
  obtain ⟨i, hi, j, hj, hblock, hsec⟩ := mem_fatBlocks h
  obtain ⟨i', hi', j', hj', hblock', hsec'⟩ := mem_fatBlocks h'
  have hpos : 0 < fs.vol.fatEntries := Nat.mul_pos (Nat.zero_lt_of_lt hj) (by decide)
  have hnat := congrArg UInt32.toNat heq
  rw [hblock, hblock', (hdisk.toNat_fatBlock hi hj hpos).1, (hdisk.toNat_fatBlock hi' hj' hpos).1,
    Nat.add_right_inj] at hnat
  have hmod := congrArg (· % fs.vol.fatSz32) hnat
  simp only [Nat.mul_add_mod, Nat.mod_eq_of_lt hj, Nat.mod_eq_of_lt hj'] at hmod
  rw [hsec, hsec', hmod]

theorem fatBlocks_ne_block {c : UInt32} {k : ℕ} (h : w ∈ fatBlocks fs) (hc : fs.vol.HasCluster c)
    (hk : k < fs.vol.secPerClus) : w.1 ≠ fs.vol.block c k := by
  intro heq
  obtain ⟨i, hi, j, hj, hblock, -⟩ := mem_fatBlocks h
  obtain ⟨htable, hlt⟩ := hdisk.toNat_fatBlock hi hj (Nat.zero_lt_of_lt hc.2)
  have hnat := congrArg UInt32.toNat heq
  rw [hblock, htable, hdisk.toNat_block hc hk, Volume.dataStart] at hnat
  omega

end Table

/-! ## One vnode -/

/-- The vnode after it has been written. -/
def Vnode.flushed (v : Vnode) : Vnode :=
  { v with dirty := false, contentCache := v.contentCache.drop (writtenCount v.fileSize) }

/-- The sectors of a vnode that are written. -/
def flushes (vol : Volume) (v : Vnode) : List (UInt32 × Sector) :=
  sectorWrites vol v.clusIdx 0 (v.contentCache.take (writtenCount v.fileSize))

section Node

variable {fs : Fs} {i : ℕ} {v : Vnode}

theorem syncNode_clean (hv : fs.nodes[i]? = some v) (hclean : v.dirty = false) :
    syncNode fs i = .ok fs := by
  rw [syncNode, Fs.node_of_getElem? hv, ok_bind, hclean]
  rfl

theorem syncNode_dirty (hv : fs.nodes[i]? = some v) (hdirty : v.dirty = true)
    (hclus : v.clusIdx.toNat < fs.vol.fatEntries)
    (hfits : sectorsOf v.fileSize ≤ fs.vol.secPerClus) :
    syncNode fs i = .ok ({ fs with disk := Writes.apply fs.disk (flushes fs.vol v) }.setNode i
      v.flushed) := by
  have hpos : 0 < writtenCount v.fileSize := Nat.lt_of_lt_of_le Nat.one_pos (Nat.le_max_left ..)
  rw [syncNode, Fs.node_of_getElem? hv, ok_bind, if_pos hdirty,
    syncSectors_cluster hclus hfits hpos, ok_bind]
  rfl

theorem writtenCount_le (hfits : sectorsOf v.fileSize ≤ fs.vol.secPerClus) :
    writtenCount v.fileSize ≤ fs.vol.secPerClus := Nat.max_le.2 ⟨fs.vol.secPerClus_pos, hfits⟩

theorem mem_flushes {w : UInt32 × Sector} (h : w ∈ flushes fs.vol v) :
    ∃ k < writtenCount v.fileSize, v.contentCache[k]? = some w.2 ∧
      w.1 = fs.vol.block v.clusIdx k := by
  obtain ⟨k, hk, hsec, hblock⟩ := mem_sectorWrites h
  have hlt : k < writtenCount v.fileSize := Nat.lt_of_lt_of_le hk (length_take_le ..)
  rw [getElem?_take_of_lt hlt] at hsec
  exact ⟨k, hlt, hsec, by rw [hblock, Nat.zero_add]⟩

theorem apply_flushes {k : ℕ} {sec : Sector} (hfits : sectorsOf v.fileSize ≤ fs.vol.secPerClus)
    (hk : k < writtenCount v.fileSize) (hsec : v.contentCache[k]? = some sec) :
    Writes.apply fs.disk (flushes fs.vol v) (fs.vol.block v.clusIdx k) = sec := by
  have hspc := fs.vol.secPerClus_lt
  have hle := writtenCount_le hfits
  have htake : (v.contentCache.take (writtenCount v.fileSize)).length ≤ writtenCount v.fileSize :=
    length_take_le ..
  refine Writes.apply_of_mem (sectorWrites_nodup (by omega)) (mem_of_getElem? (i := k) ?_)
  rw [flushes, getElem?_sectorWrites, getElem?_take_of_lt hk, hsec, map_some, Nat.zero_add]

end Node

/-! ## All vnodes -/

/-- Vnodes form a tree below the first one, in which children come after their parents. -/
structure Tree (nodes : List Vnode) : Prop where
  root : ∀ v, nodes[0]? = some v → v.parent = none
  child : ∀ i v, nodes[i]? = some v → ∀ c ∈ v.children, i < c ∧ c < nodes.length
  parent : ∀ i v, nodes[i]? = some v → i ≠ 0 →
    ∃ p d, v.parent = some p ∧ nodes[p]? = some d ∧ d.type = .dir ∧ i ∈ d.children

/-- The vnodes below the given one, with itself. -/
def Descends (nodes : List Vnode) : ℕ → ℕ → Prop :=
  Relation.ReflTransGen fun i c ↦ ∃ v, nodes[i]? = some v ∧ c ∈ v.children

theorem Tree.parent_lt {nodes : List Vnode} (h : Tree nodes) {i p : ℕ} {d : Vnode}
    (hp : nodes[p]? = some d) (hi : i ∈ d.children) : p < i := (h.child p d hp i hi).1

theorem Tree.descends {nodes : List Vnode} (h : Tree nodes) {i : ℕ} (hi : i < nodes.length) :
    Descends nodes 0 i := by
  induction i using Nat.strong_induction_on with
  | _ i ih =>
    by_cases hzero : i = 0
    · exact hzero ▸ .refl
    · obtain ⟨p, d, -, hp, -, hchild⟩ := h.parent i nodes[i] (getElem?_eq_getElem hi) hzero
      exact (ih p (h.parent_lt hp hchild) (List.getElem?_eq_some_iff.1 hp).1).tail ⟨d, hp, hchild⟩

/-- The state in which `sync` works: the vnodes are a tree, and each dirty one ends in its first
cluster. -/
structure SyncReady (fs : Fs) : Prop where
  onDisk : fs.vol.OnDisk
  chainsOk : fs.ChainsOk
  tree : Tree fs.nodes
  fits : ∀ v ∈ fs.nodes, v.dirty = true → sectorsOf v.fileSize ≤ fs.vol.secPerClus

/-- The volume while `sync` is at work: some of the dirty vnodes have been written. -/
structure Flushing (fs fs' : Fs) : Prop where
  vol_eq : fs'.vol = fs.vol
  fat_eq : fs'.fat = fs.fat
  node : ∀ (i : ℕ) (v : Vnode), fs.nodes[i]? = some v →
    fs'.nodes[i]? = some v ∨ v.dirty = true ∧ fs'.nodes[i]? = some v.flushed
  written : ∀ (i : ℕ) (v : Vnode), fs.nodes[i]? = some v → v.dirty = true →
    fs'.nodes[i]? = some v.flushed →
    ∀ k sec, k < writtenCount v.fileSize → v.contentCache[k]? = some sec →
      fs'.disk (fs.vol.block v.clusIdx k) = sec
  others : ∀ b, (∀ v ∈ fs.nodes, v.dirty = true → ∀ k < writtenCount v.fileSize,
    b ≠ fs.vol.block v.clusIdx k) → fs'.disk b = fs.disk b

/-- The vnode has nothing to write. -/
def Clean (i : ℕ) (fs : Fs) : Prop := ∀ v, fs.nodes[i]? = some v → v.dirty = false

section Flush

variable {fs fs' : Fs} {i j : ℕ} {v v' : Vnode}

theorem Flushing.refl (fs : Fs) : Flushing fs fs := by
  refine ⟨rfl, rfl, fun i v hv ↦ .inl hv, fun i v hv hdirty hflushed ↦ ?_, fun b _ ↦ rfl⟩
  have hsame : v = v.flushed := mem_unique hv hflushed
  rw [hsame] at hdirty
  exact absurd hdirty Bool.false_ne_true

section

variable (h : fs.ChainsOk)
include h

theorem ChainsOk.onChain_self (hv : v ∈ fs.nodes) : OnChain fs.vol fs.fat v.clusIdx v.clusIdx := by
  obtain ⟨clusters, hchain⟩ := h.chain v.clusIdx (mem_map_of_mem hv)
  exact ⟨clusters, hchain, mem_of_getElem? hchain.getElem?_zero⟩

theorem ChainsOk.index_eq_of_onChain (hi : fs.nodes[i]? = some v) (hj : fs.nodes[j]? = some v')
    (hon : OnChain fs.vol fs.fat v.clusIdx v'.clusIdx) : i = j :=
  h.index_unique (Fs.getElem?_heads hi) (Fs.getElem?_heads hj) hon
    (h.onChain_self (mem_of_getElem? hj))

theorem ChainsOk.index_eq (hi : fs.nodes[i]? = some v) (hj : fs.nodes[j]? = some v')
    (hclus : v.clusIdx = v'.clusIdx) : i = j :=
  h.index_eq_of_onChain hi hj (hclus ▸ h.onChain_self (mem_of_getElem? hi))

end

namespace SyncReady

variable (h : SyncReady fs)

include h

theorem hasCluster (hv : v ∈ fs.nodes) : fs.vol.HasCluster v.clusIdx := by
  obtain ⟨clusters, hchain⟩ := h.chainsOk.chain v.clusIdx (mem_map_of_mem hv)
  exact hchain.inRange _ (mem_of_getElem? hchain.getElem?_zero)

theorem syncNode_flushing (hflush : Flushing fs fs') (hv : fs.nodes[i]? = some v)
    (hdirty : v.dirty = true) (hv' : fs'.nodes[i]? = some v) :
    Flushing fs ({ fs' with disk := Writes.apply fs'.disk (flushes fs'.vol v) }.setNode i
      v.flushed) := by
  have hmem := mem_of_getElem? hv
  have hfits := h.fits v hmem hdirty
  have hlt : i < fs'.nodes.length := (List.getElem?_eq_some_iff.1 hv').1
  refine ⟨hflush.vol_eq, hflush.fat_eq, fun j u hu ↦ ?_,
    fun j u hu hudirty hflushed k sec hk hsec ↦ ?_, fun b hb ↦ ?_⟩
  · rw [Fs.setNode_nodes, getElem?_set]
    split
    · next heq =>
      subst heq
      obtain rfl := mem_unique hv hu
      exact .inr ⟨hdirty, rfl⟩
    · exact hflush.node j u hu
  · change Writes.apply fs'.disk (flushes fs'.vol v) (fs.vol.block u.clusIdx k) = sec
    by_cases heq : i = j
    · subst heq
      obtain rfl := mem_unique hv hu
      rw [← hflush.vol_eq] at hfits ⊢
      exact apply_flushes hfits hk hsec
    · -- The sectors of another vnode are in another cluster.
      have hufits := h.fits u (mem_of_getElem? hu) hudirty
      rw [Writes.apply_of_notMem]
      · refine hflush.written j u hu hudirty ?_ k sec hk hsec
        rwa [Fs.setNode_nodes, getElem?_set_ne heq] at hflushed
      · intro w hw hblock
        obtain ⟨k', hk', -, hw⟩ := mem_flushes hw
        rw [hflush.vol_eq] at hw
        obtain ⟨hclus, -⟩ := h.onDisk.block_inj (h.hasCluster hmem)
          (h.hasCluster (mem_of_getElem? hu))
          (Nat.lt_of_lt_of_le hk' (writtenCount_le hfits))
          (Nat.lt_of_lt_of_le hk (writtenCount_le hufits)) (hw.symm.trans hblock)
        exact heq (h.chainsOk.index_eq hv hu hclus)
  · change Writes.apply fs'.disk (flushes fs'.vol v) b = fs.disk b
    rw [Writes.apply_of_notMem, hflush.others b hb]
    intro w hw hblock
    obtain ⟨k, hk, -, hw⟩ := mem_flushes hw
    rw [hflush.vol_eq] at hw
    exact hb v hmem hdirty k hk (hblock.symm.trans hw)

theorem syncNode_returns (hflush : Flushing fs fs') (hi : i < fs.nodes.length) :
    Returns (syncNode fs' i) fun fs'' ↦
      Flushing fs fs'' ∧ (∀ j, Clean j fs' → Clean j fs'') ∧ Clean i fs'' := by
  have hv : fs.nodes[i]? = some fs.nodes[i] := getElem?_eq_getElem hi
  obtain ⟨v', hv', hclean⟩ : ∃ v', fs'.nodes[i]? = some v' ∧
      (v'.dirty = false ∨ v' = fs.nodes[i] ∧ v'.dirty = true) := by
    rcases hflush.node i _ hv with hsame | ⟨-, hflushed⟩
    · cases hdirty : fs.nodes[i].dirty with
      | false => exact ⟨_, hsame, .inl hdirty⟩
      | true => exact ⟨_, hsame, .inr ⟨rfl, hdirty⟩⟩
    · exact ⟨_, hflushed, .inl rfl⟩
  rcases hclean with hclean | ⟨rfl, hdirty⟩
  · refine .of_eq (syncNode_clean hv' hclean) ⟨hflush, fun j hj ↦ hj, fun u hu ↦ ?_⟩
    obtain rfl := mem_unique hv' hu
    exact hclean
  · have hmem := mem_of_getElem? hv
    have hclus := (h.hasCluster hmem).2
    have hfits := h.fits _ hmem hdirty
    rw [← hflush.vol_eq] at hclus hfits
    refine .of_eq (syncNode_dirty hv' hdirty hclus hfits)
      ⟨h.syncNode_flushing hflush hv hdirty hv', fun j hj u hu ↦ ?_, fun u hu ↦ ?_⟩
    · rw [Fs.setNode_nodes, getElem?_set] at hu
      split at hu
      · split at hu
        · exact some.inj hu ▸ rfl
        · cases hu
      · exact hj u hu
    · rw [Fs.setNode_nodes, getElem?_set_self (List.getElem?_eq_some_iff.1 hv').1] at hu
      exact some.inj hu ▸ rfl

/-- The recursion ends, and all vnodes below the given one have been written. -/
theorem syncFileRecursive_returns (fuel : ℕ) (hflush : Flushing fs fs')
    (hi : i < fs.nodes.length) (hfuel : fs.nodes.length ≤ fuel + i) :
    Returns (syncFileRecursive fuel fs' i) fun fs'' ↦ Flushing fs fs'' ∧
      (∀ j, Clean j fs' → Clean j fs'') ∧ ∀ j, Descends fs.nodes i j → Clean j fs'' := by
  induction fuel generalizing fs' i with
  | zero => omega
  | succ fuel ih =>
    have hv : fs.nodes[i]? = some fs.nodes[i] := getElem?_eq_getElem hi
    rw [syncFileRecursive]
    refine (h.syncNode_returns hflush hi).bind fun fs₁ hnode ↦ ?_
    obtain ⟨hflush₁, hkept₁, hclean⟩ := hnode
    obtain ⟨v₁, hv₁, hchildren⟩ : ∃ v₁, fs₁.nodes[i]? = some v₁ ∧
        v₁.children = fs.nodes[i].children := by
      rcases hflush₁.node i _ hv with hsame | ⟨-, hflushed⟩
      · exact ⟨_, hsame, rfl⟩
      · exact ⟨_, hflushed, rfl⟩
    rw [Fs.node_of_getElem? hv₁, ok_bind, hchildren]
    refine (Returns.foldlM (P := Flushing fs) (D := Clean) (C := Descends fs.nodes)
      (fun fs₂ hflush₂ c hc ↦ ?_) hflush₁).mono ?_
    · obtain ⟨hlt, hclt⟩ := h.tree.child i _ hv c hc
      exact ih hflush₂ hclt (by omega)
    · rintro fs'' ⟨hflush'', hkept, hall⟩
      refine ⟨hflush'', fun j hj ↦ hkept j (hkept₁ j hj), fun j hj ↦ ?_⟩
      rcases Relation.ReflTransGen.cases_head hj with rfl | ⟨c, ⟨u, hu, hc⟩, hj⟩
      · exact hkept i hclean
      · obtain rfl := mem_unique hv hu
        exact hall c hc j hj

end SyncReady

end Flush

/-! ## The whole function -/

/-- What `sync` leaves: the table, the first sectors of the dirty vnodes, and all other sectors as
they were. -/
structure Synced (fs fs' : Fs) : Prop where
  vol_eq : fs'.vol = fs.vol
  fat_eq : fs'.fat = fs.fat
  table : ∀ w ∈ fatBlocks fs, fs'.disk w.1 = w.2
  written : ∀ v ∈ fs.nodes, v.dirty = true → ∀ k sec, k < writtenCount v.fileSize →
    v.contentCache[k]? = some sec → fs'.disk (fs.vol.block v.clusIdx k) = sec
  kept : ∀ c k, fs.vol.HasCluster c → k < fs.vol.secPerClus →
    (∀ v ∈ fs.nodes, v.dirty = true → v.clusIdx = c → writtenCount v.fileSize ≤ k) →
      fs'.disk (fs.vol.block c k) = fs.disk (fs.vol.block c k)

theorem sync_returns {fs : Fs} (h : SyncReady fs) (hroot : 0 < fs.nodes.length) :
    Returns (sync fs) (Synced fs) := by
  let fs₁ : Fs := { fs with disk := Writes.apply fs.disk (fatBlocks fs) }
  have h₁ : SyncReady fs₁ := ⟨h.onDisk, h.chainsOk, h.tree, h.fits⟩
  refine (h₁.syncFileRecursive_returns (fs.nodes.length + 1) (.refl fs₁) hroot
    (by exact Nat.le_succ _)).mono ?_
  rintro fs' ⟨hflush, -, hclean⟩
  have hfits : ∀ v ∈ fs.nodes, v.dirty = true → writtenCount v.fileSize ≤ fs.vol.secPerClus :=
    fun v hv hdirty ↦ writtenCount_le (h.fits v hv hdirty)
  refine ⟨hflush.vol_eq, hflush.fat_eq, fun w hw ↦ ?_, fun v hv hdirty k sec hk hsec ↦ ?_,
    fun c k hc hk hout ↦ ?_⟩
  · rw [hflush.others w.1 fun v hv hdirty k hk ↦ fatBlocks_ne_block h.onDisk hw (h.hasCluster hv)
      (Nat.lt_of_lt_of_le hk (hfits v hv hdirty))]
    exact Writes.apply_eq_of_forall ⟨w, hw, rfl⟩ fun w' hw' ↦ fatBlocks_functional h.onDisk hw hw'
  · obtain ⟨i, hi⟩ := getElem?_of_mem hv
    have hlt : i < fs.nodes.length := (List.getElem?_eq_some_iff.1 hi).1
    refine hflush.written i v hi hdirty ?_ k sec hk hsec
    rcases hflush.node i v hi with hsame | ⟨-, hflushed⟩
    · exact absurd ((hclean i (h.tree.descends hlt) v hsame).symm.trans hdirty) Bool.false_ne_true
    · exact hflushed
  · rw [hflush.others]
    · exact Writes.apply_of_notMem fun w hw ↦ fatBlocks_ne_block h.onDisk hw hc hk
    · intro v hv hdirty k' hk' heq
      obtain ⟨hclus, rfl⟩ := h.onDisk.block_inj hc (h.hasCluster hv) hk
        (Nat.lt_of_lt_of_le hk' (hfits v hv hdirty)) heq
      exact absurd hk' (Nat.not_lt.2 (hout v hv hdirty hclus.symm))

end CapstoneKernel.Fat32
