import CapstoneKernel.Fat32.LostClusters

/-!
# A cluster for every cached sector

`fat32_write` looks for the clusters of the sectors it writes from the first cluster of the file on,
wherever the position is.  A write that starts in a later cluster can therefore leave sectors for
which the chain has no cluster.
-/

namespace CapstoneKernel.Fat32

open Execution List

/-- The chain of a file has a cluster for each of its cached sectors. -/
def Fits (vol : Volume) (fat : UInt32 → UInt32) (v : Vnode) : Prop :=
  v.type = .file → ∃ clusters, FatChain vol fat v.clusIdx clusters ∧
    v.contentCache.length ≤ vol.secPerClus * clusters.length

/-- Writes for which the clusters from the first one on are enough: they start in the first cluster,
or need no new one, or start in the second one and end with a cluster.  Vnodes are created in
directories. -/
def findsClusters (s : Sys) : Act → Bool
  | .create dir _ _ => s.fs.nodes[dir]?.all fun d ↦ d.type == .dir
  | .mkdir dir _ => s.fs.nodes[dir]?.all fun d ↦ d.type == .dir
  | .write i buf => s.files[i]?.all fun f ↦ s.fs.nodes[f.vnode]?.all fun v ↦
      f.fPos / blkSz < s.fs.vol.secPerClus ||
      sectorsAfter f.fPos buf.length ≤
        s.fs.vol.secPerClus * (clustersOf s.fs.vol s.fs.fat s.fs.vol.fatEntries v.clusIdx).length ||
      (buf.length != 0 && f.fPos / blkSz < 2 * s.fs.vol.secPerClus &&
        sectorsAfter f.fPos buf.length % s.fs.vol.secPerClus == 0)
  | _ => true

def FindsClusters (s : Sys) (a : Act) : Prop := findsClusters s a = true
deriving Decidable

namespace Fits

variable {vol : Volume} {fat fat' : UInt32 → UInt32} {v v' : Vnode}

/-- The table may change as long as the chain is kept or gets longer. -/
theorem mono (h : Fits vol fat v) (hgrow : ∀ clusters, FatChain vol fat v.clusIdx clusters →
    ∃ clusters', clusters <+: clusters' ∧ FatChain vol fat' v.clusIdx clusters') : Fits vol fat' v := by
  intro hfile
  obtain ⟨clusters, hchain, hle⟩ := h hfile
  obtain ⟨clusters', hpre, hchain'⟩ := hgrow clusters hchain
  exact ⟨clusters', hchain', Nat.le_trans hle (Nat.mul_le_mul_left _ hpre.length_le)⟩

theorem congr (h : Fits vol fat v) (htype : v'.type = v.type) (hclus : v'.clusIdx = v.clusIdx)
    (hlength : v'.contentCache.length ≤ v.contentCache.length) : Fits vol fat v' := by
  intro hfile
  obtain ⟨clusters, hchain, hle⟩ := h (htype ▸ hfile)
  exact ⟨clusters, hclus ▸ hchain, Nat.le_trans hlength hle⟩

theorem contentOf {fs : Fs} {needed : Bool} {secs : List Sector} (h : Fits fs.vol fs.fat v)
    (hsecs : contentOf fs v needed = .ok secs) : Fits fs.vol fs.fat { v with contentCache := secs } := by
  intro hfile
  obtain ⟨clusters, hchain, hle⟩ := h hfile
  refine ⟨clusters, hchain, ?_⟩
  unfold Fat32.contentOf at hsecs
  split at hsecs
  · rw [readContent_eq hchain] at hsecs
    exact Except.ok.inj hsecs ▸ loadAll_length_le fs _ clusters 0
  · exact Except.ok.inj hsecs ▸ hle

end Fits

/-- Every file of the volume fits its chain. -/
def AllFit (fs : Fs) : Prop := ∀ v ∈ fs.nodes, Fits fs.vol fs.fat v

namespace AllFit

variable {fs : Fs} {i : ℕ} {v : Vnode}

theorem setNode (h : AllFit fs) (hv : Fits fs.vol fs.fat v) : AllFit (fs.setNode i v) := by
  intro v' hv'
  rcases mem_or_eq_of_mem_set hv' with hold | rfl
  · exact h v' hold
  · exact hv

end AllFit

/-! ## Writes -/

theorem length_soughtCache (whichSec : ℕ) (cache : List Sector) :
    (soughtCache whichSec cache).length ≤ max cache.length (whichSec + 1) ∨ cache.length < whichSec := by
  unfold soughtCache
  split
  · exact .inl (Nat.le_max_left ..)
  · rw [length_append, length_singleton]
    omega

variable {buf : List UInt8} {fs fs' : Fs} {s : Sys}

theorem Rounds.fits {w w' : WriteState} {cur : ℕ} {heads clusters : List UInt32}
    (h : Rounds w cur buf w') (hok : ChainsOk w.fs.vol w.fs.fat heads) (hhead : w.clusIdx ∈ heads)
    (hchain : FatChain w.fs.vol w.fs.fat w.clusIdx clusters) (hcur : cur = w.whichSec)
    (hstart : w.whichSec = w.fPos / blkSz)
    (hcache : w.cache.length ≤ max (w.fs.vol.secPerClus * clusters.length) (w.whichSec + 1))
    (hwrite : w.whichSec < w.fs.vol.secPerClus ∨
      sectorsAfter w.fPos buf.length ≤ w.fs.vol.secPerClus * clusters.length ∨
      buf ≠ [] ∧ w.whichSec < 2 * w.fs.vol.secPerClus ∧ sectorsAfter w.fPos buf.length % w.fs.vol.secPerClus = 0) :
    
    ∃ clusters', FatChain w.fs.vol w'.fs.fat w.clusIdx clusters' ∧
      w'.cache.length ≤ w.fs.vol.secPerClus * clusters'.length := by
  obtain ⟨fat, clusters', hfs, -, hpre, hcursor, -⟩ := h.moves ⟨hok, hhead, hchain, hchain.getElem?_zero⟩
  have hvol : w'.fs.vol = w.fs.vol := by rw [hfs]
  refine ⟨clusters', hvol ▸ hcursor.chain, ?_⟩
  have hpos := w.fs.vol.secPerClus_pos
  have hlength := h.length_le hcur
  have hmono : w.fs.vol.secPerClus * clusters.length ≤ w.fs.vol.secPerClus * clusters'.length :=
    Nat.mul_le_mul_left _ hpre.length_le
  -- The cursor is on the chain, so that the chain has as many clusters as it has passed.
  have hpassed : w'.whichSec / w.fs.vol.secPerClus - w.whichSec / w.fs.vol.secPerClus + 1 ≤
    clusters'.length := by
    have hlt := (List.getElem?_eq_some_iff.1 hcursor.clus).1
    omega
  have hcover := Nat.mul_le_mul_left w.fs.vol.secPerClus hpassed
  have hlast : w'.whichSec ≤ sectorsAfter w.fPos buf.length ∧
    (buf ≠ [] → w'.whichSec = sectorsAfter w.fPos buf.length) := by
    cases buf with
    | nil =>
      cases h with
      | nil =>
        refine ⟨?_, fun hne ↦ absurd rfl hne⟩
        rw [hstart, sectorsAfter, length_nil]
        exact Nat.le_succ _
      | cons hne _ _ => exact absurd rfl hne
    | cons c buf =>
      have heq := h.whichSec_eq (cons_ne_nil c buf)
      exact ⟨by omega, fun _ ↦ by omega⟩
  have hdiv := Nat.div_add_mod w'.whichSec w.fs.vol.secPerClus
  have hmod := Nat.mod_lt w'.whichSec hpos
  have hfirst : w.fs.vol.secPerClus * 1 ≤ w.fs.vol.secPerClus * clusters'.length :=
    Nat.mul_le_mul_left _ (by omega)
  rcases hwrite with hfirst' | hold | ⟨hne, hsecond, hend⟩
  · rw [Nat.div_eq_of_lt hfirst', Nat.sub_zero, Nat.mul_succ] at hcover
    omega
  · have hfits : w.whichSec + 1 ≤ sectorsAfter w.fPos buf.length := by
      rw [hstart, sectorsAfter]
      exact Nat.succ_le_succ (Nat.div_le_div_right (Nat.le_add_right ..))
    omega
  · have heq := hlast.2 hne
    rw [← heq] at hend
    have hone : w.whichSec / w.fs.vol.secPerClus ≤ 1 := by
      have hlt := (Nat.div_lt_iff_lt_mul hpos).2 hsecond
      omega
    have hle := Nat.mul_le_mul_left w.fs.vol.secPerClus
      (show w'.whichSec / w.fs.vol.secPerClus ≤ clusters'.length by omega)
    have hlt := (h.whichSec_le).2 hne
    omega

theorem AllFit.appends {fat : UInt32 → UInt32} (h : AllFit fs) (hok : fs.ChainsOk)
    (happends : Appends fs.vol fs.heads fs.fat fat) : AllFit { fs with fat := fat } :=
  fun v hv ↦ (h v hv).mono fun _ hchain ↦ happends.isPrefix hok hchain

theorem Writes.allFit {file file' : File} (h : Writes fs file buf file' fs') (hok : fs.ChainsOk)
    (hfit : AllFit fs)
    (hwrite : ∀ v clusters, fs.nodes[file.vnode]? = some v → FatChain fs.vol fs.fat v.clusIdx clusters →
      file.fPos / blkSz < fs.vol.secPerClus ∨
        sectorsAfter file.fPos buf.length ≤ fs.vol.secPerClus * clusters.length ∨
        buf ≠ [] ∧ file.fPos / blkSz < 2 * fs.vol.secPerClus ∧
          sectorsAfter file.fPos buf.length % fs.vol.secPerClus = 0) : AllFit fs' := by
  obtain @⟨v, p, v₁, p₁, parent, k, psecs, secs, pcache₁, pcache, w, fs₁, fs₂, hv, -, hp, hpsecs,
    hfs₁, -, hv₁,
    hsecs, hfs₂, hpos, hrounds, hp₁, hstore₁, hstore, -, rfl⟩ := h
  have hheads₁ : fs₁.heads = fs.heads := hfs₁ ▸ Fs.heads_withCache hp psecs
  have hheads₂ : fs₂.heads = fs.heads := hheads₁ ▸ hfs₂ ▸ Fs.heads_withCache hv₁ secs
  have hvol : fs₂.vol = fs.vol := by rw [hfs₂, hfs₁]; rfl
  have hfat : fs₂.fat = fs.fat := by rw [hfs₂, hfs₁]; rfl
  have hfit₁ : AllFit fs₁ := hfs₁ ▸ hfit.setNode ((hfit p (mem_of_getElem? hp)).contentOf hpsecs)
  have hfit₂ : AllFit fs₂ := hfs₂ ▸ hfit₁.setNode ((hfit₁ v₁ (mem_of_getElem? hv₁)).contentOf hsecs)
  have hclus : v₁.clusIdx = v.clusIdx := by
    have heq := Fs.getElem?_heads hv₁
    rw [hheads₁, Fs.getElem?_heads hv] at heq
    exact (Option.some.inj heq).symm
  have hhead : v₁.clusIdx ∈ fs.heads := hclus ▸ mem_map_of_mem (mem_of_getElem? hv)
  obtain ⟨clusters, hchain⟩ := hok.chain _ hhead
  have hwrite' := hwrite v clusters hv (hclus ▸ hchain)
  rw [← hvol, ← hfat] at hchain
  rw [← hvol] at hwrite'
  have hok₂ : fs₂.ChainsOk := by rw [Fs.ChainsOk, hvol, hfat, hheads₂]; exact hok
  obtain ⟨fat, -, hfs, happends, -⟩ := hrounds.moves
    ⟨hok₂, hheads₂ ▸ hhead, hchain, hchain.getElem?_zero⟩
  have hfit₃ : AllFit w.fs := hfs ▸ hfit₂.appends hok₂ happends
  have hvol₃ : w.fs.vol = fs₂.vol := by rw [hfs]; rfl
  have hfit₄ : AllFit (w.fs.setNode file.vnode
      { v₁ with contentCache := w.cache, fileSize := w.fileSize, dirty := true }) := by
    refine hfit₃.setNode fun hfile ↦ ?_
    rw [hvol₃]
    refine hrounds.fits hok₂ (hheads₂ ▸ hhead) hchain rfl rfl ?_ hwrite'
    have hv₂ : fs₂.nodes[file.vnode]? = some { v₁ with contentCache := secs } :=
      hfs₂ ▸ Fs.getElem?_setNode_self hv₁
    obtain ⟨clusters', hchain', hle⟩ := hfit₂ _ (mem_of_getElem? hv₂) hfile
    obtain rfl : clusters = clusters' := hchain.unique hchain'
    have hsought := length_soughtCache (file.fPos / blkSz) secs
    dsimp only [writeStart] at hle ⊢
    omega
  refine hfit₄.setNode ((hfit₄ p₁ (mem_of_getElem? hp₁)).congr rfl rfl ?_)
  rw [storeSlot_length hstore, storeSlot_length hstore₁]

/-! ## New vnodes -/

section Creates

variable {fs fs' : Fs} {dir : ℕ} {d v : Vnode}

section

variable (hok : fs.ChainsOk)
include hok

theorem AllFit.withNode (h : AllFit fs) (hd : fs.nodes[dir]? = some d)
    (hfree : fs.fat v.clusIdx = fatEntryFree) (hlt : v.clusIdx.toNat < fs.vol.fatEntries)
    (hnew : v.type = .file → v.contentCache = []) : AllFit (withNode fs dir d v) := by
  have hkeep : ∀ v', Fits fs.vol fs.fat v' → Fits fs.vol (claimed fs.vol fs.fat v.clusIdx) v' :=
    fun v' hv' ↦
    hv'.mono fun clusters hchain ↦
      ⟨clusters, prefix_rfl, hchain.claimed (hok.notMem_of_free hchain hfree)⟩
  intro v' hv'
  rcases mem_append.1 hv' with hold | hnew'
  · rcases mem_or_eq_of_mem_set hold with hold | rfl
    · exact hkeep v' (h v' hold)
    · exact hkeep _ ((h d (mem_of_getElem? hd)).congr rfl rfl (Nat.le_refl _))
  · obtain rfl := mem_singleton.1 hnew'
    intro hfile
    refine ⟨[v'.clusIdx], ChainsOk.fatChain_claimed_self ⟨hok.two_le_of_free hfree, hlt⟩, ?_⟩
    rw [hnew hfile]
    exact Nat.zero_le _

/-- Only the chain of the directory is cut. -/
theorem AllFit.linked {p : Vnode} {clusters : List UInt32} {clus t : UInt32} (h : AllFit fs)
    (hp : fs.nodes[dir]? = some p) (hdir : p.type = .dir)
    (hchain : FatChain fs.vol fs.fat p.clusIdx clusters) (hclus : clus ∈ clusters)
    (hfree : fs.fat t = fatEntryFree) (hlt : t.toNat < fs.vol.fatEntries) :
    AllFit { fs with fat := linked fs.vol fs.fat clus t } := by
  intro v hv hfile
  obtain ⟨clusters', hchain', hle⟩ := h v hv hfile
  obtain ⟨i, hi⟩ := getElem?_of_mem hv
  have hnot : clus ∉ clusters' := by
    intro hmem
    obtain rfl := hok.index_unique (Fs.getElem?_heads hi) (Fs.getElem?_heads hp)
      ⟨clusters', hchain', hmem⟩ ⟨clusters, hchain, hclus⟩
    obtain rfl := Option.mem_unique hi hp
    exact absurd (hfile.symm.trans hdir) nofun
  exact ⟨clusters', hchain'.linked_of_notMem hok.endOfFile hlt hnot
    (hok.notMem_of_free hchain' hfree), hle⟩

theorem Creates.allFit (h : Creates fs dir v fs') (hfit : AllFit fs)
    (hdir : ∀ d, fs.nodes[dir]? = some d → d.type = .dir)
    (hnew : v.type = .file → v.contentCache = []) :
    AllFit fs' := by
  obtain @⟨d, secs, clusters, hd, hfree, hlt, hchain, -, hreg⟩ := h
  have hfit₁ := hfit.withNode hok hd hfree hlt hnew
  have htype : d.type ≠ .file := by
    rw [hdir d hd]
    exact nofun
  cases hreg with
  | full _ | taken _ _ _ => exact hfit₁.setNode fun hfile ↦ absurd hfile htype
  | grown _ _ _ hclus hfree' hlt' _ _ =>
    have hok₁ : ChainsOk fs.vol (Fat32.withNode fs dir d v).fat
      (Fat32.withNode fs dir d v).heads := by
      rw [withNode_heads hd]
      exact hok.claim hfree hlt
    have hchain₁ := hchain.claimed (hok.notMem_of_free hchain hfree)
    have hlinked := hfit₁.linked hok₁ (withNode_getElem?_dir hd) (hdir d hd) hchain₁
      (mem_of_getElem? hclus) hfree' hlt'
    exact hlinked.setNode fun hfile ↦ absurd hfile htype

end

end Creates

/-! ## Runs -/

theorem FsEffect.allFit {a : Act} (h : FsEffect s a fs') (hok : s.fs.ChainsOk) (hfit : AllFit s.fs)
    (hallowed : FindsClusters s a) :
    AllFit fs' := by
  cases h with
  | @create dir name type t fs' hcreates =>
    refine hcreates.allFit hok hfit (fun d hd ↦ ?_) fun _ ↦ rfl
    rw [FindsClusters, findsClusters, hd, Option.all_some] at hallowed
    exact eq_of_beq hallowed
  | mkdir _ hcreates =>
    refine hcreates.allFit hok hfit (fun d hd ↦ ?_) fun hfile ↦ absurd hfile nofun
    rw [FindsClusters, findsClusters, hd, Option.all_some] at hallowed
    exact eq_of_beq hallowed
  | write hfile hwrites =>
    refine hwrites.allFit hok hfit fun v clusters hv hchain ↦ ?_
    rw [FindsClusters, findsClusters, hfile, Option.all_some, hv, Option.all_some,
      hchain.clustersOf_eq hchain.length_le] at hallowed
    simpa [or_assoc, and_assoc] using hallowed
  | read _ hv hsecs => exact hfit.setNode ((hfit _ (mem_of_getElem? hv)).contentOf hsecs)
  | openFile | lseek64 => exact hfit

theorem FsReachable.allFit {s₀ : Sys} (hstart : s₀.fs.ChainsOk) (hfit : AllFit s₀.fs)
    (h : FsReachable FindsClusters s₀ s) : AllFit s.fs := by
  induction h with
  | start hs => exact hs ▸ hfit
  | next hreach hstep ih =>
    obtain ⟨a, out, hallowed, hrun⟩ := hstep
    have hok := FsReachable.chainsOk hstart hreach
    exact (a.effect hok hrun).allFit hok ih hallowed

/-- If writes find the clusters of their sectors, the chain of every file has as many clusters as
its cached sectors need. -/
theorem cached_sectors_have_clusters {s₀ s : Sys} (hstart : ChainsOk s₀.fs.vol s₀.fs.fat s₀.fs.heads)
    (hfit : ∀ v ∈ s₀.fs.nodes, v.contentCache = []) (hrun : FsReachable FindsClusters s₀ s) :
    ∀ v ∈ s.fs.nodes, v.type = .file → ∃ clusters, FatChain s.fs.vol s.fs.fat v.clusIdx clusters ∧
      (v.contentCache.length + (s.fs.vol.secPerClus - 1)) / s.fs.vol.secPerClus ≤ clusters.length := by
  intro v hv hfile
  have hempty : AllFit s₀.fs := by
    intro v hv _
    obtain ⟨clusters, hchain⟩ := hstart.chain _ (mem_map_of_mem hv)
    refine ⟨clusters, hchain, ?_⟩
    rw [hfit v hv]
    exact Nat.zero_le _
  obtain ⟨clusters, hchain, hle⟩ := hrun.allFit hstart hempty v hv hfile
  refine ⟨clusters, hchain, ?_⟩
  have hpos := s.fs.vol.secPerClus_pos
  rw [Nat.div_le_iff_le_mul_add_pred hpos]
  omega

/-- The two sectors of a file of 600 bytes have their clusters. -/
theorem cached_sectors_have_clusters_write : ∃ s, (FsReachable FindsClusters (rootSys smallTable .zero) s ∧
      s.fs.nodes.map (fun v ↦ (v.type, v.contentCache.length)) = [(.dir, 1), (.file, 2)]) ∧
    ∀ v ∈ s.fs.nodes, v.type = .file → ∃ clusters, FatChain s.fs.vol s.fs.fat v.clusIdx clusters ∧
      (v.contentCache.length + (s.fs.vol.secPerClus - 1)) / s.fs.vol.secPerClus ≤ clusters.length := by
  obtain ⟨s, hreach, hs⟩ := FsReachable.exists_run FindsClusters (rootSys smallTable .zero)
    [.create 0 [65] .file, .openFile 1, .write 0 (List.replicate 600 7)]
    (fun s ↦ s.fs.nodes.map (fun v ↦ (v.type, v.contentCache.length)) = [(.dir, 1), (.file, 2)])
    (by decide +kernel)
  have hchain : FatChain smallVolume (tableOf smallTable) 2 [2] := by decide +kernel
  exact ⟨s, ⟨hreach, hs⟩, cached_sectors_have_clusters
    (rootSys_chainsOk (by decide) (by decide) hchain)
    (by decide) hreach⟩

/-- Three writes of one sector each leave a file with three sectors and two clusters. -/
theorem third_sector_without_cluster : ∃ s₀ s, ChainsOk s₀.fs.vol s₀.fs.fat s₀.fs.heads ∧
    (∀ v ∈ s₀.fs.nodes, v.contentCache = []) ∧ FsReachable anyCall s₀ s ∧
    ∃ v ∈ s.fs.nodes, v.type = .file ∧ ∀ clusters, FatChain s.fs.vol s.fs.fat v.clusIdx clusters →
      clusters.length < (v.contentCache.length + (s.fs.vol.secPerClus - 1)) / s.fs.vol.secPerClus := by
  obtain ⟨s, hreach, hchain, hs⟩ := FsReachable.exists_run anyCall (rootSys smallTable .zero)
    [.create 0 [65] .file, .openFile 1, .write 0 (List.replicate 512 7),
      .write 0 (List.replicate 512 7),
      .write 0 (List.replicate 512 7)]
    (fun s ↦ FatChain s.fs.vol s.fs.fat 3 [3, 4] ∧ ∃ v ∈ s.fs.nodes, v.type = .file ∧
      v.clusIdx = 3 ∧
      2 < (v.contentCache.length + (s.fs.vol.secPerClus - 1)) / s.fs.vol.secPerClus)
        (by decide +kernel)
  obtain ⟨v, hv, hfile, hclus, hmany⟩ := hs
  have hroot : FatChain smallVolume (tableOf smallTable) 2 [2] := by decide +kernel
  refine ⟨rootSys smallTable .zero, s, rootSys_chainsOk (by decide) (by decide) hroot, by decide,
    hreach, v, hv,
    hfile, fun clusters hclusters ↦ ?_⟩
  rw [hclus] at hclusters
  rw [hclusters.unique hchain]
  exact hmany

end CapstoneKernel.Fat32
