import CapstoneKernel.Fat32.Loading
import CapstoneKernel.Fat32.Runs

/-!
# Lost clusters

A directory in which the last entry of a sector ends the list of entries grows by a cluster that is
put behind the cluster of that sector.  If the chain goes on there, what follows is cut off and
lost; if the chain still has room for the new sector, the cluster comes too early.  Otherwise no
cluster is lost.
-/

namespace CapstoneKernel.Fat32

open Execution LinkedChain List Option

/-- The clusters from the given one on, at most as many as the first argument says. -/
def clustersOf (vol : Volume) (fat : UInt32 → UInt32) (n : ℕ) (c : UInt32) : List UInt32 :=
  visits (fatNext vol fat) n (some c)

theorem FatChain.clustersOf_eq {vol : Volume} {fat : UInt32 → UInt32} {head : UInt32} {clusters : List UInt32}
    (h : FatChain vol fat head clusters) {fuel : ℕ} (hfuel : clusters.length ≤ fuel) :
    clustersOf vol fat fuel head = clusters :=
  (h.chain.visits_eq_take fuel).trans (take_of_length_le hfuel)

/-- The directory does not grow when the next vnode is registered in it, or the end of its entries
is the end of its last sector and its sectors fill its clusters. -/
def growsAtEnd (fs : Fs) (dir : ℕ) : Bool :=
  match fs.nodes[dir]? with
  | none => true
  | some d =>
    match contentOf fs d true with
    | .error _ => true
    | .ok secs =>
      match firstFree secs with
      | none => true
      | some k =>
        !(isLast secs k && k % (blkSz / entrySz) + 1 == blkSz / entrySz) ||
          (k + 1 == blkSz / entrySz * secs.length &&
            secs.length == fs.vol.secPerClus * (clustersOf fs.vol fs.fat fs.vol.fatEntries d.clusIdx).length)

/-- Directories grow only at their ends. -/
def GrowsAtEnd (s : Sys) : Act → Prop
  | .create dir _ _ => growsAtEnd s.fs dir = true
  | .mkdir dir _ => growsAtEnd s.fs dir = true
  | _ => True

instance (s : Sys) (a : Act) : Decidable (GrowsAtEnd s a) := by
  induction a using Act.casesOn <;> unfold GrowsAtEnd <;> infer_instance

/-- The directory keeps its chain, or gets a cluster behind the last one because its sectors do not
fit the chain any longer. -/
def KeepsOrAppends (fs : Fs) (dir : ℕ) (fs' : Fs) : Prop :=
  ∀ d clusters, fs.nodes[dir]? = some d → FatChain fs.vol fs.fat d.clusIdx clusters →
    FatChain fs'.vol fs'.fat d.clusIdx clusters ∨
    ∃ t d', FatChain fs'.vol fs'.fat d.clusIdx (clusters ++ [t]) ∧ fs'.nodes[dir]? = some d' ∧
      fs.vol.secPerClus * clusters.length < d'.contentCache.length

section Creates

variable {fs fs' : Fs} {dir : ℕ} {d v : Vnode} {clusters : List UInt32}

theorem contentOf_withNode (hchain : FatChain fs.vol fs.fat d.clusIdx clusters) (hv : v.clusIdx ∉ clusters) :
    contentOf (withNode fs dir d v) (withChild fs d) true = contentOf fs d true := by
  have hread : readContent (withNode fs dir d v) (withChild fs d) = readContent fs d :=
    readContent_congr hchain (hchain.claimed hv) rfl rfl rfl
  rw [contentOf, contentOf, hread]
  rfl

variable {secs : List Sector} {k : ℕ}

/-- The place at which the directory grows is the last one of the last sector. -/
theorem growsAtEnd_grown (h : growsAtEnd fs dir = true) (hd : fs.nodes[dir]? = some d)
    (hchain : FatChain fs.vol fs.fat d.clusIdx clusters) (hsecs : contentOf fs d true = .ok secs)
    (hk : firstFree secs = some k) (hlast : isLast secs k = true)
    (hslot : k % (blkSz / entrySz) + 1 = blkSz / entrySz) :
    k + 1 = blkSz / entrySz * secs.length ∧ secs.length = fs.vol.secPerClus * clusters.length := by
  unfold growsAtEnd at h
  simp only [hd, hsecs, hk, hlast, hslot, hchain.clustersOf_eq hchain.length_le, beq_self_eq_true,
    Bool.and_self,
    Bool.not_true, Bool.false_or, Bool.and_eq_true, beq_iff_eq] at h
  exact h

/-- The cluster of the last sector of a full chain is the last one. -/
theorem last_of_full {clus : UInt32} (hk : k + 1 = blkSz / entrySz * secs.length)
    (hfull : secs.length = fs.vol.secPerClus * clusters.length)
    (hclus : clusters[k / (blkSz / entrySz) / fs.vol.secPerClus]? = some clus) :
    clusters[k / (blkSz / entrySz) / fs.vol.secPerClus + 1]? = none := by
  have hpos := fs.vol.secPerClus_pos
  have hsec : k / (blkSz / entrySz) + 1 = fs.vol.secPerClus * clusters.length := by
    simp only [blkSz, entrySz] at hk ⊢
    omega
  have hlt := (List.getElem?_eq_some_iff.1 hclus).1
  have hdiv : (k / (blkSz / entrySz) + 1) / fs.vol.secPerClus = clusters.length := by
    rw [hsec, Nat.mul_div_cancel_left _ hpos]
  have hmod : (k / (blkSz / entrySz) + 1) % fs.vol.secPerClus = 0 := by rw [hsec, Nat.mul_mod_right]
  rw [Nat.succ_div_of_mod_eq_zero hmod] at hdiv
  exact getElem?_eq_none (by omega)

theorem Creates.noLost (h : Creates fs dir v fs') (hok : fs.ChainsOk)
    (hlost : NoLost fs.vol fs.fat fs.heads) (hend : growsAtEnd fs dir = true) :
    NoLost fs'.vol fs'.fat fs'.heads ∧ KeepsOrAppends fs dir fs' := by
  obtain @⟨d, secs, clusters, hd, hfree, hlt, hchain, hsecs, hreg⟩ := h
  have hv := hok.notMem_of_free hchain hfree
  have hdir : (withNode fs dir d v).nodes[dir]? = some (withChild fs d) := withNode_getElem?_dir hd
  have hheads := withNode_heads (v := v) hd
  have hok' : ChainsOk fs.vol (withNode fs dir d v).fat (withNode fs dir d v).heads := by
    rw [hheads]
    exact hok.claim hfree hlt
  have hlost' : NoLost fs.vol (withNode fs dir d v).fat (withNode fs dir d v).heads := by
    rw [hheads]
    exact hlost.claim hok hfree hlt
  have hchain' : FatChain fs.vol (withNode fs dir d v).fat d.clusIdx clusters := hchain.claimed hv
  rw [contentOf_withNode hchain hv] at hsecs
  rw [hreg.heads_eq hdir]
  cases hreg with
  | full _ | taken _ _ _ =>
    refine ⟨hlost', fun d₁ clusters₁ hd₁ hchain₁ ↦ .inl ?_⟩
    obtain rfl := mem_unique hd hd₁
    exact hchain.unique hchain₁ ▸ hchain'
  | @grown k clus t cache cache' hk hlast hslot hclus hfree' hlt' hstore hentry =>
    obtain ⟨hplace, hfull⟩ := growsAtEnd_grown hend hd hchain hsecs hk hlast hslot
    have hnone : fatNext fs.vol (withNode fs dir d v).fat clus = none := by
      rw [hchain'.next hclus]
      exact last_of_full hplace hfull hclus
    have hmem := mem_of_getElem? hclus
    have hlinks : Links fs.vol (withNode fs dir d v).fat (withNode fs dir d v).heads clus t := by
      have hhead : (withChild fs d).clusIdx ∈ (withNode fs dir d v).heads :=
        mem_map_of_mem (mem_of_getElem? hdir)
      exact ⟨⟨d.clusIdx, hhead, clusters, hchain', hmem⟩, hfree', hlt'⟩
    refine ⟨hlost'.link hok' hlinks hnone, fun d₁ clusters₁ hd₁ hchain₁ ↦ .inr ?_⟩
    obtain rfl := mem_unique hd hd₁
    obtain ⟨clusters', -, hlinked, heq⟩ := hok'.isPrefix_linked hlinks hnone hchain'
    rw [heq hmem] at hlinked
    refine ⟨t, { withChild fs d with contentCache := cache' }, hchain.unique hchain₁ ▸ hlinked,
      ?_, ?_⟩
    · rw [Fs.setNode_nodes]
      exact getElem?_set_self (List.getElem?_eq_some_iff.1 hdir).1
    · have hlength : cache'.length = secs.length + 1 := by
        rw [storeEntry_length hentry, storeSlot_length hstore, length_append, length_singleton]
      rw [hchain₁.unique hchain, ← hfull]
      dsimp only
      omega

end Creates

theorem FsEffect.noLost {s : Sys} {a : Act} {fs' : Fs} (h : FsEffect s a fs')
    (hok : s.fs.ChainsOk) (hlost : NoLost s.fs.vol s.fs.fat s.fs.heads)
    (hallowed : GrowsAtEnd s a) : NoLost fs'.vol fs'.fat fs'.heads := by
  cases h with
  | create hcreates | mkdir _ hcreates => exact (hcreates.noLost hok hlost hallowed).1
  | write _ hwrites =>
    obtain ⟨hvol, hheads, happends⟩ := hwrites.appends hok
    rw [hvol, hheads]
    exact happends.noLost hok hlost
  | read _ hv _ =>
    rw [Fs.heads_withCache hv]
    exact hlost
  | openFile | lseek64 => exact hlost

theorem FsReachable.noLost {s₀ s : Sys} (hstart : s₀.fs.ChainsOk)
    (hused : NoLost s₀.fs.vol s₀.fs.fat s₀.fs.heads) (h : FsReachable GrowsAtEnd s₀ s) :
    NoLost s.fs.vol s.fs.fat s.fs.heads := by
  induction h with
  | start hs => exact hs ▸ hused
  | next hreach hstep ih =>
    obtain ⟨a, out, hallowed, hrun⟩ := hstep
    have hok := FsReachable.chainsOk hstart hreach
    exact (a.effect hok hrun).noLost hok ih hallowed

end CapstoneKernel.Fat32
