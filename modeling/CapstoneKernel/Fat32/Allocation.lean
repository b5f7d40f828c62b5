import CapstoneKernel.Fat32.Chain

/-!
# The chains of all files and directories

`ChainsOk` is the invariant of the table: every chain is in range and ends in the mark, and no
cluster is on two of them.  It survives both ways in which the file operations take a free cluster,
for a new chain and behind a cluster of an existing one.  `NoLost` is the other half of a sound
table, that every cluster in use is on a chain.  It survives only if the new cluster is put behind
the last one.
-/

namespace CapstoneKernel.Fat32

open Function List

variable {clusters heads : List UInt32} {c head clus t : UInt32} {vol : Volume}
  {fat fat' : UInt32 → UInt32}

def OnChain (vol : Volume) (fat : UInt32 → UInt32) (head c : UInt32) : Prop :=
  ∃ clusters, FatChain vol fat head clusters ∧ c ∈ clusters

/-- The chains of all files and directories, in a table whose two reserved entries are in use. -/
structure ChainsOk (vol : Volume) (fat : UInt32 → UInt32) (heads : List UInt32) : Prop where
  endOfFile : vol.endOfFile = endMark
  fat_zero : fat 0 ≠ fatEntryFree
  fat_one : fat 1 = endMark
  chain : ∀ head ∈ heads, ∃ clusters, FatChain vol fat head clusters
  disjoint : heads.Pairwise fun h h' ↦ ∀ c, OnChain vol fat h c → ¬OnChain vol fat h' c

/-- Every cluster in use is on the chain of a file or directory. -/
def NoLost (vol : Volume) (fat : UInt32 → UInt32) (heads : List UInt32) : Prop :=
  ∀ c : UInt32, 2 ≤ c.toNat → c.toNat < vol.fatEntries → fat c ≠ fatEntryFree →
    ∃ head ∈ heads, OnChain vol fat head c

/-- The free cluster `t` can be put behind `clus`. -/
structure Links (vol : Volume) (fat : UInt32 → UInt32) (heads : List UInt32) (clus t : UInt32) : Prop where
  onChain : ∃ head ∈ heads, OnChain vol fat head clus
  free : fat t = fatEntryFree
  inRange : t.toNat < vol.fatEntries

namespace ChainsOk

variable (h : ChainsOk vol fat heads)

include h

theorem two_le_of_free (ht : fat t = fatEntryFree) : 2 ≤ t.toNat := by
  by_contra hlt
  obtain hzero | hone : t = 0 ∨ t = 1 := by
    have hcases : t.toNat = (0 : UInt32).toNat ∨ t.toNat = (1 : UInt32).toNat := by
      have h0 : (0 : UInt32).toNat = 0 := rfl
      have h1 : (1 : UInt32).toNat = 1 := rfl
      omega
    exact hcases.imp UInt32.toNat.inj UInt32.toNat.inj
  · exact h.fat_zero (hzero ▸ ht)
  · have hmark : endMark = fatEntryFree := h.fat_one.symm.trans (hone ▸ ht)
    exact absurd hmark (by decide)

theorem notMem_of_free (hchain : FatChain vol fat head clusters)
    (ht : fat t = fatEntryFree) : t ∉ clusters := fun hmem ↦ hchain.ne_free h.endOfFile hmem ht

theorem index_unique {i j : ℕ} {head' : UInt32} (hi : heads[i]? = some head) (hj : heads[j]? = some head')
    (hc : OnChain vol fat head c) (hc' : OnChain vol fat head' c) : i = j := by
  have hpair := pairwise_iff_getElem.1 h.disjoint
  obtain ⟨hilt, rfl⟩ := List.getElem?_eq_some_iff.1 hi
  obtain ⟨hjlt, rfl⟩ := List.getElem?_eq_some_iff.1 hj
  rcases Nat.lt_trichotomy i j with hlt | heq | hgt
  · exact absurd hc' (hpair i j hilt hjlt hlt c hc)
  · exact heq
  · exact absurd hc (hpair j i hjlt hilt hgt c hc')

theorem onChain_claimed_iff (hhead : head ∈ heads) (ht : fat t = fatEntryFree) (c : UInt32) :
    OnChain vol (claimed vol fat t) head c ↔ OnChain vol fat head c := by
  obtain ⟨clusters, hchain⟩ := h.chain head hhead
  have hchain' := hchain.claimed (h.notMem_of_free hchain ht)
  constructor
  · rintro ⟨clusters', hclusters', hmem⟩
    exact ⟨clusters, hchain, hchain'.unique hclusters' ▸ hmem⟩
  · rintro ⟨clusters', hclusters', hmem⟩
    exact ⟨clusters, hchain', hchain.unique hclusters' ▸ hmem⟩

omit h in
theorem fatChain_claimed_self (ht : 2 ≤ t.toNat ∧ t.toNat < vol.fatEntries) :
    FatChain vol (claimed vol fat t) t [t] := by
  refine ⟨⟨rfl, ?_⟩, fun c hc ↦ mem_singleton.1 hc ▸ ht⟩
  rw [fatNext_claimed]
  exact update_self ..

/-- A free cluster becomes a chain of its own. -/
theorem claim (ht : fat t = fatEntryFree) (hlt : t.toNat < vol.fatEntries) :
    ChainsOk vol (claimed vol fat t) (heads ++ [t]) := by
  have htwo := h.two_le_of_free ht
  have hself : FatChain vol (claimed vol fat t) t [t] := fatChain_claimed_self ⟨htwo, hlt⟩
  refine ⟨h.endOfFile, ?_, ?_, fun head hhead ↦ ?_, ?_⟩
  · rw [claimed, update_of_ne (by rintro rfl; exact absurd htwo (by decide))]
    exact h.fat_zero
  · rw [claimed, update_of_ne (by rintro rfl; exact absurd htwo (by decide))]
    exact h.fat_one
  · rcases mem_append.1 hhead with hold | hnew
    · obtain ⟨clusters, hchain⟩ := h.chain head hold
      exact ⟨clusters, hchain.claimed (h.notMem_of_free hchain ht)⟩
    · exact ⟨[t], mem_singleton.1 hnew ▸ hself⟩
  · refine pairwise_append.2 ⟨h.disjoint.imp_of_mem fun hh hh' hdisj c hc hc' ↦ ?_,
      pairwise_singleton .., fun head hhead t' ht' c hc hc' ↦ ?_⟩
    · exact hdisj c ((h.onChain_claimed_iff hh ht c).1 hc) ((h.onChain_claimed_iff hh' ht c).1 hc')
    · obtain rfl := mem_singleton.1 ht'
      obtain ⟨clusters, hchain, hmem⟩ := hc'
      obtain rfl : c = t' := mem_singleton.1 (hchain.unique hself ▸ hmem)
      obtain ⟨clusters', hchain', hmem'⟩ := (h.onChain_claimed_iff hhead ht c).1 hc
      exact h.notMem_of_free hchain' ht hmem'

section

variable (hlinks : Links vol fat heads clus t)
include hlinks

/-- The chain of a vnode after a link: it is cut behind `clus` if it leads through it. -/
theorem fatChain_linked (hchain : FatChain vol fat head clusters) :
    (clus ∉ clusters ∧ FatChain vol (linked vol fat clus t) head clusters) ∨
      ∃ front back, clusters = front ++ clus :: back ∧
        FatChain vol (linked vol fat clus t) head (front ++ [clus, t]) := by
  have ht := h.notMem_of_free hchain hlinks.free
  by_cases hclus : clus ∈ clusters
  · obtain ⟨front, back, rfl⟩ := append_of_mem hclus
    exact .inr ⟨front, back, rfl,
      hchain.linked h.endOfFile ⟨h.two_le_of_free hlinks.free, hlinks.inRange⟩ ht⟩
  · exact .inl ⟨hclus, hchain.linked_of_notMem h.endOfFile hlinks.inRange hclus ht⟩

theorem of_onChain_linked (hhead : head ∈ heads) (hc : OnChain vol (linked vol fat clus t) head c) :
    OnChain vol fat head c ∨ c = t ∧ OnChain vol fat head clus := by
  obtain ⟨clusters, hchain⟩ := h.chain head hhead
  obtain ⟨clusters', hchain', hmem⟩ := hc
  rcases h.fatChain_linked hlinks hchain with ⟨-, hlinked⟩ | ⟨front, back, rfl, hlinked⟩
  · exact .inl ⟨clusters, hchain, hchain'.unique hlinked ▸ hmem⟩
  · rw [hchain'.unique hlinked, mem_append, mem_cons, mem_singleton] at hmem
    rcases hmem with hmem | rfl | rfl
    · exact .inl ⟨_, hchain, mem_append_left _ hmem⟩
    · exact .inl ⟨_, hchain, by simp⟩
    · exact .inr ⟨rfl, _, hchain, by simp⟩

theorem linked_of_lt_two (hc : c.toNat < 2) : linked vol fat clus t c = fat c := by
  have htwo := h.two_le_of_free hlinks.free
  obtain ⟨head, -, clusters, hchain, hmem⟩ := hlinks.onChain
  have hclus := (hchain.inRange clus hmem).1
  have hct : c ≠ t := by
    rintro rfl
    omega
  have hcclus : c ≠ clus := by
    rintro rfl
    omega
  rw [linked, update_of_ne hct, update_of_ne hcclus]

/-- A free cluster is put behind a cluster of a chain. -/
theorem link : ChainsOk vol (linked vol fat clus t) heads := by
  refine ⟨h.endOfFile, ?_, ?_, fun head hhead ↦ ?_, ?_⟩
  · rw [h.linked_of_lt_two hlinks (by decide)]
    exact h.fat_zero
  · rw [h.linked_of_lt_two hlinks (by decide)]
    exact h.fat_one
  · obtain ⟨clusters, hchain⟩ := h.chain head hhead
    rcases h.fatChain_linked hlinks hchain with ⟨-, hlinked⟩ | ⟨front, back, -, hlinked⟩
    · exact ⟨_, hlinked⟩
    · exact ⟨_, hlinked⟩
  · refine h.disjoint.imp_of_mem fun hh hh' hdisj c hc hc' ↦ ?_
    rcases h.of_onChain_linked hlinks hh hc with hold | ⟨rfl, hclus⟩
    · rcases h.of_onChain_linked hlinks hh' hc' with hold' | ⟨rfl, -⟩
      · exact hdisj c hold hold'
      · obtain ⟨clusters, hchain, hmem⟩ := hold
        exact h.notMem_of_free hchain hlinks.free hmem
    · rcases h.of_onChain_linked hlinks hh' hc' with hold' | ⟨-, hclus'⟩
      · obtain ⟨clusters, hchain, hmem⟩ := hold'
        exact h.notMem_of_free hchain hlinks.free hmem
      · exact hdisj clus hclus hclus'

end

/-- A link behind the last cluster leaves all chains as they were, up to the new cluster at the
end. -/
theorem isPrefix_linked (hlinks : Links vol fat heads clus t) (hlast : fatNext vol fat clus = none)
    (hchain : FatChain vol fat head clusters) :
    ∃ clusters', clusters <+: clusters' ∧ FatChain vol (linked vol fat clus t) head clusters' ∧
      (clus ∈ clusters → clusters' = clusters ++ [t]) := by
  rcases h.fatChain_linked hlinks hchain with ⟨hnot, hlinked⟩ | ⟨front, back, rfl, hlinked⟩
  · exact ⟨clusters, prefix_rfl, hlinked, fun hmem ↦ absurd hmem hnot⟩
  · have hnext := hchain.chain.next_suffix
    rw [hlast] at hnext
    cases back with
    | nil => exact ⟨front ++ [clus, t], ⟨[t], by simp⟩, hlinked, fun _ ↦ by simp⟩
    | cons c back => exact absurd hnext.1 nofun

end ChainsOk

/-! ## Clusters in use -/

namespace NoLost

variable (h : NoLost vol fat heads) (hok : ChainsOk vol fat heads)

include h hok

theorem claim (ht : fat t = fatEntryFree) (hlt : t.toNat < vol.fatEntries) :
    NoLost vol (claimed vol fat t) (heads ++ [t]) := by
  intro c htwo hc hfree
  by_cases hct : c = t
  · subst hct
    exact ⟨c, by simp, [c], ChainsOk.fatChain_claimed_self ⟨htwo, hc⟩, by simp⟩
  · rw [claimed, update_of_ne hct] at hfree
    obtain ⟨head, hhead, hon⟩ := h c htwo hc hfree
    exact ⟨head, mem_append_left _ hhead, (hok.onChain_claimed_iff hhead ht c).2 hon⟩

theorem link (hlinks : Links vol fat heads clus t) (hlast : fatNext vol fat clus = none) :
    NoLost vol (linked vol fat clus t) heads := by
  intro c htwo hc hfree
  by_cases hct : c = t
  · obtain ⟨head, hhead, clusters, hchain, hmem⟩ := hlinks.onChain
    obtain ⟨clusters', -, hchain', heq⟩ := hok.isPrefix_linked hlinks hlast hchain
    exact ⟨head, hhead, clusters', hchain', by rw [heq hmem, hct]; simp⟩
  · have hold : ∃ head ∈ heads, OnChain vol fat head c := by
      by_cases hcclus : c = clus
      · exact hcclus ▸ hlinks.onChain
      · rw [linked, update_of_ne hct, update_of_ne hcclus] at hfree
        exact h c htwo hc hfree
    obtain ⟨head, hhead, clusters, hchain, hmem⟩ := hold
    obtain ⟨clusters', hpre, hchain', -⟩ := hok.isPrefix_linked hlinks hlast hchain
    exact ⟨head, hhead, clusters', hchain', hpre.subset hmem⟩

end NoLost

/-! ## Growth at the ends of chains -/

/-- Clusters have been put behind the ends of chains. -/
inductive Appends (vol : Volume) (heads : List UInt32) (fat : UInt32 → UInt32) : (UInt32 → UInt32) → Prop
  | refl : Appends vol heads fat fat
  | link {fat' : UInt32 → UInt32} {clus t : UInt32} : Appends vol heads fat fat' →
      Links vol fat' heads clus t → fatNext vol fat' clus = none → Appends vol heads fat (linked vol fat' clus t)

namespace Appends

section

variable (h : Appends vol heads fat fat')
include h

theorem trans {fat'' : UInt32 → UInt32} (h' : Appends vol heads fat' fat'') :
    Appends vol heads fat fat'' := by
  induction h' with
  | refl => exact h
  | link _ hlinks hlast ih => exact ih.link hlinks hlast

theorem chainsOk (hok : ChainsOk vol fat heads) : ChainsOk vol fat' heads := by
  induction h with
  | refl => exact hok
  | link _ hlinks _ ih => exact ih.link hlinks

theorem noLost (hok : ChainsOk vol fat heads) (hlost : NoLost vol fat heads) :
    NoLost vol fat' heads := by
  induction h with
  | refl => exact hlost
  | link happends hlinks hlast ih => exact ih.link (happends.chainsOk hok) hlinks hlast

theorem isPrefix (hok : ChainsOk vol fat heads) (hchain : FatChain vol fat head clusters) :
    ∃ clusters', clusters <+: clusters' ∧ FatChain vol fat' head clusters' := by
  induction h with
  | refl => exact ⟨clusters, prefix_rfl, hchain⟩
  | link happends hlinks hlast ih =>
    obtain ⟨clusters', hpre, hchain'⟩ := ih
    obtain ⟨clusters'', hpre', hchain'', -⟩ :=
      (happends.chainsOk hok).isPrefix_linked hlinks hlast hchain'
    exact ⟨clusters'', hpre.trans hpre', hchain''⟩

end

end Appends

/-! ## Free clusters -/

/-- The free entries of the table. -/
def freeClusters (vol : Volume) (fat : UInt32 → UInt32) : Finset ℕ :=
  (Finset.range vol.fatEntries).filter fun i ↦ fat (UInt32.ofNat i) = fatEntryFree

theorem mem_freeClusters {i : ℕ} :
    i ∈ freeClusters vol fat ↔ i < vol.fatEntries ∧ fat (UInt32.ofNat i) = fatEntryFree := by
  rw [freeClusters, Finset.mem_filter, Finset.mem_range]

theorem toNat_ofNat_of_lt_fatEntries {i : ℕ} (h : i < vol.fatEntries) : (UInt32.ofNat i).toNat = i :=
  UInt32.toNat_ofNat_of_lt' (Nat.lt_trans (Nat.lt_trans h vol.fatEntries_lt) (by decide))

theorem set_ne_free (htwo : 2 ≤ t.toNat) (ht : t.toNat < vol.fatEntries) (e : UInt32) :
    e &&& ~~~fatValMask ||| t ≠ fatEntryFree := by
  intro hfree
  have hmask := set_and_mask e t
  have hlt := vol.fatEntries_lt
  rw [hfree, and_mask_of_lt (t := t) (by omega)] at hmask
  have hzero : (fatEntryFree &&& fatValMask).toNat = 0 := by decide
  rw [hmask] at hzero
  omega

theorem freeClusters_linked (hclus : fat clus ≠ fatEntryFree) (htwo : 2 ≤ t.toNat)
    (ht : t.toNat < vol.fatEntries) (hend : vol.endOfFile = endMark) :
    freeClusters vol (linked vol fat clus t) = (freeClusters vol fat).erase t.toNat := by
  ext i
  rw [Finset.mem_erase, mem_freeClusters, mem_freeClusters]
  by_cases hi : i < vol.fatEntries
  · have hto := toNat_ofNat_of_lt_fatEntries hi
    by_cases hit : UInt32.ofNat i = t
    · have hsame : i = t.toNat := by rw [← hit, hto]
      rw [hit, linked, update_self, hend]
      exact ⟨fun h ↦ absurd h.2 (by decide), fun h ↦ absurd hsame h.1⟩
    · have hne : i ≠ t.toNat := fun heq ↦ hit (UInt32.toNat.inj (hto.trans heq))
      by_cases hic : UInt32.ofNat i = clus
      · rw [hic, linked, update_of_ne (hic ▸ hit), update_self]
        exact ⟨fun h ↦ absurd h.2 (set_ne_free htwo ht _), fun h ↦ absurd h.2.2 hclus⟩
      · rw [linked, update_of_ne hit, update_of_ne hic]
        exact ⟨fun h ↦ ⟨hne, h⟩, fun h ↦ h.2⟩
  · exact ⟨fun h ↦ absurd h.1 hi, fun h ↦ absurd h.2.1 hi⟩

theorem card_freeClusters_linked (hclus : fat clus ≠ fatEntryFree) (hfree : fat t = fatEntryFree) (htwo : 2 ≤ t.toNat)
    (ht : t.toNat < vol.fatEntries) (hend : vol.endOfFile = endMark) :
    (freeClusters vol (linked vol fat clus t)).card + 1 = (freeClusters vol fat).card := by
  rw [freeClusters_linked hclus htwo ht hend]
  refine Finset.card_erase_add_one (mem_freeClusters.2 ⟨ht, ?_⟩)
  rw [UInt32.ofNat_toNat]
  exact hfree

end CapstoneKernel.Fat32
