import CapstoneKernel.Fat32.Operations
import CapstoneKernel.Lib.LinkedChain

/-!
# Cluster chains

The entries of the table link the clusters of a file or directory to a chain that ends in the mark
of the volume.  All allocation goes through a free entry, which becomes a chain of its own or takes
the place of what follows a cluster of an existing chain.
-/

namespace CapstoneKernel.Fat32

open LinkedChain Execution Function List

/-- The mark that volumes are formatted with. -/
def endMark : UInt32 := 0x0fffffff

section Bits

theorem and_mask_of_lt {t : UInt32} (h : t.toNat < 0x0fffffff) : t &&& fatValMask = t := by
  apply UInt32.toNat.inj
  have hmask : fatValMask.toNat = 2 ^ 28 - 1 := rfl
  rw [UInt32.toNat_and, hmask, Nat.and_two_pow_sub_one_eq_mod]
  exact Nat.mod_eq_of_lt (by omega)

/-- `set_fat_entry` stores the value under the mask. -/
theorem set_and_mask (e t : UInt32) :
    (e &&& ~~~fatValMask ||| t) &&& fatValMask = t &&& fatValMask := by
  apply UInt32.toBitVec_inj.1
  refine BitVec.eq_of_getLsbD_eq fun i hi ↦ ?_
  simp only [UInt32.toBitVec_and, UInt32.toBitVec_or, UInt32.toBitVec_not, BitVec.getLsbD_and,
    BitVec.getLsbD_or, BitVec.getLsbD_not, hi, decide_true, Bool.true_and]
  cases fatValMask.toBitVec.getLsbD i <;> simp

theorem set_free (t : UInt32) : fatEntryFree &&& ~~~fatValMask ||| t = t := by
  rw [fatEntryFree, UInt32.zero_and, UInt32.zero_or]

end Bits

/-- The cluster behind the given one, as `load_content` sees it. -/
def fatNext (vol : Volume) (fat : UInt32 → UInt32) (clus : UInt32) : Option UInt32 :=
  if fat clus = vol.endOfFile then none else some (fat clus &&& fatValMask)

/-- The clusters from the given one on, up to one that `next` does not go on from.  A chain that ends
is acyclic. -/
structure ClusterChain (vol : Volume) (next : UInt32 → Option UInt32) (head : UInt32)
    (clusters : List UInt32) : Prop where
  chain : Chain next (some head) clusters
  inRange : ∀ c ∈ clusters, 2 ≤ c.toNat ∧ c.toNat < vol.fatEntries

instance (vol : Volume) (next : UInt32 → Option UInt32) (head : UInt32) (clusters : List UInt32) :
    Decidable (ClusterChain vol next head clusters) :=
  decidable_of_iff (Chain next (some head) clusters ∧
    clusters.all (fun c ↦ decide (2 ≤ c.toNat ∧ c.toNat < vol.fatEntries)) = true)
    ⟨fun h ↦ ⟨h.1, fun c hc ↦ of_decide_eq_true (all_eq_true.1 h.2 c hc)⟩,
      fun h ↦ ⟨h.1, all_eq_true.2 fun c hc ↦ decide_eq_true (h.2 c hc)⟩⟩

/-- A chain as `load_content` sees it, up to the mark of the volume. -/
abbrev FatChain (vol : Volume) (fat : UInt32 → UInt32) : UInt32 → List UInt32 → Prop :=
  ClusterChain vol (fatNext vol fat)

/-- The table after a free cluster has been taken for a chain of its own. -/
def claimed (vol : Volume) (fat : UInt32 → UInt32) (t : UInt32) : UInt32 → UInt32 :=
  update fat t vol.endOfFile

/-- The table after a free cluster has been put behind another one. -/
def linked (vol : Volume) (fat : UInt32 → UInt32) (clus t : UInt32) : UInt32 → UInt32 :=
  update (update fat clus (fat clus &&& ~~~fatValMask ||| t)) t vol.endOfFile

/-! ## The functions of the source -/

section Entries

variable {fs fs' : Fs} {clus t : UInt32}

theorem setFatEntry_eq_ok {val : UInt32} (h : setFatEntry fs clus val = .ok fs') :
    clus.toNat < fs.vol.fatEntries ∧
      fs' = { fs with fat := update fs.fat clus (fs.fat clus &&& ~~~fatValMask ||| val) } := by
  unfold setFatEntry at h
  split at h
  · next hlt => exact ⟨hlt, (Except.ok.inj h).symm⟩
  · cases h

theorem getFatEntry_eq_ok {entry : UInt32} (h : getFatEntry fs clus = .ok entry) :
    clus.toNat < fs.vol.fatEntries ∧ entry = fs.fat clus := by
  unfold getFatEntry at h
  split at h
  · next hlt => exact ⟨hlt, (Except.ok.inj h).symm⟩
  · cases h

/-- Without a free entry `get_free_clus_idx` returns a number that is out of range. -/
theorem fat_getFreeClusIdx (h : (getFreeClusIdx fs).toNat < fs.vol.fatEntries) :
    fs.fat (getFreeClusIdx fs) = fatEntryFree := by
  have hlt := fs.vol.fatEntries_lt
  unfold getFreeClusIdx at h ⊢
  split at h
  · next i hi =>
    have hfree := find?_some hi
    exact of_decide_eq_true hfree
  · have hmax : (~~~(0 : UInt32)).toNat = 2 ^ 32 - 1 := by decide
    omega

theorem linkFreeClus_eq_ok (h : linkFreeClus fs clus = .ok (t, fs')) :
    clus.toNat < fs.vol.fatEntries ∧ (fs.fat clus ≠ fatEntryFree →
      t.toNat < fs.vol.fatEntries ∧ fs.fat t = fatEntryFree ∧
        fs' = { fs with fat := linked fs.vol fs.fat clus t }) := by
  obtain ⟨fs₁, hset, h⟩ := of_bind_eq_ok h
  obtain ⟨fs₂, hset', h⟩ := of_bind_eq_ok h
  obtain ⟨hlt, rfl⟩ := setFatEntry_eq_ok hset
  obtain ⟨hlt', rfl⟩ := setFatEntry_eq_ok hset'
  cases h
  have hfree := fat_getFreeClusIdx hlt'
  refine ⟨hlt, fun hclus ↦ ⟨hlt', hfree, ?_⟩⟩
  have hne : getFreeClusIdx fs ≠ clus := by
    intro heq
    rw [heq] at hfree
    exact hclus hfree
  dsimp only
  rw [update_of_ne hne, hfree, set_free]
  rfl

end Entries

/-! ## Chains in a changed table -/

section Table

variable {vol : Volume} {fat : UInt32 → UInt32} {head clus t : UInt32} {clusters : List UInt32}

theorem fatNext_update (clus e : UInt32) :
    fatNext vol (update fat clus e) = update (fatNext vol fat) clus
      (if e = vol.endOfFile then none else some (e &&& fatValMask)) := by
  funext c
  by_cases hc : c = clus
  · subst hc
    simp [fatNext]
  · simp [fatNext, hc]

theorem fatNext_claimed (t : UInt32) :
    fatNext vol (claimed vol fat t) = update (fatNext vol fat) t none := by
  rw [claimed, fatNext_update, if_pos rfl]

theorem fatNext_linked (hend : vol.endOfFile = endMark) (ht : t.toNat < vol.fatEntries) :
    fatNext vol (linked vol fat clus t) =
      update (update (fatNext vol fat) clus (some t)) t none := by
  have hlt := vol.fatEntries_lt
  have hand : (fat clus &&& ~~~fatValMask ||| t) &&& fatValMask = t := by
    rw [set_and_mask, and_mask_of_lt (by omega)]
  have hne : fat clus &&& ~~~fatValMask ||| t ≠ vol.endOfFile := by
    intro heq
    rw [heq, hend] at hand
    have hmark : (endMark &&& fatValMask).toNat = 0x0fffffff := by decide
    rw [hand] at hmark
    omega
  rw [linked, fatNext_update, if_pos rfl, fatNext_update, if_neg hne, hand]

section

variable (h : FatChain vol fat head clusters)
include h

theorem FatChain.unique {clusters' : List UInt32} (h' : FatChain vol fat head clusters') :
    clusters = clusters' := h.chain.unique h'.chain

theorem FatChain.getElem?_zero : clusters[0]? = some head := by
  cases clusters with
  | nil => exact absurd h.chain nofun
  | cons c rest => exact h.chain.1.symm

theorem FatChain.next {i : ℕ} (hi : clusters[i]? = some clus) :
    fatNext vol fat clus = clusters[i + 1]? := by
  have hlt : i < clusters.length := (List.getElem?_eq_some_iff.1 hi).1
  have hsplit : clusters = clusters.take i ++ clus :: clusters.drop (i + 1) := by
    rw [← (List.getElem?_eq_some_iff.1 hi).2, ← drop_eq_getElem_cons hlt, take_append_drop]
  have hchain : Chain (fatNext vol fat) (fatNext vol fat clus) (clusters.drop (i + 1)) := by
    have hall := h.chain
    rw [hsplit] at hall
    exact hall.next_suffix
  have hget : clusters[i + 1]? = (clusters.drop (i + 1))[0]? :=
    by rw [getElem?_drop, Nat.add_zero]
  rw [hget]
  cases hdrop : clusters.drop (i + 1) with
  | nil =>
    rw [hdrop] at hchain
    exact hchain
  | cons d rest =>
    rw [hdrop] at hchain
    exact hchain.1

theorem FatChain.last : clusters.getLast?.map fat = some vol.endOfFile := by
  obtain ⟨last, hlast⟩ : ∃ last, clusters.getLast? = some last := by
    cases clusters with
    | nil => exact absurd h.chain nofun
    | cons c rest => exact ⟨_, getLast?_eq_some_getLast (cons_ne_nil c rest)⟩
  have hget : clusters[clusters.length - 1]? = some last :=
    by rw [← hlast, getLast?_eq_getElem?]
  have hnext := h.next hget
  rw [getElem?_eq_none (by omega), fatNext] at hnext
  split at hnext
  · next heq => rw [hlast, Option.map_some, heq]
  · cases hnext

theorem FatChain.ne_free (hend : vol.endOfFile = endMark) (hclus : clus ∈ clusters) :
    fat clus ≠ fatEntryFree := by
  intro hfree
  obtain ⟨i, hi⟩ := getElem?_of_mem hclus
  have hnext : fatNext vol fat clus = some 0 := by
    rw [fatNext, hfree, hend]
    decide
  have hzero : (0 : UInt32) ∈ clusters := mem_of_getElem? ((h.next hi).symm.trans hnext)
  exact absurd (h.inRange 0 hzero).1 (by decide)

/-- The test of `fat32_write` finds the last cluster of a chain. -/
theorem FatChain.and_mask_eq_iff (hend : vol.endOfFile = endMark) {i : ℕ}
    (hi : clusters[i]? = some clus) :
    fat clus &&& fatValMask = vol.endOfFile ↔ clusters[i + 1]? = none := by
  rw [← h.next hi]
  unfold fatNext
  split
  · next heq =>
    rw [heq, hend]
    decide
  · next hne =>
    refine ⟨fun heq ↦ ?_, nofun⟩
    have hnext : fatNext vol fat clus = some endMark := by rw [fatNext, if_neg hne, heq, hend]
    have hmem : endMark ∈ clusters := mem_of_getElem? ((h.next hi).symm.trans hnext)
    have hlt := (h.inRange _ hmem).2
    have hmark : endMark.toNat = 0x0fffffff := by decide
    have hentries := vol.fatEntries_lt
    omega

theorem FatChain.claimed (ht : t ∉ clusters) : FatChain vol (claimed vol fat t) head clusters := by
  refine ⟨?_, h.inRange⟩
  rw [fatNext_claimed]
  exact h.chain.update ht none

theorem FatChain.linked_of_notMem (hend : vol.endOfFile = endMark) (ht : t.toNat < vol.fatEntries)
    (hclus : clus ∉ clusters) (htmem : t ∉ clusters) :
    FatChain vol (linked vol fat clus t) head clusters := by
  refine ⟨?_, h.inRange⟩
  rw [fatNext_linked hend ht]
  exact (h.chain.update hclus (some t)).update htmem none

end

theorem FatChain.linked {front back : List UInt32} (h : FatChain vol fat head (front ++ clus :: back))
    (hend : vol.endOfFile = endMark) (ht : 2 ≤ t.toNat ∧ t.toNat < vol.fatEntries)
    (htmem : t ∉ front ++ clus :: back) : FatChain vol (linked vol fat clus t) head (front ++ [clus, t]) := by
  refine ⟨?_, fun c hc ↦ ?_⟩
  · rw [fatNext_linked hend ht.2]
    exact h.chain.relink htmem
  · rw [mem_append, mem_cons, mem_singleton] at hc
    rcases hc with hc | rfl | rfl
    · exact h.inRange c (mem_append_left _ hc)
    · exact h.inRange c (by simp)
    · exact ht

end Table

/-! ## A small volume -/

/-- One sector of table and one sector a cluster. -/
def smallVolume : Volume where
  startBlkIdx := 0
  endOfFile := endMark
  secPerClus := 1
  rsvdSecCnt := 1
  numFATs := 1
  fatSz32 := 1
  rootClus := 2
  secPerClus_pos := by decide
  secPerClus_lt := by decide
  fatSz32_lt := by decide

/-- The table with the given entries, and free ones behind them. -/
def tableOf (entries : List UInt32) (c : UInt32) : UInt32 := entries.getD c.toNat fatEntryFree

end CapstoneKernel.Fat32
