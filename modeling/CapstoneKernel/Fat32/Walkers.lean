import CapstoneKernel.Fat32.Loading
import CapstoneKernel.Fat32.Writing

/-!
# The walks along cluster chains

Four loops follow the entries of the table: `load_content` and `fat32_write` test for the mark of
the volume, with and without a mask, and `fat32_parse_sd_recursive` and `sync_file_recursive` go on
as long as they need clusters, the latter without a mask.  They visit the same clusters only on
volumes with one mark and without reserved bits.
-/

namespace CapstoneKernel.Fat32

open LinkedChain Execution List

/-- The entries from this one on end a chain. -/
def firstEndMark : UInt32 := 0x0ffffff8

/-- The cluster behind the given one, by the definition of FAT32. -/
def chainNext (fat : UInt32 → UInt32) (clus : UInt32) : Option UInt32 :=
  if firstEndMark ≤ fat clus &&& fatValMask then none else some (fat clus &&& fatValMask)

/-- A valid chain.  Neither the reserved bits nor the mark of the volume matter for it. -/
abbrev ValidChain (vol : Volume) (fat : UInt32 → UInt32) : UInt32 → List UInt32 → Prop :=
  ClusterChain vol (chainNext fat)

/-! ## The cursors

`fatNext` is the one of `load_content`. -/

/-- `clus_idx = get_fat_entry(clus_idx) & FAT_VAL_MASK` in `fat32_parse_sd_recursive`, which has no
test. -/
def parseNext (fat : UInt32 → UInt32) (clus : UInt32) : Option UInt32 := some (fat clus &&& fatValMask)

/-- The cursor of `fat32_write`, which takes a new cluster at the end. -/
def writeNext (vol : Volume) (fat : UInt32 → UInt32) (clus : UInt32) : Option UInt32 :=
  if fat clus &&& fatValMask = vol.endOfFile then none else some (fat clus &&& fatValMask)

/-- `clus_idx = fat32_data.fat_cache[clus_idx]` in `sync_file_recursive`. -/
def syncNext (fat : UInt32 → UInt32) (clus : UInt32) : Option UInt32 := some (fat clus)

/-! ## The loops -/

section Loops

variable {fs : Fs} {clus : UInt32} {fuel k : ℕ} {secs left : List Sector} {disk disk' : UInt32 → Sector}

/-- `load_content` reads the sectors of the clusters that its cursor visits. -/
theorem loadClusters_visits (h : loadClusters fs none fuel clus k = .ok secs) :
    secs = chainSectors fs.vol fs.disk (visits (fatNext fs.vol fs.fat) fuel (some clus)) := by
  induction fuel generalizing clus k secs with
  | zero => cases h
  | succ fuel ih =>
    have hsecs : loadCluster fs none clus fs.vol.secPerClus 0 k =
        (clusterSectors fs.vol fs.disk clus, false) := by
      rw [loadCluster_none, clusterSectors, range_eq_range']
    rw [loadClusters, hsecs] at h
    obtain ⟨entry, hentry, h⟩ := of_bind_eq_ok h
    obtain ⟨-, rfl⟩ := getFatEntry_eq_ok hentry
    rw [visits, fatNext, chainSectors, flatMap_cons]
    split at h
    · next hmark =>
      cases h
      rw [if_pos hmark]
      cases fuel <;> simp [visits]
    · next hmark =>
      obtain ⟨rest, hrest, h⟩ := of_bind_eq_ok h
      cases h
      rw [if_neg hmark, ih hrest, chainSectors]

theorem nextClus_of_some {c : UInt32} (hlt : clus.toNat < fs.vol.fatEntries)
    (hnext : writeNext fs.vol fs.fat clus = some c) : nextClus fs clus = .ok (c, fs) := by
  rw [nextClus, getFatEntry_eq hlt, ok_bind]
  unfold writeNext at hnext
  split at hnext
  · cases hnext
  · next hmark =>
    cases hnext
    exact if_neg hmark

/-- The cursor of `fat32_write` stays on the clusters that it visits, and nothing is added as long
as none of them is the last one. -/
theorem writeLoop_visits {w w' : WriteState} {cur : ℕ} {buf : List UInt8}
    (hlong : ∀ c ∈ visits (writeNext w.fs.vol w.fs.fat) fuel (some w.clusIdx),
      c.toNat < w.fs.vol.fatEntries ∧ (writeNext w.fs.vol w.fs.fat c).isSome)
    (h : writeLoop fuel w cur buf = .ok w') : w'.fs = w.fs ∧
      w'.clusIdx ∈ visits (writeNext w.fs.vol w.fs.fat) (fuel + 1) (some w.clusIdx) := by
  induction fuel generalizing w cur buf with
  | zero =>
    cases buf with
    | nil =>
      cases h
      exact ⟨rfl, mem_cons_self⟩
    | cons c buf => cases h
  | succ fuel ih =>
    cases buf with
    | nil =>
      cases h
      exact ⟨rfl, mem_cons_self⟩
    | cons c buf =>
      obtain ⟨⟨rest, w₁⟩, hround, h⟩ := of_bind_eq_ok h
      obtain ⟨sec, sec', clus, fs, -, -, hadvance, -, rfl⟩ := writeRound_eq_ok hround
      unfold advanceClus at hadvance
      split at hadvance
      · obtain ⟨hlt, hsome⟩ := hlong w.clusIdx mem_cons_self
        obtain ⟨next, hnext⟩ := Option.isSome_iff_exists.1 hsome
        rw [nextClus_of_some hlt hnext] at hadvance
        cases hadvance
        rw [visits, hnext] at hlong ⊢
        refine (ih ?_ h).imp_right fun hmem ↦ mem_cons_of_mem _ hmem
        exact fun c hc ↦ hlong c (mem_cons_of_mem _ hc)
      · cases hadvance
        refine (ih ?_ h).imp_right fun hmem ↦ visits_subset_succ _ _ _ hmem
        exact fun c hc ↦ hlong c (visits_subset_succ _ _ _ hc)

/-- `sync_file_recursive` writes to blocks of the clusters that its cursor visits. -/
theorem syncSectors_visits {fileSize : ℕ} {b : UInt32}
    (h : syncSectors fs fileSize secs clus k disk = .ok (left, disk')) (hb : disk' b ≠ disk b) :
    ∃ c ∈ visits (syncNext fs.fat) secs.length (some clus), ∃ i, b = fs.vol.block c i := by
  induction secs generalizing clus k disk with
  | nil =>
    cases h
    exact absurd rfl hb
  | cons sec secs ih =>
    by_cases hhead : b = fs.vol.block clus k
    · exact ⟨clus, mem_cons_self, k, hhead⟩
    · rw [← Function.update_of_ne hhead sec disk] at hb
      obtain ⟨clus', hclus, h⟩ := of_bind_eq_ok h
      split at h
      · cases h
        exact absurd rfl hb
      · obtain ⟨c, hc, hblock⟩ := ih h hb
        refine ⟨c, ?_, hblock⟩
        unfold syncClus at hclus
        split at hclus
        · obtain ⟨-, rfl⟩ := getFatEntry_eq_ok hclus
          exact mem_cons_of_mem _ hc
        · cases hclus
          exact visits_subset_succ _ _ _ hc

end Loops

/-! ## Agreement -/

section Agreement

variable {vol : Volume} {fat : UInt32 → UInt32} {head last c : UInt32} {front : List UInt32}

theorem ite_none_some_eq_none {p : Prop} [Decidable p] {α : Type} {x : α} :
    (if p then none else some x) = none ↔ p := by
  split
  · next hp => exact iff_of_true rfl hp
  · next hp => exact iff_of_false nofun hp

theorem not_endMark_of_isSome (h : (chainNext fat c).isSome) : ¬firstEndMark ≤ fat c &&& fatValMask := by
  intro hle
  rw [chainNext, if_pos hle] at h
  exact Bool.false_ne_true h

/-- `load_content` and `fat32_write` end with the chain. -/
theorem ValidChain.ends_iff (h : ValidChain vol fat head (front ++ [last])) :
    Chain (fatNext vol fat) (some head) (front ++ [last]) ∧ Chain (writeNext vol fat) (some head) (front ++ [last]) ↔
      fat last = vol.endOfFile ∧ fat last &&& fatValMask = fat last := by
  obtain ⟨hlast, hfront⟩ := h.chain.next_concat
  rw [h.chain.congr_iff, h.chain.congr_iff]
  constructor
  · rintro ⟨hload, hwrite⟩
    have heof : fat last = vol.endOfFile :=
      ite_none_some_eq_none.1 ((hload last (by simp)).trans hlast)
    have hmasked : fat last &&& fatValMask = vol.endOfFile :=
      ite_none_some_eq_none.1 ((hwrite last (by simp)).trans hlast)
    exact ⟨heof, hmasked.trans heof.symm⟩
  · rintro ⟨heof, hmask⟩
    have hmark : firstEndMark ≤ vol.endOfFile := by
      rw [← heof, ← hmask]
      exact ite_none_some_eq_none.1 hlast
    have hmark' : firstEndMark ≤ vol.endOfFile &&& fatValMask := by
      rwa [← heof, hmask, heof]
    refine ⟨fun c hc ↦ ?_, fun c hc ↦ ?_⟩
    · rcases mem_append.1 hc with hc | hc
      · have hnot := not_endMark_of_isSome (hfront c hc)
        have hne : fat c ≠ vol.endOfFile := by
          intro heq
          rw [heq] at hnot
          exact hnot hmark'
        rw [fatNext, if_neg hne, chainNext, if_neg hnot]
      · rw [mem_singleton.1 hc, hlast, fatNext, if_pos heof]
    · rcases mem_append.1 hc with hc | hc
      · have hnot := not_endMark_of_isSome (hfront c hc)
        have hne : fat c &&& fatValMask ≠ vol.endOfFile := by
          intro heq
          rw [heq] at hnot
          exact hnot hmark
        rw [writeNext, if_neg hne, chainNext, if_neg hnot]
      · rw [mem_singleton.1 hc, hlast, writeNext, if_pos (hmask.trans heof)]

/-- A walk without a test visits the first clusters, as far as it follows the chain. -/
theorem ValidChain.visits_iff (h : ValidChain vol fat head (front ++ [last])) (succ : UInt32 → UInt32) (m : ℕ) :
    visits (fun c ↦ some (succ c)) (m + 1) (some head) = (front ++ [last]).take (m + 1) ↔
      m ≤ front.length ∧ ∀ c ∈ front.take m, succ c = fat c &&& fatValMask := by
  obtain ⟨-, hfront⟩ := h.chain.next_concat
  have hchain := h.chain
  obtain ⟨back, hback⟩ : ∃ back, front ++ [last] = head :: back := by
    cases hlist : front ++ [last] with
    | nil => exact absurd hlist (by simp)
    | cons c back =>
      rw [hlist] at hchain
      exact ⟨back, by rw [Option.some.inj hchain.1]⟩
  have hlength : back.length = front.length := by
    have hcount := congrArg List.length hback
    rw [length_append, length_cons] at hcount
    exact (Nat.succ.inj hcount).symm
  rw [hback] at hchain ⊢
  rw [hchain.visits_of_some_iff, hlength, ← hback]
  refine and_congr_right fun hm ↦ ?_
  rw [take_append_of_le_length hm]
  refine forall₂_congr fun c hc ↦ ?_
  rw [chainNext, if_neg (not_endMark_of_isSome (hfront c (mem_of_mem_take hc))), Option.some_inj]

end Agreement

/-- On a valid chain `load_content` and the cursor of `fat32_write` visit the clusters of the chain
and find its end, and `fat32_parse_sd_recursive` and `sync_file_recursive` visit the first clusters
of the chain, as many as they have entries or sectors for, exactly if these are not more than there
are, the last entry is the mark of the volume, without reserved bits, and the entries that are
passed have no reserved bits. -/
theorem walkers_agree_iff {vol : Volume} {fat : UInt32 → UInt32} {head last : UInt32} {front : List UInt32}
    (h : ValidChain vol fat head (front ++ [last])) (m : ℕ) :
    ((∀ n, visits (fatNext vol fat) n (some head) = (front ++ [last]).take n) ∧
      (∀ n, visits (writeNext vol fat) n (some head) = (front ++ [last]).take n) ∧
      visits (parseNext fat) (m + 1) (some head) = (front ++ [last]).take (m + 1) ∧
      visits (syncNext fat) (m + 1) (some head) = (front ++ [last]).take (m + 1)) ↔
    (fat last = vol.endOfFile ∧ fat last &&& fatValMask = fat last) ∧
      m ≤ front.length ∧ ∀ c ∈ front.take m, fat c &&& fatValMask = fat c := by
  have hparse := h.visits_iff (fun c ↦ fat c &&& fatValMask) m
  have hsync := h.visits_iff fat m
  rw [visits_eq_take_iff, visits_eq_take_iff, ← and_assoc, h.ends_iff]
  refine and_congr_right fun _ ↦ ?_
  change visits (fun c ↦ some (fat c &&& fatValMask)) _ _ = _ ∧
    visits (fun c ↦ some (fat c)) _ _ = _ ↔ _
  rw [hparse, hsync]
  constructor
  · rintro ⟨-, hm, hall⟩
    exact ⟨hm, fun c hc ↦ (hall c hc).symm⟩
  · rintro ⟨hm, hall⟩
    exact ⟨⟨hm, fun _ _ ↦ rfl⟩, hm, fun c hc ↦ (hall c hc).symm⟩

/-- A volume with one mark. -/
theorem walkers_agree_iff_marked :
    ValidChain smallVolume (tableOf [firstEndMark, endMark, 4, endMark, 3]) 2 [2, 4, 3] ∧
      ∀ n, visits (fatNext smallVolume (tableOf [firstEndMark, endMark, 4, endMark, 3])) n (some 2) = [2, 4, 3].take n := by
  have hvalid : ValidChain smallVolume (tableOf [firstEndMark, endMark, 4, endMark, 3]) 2
    ([2, 4] ++ [3]) := by
    decide +kernel
  have hpassed : ∀ c ∈ [2, 4], tableOf [firstEndMark, endMark, 4, endMark, 3] c &&& fatValMask =
      tableOf [firstEndMark, endMark, 4, endMark, 3] c :=
    forall_mem_cons.2 ⟨by decide +kernel, forall_mem_singleton.2 (by decide +kernel)⟩
  exact ⟨hvalid, ((walkers_agree_iff hvalid 2).2 ⟨by decide +kernel, by decide, hpassed⟩).1⟩

/-- With another end mark than that of the volume `load_content` goes on behind the last cluster. -/
theorem load_passes_end : ∃ (vol : Volume) (fat : UInt32 → UInt32) (head : UInt32) (clusters : List UInt32),
    ValidChain vol fat head clusters ∧ ∃ n, visits (fatNext vol fat) n (some head) ≠ clusters.take n :=
  ⟨smallVolume, tableOf [firstEndMark, endMark, firstEndMark], 2, [2], by decide +kernel, 2,
    by decide +kernel⟩

end CapstoneKernel.Fat32
