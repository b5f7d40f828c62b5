import CapstoneKernel.Fat32.Entries
import CapstoneKernel.Fat32.Mounting
import CapstoneKernel.Fat32.PlainFile

/-!
# The entry that a write updates

`get_dir_entry` knows the entry of a file by its first cluster alone, and `fat32_write` stores the
size of the file in the entry that has been found.  Labels, deleted entries and empty files have
clusters as well.
-/

namespace CapstoneKernel.Fat32

open Execution List

/-- The file has the entry at position `k` of its directory: the parser has made it from the entry,
or the entry has been registered for it. -/
inductive OwnsEntry (slots : List (List UInt8)) (k : ℕ) (v : Vnode) : Prop
  | parsed {parent : ℕ} {lfn d : List UInt8} {fs : Fs} {u : Vnode} (hd : slots[k]? = some d)
      (hparse : ∀ recurse, parseSlot recurse parent fs lfn d = .ok (fs.addParsed parent u, []))
      (hclus : v.clusIdx = u.clusIdx) : OwnsEntry slots k v
  | registered {d : List UInt8} {u : Vnode} (hlen : d.length = entrySz) (hname : ShortFits u.name)
      (hd : slots[k]? = some (newEntry d u)) (hclus : v.clusIdx = u.clusIdx) : OwnsEntry slots k v

/-- The size of vnode `i` has been stored in the entry at position `k`, and no other entry of its
directory has changed. -/
def StoresSize (slots : List (List UInt8)) (k i parent : ℕ) (fs' : Fs) : Prop :=
  ∃ d v' p', slots[k]? = some d ∧ fs'.nodes[i]? = some v' ∧ fs'.nodes[parent]? = some p' ∧
    dirSlots p'.contentCache = slots.set k (withSize d (UInt32.ofNat v'.fileSize))

section Entry

variable {fs fs' : Fs} {parent i k : ℕ} {lfn d : List UInt8} {u v p : Vnode}
  {slots : List (List UInt8)} {psecs : List Sector}

theorem Fs.addParsed_ne (fs : Fs) (parent : ℕ) (u : Vnode) : fs ≠ fs.addParsed parent u := by
  intro h
  have hlen := congrArg (fun fs ↦ fs.nodes.length) h
  simp [Fs.addParsed] at hlen

theorem isEntryOf_of_parseSlot
    (h : ∀ recurse, parseSlot recurse parent fs lfn d = .ok (fs.addParsed parent u, [])) :
    isEntryOf u.clusIdx d = true := by
  have hparse := h fun _ _ _ ↦ .error .diverges
  have hsame {lfn' : List UInt8} :
      (Except.ok (fs, lfn') : Except Fault _) ≠ .ok (fs.addParsed parent u, []) :=
    fun heq ↦ fs.addParsed_ne parent u (Prod.mk.inj (Except.ok.inj heq)).1
  unfold parseSlot at hparse
  split at hparse
  · exact absurd hparse hsame
  · split at hparse
    · exact absurd hparse hsame
    · split at hparse
      · obtain ⟨lfn', -, heq⟩ := map_eq_ok hparse
        exact absurd (congrArg Except.ok heq) hsame
      · next hlong =>
        obtain ⟨fs₁, hshort, heq⟩ := map_eq_ok hparse
        obtain rfl : fs₁ = fs.addParsed parent u := (Prod.mk.inj heq).1
        unfold parseShort at hshort
        dsimp only at hshort
        split at hshort
        · cases hshort
        · have hnodes := congrArg (fun fs ↦ fs.nodes.getLast?) (Except.ok.inj hshort)
          simp only [Fs.addParsed, getLast?_concat] at hnodes
          rw [← Option.some.inj hnodes, isEntryOf, Bool.and_eq_true]
          refine ⟨bne_iff_ne.2 fun hattr ↦ hlong (by rw [hattr]; decide), beq_self_eq_true _⟩

theorem OwnsEntry.isEntryOf (h : OwnsEntry slots k v) :
    ∃ d, slots[k]? = some d ∧ isEntryOf v.clusIdx d = true := by
  cases h with
  | parsed hd hparse hclus => exact ⟨_, hd, hclus ▸ isEntryOf_of_parseSlot hparse⟩
  | registered hlen hname hd hclus => exact ⟨_, hd, hclus ▸ (newEntry_isShortEntry hlen hname).clus⟩

theorem OwnsEntry.findIdx?_eq (h : OwnsEntry slots k v) :
    ∃ j ≤ k, slots.findIdx? (Fat32.isEntryOf v.clusIdx) = some j ∧
      (j = k ↔ ∀ d ∈ slots.take k, Fat32.isEntryOf v.clusIdx d = false) := by
  obtain ⟨d, hd, hentry⟩ := h.isEntryOf
  obtain ⟨hlt, rfl⟩ := List.getElem?_eq_some_iff.1 hd
  obtain ⟨j, -, hj, -⟩ := findIdx?_of_mem (getElem_mem hlt) hentry
  obtain ⟨hjlt, hjentry, hbefore⟩ := findIdx?_eq_some_iff_getElem.1 hj
  have hle : j ≤ k := by
    by_contra hkj
    exact hbefore k (by omega) hentry
  refine ⟨j, hle, hj, ?_, fun hnone ↦ ?_⟩
  · rintro rfl d hd
    obtain ⟨m, hm, rfl⟩ := mem_take_iff_getElem.1 hd
    exact eq_false_of_ne_true (hbefore m (by omega))
  · by_contra hne
    have hfalse := hnone slots[j] (mem_take_iff_getElem.2 ⟨j, by omega, rfl⟩)
    exact Bool.false_ne_true (hfalse.symm.trans hjentry)

/-! ## Writing -/

theorem advanceClus_nodes {whichSec : ℕ} {clus clus' : UInt32}
    (h : advanceClus fs whichSec clus = .ok (clus', fs')) : fs'.nodes = fs.nodes := by
  unfold advanceClus at h
  split at h
  · obtain ⟨entry, -, h⟩ := of_bind_eq_ok h
    split at h
    · obtain ⟨fs₁, hset, h⟩ := of_bind_eq_ok h
      obtain ⟨fs₂, hset', h⟩ := of_bind_eq_ok h
      obtain ⟨-, rfl⟩ := setFatEntry_eq_ok hset
      obtain ⟨-, rfl⟩ := setFatEntry_eq_ok hset'
      cases h
      rfl
    · cases h
      rfl
  · cases h
    rfl

theorem Rounds.nodes {w w' : WriteState} {cur : ℕ} {buf : List UInt8} (h : Rounds w cur buf w') :
    w'.fs.nodes = w.fs.nodes := by
  induction h with
  | nil => rfl
  | cons _ hround _ ih =>
    obtain ⟨sec, sec', clus, fs, -, -, hadvance, -, rfl⟩ := writeRound_eq_ok hround
    exact ih.trans (advanceClus_nodes hadvance)

theorem Writes.storesSize {file file' : File} {buf : List UInt8} (h : Writes fs file buf file' fs')
    (hv : fs.nodes[file.vnode]? = some v) (hparent : v.parent = some parent)
    (hp : fs.nodes[parent]? = some p) (hne : parent ≠ file.vnode)
    (hpsecs : contentOf fs p true = .ok psecs)
    (hk : (dirSlots psecs).findIdx? (isEntryOf v.clusIdx) = some k) :
    StoresSize (dirSlots psecs) k file.vnode parent fs' := by
  obtain @⟨v', p', v₁, p₁, parent', k', psecs', secs, pcache₁, pcache, w, fs₁, fs₂, hv', hparent',
    hp', hpsecs', hfs₁, hentry, hv₁, -, hfs₂, -, hrounds, hp₁, hstore₁, hstore, -, rfl⟩ := h
  obtain rfl := Option.mem_unique hv hv'
  obtain rfl := Option.mem_unique hparent hparent'
  obtain rfl := Option.mem_unique hp hp'
  obtain rfl := Except.ok.inj (hpsecs.symm.trans hpsecs')
  obtain rfl := Option.mem_unique hk hentry
  have hnodes : w.fs.nodes = fs₂.nodes := hrounds.nodes
  have hcache : p₁.contentCache = psecs := by
    rw [Fs.setNode_nodes, getElem?_set_ne hne.symm, hnodes, hfs₂, Fs.setNode_nodes,
      getElem?_set_ne hne.symm, hfs₁, Fs.getElem?_setNode_self hp] at hp₁
    rw [← Option.some.inj hp₁]
  rw [hcache] at hstore₁
  obtain ⟨hlt, -, -⟩ := findIdx?_eq_some_iff_getElem.1 hk
  refine ⟨(dirSlots psecs)[k],
    { v₁ with contentCache := w.cache, fileSize := w.fileSize, dirty := true },
    { p₁ with contentCache := pcache, dirty := true }, getElem?_eq_getElem hlt, ?_,
    Fs.getElem?_setNode_self hp₁, ?_⟩
  · rw [Fs.setNode_nodes, getElem?_set_ne hne]
    have hv₂ := Fs.getElem?_setNode_self (v := { v₁ with contentCache := secs }) hv₁
    rw [← hfs₂, ← hnodes] at hv₂
    exact Fs.getElem?_setNode_self hv₂
  · exact (storeSize_stored (getElem?_eq_getElem hlt) hstore₁ hstore).2

end Entry

/-- `get_dir_entry` finds an entry for each file that has one, and writes store the size of the file
there.  It is the entry of the file exactly if none before it has the cluster of the file. -/
theorem own_entry_updated_iff {fs : Fs} {i parent k : ℕ} {v p : Vnode} {psecs : List Sector}
    (hv : fs.nodes[i]? = some v) (hfile : v.type = .file) (hparent : v.parent = some parent)
    (hp : fs.nodes[parent]? = some p) (hdir : p.type = .dir)
    (hpsecs : contentOf fs p true = .ok psecs) (hentry : OwnsEntry (dirSlots psecs) k v) :
    ∃ j ≤ k, (∃ fs', getDirEntry fs i = .ok (fs', parent, some j)) ∧
      (∀ fPos buf n file' fs', fat32Write fs ⟨i, fPos⟩ buf = .ok (n, file', fs') →
        StoresSize (dirSlots psecs) j i parent fs') ∧
      (j = k ↔ ∀ d ∈ (dirSlots psecs).take k, isEntryOf v.clusIdx d = false) := by
  have hne : parent ≠ i := by
    rintro rfl
    rw [← Option.mem_unique hv hp, hfile] at hdir
    cases hdir
  obtain ⟨j, hle, hj, hiff⟩ := hentry.findIdx?_eq
  refine ⟨j, hle, ⟨_, hj ▸ getDirEntry_eq hv hparent hp hpsecs⟩, fun _ _ _ _ _ hwrite ↦ ?_, hiff⟩
  exact (fat32Write_writes hwrite).2.storesSize hv hparent hp hne hpsecs hj

def labelEntry : List UInt8 := shortEntry (List.replicate 11 65) attrVolumeId 0

def plainEntry (clus : UInt32) : List UInt8 := shortEntry (List.replicate 11 66) attrArchive clus

def labelledSector (clus : UInt32) : Sector := sectorOf (labelEntry ++ plainEntry clus)

def rootVnode : Vnode := ⟨none, .dir, [], 0, [1], 2, false, []⟩

/-- A directory with a label and an empty file with the given first cluster. -/
def labelledVolume (clus : UInt32) : Fs :=
  { volumeOf [labelledSector clus] with
    nodes := [rootVnode, parsedVnode 0 .file (List.replicate 11 66) (plainEntry clus)] }

theorem labelledVolume_ownsEntry {clus : UInt32} (h : clus = 0 ∨ clus = 3) :
    OwnsEntry (dirSlots [labelledSector clus]) 1
      (parsedVnode 0 .file (List.replicate 11 66) (plainEntry clus)) := by
  have hd : (dirSlots [labelledSector clus])[1]? = some (plainEntry clus) := by
    rcases h with rfl | rfl <;> decide +kernel
  have hparse (recurse : Fs → ℕ → UInt32 → Except Fault Fs) :
      parseSlot recurse 0 (labelledVolume clus) [] (plainEntry clus) =
        .ok ((labelledVolume clus).addParsed 0
          (parsedVnode 0 .file (sfnName (plainEntry clus)) (plainEntry clus)), []) := by
    rcases h with rfl | rfl <;> rfl
  exact .parsed hd hparse rfl

/-- A file with a cluster of its own. -/
theorem own_entry_updated_iff_label :
    ∃ fs', getDirEntry (labelledVolume 3) 1 = .ok (fs', 0, some 1) := by
  have hcontent : contentOf (labelledVolume 3) rootVnode true = .ok [labelledSector 3] := by
    decide +kernel
  have hv : (labelledVolume 3).nodes[1]? =
    some (parsedVnode 0 .file (List.replicate 11 66) (plainEntry 3)) := rfl
  obtain ⟨j, -, hj, -, hiff⟩ := own_entry_updated_iff hv rfl rfl rfl rfl hcontent
    (labelledVolume_ownsEntry (.inr rfl))
  exact hiff.2 (by decide +kernel) ▸ hj

/-- The size of an empty file is stored in the label. -/
theorem label_updated :
    OwnsEntry (dirSlots [labelledSector 0]) 1
      (parsedVnode 0 .file (List.replicate 11 66) (plainEntry 0)) ∧
    ((fat32Write (labelledVolume 0) ⟨1, 0⟩ [1]).map fun r ↦ (r.2.2.nodes.map (·.fileSize),
      (dirSlots ((r.2.2.nodes.map (·.contentCache)).headD [])).take 2 |>.map dirFileSize)).toOption =
        some ([0, 1], [1, 0]) :=
  ⟨labelledVolume_ownsEntry (.inl rfl), by decide +kernel⟩

end CapstoneKernel.Fat32
