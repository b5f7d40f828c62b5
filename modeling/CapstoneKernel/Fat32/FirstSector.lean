import CapstoneKernel.Fat32.Entries
import CapstoneKernel.Fat32.FreeSpace
import CapstoneKernel.Fat32.LostClusters
import CapstoneKernel.Fat32.Syncing

/-!
# Directories of which only the first sector changes

`sync` writes one sector of a directory.  Here are the calls after which this is enough: new vnodes
get a place in the first sector of their directory, and sizes are stored there.  In every run of
such calls the other cached sectors of a directory are those on the disk, and every vnode that has
been created has its entry in the first one.
-/

namespace CapstoneKernel.Fat32

open Execution Function List Option

variable {fs fs' : Fs} {cache : List Sector} {nodes : List Vnode} {s : Sys} {t : UInt32}
  {fat : UInt32 → UInt32} {v v' : Vnode} {created dir i : ℕ}

/-! ## The table -/

/-- Clusters in use stay so, and chains only grow at their ends. -/
structure TableGrows (vol : Volume) (heads : List UInt32) (fat fat' : UInt32 → UInt32) : Prop where
  used : ∀ c, fat c ≠ fatEntryFree → fat' c ≠ fatEntryFree
  chain : ∀ head ∈ heads, ∀ clusters', FatChain vol fat' head clusters' →
    ∃ clusters, FatChain vol fat head clusters ∧ clusters <+: clusters'

section Table

variable {vol : Volume} {heads : List UInt32} {fat fat' : UInt32 → UInt32} {t : UInt32}

theorem TableGrows.claimed (hok : ChainsOk vol fat heads) (ht : fat t = fatEntryFree) :
    TableGrows vol heads fat (claimed vol fat t) := by
  refine ⟨fun c hc ↦ ?_, fun head hhead clusters' hchain' ↦ ?_⟩
  · have hct : c ≠ t := fun heq ↦ hc (heq ▸ ht)
    rwa [Fat32.claimed, update_of_ne hct]
  · obtain ⟨clusters, hchain⟩ := hok.chain head hhead
    have hsame := (hchain.claimed (hok.notMem_of_free hchain ht)).unique hchain'
    exact ⟨clusters, hchain, hsame ▸ prefix_rfl⟩

theorem linked_ne_free {clus c : UInt32} (hok : ChainsOk vol fat heads)
    (hlinks : Links vol fat heads clus t) (hc : fat c ≠ fatEntryFree) :
    linked vol fat clus t c ≠ fatEntryFree := by
  have hct : c ≠ t := fun heq ↦ hc (heq ▸ hlinks.free)
  rw [linked, update_of_ne hct]
  by_cases hclus : c = clus
  · rw [hclus, update_self]
    exact set_ne_free (hok.two_le_of_free hlinks.free) hlinks.inRange _
  · rwa [update_of_ne hclus]

theorem Appends.tableGrows (h : Appends vol heads fat fat') (hok : ChainsOk vol fat heads) :
    TableGrows vol heads fat fat' := by
  refine ⟨fun c hc ↦ ?_, fun head hhead clusters' hchain' ↦ ?_⟩
  · induction h with
    | refl => exact hc
    | link happends hlinks _ ih => exact linked_ne_free (happends.chainsOk hok) hlinks ih
  · obtain ⟨clusters, hchain⟩ := hok.chain head hhead
    obtain ⟨clusters'', hpre, hchain''⟩ := h.isPrefix hok hchain
    exact ⟨clusters, hchain, hchain''.unique hchain' ▸ hpre⟩

end Table

/-! ## Directories -/

/-- The entries in the first sector of a directory. -/
def firstSlots (fs : Fs) (d : Vnode) : List (List UInt8) :=
  (d.contentCache.headD (fs.disk (fs.vol.block d.clusIdx 0))).slots

/-- A directory whose sectors behind the first one are those on the disk. -/
structure DirOk (fs : Fs) (d : Vnode) : Prop where
  size : d.fileSize = 0
  tail : ∀ clusters, FatChain fs.vol fs.fat d.clusIdx clusters →
    d.contentCache.tail <+: (chainSectors fs.vol fs.disk clusters).tail
  used : EntriesUsed fs.fat (firstSlots fs d)

section Dir

variable {fs fs' : Fs} {d : Vnode} {clusters : List UInt32} {secs : List Sector}

theorem tail_chainSectors_isPrefix (vol : Volume) (disk : UInt32 → Sector)
    {clusters' : List UInt32} (h : clusters <+: clusters') :
    (chainSectors vol disk clusters).tail <+: (chainSectors vol disk clusters').tail := by
  obtain ⟨more, rfl⟩ := h
  have hsecs : chainSectors vol disk clusters <+: chainSectors vol disk (clusters ++ more) := by
    rw [chainSectors, chainSectors, flatMap_append]
    exact prefix_append ..
  simpa only [drop_one] using List.IsPrefix.drop hsecs 1

theorem chainSectors_eq_cons {vol : Volume} {disk : UInt32 → Sector} {head : UInt32}
    (h : FatChain vol fat head clusters) :
    chainSectors vol disk clusters = disk (vol.block head 0) ::
      (chainSectors vol disk clusters).tail := by
  have hfirst : (chainSectors vol disk clusters)[vol.secPerClus * 0 + 0]? =
      some (disk (vol.block head 0)) := getElem?_chainSectors h.getElem?_zero vol.secPerClus_pos
  rw [Nat.mul_zero, Nat.add_zero] at hfirst
  cases hsecs : chainSectors vol disk clusters with
  | nil =>
    rw [hsecs] at hfirst
    cases hfirst
  | cons s rest =>
    rw [hsecs] at hfirst
    rw [some.inj hfirst]
    rfl

theorem DirOk.content (h : DirOk fs d) (hdir : d.type = .dir)
    (hchain : FatChain fs.vol fs.fat d.clusIdx clusters) (hsecs : contentOf fs d true = .ok secs) :
    ∃ s rest, secs = s :: rest ∧ s.slots = firstSlots fs d ∧
      rest <+: (chainSectors fs.vol fs.disk clusters).tail := by
  have htail := h.tail clusters hchain
  rw [contentOf] at hsecs
  cases hcache : d.contentCache with
  | nil =>
    rw [if_pos ⟨hcache, rfl⟩, readContent_dir hchain hdir] at hsecs
    cases hsecs
    refine ⟨_, _, chainSectors_eq_cons hchain, ?_, prefix_rfl⟩
    rw [firstSlots, hcache]
    rfl
  | cons s rest =>
    rw [hcache] at hsecs htail
    rw [if_neg (fun hempty ↦ cons_ne_nil _ _ hempty.1)] at hsecs
    refine ⟨s, rest, (Except.ok.inj hsecs).symm, ?_, htail⟩
    rw [firstSlots, hcache]
    rfl

theorem DirOk.used_grows (h : DirOk fs d) (hgrows : TableGrows fs.vol fs.heads fs.fat fs'.fat) :
    EntriesUsed fs'.fat (firstSlots fs d) := fun e he hfree hattr ↦
  hgrows.used _ (h.used e he hfree hattr)

/-- Other sectors may take the place of the cached ones if they differ in the first one only. -/
theorem DirOk.update {d' : Vnode} (h : DirOk fs d) (hvol : fs'.vol = fs.vol)
    (hdisk : fs'.disk = fs.disk) (hgrows : TableGrows fs.vol fs.heads fs.fat fs'.fat)
    (hhead : d.clusIdx ∈ fs.heads) (hclus : d'.clusIdx = d.clusIdx)
    (hsize : d'.fileSize = d.fileSize)
    (htail : ∀ clusters, FatChain fs.vol fs.fat d.clusIdx clusters →
      d'.contentCache.tail <+: (chainSectors fs.vol fs.disk clusters).tail)
    (hused : EntriesUsed fs'.fat (firstSlots fs d')) : DirOk fs' d' := by
  refine ⟨hsize.trans h.size, fun clusters' hchain' ↦ ?_, ?_⟩
  · rw [hvol, hclus] at hchain'
    obtain ⟨clusters, hchain, hpre⟩ := hgrows.chain _ hhead _ hchain'
    rw [hvol, hdisk]
    exact (htail clusters hchain).trans (tail_chainSectors_isPrefix fs.vol fs.disk hpre)
  · rwa [firstSlots, hvol, hdisk]

end Dir

/-! ## The invariant -/

/-- The state of a run: `created` is the number of vnodes before it. -/
structure Inv (created : ℕ) (fs : Fs) : Prop where
  chainsOk : fs.ChainsOk
  tree : Tree fs.nodes
  dir : ∀ d ∈ fs.nodes, d.type = .dir → DirOk fs d
  dirty : ∀ i v, created ≤ i → fs.nodes[i]? = some v → v.dirty = true
  listed : ∀ i v p d, created ≤ i → fs.nodes[i]? = some v → v.parent = some p →
    fs.nodes[p]? = some d → d.contentCache ≠ [] ∧ Listed (firstSlots fs d) v

theorem Tree.of_parent {p : ℕ} (h : Tree nodes) (hv : nodes[i]? = some v) (hp : v.parent = some p) :
    ∃ d, nodes[p]? = some d ∧ d.type = .dir ∧ p < i := by
  have hi : i ≠ 0 := by
    rintro rfl
    exact absurd (hp.symm.trans (h.root v hv)) nofun
  obtain ⟨p', d, hp', hd, hdir, hmem⟩ := h.parent i v hv hi
  obtain rfl := mem_unique hp hp'
  exact ⟨d, hd, hdir, h.parent_lt hd hmem⟩

theorem Tree.set (h : Tree nodes) (hv : nodes[i]? = some v) (hparent : v'.parent = v.parent)
    (htype : v'.type = v.type) (hchildren : v'.children = v.children) : Tree (nodes.set i v') := by
  have hlt : i < nodes.length := (List.getElem?_eq_some_iff.1 hv).1
  -- Whatever is found in the new list has the links of what was there.
  have hold : ∀ (j : ℕ) (u' : Vnode), (nodes.set i v')[j]? = some u' → ∃ u : Vnode,
      nodes[j]? = some u ∧ u'.parent = u.parent ∧ u'.type = u.type ∧ u'.children = u.children := by
    intro j u' hu'
    by_cases hij : i = j
    · subst hij
      rw [getElem?_set_self hlt] at hu'
      cases hu'
      exact ⟨v, hv, hparent, htype, hchildren⟩
    · rw [getElem?_set_ne hij] at hu'
      exact ⟨u', hu', rfl, rfl, rfl⟩
  have hnew : ∀ (j : ℕ) (u : Vnode), nodes[j]? = some u → ∃ u' : Vnode,
      (nodes.set i v')[j]? = some u' ∧ u'.type = u.type ∧ u'.children = u.children := by
    intro j u hu
    by_cases hij : i = j
    · subst hij
      obtain rfl := mem_unique hv hu
      exact ⟨v', getElem?_set_self hlt, htype, hchildren⟩
    · exact ⟨u, by rw [getElem?_set_ne hij, hu], rfl, rfl⟩
  refine ⟨fun u' hu' ↦ ?_, fun j u' hu' c hc ↦ ?_, fun j u' hu' hj ↦ ?_⟩
  · obtain ⟨u, hu, hsame, -, -⟩ := hold 0 u' hu'
    exact hsame.trans (h.root u hu)
  · obtain ⟨u, hu, -, -, hsame⟩ := hold j u' hu'
    rw [length_set]
    exact h.child j u hu c (hsame ▸ hc)
  · obtain ⟨u, hu, hsame, -, -⟩ := hold j u' hu'
    obtain ⟨p, d, hp, hd, hdir, hmem⟩ := h.parent j u hu hj
    obtain ⟨d', hd', htype', hchildren'⟩ := hnew p d hd
    exact ⟨p, d', hsame.trans hp, hd', htype'.trans hdir, hchildren'.symm ▸ hmem⟩

/-! ## Creating -/

section NewNode

variable {nodes : List Vnode} {dir i : ℕ} {d d' u v : Vnode}

theorem getElem?_set_append_cases (h : (nodes.set dir d' ++ [v])[i]? = some u) :
    i = dir ∧ u = d' ∨ i = nodes.length ∧ u = v ∨
      i ≠ dir ∧ i ≠ nodes.length ∧ nodes[i]? = some u := by
  rcases Nat.lt_or_ge i nodes.length with hlt | hge
  · rw [getElem?_append_left (by rwa [length_set])] at h
    by_cases hi : dir = i
    · subst hi
      rw [getElem?_set_self hlt] at h
      exact .inl ⟨rfl, (some.inj h).symm⟩
    · rw [getElem?_set_ne hi] at h
      exact .inr (.inr ⟨Ne.symm hi, Nat.ne_of_lt hlt, h⟩)
  · rw [getElem?_append_right (by rwa [length_set]), length_set] at h
    have hzero := (List.getElem?_eq_some_iff.1 h).1
    rw [length_singleton] at hzero
    obtain rfl : i = nodes.length := by omega
    rw [Nat.sub_self] at h
    exact .inr (.inl ⟨rfl, (some.inj h).symm⟩)

theorem getElem?_set_append_dir (hd : nodes[dir]? = some d) :
    (nodes.set dir d' ++ [v])[dir]? = some d' := by
  have hlt : dir < nodes.length := (List.getElem?_eq_some_iff.1 hd).1
  rw [getElem?_append_left (by rwa [length_set]), getElem?_set_self hlt]

theorem getElem?_set_append_ne (hu : nodes[i]? = some u) (hne : i ≠ dir) :
    (nodes.set dir d' ++ [v])[i]? = some u := by
  have hlt : i < nodes.length := (List.getElem?_eq_some_iff.1 hu).1
  rw [getElem?_append_left (by rwa [length_set]), getElem?_set_ne hne.symm, hu]

/-- A vnode is added to a directory. -/
theorem Tree.add (h : Tree nodes) (hd : nodes[dir]? = some d) (hdir : d.type = .dir)
    (hparent : d'.parent = d.parent) (htype : d'.type = d.type)
    (hchildren : d'.children = d.children ++ [nodes.length]) (hv : v.parent = some dir)
    (hleaf : v.children = []) : Tree (nodes.set dir d' ++ [v]) := by
  have hlt : dir < nodes.length := (List.getElem?_eq_some_iff.1 hd).1
  have hlength : (nodes.set dir d' ++ [v]).length = nodes.length + 1 := by
    rw [length_append, length_set, length_singleton]
  -- The parents of the old vnodes still have them.
  have hkept : ∀ (i : ℕ) (u : Vnode), nodes[i]? = some u → i ≠ 0 → ∃ p e, u.parent = some p ∧
      (nodes.set dir d' ++ [v])[p]? = some e ∧ e.type = .dir ∧ i ∈ e.children := by
    intro i u hu hi
    obtain ⟨p, e, hp, he, hedir, hmem⟩ := h.parent i u hu hi
    by_cases hpd : p = dir
    · subst hpd
      obtain rfl := mem_unique hd he
      refine ⟨p, d', hp, getElem?_set_append_dir hd, htype.trans hdir, ?_⟩
      rw [hchildren]
      exact mem_append_left _ hmem
    · exact ⟨p, e, hp, getElem?_set_append_ne he hpd, hedir, hmem⟩
  refine ⟨fun u hu ↦ ?_, fun i u hu c hc ↦ ?_, fun i u hu hi ↦ ?_⟩
  · rcases getElem?_set_append_cases hu with ⟨rfl, rfl⟩ | ⟨hzero, -⟩ | ⟨-, -, hold⟩
    · exact hparent.trans (h.root d hd)
    · omega
    · exact h.root u hold
  · rw [hlength]
    rcases getElem?_set_append_cases hu with ⟨rfl, rfl⟩ | ⟨-, rfl⟩ | ⟨-, -, hold⟩
    · rw [hchildren, mem_append, mem_singleton] at hc
      rcases hc with hc | rfl
      · obtain ⟨hic, hcn⟩ := h.child i d hd c hc
        exact ⟨hic, Nat.lt_succ_of_lt hcn⟩
      · exact ⟨hlt, Nat.lt_succ_self _⟩
    · rw [hleaf] at hc
      exact absurd hc not_mem_nil
    · obtain ⟨hic, hcn⟩ := h.child i u hold c hc
      exact ⟨hic, Nat.lt_succ_of_lt hcn⟩
  · rcases getElem?_set_append_cases hu with ⟨rfl, rfl⟩ | ⟨rfl, rfl⟩ | ⟨-, -, hold⟩
    · rw [hparent]
      exact hkept i d hd hi
    · refine ⟨dir, d', hv, getElem?_set_append_dir hd, htype.trans hdir, ?_⟩
      rw [hchildren]
      exact mem_append_right _ (mem_singleton.2 rfl)
    · exact hkept i u hold hi

end NewNode

/-- The first free entry is among the given ones, and it is not the last of them if it ends the
directory. -/
def HasPlace (slots : List (List UInt8)) : Prop :=
  ∃ k ∈ slots.findIdx? isFreeEntry,
    k + 1 < blkSz / entrySz ∨ dirName (slots.getD k []) 0 ≠ dirEntryLastAndUnused
deriving Decidable

section Create

variable {fs fs' : Fs} {dir created : ℕ} {d p v : Vnode} {s : Sector} {secs rest : List Sector}
    {clusters : List UInt32} {k : ℕ}

theorem findIdx?_dirSlots_cons {q : List UInt8 → Bool} (hk : s.slots.findIdx? q = some k) :
    (dirSlots (s :: rest)).findIdx? q = some k := by
  rw [dirSlots, flatMap_cons, findIdx?_append, hk]
  rfl

/-- In a directory with a place, registering changes the first sector. -/
theorem Registers.takesEntry (h : Registers fs dir p v (s :: rest) clusters fs')
    (hplace : HasPlace s.slots) (hname : ShortFits v.name) :
    ∃ s' k, TakesEntry s.slots v s'.slots k ∧
      fs' = fs.setNode dir { p with contentCache := s' :: rest } := by
  obtain ⟨k, hk, hnot⟩ := hplace
  have hfirst : firstFree (s :: rest) = some k := findIdx?_dirSlots_cons hk
  have hlt := (findIdx?_eq_some_iff_getElem.1 hk).1
  cases h with
  | full hfull => exact absurd (hfull.symm.trans hfirst) nofun
  | @taken k' cache cache' hk' hcases hstore =>
    obtain rfl := mem_unique hk' hfirst
    obtain ⟨s', rfl, htakes⟩ := takesEntry_of_stores hk hname hcases hstore
    exact ⟨s', k', htakes, rfl⟩
  | @grown k' clus t cache cache' hk' hlast hmod =>
    obtain rfl := mem_unique hk' hfirst
    have hget : (dirSlots (s :: rest)).getD k' [] = s.slots.getD k' [] := by
      rw [getD_eq_getElem?_getD, getD_eq_getElem?_getD, dirSlots, flatMap_cons,
        getElem?_append_left hlt]
    rw [isLast, hget] at hlast
    rw [length_slots] at hlt
    rw [Nat.mod_eq_of_lt hlt] at hmod
    rcases hnot with hless | hused
    · omega
    · exact absurd (beq_iff_eq.1 hlast) hused

theorem withNode_setNode_nodes (hd : fs.nodes[dir]? = some d) (d' : Vnode) :
    ((withNode fs dir d v).setNode dir d').nodes = fs.nodes.set dir d' ++ [v] := by
  have hlt : dir < fs.nodes.length := (List.getElem?_eq_some_iff.1 hd).1
  rw [Fs.setNode_nodes, withNode, set_append_left _ _ (by rwa [length_set]), set_set]

theorem EntriesUsed.isEntryOf_eq_false {slots : List (List UInt8)} (h : EntriesUsed fat slots)
    (ht : fat t = fatEntryFree) {e : List UInt8} (he : e ∈ slots) (hused : isFreeEntry e = false) :
    isEntryOf t e = false := by
  cases hentry : isEntryOf t e with
  | false => rfl
  | true =>
    have hclus := dirFstClus_of_isEntryOf hentry
    rw [isEntryOf, Bool.and_eq_true] at hentry
    exact absurd (hclus ▸ ht) (h e he hused (bne_iff_ne.1 hentry.1))

theorem dotEntries_eq_ok (h : dotEntries = .ok cache) :
    ∃ s₀, cache = [s₀] ∧ ∀ e ∈ s₀.slots, isFreeEntry e = false → dirFstClus e = 0 := by
  have hall : dotEntries.toOption.any (fun c ↦ c.length == 1 && c.all fun s₀ ↦
      s₀.slots.all fun e ↦ isFreeEntry e || dirFstClus e == 0) = true := by decide +kernel
  rw [h] at hall
  obtain ⟨hlength, hslots⟩ := Bool.and_eq_true_iff.1 hall
  obtain ⟨s₀, rfl⟩ := length_eq_one_iff.1 (beq_iff_eq.1 hlength)
  refine ⟨s₀, rfl, fun e he hused ↦ ?_⟩
  have hentry := all_eq_true.1 (all_eq_true.1 hslots s₀ mem_cons_self) e he
  rw [hused, Bool.false_or] at hentry
  exact beq_iff_eq.1 hentry

end Create

/-! ## Writing -/

theorem getElem?_set_set_cases {j parent : ℕ} {p' u : Vnode}
    (h : ((nodes.set i v').set parent p')[j]? = some u) :
    j = parent ∧ u = p' ∨ j = i ∧ u = v' ∨ j ≠ parent ∧ j ≠ i ∧ nodes[j]? = some u := by
  rw [getElem?_set] at h
  split at h
  · next hj =>
    rw [length_set] at h
    split at h
    · exact .inl ⟨hj.symm, (some.inj h).symm⟩
    · cases h
  · next hj =>
    rw [getElem?_set] at h
    split at h
    · next hi =>
      split at h
      · exact .inr (.inl ⟨hi.symm, (some.inj h).symm⟩)
      · cases h
    · next hi => exact .inr (.inr ⟨Ne.symm hj, Ne.symm hi, h⟩)

/-- The vnode `v` is stored at number `i`, and its directory `d` at number `dir` gets another first
sector. -/
theorem Inv.stores {d : Vnode} {s : Sector} {rest : List Sector} {children : List ℕ} {dirty : Bool}
    (h : Inv created fs) (hd : fs.nodes[dir]? = some d) (hdir : d.type = .dir)
    (hvol : fs'.vol = fs.vol) (hdisk : fs'.disk = fs.disk)
    (hgrows : TableGrows fs.vol fs.heads fs.fat fs'.fat) (hok : fs'.ChainsOk)
    (htree : Tree fs'.nodes) (hnodes : ∀ j u, fs'.nodes[j]? = some u →
      j = dir ∧ u = { d with children := children, contentCache := s :: rest, dirty := dirty } ∨
      j = i ∧ u = v ∨ j ≠ dir ∧ j ≠ i ∧ fs.nodes[j]? = some u)
    (hdirty : d.dirty = true → dirty = true)
    (hrest : ∀ clusters, FatChain fs.vol fs.fat d.clusIdx clusters →
      rest <+: (chainSectors fs.vol fs.disk clusters).tail) (hused : EntriesUsed fs'.fat s.slots)
    (hparent : v.parent = some dir) (hv : v.dirty = true) (hvdir : v.type = .dir → DirOk fs' v)
    (hold : ∀ u, fs.nodes[i]? = some u → u.type ≠ .dir)
    (hlisted : ∀ j u, j ≠ i → fs.nodes[j]? = some u → Listed (firstSlots fs d) u → Listed s.slots u)
    (hnew : created ≤ i → Listed s.slots v) : Inv created fs' := by
  have hslots (e : Vnode) : firstSlots fs' e = firstSlots fs e := by
    rw [firstSlots, firstSlots, hvol, hdisk]
  have hne : dir ≠ i := by
    rintro rfl
    exact hold d hd hdir
  refine ⟨hok, htree, fun e he hetype ↦ ?_, fun j u hj hu ↦ ?_, fun j u q e hj hu hq he ↦ ?_⟩
  · obtain ⟨j, hj⟩ := getElem?_of_mem he
    rcases hnodes j e hj with ⟨-, rfl⟩ | ⟨-, rfl⟩ | ⟨-, -, hj⟩
    · have hmem := mem_of_getElem? hd
      exact (h.dir d hmem hdir).update hvol hdisk hgrows (mem_map_of_mem hmem) rfl rfl hrest hused
    · exact hvdir hetype
    · have hmem := mem_of_getElem? hj
      have hok := h.dir e hmem hetype
      exact hok.update hvol hdisk hgrows (mem_map_of_mem hmem) rfl rfl hok.tail
        (hok.used_grows hgrows)
  · rcases hnodes j u hu with ⟨rfl, rfl⟩ | ⟨-, rfl⟩ | ⟨-, -, hu⟩
    · exact hdirty (h.dirty j d hj hd)
    · exact hv
    · exact h.dirty j u hj hu
  · have hother {u₀ : Vnode} (hji : j ≠ i) (hu₀ : fs.nodes[j]? = some u₀)
        (hq₀ : u₀.parent = some q) (hname : u.name = u₀.name) (hclus : u.clusIdx = u₀.clusIdx)
        (hsize : u.fileSize = u₀.fileSize) :
        e.contentCache ≠ [] ∧ Listed (firstSlots fs' e) u := by
      obtain ⟨d₀, hd₀, hd₀type, -⟩ := h.tree.of_parent hu₀ hq₀
      obtain ⟨hcache, hlisted₀⟩ := h.listed j u₀ q d₀ hj hu₀ hq₀ hd₀
      rcases hnodes q e he with ⟨rfl, rfl⟩ | ⟨rfl, -⟩ | ⟨-, -, he⟩
      · obtain rfl := mem_unique hd hd₀
        exact ⟨cons_ne_nil _ _, (hlisted j u₀ hji hu₀ hlisted₀).congr hname hclus hsize⟩
      · exact absurd hd₀type (hold d₀ hd₀)
      · obtain rfl := mem_unique hd₀ he
        exact ⟨hcache, hslots d₀ ▸ hlisted₀.congr hname hclus hsize⟩
    rcases hnodes j u hu with ⟨rfl, rfl⟩ | ⟨rfl, rfl⟩ | ⟨-, hji, hu⟩
    · exact hother hne hd hq rfl rfl rfl
    · obtain rfl := mem_unique hparent hq
      rcases hnodes dir e he with ⟨-, rfl⟩ | ⟨heq, -⟩ | ⟨hdir, -⟩
      · exact ⟨cons_ne_nil _ _, hnew hj⟩
      · exact absurd heq hne
      · exact absurd rfl hdir
    · exact hother hji hu hq rfl rfl rfl

/-! ## Runs -/

/-- Reading loads the sectors of a file, and nothing of a directory. -/
theorem Inv.read {secs : List Sector} (h : Inv created fs) (hv : fs.nodes[i]? = some v)
    (hsecs : contentOf fs v (decide (0 < v.fileSize)) = .ok secs) :
    Inv created (fs.setNode i { v with contentCache := secs }) := by
  by_cases htype : v.type = .dir
  · have hsize := (h.dir v (mem_of_getElem? hv) htype).size
    rw [contentOf, hsize, if_neg (fun hload ↦ absurd hload.2 (by decide))] at hsecs
    obtain rfl := Except.ok.inj hsecs
    rwa [Fs.setNode_self hv]
  · -- A directory is another vnode than the file.
    have hother {q : ℕ} {e : Vnode} (hq : fs.nodes[q]? = some e) (he : e.type = .dir) : i ≠ q := by
      rintro rfl
      obtain rfl := mem_unique hv hq
      exact htype he
    have hold {j : ℕ} {u : Vnode} (hu : (fs.nodes.set i { v with contentCache := secs })[j]? =
      some u) : ∃ u₀, fs.nodes[j]? = some u₀ ∧ u.parent = u₀.parent ∧ u.name = u₀.name ∧
          u.clusIdx = u₀.clusIdx ∧ u.fileSize = u₀.fileSize ∧ u.dirty = u₀.dirty ∧
            (u.type = .dir → u = u₀) := by
      by_cases hij : i = j
      · subst hij
        rw [getElem?_set_self (List.getElem?_eq_some_iff.1 hv).1] at hu
        obtain rfl := some.inj hu
        exact ⟨v, hv, rfl, rfl, rfl, rfl, rfl, fun hdir ↦ absurd hdir htype⟩
      · rw [getElem?_set_ne hij] at hu
        exact ⟨u, hu, rfl, rfl, rfl, rfl, rfl, fun _ ↦ rfl⟩
    refine ⟨?_, h.tree.set hv rfl rfl rfl, fun e he hetype ↦ ?_, fun j u hj hu ↦ ?_,
      fun j u q e hj hu hq he ↦ ?_⟩
    · rw [Fs.ChainsOk, Fs.heads_withCache hv]
      exact h.chainsOk
    · obtain ⟨j, hj⟩ := getElem?_of_mem he
      obtain ⟨u₀, hu₀, -, -, -, -, -, hsame⟩ := hold hj
      obtain rfl := hsame hetype
      have hok := h.dir e (mem_of_getElem? hu₀) hetype
      exact ⟨hok.size, hok.tail, hok.used⟩
    · obtain ⟨u₀, hu₀, -, -, -, -, hdirty, -⟩ := hold hu
      exact hdirty.trans (h.dirty j u₀ hj hu₀)
    · obtain ⟨u₀, hu₀, hparent, hname, hclus, hsize, -, -⟩ := hold hu
      obtain ⟨d, hd, hdtype, -⟩ := h.tree.of_parent hu₀ (hparent ▸ hq)
      rw [Fs.setNode_nodes, getElem?_set_ne (hother hd hdtype), hd] at he
      obtain rfl := some.inj he
      obtain ⟨hne, hlisted⟩ := h.listed j u₀ q d hj hu₀ (hparent ▸ hq) hd
      exact ⟨hne, hlisted.congr hname hclus hsize⟩

/-- A place for a new vnode with the name in the first sector of the directory. -/
def HasPlaceFor (fs : Fs) (dir : ℕ) (name : List UInt8) : Prop :=
  ShortFits name ∧ ∃ d ∈ fs.nodes[dir]?, d.type = .dir ∧ HasPlace (firstSlots fs d)
deriving Decidable

/-- The vnode is a file with its entry in the first sector of the directory. -/
def HasFirstEntry (fs : Fs) (i : ℕ) : Prop :=
  ∃ v ∈ fs.nodes[i]?, v.type = .file ∧ ∃ parent ∈ v.parent, ∃ p ∈ fs.nodes[parent]?,
    (firstSlots fs p).any (isEntryOf v.clusIdx) = true
deriving Decidable

/-- Calls that change only the first sectors of directories. -/
def FirstSector (s : Sys) : Act → Prop
  | .create dir name type => type = .file ∧ HasPlaceFor s.fs dir name
  | .mkdir dir name => HasPlaceFor s.fs dir name
  | .write i _ => ∃ file ∈ s.files[i]?, HasFirstEntry s.fs file.vnode
  | _ => True

instance (s : Sys) (a : Act) : Decidable (FirstSector s a) :=
  match a with
  | .create .. => inferInstanceAs (Decidable (_ ∧ _))
  | .mkdir dir name => inferInstanceAs (Decidable (HasPlaceFor s.fs dir name))
  | .write i _ => inferInstanceAs (Decidable (∃ file ∈ s.files[i]?, HasFirstEntry s.fs file.vnode))
  | .openFile _ => .isTrue trivial
  | .read .. => .isTrue trivial
  | .lseek64 .. => .isTrue trivial

theorem Creates.inv {type : FileType} {name : List UInt8}
    (h : Creates fs dir (newNode dir type name t cache) fs') (hinv : Inv created fs)
    (hplace : HasPlaceFor fs dir name) (hcache : type = .dir → dotEntries = .ok cache) :
    Inv created fs' := by
  have hok := h.chainsOk hinv.chainsOk
  obtain ⟨hname, d₀, hd₀, hdtype, hfirst⟩ := hplace
  obtain @⟨d, secs, clusters, hd, hfree, -, hchain, hsecs, hreg⟩ := h
  obtain rfl := mem_unique hd hd₀
  have hdok := hinv.dir d (mem_of_getElem? hd) hdtype
  rw [contentOf_withNode hchain (hinv.chainsOk.notMem_of_free hchain hfree)] at hsecs
  obtain ⟨s, rest, rfl, hslots, hrest⟩ := hdok.content hdtype hchain hsecs
  rw [← hslots] at hfirst
  obtain ⟨s', k, htakes, rfl⟩ := hreg.takesEntry hfirst hname
  rw [hslots] at htakes
  have hgrows : TableGrows fs.vol fs.heads fs.fat (claimed fs.vol fs.fat t) :=
    .claimed hinv.chainsOk hfree
  have hclaimed : claimed fs.vol fs.fat t t ≠ fatEntryFree := by
    rw [claimed, update_self, hinv.chainsOk.endOfFile]
    decide
  have hnodes := withNode_setNode_nodes (v := newNode dir type name t cache) hd
    { withChild fs d with contentCache := s' :: rest }
  refine hinv.stores hd hdtype rfl rfl hgrows hok ?_
    (fun _ _ hu ↦ getElem?_set_append_cases (hnodes ▸ hu)) id
    (fun _ hchain' ↦ hchain.unique hchain' ▸ hrest)
    (htakes.entriesUsed (hdok.used_grows hgrows) hclaimed) rfl rfl (fun htype ↦ ?_) (fun u hu ↦ ?_)
    (fun _ _ _ _ ↦ htakes.listed) fun _ ↦ htakes.listed_new fun x hx ↦
      hdok.used.isEntryOf_eq_false hfree (mem_of_mem_take hx) (htakes.used_before x hx)
  · rw [hnodes]
    exact hinv.tree.add hd hdtype rfl rfl rfl rfl rfl
  · obtain ⟨s₀, rfl, hdots⟩ := dotEntries_eq_ok (hcache htype)
    refine ⟨rfl, fun _ _ ↦ nil_prefix, fun x hx hused _ ↦ ?_⟩
    rw [hdots x hx hused]
    exact hok.fat_zero
  · exact absurd (List.getElem?_eq_some_iff.1 hu).1 (Nat.lt_irrefl _)

theorem Writes.inv {file file' : File} {buf : List UInt8} (h : Writes fs file buf file' fs')
    (hinv : Inv created fs) (hok : fs'.ChainsOk)
    (hentry : HasFirstEntry fs file.vnode) :
    Inv created fs' := by
  obtain ⟨v, hv, hvtype, parent, hparent, p, hp, hfirst⟩ := hentry
  obtain ⟨p', hp', hptype, hlt⟩ := hinv.tree.of_parent hv hparent
  obtain rfl := mem_unique hp hp'
  have hne := Nat.ne_of_lt hlt
  obtain ⟨fat, w, -, -, psecs, k, pcache₁, pcache, happends, hpsecs, hk, -, -, -, hstore₁, hstore, -,
    rfl⟩ := h.stores hinv.chainsOk hv hparent hp hne
  have hmem := mem_of_getElem? hp
  have hpok := hinv.dir p hmem hptype
  obtain ⟨clusters, hchain⟩ := hinv.chainsOk.chain p.clusIdx (mem_map_of_mem hmem)
  obtain ⟨s, rest, rfl, hslots, hrest⟩ := hpok.content hptype hchain hpsecs
  -- The entry is found in the first sector.
  rw [← hslots] at hfirst
  obtain ⟨k', hk'⟩ := isSome_iff_exists.1 (findIdx?_isSome.trans hfirst)
  obtain rfl : k' = k := some.inj ((findIdx?_dirSlots_cons hk').symm.trans hk)
  obtain ⟨s', rfl, hresized⟩ := resized_of_stores hk' hstore₁ hstore
  rw [hslots] at hresized
  have hgrows := happends.tableGrows hinv.chainsOk
  refine hinv.stores hp hptype rfl rfl hgrows hok ?_ (fun _ _ ↦ getElem?_set_set_cases)
    (fun _ ↦ rfl) (fun _ hchain' ↦ hchain.unique hchain' ▸ hrest)
    (hresized.entriesUsed (hpok.used_grows hgrows)) hparent rfl
    (fun htype ↦ absurd (hvtype.symm.trans htype) nofun) (fun u hu ↦ ?_)
    (fun j u hji hu hlisted ↦ hresized.listed hlisted fun hsame ↦
      hji (hinv.chainsOk.index_eq hu hv hsame)) fun hi ↦ ?_
  · refine Tree.set (v := p) ?_ ?_ rfl rfl rfl
    · exact hinv.tree.set hv rfl rfl rfl
    · rw [getElem?_set_ne hne.symm, hp]
  · obtain rfl := mem_unique hv hu
    rw [hvtype]
    nofun
  · exact hresized.listed_self (hinv.listed _ v parent p hi hv hparent hp).2 rfl rfl rfl rfl

theorem FsEffect.inv {a : Act} (h : FsEffect s a fs') (hinv : Inv created s.fs)
    (hallowed : FirstSector s a) : Inv created fs' := by
  have hok' := h.chainsOk hinv.chainsOk
  cases h with
  | create hcreates =>
    exact hcreates.inv hinv hallowed.2 fun hdir ↦ absurd (hallowed.1.symm.trans hdir) nofun
  | mkdir hcache hcreates => exact hcreates.inv hinv hallowed fun _ ↦ hcache
  | write hfile hwrites =>
    obtain ⟨file, hfile', hentry⟩ := hallowed
    obtain rfl := mem_unique hfile hfile'
    exact hwrites.inv hinv hok' hentry
  | read _ hv hsecs => exact hinv.read hv hsecs
  | openFile | lseek64 => exact hinv

theorem FsReachable.inv {s₀ : Sys} (hstart : Inv created s₀.fs) (h : FsReachable FirstSector s₀ s) :
    Inv created s.fs := by
  refine h.invariant (P := fun s ↦ Inv created s.fs) (fun s hs ↦ hs ▸ hstart) ?_
  rintro s s' hinv ⟨a, out, hallowed, hrun⟩
  exact (a.effect hinv.chainsOk hrun).inv hinv hallowed

end CapstoneKernel.Fat32
