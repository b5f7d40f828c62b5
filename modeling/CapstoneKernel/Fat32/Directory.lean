import CapstoneKernel.Fat32.Allocation

/-!
# What creating a file or directory does

`fat32_create` and `fat32_mkdir` take a free cluster for the new vnode and then look for a place in
the directory.  The lemmas say what has become of the volume when they return: the table is the old
one with the new chain, and possibly one more cluster behind the cluster of the sector in which the
place was found.
-/

namespace CapstoneKernel.Fat32

open Execution List Option

variable {fs fs' : Fs} {secs cache cache' : List Sector} {clusters : List UInt32}
  {data name : List UInt8} {r : Option (ℕ × UInt32)} {v : Vnode} {dir i off k : ℕ} {clus : UInt32}
  {type : FileType}

namespace Fs

variable {fs : Fs} {i : ℕ} {v w : Vnode}

def heads (fs : Fs) : List UInt32 := fs.nodes.map Vnode.clusIdx

abbrev ChainsOk (fs : Fs) : Prop := Fat32.ChainsOk fs.vol fs.fat fs.heads

theorem node_eq_ok (h : fs.node i = .ok v) : fs.nodes[i]? = some v := by
  unfold node at h
  split at h
  · cases h
  · next heq => rw [heq, Except.ok.inj h]

theorem node_of_getElem? (h : fs.nodes[i]? = some v) : fs.node i = .ok v := by
  unfold node
  rw [h]

@[simp] theorem setNode_vol : (fs.setNode i v).vol = fs.vol := rfl

@[simp] theorem setNode_fat : (fs.setNode i v).fat = fs.fat := rfl

@[simp] theorem setNode_nodes : (fs.setNode i v).nodes = fs.nodes.set i v := rfl

theorem setNode_setNode : (fs.setNode i v).setNode i w = fs.setNode i w := by
  rw [setNode, setNode, set_set]
  rfl

theorem setNode_self (h : fs.nodes[i]? = some v) : fs.setNode i v = fs := by
  obtain ⟨hlt, rfl⟩ := List.getElem?_eq_some_iff.1 h
  rw [setNode, set_getElem_self]

theorem getElem?_setNode_self (h : fs.nodes[i]? = some w) : (fs.setNode i v).nodes[i]? = some v := by
  rw [setNode_nodes, getElem?_set_self (List.getElem?_eq_some_iff.1 h).1]

theorem getElem?_heads (h : fs.nodes[i]? = some v) : fs.heads[i]? = some v.clusIdx := by
  rw [heads, getElem?_map, h, map_some]

theorem heads_setNode (h : fs.nodes[i]? = some w) (hclus : v.clusIdx = w.clusIdx) :
    (fs.setNode i v).heads = fs.heads := by
  obtain ⟨hlt, rfl⟩ := List.getElem?_eq_some_iff.1 h
  refine ext_getElem? fun j ↦ ?_
  rw [heads, heads, setNode_nodes, getElem?_map, getElem?_map, getElem?_set]
  split
  · next heq =>
    subst heq
    rw [h, map_some, map_some, hclus]
  · rfl

theorem heads_withCache (h : fs.nodes[i]? = some v) (secs : List Sector) :
    (fs.setNode i { v with contentCache := secs }).heads = fs.heads := heads_setNode h rfl

end Fs

/-! ## Loading -/

/-- The sectors of a vnode after `load_content` has been called if it is `needed`. -/
def contentOf (fs : Fs) (v : Vnode) (needed : Bool) : Except Fault (List Sector) :=
  if v.contentCache = [] ∧ needed then readContent fs v else .ok v.contentCache

theorem loadIf_eq (fs : Fs) (i : ℕ) (needed : Vnode → Bool) :
    loadIf fs i needed = fs.node i >>= fun v ↦ contentOf fs v (needed v) >>= fun secs ↦
      .ok (fs.setNode i { v with contentCache := secs }) := by
  unfold loadIf
  cases hv : fs.node i with
  | error e => rfl
  | ok v =>
    change (if v.contentCache = [] ∧ needed v then loadContent fs i else .ok fs) = _
    rw [ok_bind, contentOf]
    split
    · next hload =>
      rw [loadContent, hv, ok_bind, hload.1]
      rfl
    · rw [ok_bind, Fs.setNode_self (Fs.node_eq_ok hv)]

theorem loadIf_eq_ok {needed : Vnode → Bool} (h : loadIf fs i needed = .ok fs') :
    ∃ v secs, fs.nodes[i]? = some v ∧ contentOf fs v (needed v) = .ok secs ∧
      fs' = fs.setNode i { v with contentCache := secs } := by
  rw [loadIf_eq] at h
  obtain ⟨v, hv, h⟩ := of_bind_eq_ok h
  obtain ⟨secs, hsecs, h⟩ := of_bind_eq_ok h
  exact ⟨v, secs, Fs.node_eq_ok hv, hsecs, (Except.ok.inj h).symm⟩

/-! ## Places in a directory -/

theorem length_slots (s : Sector) : s.slots.length = blkSz / entrySz := by
  rw [Sector.slots, length_map, length_range]

theorem storeSlot_eq_ok (h : storeSlot cache k off data = .ok cache') :
    ∃ sec sec', cache[k / (blkSz / entrySz)]? = some sec ∧
      sec.store (entrySz * (k % (blkSz / entrySz)) + off) data = .ok sec' ∧
      cache' = cache.set (k / (blkSz / entrySz)) sec' := by
  unfold storeSlot at h
  split at h
  · cases h
  · next sec hsec =>
    obtain ⟨sec', hsec', h⟩ := of_bind_eq_ok h
    exact ⟨sec, sec', hsec, hsec', (Except.ok.inj h).symm⟩

theorem storeSlot_length (h : storeSlot cache k off data = .ok cache') :
    cache'.length = cache.length := by
  obtain ⟨sec, sec', -, -, rfl⟩ := storeSlot_eq_ok h
  exact length_set

theorem storeEntry_length (h : storeEntry cache k v = .ok cache') :
    cache'.length = cache.length := by
  obtain ⟨c₁, h₁, h⟩ := of_bind_eq_ok h
  obtain ⟨c₂, h₂, h⟩ := of_bind_eq_ok h
  obtain ⟨c₃, h₃, h⟩ := of_bind_eq_ok h
  obtain ⟨c₄, h₄, h⟩ := of_bind_eq_ok h
  obtain ⟨c₅, h₅, h⟩ := of_bind_eq_ok h
  obtain ⟨c₆, h₆, h⟩ := of_bind_eq_ok h
  obtain ⟨c₇, h₇, h⟩ := of_bind_eq_ok h
  rw [storeSlot_length h, storeSlot_length h₇, storeSlot_length h₆, storeSlot_length h₅,
    storeSlot_length h₄,
    storeSlot_length h₃, storeSlot_length h₂, storeSlot_length h₁]

theorem clusOfNext_cases {clus' : UInt32} (h : clusOfNext fs i clus = .ok clus') :
    ((i + 1) % fs.vol.secPerClus = 0 ∧ clus.toNat < fs.vol.fatEntries ∧ clus' = fs.fat clus &&& fatValMask) ∨
      ((i + 1) % fs.vol.secPerClus ≠ 0 ∧ clus' = clus) := by
  unfold clusOfNext at h
  split at h
  · next hmod =>
    cases hget : getFatEntry fs clus with
    | error e =>
      rw [hget] at h
      cases h
    | ok entry =>
      rw [hget] at h
      obtain ⟨hlt, rfl⟩ := getFatEntry_eq_ok hget
      exact .inl ⟨hmod, hlt, (Except.ok.inj h).symm⟩
  · next hmod => exact .inr ⟨hmod, (Except.ok.inj h).symm⟩

theorem findFreeEntry_fst (h : findFreeEntry fs secs i clus = .ok r) :
    r.map Prod.fst = ((dirSlots secs).findIdx? isFreeEntry).map (blkSz / entrySz * i + ·) := by
  induction secs generalizing i clus with
  | nil => rw [← Except.ok.inj h]; rfl
  | cons sec rest ih =>
    rw [dirSlots, flatMap_cons, findIdx?_append, length_slots]
    unfold findFreeEntry at h
    split at h
    · next j hj =>
      rw [← Except.ok.inj h, hj]
      rfl
    · next hnone =>
      obtain ⟨clus', -, h⟩ := of_bind_eq_ok h
      rw [hnone, none_or, ih h, Option.map_map, dirSlots]
      congr 1
      funext j
      simp only [Function.comp, blkSz, entrySz]
      omega

/-- The cursor is on the cluster of the sector, or behind the chain. -/
theorem findFreeEntry_snd {head c : UInt32} (h : findFreeEntry fs secs i clus = .ok (some (k, c)))
    (hend : fs.vol.endOfFile = endMark) (hchain : FatChain fs.vol fs.fat head clusters)
    (hclus : clusters[i / fs.vol.secPerClus]? = some clus ∨ clus = endMark) :
    clusters[k / (blkSz / entrySz) / fs.vol.secPerClus]? = some c ∨ c = endMark := by
  induction secs generalizing i clus with
  | nil => cases h
  | cons sec rest ih =>
    unfold findFreeEntry at h
    split at h
    · next j hj =>
      obtain ⟨rfl, rfl⟩ := Prod.mk.inj (some.inj (Except.ok.inj h))
      have hlt : j < blkSz / entrySz := by
        rw [← length_slots sec]
        exact (findIdx?_eq_some_iff_getElem.1 hj).1
      have hdiv : (blkSz / entrySz * i + j) / (blkSz / entrySz) = i := by
        simp only [blkSz, entrySz] at hlt ⊢
        omega
      rwa [hdiv]
    · obtain ⟨clus', hclus', h⟩ := of_bind_eq_ok h
      refine ih h ?_
      obtain ⟨hmod, hlt, rfl⟩ | ⟨hmod, rfl⟩ := clusOfNext_cases hclus'
      · have hdiv : (i + 1) / fs.vol.secPerClus = i / fs.vol.secPerClus + 1 :=
          Nat.succ_div_of_mod_eq_zero hmod
        rcases hclus with hclus | rfl
        · rw [hdiv, ← hchain.next hclus, fatNext]
          split
          · next heq =>
            right
            rw [heq, hend]
            decide
          · exact .inl rfl
        · have hmark : endMark.toNat = 0x0fffffff := by decide
          have hentries := fs.vol.fatEntries_lt
          omega
      · rw [Nat.succ_div_of_mod_ne_zero hmod]
        exact hclus

theorem moveLast_cases (h : moveLast fs cache k clus = .ok (fs', cache')) :
    (fs' = fs ∧ (isLast cache k = false ∧ cache' = cache ∨
      isLast cache k = true ∧ k % (blkSz / entrySz) + 1 ≠ blkSz / entrySz ∧
        storeSlot cache (k + 1) 0 [dirEntryLastAndUnused] = .ok cache')) ∨
    (isLast cache k = true ∧ k % (blkSz / entrySz) + 1 = blkSz / entrySz ∧
      (∃ t, linkFreeClus fs clus = .ok (t, fs')) ∧
      storeSlot (cache ++ [.zero]) (blkSz / entrySz * cache.length) 0 [dirEntryLastAndUnused] = .ok cache') := by
  unfold moveLast at h
  split at h
  · next hlast =>
    split at h
    · next hslot =>
      obtain ⟨⟨t, fs₁⟩, hlink, h⟩ := of_bind_eq_ok h
      obtain ⟨cache₁, hstore, h⟩ := of_bind_eq_ok h
      cases h
      exact .inr ⟨hlast, hslot, ⟨t, hlink⟩, hstore⟩
    · next hslot =>
      obtain ⟨cache₁, hstore, h⟩ := of_bind_eq_ok h
      cases h
      exact .inl ⟨rfl, .inr ⟨hlast, hslot, hstore⟩⟩
  · next hlast =>
    cases h
    exact .inl ⟨rfl, .inl ⟨eq_false_of_ne_true hlast, rfl⟩⟩

/-- The position of the entry `fat32_reg_to_dir_entry` takes. -/
def firstFree (secs : List Sector) : Option ℕ := (dirSlots secs).findIdx? isFreeEntry

/-- What `fat32_reg_to_dir_entry` makes of a volume when it registers `v` in the directory `p` with
the sectors `secs` and the given chain. -/
inductive Registers (fs : Fs) (parent : ℕ) (p v : Vnode) (secs : List Sector) (clusters : List UInt32) : Fs → Prop
  /-- There is no place. -/
  | full : firstFree secs = none →
      Registers fs parent p v secs clusters (fs.setNode parent { p with contentCache := secs, dirty := true })
  /-- The end of the directory stays in its sector. -/
  | taken {k : ℕ} {cache cache' : List Sector} : firstFree secs = some k →
      (isLast secs k = false ∧ cache = secs ∨
        isLast secs k = true ∧ k % (blkSz / entrySz) + 1 ≠ blkSz / entrySz ∧
          storeSlot secs (k + 1) 0 [dirEntryLastAndUnused] = .ok cache) →
      storeEntry cache k v = .ok cache' →
      Registers fs parent p v secs clusters (fs.setNode parent { p with contentCache := cache' })
  /-- The end of the directory gets a new sector and a new cluster. -/
  | grown {k : ℕ} {clus t : UInt32} {cache cache' : List Sector} : firstFree secs = some k →
      isLast secs k = true → k % (blkSz / entrySz) + 1 = blkSz / entrySz →
      clusters[k / (blkSz / entrySz) / fs.vol.secPerClus]? = some clus →
      fs.fat t = fatEntryFree → t.toNat < fs.vol.fatEntries →
      storeSlot (secs ++ [.zero]) (blkSz / entrySz * secs.length) 0 [dirEntryLastAndUnused] = .ok cache →
      storeEntry cache k v = .ok cache' →
      Registers fs parent p v secs clusters
        ({ fs with fat := linked fs.vol fs.fat clus t }.setNode parent { p with contentCache := cache' })

theorem findFreeEntry_firstFree (h : findFreeEntry fs secs 0 clus = .ok r) :
    firstFree secs = r.map Prod.fst := by
  rw [findFreeEntry_fst h, firstFree]
  simp

theorem regToDirEntry_eq_ok {parent : ℕ} {p : Vnode} (hv : fs.nodes[i]? = some v)
    (hparent : v.parent = some parent) (hp : fs.nodes[parent]? = some p)
    (hend : fs.vol.endOfFile = endMark) (hchain : FatChain fs.vol fs.fat p.clusIdx clusters)
    (h : regToDirEntry fs i = .ok fs') :
    ∃ secs, contentOf fs p true = .ok secs ∧ Registers fs parent p v secs clusters fs' := by
  rw [regToDirEntry, Fs.node_of_getElem? hv, ok_bind] at h
  simp only [hparent] at h
  obtain ⟨fs₁, hload, h⟩ := of_bind_eq_ok h
  obtain ⟨p', secs, hp', hsecs, rfl⟩ := loadIf_eq_ok hload
  obtain rfl := mem_unique hp hp'
  rw [Fs.node_of_getElem? (Fs.getElem?_setNode_self hp), ok_bind] at h
  obtain ⟨r, hfind, h⟩ := of_bind_eq_ok h
  refine ⟨secs, hsecs, ?_⟩
  have hfree := findFreeEntry_firstFree hfind
  cases r with
  | none =>
    rw [← Except.ok.inj h, Fs.setNode_setNode]
    exact .full hfree
  | some r =>
    obtain ⟨k, clus⟩ := r
    obtain ⟨⟨fs₂, cache⟩, hmove, h⟩ := of_bind_eq_ok h
    obtain ⟨cache', hstore, h⟩ := of_bind_eq_ok h
    rw [← Except.ok.inj h]
    rcases moveLast_cases hmove with ⟨rfl, hplace⟩ | ⟨hlast, hslot, ⟨t, hlink⟩, hnew⟩
    · rw [Fs.setNode_setNode]
      exact .taken hfree hplace hstore
    · obtain ⟨hlt, hlinked⟩ := linkFreeClus_eq_ok hlink
      have hhead : clusters[0 / fs.vol.secPerClus]? = some p.clusIdx := by
        rw [Nat.zero_div]
        exact hchain.getElem?_zero
      have hclus : clusters[k / (blkSz / entrySz) / fs.vol.secPerClus]? = some clus := by
        rcases findFreeEntry_snd hfind hend hchain (.inl hhead) with hclus | rfl
        · exact hclus
        · have hmark : endMark.toNat = 0x0fffffff := by decide
          have hentries := fs.vol.fatEntries_lt
          rw [Fs.setNode_vol] at hlt
          omega
      obtain ⟨ht, hfree', rfl⟩ := hlinked (hchain.ne_free hend (mem_of_getElem? hclus))
      change Registers fs parent p v secs clusters
        (({ fs with fat := linked fs.vol fs.fat clus t }.setNode parent
          { p with contentCache := secs }).setNode parent { p with contentCache := cache' })
      rw [Fs.setNode_setNode]
      exact .grown hfree hlast hslot hclus hfree' ht hnew hstore

/-! ## New vnodes -/

/-- The vnode that `fat32_create` and `fat32_mkdir` set up. -/
def newNode (dir : ℕ) (type : FileType) (name : List UInt8) (t : UInt32) (cache : List Sector) : Vnode :=
  ⟨some dir, type, name, 0, [], t, true, cache⟩

/-- The volume with the new vnode, before it is registered. -/
def withNode (fs : Fs) (dir : ℕ) (d v : Vnode) : Fs :=
  { fs with
    fat := claimed fs.vol fs.fat v.clusIdx
    nodes := fs.nodes.set dir { d with children := d.children ++ [fs.nodes.length] } ++ [v] }

theorem addNode_eq_ok (h : addNode fs dir type name cache = .ok fs') :
    ∃ d t, fs.nodes[dir]? = some d ∧ fs.fat t = fatEntryFree ∧ t.toNat < fs.vol.fatEntries ∧
      fs' = withNode fs dir d (newNode dir type name t cache) := by
  obtain ⟨d, hd, h⟩ := of_bind_eq_ok h
  obtain ⟨fs₁, hset, h⟩ := of_bind_eq_ok h
  obtain ⟨hlt, rfl⟩ := setFatEntry_eq_ok hset
  have hfree := fat_getFreeClusIdx hlt
  refine ⟨d, getFreeClusIdx fs, Fs.node_eq_ok hd, hfree, hlt, ?_⟩
  rw [← Except.ok.inj h]
  dsimp only [Fs.setNode_fat]
  rw [hfree, set_free]
  rfl

/-- The directory with the new vnode among its children. -/
def withChild (fs : Fs) (d : Vnode) : Vnode := { d with children := d.children ++ [fs.nodes.length] }

theorem withNode_getElem?_dir {d : Vnode} (hd : fs.nodes[dir]? = some d) :
    (withNode fs dir d v).nodes[dir]? = some (withChild fs d) := by
  have hlt : dir < fs.nodes.length := (List.getElem?_eq_some_iff.1 hd).1
  rw [withNode, getElem?_append_left (by rwa [length_set]), getElem?_set_self hlt]
  rfl

/-- What `fat32_create` and `fat32_mkdir` do: a new vnode with a free cluster, which is registered
in the directory. -/
inductive Creates (fs : Fs) (dir : ℕ) (v : Vnode) (fs' : Fs) : Prop
  | intro {d : Vnode} {secs : List Sector} {clusters : List UInt32} (hd : fs.nodes[dir]? = some d)
      (hfree : fs.fat v.clusIdx = fatEntryFree) (hlt : v.clusIdx.toNat < fs.vol.fatEntries)
      (hchain : FatChain fs.vol fs.fat d.clusIdx clusters)
      (hsecs : contentOf (withNode fs dir d v) (withChild fs d) true = .ok secs)
      (hreg : Registers (withNode fs dir d v) dir (withChild fs d) v secs clusters fs')

section

variable (hok : fs.ChainsOk)
include hok

theorem Creates.of_steps {fs₁ : Fs} (hadd : addNode fs dir type name cache = .ok fs₁)
    (hreg : regToDirEntry fs₁ fs.nodes.length = .ok fs') :
    ∃ t, Creates fs dir (newNode dir type name t cache) fs' := by
  obtain ⟨d, t, hd, hfree, hlt, rfl⟩ := addNode_eq_ok hadd
  obtain ⟨clusters, hchain⟩ := hok.chain d.clusIdx (mem_map_of_mem (mem_of_getElem? hd))
  have hdir : dir < fs.nodes.length := (List.getElem?_eq_some_iff.1 hd).1
  have hnew : (withNode fs dir d (newNode dir type name t cache)).nodes[fs.nodes.length]? =
      some (newNode dir type name t cache) := by
    rw [withNode, getElem?_append_right (by rw [length_set]), length_set, Nat.sub_self]
    rfl
  obtain ⟨secs, hsecs, hregs⟩ := regToDirEntry_eq_ok hnew rfl
    (withNode_getElem?_dir hd) hok.endOfFile
    (hchain.claimed (hok.notMem_of_free hchain hfree)) hreg
  exact ⟨t, hd, hfree, hlt, hchain, hsecs, hregs⟩

theorem fat32Create_creates (h : fat32Create fs dir name type = .ok fs') :
    ∃ t, Creates fs dir (newNode dir type name t []) fs' := by
  obtain ⟨fs₁, hadd, hreg⟩ := of_bind_eq_ok h
  exact Creates.of_steps hok hadd hreg

theorem fat32Mkdir_creates (h : fat32Mkdir fs dir name = .ok fs') :
    ∃ t cache, dotEntries = .ok cache ∧ Creates fs dir (newNode dir .dir name t cache) fs' := by
  obtain ⟨cache, hcache, h⟩ := of_bind_eq_ok h
  obtain ⟨fs₁, hadd, hreg⟩ := of_bind_eq_ok h
  obtain ⟨t, hcreates⟩ := Creates.of_steps hok hadd hreg
  exact ⟨t, cache, hcache, hcreates⟩

end

/-! ## The chains -/

section Chains

variable {fs fs' : Fs} {dir : ℕ} {d v p : Vnode} {secs : List Sector} {clusters : List UInt32}

theorem withNode_heads (hd : fs.nodes[dir]? = some d) : (withNode fs dir d v).heads = fs.heads ++ [v.clusIdx] := by
  have hset : (fs.setNode dir (withChild fs d)).heads = fs.heads := Fs.heads_setNode hd rfl
  rw [← hset]
  exact map_append

section

variable (h : Registers fs dir p v secs clusters fs')
include h

theorem Registers.vol_eq : fs'.vol = fs.vol := by
  cases h <;> rfl

theorem Registers.heads_eq (hp : fs.nodes[dir]? = some p) : fs'.heads = fs.heads := by
  cases h with
  | full | taken => exact Fs.heads_setNode hp rfl
  | @grown k clus t cache cache' =>
    have hset : (fs.setNode dir { p with contentCache := cache' }).heads = fs.heads :=
      Fs.heads_setNode hp rfl
    exact hset

theorem Registers.chainsOk (hp : fs.nodes[dir]? = some p)
    (hchain : FatChain fs.vol fs.fat p.clusIdx clusters) (hok : fs.ChainsOk) :
    fs'.ChainsOk := by
  rw [Fs.ChainsOk, h.heads_eq hp, h.vol_eq]
  cases h with
  | full | taken => exact hok
  | grown _ _ _ hclus hfree hlt =>
    refine hok.link ⟨⟨p.clusIdx, ?_, clusters, hchain, mem_of_getElem? hclus⟩, hfree, hlt⟩
    exact mem_map_of_mem (mem_of_getElem? hp)

end

theorem Creates.chainsOk (h : Creates fs dir v fs') (hok : fs.ChainsOk) : fs'.ChainsOk := by
  obtain ⟨hd, hfree, hlt, hchain, -, hreg⟩ := h
  have hclaimed := hok.claim hfree hlt
  refine hreg.chainsOk (withNode_getElem?_dir hd)
    (hchain.claimed (hok.notMem_of_free hchain hfree)) ?_
  rw [Fs.ChainsOk, withNode_heads hd]
  exact hclaimed

theorem Creates.vol_eq (h : Creates fs dir v fs') : fs'.vol = fs.vol := by
  obtain ⟨-, -, -, -, -, hreg⟩ := h
  exact hreg.vol_eq

theorem Creates.heads_eq (h : Creates fs dir v fs') : fs'.heads = fs.heads ++ [v.clusIdx] := by
  obtain ⟨hd, -, -, -, -, hreg⟩ := h
  rw [hreg.heads_eq (withNode_getElem?_dir hd), withNode_heads hd]

end Chains

end CapstoneKernel.Fat32
