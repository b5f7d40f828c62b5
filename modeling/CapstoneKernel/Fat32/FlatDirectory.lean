import CapstoneKernel.Fat32.Mounting

/-!
# The scan of one directory

`fat32_parse_sd_recursive` on a directory without subdirectories.  Such a directory may also fill
its chain, and then no entry says that it has ended: the scan goes on with the number that ends the
chain in the table.
-/

namespace CapstoneKernel.Fat32

open LinkedChain Execution List

/-- A directory without subdirectories.  Behind its entries there is either an entry that begins
with a zero, or nothing. -/
structure FlatDir (fs : Fs) (clus : UInt32) (clusters : List UInt32) (nodes : List Node)
    (tail : List (List UInt8)) : Prop where
  chain : ValidChain fs.vol fs.fat clus clusters
  slots : clusters.flatMap (clusterSlots fs.vol fs.disk) = nodes.flatMap Node.entries ++ tail
  ends : ∀ last ∈ tail.head?, isEnd last = true
  valid : ∀ node ∈ nodes, node.Valid
  flat : ∀ it content, Node.dir it content ∉ nodes

/-- The cluster that the parser reads after the given one, if it makes no calls. -/
def scanNext (fs : Fs) (clus : UInt32) : Option UInt32 :=
  if (clusterSlots fs.vol fs.disk clus).any isEnd then none else parseNext fs.fat clus

/-- The scan reads clusters of the chain only, ends, and adds one vnode for each short entry in use,
in order, with its first cluster and size. -/
structure ScansDir (fs : Fs) (parent : ℕ) (clus : UInt32) (clusters : List UInt32)
    (nodes : List Node) : Prop where
  reads : ∀ n, ∀ c ∈ visits (scanNext fs) n (some clus), c ∈ clusters
  adds : ∃ fuel vs, parseSdRecursive fuel fs parent clus [] = .ok (fs.addAll parent vs) ∧
    vs.map (fun v ↦ (v.type, v.clusIdx, v.fileSize)) = (nodes.filter Node.isStored).map fun node ↦
        (.file, dirFstClus node.item.short, (dirFileSize node.item.short).toNat)

/-! ## The clusters that are read -/

section Reads

variable {fs : Fs} {clus : UInt32} {clusters : List UInt32}

/-- Without calls, the parser goes over the entries of the clusters that the walk visits. -/
theorem parseSdRecursive_visits {fs' : Fs} {fuel parent : ℕ} {lfn : List UInt8}
    (hflat : ∀ d ∈ (visits (scanNext fs) fuel (some clus)).flatMap (clusterSlots fs.vol fs.disk),
      ¬IsDirEntry d) (h : parseSdRecursive fuel fs parent clus lfn = .ok fs') :
    ∃ lfn', parseSlots noReturn parent
      ((visits (scanNext fs) fuel (some clus)).flatMap (clusterSlots fs.vol fs.disk)) fs lfn =
        .ok (fs', lfn', true) := by
  induction fuel generalizing fs clus lfn with
  | zero => cases h
  | succ fuel ih =>
    rw [visits, flatMap_cons] at hflat ⊢
    rw [parseSdRecursive_succ, parseSlots_noReturn fun d hd hdir ↦ absurd hdir
      (hflat d (mem_append_left _ ((List.takeWhile_prefix _).subset hd)))] at h
    obtain ⟨⟨fs₁, lfn₁, done⟩, hslots, h⟩ := of_bind_eq_ok h
    have hdone := parseSlots_done hslots
    rw [parseSlots_append, hslots, ok_bind]
    cases done with
    | true =>
      cases h
      exact ⟨lfn₁, rfl⟩
    | false =>
      obtain ⟨entry, hentry, h⟩ := of_bind_eq_ok h
      obtain ⟨nodes, rfl⟩ : ∃ nodes, fs₁ = { fs with nodes := nodes } :=
        ⟨_, parseSlots_volume hslots⟩
      obtain ⟨-, rfl⟩ := getFatEntry_eq_ok hentry
      rw [scanNext, ← hdone, if_neg Bool.false_ne_true] at hflat ⊢
      exact @ih { fs with nodes := nodes } _ _ (fun d hd ↦ hflat d (mem_append_right _ hd)) h

/-- The walk stays on the chain if some entry ends the directory. -/
theorem mem_of_mem_visits (hchain : Chain (chainNext fs.fat) (some clus) clusters)
    (hend : (clusters.flatMap (clusterSlots fs.vol fs.disk)).any isEnd = true) (n : ℕ) {c : UInt32}
    (hc : c ∈ visits (scanNext fs) n (some clus)) : c ∈ clusters := by
  induction clusters generalizing clus n with
  | nil => cases hchain
  | cons d clusters ih =>
    obtain ⟨hhead, hchain⟩ := hchain
    cases hhead
    cases n with
    | zero => cases hc
    | succ n =>
      rcases mem_cons.1 hc with rfl | hc
      · exact mem_cons_self
      · rw [flatMap_cons, any_append] at hend
        rw [scanNext] at hc
        split at hc
        · cases n <;> cases hc
        · next hslots =>
          rw [eq_false_of_ne_true hslots, Bool.false_or] at hend
          cases clusters with
          | nil => cases hend
          | cons next clusters =>
            rw [parseNext, chainNext_eq_some hchain.1] at hc
            exact mem_cons_of_mem _ (ih (hchain.1 ▸ hchain) hend n hc)

/-- If no entry ends the directory, the walk goes on with the mark at the end of the chain. -/
theorem exists_mark_mem_visits (hchain : Chain (chainNext fs.fat) (some clus) clusters)
    (hend : (clusters.flatMap (clusterSlots fs.vol fs.disk)).any isEnd = false) :
    ∃ c ∈ visits (scanNext fs) (clusters.length + 1) (some clus), firstEndMark ≤ c := by
  induction clusters generalizing clus with
  | nil => cases hchain
  | cons d clusters ih =>
    obtain ⟨hhead, hchain⟩ := hchain
    cases hhead
    rw [flatMap_cons, any_append, Bool.or_eq_false_iff] at hend
    have hvisits (n : ℕ) : visits (scanNext fs) (n + 1) (some d) =
        d :: visits (scanNext fs) n (some (fs.fat d &&& fatValMask)) := by
      rw [visits, scanNext, hend.1, if_neg Bool.false_ne_true, parseNext]
    rw [length_cons, hvisits]
    cases clusters with
    | nil => exact ⟨_, mem_cons_of_mem _ mem_cons_self, ite_none_some_eq_none.1 hchain⟩
    | cons next clusters =>
      rw [chainNext_eq_some hchain.1]
      obtain ⟨c, hc, hmark⟩ := ih (hchain.1 ▸ hchain) hend.2
      exact ⟨c, mem_cons_of_mem _ hc, hmark⟩

theorem ValidChain.lt_mark {vol : Volume} {fat : UInt32 → UInt32}
    (h : ValidChain vol fat clus clusters) {c : UInt32} (hc : c ∈ clusters) : c < firstEndMark := by
  have hlt := (h.inRange c hc).2
  have hfat := vol.fatSz32_lt
  unfold Volume.fatEntries blkSz at hlt
  rw [UInt32.lt_iff_toNat_lt, show firstEndMark.toNat = 0x0ffffff8 from rfl]
  omega

end Reads

/-! ## The vnodes that are added -/

theorem addAll_map {α : Type} (f : Vnode → α) (hf : ∀ v c, f { v with children := c } = f v)
    (fs : Fs) (parent : ℕ) (vs : List Vnode) :
    (fs.addAll parent vs).nodes.map f = fs.nodes.map f ++ vs.map f := by
  induction vs generalizing fs with
  | nil => exact (append_nil _).symm
  | cons v vs ih =>
    have hmodify : (fs.nodes.modify parent fun p ↦
        { p with children := p.children ++ [fs.nodes.length] }).map f = fs.nodes.map f := by
      refine ext_getElem? fun j ↦ ?_
      rw [getElem?_map, getElem?_modify, getElem?_map]
      cases fs.nodes[j]? with
      | none => rfl
      | some w =>
        split
        · exact congrArg some (hf w _)
        · rfl
    refine (ih (fs.addParsed parent v)).trans ?_
    rw [Fs.addParsed, map_append, hmodify, append_assoc]
    rfl

/-! ## The scan -/

section Scan

variable {fs : Fs} {parent : ℕ} {clus : UInt32} {clusters : List UInt32} {nodes : List Node}
  {tail rest : List (List UInt8)} {last : List UInt8}

theorem FlatDir.any_isEnd (h : FlatDir fs clus clusters nodes tail) :
    (clusters.flatMap (clusterSlots fs.vol fs.disk)).any isEnd = !tail.isEmpty := by
  have hnodes : (nodes.flatMap Node.entries).any isEnd = false := by
    rw [any_eq_false]
    intro d hd
    obtain ⟨node, hnode, hd⟩ := mem_flatMap.1 hd
    rw [(h.valid node hnode).isEnd_eq_false hd]
    exact Bool.false_ne_true
  rw [h.slots, any_append, hnodes, Bool.false_or]
  cases tail with
  | nil => rfl
  | cons last rest => rw [any_cons, h.ends last rfl]; rfl

theorem FlatDir.not_isDirEntry (h : FlatDir fs clus clusters nodes tail) {node : Node}
    (hnode : node ∈ nodes) (hstored : node.isStored = true) : ¬IsDirEntry node.item.short := by
  intro hdir
  obtain ⟨-, -, hentries⟩ := (h.valid node hnode).exists_item hstored
  obtain ⟨it, content, rfl, -⟩ := (h.valid node hnode).exists_dir
    (hentries ▸ mem_append_right _ mem_cons_self) hdir
  exact h.flat it content hnode

section

variable (h : FlatDir fs clus clusters nodes (last :: rest))
include h

theorem FlatDir.parse_iff {fs' : Fs} :
    (∃ fuel, parseSdRecursive fuel fs parent clus [] = .ok fs') ↔
      ∃ lfn', parseSlots noReturn parent (nodes.flatMap Node.entries ++ last :: rest) fs [] =
        .ok (fs', lfn', true) := by
  have hsub (it content) (hdir : Node.dir it content ∈ nodes) :
      Stores fs (some clus) (dirFstClus it.short) content :=
    absurd hdir (h.flat it content)
  have hlast := h.ends last rfl
  exact parse_ok_iff h.chain h.slots hlast (calls_diverge hlast h.valid hsub)

/-- If there is a vnode for every short entry in use, all of these have been seen. -/
theorem FlatDir.of_parse {fuel : ℕ} {vs : List Vnode}
    (hparse : parseSdRecursive fuel fs parent clus [] = .ok (fs.addAll parent vs))
    (hlen : vs.length = (nodes.filter Node.isStored).length) :
    (∀ node ∈ nodes, node.isStored = true → dirName node.item.short 0 ≠ dirEntryUnusedJp) ∧
      NamesFit nodes ∧
      vs.map (·.name) = (nodes.filter Node.isStored).map fun node ↦ node.item.parsedName := by
  obtain ⟨lfn', hslots⟩ := h.parse_iff.1 ⟨fuel, hparse⟩
  obtain ⟨ws, lfn₁, hparsed, hslots'⟩ := parseSlots_nodes_eq_ok h.valid hslots
  rw [parseSlots_end (h.ends last rfl)] at hslots'
  have hadded := congrArg Fs.nodes (Prod.mk.inj (Except.ok.inj hslots')).1
  have hnames := congrArg (List.map Vnode.name) hadded
  rw [addAll_map _ (fun _ _ ↦ rfl), addAll_map _ (fun _ _ ↦ rfl), append_cancel_left_eq] at hnames
  have hlength := congrArg List.length hnames
  rw [length_map, length_map, hlen] at hlength
  obtain ⟨hjp, rfl⟩ := hparsed.eq_map rfl hlength
  refine ⟨hjp, ?_, ?_⟩
  · rw [parseSlots_nodes h.valid fun node hnode hstored ↦
      ⟨h.not_isDirEntry hnode hstored, hjp node hnode hstored⟩] at hslots
    split at hslots
    · assumption
    · cases hslots
  · rw [← hnames, map_map]
    rfl

theorem FlatDir.parse_of_seen
    (hjp : ∀ node ∈ nodes, node.isStored = true → dirName node.item.short 0 ≠ dirEntryUnusedJp)
    (hfit : NamesFit nodes) : ∃ fuel, parseSdRecursive fuel fs parent clus [] =
      .ok (fs.addAll parent ((nodes.filter Node.isStored).map (Node.parsed parent))) := by
  refine h.parse_iff.2 ⟨[], ?_⟩
  rw [parseSlots_nodes h.valid fun node hnode hstored ↦
    ⟨h.not_isDirEntry hnode hstored, hjp node hnode hstored⟩, if_pos hfit,
    parseSlots_end (h.ends last rfl)]

end

end Scan

/-- The scan of a directory without subdirectories is right exactly if the directory does not fill
its chain, no short entry in use begins with the byte that stands for `0xe5`, and the bytes of every
long name have a place in `lfn_name`. -/
theorem directory_scan_iff {fs : Fs} {clus : UInt32} {clusters : List UInt32} {nodes : List Node}
    {tail : List (List UInt8)} (parent : ℕ) (h : FlatDir fs clus clusters nodes tail) :
    ScansDir fs parent clus clusters nodes ↔ tail ≠ [] ∧ NamesFit nodes ∧
      ∀ node ∈ nodes, node.isStored = true → dirName node.item.short 0 ≠ dirEntryUnusedJp := by
  constructor
  · rintro ⟨hreads, fuel, vs, hparse, hmap⟩
    have hlen := congrArg List.length hmap
    rw [length_map, length_map] at hlen
    cases tail with
    | nil =>
      obtain ⟨c, hc, hmark⟩ := exists_mark_mem_visits h.chain.chain h.any_isEnd
      exact absurd (h.chain.lt_mark (hreads _ c hc)) (UInt32.not_lt.2 hmark)
    | cons last rest =>
      obtain ⟨hjp, hfit, -⟩ := h.of_parse hparse hlen
      exact ⟨cons_ne_nil _ _, hfit, hjp⟩
  · rintro ⟨htail, hfit, hjp⟩
    obtain ⟨last, rest, rfl⟩ := exists_cons_of_ne_nil htail
    obtain ⟨fuel, hparse⟩ := h.parse_of_seen hjp hfit
    refine ⟨fun n c hc ↦ mem_of_mem_visits h.chain.chain h.any_isEnd n hc, fuel, _, hparse, ?_⟩
    rw [map_map]
    rfl

/-- A directory of one cluster with one file and deleted entries. -/
def scannedVolume (deleted : ℕ) : Fs :=
  volumeOf [sectorOf (textEntry ++ (List.replicate deleted (229 :: List.replicate 31 0)).flatten)]

def scannedNodes (deleted : ℕ) : List Node :=
  .file ⟨[], textEntry⟩ :: List.replicate deleted (.unused (229 :: List.replicate 31 0))

theorem scannedNodes_valid (deleted : ℕ) : ∀ node ∈ scannedNodes deleted, node.Valid := by
  refine forall_mem_cons.2 ⟨textEntry_valid, fun node hnode ↦ ?_⟩
  rw [eq_of_mem_replicate hnode]
  rfl

theorem scannedNodes_flat (deleted : ℕ) (it : Item) (content : List Node) :
    Node.dir it content ∉ scannedNodes deleted := by
  intro hmem
  rcases mem_cons.1 hmem with heq | hmem
  · cases heq
  · cases eq_of_mem_replicate hmem

/-- One file, two deleted entries, and zeros. -/
theorem directory_scan_iff_text : ScansDir (scannedVolume 2) 0 2 [2] (scannedNodes 2) := by
  have hdir : FlatDir (scannedVolume 2) 2 [2] (scannedNodes 2)
      (List.replicate 13 (List.replicate 32 0)) :=
    ⟨by decide +kernel, by decide +kernel, by decide, scannedNodes_valid 2, scannedNodes_flat 2⟩
  refine (directory_scan_iff 0 hdir).2 ⟨by decide, by decide, fun node hnode hstored ↦ ?_⟩
  rcases mem_cons.1 hnode with rfl | hmem
  · decide
  · rw [eq_of_mem_replicate hmem] at hstored
    cases hstored

/-- A file and fifteen deleted entries fill the cluster, and the scan reads on behind it. -/
theorem full_directory_overrun :
    FlatDir (scannedVolume 15) 2 [2] (scannedNodes 15) [] ∧
      visits (scanNext (scannedVolume 15)) 2 (some 2) = [2, 0x0fffffff] ∧
      ∀ parent, ¬ScansDir (scannedVolume 15) parent 2 [2] (scannedNodes 15) := by
  have hvisits : visits (scanNext (scannedVolume 15)) 2 (some 2) = [2, 0x0fffffff] := by
    decide +kernel
  refine ⟨⟨by decide +kernel, by decide +kernel, nofun, scannedNodes_valid 15,
    scannedNodes_flat 15⟩, hvisits, fun parent hscan ↦ ?_⟩
  have hmem := hscan.reads 2 0x0fffffff (hvisits ▸ by decide)
  exact absurd hmem (by decide)

/-! ## Long names -/

/-- The parser returns, and the vnodes have the names that are stored. -/
def NamesDir (fs : Fs) (parent : ℕ) (clus : UInt32) (nodes : List Node) : Prop :=
  ∃ fuel vs, parseSdRecursive fuel fs parent clus [] = .ok (fs.addAll parent vs) ∧
    vs.map (fun v ↦ v.name.map UInt8.toNat) =
      (nodes.filter Node.isStored).map fun node ↦ node.item.name

section Names

variable {fs : Fs} {parent : ℕ} {clus : UInt32} {clusters : List UInt32} {nodes : List Node}
  {rest : List (List UInt8)} {last : List UInt8} {it : Item}

theorem FlatDir.namesDir_of_plain (h : FlatDir fs clus clusters nodes (last :: rest))
    (hplain : ∀ node ∈ nodes, node.Plain) : NamesDir fs parent clus nodes := by
  have hseen := fun node hnode ↦ (h.valid node hnode).of_plain (hplain node hnode)
  obtain ⟨fuel, hparse⟩ := h.parse_of_seen (fun node hnode hstored ↦ ((hseen node hnode).2 hstored).2)
    fun node hnode ↦ (hseen node hnode).1
  refine ⟨fuel, _, hparse, ?_⟩
  rw [map_map]
  refine map_congr_left fun node hnode ↦ ?_
  obtain ⟨hnode, hstored⟩ := mem_filter.1 hnode
  have hjp := ((hseen node hnode).2 hstored).2
  cases node with
  | unused d | label d => cases hstored
  | file it =>
    have hit : it.Valid .file := h.valid _ hnode
    exact ((hit.namedBy_iff hjp).2 (hplain _ hnode).2).1
  | dir it content => exact absurd hnode (h.flat it content)

/-- A long name in ASCII comes out right only if it has at most five entries. -/
theorem FlatDir.length_le_of_namesDir (h : FlatDir fs clus clusters nodes (last :: rest))
    (hit : .file it ∈ nodes) (hlong : it.long ≠ []) (hascii : ∀ u ∈ it.name, u < 0x80)
    (hnames : NamesDir fs parent clus nodes) :
    it.long.length ≤ 5 ∧ dirName it.short 0 ≠ dirEntryUnusedJp := by
  obtain ⟨fuel, vs, hparse, hmap⟩ := hnames
  have hlen := congrArg List.length hmap
  rw [length_map, length_map] at hlen
  obtain ⟨hjp, -, hparsed⟩ := h.of_parse hparse hlen
  have hjp : dirName it.short 0 ≠ dirEntryUnusedJp := hjp _ hit rfl
  have hparsed := congrArg (List.map (List.map UInt8.toNat)) hparsed
  rw [map_map, map_map] at hparsed
  have hname : it.parsedName.map UInt8.toNat = it.name :=
    map_inj_left.1 (hparsed.symm.trans hmap) (.file it) (mem_filter.2 ⟨hit, rfl⟩)
  have hvalid : it.Valid .file := h.valid _ hit
  have hplain := (hvalid.namedBy_iff hjp).1 ⟨hname, fun _ b hb ↦
    UInt8.lt_iff_toNat_lt.2 (hascii _ (hname ▸ mem_map_of_mem hb))⟩
  rw [if_neg hlong] at hplain
  exact ⟨hplain.1, hjp⟩

/-- The bytes of a long name in ASCII have a place in `lfn_name`. -/
theorem Item.Valid.keptLong_fits {type : FileType} (h : it.Valid type)
    (hascii : ∀ u ∈ it.name, u < 0x80) (hname : it.name.length ≤ 255) :
    it.keptLong.length ≤ lfnNameLen - 1 := by
  rcases Nat.lt_or_ge 5 it.long.length with hlt | hle
  · have hless := h.length_keptLong_lt hlt hascii
    unfold lfnNameLen
    omega
  · exact Item.length_keptLong_le hle

end Names

/-- Among files that are read right, a file with a long name in ASCII gets its name, and leaves the
buffer clean for the next one, exactly if the name has at most five entries, that is 65 characters,
and if its short entry does not begin with the byte that stands for `0xe5`.  Apart from the latter
no name of up to 255 characters makes the parser write outside of the buffer. -/
theorem long_name_decoded_iff {fs : Fs} {clus : UInt32} {clusters : List UInt32}
    {front back : List Node} {rest : List (List UInt8)} {last : List UInt8} {it : Item} (parent : ℕ)
    (h : FlatDir fs clus clusters (front ++ .file it :: back) (last :: rest))
    (hplain : ∀ node ∈ front ++ back, node.Plain) (hlong : it.long ≠ [])
    (hascii : ∀ u ∈ it.name, u < 0x80) (hname : it.name.length ≤ 255) :
    (NamesDir fs parent clus (front ++ .file it :: back) ↔
      it.long.length ≤ 5 ∧ dirName it.short 0 ≠ dirEntryUnusedJp) ∧
    (dirName it.short 0 ≠ dirEntryUnusedJp →
      ∃ fuel fs', parseSdRecursive fuel fs parent clus [] = .ok fs') := by
  have hmem : Node.file it ∈ front ++ .file it :: back :=
    mem_append_right _ mem_cons_self
  have hcases {P : Node → Prop} (hit : P (.file it)) (hothers : ∀ node ∈ front ++ back, P node) :
      ∀ node ∈ front ++ .file it :: back, P node := by
    simp only [mem_append, mem_cons] at hothers ⊢
    rintro node (hnode | rfl | hnode)
    · exact hothers node (.inl hnode)
    · exact hit
    · exact hothers node (.inr hnode)
  have hvalid : it.Valid .file := h.valid _ hmem
  refine ⟨⟨h.length_le_of_namesDir hmem hlong hascii, fun ⟨hle, hjp⟩ ↦ ?_⟩, fun hjp ↦ ?_⟩
  · refine h.namesDir_of_plain (hcases ⟨hjp, ?_⟩ hplain)
    rw [if_neg hlong]
    exact ⟨hle, hascii⟩
  · have hall := hcases (P := fun node ↦ node.Valid → node.item.keptLong.length ≤ lfnNameLen - 1 ∧
        (node.isStored = true → dirName node.item.short 0 ≠ dirEntryUnusedJp))
      (fun _ ↦ ⟨hvalid.keptLong_fits hascii hname, fun _ ↦ hjp⟩) fun node hnode hv ↦
        (hv.of_plain (hplain node hnode)).imp_right fun hseen hstored ↦ (hseen hstored).2
    obtain ⟨fuel, hparse⟩ := h.parse_of_seen
      (fun node hnode ↦ (hall node hnode (h.valid node hnode)).2)
      fun node hnode ↦ (hall node hnode (h.valid node hnode)).1
    exact ⟨fuel, _, hparse⟩

/-- The entry with the given number of the long name of `A.TXT`, with the bytes of its thirteen
characters. -/
def longEntry (ord : UInt8) (chars : List UInt8) : List UInt8 :=
  ord :: chars.take 10 ++ [attrLongName, 0, chkSum (textEntry.take 11)] ++ (chars.drop 10).take 12 ++
    [0, 0] ++ chars.drop 22

/-- A file whose long name is the letter `a`, thirteen times in each entry but the last one, and
there once. -/
def longItem (count : ℕ) : Item where
  long := longEntry (UInt8.ofNat count ||| 0x40) ([97, 0, 0, 0] ++ List.replicate 22 0xff) ::
    (List.range (count - 1)).reverse.map fun k ↦
      longEntry (UInt8.ofNat (k + 1)) (List.replicate 13 [97, 0]).flatten
  short := textEntry

theorem longItem_valid {count : ℕ} (h : count = 3 ∨ count = 6) : (longItem count).Valid .file where
  length_eq := rfl
  used := textEntry_valid.used
  chars := textEntry_valid.chars
  attr := textEntry_valid.attr
  type := textEntry_valid.type
  count := by rcases h with rfl | rfl <;> decide
  long := by rcases h with rfl | rfl <;> decide +kernel
  ord k d hd := by
    have hord : ∀ k < count, dirName ((longItem count).long.getD k []) 0 = (longItem count).ord k := by
      rcases h with rfl | rfl <;> decide +kernel
    have hlength : (longItem count).long.length = count := by rcases h with rfl | rfl <;> rfl
    have hk := hord k (hlength ▸ (List.getElem?_eq_some_iff.1 hd).1)
    rwa [getD_eq_getElem?_getD, hd] at hk
  longName _ := ⟨List.replicate (13 * (count - 1) + 1) 97, 0 :: List.replicate 11 0xffff, by
    rcases h with rfl | rfl <;> decide +kernel, by simp, .inr ⟨11, rfl⟩, by
    rcases h with rfl | rfl <;> decide⟩

def longVolume (count : ℕ) : Fs :=
  volumeOf [sectorOf ((longItem count).long ++ [textEntry]).flatten]

theorem longVolume_flatDir {count : ℕ} (h : count = 3 ∨ count = 6) :
    FlatDir (longVolume count) 2 [2] [.file (longItem count)]
      (List.replicate (15 - count) (List.replicate 32 0)) where
  chain := by rcases h with rfl | rfl <;> decide +kernel
  slots := by rcases h with rfl | rfl <;> decide +kernel
  ends := by rcases h with rfl | rfl <;> decide
  valid := forall_mem_singleton.2 (longItem_valid h)
  flat it content hmem := by cases mem_singleton.1 hmem

/-- A name of 27 characters, in three entries. -/
theorem long_name_decoded_iff_letters :
    NamesDir (longVolume 3) 0 2 [.file (longItem 3)] ∧
      (longItem 3).name = List.replicate 27 97 := by
  have hname : (longItem 3).name = List.replicate 27 97 := by decide +kernel
  have hall : ∀ u ∈ (longItem 3).name, u < 0x80 := by rw [hname]; decide
  have hdir : FlatDir (longVolume 3) 2 [2] ([] ++ .file (longItem 3) :: []) _ :=
    longVolume_flatDir (.inl rfl)
  exact ⟨(long_name_decoded_iff 0 hdir nofun (cons_ne_nil _ _) hall (by rw [hname]; decide)).1.2
    ⟨by decide, by decide⟩, hname⟩

/-- Of a name of 66 characters the 13 in the entry with the number 5 are lost. -/
theorem long_name_shortened :
    FlatDir (longVolume 6) 2 [2] [.file (longItem 6)] (List.replicate 9 (List.replicate 32 0)) ∧
    (longItem 6).name = List.replicate 66 97 ∧
    ((parseSdRecursive 2 (longVolume 6) 0 2 []).map fun fs ↦ fs.nodes.map (·.name)).toOption =
      some [List.replicate 53 97] :=
  ⟨longVolume_flatDir (.inr rfl), by decide +kernel, by decide +kernel⟩

end CapstoneKernel.Fat32
