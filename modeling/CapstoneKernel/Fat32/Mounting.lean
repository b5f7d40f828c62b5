import CapstoneKernel.Fat32.StoredTree

/-!
# Which volumes can be mounted

`fat32_parse_sd_recursive` calls itself for the entry `.` of a subdirectory, and so for the same
subdirectory again.  Only a volume without subdirectories is mounted, and its tree comes out right
if all the names do.
-/

namespace CapstoneKernel.Fat32

open LinkedChain Execution Overlay List

/-! ## The entries of an item -/

theorem and_mask_ne {a bit x : UInt8} (h : a &&& bit = 0) (hbit : ~~~attrArchive &&& bit = bit) (hx : x &&& bit ≠ 0) :
    a &&& ~~~attrArchive ≠ x := by
  intro heq
  rw [← heq, UInt8.and_assoc, hbit] at hx
  exact hx h

section Entries

variable {recurse : Fs → ℕ → UInt32 → Except Fault Fs} {parent : ℕ} {fs : Fs} {lfn d : List UInt8}
  {tail : List (List UInt8)} {r : Fs × List UInt8 × Bool} {it : Item} {type : FileType}

theorem isEnd_eq_false (h : dirName d 0 ≠ dirEntryLastAndUnused) : isEnd d = false := beq_eq_false_iff_ne.2 h

/-- An entry of a long name, which may have the number 5. -/
structure IsLong (d : List UInt8) : Prop where
  ne_last : dirName d 0 ≠ dirEntryLastAndUnused
  ne_unused : dirName d 0 ≠ dirEntryUnused
  attr : dirAttr d = attrLongName

theorem Item.Valid.isLong (h : it.Valid type) (hd : d ∈ it.long) : IsLong d := by
  obtain ⟨k, hk⟩ := mem_iff_getElem?.1 hd
  obtain ⟨hlast, hunused, -⟩ := h.ord_facts hk
  exact ⟨hlast, hunused, (h.long d hd).2.1⟩

theorem parseSlot_long (h : IsLong d) : parseSlot recurse parent fs lfn d =
    if dirName d 0 = dirEntryUnusedJp then .ok (fs, lfn) else (pushLong lfn d).map fun lfn ↦ (fs, lfn) := by
  rw [parseSlot]
  by_cases hjp : dirName d 0 = dirEntryUnusedJp
  · rw [if_pos (.inr hjp), if_pos hjp]
  · have hused : ¬(dirName d 0 = dirEntryUnused ∨ dirName d 0 = dirEntryUnusedJp) :=
      not_or.2 ⟨h.ne_unused, hjp⟩
    rw [if_neg hused, if_neg hjp, h.attr, if_neg (by decide), if_pos (by decide)]

theorem keptEntries_cons (d : List UInt8) (long : List (List UInt8)) : keptEntries (d :: long) =
    keptEntries long ++ if dirName d 0 = dirEntryUnusedJp then [] else keptBytes d := by
  rw [keptEntries, reverse_cons, flatMap_append, flatMap_singleton]
  rfl

theorem parseSlots_long {long : List (List UInt8)} (hlong : ∀ d ∈ long, IsLong d) :
    parseSlots recurse parent (long ++ tail) fs lfn = if HasRoom (keptEntries long) lfn then
        parseSlots recurse parent tail fs (keptEntries long ++ lfn) else .error .outOfBounds := by
  induction long generalizing lfn with
  | nil => exact (if_pos (.inl rfl)).symm
  | cons d long ih =>
    obtain ⟨hd, hrest⟩ := forall_mem_cons.1 hlong
    rw [cons_append, parseSlots_cons (isEnd_eq_false hd.ne_last), parseSlot_long hd,
      keptEntries_cons]
    simp only [hasRoom_append, append_assoc]
    by_cases hjp : dirName d 0 = dirEntryUnusedJp
    · have hnil : HasRoom [] lfn := .inl rfl
      simp only [if_pos hjp, ok_bind, ih hrest, hnil, true_and, nil_append]
    · simp only [if_neg hjp, pushLong_eq]
      by_cases hroom : HasRoom (keptBytes d) lfn
      · simp only [hroom, true_and]
        exact ih hrest
      · simp only [hroom, false_and, if_false]
        rfl

/-- A short entry of a file or directory, unless a call is made for it. -/
theorem Item.Valid.parseSlot_short (h : it.Valid type) (hcall : ¬IsDirEntry it.short) :
    parseSlot recurse parent fs lfn it.short = if dirName it.short 0 = dirEntryUnusedJp then .ok (fs, lfn) else
      .ok (fs.addParsed parent (parsedVnode parent .file (if lfn ≠ [] then lfn else sfnName it.short) it.short), []) := by
  rw [parseSlot]
  by_cases hjp : dirName it.short 0 = dirEntryUnusedJp
  · rw [if_pos (.inr hjp), if_pos hjp]
  · have hused : ¬(dirName it.short 0 = dirEntryUnused ∨ dirName it.short 0 = dirEntryUnusedJp) :=
      not_or.2 ⟨h.used.2, hjp⟩
    have hshort : parseShort recurse parent fs lfn it.short = _ := if_neg fun hdir ↦
      hcall ⟨hused, hdir⟩
    rw [if_neg hused, if_neg hjp, if_neg (and_mask_ne h.attr (by decide) (by decide)),
      if_neg (and_mask_ne h.attr (by decide) (by decide)), hshort]
    rfl

theorem Item.Valid.parseSlots_eq (h : it.Valid type) (hcall : ¬IsDirEntry it.short) :
    parseSlots recurse parent (it.long ++ [it.short] ++ tail) fs lfn =
      if HasRoom it.keptLong lfn then
        if dirName it.short 0 = dirEntryUnusedJp then
          parseSlots recurse parent tail fs (it.keptLong ++ lfn)
        else
          parseSlots recurse parent tail (fs.addParsed parent (parsedVnode parent .file
            (if it.keptLong ++ lfn ≠ [] then it.keptLong ++ lfn else sfnName it.short) it.short)) []
      else .error .outOfBounds := by
  rw [append_assoc, parseSlots_long fun d hd ↦ h.isLong hd, singleton_append,
    parseSlots_cons (isEnd_eq_false h.used.1), h.parseSlot_short hcall, ← Item.keptLong]
  split
  · split <;> rfl
  · rfl

end Entries

/-! ## The vnodes -/

/-- The vnodes one after the other. -/
def Fs.addAll (fs : Fs) (parent : ℕ) (vs : List Vnode) : Fs := vs.foldl (fun fs v ↦ fs.addParsed parent v) fs

/-- The vnodes of the root are numbered in the order of their entries. -/
theorem addAll_nodes (fs : Fs) (root : Vnode) (ws vs : List Vnode) :
    ({ fs with nodes := { root with children := List.range' 1 ws.length } :: ws }.addAll 0 vs).nodes =
      { root with children := List.range' 1 (ws.length + vs.length) } :: (ws ++ vs) := by
  induction vs generalizing ws with
  | nil => rw [append_nil]; rfl
  | cons v vs ih =>
    have hadd : { fs with nodes := { root with children := List.range' 1 ws.length } ::
      ws }.addParsed 0 v =
        { fs with nodes := { root with children := List.range' 1 (ws ++ [v]).length } ::
          (ws ++ [v]) } := by
      rw [length_append, length_singleton, range'_concat, Nat.one_mul, Nat.add_comm 1]
      rfl
    rw [Fs.addAll, foldl_cons, hadd]
    refine (ih (ws ++ [v])).trans ?_
    rw [length_append, length_singleton, length_cons, append_assoc, Nat.add_assoc, Nat.add_comm 1]
    rfl

/-- The file that the parser takes an item for. -/
def Node.parsed (parent : ℕ) (node : Node) : Vnode := parsedVnode parent .file node.item.parsedName node.item.short

/-- What the parser makes of the nodes of a directory, with a long name in front of them. -/
inductive Parsed (parent : ℕ) : List Node → List UInt8 → List Vnode → Prop
  | nil {lfn : List UInt8} : Parsed parent [] lfn []
  | skip {node : Node} {nodes : List Node} {lfn : List UInt8} {vs : List Vnode} : node.isStored = false →
      Parsed parent nodes lfn vs → Parsed parent (node :: nodes) lfn vs
  | unusedJp {node : Node} {nodes : List Node} {lfn lfn' : List UInt8} {vs : List Vnode} : node.isStored = true →
      dirName node.item.short 0 = dirEntryUnusedJp → Parsed parent nodes lfn' vs → Parsed parent (node :: nodes) lfn vs
  | file {node : Node} {nodes : List Node} {lfn name : List UInt8} {vs : List Vnode} : node.isStored = true →
      dirName node.item.short 0 ≠ dirEntryUnusedJp → (lfn = [] → name = node.item.parsedName) →
      Parsed parent nodes [] vs → Parsed parent (node :: nodes) lfn (parsedVnode parent .file name node.item.short :: vs)

section Parsed

variable {parent : ℕ} {nodes : List Node} {lfn : List UInt8} {vs : List Vnode}

/-- There is no vnode for an item that is taken for one that is not in use. -/
theorem Parsed.length_le (h : Parsed parent nodes lfn vs) : vs.length ≤ (nodes.filter Node.isStored).length := by
  induction h with
  | nil => exact Nat.le_refl _
  | skip hstored _ ih => rwa [filter_cons_of_neg (by rw [hstored]; exact Bool.false_ne_true)]
  | unusedJp hstored _ _ ih =>
    rw [filter_cons_of_pos hstored, length_cons]
    exact Nat.le_succ_of_le ih
  | file hstored _ _ _ ih =>
    rw [filter_cons_of_pos hstored, length_cons, length_cons]
    exact Nat.succ_le_succ ih

/-- If there are as many vnodes as items, they are those of the items. -/
theorem Parsed.eq_map (h : Parsed parent nodes lfn vs) (hlfn : lfn = [])
    (hlen : vs.length = (nodes.filter Node.isStored).length) :
    (∀ node ∈ nodes, node.isStored = true → dirName node.item.short 0 ≠ dirEntryUnusedJp) ∧
      vs = (nodes.filter Node.isStored).map (Node.parsed parent) := by
  induction h with
  | nil => exact ⟨nofun, rfl⟩
  | skip hstored _ ih =>
    have hneg : ¬_ = true := fun htrue ↦ Bool.false_ne_true (hstored.symm.trans htrue)
    rw [filter_cons_of_neg hneg] at hlen ⊢
    obtain ⟨hjp, hvs⟩ := ih hlfn hlen
    exact ⟨forall_mem_cons.2 ⟨fun htrue ↦ absurd htrue hneg, hjp⟩, hvs⟩
  | unusedJp hstored _ hrest _ =>
    rw [filter_cons_of_pos hstored, length_cons] at hlen
    have hle := hrest.length_le
    omega
  | file hstored hne hname _ ih =>
    rw [filter_cons_of_pos hstored, length_cons, length_cons] at hlen
    obtain ⟨hjp, hvs⟩ := ih rfl (Nat.succ.inj hlen)
    refine ⟨forall_mem_cons.2 ⟨fun _ ↦ hne, hjp⟩, ?_⟩
    rw [filter_cons_of_pos hstored, map_cons, hvs, hname hlfn]
    rfl

end Parsed

/-! ## The nodes of a directory -/

/-- A node that is mounted as it is stored: no directory, and a file whose entry is seen and whose
name comes out right. -/
def Node.Plain : Node → Prop
  | .unused _ | .label _ => True
  | .file it => dirName it.short 0 ≠ dirEntryUnusedJp ∧ if it.long = [] then it.PlainShort else it.PlainLong
  | .dir _ _ => False

section Nodes

variable {recurse : Fs → ℕ → UInt32 → Except Fault Fs} {parent : ℕ} {nodes : List Node} {fs : Fs} {lfn : List UInt8}
  {tail : List (List UInt8)} {r : Fs × List UInt8 × Bool} {it : Item} {type : FileType} {node : Node}

/-- Entries that are not in use and the name of the volume are passed over. -/
theorem parseSlots_skip (hvalid : node.Valid) (hstored : node.isStored = false) :
    parseSlots recurse parent (node.entries ++ tail) fs lfn = parseSlots recurse parent tail fs lfn := by
  have hcons {d : List UInt8} (hlast : dirName d 0 ≠ dirEntryLastAndUnused)
      (hslot : parseSlot recurse parent fs lfn d = .ok (fs, lfn)) :
      parseSlots recurse parent ([d] ++ tail) fs lfn = parseSlots recurse parent tail fs lfn := by
    rw [singleton_append, parseSlots_cons (isEnd_eq_false hlast), hslot, ok_bind]
  cases node with
  | unused d =>
    have hunused : dirName d 0 = dirEntryUnused := hvalid
    refine hcons (by rw [hunused]; decide) ?_
    rw [parseSlot, if_pos (.inl hunused)]
  | label d =>
    refine hcons hvalid.1 ?_
    rw [parseSlot, if_pos hvalid.2]
    split <;> rfl
  | file it | dir it content => cases hstored

theorem Item.Valid.parseSlots_eq_ok (h : it.Valid type)
    (hok : parseSlots noReturn parent (it.long ++ [it.short] ++ tail) fs lfn = .ok r) :
    (dirName it.short 0 = dirEntryUnusedJp ∧ ∃ lfn', parseSlots noReturn parent tail fs lfn' = .ok r) ∨
    (dirName it.short 0 ≠ dirEntryUnusedJp ∧ ∃ name, (lfn = [] → name = it.parsedName) ∧
      parseSlots noReturn parent tail (fs.addParsed parent (parsedVnode parent .file name it.short)) [] = .ok r) := by
  by_cases hcall : IsDirEntry it.short
  · rw [append_assoc, parseSlots_long fun d hd ↦ h.isLong hd, singleton_append,
      parseSlots_cons (isEnd_eq_false h.used.1), parseSlot_dirEntry hcall] at hok
    split at hok <;> cases hok
  · rw [h.parseSlots_eq hcall] at hok
    split at hok
    · split at hok
      · next hjp => exact .inl ⟨hjp, _, hok⟩
      · next hjp =>
        refine .inr ⟨hjp, _, fun hnil ↦ ?_, hok⟩
        rw [hnil, append_nil]
        rfl
    · cases hok

theorem Item.length_keptLong_le (hle : it.long.length ≤ 5) :
    it.keptLong.length ≤ lfnNameLen - 1 := by
  have hbytes (long : List (List UInt8)) : (keptEntries long).length ≤ 26 * long.length := by
    induction long with
    | nil => exact Nat.le_refl _
    | cons d long ih =>
      have hd : (keptBytes d).length ≤ 26 := by
        refine Nat.le_trans (length_filter_le ..) ?_
        simp only [longBytes, length_append, length_take]
        omega
      rw [keptEntries_cons, length_append, length_cons]
      split
      · rw [length_nil]
        omega
      · omega
  have hall := hbytes it.long
  unfold lfnNameLen Item.keptLong
  omega

theorem Item.Valid.not_isDirEntry (h : it.Valid .file) : ¬IsDirEntry it.short := by
  rintro ⟨-, hdir⟩
  have hattr : dirAttr it.short &&& attrDirectory = 0 := of_not_not fun hne ↦
    absurd (h.type.1 hne) nofun
  exact and_mask_ne hattr (by decide) (by decide) hdir

theorem Node.Valid.exists_item (h : node.Valid) (hstored : node.isStored = true) :
    ∃ type, node.item.Valid type ∧ node.entries = node.item.long ++ [node.item.short] := by
  cases node with
  | unused d | label d => cases hstored
  | file it => exact ⟨.file, h, rfl⟩
  | dir it content => exact ⟨.dir, h, rfl⟩

/-- The entries of a plain node are seen, and its name fits. -/
theorem Node.Valid.of_plain (h : node.Valid) (hplain : node.Plain) :
    node.item.keptLong.length ≤ lfnNameLen - 1 ∧ (node.isStored = true →
      ¬IsDirEntry node.item.short ∧ dirName node.item.short 0 ≠ dirEntryUnusedJp) := by
  cases node with
  | unused d | label d => exact ⟨Nat.zero_le _, nofun⟩
  | file it =>
    obtain ⟨hjp, hname⟩ := hplain
    refine ⟨Item.length_keptLong_le ?_, fun _ ↦ ⟨Item.Valid.not_isDirEntry h, hjp⟩⟩
    split at hname
    · next hlong => exact hlong ▸ Nat.zero_le 5
    · exact hname.1
  | dir it content => exact absurd hplain not_false

theorem parseSlots_nodes_eq_ok (hvalid : ∀ node ∈ nodes, node.Valid)
    (h : parseSlots noReturn parent (nodes.flatMap Node.entries ++ tail) fs lfn = .ok r) :
    ∃ vs lfn', Parsed parent nodes lfn vs ∧ parseSlots noReturn parent tail (fs.addAll parent vs) lfn' = .ok r := by
  induction nodes generalizing fs lfn with
  | nil => exact ⟨[], lfn, .nil, h⟩
  | cons node nodes ih =>
    have hnode := hvalid node mem_cons_self
    have hrest := fun n hn ↦ hvalid n (mem_cons_of_mem node hn)
    rw [flatMap_cons, append_assoc] at h
    cases hstored : node.isStored with
    | false =>
      rw [parseSlots_skip hnode hstored] at h
      obtain ⟨vs, lfn', hparsed, h⟩ := ih hrest h
      exact ⟨vs, lfn', .skip hstored hparsed, h⟩
    | true =>
      obtain ⟨type, hitem, hentries⟩ := hnode.exists_item hstored
      rw [hentries] at h
      rcases hitem.parseSlots_eq_ok h with ⟨hjp, lfn₁, h⟩ | ⟨hjp, name, hname, h⟩
      · obtain ⟨vs, lfn', hparsed, h⟩ := ih hrest h
        exact ⟨vs, lfn', .unusedJp hstored hjp hparsed, h⟩
      · obtain ⟨vs, lfn', hparsed, h⟩ := ih hrest h
        exact ⟨_, lfn', .file hstored hjp hname hparsed, h⟩

/-- The long names have a place in `lfn_name`. -/
def NamesFit (nodes : List Node) : Prop :=
  ∀ node ∈ nodes, node.item.keptLong.length ≤ lfnNameLen - 1
deriving Decidable

/-- A directory without subdirectories in which every short entry is seen. -/
theorem parseSlots_nodes (hvalid : ∀ node ∈ nodes, node.Valid)
    (hseen : ∀ node ∈ nodes, node.isStored = true →
      ¬IsDirEntry node.item.short ∧ dirName node.item.short 0 ≠ dirEntryUnusedJp) :
    parseSlots recurse parent (nodes.flatMap Node.entries ++ tail) fs [] =
      if NamesFit nodes then parseSlots recurse parent tail
        (fs.addAll parent ((nodes.filter Node.isStored).map (Node.parsed parent))) []
      else .error .outOfBounds := by
  induction nodes generalizing fs with
  | nil => exact (if_pos nofun).symm
  | cons node nodes ih =>
    obtain ⟨hnode, hvalid⟩ := forall_mem_cons.1 hvalid
    obtain ⟨hfirst, hseen⟩ := forall_mem_cons.1 hseen
    have hfit : NamesFit (node :: nodes) ↔ HasRoom node.item.keptLong [] ∧ NamesFit nodes := by
      rw [NamesFit, forall_mem_cons]
      refine and_congr_left fun _ ↦ ⟨.inr, fun h ↦ h.elim (fun hnil ↦ ?_) id⟩
      rw [hnil]
      exact Nat.zero_le _
    rw [flatMap_cons, append_assoc]
    simp only [hfit]
    cases hstored : node.isStored with
    | false =>
      have hnil : node.item.keptLong = [] := by cases node <;> first | rfl | cases hstored
      rw [parseSlots_skip hnode hstored, ih hvalid hseen, hnil,
        filter_cons_of_neg (by rw [hstored]; exact Bool.false_ne_true)]
      simp only [HasRoom, true_or, true_and]
    | true =>
      obtain ⟨hcall, hjp⟩ := hfirst hstored
      obtain ⟨type, hitem, hentries⟩ := hnode.exists_item hstored
      rw [hentries, hitem.parseSlots_eq hcall, if_neg hjp, append_nil, filter_cons_of_pos hstored]
      by_cases hroom : HasRoom node.item.keptLong []
      · simp only [hroom, true_and, map_cons]
        exact ih hvalid hseen
      · simp only [hroom, false_and, if_false]

theorem parseSlots_nodes_of_plain (hvalid : ∀ node ∈ nodes, node.Valid) (hplain : ∀ node ∈ nodes, node.Plain) :
    parseSlots recurse parent (nodes.flatMap Node.entries ++ tail) fs [] =
      parseSlots recurse parent tail (fs.addAll parent ((nodes.filter Node.isStored).map (Node.parsed parent))) [] := by
  have hplain' := fun node hnode ↦ (hvalid node hnode).of_plain (hplain node hnode)
  have hfit : NamesFit nodes := fun node hnode ↦ (hplain' node hnode).1
  rw [parseSlots_nodes hvalid fun node hnode ↦ (hplain' node hnode).2, if_pos hfit]

end Nodes

/-! ## Mounting -/

section Mounting

variable {fs : Fs} {parent : Option UInt32} {clus : UInt32} {nodes : List Node} {node : Node}
    {d : List UInt8}

theorem Node.Valid.isEnd_eq_false (h : node.Valid) (hd : d ∈ node.entries) : isEnd d = false := by
  have hitem {it : Item} {type : FileType} (h : it.Valid type) (hd : d ∈ it.long ++ [it.short]) :
    isEnd d = false := by
    rcases mem_append.1 hd with hd | hd
    · exact Fat32.isEnd_eq_false (h.isLong hd).ne_last
    · rw [mem_singleton.1 hd]
      exact Fat32.isEnd_eq_false h.used.1
  cases node with
  | unused d' =>
    have hunused : dirName d' 0 = dirEntryUnused := h
    rw [mem_singleton.1 hd, isEnd, hunused]
    rfl
  | label d' => exact mem_singleton.1 hd ▸ Fat32.isEnd_eq_false h.1
  | file it | dir it content => exact hitem h hd

/-- Only the entry of a directory is taken for one. -/
theorem Node.Valid.exists_dir (h : node.Valid) (hd : d ∈ node.entries) (hdir : IsDirEntry d) :
    ∃ it content, node = .dir it content ∧ d = it.short := by
  have hlong {it : Item} {type : FileType} (h : it.Valid type) (hd : d ∉ it.long) :
    d ∈ it.long ++ [it.short] → d = it.short :=
    fun hmem ↦ mem_singleton.1 ((mem_append.1 hmem).resolve_left hd)
  have hnot {it : Item} {type : FileType} (h : it.Valid type) : d ∉ it.long := by
    intro hmem
    have hattr := hdir.2
    rw [(h.isLong hmem).attr] at hattr
    exact absurd hattr (by decide)
  cases node with
  | unused d' =>
    rw [mem_singleton.1 hd] at hdir
    exact absurd (.inl h) hdir.1
  | label d' =>
    rw [mem_singleton.1 hd] at hdir
    exact absurd (h.2.symm.trans hdir.2) (by decide)
  | file it =>
    rw [hlong h (hnot h) hd] at hdir
    exact absurd hdir (Item.Valid.not_isDirEntry h)
  | dir it content => exact ⟨it, content, rfl, hlong h (hnot h) hd⟩

theorem clusterSlots_ne_nil (vol : Volume) (disk : UInt32 → Sector) (clus : UInt32) :
    clusterSlots vol disk clus ≠ [] := by
  intro hnil
  have hslots := flatMap_eq_nil_iff.1 hnil 0 (mem_range.2 vol.secPerClus_pos)
  exact absurd (congrArg List.length hslots) (by simp [Sector.slots, blkSz, entrySz])

/-- A subdirectory is never left. -/
theorem Stores.parse_eq {p : UInt32} (h : Stores fs (some p) clus nodes) (fuel : ℕ) (vnodes : List Vnode) (node : ℕ) :
    parseSdRecursive fuel { fs with nodes := vnodes } node clus [] = .error .diverges := by
  cases h with
  | @intro _ _ _ clusters dots rest last hchain hslots hdots =>
    obtain ⟨d, d', rfl, ⟨hname, hattr, hclus⟩, -⟩ := hdots
    have hfirst : dirName d 0 = 46 := by
      cases d with
      | nil => cases hname
      | cons a d => exact (List.cons.inj hname).1
    obtain ⟨rest', hrest⟩ : ∃ rest', clusterSlots fs.vol fs.disk clus = d :: rest' := by
      cases clusters with
      | nil => exact absurd hchain.chain nofun
      | cons c clusters =>
        obtain rfl := Option.some.inj hchain.chain.1
        cases hfirst : clusterSlots fs.vol fs.disk clus with
        | nil => exact absurd hfirst (clusterSlots_ne_nil fs.vol fs.disk clus)
        | cons a rest' =>
          rw [flatMap_cons, hfirst] at hslots
          exact ⟨rest', congrArg (· :: rest') (List.cons.inj hslots).1⟩
    refine parseSdRecursive_dot hrest (isEnd_eq_false (by rw [hfirst]; decide))
      ⟨?_, hattr⟩ hclus fuel vnodes node
    rw [IsUnused, hfirst]
    decide

variable {rest : List (List UInt8)} {last name : List UInt8}

theorem calls_diverge (hlast : isEnd last = true) (hvalid : ∀ node ∈ nodes, node.Valid)
    (hsub : ∀ it content, Node.dir it content ∈ nodes → Stores fs (some clus) (dirFstClus it.short) content) :
    
    CallsDiverge fs (nodes.flatMap Node.entries ++ last :: rest) := by
  intro d hd hdir fuel vnodes i
  have hmem : d ∈ nodes.flatMap Node.entries := by
    have hused : ∀ d ∈ nodes.flatMap Node.entries, (!isEnd d) = true := by
      intro d hd
      obtain ⟨node, hnode, hd⟩ := mem_flatMap.1 hd
      rw [(hvalid node hnode).isEnd_eq_false hd]
      rfl
    rwa [takeWhile_append_of_pos hused, takeWhile_cons_of_neg (by rw [hlast]; decide),
      append_nil] at hd
  obtain ⟨node, hnode, hd⟩ := mem_flatMap.1 hmem
  obtain ⟨it, content, rfl, rfl⟩ := (hvalid node hnode).exists_dir hd hdir
  exact (hsub it content hnode).parse_eq fuel vnodes i

theorem parse_ok_iff {clusters : List UInt32} {vnodes : List Vnode} {i : ℕ} {fs' : Fs}
    (hchain : ValidChain fs.vol fs.fat clus clusters)
    (hslots : clusters.flatMap (clusterSlots fs.vol fs.disk) =
      nodes.flatMap Node.entries ++ last :: rest) (hlast : isEnd last = true)
    (hcalls : CallsDiverge fs (nodes.flatMap Node.entries ++ last :: rest)) :
    (∃ fuel, parseSdRecursive fuel { fs with nodes := vnodes } i clus [] = .ok fs') ↔
      ∃ lfn', parseSlots noReturn i (nodes.flatMap Node.entries ++ last :: rest)
        { fs with nodes := vnodes } [] = .ok (fs', lfn', true) := by
  rw [← hslots] at hcalls ⊢
  refine parseSdRecursive_ok_iff hchain.chain (fun c hc ↦ (hchain.inRange c hc).2) ?_ hcalls
  exact any_eq_true.2 ⟨last, hslots ▸ mem_append_right _ mem_cons_self, hlast⟩

theorem root_addAll_nodes (fs : Fs) (name : List UInt8) (vs : List Vnode) :
    ({ fs with nodes := [fs.root name] }.addAll 0 vs).nodes =
      { fs.root name with children := List.range' 1 vs.length } :: vs := by
  have h := addAll_nodes fs (fs.root name) [] vs
  rwa [length_nil, Nat.zero_add, nil_append] at h

theorem getElem?_range'_one {n k child : ℕ} : (List.range' 1 n)[k]? = some child ↔ k < n ∧ child = k + 1 := by
  rw [List.getElem?_eq_some_iff]
  simp [Nat.add_comm, eq_comm]

theorem Node.Valid.shows_iff (h : node.Valid) (hstored : node.isStored = true)
    (hjp : dirName node.item.short 0 ≠ dirEntryUnusedJp) : (node.parsed 0).Shows node ↔ node.Plain := by
  cases node with
  | unused d | label d => cases hstored
  | file it =>
    have hit : it.Valid .file := h
    rw [Node.Plain, ← hit.namedBy_iff hjp]
    exact ⟨fun hshows ↦ ⟨hjp, hshows.2.1⟩, fun hplain ↦ ⟨rfl, hplain.2, rfl, rfl⟩⟩
  | dir it content => exact iff_of_false (fun hshows ↦ absurd hshows.1 nofun) not_false

/-- If the vnodes that the parser has made mirror the directory, its nodes are plain. -/
theorem Parsed.plain {vs : List Vnode} (h : Parsed 0 nodes [] vs)
    (hvalid : ∀ node ∈ nodes, node.Valid)
    (hmirrors : Mirrors ({ fs with nodes := [fs.root name] }.addAll 0 vs) 0 nodes) :
    ∀ node ∈ nodes, node.Plain := by
  cases hmirrors with
  | @intro _ v _ hv hlen hvnode hdir =>
    rw [root_addAll_nodes] at hv
    cases hv
    rw [length_range'] at hlen
    obtain ⟨hjp, hvs⟩ := h.eq_map rfl hlen
    intro node hnode
    cases hstored : node.isStored with
    | false =>
      cases node with
      | unused d | label d => exact trivial
      | file it | dir it content => cases hstored
    | true =>
      obtain ⟨k, hk⟩ := mem_iff_getElem?.1 (mem_filter.2 ⟨hnode, hstored⟩)
      have hlt : k < vs.length := hlen ▸ (List.getElem?_eq_some_iff.1 hk).1
      obtain ⟨w, hw, -, hshows⟩ := hvnode k (k + 1) node (getElem?_range'_one.2 ⟨hlt, rfl⟩) hk
      rw [root_addAll_nodes, getElem?_cons_succ, hvs, getElem?_map, hk] at hw
      rw [← Option.some.inj hw] at hshows
      exact ((hvalid node hnode).shows_iff hstored (hjp node hnode hstored)).1 hshows

theorem mirrors_of_plain (hvalid : ∀ node ∈ nodes, node.Valid) (hplain : ∀ node ∈ nodes, node.Plain) :
    
    Mirrors ({ fs with nodes := [fs.root name] }.addAll 0 ((nodes.filter Node.isStored).map (Node.parsed 0))) 0
      nodes := by
  refine .intro (by rw [root_addAll_nodes]; rfl) ?_ ?_ ?_
  · rw [length_range', length_map]
  · intro k child node hchild hnode
    obtain ⟨-, rfl⟩ := getElem?_range'_one.1 hchild
    obtain ⟨hmem, hstored⟩ := mem_filter.1 (mem_of_getElem? hnode)
    refine ⟨node.parsed 0, ?_, rfl, ?_⟩
    · rw [root_addAll_nodes, getElem?_cons_succ, getElem?_map, hnode]
      rfl
    · have hplain := hplain node hmem
      have hjp : dirName node.item.short 0 ≠ dirEntryUnusedJp := by
        cases node with
        | unused d | label d => cases hstored
        | file it => exact hplain.1
        | dir it content => exact absurd hplain not_false
      exact ((hvalid node hmem).shows_iff hstored hjp).2 hplain
  · intro k child it content _ hnode
    exact absurd (hplain _ (mem_filter.1 (mem_of_getElem? hnode)).1) not_false

end Mounting

/-- A well-formed volume is mounted, and the vnodes mirror its tree, exactly if it has no
subdirectory, no file whose name begins with the byte that stands for `0xe5`, and only names that
the parser reads right: short names whose spaces are at the end, with a zero or a space behind a
full extension, and long names in ASCII with at most five entries. -/
theorem mount_mirrors_iff {fs : Fs} {nodes : List Node} (name : List UInt8)
    (hstores : Stores fs none fs.vol.rootClus nodes) :
    (∃ fuel fs', fat32SetupMount fuel fs name = .ok fs' ∧ Mirrors fs' 0 nodes) ↔ ∀ node ∈ nodes, node.Plain := by
  cases hstores with
  | @intro _ _ _ clusters dots rest last hchain hslots hdots hlast hvalid hsub =>
    obtain rfl : dots = [] := hdots
    rw [nil_append] at hslots
    have hiff (fs' : Fs) : (∃ fuel, fat32SetupMount fuel fs name = .ok fs') ↔ _ :=
      parse_ok_iff hchain hslots hlast (calls_diverge hlast hvalid hsub)
    constructor
    · rintro ⟨fuel, fs', hparse, hmirrors⟩
      obtain ⟨lfn', hparse⟩ := (hiff fs').1 ⟨fuel, hparse⟩
      obtain ⟨vs, lfn₁, hparsed, hparse⟩ := parseSlots_nodes_eq_ok hvalid hparse
      rw [parseSlots_end hlast] at hparse
      obtain rfl := (Prod.mk.inj (Except.ok.inj hparse)).1
      exact hparsed.plain hvalid hmirrors
    · intro hplain
      have hparse : parseSlots noReturn 0 (nodes.flatMap Node.entries ++ last :: rest)
          { fs with nodes := [fs.root name] } [] = _ := parseSlots_nodes_of_plain hvalid hplain
      rw [parseSlots_end hlast] at hparse
      obtain ⟨fuel, hfuel⟩ := (hiff _).2 ⟨[], hparse⟩
      exact ⟨fuel, _, hfuel, mirrors_of_plain hvalid hplain⟩

/-! ## Two volumes -/

/-- A short entry with a name of eleven bytes, attributes and a first cluster. -/
def shortEntry (name : List UInt8) (attr : UInt8) (clus : UInt32) : List UInt8 :=
  name ++ [attr, 0, 0, 0, 0, 0, 0, 0, 0] ++ bytesOf16 (clus >>> 16) ++ [0, 0, 0, 0] ++ bytesOf16 clus ++ [0, 0, 0, 0]

/-- A sector with the given first bytes, and zeros behind them. -/
def sectorOf (bytes : List UInt8) : Sector :=
  ⟨overlay (List.replicate blkSz 0) 0 (bytes.take blkSz), by
    rw [length_overlay (by rw [length_replicate, Nat.zero_add]; exact length_take_le ..),
      length_replicate]⟩

/-- The volume whose clusters from 2 on have the given sectors, and are directories of one
cluster. -/
def volumeOf (sectors : List Sector) : Fs where
  vol := smallVolume
  fat := tableOf [firstEndMark, endMark, endMark, endMark]
  disk b := sectors.getD (b.toNat - 2) .zero
  nodes := []

/-- The name `A.TXT` in a short entry. -/
def textEntry : List UInt8 := shortEntry [65, 32, 32, 32, 32, 32, 32, 32, 84, 88, 84] attrArchive 4

/-- A directory with the name `D` in cluster 3. -/
def directoryEntry : List UInt8 := shortEntry [68, 32, 32, 32, 32, 32, 32, 32, 32, 32, 32] attrDirectory 3

def dotEntry (dots : ℕ) (clus : UInt32) : List UInt8 :=
  shortEntry (List.replicate dots 46 ++ List.replicate (11 - dots) space) attrDirectory clus

theorem forall_mem_of_all {l : List UInt8} {p : UInt8 → Prop} [DecidablePred p]
    (h : (l.all fun b ↦ decide (p b)) = true) : ∀ b ∈ l, p b :=
  fun b hb ↦ of_decide_eq_true (all_eq_true.1 h b hb)

theorem textEntry_valid : Item.Valid ⟨[], textEntry⟩ .file where
  length_eq := rfl
  used := by decide
  chars := forall_mem_of_all (by decide)
  attr := by decide
  type := by decide
  count := by decide
  long := nofun
  ord := nofun
  longName h := absurd rfl h

theorem directoryEntry_valid : Item.Valid ⟨[], directoryEntry⟩ .dir where
  length_eq := rfl
  used := by decide
  chars := forall_mem_of_all (by decide)
  attr := by decide
  type := by decide
  count := by decide
  long := nofun
  ord := nofun
  longName h := absurd rfl h

/-- A volume with one file. -/
theorem mount_mirrors_iff_file : ∃ fs nodes, Stores fs none fs.vol.rootClus nodes ∧
    ∃ fuel fs', fat32SetupMount fuel fs [] = .ok fs' ∧ Mirrors fs' 0 nodes := by
  have hstores : Stores (volumeOf [sectorOf textEntry]) none 2 [.file ⟨[], textEntry⟩] := by
    refine @Stores.intro _ _ _ _ [2] [] (List.replicate 14 (List.replicate 32 0))
      (List.replicate 32 0)
      (by decide +kernel) (by decide +kernel) rfl (by decide) ?_ ?_
    · exact forall_mem_singleton.2 textEntry_valid
    · exact fun it content hmem ↦ absurd (mem_singleton.1 hmem) nofun
  refine ⟨_, _, hstores, (mount_mirrors_iff [] hstores).2 (forall_mem_singleton.2 ?_)⟩
  have hplain : Item.PlainShort ⟨[], textEntry⟩ := by
    unfold Item.PlainShort Padded
    decide
  exact ⟨by decide, hplain⟩

/-- A volume with an empty directory is never mounted. -/
theorem mount_never_returns : ∃ fs nodes, Stores fs none fs.vol.rootClus nodes ∧
    ∀ fuel name, fat32SetupMount fuel fs name = .error .diverges := by
  have hsub : Stores (volumeOf [sectorOf directoryEntry, sectorOf (dotEntry 1 3 ++ dotEntry 2 0)])
    (some 2) 3 [] :=
    @Stores.intro _ _ _ _ [3] [dotEntry 1 3, dotEntry 2 0] (List.replicate 13 (List.replicate 32 0))
      (List.replicate 32 0) (by decide +kernel) (by decide +kernel)
      ⟨_, _, rfl, ⟨rfl, by decide, by decide⟩, rfl, by decide, by decide⟩ (by decide) nofun nofun
  have hstores : Stores (volumeOf [sectorOf directoryEntry,
    sectorOf (dotEntry 1 3 ++ dotEntry 2 0)]) none 2 [.dir ⟨[], directoryEntry⟩ []] := by
    refine @Stores.intro _ _ _ _ [2] [] (List.replicate 14 (List.replicate 32 0))
      (List.replicate 32 0)
      (by decide +kernel) (by decide +kernel) rfl (by decide) ?_ ?_
    · exact forall_mem_singleton.2 directoryEntry_valid
    · intro it content hmem
      obtain ⟨rfl, rfl⟩ := Node.dir.inj (mem_singleton.1 hmem)
      exact hsub
  have hslots : clusterSlots smallVolume
      (volumeOf [sectorOf directoryEntry, sectorOf (dotEntry 1 3 ++ dotEntry 2 0)]).disk 2 =
        directoryEntry :: List.replicate 15 (List.replicate 32 0) := by decide +kernel
  refine ⟨_, _, hstores, fun fuel name ↦ ?_⟩
  cases fuel with
  | zero => rfl
  | succ fuel =>
    have hdir : IsDirEntry directoryEntry := ⟨by unfold IsUnused; decide, by decide⟩
    have hclus : dirFstClus directoryEntry = 3 := by decide
    rw [fat32SetupMount, parseSdRecursive_succ]
    change parseSlots _ 0 (clusterSlots smallVolume _ 2) _ [] >>= _ = _
    rw [hslots, parseSlots_cons (by decide), parseSlot_dirEntry hdir, hclus, Fs.addParsed,
      hsub.parse_eq]
    rfl

end CapstoneKernel.Fat32
