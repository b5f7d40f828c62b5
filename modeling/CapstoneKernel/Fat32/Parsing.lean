import CapstoneKernel.Fat32.Walkers

/-!
# Mounting a volume

`fat32_parse_sd_recursive` goes through the entries of a directory, adds a vnode for each of them,
and calls itself for the directories.  The chain of clusters is followed without a test for its end,
so that only an entry that begins with a zero ends a directory.
-/

namespace CapstoneKernel.Fat32

open LinkedChain Execution List

/-! ## Names -/

def lfnNameLen : ℕ := 255

/-- `LDIR_Name1`, `LDIR_Name2` and `LDIR_Name3`. -/
def longBytes (d : List UInt8) : List UInt8 := (d.drop 1).take 10 ++ (d.drop 14).take 12 ++ (d.drop 28).take 4

/-- A byte is put in front of the name, which is stored from the end of `lfn_name` on. -/
def pushByte (lfn : List UInt8) (b : UInt8) : Except Fault (List UInt8) :=
  if b = 0 ∨ b = 0xff then .ok lfn
  else if lfn.length < lfnNameLen - 1 then .ok (b :: lfn)
  else .error .outOfBounds

/-- The loops over the characters of a long entry, from the last one to the first. -/
def pushLong (lfn d : List UInt8) : Except Fault (List UInt8) := (longBytes d).reverse.foldlM pushByte lfn

/-- The name in a short entry as a C string.  The loop over the extension goes on into the three
fields behind it. -/
def sfnName (d : List UInt8) : List UInt8 :=
  let base := (d.take 8).takeWhile (· ≠ space)
  let point := if dirNameExt d 0 ≠ space then [46] else []
  let ext := ((d.drop 8).take 6).takeWhile (· ≠ space)
  (base ++ point ++ ext).takeWhile (· ≠ 0)

/-! ## Directories -/

/-- `init_vnode` for a vnode that has been found on the disk. -/
def Fs.addParsed (fs : Fs) (parent : ℕ) (v : Vnode) : Fs :=
  { fs with
    nodes := (fs.nodes.modify parent fun p ↦ { p with children := p.children ++ [fs.nodes.length] }) ++ [v] }

/-- The vnode for a short entry with a name.  Its metadata is not used before the call for it
returns. -/
def parsedVnode (parent : ℕ) (type : FileType) (name d : List UInt8) : Vnode where
  parent := some parent
  type := type
  name := name
  fileSize := if type = .file then (dirFileSize d).toNat else 0
  children := []
  clusIdx := dirFstClus d
  dirty := false
  contentCache := []

section Directory

variable (recurse : Fs → ℕ → UInt32 → Except Fault Fs) (parent : ℕ)

/-- A short entry; `lfn` is the long name in front of it.  That the checksum fails is only
reported. -/
def parseShort (fs : Fs) (lfn d : List UInt8) : Except Fault Fs :=
  let name := if lfn ≠ [] then lfn else sfnName d
  if dirAttr d &&& ~~~attrArchive = attrDirectory then
    recurse (fs.addParsed parent (parsedVnode parent .dir name d)) fs.nodes.length (dirFstClus d)
  else .ok (fs.addParsed parent (parsedVnode parent .file name d))

/-- One round of the loop over entries: the vnodes, and the long name of the next short entry. -/
def parseSlot (fs : Fs) (lfn d : List UInt8) : Except Fault (Fs × List UInt8) :=
  if dirName d 0 = dirEntryUnused ∨ dirName d 0 = dirEntryUnusedJp then .ok (fs, lfn)
  else if dirAttr d &&& ~~~attrArchive = attrVolumeId then .ok (fs, lfn)
  else if dirAttr d &&& ~~~attrArchive = attrLongName then (pushLong lfn d).map fun lfn ↦ (fs, lfn)
  else (parseShort recurse parent fs lfn d).map fun fs ↦ (fs, [])

/-- The loop over entries, and whether the directory has ended. -/
def parseSlots : List (List UInt8) → Fs → List UInt8 → Except Fault (Fs × List UInt8 × Bool)
  | [], fs, lfn => .ok (fs, lfn, false)
  | d :: rest, fs, lfn =>
    if dirName d 0 = dirEntryLastAndUnused then .ok (fs, lfn, true)
    else do
      let (fs, lfn) ← parseSlot recurse parent fs lfn d
      parseSlots rest fs lfn

end Directory

/-- The entries in the sectors of a cluster. -/
def clusterSlots (vol : Volume) (disk : UInt32 → Sector) (clus : UInt32) : List (List UInt8) :=
  (List.range vol.secPerClus).flatMap fun i ↦ (disk (vol.block clus i)).slots

/-- `fat32_parse_sd_recursive` from a cluster on; each cluster and each call takes fuel. -/
def parseSdRecursive : ℕ → Fs → ℕ → UInt32 → List UInt8 → Except Fault Fs
  | 0, _, _, _, _ => .error .diverges
  | fuel + 1, fs, parent, clus, lfn => do
      let (fs, lfn, done) ← parseSlots (fun fs node clus ↦ parseSdRecursive fuel fs node clus []) parent
        (clusterSlots fs.vol fs.disk clus) fs lfn
      if done then return fs
      else do
        let entry ← getFatEntry fs clus
        parseSdRecursive fuel fs parent (entry &&& fatValMask) lfn

/-- The vnode of the root. -/
def Fs.root (fs : Fs) (name : List UInt8) : Vnode := ⟨none, .dir, name, 0, [], fs.vol.rootClus, false, []⟩

/-- `fat32_setup_mount` for a root with the given name. -/
def fat32SetupMount (fuel : ℕ) (fs : Fs) (name : List UInt8) : Except Fault Fs :=
  parseSdRecursive fuel { fs with nodes := [fs.root name] } 0 fs.vol.rootClus []

/-! ## Long names -/

/-- The bytes of a long entry that get into the name. -/
def isKept (b : UInt8) : Bool := b ≠ 0 && b ≠ 0xff

/-- There is a place in `lfn_name` for the bytes, in front of the name that is there. -/
def HasRoom (bytes lfn : List UInt8) : Prop :=
  bytes = [] ∨ bytes.length + lfn.length ≤ lfnNameLen - 1
deriving Decidable

theorem hasRoom_append {front back lfn : List UInt8} :
    HasRoom (front ++ back) lfn ↔ HasRoom back lfn ∧ HasRoom front (back ++ lfn) := by
  simp only [HasRoom, ← length_eq_zero_iff, length_append]
  omega

theorem foldlM_pushByte (bytes lfn : List UInt8) : bytes.foldlM pushByte lfn =
    if HasRoom (bytes.filter isKept).reverse lfn then
      .ok ((bytes.filter isKept).reverse ++ lfn) else .error .outOfBounds := by
  induction bytes generalizing lfn with
  | nil => rfl
  | cons b bytes ih =>
    rw [foldlM_cons, pushByte]
    by_cases hb : b = 0 ∨ b = 0xff
    · have hkept : ¬isKept b = true := by simpa [isKept, or_iff_not_imp_left] using hb
      rw [if_pos hb, ok_bind, ih, filter_cons_of_neg hkept]
    · have hkept : isKept b = true := by simpa [isKept] using hb
      have hroom : HasRoom [b] lfn ↔ lfn.length < lfnNameLen - 1 := by
        simp only [HasRoom, cons_ne_nil, false_or, length_singleton]
        omega
      rw [if_neg hb, filter_cons_of_pos hkept, reverse_cons]
      simp only [hasRoom_append, hroom]
      split
      · next hlt =>
        rw [ok_bind, ih, append_assoc]
        simp only [hlt, true_and]
        rfl
      · next hlt => rw [if_neg fun h ↦ hlt h.1]; rfl

/-- What a long entry adds to the name. -/
def keptBytes (d : List UInt8) : List UInt8 := (longBytes d).filter isKept

theorem pushLong_eq (lfn d : List UInt8) : pushLong lfn d =
    if HasRoom (keptBytes d) lfn then .ok (keptBytes d ++ lfn) else .error .outOfBounds := by
  rw [pushLong, foldlM_pushByte, filter_reverse, reverse_reverse]
  rfl

/-! ## The loop over the entries -/

/-- The entry ends the directory. -/
def isEnd (d : List UInt8) : Bool := dirName d 0 == dirEntryLastAndUnused

/-- The entry is passed over. -/
def IsUnused (d : List UInt8) : Prop := dirName d 0 = dirEntryUnused ∨ dirName d 0 = dirEntryUnusedJp

/-- The entry is taken for a directory. -/
def IsDirEntry (d : List UInt8) : Prop := ¬IsUnused d ∧ dirAttr d &&& ~~~attrArchive = attrDirectory

/-- A call that does not return. -/
def noReturn (_ : Fs) (_ : ℕ) (_ : UInt32) : Except Fault Fs := .error .diverges

section Slots

variable {recurse : Fs → ℕ → UInt32 → Except Fault Fs} {parent : ℕ} {slots slots' : List (List UInt8)} {fs fs' : Fs}
  {lfn lfn' d : List UInt8} {done : Bool}

theorem parseSlots_end (h : isEnd d = true) : parseSlots recurse parent (d :: slots) fs lfn = .ok (fs, lfn, true) := by
  rw [parseSlots, if_pos (beq_iff_eq.1 h)]

theorem parseSlots_cons (h : isEnd d = false) : parseSlots recurse parent (d :: slots) fs lfn =
    parseSlot recurse parent fs lfn d >>= fun r ↦ parseSlots recurse parent slots r.1 r.2 := by
  rw [parseSlots, if_neg fun hend ↦ Bool.false_ne_true (h.symm.trans (beq_iff_eq.2 hend))]

theorem parseSlots_append : parseSlots recurse parent (slots ++ slots') fs lfn =
    parseSlots recurse parent slots fs lfn >>= fun r ↦
      if r.2.2 then .ok r else parseSlots recurse parent slots' r.1 r.2.1 := by
  induction slots generalizing fs lfn with
  | nil => rfl
  | cons d slots ih =>
    rw [cons_append]
    cases hend : isEnd d with
    | true =>
      rw [parseSlots_end hend, parseSlots_end hend]
      rfl
    | false =>
      rw [parseSlots_cons hend, parseSlots_cons hend, bind_assoc]
      exact bind_congr fun r ↦ ih

/-- The directory has ended if there is an entry that ends it. -/
theorem parseSlots_done (h : parseSlots recurse parent slots fs lfn = .ok (fs', lfn', done)) :
    done = slots.any isEnd := by
  induction slots generalizing fs lfn with
  | nil =>
    obtain ⟨-, hrest⟩ := Prod.mk.inj (Except.ok.inj h)
    exact (Prod.mk.inj hrest).2.symm
  | cons d slots ih =>
    cases hend : isEnd d with
    | true =>
      rw [parseSlots_end hend] at h
      obtain ⟨-, hrest⟩ := Prod.mk.inj (Except.ok.inj h)
      rw [any_cons, hend, Bool.true_or, (Prod.mk.inj hrest).2]
    | false =>
      rw [parseSlots_cons hend] at h
      obtain ⟨r, -, h⟩ := of_bind_eq_ok h
      rw [any_cons, hend, Bool.false_or, ih h]

theorem parseSlot_volume {r : Fs × List UInt8} (h : parseSlot noReturn parent fs lfn d = .ok r) :
    r.1 = { fs with nodes := r.1.nodes } := by
  unfold parseSlot at h
  split at h
  · exact Except.ok.inj h ▸ rfl
  · split at h
    · exact Except.ok.inj h ▸ rfl
    · split at h
      · obtain ⟨lfn', -, rfl⟩ := map_eq_ok h
        rfl
      · obtain ⟨fs', hshort, rfl⟩ := map_eq_ok h
        unfold parseShort at hshort
        dsimp only at hshort
        split at hshort
        · cases hshort
        · exact Except.ok.inj hshort ▸ rfl

theorem parseSlots_volume (h : parseSlots noReturn parent slots fs lfn = .ok (fs', lfn', done)) :
    fs' = { fs with nodes := fs'.nodes } := by
  induction slots generalizing fs lfn with
  | nil =>
    cases h
    rfl
  | cons d slots ih =>
    cases hend : isEnd d with
    | true =>
      rw [parseSlots_end hend] at h
      cases h
      rfl
    | false =>
      rw [parseSlots_cons hend] at h
      obtain ⟨r, hslot, h⟩ := of_bind_eq_ok h
      have hvolume := ih h
      rw [parseSlot_volume hslot] at hvolume
      exact hvolume

/-- Only the calls for the entries of directories matter. -/
theorem parseSlot_noReturn
    (hcall : IsDirEntry d → ∀ nodes node, recurse { fs with nodes := nodes } node (dirFstClus d) = .error .diverges) :
    parseSlot recurse parent fs lfn d = parseSlot noReturn parent fs lfn d := by
  unfold parseSlot
  split
  · rfl
  · next hunused =>
    have hshort : parseShort recurse parent fs lfn d = parseShort noReturn parent fs lfn d := by
      unfold parseShort
      dsimp only
      split
      · next hdir => exact hcall ⟨hunused, hdir⟩ _ _
      · rfl
    rw [hshort]

theorem parseSlots_noReturn (hcall : ∀ d ∈ slots.takeWhile fun d ↦ !isEnd d, IsDirEntry d →
      ∀ nodes node, recurse { fs with nodes := nodes } node (dirFstClus d) = .error .diverges) :
    parseSlots recurse parent slots fs lfn = parseSlots noReturn parent slots fs lfn := by
  induction slots generalizing fs lfn with
  | nil => rfl
  | cons d slots ih =>
    cases hend : isEnd d with
    | true => rw [parseSlots_end hend, parseSlots_end hend]
    | false =>
      rw [takeWhile_cons_of_pos (by rw [hend]; rfl)] at hcall
      rw [parseSlots_cons hend, parseSlots_cons hend, parseSlot_noReturn (hcall d mem_cons_self)]
      cases hslot : parseSlot noReturn parent fs lfn d with
      | error e => rfl
      | ok r =>
        refine ih fun d' hd' hdir nodes node ↦ ?_
        rw [parseSlot_volume hslot]
        exact hcall d' (mem_cons_of_mem d hd') hdir nodes node

end Slots

/-! ## The clusters of a directory -/

theorem parseSdRecursive_succ (fuel : ℕ) (fs : Fs) (parent : ℕ) (clus : UInt32) (lfn : List UInt8) :
    parseSdRecursive (fuel + 1) fs parent clus lfn =
      parseSlots (fun fs node clus ↦ parseSdRecursive fuel fs node clus []) parent (clusterSlots fs.vol fs.disk clus)
        fs lfn >>= fun r ↦ if r.2.2 then .ok r.1 else
          getFatEntry r.1 clus >>= fun entry ↦ parseSdRecursive fuel r.1 parent (entry &&& fatValMask) r.2.1 := rfl

theorem parseSlot_dirEntry {recurse : Fs → ℕ → UInt32 → Except Fault Fs} {parent : ℕ} {fs : Fs} {lfn d : List UInt8}
    (hdir : IsDirEntry d) : parseSlot recurse parent fs lfn d =
      (recurse (fs.addParsed parent (parsedVnode parent .dir (if lfn ≠ [] then lfn else sfnName d) d)) fs.nodes.length
        (dirFstClus d)).map fun fs ↦ (fs, []) := by
  obtain ⟨hused, hdir⟩ := hdir
  have hshort : parseShort recurse parent fs lfn d = _ := if_pos hdir
  have hunused : ¬(dirName d 0 = dirEntryUnused ∨ dirName d 0 = dirEntryUnusedJp) := hused
  rw [parseSlot, if_neg hunused, if_neg (by rw [hdir]; decide), if_neg (by rw [hdir]; decide),
    hshort]

theorem chainNext_eq_some {fat : UInt32 → UInt32} {clus next : UInt32} (h : chainNext fat clus = some next) :
    fat clus &&& fatValMask = next := by
  unfold chainNext at h
  split at h
  · cases h
  · exact Option.some.inj h

theorem mem_takeWhile_append {α : Type} {p : α → Bool} {l l' : List α} {x : α} (h : x ∈ l.takeWhile p) :
    x ∈ (l ++ l').takeWhile p := by
  rw [takeWhile_append]
  split
  · exact mem_append_left _ ((List.takeWhile_prefix _).subset h)
  · exact h

section Clusters

variable {fs fs' : Fs} {parent : ℕ} {clus : UInt32} {lfn : List UInt8}

/-- A directory whose first entry stands for the directory itself is never left. -/
theorem parseSdRecursive_dot {d : List UInt8} {rest : List (List UInt8)}
    (hslots : clusterSlots fs.vol fs.disk clus = d :: rest) (hend : isEnd d = false) (hdir : IsDirEntry d)
    (hclus : dirFstClus d = clus) (fuel : ℕ) (nodes : List Vnode) (node : ℕ) :
    parseSdRecursive fuel { fs with nodes := nodes } node clus [] = .error .diverges := by
  induction fuel generalizing nodes node with
  | zero => rfl
  | succ fuel ih =>
    rw [parseSdRecursive_succ]
    dsimp only
    rw [hslots, parseSlots_cons hend, parseSlot_dirEntry hdir, hclus, Fs.addParsed, ih]
    rfl

/-- The calls that the parser makes for entries do not return. -/
def CallsDiverge (fs : Fs) (slots : List (List UInt8)) : Prop :=
  ∀ d ∈ slots.takeWhile fun d ↦ !isEnd d, IsDirEntry d → ∀ fuel nodes node,
    parseSdRecursive fuel { fs with nodes := nodes } node (dirFstClus d) [] = .error .diverges

theorem parseSdRecursive_cluster (hlt : clus.toNat < fs.vol.fatEntries)
    (hcall : CallsDiverge fs (clusterSlots fs.vol fs.disk clus)) :
    (∃ fuel, parseSdRecursive fuel fs parent clus lfn = .ok fs') ↔
      ∃ nodes lfn' done, parseSlots noReturn parent (clusterSlots fs.vol fs.disk clus) fs lfn =
        .ok ({ fs with nodes := nodes }, lfn', done) ∧ if done then { fs with nodes := nodes } = fs' else
          ∃ fuel, parseSdRecursive fuel { fs with nodes := nodes } parent
            (fs.fat clus &&& fatValMask) lfn' =
            .ok fs' := by
  have hslots (fuel : ℕ) : parseSlots (fun fs node clus ↦
    parseSdRecursive fuel fs node clus []) parent (clusterSlots fs.vol fs.disk clus) fs lfn =
        parseSlots noReturn parent (clusterSlots fs.vol fs.disk clus) fs lfn :=
    parseSlots_noReturn fun d hd hdir nodes node ↦ hcall d hd hdir fuel nodes node
  have hentry (nodes : List Vnode) : getFatEntry { fs with nodes := nodes } clus = .ok
    (fs.fat clus) := if_pos hlt
  constructor
  · rintro ⟨fuel, h⟩
    cases fuel with
    | zero => cases h
    | succ fuel =>
      rw [parseSdRecursive_succ, hslots] at h
      obtain ⟨⟨fs₁, lfn', done⟩, hok, h⟩ := of_bind_eq_ok h
      obtain ⟨nodes, rfl⟩ : ∃ nodes, fs₁ = { fs with nodes := nodes } :=
        ⟨_, parseSlots_volume hok⟩
      refine ⟨nodes, lfn', done, hok, ?_⟩
      cases done with
      | true => exact Except.ok.inj h
      | false =>
        dsimp only at h
        rw [if_neg Bool.false_ne_true, hentry, ok_bind] at h
        exact ⟨fuel, h⟩
  · rintro ⟨nodes, lfn', done, hok, h⟩
    cases done with
    | true =>
      refine ⟨1, ?_⟩
      rw [parseSdRecursive_succ, hslots, hok]
      exact congrArg Except.ok h
    | false =>
      obtain ⟨fuel, h⟩ := h
      refine ⟨fuel + 1, ?_⟩
      rw [parseSdRecursive_succ, hslots, hok, ok_bind, if_neg Bool.false_ne_true, hentry, ok_bind,
        h]

/-- If the calls do not return, the parser returns exactly if the loop over all entries does. -/
theorem parseSdRecursive_ok_iff {clusters : List UInt32} (hchain : Chain (chainNext fs.fat) (some clus) clusters)
    (hrange : ∀ c ∈ clusters, c.toNat < fs.vol.fatEntries)
    (hend : (clusters.flatMap (clusterSlots fs.vol fs.disk)).any isEnd = true)
    (hcall : CallsDiverge fs (clusters.flatMap (clusterSlots fs.vol fs.disk))) :
    (∃ fuel, parseSdRecursive fuel fs parent clus lfn = .ok fs') ↔
      ∃ lfn', parseSlots noReturn parent (clusters.flatMap (clusterSlots fs.vol fs.disk)) fs lfn =
        .ok (fs', lfn', true) := by
  induction clusters generalizing fs clus lfn with
  | nil => exact absurd hchain nofun
  | cons c clusters ih =>
    obtain ⟨hhead, hchain⟩ := hchain
    obtain rfl := Option.some.inj hhead
    rw [flatMap_cons] at hend hcall ⊢
    rw [parseSdRecursive_cluster (hrange clus mem_cons_self) fun d hd ↦
      hcall d (mem_takeWhile_append hd),
      parseSlots_append]
    cases hslots : parseSlots noReturn parent (clusterSlots fs.vol fs.disk clus) fs lfn with
    | error e => exact iff_of_false (fun ⟨_, _, _, h, _⟩ ↦ absurd h nofun) nofun
    | ok r =>
      obtain ⟨fs₁, lfn₁, done⟩ := r
      obtain ⟨nodes, rfl⟩ : ∃ nodes, fs₁ = { fs with nodes := nodes } :=
        ⟨_, parseSlots_volume hslots⟩
      have hdone := parseSlots_done hslots
      cases done with
      | true =>
        constructor
        · rintro ⟨nodes', lfn', done, hok, h⟩
          obtain ⟨hfs, hok⟩ := Prod.mk.inj (Except.ok.inj hok)
          obtain ⟨rfl, rfl⟩ := Prod.mk.inj hok
          exact ⟨lfn₁, congrArg (fun fs ↦ Except.ok (fs, lfn₁, true)) (hfs.trans h)⟩
        · rintro ⟨lfn', h⟩
          exact ⟨nodes, lfn₁, true, rfl, (Prod.mk.inj (Except.ok.inj h)).1⟩
      | false =>
        rw [any_append, ← hdone, Bool.false_or] at hend
        have hfront : ∀ d ∈ clusterSlots fs.vol fs.disk clus, (!isEnd d) = true := by
          simpa using hdone.symm
        rw [CallsDiverge, takeWhile_append_of_pos hfront] at hcall
        cases clusters with
        | nil => exact absurd hend nofun
        | cons next clusters =>
          have hrest : (∃ fuel, parseSdRecursive fuel
            { fs with nodes := nodes } parent next lfn₁ = .ok fs') ↔
              _ := ih (hchain.1 ▸ hchain)
                (fun c hc ↦ hrange c (mem_cons_of_mem clus hc)) hend
            fun d hd hdir ↦ hcall d (mem_append_right _ hd) hdir
          rw [ok_bind, if_neg Bool.false_ne_true, ← hrest, chainNext_eq_some hchain.1]
          constructor
          · rintro ⟨nodes', lfn', done, hok, h⟩
            obtain ⟨hfs, hok⟩ := Prod.mk.inj (Except.ok.inj hok)
            obtain ⟨rfl, rfl⟩ := Prod.mk.inj hok
            rw [hfs]
            exact h
          · exact fun h ↦ ⟨nodes, lfn₁, false, rfl, h⟩

end Clusters

end CapstoneKernel.Fat32
