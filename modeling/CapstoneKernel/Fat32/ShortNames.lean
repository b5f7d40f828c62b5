import CapstoneKernel.Fat32.Entries
import CapstoneKernel.Fat32.StoredTree

/-!
# Short names in both directions

The entry that `fat32_reg_to_dir_entry` writes for a vnode, as `fat32_parse_sd_recursive` reads it.
The loop that reads the extension does not stop at its end but goes on with the attributes: those of
a file are the code of a space, and those of a directory are not.
-/

namespace CapstoneKernel.Fat32

open Execution List

/-- The two parts of an 8.3 name. -/
structure IsShortName (base ext : List UInt8) : Prop where
  base_ne_nil : base ≠ []
  length_base : base.length ≤ 8
  length_ext : ext.length ≤ 3
  chars : ∀ b ∈ base ++ ext, b ≠ space ∧ b ≠ 0
  point : 46 ∉ base
  first : ∀ b ∈ base.head?, b ≠ dirEntryUnused ∧ b ≠ dirEntryUnusedJp

/-- The name as a string. -/
def joinName (base ext : List UInt8) : List UInt8 := base ++ if ext = [] then [] else 46 :: ext

section Padding

variable {l : List UInt8} (h : space ∉ l) (n : ℕ)

include h

theorem rdropWhile_append_spaces : (l ++ spaces n).rdropWhile (· = space) = l := by
  induction n with
  | zero =>
    rw [spaces, replicate_zero, append_nil, rdropWhile_eq_self_iff]
    exact fun hne heq ↦ h (of_decide_eq_true heq ▸ getLast_mem hne)
  | succ n ih =>
    rw [spaces, replicate_succ', ← append_assoc, rdropWhile_concat_pos _ _ _ (by decide)]
    exact ih

theorem padded_append_spaces : Padded (l ++ spaces n) := by
  rw [Padded, rdropWhile_append_spaces h, takeWhile_append_of_pos]
  · rw [spaces, takeWhile_replicate]
    exact append_nil l
  · exact fun b hb ↦ decide_eq_true fun heq ↦ h (heq ▸ hb)

end Padding

section RoundTrip

variable {base ext : List UInt8} (h : IsShortName base ext)

include h

theorem IsShortName.notMem_base : space ∉ base :=
  fun hmem ↦ (h.chars _ (mem_append_left _ hmem)).1 rfl

theorem IsShortName.notMem_ext : space ∉ ext :=
  fun hmem ↦ (h.chars _ (mem_append_right _ hmem)).1 rfl

theorem IsShortName.baseName_joinName : baseName (joinName base ext) = base := by
  have hall : ∀ b ∈ base, decide (b ≠ 46) = true :=
    fun b hb ↦ decide_eq_true fun heq ↦ h.point (heq ▸ hb)
  rw [baseName, joinName, takeWhile_append_of_pos hall]
  split
  · exact append_nil base
  · exact append_nil base

theorem IsShortName.extName_joinName : extName (joinName base ext) = ext := by
  have hall : ∀ b ∈ base, decide (b ≠ 46) = true :=
    fun b hb ↦ decide_eq_true fun heq ↦ h.point (heq ▸ hb)
  rw [extName, joinName, dropWhile_append_of_pos hall]
  split
  · next hnil => exact hnil.symm
  · rfl

theorem IsShortName.shortName_eq : shortName (joinName base ext) =
    base ++ spaces (8 - base.length) ++ (ext ++ spaces (3 - ext.length)) := by
  rw [shortName, h.baseName_joinName, h.extName_joinName]

theorem IsShortName.fits : ShortFits (joinName base ext) := by
  refine ⟨by rw [h.baseName_joinName]; exact h.length_base,
    by rw [h.extName_joinName]; exact h.length_ext, ?_⟩
  rw [h.shortName_eq]
  obtain ⟨b, rest, rfl⟩ := exists_cons_of_ne_nil h.base_ne_nil
  obtain ⟨hunused, hjp⟩ := h.first b rfl
  have hzero : b ≠ dirEntryLastAndUnused := (h.chars b (mem_append_left _ mem_cons_self)).2
  have hfirst : (b == dirEntryLastAndUnused || b == dirEntryUnused || b == dirEntryUnusedJp) = false := by
    rw [beq_eq_false_iff_ne.2 hzero, beq_eq_false_iff_ne.2 hunused, beq_eq_false_iff_ne.2 hjp]
    rfl
  exact hfirst

/-- The name is read as it was, unless the loop over the extension goes on. -/
theorem IsShortName.sfnName_iff {e : List UInt8} (hlen : e.length = entrySz)
    (he : e.take 11 = shortName (joinName base ext)) :
    sfnName e = joinName base ext ↔ (ext.length = 3 → dirAttr e = attrArchive ∨ dirAttr e = 0) := by
  have hlength : (base ++ spaces (8 - base.length)).length = 8 := by
    have hbase := h.length_base
    rw [length_append, spaces, length_replicate]
    omega
  have hext3 : (ext ++ spaces (3 - ext.length)).length = 3 := by
    have hext := h.length_ext
    rw [length_append, spaces, length_replicate]
    omega
  rw [h.shortName_eq] at he
  have hbase : (Item.mk [] e).base = base ++ spaces (8 - base.length) := by
    have htake := congrArg (List.take 8) he
    rwa [take_take, take_append_of_le_length hlength.ge, take_of_length_le hlength.le] at htake
  have hext : (Item.mk [] e).ext = ext ++ spaces (3 - ext.length) := by
    have hdrop := congrArg (List.drop 8) he
    rwa [drop_take, drop_left' hlength] at hdrop
  have hfree := h.fits.used
  rw [h.shortName_eq, ← he, isFreeEntry_take _ (by decide), isFreeEntry, Bool.or_eq_false_iff] at hfree
  have hjp : dirName e 0 ≠ dirEntryUnusedJp := beq_eq_false_iff_ne.1 hfree.2
  have hzero : 0 ∉ e.take 11 := by
    rw [he]
    simp only [mem_append, spaces, mem_replicate, not_or]
    exact ⟨⟨fun hmem ↦ (h.chars 0 (mem_append_left _ hmem)).2 rfl, fun hmem ↦ absurd hmem.2 (by decide)⟩,
      fun hmem ↦ (h.chars 0 (mem_append_right _ hmem)).2 rfl, fun hmem ↦ absurd hmem.2 (by decide)⟩
  have hname : (Item.mk [] e).shortName = joinName base ext := by
    rw [Item.shortName, hbase, hext, if_neg hjp, rdropWhile_append_spaces h.notMem_base,
      rdropWhile_append_spaces h.notMem_ext, joinName]
  have hspace : space ∉ (Item.mk [] e).ext ↔ ext.length = 3 := by
    have hle := h.length_ext
    rw [hext, mem_append, spaces, mem_replicate]
    constructor
    · intro hnot
      by_contra hne
      exact hnot (.inr ⟨by omega, rfl⟩)
    · rintro heq (hmem | ⟨hne, -⟩)
      · exact h.notMem_ext hmem
      · omega
  have hiff : sfnName (Item.mk [] e).short = (Item.mk [] e).shortName ↔ _ :=
    Item.sfnName_eq_iff hlen hzero hjp
  rw [hname, Item.PlainShort, hspace, hbase, hext] at hiff
  exact hiff.trans ⟨fun hplain ↦ hplain.2.2, fun hattr ↦ ⟨padded_append_spaces h.notMem_base _,
    padded_append_spaces h.notMem_ext _, hattr⟩⟩

end RoundTrip

/-- The two vnodes have the same name, kind, size and first cluster. -/
def SameEntry (v v' : Vnode) : Prop :=
  v'.name = v.name ∧ v'.type = v.type ∧ v'.fileSize = v.fileSize ∧ v'.clusIdx = v.clusIdx

/-- The entry of a vnode with an 8.3 name is stored, and read back with the same name, kind, size
and first cluster exactly if the size fits, and a directory has a shorter extension and no size. -/
theorem short_name_round_trip_iff {cache : List Sector} {k : ℕ} {v : Vnode} {base ext : List UInt8}
    (parent : ℕ) (hk : k < (dirSlots cache).length) (h : IsShortName base ext)
    (hname : v.name = joinName base ext) :
    ∃ cache' e v', storeEntry cache k v = .ok cache' ∧ (dirSlots cache')[k]? = some e ∧
      (∀ recurse fs, parseSlot recurse parent fs [] e =
        (if v'.type = .dir then recurse (fs.addParsed parent v') fs.nodes.length v'.clusIdx
          else .ok (fs.addParsed parent v')).map fun fs ↦ (fs, [])) ∧
      (SameEntry v v' ↔
        if v.type = .dir then ext.length < 3 ∧ v.fileSize = 0 else v.fileSize < 2 ^ 32) := by
  have hfits : ShortFits v.name := hname ▸ h.fits
  have hlen : (dirSlots cache)[k].length = entrySz := length_of_mem_dirSlots _ (getElem_mem hk)
  obtain ⟨cache', hstore, hstored⟩ := storeEntry_spec (getElem?_eq_getElem hk) hfits
  have hattr := dirAttr_newEntry hlen hfits
  have hclus := dirFstClus_newEntry hlen hfits
  have hsize := dirFileSize_newEntry hlen hfits
  have hfree := isFreeEntry_newEntry hlen hfits
  have hentry := length_of_mem_dirSlots _ (mem_of_getElem? (hstored.get hk))
  have hsfn := h.sfnName_iff hentry ((take_newEntry hlen hfits).trans (congrArg shortName hname))
  generalize newEntry (dirSlots cache)[k] v = e at hstored hattr hclus hsize hfree hentry hsfn
  refine ⟨cache', e, parsedVnode parent v.type (sfnName e) e, hstore, hstored.get hk, fun recurse fs ↦ ?_, ?_⟩
  · rw [isFreeEntry, Bool.or_eq_false_iff, Bool.or_eq_false_iff] at hfree
    rw [parseSlot, if_neg, parseShort, hattr, attrOf]
    · cases htype : v.type with
      | file => rfl
      | dir => rfl
    · rintro (hunused | hjp)
      · exact beq_eq_false_iff_ne.1 hfree.1.2 hunused
      · exact beq_eq_false_iff_ne.1 hfree.2 hjp
  · have hlt := h.length_ext
    rw [SameEntry, hname]
    change sfnName e = _ ∧ v.type = v.type ∧ (if v.type = .file then (dirFileSize e).toNat else 0) =
      v.fileSize ∧ dirFstClus e = v.clusIdx ↔ _
    rw [hsfn, hattr, hclus, hsize, attrOf]
    cases htype : v.type with
    | file => simp
    | dir =>
      constructor
      · rintro ⟨hattr, -, hsize, -⟩
        refine ⟨hlt.lt_of_ne fun heq ↦ absurd (hattr heq) (by decide), hsize.symm⟩
      · rintro ⟨hlt, hsize⟩
        exact ⟨fun heq ↦ absurd heq hlt.ne, rfl, hsize.symm, rfl⟩

/-- A vnode with the name `a.bbb`. -/
def shortVnode (type : FileType) : Vnode := ⟨some 0, type, [97, 46, 98, 98, 98], 0, [], 5, false, []⟩

theorem shortVnode_isShortName : IsShortName [97] [98, 98, 98] :=
  ⟨by decide, by decide, by decide, by simp [space], by decide,
    by simp [dirEntryUnused, dirEntryUnusedJp]⟩

/-- A file of this name. -/
theorem short_name_round_trip_iff_file :
    ∃ cache' e v', storeEntry [.zero] 0 (shortVnode .file) = .ok cache' ∧
      (dirSlots cache')[0]? = some e ∧ SameEntry (shortVnode .file) v' := by
  have hk : 0 < (dirSlots [Sector.zero]).length := by rw [length_dirSlots]; decide
  have hname : (shortVnode .file).name = joinName [97] [98, 98, 98] := rfl
  obtain ⟨cache', e, v', hstore, he, -, hiff⟩ :=
    short_name_round_trip_iff 0 hk shortVnode_isShortName hname
  exact ⟨cache', e, v', hstore, he, hiff.2 (by decide)⟩

/-- A directory is read as `a.bbb0`. -/
theorem directory_name_longer :
    ((storeEntry [.zero] 0 (shortVnode .dir)).map fun cache ↦ (dirSlots cache).head?.map sfnName).toOption =
      some (some [97, 46, 98, 98, 98, 48]) := by
  decide +kernel

end CapstoneKernel.Fat32
