import CapstoneKernel.Fat32.Slots

/-!
# The entries in a sector of a directory

`fat32_reg_to_dir_entry` takes the first free entry of a directory for a new vnode, and
`fat32_write` stores the size of a file in the first entry with its cluster.  Where both stay in the
first sector of the directory, the entries of all vnodes that have been registered are kept: they
lie in front of the first free entry, and no entry before them has the same cluster.
-/

namespace CapstoneKernel.Fat32

open Overlay Execution List Option

/-! ## The fields of an entry -/

section Halves

variable {base data : List UInt8} {off i : ℕ}

theorem half_overlay (h : off + 2 ≤ base.length) (x : UInt32) :
    (half (overlay base off (bytesOf16 x)) off).toNat = x.toNat % 2 ^ 16 := by
  have hoff : off ≤ base.length := by omega
  have hlow : (overlay base off (bytesOf16 x)).getD (off + 0) 0 = x.toUInt8 :=
    getD_overlay hoff Nat.zero_lt_two 0
  have hhigh : (overlay base off (bytesOf16 x)).getD (off + 1) 0 = (x >>> 8).toUInt8 :=
    getD_overlay hoff Nat.one_lt_two 0
  have hlow' : x.toUInt8.toUInt32.toNat = x.toNat % 2 ^ 8 := by simp
  have hhigh' : (x >>> 8).toUInt8.toUInt32.toNat = x.toNat / 2 ^ 8 % 2 ^ 8 := by
    rw [UInt8.toNat_toUInt32, UInt32.toNat_toUInt8, UInt32.toNat_shiftRight,
      Nat.shiftRight_eq_div_pow]
    rfl
  have height : (8 : UInt32).toNat % 32 = 8 := rfl
  rw [Nat.add_zero] at hlow
  rw [half, hlow, hhigh, UInt32.toNat_add, UInt32.toNat_shiftLeft, hlow', hhigh', Nat.shiftLeft_eq,
    height]
  omega

theorem half_overlay_of_outside (hoff : off ≤ base.length)
    (hi : i + 1 < off ∨ off + data.length ≤ i) : half (overlay base off data) i = half base i := by
  rw [half, half, getD_overlay_of_outside hoff (by omega), getD_overlay_of_outside hoff (by omega)]

theorem halves_eq {lo hi x : UInt32} (hlo : lo.toNat = x.toNat % 2 ^ 16)
    (hhi : hi.toNat = (x >>> 16).toNat % 2 ^ 16) : lo + (hi <<< 16) = x := by
  have hlt := x.toNat_lt
  have hsixteen : (16 : UInt32).toNat % 32 = 16 := rfl
  apply UInt32.toNat.inj
  rw [UInt32.toNat_shiftRight, Nat.shiftRight_eq_div_pow, hsixteen] at hhi
  rw [UInt32.toNat_add, UInt32.toNat_shiftLeft, hlo, hhi, Nat.shiftLeft_eq, hsixteen]
  omega

end Halves

/-! ## New entries -/

/-- The name in an entry: the part before the dot and the one after it, each filled up with
spaces. -/
def shortName (name : List UInt8) : List UInt8 :=
  baseName name ++ spaces (8 - (baseName name).length) ++
    (extName name ++ spaces (3 - (extName name).length))

/-- The name fits into an entry, which is then not taken for a free one. -/
structure ShortFits (name : List UInt8) : Prop where
  base : (baseName name).length ≤ 8
  ext : (extName name).length ≤ 3
  used : isFreeEntry (shortName name) = false

instance (name : List UInt8) : Decidable (ShortFits name) :=
  decidable_of_iff ((baseName name).length ≤ 8 ∧ (extName name).length ≤ 3 ∧
    isFreeEntry (shortName name) = false) ⟨fun h ↦ ⟨h.1, h.2.1, h.2.2⟩, fun h ↦ ⟨h.1, h.2, h.3⟩⟩

def attrOf (v : Vnode) : UInt8 :=
  if v.type = .dir then attrArchive ||| attrDirectory else attrArchive

/-- An entry with the name and the attributes of a vnode. -/
def namedEntry (d : List UInt8) (v : Vnode) : List UInt8 :=
  overlay (overlay d 0 (shortName v.name)) 11 [attrOf v]

/-- An entry with the size as well. -/
def sizedEntry (d : List UInt8) (v : Vnode) : List UInt8 :=
  overlay (namedEntry d v) 28 (bytesOf32 (UInt32.ofNat v.fileSize))

/-- What `fat32_reg_to_dir_entry` makes of an entry. -/
def newEntry (d : List UInt8) (v : Vnode) : List UInt8 :=
  overlay (overlay (sizedEntry d v) 20 (bytesOf16 (v.clusIdx >>> 16))) 26 (bytesOf16 v.clusIdx)

theorem length_shortName {name : List UInt8} (h : ShortFits name) :
    (shortName name).length = 11 := by
  obtain ⟨hbase, hext, -⟩ := h
  simp only [shortName, spaces, length_append, length_replicate]
  omega

theorem overlay_shortName {d name : List UInt8} (h : ShortFits name) :
    overlay (overlay (overlay (overlay d 0 (baseName name)) (baseName name).length
      (spaces (8 - (baseName name).length))) 8 (extName name)) (8 + (extName name).length)
        (spaces (3 - (extName name).length)) = overlay d 0 (shortName name) := by
  have hlength : (baseName name ++ spaces (8 - (baseName name).length)).length = 8 := by
    have hbase := h.base
    simp only [spaces, length_append, length_replicate]
    omega
  have hname : overlay (overlay d 0 (baseName name)) (0 + (baseName name).length)
      (spaces (8 - (baseName name).length)) =
        overlay d 0 (baseName name ++ spaces (8 - (baseName name).length)) :=
    overlay_overlay (Nat.zero_le _)
  rw [Nat.zero_add] at hname
  rw [hname, shortName]
  generalize baseName name ++ spaces (8 - (baseName name).length) = base at hlength ⊢
  generalize extName name = ext
  have hext : overlay (overlay d 0 base) (0 + base.length) ext = overlay d 0 (base ++ ext) :=
    overlay_overlay (Nat.zero_le _)
  have hspaces : overlay (overlay d 0 (base ++ ext)) (0 + (base ++ ext).length)
      (spaces (3 - ext.length)) = overlay d 0 (base ++ ext ++ spaces (3 - ext.length)) :=
    overlay_overlay (Nat.zero_le _)
  rw [Nat.zero_add, hlength] at hext
  rw [Nat.zero_add, length_append, hlength, append_assoc] at hspaces
  rw [hext, hspaces]

section Size

variable {d : List UInt8}

section

variable (hd : d.length = entrySz)
include hd

theorem length_overlay_entry {off : ℕ} {data : List UInt8} (h : off + data.length ≤ entrySz) :
    (overlay d off data).length = entrySz := by
  rw [length_overlay (by rw [hd]; exact h), hd]

omit hd in
theorem length_bytesOf16 (x : UInt32) : (bytesOf16 x).length = 2 := rfl

theorem dirFileSize_overlay (x : UInt32) : dirFileSize (overlay d 28 (bytesOf32 x)) = x := by
  have hparts : overlay (overlay d 28 (bytesOf16 x)) 30 (bytesOf16 (x >>> 16)) =
      overlay d 28 (bytesOf32 x) := overlay_overlay (by rw [hd]; decide)
  have hlength : (overlay d 28 (bytesOf16 x)).length = entrySz :=
    length_overlay_entry hd (by rw [length_bytesOf16]; decide)
  rw [dirFileSize, ← hparts]
  refine halves_eq ?_ (half_overlay (by rw [hlength]; decide) _)
  rw [half_overlay_of_outside (by rw [hlength]; decide) (.inl (by decide)),
    half_overlay (by rw [hd]; decide)]

theorem dirFileSize_withSize (fileSize : UInt32) :
    dirFileSize (withSize d fileSize) = fileSize := by
  have hoff : 11 ≤ (overlay d 28 (bytesOf32 fileSize)).length := by
    rw [length_overlay_size hd]
    decide
  rw [dirFileSize, withSize, half_overlay_of_outside hoff (.inr (by rw [length_singleton]; decide)),
    half_overlay_of_outside hoff (.inr (by rw [length_singleton]; decide))]
  exact dirFileSize_overlay hd fileSize

theorem take_withSize (fileSize : UInt32) : (withSize d fileSize).take 11 = d.take 11 := by
  rw [withSize, take_overlay_of_le (by rw [length_overlay_size hd]; decide) (Nat.le_refl 11),
    take_overlay_of_le (by rw [hd]; decide) (by decide)]

omit hd in
theorem isFreeEntry_take (d : List UInt8) {n : ℕ} (hn : 0 < n) :
    isFreeEntry (d.take n) = isFreeEntry d := by
  have hfirst : dirName (d.take n) 0 = dirName d 0 := by
    rw [dirName, dirName, getD_eq_getElem?_getD, getD_eq_getElem?_getD, getElem?_take_of_lt hn]
  rw [isFreeEntry, isFreeEntry, hfirst]

theorem isFreeEntry_withSize (fileSize : UInt32) :
    isFreeEntry (withSize d fileSize) = isFreeEntry d := by
  rw [← isFreeEntry_take _ (Nat.zero_lt_succ 10), take_withSize hd,
    isFreeEntry_take _ (Nat.zero_lt_succ 10)]

end

end Size

section New

variable {d : List UInt8} {v : Vnode}

theorem attrOf_ne (v : Vnode) : attrOf v ≠ attrLongName := by
  unfold attrOf
  split <;> decide

variable (hd : d.length = entrySz) (hname : ShortFits v.name)

include hd hname

theorem length_overlay_shortName : (overlay d 0 (shortName v.name)).length = entrySz :=
  length_overlay_entry hd (by rw [length_shortName hname]; decide)

theorem length_namedEntry : (namedEntry d v).length = entrySz :=
  length_overlay_entry (length_overlay_shortName hd hname) (by rw [length_singleton]; decide)

theorem length_sizedEntry : (sizedEntry d v).length = entrySz :=
  length_overlay_size (length_namedEntry hd hname)

theorem length_overlay_high :
    (overlay (sizedEntry d v) 20 (bytesOf16 (v.clusIdx >>> 16))).length = entrySz :=
  length_overlay_entry (length_sizedEntry hd hname) (by rw [length_bytesOf16]; decide)

theorem take_newEntry : (newEntry d v).take 11 = shortName v.name := by
  rw [newEntry, take_overlay_of_le (by rw [length_overlay_high hd hname]; decide) (by decide),
    take_overlay_of_le (by rw [length_sizedEntry hd hname]; decide) (by decide), sizedEntry,
    take_overlay_of_le (by rw [length_namedEntry hd hname]; decide) (by decide), namedEntry,
    take_overlay_of_le (by rw [length_overlay_shortName hd hname]; decide) (by decide)]
  nth_rewrite 1 [← length_shortName hname]
  exact take_overlay_zero d _

theorem dirAttr_newEntry : dirAttr (newEntry d v) = attrOf v := by
  have hoff : 11 ≤ (overlay d 0 (shortName v.name)).length := by
    rw [length_overlay_shortName hd hname]
    decide
  rw [dirAttr, newEntry,
    getD_overlay_of_outside (by rw [length_overlay_high hd hname]; decide) (.inl (by decide)),
    getD_overlay_of_outside (by rw [length_sizedEntry hd hname]; decide) (.inl (by decide)),
    sizedEntry,
    getD_overlay_of_outside (by rw [length_namedEntry hd hname]; decide) (.inl (by decide))]
  have hattr : (namedEntry d v).getD (11 + 0) 0 = [attrOf v].getD 0 0 :=
    getD_overlay hoff Nat.one_pos 0
  exact hattr

theorem dirFstClus_newEntry : dirFstClus (newEntry d v) = v.clusIdx := by
  rw [dirFstClus, newEntry, UInt32.add_comm]
  refine halves_eq (half_overlay (by rw [length_overlay_high hd hname]; decide) _) ?_
  rw [half_overlay_of_outside (by rw [length_overlay_high hd hname]; decide) (.inl (by decide)),
    half_overlay (by rw [length_sizedEntry hd hname]; decide)]

theorem dirFileSize_newEntry : dirFileSize (newEntry d v) = UInt32.ofNat v.fileSize := by
  have hkept (i : ℕ) (hi : 28 ≤ i) : half (newEntry d v) i = half (sizedEntry d v) i := by
    rw [newEntry, half_overlay_of_outside (by rw [length_overlay_high hd hname]; decide)
      (.inr (by rw [length_bytesOf16]; omega)),
      half_overlay_of_outside (by rw [length_sizedEntry hd hname]; decide)
        (.inr (by rw [length_bytesOf16]; omega))]
  rw [dirFileSize, hkept 28 (by decide), hkept 30 (by decide)]
  exact dirFileSize_overlay (length_namedEntry hd hname) _

theorem isFreeEntry_newEntry : isFreeEntry (newEntry d v) = false := by
  rw [← isFreeEntry_take _ (Nat.zero_lt_succ 10), take_newEntry hd hname]
  exact hname.used

end New

/-! ## Stores to an entry -/

section Stores

variable {s : Sector} {cache rest cache' : List Sector} {k off : ℕ} {d data : List UInt8} {v : Vnode}

theorem storeEntry_spec (hd : (dirSlots cache)[k]? = some d) (hname : ShortFits v.name) :
    Returns (storeEntry cache k v) (EntryStored cache k (newEntry d v)) := by
  have hk := (List.getElem?_eq_some_iff.1 hd).1
  have hbase := hname.base
  have hext := hname.ext
  have hspaces (n : ℕ) : (spaces n).length = n := length_replicate
  have hentry : entrySz = 32 := rfl
  refine (storeSlot_spec hd (by omega)).bind fun c₁ h₁ ↦ ?_
  refine (h₁.again hk (by rw [hspaces]; omega)).bind fun c₂ h₂ ↦ ?_
  refine (h₂.again hk (by omega)).bind fun c₃ h₃ ↦ ?_
  refine (h₃.again hk (by rw [hspaces]; omega)).bind fun c₄ h₄ ↦ ?_
  rw [overlay_shortName hname] at h₄
  refine (h₄.again hk (by rw [length_singleton]; decide)).bind fun c₅ h₅ ↦ ?_
  refine (h₅.again hk (by rw [length_bytesOf32]; decide)).bind fun c₆ h₆ ↦ ?_
  refine (h₆.again hk (by rw [length_bytesOf16]; decide)).bind fun c₇ h₇ ↦ ?_
  exact h₇.again hk (by rw [length_bytesOf16]; decide)

theorem length_of_getElem?_slots (hd : s.slots[k]? = some d) : d.length = entrySz :=
  length_of_mem_slots d (mem_of_getElem? hd)

theorem getElem?_dirSlots_cons (hd : s.slots[k]? = some d) :
    (dirSlots (s :: rest))[k]? = some d := by
  rw [dirSlots, flatMap_cons, getElem?_append_left (List.getElem?_eq_some_iff.1 hd).1, hd]

theorem EntryStored.first (h : EntryStored (s :: rest) k d cache') (hk : k < s.slots.length) :
    ∃ s', cache' = s' :: rest ∧ s'.slots = s.slots.set k d := by
  obtain ⟨⟨s', rfl⟩, hslots⟩ := h
  rw [length_slots] at hk
  rw [Nat.div_eq_of_lt hk, set_cons_zero] at hslots ⊢
  refine ⟨s', rfl, ?_⟩
  rw [dirSlots, dirSlots, flatMap_cons, flatMap_cons,
    set_append_left _ _ (by rwa [length_slots])] at hslots
  exact (append_inj hslots (by rw [length_set, length_slots, length_slots])).1

end Stores

/-! ## Lists of entries -/

/-- The entry shows the name, the first cluster and the size of the vnode. -/
structure IsShortEntry (v : Vnode) (e : List UInt8) : Prop where
  name : e.take 11 = shortName v.name
  clus : isEntryOf v.clusIdx e = true
  size : dirFileSize e = UInt32.ofNat v.fileSize

/-- The vnode has an entry.  All entries up to it are in use, and those before it do not have its
cluster. -/
def Listed (slots : List (List UInt8)) (v : Vnode) : Prop :=
  ∃ k e, slots[k]? = some e ∧ IsShortEntry v e ∧ (∀ d ∈ slots.take (k + 1), isFreeEntry d = false) ∧
    ∀ d ∈ slots.take k, isEntryOf v.clusIdx d = false

/-- No entry in use names a free cluster. -/
def EntriesUsed (fat : UInt32 → UInt32) (slots : List (List UInt8)) : Prop :=
  ∀ e ∈ slots, isFreeEntry e = false → dirAttr e ≠ attrLongName → fat (dirFstClus e) ≠ fatEntryFree

section Lists

variable {slots slots' : List (List UInt8)} {fat : UInt32 → UInt32} {k : ℕ} {d e : List UInt8}
  {u v : Vnode}

theorem dirFstClus_of_isEntryOf {clus : UInt32} (h : isEntryOf clus e = true) :
    dirFstClus e = clus := by
  rw [isEntryOf, Bool.and_eq_true] at h
  exact beq_iff_eq.1 h.2

theorem newEntry_isShortEntry (hd : d.length = entrySz) (hname : ShortFits v.name) :
    IsShortEntry v (newEntry d v) := by
  refine ⟨take_newEntry hd hname, ?_, dirFileSize_newEntry hd hname⟩
  rw [isEntryOf, dirAttr_newEntry hd hname, dirFstClus_newEntry hd hname, Bool.and_eq_true]
  exact ⟨bne_iff_ne.2 (attrOf_ne v), beq_self_eq_true _⟩

/-- What registering makes of the entries: the first free one is taken, and behind it entries only
become free. -/
structure TakesEntry (slots : List (List UInt8)) (v : Vnode) (slots' : List (List UInt8)) (k : ℕ) :
    Prop where
  first : slots.findIdx? isFreeEntry = some k
  entry : ∃ e, slots'[k]? = some e ∧ IsShortEntry v e ∧ isFreeEntry e = false
  before : slots'.take k = slots.take k
  behind : ∀ e ∈ slots'.drop (k + 1), e ∈ slots ∨ isFreeEntry e = true

namespace TakesEntry

variable (h : TakesEntry slots v slots' k)

include h

theorem used_before : ∀ d ∈ slots.take k, isFreeEntry d = false := by
  obtain ⟨hlt, -, hbefore⟩ := findIdx?_eq_some_iff_getElem.1 h.first
  intro d hd
  obtain ⟨j, hj, rfl⟩ := mem_take_iff_getElem.1 hd
  exact eq_false_of_ne_true (hbefore j (by omega))

theorem take_succ_eq : ∃ e, slots'[k]? = some e ∧ IsShortEntry v e ∧ isFreeEntry e = false ∧
    slots'.take (k + 1) = slots.take k ++ [e] := by
  obtain ⟨e, he, hentry, hused⟩ := h.entry
  exact ⟨e, he, hentry, hused, by rw [take_add_one, he, h.before]; rfl⟩

theorem listed_new (hclus : ∀ d ∈ slots.take k, isEntryOf v.clusIdx d = false) :
    Listed slots' v := by
  obtain ⟨e, he, hentry, hused, htake⟩ := h.take_succ_eq
  refine ⟨k, e, he, hentry, fun d hd ↦ ?_, by rwa [h.before]⟩
  rw [htake, mem_append, mem_singleton] at hd
  rcases hd with hd | rfl
  · exact h.used_before d hd
  · exact hused

/-- The vnodes that had an entry keep it, since it lies before the first free one. -/
theorem listed (hu : Listed slots u) : Listed slots' u := by
  obtain ⟨j, e, he, hentry, hused, hclus⟩ := hu
  obtain ⟨hlt, hfree, -⟩ := findIdx?_eq_some_iff_getElem.1 h.first
  have hjk : j < k := by
    by_contra hle
    have hmem : slots[k] ∈ slots.take (j + 1) :=
      mem_take_iff_getElem.2 ⟨k, by omega, rfl⟩
    exact Bool.false_ne_true ((hused _ hmem).symm.trans hfree)
  have htake {n : ℕ} (hn : n ≤ k) : slots'.take n = slots.take n := by
    have hsame := congrArg (List.take n) h.before
    rwa [take_take, take_take, Nat.min_eq_left hn] at hsame
  refine ⟨j, e, ?_, hentry, by rwa [htake hjk], by rwa [htake (Nat.le_of_lt hjk)]⟩
  have hget := congrArg (·[j]?) h.before
  simp only [getElem?_take_of_lt hjk] at hget
  rw [hget, he]

theorem entriesUsed (hused : EntriesUsed fat slots) (hv : fat v.clusIdx ≠ fatEntryFree) :
    EntriesUsed fat slots' := by
  intro e he hfree hattr
  obtain ⟨new, -, hentry, -, htake⟩ := h.take_succ_eq
  rw [← take_append_drop (k + 1) slots', htake, append_assoc, mem_append,
    mem_append, mem_singleton] at he
  rcases he with hold | rfl | hbehind
  · exact hused e (mem_of_mem_take hold) hfree hattr
  · rwa [dirFstClus_of_isEntryOf hentry.clus]
  · rcases h.behind e hbehind with hold | hnew
    · exact hused e hold hfree hattr
    · exact absurd (hfree.symm.trans hnew) Bool.false_ne_true

end TakesEntry

/-! ### Sizes -/

/-- What storing a size makes of the entries: it goes to the first one with the cluster. -/
def Resized (slots : List (List UInt8)) (clus fileSize : UInt32) (slots' : List (List UInt8)) :
    Prop :=
  ∃ k e, slots.findIdx? (isEntryOf clus) = some k ∧ slots[k]? = some e ∧ e.length = entrySz ∧
    slots' = slots.set k (withSize e fileSize)

/-- The entry of a vnode is the one `get_dir_entry` finds. -/
theorem Listed.findIdx?_eq (h : Listed slots u) :
    ∃ k e, slots.findIdx? (isEntryOf u.clusIdx) = some k ∧
    slots[k]? = some e ∧ IsShortEntry u e ∧ ∀ d ∈ slots.take (k + 1), isFreeEntry d = false := by
  obtain ⟨k, e, he, hentry, hused, hclus⟩ := h
  obtain ⟨hlt, hget⟩ := List.getElem?_eq_some_iff.1 he
  refine ⟨k, e, findIdx?_eq_some_iff_getElem.2 ⟨hlt, hget ▸ hentry.clus, fun j hj ↦ ?_⟩, he,
    hentry, hused⟩
  rw [hclus slots[j] (mem_take_iff_getElem.2 ⟨j, by omega, rfl⟩)]
  exact Bool.false_ne_true

namespace Resized

variable {clus fileSize : UInt32} (h : Resized slots clus fileSize slots')

include h

/-- Every entry is as before or has got another size. -/
theorem mem_take {n : ℕ} (hd : d ∈ slots'.take n) : d ∈ slots.take n ∨
    ∃ e ∈ slots.take n, e.length = entrySz ∧ isEntryOf clus e = true ∧ d = withSize e fileSize := by
  obtain ⟨k, e, hk, he, hlength, rfl⟩ := h
  obtain ⟨hlt, hget⟩ := List.getElem?_eq_some_iff.1 he
  rcases Nat.lt_or_ge k n with hkn | hnk
  · rw [take_set] at hd
    refine (mem_or_eq_of_mem_set hd).imp_right fun hsized ↦
      ⟨e, mem_take_iff_getElem.2 ⟨k, by omega, hget⟩, hlength, ?_, hsized⟩
    exact hget ▸ (findIdx?_eq_some_iff_getElem.1 hk).2.1
  · rw [take_set_of_le hnk] at hd
    exact .inl hd

theorem used_take {n : ℕ} (hused : ∀ d ∈ slots.take n, isFreeEntry d = false) :
    ∀ d ∈ slots'.take n, isFreeEntry d = false := by
  intro d hd
  rcases h.mem_take hd with hold | ⟨e, he, hlength, -, rfl⟩
  · exact hused d hold
  · rw [isFreeEntry_withSize hlength]
    exact hused e he

theorem listed (hu : Listed slots u) (hne : u.clusIdx ≠ clus) : Listed slots' u := by
  obtain ⟨j, e, he, hentry, hused, hclus⟩ := hu
  refine ⟨j, e, ?_, hentry, h.used_take hused, fun d hd ↦ ?_⟩
  · obtain ⟨k, e', hk, he', -, rfl⟩ := h
    obtain ⟨hlt, hget⟩ := List.getElem?_eq_some_iff.1 he'
    have hkj : k ≠ j := by
      rintro rfl
      obtain rfl := mem_unique he he'
      have hclus' := (findIdx?_eq_some_iff_getElem.1 hk).2.1
      rw [hget] at hclus'
      exact hne ((dirFstClus_of_isEntryOf hentry.clus).symm.trans (dirFstClus_of_isEntryOf hclus'))
    rw [getElem?_set_ne hkj, he]
  · rcases h.mem_take hd with hold | ⟨e', -, hlength, hclus', rfl⟩
    · exact hclus d hold
    · rw [isEntryOf, dirFstClus_withSize hlength, dirFstClus_of_isEntryOf hclus',
        beq_eq_false_iff_ne.2 hne.symm, Bool.and_false]

theorem listed_self {u' : Vnode} (hu : Listed slots u) (hclus : u.clusIdx = clus)
    (hname : u'.name = u.name) (hclus' : u'.clusIdx = u.clusIdx)
    (hsize : fileSize = UInt32.ofNat u'.fileSize) : Listed slots' u' := by
  obtain ⟨j, e, hj, he, hentry, hused⟩ := hu.findIdx?_eq
  have hused' := h.used_take hused
  obtain ⟨k, e', hk, he', hlength, rfl⟩ := h
  subst hclus
  obtain rfl := mem_unique hj hk
  obtain rfl := mem_unique he he'
  obtain ⟨hlt, hget⟩ := List.getElem?_eq_some_iff.1 he
  refine ⟨j, withSize e fileSize, getElem?_set_self hlt, ⟨?_, ?_, ?_⟩, hused', fun d hd ↦ ?_⟩
  · rw [take_withSize hlength, hname, hentry.name]
  · rw [hclus']
    exact isEntryOf_withSize hlength hentry.clus
  · rw [dirFileSize_withSize hlength, hsize]
  · rw [take_set_of_le (Nat.le_refl j)] at hd
    obtain ⟨i, hi, rfl⟩ := mem_take_iff_getElem.1 hd
    rw [hclus']
    exact eq_false_of_ne_true ((findIdx?_eq_some_iff_getElem.1 hj).2.2 i (by omega))

theorem entriesUsed (hused : EntriesUsed fat slots) : EntriesUsed fat slots' := by
  intro d hd hfree hattr
  rw [← take_length (l := slots')] at hd
  rcases h.mem_take hd with hold | ⟨e, he, hlength, hclus, rfl⟩
  · exact hused d (mem_of_mem_take hold) hfree hattr
  · rw [isFreeEntry_withSize hlength] at hfree
    rw [dirFstClus_withSize hlength]
    rw [isEntryOf, Bool.and_eq_true] at hclus
    exact hused e (mem_of_mem_take he) hfree (bne_iff_ne.1 hclus.1)

end Resized

theorem Listed.congr (h : Listed slots u) (hname : v.name = u.name) (hclus : v.clusIdx = u.clusIdx)
    (hsize : v.fileSize = u.fileSize) : Listed slots v := by
  obtain ⟨k, e, he, hentry, hused, hbefore⟩ := h
  refine ⟨k, e, he, ⟨?_, ?_, ?_⟩, hused, by rwa [hclus]⟩
  · rw [hname, hentry.name]
  · rw [hclus, hentry.clus]
  · rw [hsize, hentry.size]

end Lists

/-! ## The functions of the source -/

section Functions

variable {s : Sector} {rest cache cache' : List Sector} {k : ℕ} {v : Vnode}

theorem isFreeEntry_overlay_last (d : List UInt8) :
    isFreeEntry (overlay d 0 [dirEntryLastAndUnused]) = true := rfl

/-- Registering in the first sector, as `fat32_reg_to_dir_entry` does it when the directory does not
grow. -/
theorem takesEntry_of_stores (hk : s.slots.findIdx? isFreeEntry = some k) (hname : ShortFits v.name)
    (hplace : isLast (s :: rest) k = false ∧ cache = s :: rest ∨
      isLast (s :: rest) k = true ∧ k % (blkSz / entrySz) + 1 ≠ blkSz / entrySz ∧
        storeSlot (s :: rest) (k + 1) 0 [dirEntryLastAndUnused] = .ok cache)
    (hstore : storeEntry cache k v = .ok cache') :
    ∃ s', cache' = s' :: rest ∧ TakesEntry s.slots v s'.slots k := by
  obtain ⟨hlt, -, -⟩ := findIdx?_eq_some_iff_getElem.1 hk
  have hd : s.slots[k]? = some s.slots[k] := getElem?_eq_getElem hlt
  have hlength := length_of_getElem?_slots hd
  have hentry := newEntry_isShortEntry hlength hname
  have hused := isFreeEntry_newEntry hlength hname
  rcases hplace with ⟨-, rfl⟩ | ⟨-, hmod, hmove⟩
  · obtain ⟨s', rfl, hs'⟩ :=
      ((storeEntry_spec (getElem?_dirSlots_cons hd) hname).post_of_eq hstore).first hlt
    refine ⟨s', rfl, hk, ⟨_, ?_, hentry, hused⟩, ?_, fun e he ↦ .inl ?_⟩
    · rw [hs', getElem?_set_self hlt]
    · rw [hs', take_set_of_le (Nat.le_refl k)]
    · rw [hs', drop_set_of_lt (Nat.lt_succ_self k)] at he
      exact mem_of_mem_drop he
  · have hlt₁ : k + 1 < s.slots.length := by
      rw [length_slots] at hlt ⊢
      rw [Nat.mod_eq_of_lt hlt] at hmod
      omega
    obtain ⟨s₁, rfl, hs₁⟩ := ((storeSlot_spec (getElem?_dirSlots_cons (getElem?_eq_getElem hlt₁))
      (Nat.le_of_ble_eq_true rfl)).post_of_eq hmove).first hlt₁
    have hd₁ : s₁.slots[k]? = some s.slots[k] := by
      rw [hs₁, getElem?_set_ne (Nat.succ_ne_self k), hd]
    have hlt' : k < s₁.slots.length := by rwa [hs₁, length_set]
    obtain ⟨s', rfl, hs'⟩ :=
      ((storeEntry_spec (getElem?_dirSlots_cons hd₁) hname).post_of_eq hstore).first hlt'
    refine ⟨s', rfl, hk, ⟨_, ?_, hentry, hused⟩, ?_, fun e he ↦ ?_⟩
    · rw [hs', getElem?_set_self hlt']
    · rw [hs', take_set_of_le (Nat.le_refl k), hs₁, take_set_of_le (Nat.le_succ k)]
    · rw [hs', drop_set_of_lt (Nat.lt_succ_self k), hs₁] at he
      rcases mem_or_eq_of_mem_set (mem_of_mem_drop he) with hold | rfl
      · exact .inl hold
      · exact .inr (isFreeEntry_overlay_last _)

/-- Storing a size in the first sector, as `fat32_write` does it. -/
theorem resized_of_stores {clus fileSize : UInt32} (hk : s.slots.findIdx? (isEntryOf clus) = some k)
    (h₁ : storeSlot (s :: rest) k 28 (bytesOf32 fileSize) = .ok cache)
    (h₂ : storeSlot cache k 11 [dirAttr ((dirSlots cache).getD k []) ||| attrArchive] =
      .ok cache') :
    ∃ s', cache' = s' :: rest ∧ Resized s.slots clus fileSize s'.slots := by
  obtain ⟨hlt, -, -⟩ := findIdx?_eq_some_iff_getElem.1 hk
  have hd : s.slots[k]? = some s.slots[k] := getElem?_eq_getElem hlt
  obtain ⟨s', rfl, hs'⟩ := (storeSize_stored (getElem?_dirSlots_cons hd) h₁ h₂).first hlt
  exact ⟨s', rfl, k, s.slots[k], hk, hd, length_of_getElem?_slots hd, hs'⟩

end Functions

end CapstoneKernel.Fat32
