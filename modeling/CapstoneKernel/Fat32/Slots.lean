import CapstoneKernel.Fat32.Directory

/-!
# Bytes and entries of cached sectors

A list of cached sectors is one list of bytes, and for a directory one list of entries.  Stores to a
sector are stores at the corresponding place of either.
-/

namespace CapstoneKernel.Fat32

open Overlay Execution List

variable {cache cache' : List Sector} {d data : List UInt8} {k off : ℕ}

/-- The bytes of a list of sectors. -/
def flat (cache : List Sector) : List UInt8 := (cache.map Sector.bytes).flatten

section Flat

variable {cache : List Sector} {sec sec' : Sector} {i off : ℕ} {data : List UInt8}

theorem length_of_mem_bytes : ∀ b ∈ cache.map Sector.bytes, b.length = blkSz := by
  intro b hb
  obtain ⟨s, -, rfl⟩ := mem_map.1 hb
  exact s.length_eq

theorem length_flat (cache : List Sector) : (flat cache).length = blkSz * cache.length := by
  rw [flat, length_flatten_of_all length_of_mem_bytes, length_map]

theorem flat_append (cache cache' : List Sector) : flat (cache ++ cache') = flat cache ++ flat cache' := by
  rw [flat, map_append, flatten_append, flat, flat]

theorem store_of_le (h : off + data.length ≤ blkSz) :
    ∃ sec', sec.store off data = .ok sec' ∧ sec'.bytes = overlay sec.bytes off data := by
  unfold Sector.store
  rw [dif_pos h]
  exact ⟨_, rfl, rfl⟩

theorem store_eq_ok (h : sec.store off data = .ok sec') :
    off + data.length ≤ blkSz ∧ sec'.bytes = overlay sec.bytes off data := by
  unfold Sector.store at h
  split at h
  · next hle => exact ⟨hle, by rw [← Except.ok.inj h]⟩
  · cases h

theorem flat_set (hsec : cache[i]? = some sec) (hbytes : sec'.bytes = overlay sec.bytes off data)
    (hfits : off + data.length ≤ blkSz) :
    flat (cache.set i sec') = overlay (flat cache) (blkSz * i + off) data := by
  have hget : (cache.map Sector.bytes)[i]? = some sec.bytes :=
    by rw [getElem?_map, hsec, Option.map_some]
  rw [flat, map_set, hbytes, flatten_set_overlay length_of_mem_bytes hget hfits, flat]

end Flat

/-! ## Directory entries -/

section Slots

variable {cache : List Sector}

theorem length_of_mem_slots {s : Sector} : ∀ d ∈ s.slots, d.length = entrySz := by
  intro d hd
  obtain ⟨i, hi, rfl⟩ := mem_map.1 hd
  rw [mem_range] at hi
  rw [length_take, length_drop, s.length_eq]
  unfold blkSz entrySz at *
  omega

theorem length_of_mem_dirSlots : ∀ d ∈ dirSlots cache, d.length = entrySz := by
  intro d hd
  obtain ⟨s, -, hs⟩ := mem_flatMap.1 hd
  exact length_of_mem_slots d hs

theorem length_dirSlots (cache : List Sector) : (dirSlots cache).length = blkSz / entrySz * cache.length := by
  have hall : ∀ b ∈ cache.map Sector.slots, b.length = blkSz / entrySz := by
    intro b hb
    obtain ⟨s, -, rfl⟩ := mem_map.1 hb
    exact length_slots s
  rw [dirSlots, flatMap_def, length_flatten_of_all hall, length_map]

theorem flatten_slots (s : Sector) : s.slots.flatten = s.bytes := by
  rw [Sector.slots, flatten_chunks]
  exact take_of_length_le (by rw [s.length_eq]; decide)

theorem flatten_dirSlots (cache : List Sector) : (dirSlots cache).flatten = flat cache := by
  induction cache with
  | nil => rfl
  | cons s cache ih =>
    rw [dirSlots, flatMap_cons, flatten_append, flatten_slots]
    rw [dirSlots] at ih
    rw [ih]
    rfl

section

variable (hk : (dirSlots cache)[k]? = some d)
include hk

section

variable (hfits : off + data.length ≤ entrySz)
include hfits

theorem dirSlots_of_flat (hlength : cache'.length = cache.length)
    (hflat : flat cache' = overlay (flat cache) (entrySz * k + off) data) :
    dirSlots cache' = (dirSlots cache).set k (overlay d off data) := by
  have hd := length_of_mem_dirSlots d (mem_of_getElem? hk)
  have hset : ∀ b ∈ (dirSlots cache).set k (overlay d off data), b.length = entrySz := by
    intro b hb
    rcases mem_or_eq_of_mem_set hb with hold | rfl
    · exact length_of_mem_dirSlots b hold
    · rw [length_overlay (by omega), hd]
  refine eq_of_flatten_eq length_of_mem_dirSlots hset ?_ ?_
  · rw [length_set, length_dirSlots, length_dirSlots, hlength]
  · rw [flatten_dirSlots, hflat, flatten_set_overlay length_of_mem_dirSlots hk hfits,
      flatten_dirSlots]

theorem storeSlot_slots (h : storeSlot cache k off data = .ok cache') :
    dirSlots cache' = (dirSlots cache).set k (overlay d off data) := by
  have hlength := storeSlot_length h
  obtain ⟨sec, sec', hsec, hstore, rfl⟩ := storeSlot_eq_ok h
  obtain ⟨hle, hbytes⟩ := store_eq_ok hstore
  refine dirSlots_of_flat hk hfits hlength ?_
  rw [flat_set hsec hbytes hle]
  congr 1
  unfold blkSz entrySz
  omega

theorem storeSlot_returns : ∃ cache', storeSlot cache k off data = .ok cache' := by
  have hlt := (List.getElem?_eq_some_iff.1 hk).1
  rw [length_dirSlots] at hlt
  have hsec : k / (blkSz / entrySz) < cache.length := by
    unfold blkSz entrySz at *
    omega
  have hplace : entrySz * (k % (blkSz / entrySz)) + off + data.length ≤ blkSz := by
    unfold blkSz entrySz at *
    omega
  obtain ⟨sec', hstore⟩ : ∃ sec', cache[k / (blkSz / entrySz)].store
      (entrySz * (k % (blkSz / entrySz)) + off) data = .ok sec' := by
    obtain ⟨sec', hstore, -⟩ := store_of_le hplace
    exact ⟨sec', hstore⟩
  unfold storeSlot
  rw [getElem?_eq_getElem hsec]
  dsimp only
  rw [hstore]
  exact ⟨_, rfl⟩

end

end

end Slots

/-! ## Stores to one entry -/

/-- The entry at position `k` has been replaced, by stores to its sector. -/
def EntryStored (cache : List Sector) (k : ℕ) (d : List UInt8) (cache' : List Sector) : Prop :=
  (∃ sec, cache' = cache.set (k / (blkSz / entrySz)) sec) ∧ dirSlots cache' = (dirSlots cache).set k d

section Stores

variable {cache cache' : List Sector} {k off : ℕ} {d data : List UInt8}

theorem storeSlot_spec (hd : (dirSlots cache)[k]? = some d) (hfits : off + data.length ≤ entrySz) :
    Returns (storeSlot cache k off data) (EntryStored cache k (overlay d off data)) := by
  obtain ⟨cache', h⟩ := storeSlot_returns hd hfits
  obtain ⟨sec, sec', -, -, hset⟩ := storeSlot_eq_ok h
  exact ⟨cache', h, ⟨sec', hset⟩, storeSlot_slots hd hfits h⟩

theorem EntryStored.get (h : EntryStored cache k d cache') (hk : k < (dirSlots cache).length) :
    (dirSlots cache')[k]? = some d := by
  rw [h.2, getElem?_set_self hk]

theorem EntryStored.again (h : EntryStored cache k d cache') (hk : k < (dirSlots cache).length)
    (hfits : off + data.length ≤ entrySz) :
    Returns (storeSlot cache' k off data) (EntryStored cache k (overlay d off data)) := by
  refine (storeSlot_spec (h.get hk) hfits).mono ?_
  rintro cache'' ⟨⟨sec', rfl⟩, hslots⟩
  obtain ⟨⟨sec, rfl⟩, hslots'⟩ := h
  exact ⟨⟨sec', set_set ..⟩, by rw [hslots, hslots', set_set]⟩

end Stores

/-! ## The size of an entry -/

/-- The entry after `fat32_write` has stored the size. -/
def withSize (d : List UInt8) (fileSize : UInt32) : List UInt8 :=
  overlay (overlay d 28 (bytesOf32 fileSize)) 11 [dirAttr (overlay d 28 (bytesOf32 fileSize)) ||| attrArchive]

section Size

variable {d : List UInt8} {clusIdx fileSize : UInt32}

theorem length_bytesOf32 (x : UInt32) : (bytesOf32 x).length = 4 := rfl

section

variable (hd : d.length = entrySz)
include hd

theorem length_overlay_size : (overlay d 28 (bytesOf32 fileSize)).length = entrySz := by
  rw [length_overlay (by rw [length_bytesOf32, hd]; decide), hd]

theorem getD_withSize {i : ℕ} (hi : i < 28) (hattr : i ≠ 11) :
    (withSize d fileSize).getD i 0 = d.getD i 0 := by
  have hlength : (overlay d 28 (bytesOf32 fileSize)).length = entrySz := length_overlay_size hd
  have hoff : 11 ≤ (overlay d 28 (bytesOf32 fileSize)).length := by rw [hlength]; decide
  have hout : i < 11 ∨ 11 + [dirAttr (overlay d 28 (bytesOf32 fileSize)) ||| attrArchive].length ≤
    i := by
    rw [length_singleton]
    omega
  rw [withSize, getD_overlay_of_outside hoff hout,
    getD_overlay_of_outside (by rw [hd]; decide) (.inl hi)]

theorem dirFstClus_withSize : dirFstClus (withSize d fileSize) = dirFstClus d := by
  unfold dirFstClus half
  rw [getD_withSize hd (by decide) (by decide), getD_withSize hd (by decide) (by decide),
    getD_withSize hd (by decide) (by decide), getD_withSize hd (by decide) (by decide)]

omit hd in
theorem or_attrArchive_ne (x : UInt8) : x ||| attrArchive ≠ attrLongName := by
  intro h
  have hbit := congrArg (fun y : UInt8 ↦ y.toBitVec.getLsbD 5) h
  simp [attrArchive, attrLongName] at hbit

theorem dirAttr_withSize :
    dirAttr (withSize d fileSize) = dirAttr (overlay d 28 (bytesOf32 fileSize)) ||| attrArchive := by
  have hoff : 11 ≤ (overlay d 28 (bytesOf32 fileSize)).length :=
    by rw [length_overlay_size hd]; decide
  have hone : 0 < [dirAttr (overlay d 28 (bytesOf32 fileSize)) ||| attrArchive].length :=
    Nat.one_pos
  exact getD_overlay hoff hone 0

theorem isEntryOf_withSize (h : isEntryOf clusIdx d = true) :
    isEntryOf clusIdx (withSize d fileSize) = true := by
  unfold isEntryOf at *
  rw [Bool.and_eq_true] at *
  refine ⟨?_, ?_⟩
  · rw [dirAttr_withSize hd]
    exact bne_iff_ne.2 (or_attrArchive_ne _)
  · rw [dirFstClus_withSize hd]
    exact h.2

end

/-- The two stores of `fat32_write` to the directory. -/
theorem storeSize_stored {cache₁ cache₂ : List Sector} (hd : (dirSlots cache)[k]? = some d)
    (h₁ : storeSlot cache k 28 (bytesOf32 fileSize) = .ok cache₁)
    (h₂ : storeSlot cache₁ k 11 [dirAttr ((dirSlots cache₁).getD k []) ||| attrArchive] = .ok cache₂) :
    EntryStored cache k (withSize d fileSize) cache₂ := by
  have hk := (List.getElem?_eq_some_iff.1 hd).1
  have hstored := (storeSlot_spec hd (by rw [length_bytesOf32]; decide)).post_of_eq h₁
  rw [getD_eq_getElem?_getD, hstored.get hk, Option.getD_some] at h₂
  exact (hstored.again hk (by rw [length_singleton]; decide)).post_of_eq h₂

theorem storeSize_returns (hd : (dirSlots cache)[k]? = some d) :
    ∃ cache₁ cache₂, storeSlot cache k 28 (bytesOf32 fileSize) = .ok cache₁ ∧
      storeSlot cache₁ k 11 [dirAttr ((dirSlots cache₁).getD k []) ||| attrArchive] = .ok cache₂ := by
  have hk := (List.getElem?_eq_some_iff.1 hd).1
  have hfits : 28 + (bytesOf32 fileSize).length ≤ entrySz := by rw [length_bytesOf32]; decide
  obtain ⟨cache₁, h₁, hstored⟩ := storeSlot_spec hd hfits
  have hone (x : UInt8) : 11 + [x].length ≤ entrySz := by rw [length_singleton]; decide
  obtain ⟨cache₂, h₂, -⟩ := hstored.again hk (hone _)
  exact ⟨cache₁, cache₂, h₁, h₂⟩

end Size

end CapstoneKernel.Fat32
