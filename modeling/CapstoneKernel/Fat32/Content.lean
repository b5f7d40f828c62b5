import CapstoneKernel.Fat32.Slots
import CapstoneKernel.Fat32.Writing

/-!
# The bytes of a file

The content of a file is what its sectors hold up to its size.  The loop of `fat32_read` returns a
piece of the content, and the loop of `fat32_write` overwrites one.
-/

namespace CapstoneKernel.Fat32

open Overlay Execution List

variable {cache : List Sector} {data : List UInt8} {sec : Sector} {cur fPos fileSize : ℕ}

/-- The bytes of a file with the given sectors and size. -/
def contentBytes (cache : List Sector) (fileSize : ℕ) : List UInt8 := (flat cache).take fileSize

section Bytes

variable {cache : List Sector} {fileSize : ℕ}

theorem length_contentBytes (h : fileSize ≤ blkSz * cache.length) : (contentBytes cache fileSize).length = fileSize := by
  rw [contentBytes, length_take, length_flat, Nat.min_eq_left h]

theorem take_drop_contentBytes {sz : ℕ} (hsec : cache[fPos / blkSz]? = some sec)
    (hsz : fPos % blkSz + sz ≤ blkSz) (hend : fPos + sz ≤ fileSize) :
    ((contentBytes cache fileSize).drop fPos).take sz = (sec.bytes.drop (fPos % blkSz)).take sz := by
  have hget : (cache.map Sector.bytes)[fPos / blkSz]? = some sec.bytes := by
    rw [getElem?_map, hsec, Option.map_some]
  have hpiece := take_drop_flatten length_of_mem_bytes hget hsz
  rw [Nat.div_add_mod] at hpiece
  rw [contentBytes, drop_take, take_take, Nat.min_eq_left (by omega), ← hpiece, flat]

end Bytes

/-! ## Reading -/

theorem subSize_eq {a b : ℕ} (hle : b ≤ a) (hlt : a < 2 ^ 64) : subSize a b = a - b := by
  unfold subSize
  omega

/-- The loop of `fat32_read` returns the bytes of the file from the position on. -/
theorem readLoop_eq {fuel len : ℕ} (hsize : fileSize ≤ blkSz * cache.length)
    (hlt : fileSize < 2 ^ 64) (hpos : fPos ≤ fileSize) (hfuel : len ≤ fuel)
    (hcur : len ≠ 0 → cur = fPos / blkSz ∧ cur < cache.length) :
    readLoop cache fileSize fuel fPos cur len =
      .ok (fPos + min len (fileSize - fPos), ((contentBytes cache fileSize).drop fPos).take len) := by
  induction fuel generalizing fPos cur len with
  | zero =>
    obtain rfl : len = 0 := Nat.le_zero.1 hfuel
    rw [Nat.zero_min, Nat.add_zero, take_zero]
    rfl
  | succ fuel ih =>
    cases len with
    | zero =>
      rw [Nat.zero_min, Nat.add_zero, take_zero]
      rfl
    | succ len =>
      obtain ⟨rfl, hsec⟩ := hcur nofun
      have hmod : fPos % blkSz < blkSz := Nat.mod_lt _ (by decide)
      have hdiv := Nat.div_add_mod fPos blkSz
      rw [readLoop, getElem?_eq_getElem hsec]
      dsimp only
      rw [subSize_eq hpos hlt]
      generalize hsz : min (min (len + 1) (blkSz - fPos % blkSz)) (fileSize - fPos) = sz
      have hpiece : ((cache[fPos / blkSz]).bytes.drop (fPos % blkSz)).take sz =
          ((contentBytes cache fileSize).drop fPos).take sz :=
        (take_drop_contentBytes (getElem?_eq_getElem hsec) (by omega) (by omega)).symm
      have hlength : ((contentBytes cache fileSize).drop fPos).length = fileSize - fPos := by
        rw [length_drop, length_contentBytes hsize]
      split
      · next hend =>
        have hall : min (len + 1) (fileSize - fPos) = sz := by omega
        rw [hpiece, hall, take_of_length_le (by omega), take_of_length_le (by omega)]
      · next hend =>
        rw [ih (by omega) (by omega) fun hleft ↦ ?_, ok_bind, hpiece]
        · have hsum : len + 1 = sz + (len + 1 - sz) := by omega
          have hpos' : fPos + sz + min (len + 1 - sz) (fileSize - (fPos + sz)) =
              fPos + min (len + 1) (fileSize - fPos) := by omega
          have htake : ((contentBytes cache fileSize).drop fPos).take (len + 1) =
              ((contentBytes cache fileSize).drop fPos).take sz ++
                ((contentBytes cache fileSize).drop (fPos + sz)).take (len + 1 - sz) := by
            nth_rewrite 1 [hsum]
            rw [take_add, drop_drop]
          rw [htake, hpos']
          rfl
        · have hfull : fPos % blkSz + sz = blkSz := by omega
          have hnext : fPos + sz = blkSz * (fPos / blkSz + 1) := by rw [Nat.mul_succ]; omega
          refine ⟨?_, ?_⟩
          · rw [hnext, Nat.mul_div_cancel_left _ (by decide)]
          · have hbelow : blkSz * (fPos / blkSz + 1) < blkSz * cache.length := by omega
            exact Nat.lt_of_mul_lt_mul_left hbelow

/-! ## Writing -/

theorem contentBytes_append (h : fileSize ≤ blkSz * cache.length) (more : List Sector) :
    contentBytes (cache ++ more) fileSize = contentBytes cache fileSize := by
  rw [contentBytes, flat_append, take_append_of_le_length (by rw [length_flat]; exact h),
    contentBytes]

theorem contentBytes_take {n : ℕ} (h : fileSize ≤ blkSz * (cache.take n).length) :
    contentBytes (cache.take n) fileSize = contentBytes cache fileSize := by
  rw [← contentBytes_append h (cache.drop n), take_append_drop]

theorem length_le_roundCache (w : WriteState) (cur : ℕ) (sec : Sector) (rest : List UInt8) :
    w.cache.length ≤ (roundCache w cur sec rest).length := by
  unfold roundCache
  split
  · rw [length_append, length_set]
    exact Nat.le_add_right ..
  · rw [length_set]

theorem contentBytes_roundCache {w : WriteState} (sec : Sector) (rest : List UInt8)
    (h : fileSize ≤ blkSz * w.cache.length) :
    contentBytes (roundCache w cur sec rest) fileSize = contentBytes (w.cache.set cur sec) fileSize := by
  unfold roundCache
  split
  · exact contentBytes_append (by rw [length_set]; exact h) _
  · rfl

/-- A store at the position, which may be the end of the file. -/
theorem contentBytes_set {sec' : Sector} (hsec : cache[fPos / blkSz]? = some sec)
    (hstore : sec.store (fPos % blkSz) data = .ok sec') (hpos : fPos ≤ fileSize)
    (hsize : fileSize ≤ blkSz * cache.length) :
    contentBytes (cache.set (fPos / blkSz) sec') (max fileSize (fPos + data.length)) =
      overlay (contentBytes cache fileSize) fPos data := by
  obtain ⟨hfits, hbytes⟩ := store_eq_ok hstore
  rw [contentBytes, flat_set hsec hbytes hfits, Nat.div_add_mod,
    take_overlay (by rw [length_flat]; omega) (Nat.le_max_right ..), overlay_take_max hpos,
      contentBytes]

theorem contentBytes_soughtCache (whichSec : ℕ) (h : fileSize ≤ blkSz * cache.length) :
    contentBytes (soughtCache whichSec cache) fileSize = contentBytes cache fileSize := by
  unfold soughtCache
  split
  · rfl
  · exact contentBytes_append h _

section Rounds

variable {w w' : WriteState} {cur : ℕ} {buf rest : List UInt8}

theorem Rounds.length_ge (h : Rounds w cur buf w') : w.cache.length ≤ w'.cache.length := by
  induction h with
  | nil => exact Nat.le_refl _
  | cons _ hround _ ih =>
    obtain ⟨sec, sec', clus, fs, -, -, -, -, rfl⟩ := writeRound_eq_ok hround
    exact Nat.le_trans (length_le_roundCache ..) ih

theorem roundSize_le (w : WriteState) (buf : List UInt8) : roundSize w buf ≤ buf.length := Nat.min_le_left ..

/-- A round that leaves something has filled its sector. -/
theorem fPos_add_roundSize (hrest : buf.drop (roundSize w buf) ≠ []) :
    w.fPos + roundSize w buf = blkSz * (w.fPos / blkSz + 1) := by
  have hlt : roundSize w buf < buf.length := by
    rw [ne_eq, drop_eq_nil_iff] at hrest
    omega
  have hdiv := Nat.div_add_mod w.fPos blkSz
  have hmod : w.fPos % blkSz < blkSz := Nat.mod_lt _ (by decide)
  rw [Nat.mul_succ]
  unfold roundSize at *
  omega

/-- What the loop does to the bytes of the file. -/
structure Overwrites (w : WriteState) (buf : List UInt8) (w' : WriteState) : Prop where
  bytes : contentBytes w'.cache w'.fileSize = overlay (contentBytes w.cache w.fileSize) w.fPos buf
  fPos : w'.fPos = w.fPos + buf.length
  fileSize : w'.fileSize = max w.fileSize w'.fPos
  covered : w'.fileSize ≤ blkSz * w'.cache.length

theorem writeRound_overwrites (hround : writeRound w (w.fPos / blkSz) buf = .ok (rest, w'))
    (hpos : w.fPos ≤ w.fileSize) (hsize : w.fileSize ≤ blkSz * w.cache.length) :
    Overwrites w (buf.take (roundSize w buf)) w' := by
  obtain ⟨sec, sec', clus, fs, hsec, hstore, -, -, rfl⟩ := writeRound_eq_ok hround
  have hlength : (buf.take (roundSize w buf)).length = roundSize w buf := by
    rw [length_take, Nat.min_eq_left (roundSize_le w buf)]
  have hend : w.fPos + roundSize w buf ≤ blkSz * w.cache.length := by
    have hlt := (List.getElem?_eq_some_iff.1 hsec).1
    have hmul : blkSz * (w.fPos / blkSz + 1) ≤ blkSz * w.cache.length := Nat.mul_le_mul_left _ hlt
    have hdiv := Nat.div_add_mod w.fPos blkSz
    have hmod : w.fPos % blkSz < blkSz := Nat.mod_lt _ (by decide)
    rw [Nat.mul_succ] at hmul
    unfold roundSize
    omega
  have hnew : max w.fileSize (w.fPos + roundSize w buf) ≤ blkSz * w.cache.length :=
    Nat.max_le.2 ⟨hsize, hend⟩
  refine ⟨?_, by rw [hlength], rfl, ?_⟩
  · rw [contentBytes_roundCache _ _ hnew]
    have hset := contentBytes_set hsec hstore hpos hsize
    rw [hlength] at hset
    exact hset
  · exact Nat.le_trans hnew (Nat.mul_le_mul_left _ (length_le_roundCache ..))

theorem Overwrites.append {w₁ : WriteState} {data' : List UInt8} (h : Overwrites w data w₁)
    (h' : Overwrites w₁ data' w') (hpos : w.fPos ≤ w.fileSize)
    (hsize : w.fileSize ≤ blkSz * w.cache.length) :
    Overwrites w (data ++ data') w' := by
  refine ⟨?_, ?_, ?_, h'.covered⟩
  · rw [h'.bytes, h.bytes, h.fPos, overlay_overlay (by rwa [length_contentBytes hsize])]
  · rw [h'.fPos, h.fPos, length_append, Nat.add_assoc]
  · have hle : w₁.fPos ≤ w'.fPos := by
      rw [h'.fPos]
      exact Nat.le_add_right ..
    rw [h'.fileSize, h.fileSize, Nat.max_assoc, Nat.max_eq_right hle]

/-- The loop overwrites the bytes from the position on, or extends the file. -/
theorem Rounds.overwrites (h : Rounds w cur buf w') (hcur : buf ≠ [] → cur = w.fPos / blkSz)
    (hpos : w.fPos ≤ w.fileSize) (hsize : w.fileSize ≤ blkSz * w.cache.length) : Overwrites w buf w' := by
  induction h with
  | nil => exact ⟨(overlay_nil ..).symm, rfl, (Nat.max_eq_left hpos).symm, hsize⟩
  | @cons w w₁ w' cur buf rest hne hround _ ih =>
    obtain rfl := hcur hne
    have hfirst := writeRound_overwrites hround hpos hsize
    obtain ⟨sec, sec', clus, fs, -, -, -, rfl, rfl⟩ := writeRound_eq_ok hround
    rw [← take_append_drop (roundSize w buf) buf]
    refine hfirst.append (ih (fun hrest ↦ ?_) (Nat.le_max_right ..) hfirst.covered) hpos hsize
    -- The next round starts with the next sector.
    dsimp only
    rw [fPos_add_roundSize hrest, Nat.mul_div_cancel_left _ (by decide)]

end Rounds

end CapstoneKernel.Fat32
