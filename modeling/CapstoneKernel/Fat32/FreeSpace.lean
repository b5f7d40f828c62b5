import CapstoneKernel.Fat32.Content
import CapstoneKernel.Fat32.Loading

/-!
# When writing has the clusters it needs

A write returns if the chain of the file and the free clusters together are as long as the way of
its cursor.  Taking a free cluster moves it from the one to the other.
-/

namespace CapstoneKernel.Fat32

open Execution Function List

variable {fs : Fs} {clus : UInt32}

/-- `get_free_clus_idx` finds a free cluster if there is one. -/
theorem getFreeClusIdx_lt (h : 0 < (freeClusters fs.vol fs.fat).card) :
    (getFreeClusIdx fs).toNat < fs.vol.fatEntries := by
  obtain ⟨i, hi⟩ := Finset.card_pos.1 h
  obtain ⟨hlt, hfree⟩ := mem_freeClusters.1 hi
  unfold getFreeClusIdx freeClus?
  split
  · next j hj =>
    have hjlt := mem_range.1 (mem_of_find?_eq_some hj)
    rwa [toNat_ofNat_of_lt_fatEntries hjlt]
  · next hnone =>
    have hnot := find?_eq_none.1 hnone i (mem_range.2 hlt)
    exact absurd (decide_eq_true hfree) hnot

theorem setFatEntry_eq (val : UInt32) (h : clus.toNat < fs.vol.fatEntries) :
    setFatEntry fs clus val =
      .ok { fs with fat := update fs.fat clus (fs.fat clus &&& ~~~fatValMask ||| val) } := if_pos h

theorem linkFreeClus_returns (hclus : clus.toNat < fs.vol.fatEntries)
    (hfree : 0 < (freeClusters fs.vol fs.fat).card) : ∃ r, linkFreeClus fs clus = .ok r := by
  unfold linkFreeClus
  dsimp only
  rw [setFatEntry_eq _ hclus, ok_bind, setFatEntry_eq]
  · exact ⟨_, rfl⟩
  · exact getFreeClusIdx_lt hfree

/-! ## The loop -/

section Loop

variable {fs : Fs} {heads clusters : List UInt32} {head clus : UInt32} {p : ℕ}

section Returns

variable (h : Cursor fs heads head clusters p clus)
include h

/-- The cursor moves on if there is a cluster on the chain or a free one. -/
theorem Cursor.nextClus_returns (hspace : p + 1 < available fs clusters) :
    ∃ r, nextClus fs clus = .ok r := by
  obtain ⟨hok, -, hchain, hp⟩ := h
  obtain ⟨-, hclus⟩ := hchain.inRange clus (mem_of_getElem? hp)
  rw [nextClus, getFatEntry_eq hclus, ok_bind]
  split
  · next hmark =>
    have hle := List.getElem?_eq_none_iff.1 ((hchain.and_mask_eq_iff hok.endOfFile hp).1 hmark)
    unfold available at hspace
    exact linkFreeClus_returns hclus (by omega)
  · exact ⟨_, rfl⟩

theorem Cursor.advanceClus_returns (whichSec : ℕ) (hspace : p +
      ((whichSec + 1) / fs.vol.secPerClus - whichSec / fs.vol.secPerClus) < available fs clusters) :
    ∃ r, advanceClus fs whichSec clus = .ok r := by
  unfold advanceClus
  split
  · next hmod =>
    rw [Nat.succ_div_of_mod_eq_zero hmod, Nat.add_sub_cancel_left] at hspace
    exact h.nextClus_returns hspace
  · exact ⟨_, rfl⟩

end Returns

section Rounds

variable {w : WriteState} {cur : ℕ} {buf rest : List UInt8}

theorem writeRound_returns (buf : List UInt8) (hcur : cur < w.cache.length)
    (hadvance : advanceClus w.fs w.whichSec w.clusIdx = .ok (clus, fs)) :
    ∃ w', writeRound w cur buf = .ok (buf.drop (roundSize w buf), w') := by
  have hfits : w.fPos % blkSz + (buf.take (roundSize w buf)).length ≤ blkSz := by
    have hmod : w.fPos % blkSz < blkSz := Nat.mod_lt _ (by decide)
    rw [length_take]
    unfold roundSize
    omega
  obtain ⟨sec', hstore⟩ : ∃ sec', w.cache[cur].store (w.fPos % blkSz) (buf.take (roundSize w buf)) =
    .ok sec' := by
    obtain ⟨sec', hstore, -⟩ := store_of_le hfits
    exact ⟨sec', hstore⟩
  unfold roundSize at *
  unfold writeRound
  rw [getElem?_eq_getElem hcur]
  dsimp only
  rw [hstore, ok_bind, hadvance]
  exact ⟨_, rfl⟩

theorem lt_length_roundCache (sec : Sector) (hcur : cur < w.cache.length) (hrest : rest ≠ []) :
    cur + 1 < (roundCache w cur sec rest).length := by
  unfold roundCache
  split
  · rw [length_append, length_set, length_singleton]
    omega
  · next hnot =>
    rw [length_set]
    exact Nat.lt_of_le_of_ne hcur fun heq ↦ hnot ⟨hrest, heq⟩

/-- All rounds end with the same sector. -/
theorem sectorsAfter_roundSize (hrest : buf.drop (roundSize w buf) ≠ []) :
    sectorsAfter (w.fPos + roundSize w buf) (buf.drop (roundSize w buf)).length = sectorsAfter w.fPos buf.length := by
  rw [ne_eq, drop_eq_nil_iff] at hrest
  rw [sectorsAfter, sectorsAfter, length_drop]
  congr 2
  omega

end Rounds

/-- The loop of `fat32_write` returns if the clusters are enough for the boundaries it passes. -/
theorem writeLoop_returns {w : WriteState} {fuel cur : ℕ} {buf : List UInt8} (hfuel : buf.length ≤ fuel)
    (hcursor : Cursor w.fs heads head clusters p w.clusIdx)
    (hcur : buf ≠ [] → cur = w.fPos / blkSz ∧ w.whichSec = cur ∧ cur < w.cache.length ∧
      p + (sectorsAfter w.fPos buf.length / w.fs.vol.secPerClus - w.whichSec / w.fs.vol.secPerClus) <
        available w.fs clusters) :
    ∃ w', writeLoop fuel w cur buf = .ok w' := by
  induction fuel generalizing w cur buf clusters p with
  | zero =>
    obtain rfl := length_eq_zero_iff.1 (Nat.le_zero.1 hfuel)
    exact ⟨w, rfl⟩
  | succ fuel ih =>
    cases buf with
    | nil => exact ⟨w, rfl⟩
    | cons c buf =>
      obtain ⟨rfl, hwhich, hlt, hspace⟩ := hcur nofun
      have hafter : w.whichSec + 1 ≤ sectorsAfter w.fPos (c :: buf).length := by
        rw [hwhich, sectorsAfter]
        exact Nat.succ_le_succ (Nat.div_le_div_right (Nat.le_add_right ..))
      have hle₁ : w.whichSec / w.fs.vol.secPerClus ≤ (w.whichSec + 1) / w.fs.vol.secPerClus :=
        Nat.div_le_div_right (Nat.le_succ _)
      have hle₂ : (w.whichSec + 1) / w.fs.vol.secPerClus ≤
          sectorsAfter w.fPos (c :: buf).length / w.fs.vol.secPerClus :=
            Nat.div_le_div_right hafter
      obtain ⟨⟨clus, fs⟩, hadvance⟩ := hcursor.advanceClus_returns w.whichSec (by omega)
      obtain ⟨fat, clusters', rfl, -, -, hcursor', hsame⟩ := hcursor.advanceClus_moves hadvance
      obtain ⟨w', hround⟩ := writeRound_returns (c :: buf) hlt hadvance
      obtain ⟨sec, sec', clus₁, fs₁, -, -, hadvance₁, -, rfl⟩ := writeRound_eq_ok hround
      obtain ⟨rfl, rfl⟩ := Prod.mk.inj (Except.ok.inj (hadvance.symm.trans hadvance₁))
      rw [writeLoop, hround, ok_bind]
      refine ih ?_ hcursor' fun hrest ↦
        ⟨?_, congrArg (· + 1) hwhich, lt_length_roundCache sec' hlt hrest, ?_⟩
      · have hmod : w.fPos % blkSz < blkSz := Nat.mod_lt _ (by decide)
        rw [length_cons] at hfuel
        rw [length_drop, roundSize, length_cons]
        omega
      · dsimp only
        rw [fPos_add_roundSize hrest, Nat.mul_div_cancel_left _ (by decide)]
      · dsimp only
        rw [sectorsAfter_roundSize hrest, hsame]
        omega

end Loop

end CapstoneKernel.Fat32
