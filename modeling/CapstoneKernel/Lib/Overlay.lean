import Mathlib

/-!
# Overwriting a part of a list

`overlay base off data` is `base` with `data` in place of the elements from `off` on.  Overwriting
inside of one of several lists that are stored one after the other is overwriting at the
corresponding place of their concatenation.
-/

namespace CapstoneKernel.Overlay

open List

variable {α : Type*} {base data b : List α} {off n i : ℕ} {blocks : List (List α)}

/-- The list after `data` has been copied to position `off`. -/
def overlay (base : List α) (off : ℕ) (data : List α) : List α :=
  base.take off ++ data ++ base.drop (off + data.length)

theorem length_overlay (h : off + data.length ≤ base.length) :
    (overlay base off data).length = base.length := by
  simp only [overlay, length_append, length_take, length_drop]
  omega

theorem overlay_nil (base : List α) (off : ℕ) : overlay base off [] = base := by
  rw [overlay, append_nil, length_nil, Nat.add_zero, take_append_drop]

theorem overlay_append_left {tail : List α}
    (h : off + data.length ≤ base.length) : overlay (base ++ tail) off data = overlay base off data ++ tail := by
  simp only [overlay]
  rw [take_append_of_le_length (by omega), drop_append_of_le_length h, append_assoc (_ ++ data)]

theorem overlay_append_right (front base : List α) (off : ℕ) (data : List α) :
    overlay (front ++ base) (front.length + off) data = front ++ overlay base off data := by
  simp only [overlay, Nat.add_assoc, take_length_add_append, drop_length_add_append, append_assoc]

/-- Two pieces one after the other. -/
theorem overlay_overlay {data' : List α} (h : off ≤ base.length) :
    overlay (overlay base off data) (off + data.length) data' = overlay base off (data ++ data') := by
  have htake : (base.take off).length = off := by rw [length_take, Nat.min_eq_left h]
  have hfront : (base.take off ++ data).length = off + data.length :=
    by rw [length_append, htake]
  have htake' : (overlay base off data).take (off + data.length) = base.take off ++ data := by
    rw [overlay, ← hfront, take_left]
  have hdrop : (overlay base off data).drop (off + data.length + data'.length) =
      base.drop (off + data.length + data'.length) := by
    rw [overlay, ← hfront, drop_length_add_append, drop_drop, hfront]
  rw [overlay, htake', hdrop, overlay, length_append, Nat.add_assoc, append_assoc (base.take off)]

section

variable (hoff : off ≤ base.length)
include hoff

theorem take_overlay (hn : off + data.length ≤ n) :
    (overlay base off data).take n = overlay (base.take n) off data := by
  have hmin : min off n = off := Nat.min_eq_left (by omega)
  have hfront : (base.take off ++ data).length = off + data.length := by
    rw [length_append, length_take, Nat.min_eq_left hoff]
  obtain ⟨k, rfl⟩ : ∃ k, n = off + data.length + k := ⟨n - (off + data.length), by omega⟩
  rw [overlay, overlay, take_take, hmin, ← hfront, take_length_add_append, hfront, drop_take,
    Nat.add_sub_cancel_left]

omit hoff in
/-- What lies behind the place matters only up to the end that the copy leaves. -/
theorem overlay_take_max (hoff : off ≤ n) :
    overlay (base.take (max n (off + data.length))) off data = overlay (base.take n) off data := by
  rcases Nat.le_total (off + data.length) n with hle | hge
  · rw [Nat.max_eq_left hle]
  · rw [Nat.max_eq_right hge, overlay, overlay, take_take, take_take, Nat.min_eq_left hoff,
      Nat.min_eq_left (Nat.le_add_right ..), drop_eq_nil_of_le (length_take_le ..),
      drop_eq_nil_of_le (Nat.le_trans (length_take_le ..) hge)]

theorem take_overlay_of_le (hn : n ≤ off) : (overlay base off data).take n = base.take n := by
  rw [overlay, append_assoc, take_append_of_le_length (by rw [length_take]; omega),
    take_take, Nat.min_eq_left hn]

omit hoff in
theorem take_overlay_zero (base data : List α) : (overlay base 0 data).take data.length = data := by
  rw [overlay, take_zero, nil_append, take_left]

theorem getElem?_overlay_of_lt (hi : i < off) : (overlay base off data)[i]? = base[i]? := by
  rw [overlay, append_assoc, getElem?_append_left (by rw [length_take]; omega),
    getElem?_take_of_lt hi]

theorem getElem?_overlay_of_ge (hi : off + data.length ≤ i) :
    (overlay base off data)[i]? = base[i]? := by
  have hfront : (base.take off ++ data).length = off + data.length := by
    rw [length_append, length_take, Nat.min_eq_left hoff]
  rw [overlay, getElem?_append_right (by omega), hfront, getElem?_drop]
  congr 1
  omega

theorem getElem?_overlay (hi : i < data.length) : (overlay base off data)[off + i]? = data[i]? := by
  have htake : (base.take off).length = off := by rw [length_take, Nat.min_eq_left hoff]
  rw [overlay, append_assoc, getElem?_append_right (by omega), htake, Nat.add_sub_cancel_left,
    getElem?_append_left hi]

theorem getD_overlay_of_outside (hi : i < off ∨ off + data.length ≤ i) (x : α) :
    (overlay base off data).getD i x = base.getD i x := by
  rw [getD_eq_getElem?_getD, getD_eq_getElem?_getD]
  rcases hi with hlt | hge
  · rw [getElem?_overlay_of_lt hoff hlt]
  · rw [getElem?_overlay_of_ge hoff hge]

theorem getD_overlay (hi : i < data.length) (x : α) :
    (overlay base off data).getD (off + i) x = data.getD i x := by
  rw [getD_eq_getElem?_getD, getD_eq_getElem?_getD, getElem?_overlay hoff hi]

end

section Blocks

variable {size : ℕ}

section

variable (h : ∀ b ∈ blocks, b.length = size)
include h

theorem length_flatten_of_all : blocks.flatten.length = size * blocks.length := by
  induction blocks with
  | nil => rfl
  | cons b rest ih =>
    rw [flatten_cons, length_append, h b mem_cons_self,
      ih fun b' hb' ↦ h b' (mem_cons_of_mem b hb'), length_cons, Nat.mul_succ, Nat.add_comm]

/-- Overwriting inside of one block. -/
theorem flatten_set_overlay (hget : blocks[i]? = some b) (hfits : off + data.length ≤ size) :
    (blocks.set i (overlay b off data)).flatten = overlay blocks.flatten (size * i + off) data := by
  induction blocks generalizing i with
  | nil => cases hget
  | cons c rest ih =>
    have hc := h c mem_cons_self
    cases i with
    | zero =>
      cases hget
      rw [set_cons_zero, flatten_cons, flatten_cons, Nat.mul_zero, Nat.zero_add,
        overlay_append_left (by omega)]
    | succ i =>
      have hrest := ih (fun b' hb' ↦ h b' (mem_cons_of_mem c hb')) hget
      have hright := overlay_append_right c rest.flatten (size * i + off) data
      rw [hc] at hright
      rw [set_cons_succ, flatten_cons, flatten_cons, hrest, Nat.mul_succ,
        Nat.add_comm (size * i) size, Nat.add_assoc, hright]

theorem getElem?_flatten {k : ℕ} (hget : blocks[i]? = some b) (hk : k < size) :
    blocks.flatten[size * i + k]? = b[k]? := by
  induction blocks generalizing i with
  | nil => cases hget
  | cons c rest ih =>
    have hc := h c mem_cons_self
    cases i with
    | zero =>
      cases hget
      rw [flatten_cons, Nat.mul_zero, Nat.zero_add, getElem?_append_left (by omega)]
    | succ i =>
      have hrest := ih (fun b' hb' ↦ h b' (mem_cons_of_mem c hb')) hget
      rw [flatten_cons, getElem?_append_right (by rw [hc, Nat.mul_succ]; omega), hc, ← hrest,
        Nat.mul_succ]
      congr 1
      omega

/-- A piece of one block is a piece of the concatenation. -/
theorem take_drop_flatten (hget : blocks[i]? = some b) (hfits : off + n ≤ size) :
    (blocks.flatten.drop (size * i + off)).take n = (b.drop off).take n := by
  refine ext_getElem? fun k ↦ ?_
  by_cases hk : k < n
  · rw [getElem?_take_of_lt hk, getElem?_take_of_lt hk, getElem?_drop, getElem?_drop,
      Nat.add_assoc, getElem?_flatten h hget (by omega)]
  · rw [getElem?_eq_none (by rw [length_take]; omega),
      getElem?_eq_none (by rw [length_take]; omega)]

omit h in
/-- Cutting a list into blocks. -/
theorem flatten_chunks (l : List α) (n : ℕ) :
    ((List.range n).map fun i ↦ (l.drop (size * i)).take size).flatten = l.take (size * n) := by
  induction n with
  | zero => rw [range_zero, map_nil, flatten_nil, Nat.mul_zero, take_zero]
  | succ n ih =>
    rw [range_succ, map_append, flatten_append, ih, map_singleton, flatten_singleton,
      Nat.mul_succ, take_add]

/-- The concatenation determines the blocks. -/
theorem eq_of_flatten_eq {blocks' : List (List α)} (h' : ∀ b ∈ blocks', b.length = size)
    (hlength : blocks.length = blocks'.length) (hflat : blocks.flatten = blocks'.flatten) :
    blocks = blocks' := by
  induction blocks generalizing blocks' with
  | nil => exact (length_eq_zero_iff.1 hlength.symm).symm
  | cons b rest ih =>
    cases blocks' with
    | nil => cases hlength
    | cons b' rest' =>
      have hb : b.length = b'.length :=
        (h b mem_cons_self).trans (h' b' mem_cons_self).symm
      rw [flatten_cons, flatten_cons] at hflat
      obtain ⟨rfl, hrest⟩ := append_inj hflat hb
      rw [ih (fun c hc ↦ h c (mem_cons_of_mem b hc)) (fun c hc ↦ h' c (mem_cons_of_mem b hc))
        (Nat.succ.inj hlength) hrest]

end

end Blocks

end CapstoneKernel.Overlay
