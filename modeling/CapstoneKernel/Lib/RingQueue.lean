import Mathlib

/-!
# Queues in a ring

A queue in `size` slots that are used in a circle: the elements lie from the consumer's index on,
and the producer's index is behind the last of them.  One slot stays unused, so that equal indices
mean an empty queue.
-/

namespace CapstoneKernel.RingQueue

open Function List

variable {α : Type}

/-- The slots hold the elements of a queue. -/
structure Holds (size producer consumer : ℕ) (slots : ℕ → α) (queue : List α) : Prop where
  consumer_lt : consumer < size
  length_lt : queue.length < size
  producer_eq : producer = (consumer + queue.length) % size
  slot : ∀ i x, queue[i]? = some x → slots ((consumer + i) % size) = x

/-- Different elements are in different slots. -/
theorem eq_of_slot_eq {size consumer i j : ℕ} (hi : i < size) (hj : j < size)
    (h : (consumer + i) % size = (consumer + j) % size) : i = j := by
  have hmod : i ≡ j [MOD size] := Nat.ModEq.add_left_cancel' consumer h
  rwa [Nat.ModEq, Nat.mod_eq_of_lt hi, Nat.mod_eq_of_lt hj] at hmod

theorem holds_nil {size : ℕ} (hsize : 0 < size) (slots : ℕ → α) : Holds size 0 0 slots [] where
  consumer_lt := hsize
  length_lt := hsize
  producer_eq := (Nat.zero_mod size).symm
  slot := nofun

namespace Holds

variable {size producer consumer : ℕ} {slots : ℕ → α} {queue : List α} {x : α}

section

variable (h : Holds size producer consumer slots queue)
include h

/-- The producer stores an element behind the last one. -/
theorem push (hspace : queue.length + 1 < size) (x : α) :
    Holds size ((producer + 1) % size) consumer (update slots producer x)
    (queue ++ [x]) where
  consumer_lt := h.consumer_lt
  length_lt := by rwa [length_append]
  producer_eq := by
    rw [h.producer_eq, Nat.mod_add_mod, length_append, length_singleton, Nat.add_assoc]
  slot := by
    intro i y hy
    obtain ⟨hi, rfl⟩ := List.getElem?_eq_some_iff.1 hy
    rw [length_append, length_singleton] at hi
    rcases Nat.lt_succ_iff_lt_or_eq.1 hi with hlt | rfl
    · have hne : (consumer + i) % size ≠ producer := by
        rw [h.producer_eq]
        intro heq
        exact hlt.ne (eq_of_slot_eq (hlt.trans h.length_lt) h.length_lt heq)
      rw [update_of_ne hne, getElem_append_left hlt]
      exact h.slot i _ (getElem?_eq_getElem hlt)
    · rw [← h.producer_eq, update_self, getElem_concat_length rfl]

omit h in
/-- The consumer takes the first element. -/
theorem pop (h : Holds size producer consumer slots (x :: queue)) :
    slots consumer = x ∧ Holds size producer ((consumer + 1) % size) slots queue := by
  constructor
  · have hslot := h.slot 0 x rfl
    rwa [Nat.add_zero, Nat.mod_eq_of_lt h.consumer_lt] at hslot
  · refine ⟨Nat.mod_lt _ (Nat.zero_lt_of_lt h.consumer_lt), Nat.lt_of_succ_lt h.length_lt, ?_,
      fun i y hy ↦ ?_⟩
    · rw [h.producer_eq, Nat.mod_add_mod, length_cons, Nat.add_assoc, Nat.add_comm 1]
    · rw [Nat.mod_add_mod, Nat.add_assoc, Nat.add_comm 1]
      exact h.slot (i + 1) y hy

omit h in
/-- Two neighbours change their places. -/
theorem swap {front back : List α} {x y : α}
    (h : Holds size producer consumer slots (front ++ y :: x :: back)) :
    Holds size producer consumer (update (update slots ((consumer + (front.length + 1)) % size)
        (slots ((consumer + front.length) % size))) ((consumer + front.length) % size)
        (slots ((consumer + (front.length + 1)) % size)))
      (front ++ x :: y :: back) where
  consumer_lt := h.consumer_lt
  length_lt := by simpa using h.length_lt
  producer_eq := by simpa using h.producer_eq
  slot := by
    have hlt := h.length_lt
    simp only [length_append, length_cons] at hlt
    have hx : slots ((consumer + (front.length + 1)) % size) = x := h.slot _ x (by simp)
    have hy : slots ((consumer + front.length) % size) = y := h.slot _ y (by simp)
    rw [hx, hy]
    intro i z hz
    have hi : i < size := by
      have hlen := (List.getElem?_eq_some_iff.1 hz).1
      simp only [length_append, length_cons] at hlen
      omega
    -- the places before the two, the two themselves and those behind them
    rcases Nat.lt_trichotomy i front.length with hbefore | rfl | hafter
    · have hne : (consumer + i) % size ≠ (consumer + front.length) % size := fun heq ↦
        hbefore.ne (eq_of_slot_eq hi (by omega) heq)
      have hne' : (consumer + i) % size ≠ (consumer + (front.length + 1)) % size := fun heq ↦
        absurd (eq_of_slot_eq hi (by omega) heq) (by omega)
      rw [update_of_ne hne, update_of_ne hne']
      refine h.slot i z ?_
      rw [getElem?_append_left hbefore] at hz ⊢
      exact hz
    · rw [update_self]
      simpa using hz
    · have hne : (consumer + i) % size ≠ (consumer + front.length) % size := fun heq ↦
        hafter.ne' (eq_of_slot_eq hi (by omega) heq)
      rw [update_of_ne hne]
      obtain ⟨j, rfl⟩ := Nat.exists_eq_add_of_lt hafter
      rw [getElem?_append_right (by omega)] at hz
      cases j with
      | zero =>
        rw [Nat.add_zero, update_self]
        simpa using hz
      | succ j =>
        have hne' : (consumer + (front.length + (j + 1) + 1)) % size ≠
            (consumer + (front.length + 1)) % size := fun heq ↦
          absurd (eq_of_slot_eq hi (by omega) heq) (by omega)
        rw [update_of_ne hne']
        refine h.slot _ z ?_
        rw [getElem?_append_right (by omega)]
        have hsub : front.length + (j + 1) + 1 - front.length = j + 2 := by omega
        rw [hsub] at hz ⊢
        exact hz

theorem full_iff : (producer + 1) % size = consumer ↔ queue.length + 1 = size := by
  rw [h.producer_eq, Nat.mod_add_mod, Nat.add_assoc]
  constructor
  · intro heq
    by_contra hne
    have hlt : queue.length + 1 < size := Nat.lt_of_le_of_ne h.length_lt hne
    refine absurd (eq_of_slot_eq hlt (Nat.zero_lt_of_lt hlt) (heq.trans ?_)) (Nat.succ_ne_zero _)
    rw [Nat.add_zero, Nat.mod_eq_of_lt h.consumer_lt]
  · intro heq
    rw [heq, Nat.add_mod_right, Nat.mod_eq_of_lt h.consumer_lt]

theorem empty_iff : producer = consumer ↔ queue = [] := by
  rw [← length_eq_zero_iff, h.producer_eq]
  constructor
  · intro heq
    refine eq_of_slot_eq h.length_lt (Nat.zero_lt_of_lt h.length_lt) (heq.trans ?_)
    rw [Nat.add_zero, Nat.mod_eq_of_lt h.consumer_lt]
  · intro heq
    rw [heq, Nat.add_zero, Nat.mod_eq_of_lt h.consumer_lt]

/-- The difference of the indices, in signed arithmetic, is the length. -/
theorem length_eq : ((producer : ℤ) - consumer + size).tmod size = queue.length := by
  have hlt := h.consumer_lt
  have hdiff : (producer : ℤ) - consumer + size = ((producer + (size - consumer) : ℕ) : ℤ) :=
    by omega
  have hmod : (producer + (size - consumer)) % size = queue.length := by
    rw [h.producer_eq, Nat.mod_add_mod, show consumer + queue.length + (size - consumer) =
      queue.length + size by omega,
      Nat.add_mod_right, Nat.mod_eq_of_lt h.length_lt]
  rw [hdiff, ← Int.ofNat_tmod, hmod]

end

end Holds

end CapstoneKernel.RingQueue
