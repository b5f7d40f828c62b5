import CapstoneKernel.Lib.BuddyTiling
import CapstoneKernel.Lib.Execution
import CapstoneKernel.Mem.Buddy

/-!
# Representation invariant of the buddy allocator

The invariant ties the three representations together.  `ListsAgree` says that the free lists
hold exactly the heads of free blocks of each order and that all other nodes are detached; the
orders read off `arr` form a tiling of the pages by aligned blocks; and no two buddies are free at
the same time.

The list part holds at every point of every routine, while the tiling and the buddy condition are
broken and restored inside them.  `BuddyCore` is the part that survives between the calls, and the
routines are specified in terms of it.  What a routine does to the used blocks is stated through
`usedAt`, the partial map from the heads of used blocks to their orders.
-/

namespace CapstoneKernel.Mem

open IntrusiveList BuddyTiling Execution Function

variable {k i : ℕ}

/-! ## Reading the order array -/

/-- The order of the block a page heads, if it heads one. -/
def orderOf (value : ℤ) : Option ℕ :=
  if value = empty then none else if value = negZero then some 0 else some value.natAbs

/-- The order of the used block a page heads, if it heads one. -/
def usedOrder (value : ℤ) : Option ℕ :=
  if value < 0 then orderOf value else none

theorem usedMark_neg (order : ℕ) : usedMark order < 0 := by
  unfold usedMark negZero intMax
  split <;> omega

theorem usedMark_ne_cast (order k : ℕ) : usedMark order ≠ k := by
  have := usedMark_neg order
  omega

theorem empty_ne_cast (hk : k ≤ 30) : empty ≠ k := by
  unfold empty intMax
  omega

theorem usedMark_ne_empty (order : ℕ) : usedMark order ≠ empty := by
  have := usedMark_neg order
  unfold empty intMax
  omega

@[simp] theorem orderOf_empty : orderOf empty = none := by simp [orderOf]

theorem orderOf_cast (hk : k ≤ 30) : orderOf k = some k := by
  unfold orderOf empty negZero intMax
  rw [if_neg (by omega), if_neg (by omega)]
  rfl

theorem orderOf_usedMark (hk : k ≤ 30) : orderOf (usedMark k) = some k := by
  rw [orderOf, if_neg (usedMark_ne_empty k)]
  unfold usedMark negZero intMax
  by_cases hzero : k = 0
  · simp [hzero]
  · rw [if_neg hzero, if_neg (by omega)]
    simp

/-- A page that heads a block of order `k` carries the free or the used mark of that order. -/
theorem eq_of_orderOf {value : ℤ} (h : orderOf value = some k) :
    value = k ∨ value = usedMark k := by
  unfold orderOf at h
  split at h
  · simp at h
  · split at h
    · right
      cases h
      simpa [usedMark] using ‹_›
    · have hk := Option.some.inj h
      rcases Int.natAbs_eq value with hpos | hneg
      · left
        omega
      · by_cases hzero : k = 0
        · left
          omega
        · right
          rw [usedMark, if_neg hzero]
          omega

theorem usedOrder_usedMark (hk : k ≤ 30) : usedOrder (usedMark k) = some k := by
  rw [usedOrder, if_pos (usedMark_neg k), orderOf_usedMark hk]

@[simp] theorem usedOrder_cast (k : ℕ) : usedOrder k = none := by
  rw [usedOrder, if_neg (by omega)]

@[simp] theorem usedOrder_empty : usedOrder empty = none := by
  simp [usedOrder]

theorem usedOrder_eq_some {value : ℤ} (h : usedOrder value = some k) :
    value = usedMark k ∧ orderOf value = some k := by
  unfold usedOrder at h
  split at h
  · refine ⟨?_, h⟩
    rcases eq_of_orderOf h with hfree | hused
    · omega
    · exact hused
  · simp at h

/-! ## Agreement of the free lists with the order array -/

/-- The list of order `k` holds exactly the pages marked `k`, and all other nodes are detached. -/
structure ListsAgree (n : ℕ) (arr : ℕ → ℤ) (nodes : Links ℕ) (heads : ℕ → Option ℕ) : Prop where
  lists : ∀ k ≤ n, ∃ members, IsList nodes (heads k) members ∧
    ∀ i, i ∈ members ↔ i < 2 ^ n ∧ arr i = k
  detached : ∀ i < 2 ^ n, (∀ k ≤ n, arr i ≠ k) → nodes.Detached i

namespace ListsAgree

variable {n p : ℕ} {arr : ℕ → ℤ} {nodes : Links ℕ} {heads : ℕ → Option ℕ}
    (h : ListsAgree n arr nodes heads)

include h

section

variable (hk : k ≤ n)
include hk

theorem prev_lt (hi : i < 2 ^ n) (harr : arr i = k) (hp : nodes.prev i = some p) : p < 2 ^ n := by
  obtain ⟨members, hlist, hmem⟩ := h.lists k hk
  exact ((hmem p).1 (hlist.prev_mem ((hmem i).2 ⟨hi, harr⟩) hp)).1

theorem next_lt (hi : i < 2 ^ n) (harr : arr i = k) (hp : nodes.next i = some p) : p < 2 ^ n := by
  obtain ⟨members, hlist, hmem⟩ := h.lists k hk
  exact ((hmem p).1 (hlist.next_mem ((hmem i).2 ⟨hi, harr⟩) hp)).1

theorem head_spec (hhead : heads k = some i) : i < 2 ^ n ∧ arr i = k := by
  obtain ⟨members, hlist, hmem⟩ := h.lists k hk
  exact (hmem i).1 (List.mem_of_mem_head? (hlist.head_eq.symm.trans hhead))

theorem head_eq_none (hhead : heads k = none) (hi : i < 2 ^ n) : arr i ≠ k := by
  obtain ⟨members, hlist, hmem⟩ := h.lists k hk
  intro harr
  have hnil : members = [] := List.head?_eq_none_iff.1 (hlist.head_eq.symm.trans hhead)
  exact absurd ((hmem i).2 ⟨hi, harr⟩) (hnil ▸ List.not_mem_nil)

/-- Taking a free block off its list and marking it used. -/
theorem delete (hi : i < 2 ^ n) (harr : arr i = k) :
    ListsAgree n (update arr i (usedMark k)) (nodes.unlink i)
      (if heads k = some i then update heads k (nodes.next i) else heads) := by
  obtain ⟨members, hlist, hmem⟩ := h.lists k hk
  have hin : i ∈ members := (hmem i).2 ⟨hi, harr⟩
  have hheads {j : ℕ} : (if heads k = some i then update heads k (nodes.next i) else heads) j =
      if j = k then (if heads k = some i then nodes.next i else heads k) else heads j := by
    by_cases hjk : j = k
    · subst hjk
      split <;> simp
    · split <;> simp [hjk]
  have hmark {j x : ℕ} : update arr i (usedMark k) x = j ↔ x ≠ i ∧ arr x = j := by
    rw [update_apply]
    split
    · simp [*, usedMark_ne_cast]
    · simp [*]
  refine ⟨fun j hj ↦ ?_, fun x hx hfree ↦ ?_⟩
  · rw [hheads]
    by_cases hjk : j = k
    · subst hjk
      refine ⟨members.erase i, ?_, fun x ↦ ?_⟩
      · rw [if_pos rfl]
        exact hlist.unlink hin
      · rw [hlist.nodup.mem_erase_iff, hmem, hmark]
        tauto
    · obtain ⟨others, hothers, hother⟩ := h.lists j hj
      rw [if_neg hjk]
      refine ⟨others, hlist.unlink_frame hin hothers ?_, fun x ↦ ?_⟩
      · intro x hx hx'
        have := ((hmem x).1 hx).2.symm.trans ((hother x).1 hx').2
        omega
      · rw [hother, hmark]
        constructor
        · rintro ⟨hlt, hx⟩
          refine ⟨hlt, ?_, hx⟩
          rintro rfl
          have := harr.symm.trans hx
          omega
        · tauto
  · rw [Links.Detached, unlink_prev, unlink_next]
    by_cases hxi : x = i
    · rw [if_pos hxi, if_pos hxi]
      exact ⟨rfl, rfl⟩
    · -- A detached node is not a neighbour of the node taken off.
      have hxk : x ∉ members := fun hx' ↦ hfree k hk (hmark.2 ⟨hxi, ((hmem x).1 hx').2⟩)
      rw [if_neg hxi, if_neg hxi, if_neg fun hnext ↦ hxk (hlist.next_mem hin hnext),
        if_neg fun hprev ↦ hxk (hlist.prev_mem hin hprev)]
      exact h.detached x hx fun j hj hxj ↦ hfree j hj (hmark.2 ⟨hxi, hxj⟩)

/-- Putting a page that is not free on a list. -/
theorem insert (hi : i < 2 ^ n) (harr : ∀ j ≤ n, arr i ≠ j) :
    ListsAgree n (update arr i k) (nodes.pushFront (heads k) i) (update heads k (some i)) := by
  obtain ⟨members, hlist, hmem⟩ := h.lists k hk
  have hdetached := h.detached i hi harr
  have hfresh {j : ℕ} (hj : j ≤ n) {others : List ℕ}
      (hother : ∀ x, x ∈ others ↔ x < 2 ^ n ∧ arr x = j) : i ∉ others := fun hin ↦ harr j hj ((hother i).1 hin).2
  have hold {old : ℕ} (hhead : heads k = some old) : old < 2 ^ n ∧ arr old = k :=
    h.head_spec hk hhead
  refine ⟨fun j hj ↦ ?_, fun x hx hfree ↦ ?_⟩
  · by_cases hjk : j = k
    · subst hjk
      refine ⟨i :: members, ?_, fun x ↦ ?_⟩
      · rw [update_self]
        exact hlist.pushFront (hfresh hj hmem) hdetached.1
      · rw [List.mem_cons, hmem, update_apply]
        split
        · subst x
          simp [hi]
        · simp [*]
    · obtain ⟨others, hothers, hother⟩ := h.lists j hj
      rw [update_of_ne hjk]
      refine ⟨others, hothers.pushFront_frame (hfresh hj hother) ?_, fun x ↦ ?_⟩
      · intro old hhead hin
        have := (hold hhead).2.symm.trans ((hother old).1 hin).2
        omega
      · rw [hother, update_apply]
        split
        · subst x
          constructor
          · rintro ⟨-, hx⟩
            exact absurd hx (harr j hj)
          · rintro ⟨-, hx⟩
            omega
        · rfl
  · have hxi : x ≠ i := by
      rintro rfl
      exact hfree k hk (by simp)
    have hhead : heads k ≠ some x := fun hhead ↦
      hfree k hk (by rw [update_of_ne hxi, (hold hhead).2])
    rw [Links.Detached, pushFront_prev, pushFront_next, if_neg hhead, if_neg hxi]
    exact h.detached x hx fun j hj hxj ↦ hfree j hj (by rw [update_of_ne hxi, hxj])

end

/-- Changing the mark of a page that is free neither before nor after. -/
theorem relabel {v : ℤ} (harr : ∀ j ≤ n, arr i ≠ j) (hv : ∀ j ≤ n, v ≠ j) :
    ListsAgree n (update arr i v) nodes heads := by
  refine ⟨fun j hj ↦ ?_, fun x hx hfree ↦ h.detached x hx fun j hj hxj ↦ ?_⟩
  · obtain ⟨members, hlist, hmem⟩ := h.lists j hj
    refine ⟨members, hlist, fun x ↦ ?_⟩
    rw [hmem, update_apply]
    split
    · subst x
      simp [harr j hj, hv j hj]
    · rfl
  · have hxi : x ≠ i := by
      rintro rfl
      exact harr j hj hxj
    exact hfree j hj (by rw [update_of_ne hxi, hxj])

end ListsAgree

end CapstoneKernel.Mem
