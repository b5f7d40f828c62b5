import Mathlib

/-!
# Items and the queues they belong to

A family of queues and a function `home` that says to which of them an item belongs, if to any.
`Placed` is the statement that the queues agree with it: every item occurs once in its own queue and
nowhere else.  An item that has been taken off its queue by code that has not yet decided on its
next home is kept in the list `taken`, so that the agreement can be stated at every point of the
code.
-/

namespace CapstoneKernel.Places

open Function List Option

variable {Place Item : Type*} [DecidableEq Place] [DecidableEq Item]

/-- Every item is once in its queue, or once among the items taken off it, and in no other queue. -/
def Placed (queue : Place → List Item) (taken : List (Place × Item)) (home : Item → Option Place) : Prop :=
  ∀ place x, (queue place).count x + taken.count (place, x) = if home x = some place then 1 else 0

variable {queue : Place → List Item} {taken : List (Place × Item)} {home : Item → Option Place} {place : Place}
  {x : Item}

namespace Placed

theorem empty : Placed (fun _ : Place ↦ ([] : List Item)) [] fun _ ↦ none := by
  intro place x
  rw [count_nil, count_nil, if_neg nofun]

section

variable (h : Placed queue taken home)
include h

theorem home_of_mem (hx : x ∈ queue place) : home x = some place := by
  by_contra hne
  have hcount := h place x
  rw [if_neg hne] at hcount
  have hpos := count_pos_iff.2 hx
  omega

theorem home_of_taken (hx : (place, x) ∈ taken) : home x = some place := by
  by_contra hne
  have hcount := h place x
  rw [if_neg hne] at hcount
  have hpos := count_pos_iff.2 hx
  omega

theorem notMem_of_taken (hx : (place, x) ∈ taken) (place' : Place) : x ∉ queue place' := by
  intro hmem
  have hhome := h.home_of_taken hx
  rw [h.home_of_mem hmem] at hhome
  obtain rfl := some.inj hhome
  have hcount := h place' x
  rw [if_pos (h.home_of_mem hmem)] at hcount
  have hqueue := count_pos_iff.2 hmem
  have htaken := count_pos_iff.2 hx
  omega

theorem nodup (place : Place) : (queue place).Nodup := by
  rw [nodup_iff_count]
  intro x
  have hcount := h place x
  split at hcount <;> omega

/-- An item with a home is in its queue or has been taken off it. -/
theorem mem_of_home (hx : home x = some place) : x ∈ queue place ∨ (place, x) ∈ taken := by
  have hcount := h place x
  rw [if_pos hx] at hcount
  by_cases hmem : x ∈ queue place
  · exact .inl hmem
  · rw [count_eq_zero.2 hmem] at hcount
    exact .inr (count_pos_iff.1 (by omega))

theorem congr_home {home' : Item → Option Place} (heq : ∀ x, home' x = home x) :
    Placed queue taken home' := by
  intro place x
  rw [heq x]
  exact h place x

theorem congr_taken {taken' : List (Place × Item)} (hperm : taken.Perm taken') :
    Placed queue taken' home := by
  intro place x
  rw [← hperm.count_eq]
  exact h place x

/-- An item without a home joins a queue. -/
theorem push (hx : home x = none) (place : Place) :
    Placed (update queue place (queue place ++ [x])) taken (update home x (some place)) := by
  intro place' y
  have hcount := h place' y
  by_cases hy : y = x
  · subst hy
    rw [update_self]
    rw [hx, if_neg nofun] at hcount
    by_cases hplace : place' = place
    · subst hplace
      rw [update_self, count_append, count_singleton_self, if_pos rfl]
      omega
    · rw [update_of_ne hplace, if_neg fun heq ↦ hplace (some.inj heq).symm]
      exact hcount
  · rw [update_of_ne hy, ← hcount]
    by_cases hplace : place' = place
    · subst hplace
      rw [update_self, count_append, count_singleton, if_neg (by simpa using Ne.symm hy),
        Nat.add_zero]
    · rw [update_of_ne hplace]

/-- The first item of a queue is taken off. -/
theorem pop {rest : List Item} (hqueue : queue place = x :: rest) :
    Placed (update queue place rest) ((place, x) :: taken) home := by
  intro place' y
  rw [← h place' y, count_cons]
  by_cases hplace : place' = place
  · subst hplace
    rw [update_self, hqueue, count_cons]
    by_cases hy : x = y
    · subst hy
      simp only [beq_self_eq_true, if_true]
      omega
    · have hne : ¬ ((place', x) == (place', y)) = true := by simpa using hy
      rw [if_neg hne, if_neg (by simpa using hy), Nat.add_zero, Nat.add_zero]
  · have hne : ¬ ((place, x) == (place', y)) = true := by
      simp only [beq_iff_eq, Prod.mk.injEq, not_and]
      exact fun heq ↦ absurd heq.symm hplace
    rw [update_of_ne hplace, if_neg hne, Nat.add_zero]

omit h in
/-- An item that was taken off its queue leaves it for good. -/
theorem drop (h : Placed queue ((place, x) :: taken) home) :
    Placed queue taken (update home x none) := by
  intro place' y
  have hcount := h place' y
  rw [count_cons] at hcount
  by_cases hy : y = x
  · subst hy
    rw [update_self, if_neg nofun]
    rw [h.home_of_taken mem_cons_self] at hcount
    by_cases hplace : place = place'
    · subst hplace
      simp only [beq_self_eq_true, if_true] at hcount
      omega
    · rw [if_neg (fun heq ↦ hplace (some.inj heq))] at hcount
      omega
  · rw [update_of_ne hy, ← hcount]
    have hne : ¬ ((place, x) == (place', y)) = true := by
      simp only [beq_iff_eq, Prod.mk.injEq, not_and]
      exact fun _ heq ↦ hy heq.symm
    rw [if_neg hne, Nat.add_zero]

/-- An item leaves the queue it is in. -/
theorem erase (hx : x ∈ queue place) :
    Placed (update queue place ((queue place).erase x)) taken (update home x none) := by
  intro place' y
  have hcount := h place' y
  by_cases hy : y = x
  · subst hy
    rw [update_self, if_neg nofun]
    rw [h.home_of_mem hx] at hcount
    by_cases hplace : place' = place
    · subst hplace
      have hpos := count_pos_iff.2 hx
      rw [if_pos rfl] at hcount
      rw [update_self, count_erase_self]
      omega
    · rw [if_neg (fun heq ↦ hplace (some.inj heq).symm)] at hcount
      rw [update_of_ne hplace]
      exact hcount
  · rw [update_of_ne hy, ← hcount]
    by_cases hplace : place' = place
    · subst hplace
      rw [update_self, count_erase_of_ne hy]
    · rw [update_of_ne hplace]

omit h in
theorem count_filter_ite (p : Item → Bool) (l : List Item) (x : Item) :
    (l.filter p).count x = if p x = true then l.count x else 0 := by
  split
  · next hp => exact count_filter hp
  · next hp => exact count_eq_zero.2 fun hmem ↦ hp (mem_filter.1 hmem).2

/-- The items of a queue that pass a test move to another queue. -/
theorem moveFilter {src dst : Place} (hne : src ≠ dst) (p : Item → Bool) :
    Placed (update (update queue dst (queue dst ++ (queue src).filter p)) src
      ((queue src).filter fun x ↦ !p x)) taken
      (fun x ↦ if x ∈ queue src ∧ p x = true then some dst else home x) := by
  intro place y
  have hcount := h place y
  beta_reduce
  by_cases hmoved : y ∈ queue src ∧ p y = true
  · -- The item was in `src` only.
    have hhome := h.home_of_mem hmoved.1
    have hone := h src y
    have hpos := count_pos_iff.2 hmoved.1
    rw [if_pos hhome] at hone
    rw [hhome] at hcount
    rw [if_pos hmoved]
    by_cases hsrc : place = src
    · subst hsrc
      rw [update_self, count_filter_ite, if_neg (by simp [hmoved.2]),
        if_neg fun heq ↦ hne (some.inj heq).symm]
      omega
    · rw [if_neg fun heq ↦ hsrc (some.inj heq).symm] at hcount
      rw [update_of_ne hsrc]
      by_cases hdst : place = dst
      · subst hdst
        rw [update_self, count_append, count_filter_ite, if_pos hmoved.2, if_pos rfl]
        omega
      · rw [update_of_ne hdst, if_neg fun heq ↦ hdst (some.inj heq).symm]
        exact hcount
  · have hnone : ((queue src).filter p).count y = 0 :=
      count_eq_zero.2 fun hmem ↦ hmoved (mem_filter.1 hmem)
    rw [if_neg hmoved, ← hcount]
    by_cases hsrc : place = src
    · subst hsrc
      rw [update_self, count_filter_ite]
      by_cases hmem : y ∈ queue place
      · rw [if_pos (by simpa using fun hp ↦ hmoved ⟨hmem, hp⟩)]
      · rw [count_eq_zero.2 hmem, ite_self]
    · rw [update_of_ne hsrc]
      by_cases hdst : place = dst
      · subst hdst
        rw [update_self, count_append, hnone, Nat.add_zero]
      · rw [update_of_ne hdst]

end

end Placed

end CapstoneKernel.Places
