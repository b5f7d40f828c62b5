import Mathlib

/-!
# Sequences of stores

Stores to the places of a map, one after the other.  A place that is not written keeps its value,
and a place that is written once has the value written to it.
-/

namespace CapstoneKernel.Writes

open Function List

variable {κ α : Type*} [DecidableEq κ] {f : κ → α} {ws : List (κ × α)} {k : κ}

theorem update_apply_eq_iff {i : κ} {a b : α} :
    update f i a k = b ↔ k = i ∧ a = b ∨ k ≠ i ∧ f k = b := by
  by_cases hk : k = i
  · simp [hk]
  · simp [hk]

/-- The map after the stores. -/
def apply (f : κ → α) (ws : List (κ × α)) : κ → α := ws.foldl (fun f w ↦ update f w.1 w.2) f

theorem apply_cons (f : κ → α) (w : κ × α) (ws : List (κ × α)) :
    apply f (w :: ws) = apply (update f w.1 w.2) ws := rfl

theorem apply_of_notMem (h : ∀ w ∈ ws, w.1 ≠ k) : apply f ws k = f k := by
  induction ws generalizing f with
  | nil => rfl
  | cons w ws ih =>
    rw [apply_cons, ih fun w' hw' ↦ h w' (mem_cons_of_mem w hw'),
      update_of_ne (h w mem_cons_self).symm]

/-- A place to which always the same value is written has it. -/
theorem apply_eq_of_forall {a : α} (hmem : ∃ w ∈ ws, w.1 = k) (hall : ∀ w ∈ ws, w.1 = k → w.2 = a) :
    apply f ws k = a := by
  induction ws generalizing f with
  | nil =>
    obtain ⟨w, hw, -⟩ := hmem
    exact absurd hw not_mem_nil
  | cons w ws ih =>
    rw [apply_cons]
    have hrest : ∀ w' ∈ ws, w'.1 = k → w'.2 = a :=
      fun w' hw' ↦ hall w' (mem_cons_of_mem w hw')
    by_cases hlater : ∃ w' ∈ ws, w'.1 = k
    · exact ih hlater hrest
    · have hnot : ∀ w' ∈ ws, w'.1 ≠ k := fun w' hw' hk ↦ hlater ⟨w', hw', hk⟩
      obtain ⟨w', hw', rfl⟩ := hmem
      rcases mem_cons.1 hw' with rfl | hw'
      · rw [apply_of_notMem hnot, update_self]
        exact hall w' mem_cons_self rfl
      · exact absurd rfl (hnot w' hw')

theorem apply_of_mem {a : α} (hnodup : (ws.map Prod.fst).Nodup) (hmem : (k, a) ∈ ws) : apply f ws k = a := by
  refine apply_eq_of_forall ⟨(k, a), hmem, rfl⟩ fun w hw hk ↦ ?_
  have hsame : w = (k, a) := inj_on_of_nodup_map hnodup hw hmem hk
  rw [hsame]

/-- A property of the old value and of all values written is one of the new value. -/
theorem apply_induct {P : α → Prop} (hold : P (f k)) (hnew : ∀ w ∈ ws, w.1 = k → P w.2) : P (apply f ws k) := by
  induction ws generalizing f with
  | nil => exact hold
  | cons w ws ih =>
    rw [apply_cons]
    refine ih ?_ fun w' hw' ↦ hnew w' (mem_cons_of_mem w hw')
    by_cases hk : k = w.1
    · subst hk
      rw [update_self]
      exact hnew w mem_cons_self rfl
    · rw [update_of_ne hk]
      exact hold

end CapstoneKernel.Writes
