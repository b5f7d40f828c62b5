import Mathlib

/-!
# Paths in a tree

A node has children that are found by their labels.  `resolve look` follows a list of labels.  If
every child knows its label and its parent, a node is found by at most one path from a node without
a parent, and the path leads through all of its ancestors.
-/

namespace CapstoneKernel.Paths

open List Option

variable {ι κ : Type*} {look : ι → κ → Option ι} {d r x node : ι} {path path' : List κ}

/-- The node at the end of a path. -/
def resolve (look : ι → κ → Option ι) : ι → List κ → Option ι
  | d, [] => some d
  | d, k :: rest => (look d k).bind fun c ↦ resolve look c rest

theorem resolve_append (d : ι) (path rest : List κ) :
    resolve look d (path ++ rest) = (resolve look d path).bind fun c ↦ resolve look c rest := by
  induction path generalizing d with
  | nil => rfl
  | cons k path ih =>
    rw [cons_append, resolve, resolve, bind_assoc]
    simp only [ih]

theorem resolve_concat_eq_some {k : κ} (h : resolve look d (path.concat k) = some x) :
    ∃ c, resolve look d path = some c ∧ look c k = some x := by
  rw [concat_eq_append, resolve_append] at h
  obtain ⟨c, hc, hx⟩ := bind_eq_some_iff.1 h
  obtain ⟨y, hy, hyx⟩ := bind_eq_some_iff.1 hx
  exact ⟨c, hc, hy.trans hyx⟩

theorem resolve_concat {k : κ} {c : ι} (h : resolve look d path = some c) (hlook : look c k = some x) :
    resolve look d (path ++ [k]) = some x := by
  rw [resolve_append, h, bind_some, resolve, hlook]
  rfl

section Tree

variable {parent : ι → Option ι} {label : ι → κ} {N : ι → Prop}

/-- Paths stay among the nodes. -/
theorem resolve_closed (hlook : ∀ d k c, N d → look d k = some c → N c) (hd : N d)
    (h : resolve look d path = some x) : N x := by
  induction path generalizing d with
  | nil => exact some.inj h ▸ hd
  | cons k path ih =>
    obtain ⟨c, hc, hx⟩ := bind_eq_some_iff.1 h
    exact ih (hlook d k c hd hc) hx

/-- A path leads through the ancestors of its node. -/
theorem exists_resolve_ancestor (hlook : ∀ d k c, N d → look d k = some c → N c ∧ parent c = some d)
    (hr : N r) (hroot : parent r = none) (hbelow : Relation.ReflTransGen (fun d c ↦ parent c = some d) node x)
    (h : resolve look r path = some x) : ∃ front, resolve look r front = some node := by
  induction hbelow generalizing path with
  | refl => exact ⟨path, h⟩
  | tail _ hparent ih =>
    rcases eq_nil_or_concat path with rfl | ⟨front, k, rfl⟩
    · cases h
      exact absurd (hroot.symm.trans hparent) nofun
    · obtain ⟨c, hc, hlast⟩ := resolve_concat_eq_some h
      have hnode : N c := resolve_closed (fun d k c hd hc ↦ (hlook d k c hd hc).1) hr hc
      obtain rfl := some.inj (hparent.symm.trans (hlook c k _ hnode hlast).2)
      exact ih hc

end Tree

end CapstoneKernel.Paths
