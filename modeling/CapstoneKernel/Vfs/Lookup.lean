import CapstoneKernel.Lib.Paths
import CapstoneKernel.Vfs.Invariant

/-!
# Looking up what was created

The loop of `find_parent_vnode` follows the names of a path, and its result depends only on the
lookups on the way.  A new vnode changes one of them, in the directory and for the name that it was
created with.
-/

namespace CapstoneKernel.Vfs

open Execution Paths List Option

variable {names : List Name} {comp path name : Name} {p c cwd : ℕ} {type : FileType}

/-! ## The loop -/

/-- The names that are looked up. -/
def namesOf (toks : List Name) : List Name := toks.takeWhile fun n ↦ decide (n ≠ [])

theorem namesOf_cons {tok : Name} (h : tok ≠ []) (rest : List Name) : namesOf (tok :: rest) = tok :: namesOf rest := by
  simp [namesOf, h]

section Walk

variable {s s' : State} {toks : List Name} {cur : ℕ} {parent : Option ℕ} {comp : Name}

/-- The loop sees only the lookups on its way. -/
theorem walk_congr (h : ∀ front n d, front ++ [n] <+: namesOf toks → resolve s.lookup cur front = some d →
      s'.ops d = s.ops d ∧ s'.lookup d n = s.lookup d n) :
    walk s' toks cur parent comp = walk s toks cur parent comp := by
  induction toks generalizing cur parent comp with
  | nil => rfl
  | cons tok rest ih =>
    rw [walk, walk]
    split
    · rfl
    · next hne =>
      rw [namesOf_cons hne] at h
      obtain ⟨hops, hlookup⟩ := h [] tok cur (prefix_append [tok] _) rfl
      rw [hops, hlookup]
      congr 1
      funext fs
      cases hchild : s.lookup cur tok with
      | none => rfl
      | some child =>
        refine ih fun front n d hfront hd ↦ ?_
        exact h (tok :: front) n d (cons_prefix_cons.2 ⟨rfl, hfront⟩)
          (bind_eq_some_iff.2 ⟨child, hchild, hd⟩)

theorem tokens_slash (rest : Name) : tokens (slash :: rest) = [] :: tokens rest := by
  rw [tokens, List.splitOn, splitOnP_cons_eq_if_modifyHead, if_pos (beq_self_eq_true slash)]
  rfl

theorem tokens_absolute (habs : path.head? = some slash) :
    tokens path = [] :: (tokens path).tail := by
  obtain ⟨rest, rfl⟩ := head?_eq_some_iff.1 habs
  rw [tokens_slash, tail_cons]

theorem findParentVnode_absolute (s : State) (cwd : ℕ) (habs : path.head? = some slash) :
    findParentVnode s true cwd path =
      if path.length < strLen then do
        let r ← s.root
        walk s (tokens path).tail r (s.vnodes r).parent []
      else .error .outOfBounds := by
  rw [findParentVnode, tokens_absolute habs]
  rfl

end Walk

/-! ## Lookups after a vnode has been added -/

section Push

variable {s : State} {v : Vnode} {d : ℕ}

theorem lookup_push (hforest : IsForest s) (hd : d < s.size) (name : Name) : (s.push v).lookup d name =
    (s.lookup d name).or (if v.parent = some d ∧ v.hidden = false ∧ v.name = name then some s.size else none) := by
  have hold : ∀ c ∈ (s.vnodes d).children, (s.push v).isChild name c = s.isChild name c := by
    intro c hc
    rw [State.isChild, push_old v (hforest.child d hd c hc).2.1]
    rfl
  have hnew : (s.push v).isChild name s.size = (!v.hidden && v.name == name) :=
    by rw [State.isChild, push_new]
  rw [State.lookup, push_old v hd, find?_append, find?_congr hold]
  congr 1
  split
  · next hp =>
    rw [find?_singleton, hnew]
    cases v.hidden <;> simp [hp]
  · next hp => rw [if_neg fun h ↦ hp h.1, find?_nil]

section

variable (hforest : IsForest s)
include hforest

theorem IsForest.lookup (hd : d < s.size) (h : s.lookup d name = some c) :
    c < s.size ∧ (s.vnodes c).parent = some d ∧ (s.vnodes c).name = name := by
  obtain ⟨hmem, -, hname⟩ := lookup_eq_some h
  obtain ⟨-, hlt, hparent⟩ := hforest.child d hd c hmem
  exact ⟨hlt, hparent, hname⟩

theorem IsForest.resolve_lt (hd : d < s.size) (h : resolve s.lookup d names = some c) :
    c < s.size :=
  resolve_closed (N := (· < s.size)) (fun _ _ _ hd hc ↦ (hforest.lookup hd hc).1) hd h

end

end Push

/-! ## Paths from the root -/

section Absolute

variable {s : State} {path q : Name} {p : ℕ} {comp : Name}

/-- A path from the root that ends at a missing vnode. -/
theorem findParentVnode_absolute_eq_ok {f : Found} (hpath : path.head? = some slash)
    (hfind : findParentVnode s true cwd path = .ok f) : path.length < strLen ∧ ∃ r, s.root = .ok r ∧
      walk s (tokens path).tail r (s.vnodes r).parent [] = .ok f := by
  rw [findParentVnode_absolute s cwd hpath] at hfind
  split at hfind
  · next hlt =>
    obtain ⟨r, hr, hwalk⟩ := of_bind_eq_ok hfind
    exact ⟨hlt, r, hr, hwalk⟩
  · cases hfind

theorem vfsLookup_congr {s' : State} (h : findParentVnode s' true cwd q = findParentVnode s true cwd q) :
    vfsLookup s' cwd q = vfsLookup s cwd q := by
  rw [vfsLookup, vfsLookup, h]

end Absolute

end CapstoneKernel.Vfs
