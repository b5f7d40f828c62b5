import CapstoneKernel.Vfs.Invariant

/-!
# Names and types in the tree

From `tmpfs_init` on, visible siblings have different names and only directories have children, if
nothing is created below a file and no mount gets the name of another visible vnode.
-/

namespace CapstoneKernel.Vfs

open Execution List

/-- The names of siblings, and the types of parents. -/
structure Siblings (s : State) : Prop where
  unique : ∀ d < s.size, ∀ c ∈ (s.vnodes d).children, ∀ c' ∈ (s.vnodes d).children,
    (s.vnodes c).hidden = false → (s.vnodes c').hidden = false → (s.vnodes c).name = (s.vnodes c').name → c = c'
  dir : ∀ d < s.size, (s.vnodes d).children ≠ [] → (s.vnodes d).type = .dir

/-- A vnode that is created gets a directory as its parent. -/
def inDirectory (s : State) (cwd : ℕ) (path : Name) : Bool :=
  match findParentVnode s true cwd path with
  | .ok (.missing parent _) => (s.vnodes parent).type == .dir
  | _ => true

/-- No other visible vnode has the name that the root of a mount gets. -/
def noNamesake (s : State) (cwd : ℕ) (target : Name) : Bool :=
  target == [slash] ||
    match findParentVnode s true cwd target with
    | .ok (.existing node (some p) comp) => (s.vnodes p).children.all fun c ↦ c == node || !s.isChild comp c
    | _ => true

/-- The calls after `tmpfs_init`, without those that break the tree. -/
def keepsSiblings (s : State) : Act → Bool
  | .registerFilesystem _ => false
  | .vfsCreate cwd path _ _ => inDirectory s cwd path
  | .vfsMkdir cwd path _ => inDirectory s cwd path
  | .vfsOpen cwd path flags _ _ => flags &&& oCreat == 0 || inDirectory s cwd path
  | .vfsMount cwd target _ _ _ _ => noNamesake s cwd target

def KeepsSiblings (s : State) (a : Act) : Prop := keepsSiblings s a = true
deriving Decidable

section Push

variable {s : State}

theorem lookup_eq_none_iff {d : ℕ} {name : Name} : s.lookup d name = none ↔
    ∀ c ∈ (s.vnodes d).children, (s.vnodes c).hidden = false → (s.vnodes c).name ≠ name := by
  rw [State.lookup, find?_eq_none]
  refine forall₂_congr fun c _ ↦ ?_
  rw [State.isChild, Bool.and_eq_true, Bool.not_eq_true', beq_iff_eq, not_and]

/-- A new vnode with a name that is free in its directory. -/
theorem Siblings.push (h : Siblings s) (hforest : IsForest s) {v : Vnode} (hchildren : v.children = [])
    (hparent : ∀ p, v.parent = some p → p < s.size ∧ (s.vnodes p).type = .dir ∧ s.lookup p v.name = none) :
    Siblings (s.push v) where
  unique d hd c hc c' hc' hvis hvis' hname := by
    rcases push_lt_or_eq hd with hd | rfl
    · rcases (mem_push_children hd).1 hc with hold | ⟨rfl, hp⟩
      · have hlt := (hforest.child d hd c hold).2.1
        rw [push_old v hlt] at hvis hname
        rcases (mem_push_children hd).1 hc' with hold' | ⟨rfl, hp⟩
        · have hlt' := (hforest.child d hd c' hold').2.1
          rw [push_old v hlt'] at hvis' hname
          exact h.unique d hd c hold c' hold' hvis hvis' hname
        · rw [push_new] at hname
          exact absurd hname (lookup_eq_none_iff.1 (hparent d hp).2.2 c hold hvis)
      · rcases (mem_push_children hd).1 hc' with hold' | ⟨rfl, -⟩
        · have hlt' := (hforest.child d hd c' hold').2.1
          rw [push_old v hlt'] at hvis' hname
          rw [push_new] at hname
          exact absurd hname.symm (lookup_eq_none_iff.1 (hparent d hp).2.2 c' hold' hvis')
        · rfl
    · rw [push_new, hchildren] at hc
      exact absurd hc not_mem_nil
  dir d hd hne := by
    rcases push_lt_or_eq hd with hd | rfl
    · rw [push_old v hd] at hne ⊢
      by_cases hp : v.parent = some d
      · exact (hparent d hp).2.1
      · rw [if_neg hp, append_nil] at hne
        exact h.dir d hd hne
    · rw [push_new, hchildren] at hne
      exact absurd rfl hne

theorem Siblings.addChild (h : Siblings s) (hforest : IsForest s) {parent : ℕ} {name : Name}
    (hvalid : (Found.missing parent name).Valid s) (hdir : (s.vnodes parent).type = .dir) (type : FileType) :
    Siblings (s.addChild parent type name) := by
  refine h.push hforest rfl fun p hp ↦ ?_
  cases hp
  exact ⟨hvalid.1, hdir, hvalid.2⟩

theorem Siblings.hide (h : Siblings s) (node : ℕ) : Siblings (s.hide node) where
  unique d hd c hc c' hc' hvis hvis' hname := by
    simp only [hide_eq, Bool.or_eq_false_iff] at *
    exact h.unique d hd c hc c' hc' hvis.2 hvis'.2 hname
  dir d hd := by
    simp only [hide_eq]
    exact h.dir d hd

end Push

section Calls

variable {s s' s₁ : State} {cwd : ℕ} {path target : Name} {fs : FsType} {flags : UInt32}
  {parent : Option ℕ} {comp : Name}

theorem type_of_inDirectory {p : ℕ} (h : inDirectory s cwd path = true)
    (hfind : findParentVnode s true cwd path = .ok (.missing p comp)) : (s.vnodes p).type = .dir := by
  rw [inDirectory, hfind] at h
  exact eq_of_beq h

theorem Prepared.siblings (hprep : Prepared s cwd target fs flags s₁ parent comp) (hforest : IsForest s)
    (h : Siblings s) (hname : noNamesake s cwd target = true) : Siblings s₁ ∧
      ∀ p, parent = some p → p < s₁.size ∧ (s₁.vnodes p).type = .dir ∧ s₁.lookup p comp = none := by
  cases hprep with
  | root _ => exact ⟨⟨h.unique, h.dir⟩, nofun⟩
  | @node node _ _ hroot hfind _ =>
    have hhide := h.hide node
    obtain ⟨hnode, hparent⟩ := hforest.find hfind
    refine ⟨⟨hhide.unique, hhide.dir⟩, fun p hp ↦ ?_⟩
    subst hp
    obtain ⟨hlt, hmem⟩ := hforest.parent node hnode p hparent.symm
    rw [noNamesake, beq_eq_false_iff_ne.2 hroot, Bool.false_or, hfind] at hname
    change p < s.size ∧ ((s.hide node).vnodes p).type = .dir ∧ (s.hide node).lookup p comp = none
    rw [lookup_eq_none_iff]
    simp only [hide_eq]
    refine ⟨hlt, h.dir p hlt (ne_nil_of_mem hmem), fun c hc hvis hcomp ↦ ?_⟩
    obtain ⟨hne, hvis⟩ := Bool.or_eq_false_iff.1 hvis
    have hall := all_eq_true.1 hname c hc
    rw [beq_eq_false_iff_ne.2 (of_decide_eq_false hne), Bool.false_or, State.isChild, hvis, hcomp,
      beq_self_eq_true]
      at hall
    exact absurd hall (by decide)

theorem SetUp.siblings {m : Allocs} {contents : List Entry} {r : Bool}
    (hset : SetUp s₁ .tmpfs flags parent comp m contents r s') (hforest : IsForest s₁) (h : Siblings s₁)
    (hparent : ∀ p, parent = some p → p < s₁.size ∧ (s₁.vnodes p).type = .dir ∧ s₁.lookup p comp = none) :
    Siblings s' := by
  have hpush := h.push hforest (v := ⟨s₁.mounts.length - 1, [], false, parent, .dir, comp⟩) rfl
    hparent
  cases hset with
  | noTables _ => exact h
  | noMetadata _ hfs _ => cases hfs
  | done => exact ⟨hpush.unique, hpush.dir⟩

theorem KeepsSiblings.inDirectory {a : Act} {type : FileType} (h : KeepsSiblings s a) (hadds : Adds a cwd path type) :
    inDirectory s cwd path = true := by
  cases hadds with
  | create => exact h
  | mkdir => exact h
  | openFile hflags =>
    rw [KeepsSiblings, keepsSiblings, beq_eq_false_iff_ne.2 hflags, Bool.false_or] at h
    exact h

theorem Siblings.run (h : Siblings s) (hforest : IsForest s) (hfs : s.fsList = [.tmpfs]) {a : Act} {r : Bool}
    (hallowed : KeepsSiblings s a) (hrun : a.run s = .ok (r, s')) : Siblings s' := by
  cases a.effect hrun with
  | unchanged => exact h
  | registered => exact absurd hallowed Bool.false_ne_true
  | added hadds hfind =>
    exact h.addChild hforest (hforest.find hfind)
      (type_of_inDirectory (hallowed.inDirectory hadds) hfind) _
  | mounted hmem hprep hset =>
    rw [hfs, mem_singleton] at hmem
    subst hmem
    obtain ⟨hsiblings, hparent⟩ := hprep.siblings hforest h hallowed
    exact hset.siblings (hprep.isForest hforest).1 hsiblings hparent

theorem fsList_run (hfs : s.fsList = [.tmpfs]) {a : Act} {r : Bool} (hallowed : KeepsSiblings s a)
    (hrun : a.run s = .ok (r, s')) : s'.fsList = [.tmpfs] := by
  cases a.effect hrun with
  | unchanged => exact hfs
  | registered => exact absurd hallowed Bool.false_ne_true
  | added _ _ => exact hfs
  | mounted hmem hprep hset =>
    rw [hfs, mem_singleton] at hmem
    subst hmem
    cases hprep with
    | root _ | node _ _ _ => cases hset <;> exact hfs

theorem siblings_start : Siblings start where
  unique d hd c hc := by
    obtain rfl : d = 0 := Nat.lt_one_iff.1 hd
    exact absurd hc not_mem_nil
  dir d hd hne := by
    obtain rfl : d = 0 := Nat.lt_one_iff.1 hd
    exact absurd rfl hne

end Calls

/-- After `tmpfs_init`, if nothing is created below a file and no mount gets the name of another
visible vnode, every vnode is once on the list of its parent and on no other list, visible siblings
have different names and only directories have children. -/
theorem tree_well_formed {s : State} (hrun : Reachable (· = start) (CallStep KeepsSiblings fun s a ↦ a.run s) s) :
    (∀ d < s.size, ∀ c ∈ (s.vnodes d).children, (s.vnodes c).parent = some d ∧ (s.vnodes d).children.count c = 1 ∧
      ∀ d' < s.size, c ∈ (s.vnodes d').children → d' = d) ∧
    (∀ d < s.size, ∀ c ∈ (s.vnodes d).children, ∀ c' ∈ (s.vnodes d).children, (s.vnodes c).hidden = false →
      (s.vnodes c').hidden = false → (s.vnodes c).name = (s.vnodes c').name → c = c') ∧
    ∀ d < s.size, (s.vnodes d).children ≠ [] → (s.vnodes d).type = .dir := by
  have hall : IsForest s ∧ Siblings s ∧ s.fsList = [.tmpfs] := by
    refine Reachable.calls (P := fun s ↦ IsForest s ∧ Siblings s ∧ s.fsList = [.tmpfs]) ?_ ?_ hrun
    · rintro s rfl
      exact ⟨isForest_start, siblings_start, rfl⟩
    · rintro s a r s' ⟨hforest, hsiblings, hfs⟩ hallowed hrun
      exact ⟨hforest.run hrun, hsiblings.run hforest hfs hallowed hrun,
        fsList_run hfs hallowed hrun⟩
  obtain ⟨hforest, hsiblings, -⟩ := hall
  refine ⟨fun d hd c hc ↦ ?_, hsiblings.unique, hsiblings.dir⟩
  have hparent := (hforest.child d hd c hc).2.2
  refine ⟨hparent, count_eq_one_of_mem (hforest.nodup d hd) hc, fun d' hd' hc' ↦ ?_⟩
  exact Option.some.inj ((hforest.child d' hd' c hc').2.2.symm.trans hparent)

/-- A file in a directory on which a tmpfs is mounted. -/
theorem tree_well_formed_mounted : ∃ s, (Reachable (· = start) (CallStep KeepsSiblings fun s a ↦ a.run s) s ∧
      (s.vnodes 0).children = [1, 2] ∧ (s.vnodes 2).children = [3]) ∧
    (∀ d < s.size, ∀ c ∈ (s.vnodes d).children, (s.vnodes c).parent = some d ∧ (s.vnodes d).children.count c = 1 ∧
      ∀ d' < s.size, c ∈ (s.vnodes d').children → d' = d) ∧
    (∀ d < s.size, ∀ c ∈ (s.vnodes d).children, ∀ c' ∈ (s.vnodes d).children, (s.vnodes c).hidden = false →
      (s.vnodes c').hidden = false → (s.vnodes c).name = (s.vnodes c').name → c = c') ∧
    ∀ d < s.size, (s.vnodes d).children ≠ [] → (s.vnodes d).type = .dir := by
  obtain ⟨s, hreach, hs⟩ := Reachable.exists_calls KeepsSiblings (fun s a ↦ Act.run s a) start
    [.vfsMkdir 0 [slash, 97] .all, .vfsMount 0 [97, slash] .tmpfs 0 .all [],
      .vfsOpen 0 [slash, 97, slash, 98] oCreat true .all]
    (fun s ↦ (s.vnodes 0).children = [1, 2] ∧ (s.vnodes 2).children = [3]) (by decide +kernel)
  exact ⟨s, ⟨hreach, hs⟩, tree_well_formed hreach⟩

/-- A file gets a child. -/
theorem create_below_file : ∃ s, Reachable (· = start) (CallStep anyCall Act.run) s ∧
    ∃ d < s.size, (s.vnodes d).children ≠ [] ∧ (s.vnodes d).type = .file := by
  obtain ⟨s, hreach, hs⟩ := Reachable.exists_calls anyCall Act.run start
    [.vfsCreate 0 [slash, 97] .file .all, .vfsCreate 0 [slash, 97, slash, 98] .file .all]
    (fun s ↦ 1 < s.size ∧ (s.vnodes 1).children ≠ [] ∧ (s.vnodes 1).type = .file)
      (by decide +kernel)
  exact ⟨s, hreach, 1, hs⟩

end CapstoneKernel.Vfs
