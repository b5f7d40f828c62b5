import CapstoneKernel.Vfs.Tree

/-!
# The vnodes are a forest

Whatever the calls return, the lists of children and the pointers to the parents agree, a vnode is
younger than its parent, and the root of the root file system has no parent.
-/

namespace CapstoneKernel.Vfs

open Execution List

variable {a : Act} {comp path : Name} {parent : Option ℕ} {c cur cwd : ℕ} {r ctx : Bool} {f : Found}

/-- The lists of children and the pointers to parents. -/
structure IsForest (s : State) : Prop where
  child : ∀ d < s.size, ∀ c ∈ (s.vnodes d).children, d < c ∧ c < s.size ∧ (s.vnodes c).parent = some d
  parent : ∀ c < s.size, ∀ d, (s.vnodes c).parent = some d → d < s.size ∧ c ∈ (s.vnodes d).children
  nodup : ∀ d < s.size, (s.vnodes d).children.Nodup
  mount : ∀ d < s.size, (s.vnodes d).mount < s.mounts.length
  rootfs : ∀ m, s.rootfs = some m → m < s.mounts.length
  root : ∀ r, s.root = .ok r → r < s.size ∧ (s.vnodes r).parent = none

section Push

variable {s : State} {v : Vnode} {i : ℕ}

theorem push_new (s : State) (v : Vnode) : (s.push v).vnodes s.size = v := Function.update_self ..

theorem push_old (v : Vnode) (hi : i < s.size) : (s.push v).vnodes i =
    { s.vnodes i with children := (s.vnodes i).children ++ if v.parent = some i then [s.size] else [] } := by
  have hne : i ≠ s.size := Nat.ne_of_lt hi
  rw [show (s.push v).vnodes i = pushChild s.vnodes v.parent s.size i from Function.update_of_ne hne
    ..]
  unfold pushChild
  cases v.parent with
  | none => simp
  | some p =>
    by_cases hp : i = p
    · subst hp
      simp
    · simp [hp, Ne.symm hp]

theorem push_lt_or_eq (h : i < (s.push v).size) : i < s.size ∨ i = s.size := Nat.lt_succ_iff_lt_or_eq.1 h

theorem mem_push_children (hi : i < s.size) :
    c ∈ ((s.push v).vnodes i).children ↔ c ∈ (s.vnodes i).children ∨ (c = s.size ∧ v.parent = some i) := by
  rw [push_old v hi, mem_append]
  refine or_congr_right ?_
  split
  · next hp => rw [mem_singleton, and_iff_left hp]
  · next hp => exact iff_of_false not_mem_nil fun h ↦ hp h.2

end Push

section Forest

variable {s : State}

theorem root_eq_ok_iff {r : ℕ} :
    s.root = .ok r ↔ ∃ m mnt, s.rootfs = some m ∧ s.mounts[m]? = some mnt ∧ mnt.root = some r := by
  unfold State.root
  cases s.rootfs with
  | none => exact iff_of_false nofun nofun
  | some m =>
    cases hmnt : s.mounts[m]? with
    | none => simp [hmnt]
    | some mnt =>
      cases hroot : mnt.root with
      | none | some r' => simp [hmnt, hroot]

section

variable (h : IsForest s)
include h

/-- The root stays with the root file system and the mounts. -/
theorem IsForest.root_eq {t : State} (hrootfs : t.rootfs = s.rootfs)
    (hmounts : ∀ k < s.mounts.length, t.mounts[k]? = s.mounts[k]?) : t.root = s.root := by
  rw [State.root, State.root, hrootfs]
  cases hr : s.rootfs with
  | none => rfl
  | some m =>
    dsimp only
    rw [hmounts m (h.rootfs m hr)]

theorem IsForest.push {v : Vnode} (hchildren : v.children = [])
    (hparent : ∀ p, v.parent = some p → p < s.size) (hmount : v.mount < s.mounts.length) :
    IsForest (s.push v) where
  child d hd c hc := by
    rcases push_lt_or_eq hd with hd | rfl
    · rcases (mem_push_children hd).1 hc with hold | ⟨rfl, hp⟩
      · obtain ⟨hlt, hsize, hpar⟩ := h.child d hd c hold
        rw [push_old v hsize]
        exact ⟨hlt, Nat.lt_succ_of_lt hsize, hpar⟩
      · rw [push_new]
        exact ⟨hd, Nat.lt_succ_self _, hp⟩
    · rw [push_new, hchildren] at hc
      exact absurd hc not_mem_nil
  parent c hc d hd := by
    rcases push_lt_or_eq hc with hc | rfl
    · rw [push_old v hc] at hd
      obtain ⟨hsize, hmem⟩ := h.parent c hc d hd
      exact ⟨Nat.lt_succ_of_lt hsize, (mem_push_children hsize).2 (.inl hmem)⟩
    · rw [push_new] at hd
      exact ⟨Nat.lt_succ_of_lt (hparent d hd),
        (mem_push_children (hparent d hd)).2 (.inr ⟨rfl, hd⟩)⟩
  nodup d hd := by
    rcases push_lt_or_eq hd with hd | rfl
    · rw [push_old v hd]
      refine nodup_append.2 ⟨h.nodup d hd, by split <;> simp, ?_⟩
      rintro c hc _ hnew rfl
      have hlt := (h.child d hd c hc).2.1
      split at hnew
      · rw [mem_singleton.1 hnew] at hlt
        exact Nat.lt_irrefl _ hlt
      · exact not_mem_nil hnew
    · rw [push_new, hchildren]
      exact nodup_nil
  mount d hd := by
    rcases push_lt_or_eq hd with hd | rfl
    · rw [push_old v hd]
      exact h.mount d hd
    · rw [push_new]
      exact hmount
  rootfs := h.rootfs
  root r hr := by
    obtain ⟨hlt, hpar⟩ := h.root r hr
    rw [push_old v hlt]
    exact ⟨Nat.lt_succ_of_lt hlt, hpar⟩

theorem IsForest.addChild {dir : ℕ} (hdir : dir < s.size) (type : FileType) (name : Name) :
    IsForest (s.addChild dir type name) :=
  h.push rfl (fun _ hp ↦ Option.some.inj hp ▸ hdir) (h.mount dir hdir)

theorem IsForest.addContents (root : ℕ) (contents : List Entry) :
    IsForest (addContents s root contents) := by
  induction contents generalizing s with
  | nil => exact h
  | cons e contents ih =>
    refine ih ?_
    dsimp only
    split
    · next hlt => exact h.addChild hlt e.type e.name
    · exact h

omit h in
theorem hide_eq (node i : ℕ) : (s.hide node).vnodes i =
    { s.vnodes i with hidden := decide (i = node) || (s.vnodes i).hidden } := by
  by_cases hi : i = node
  · subst hi
    simp [State.hide]
  · simp [State.hide, hi]

theorem IsForest.hide (node : ℕ) : IsForest (s.hide node) where
  child d hd := by
    simp only [hide_eq]
    exact h.child d hd
  parent c hc := by
    simp only [hide_eq]
    exact h.parent c hc
  nodup d hd := by
    rw [hide_eq]
    exact h.nodup d hd
  mount d hd := by
    rw [hide_eq]
    exact h.mount d hd
  rootfs := h.rootfs
  root r hr := by
    rw [hide_eq]
    exact h.root r hr

omit h in
theorem addMount_ne_nil (s : State) (fs : FsType) (flags : UInt32) : (s.addMount fs flags).mounts ≠ [] :=
  append_ne_nil_of_right_ne_nil _ (cons_ne_nil _ _)

/-- A mount whose root is not there yet. -/
theorem IsForest.addMount (fs : FsType) (flags : UInt32) : IsForest (s.addMount fs flags) where
  child := h.child
  parent := h.parent
  nodup := h.nodup
  mount d hd := by
    rw [State.addMount, length_append]
    exact Nat.lt_succ_of_lt (h.mount d hd)
  rootfs m hm := by
    rw [State.addMount, length_append]
    exact Nat.lt_succ_of_lt (h.rootfs m hm)
  root r hr := by
    obtain ⟨m, mnt, hm, hmnt, hroot⟩ := root_eq_ok_iff.1 hr
    refine h.root r (root_eq_ok_iff.2 ⟨m, mnt, hm, ?_, hroot⟩)
    rwa [State.addMount, getElem?_append_left (h.rootfs m hm)] at hmnt

/-- The new file system becomes the root file system. -/
theorem IsForest.addRootMount (fs : FsType) (flags : UInt32) :
    IsForest { s.addMount fs flags with rootfs := some s.mounts.length } where
  child := h.child
  parent := h.parent
  nodup := h.nodup
  mount := (h.addMount fs flags).mount
  rootfs m hm := by
    rw [← Option.some.inj hm, State.addMount, length_append]
    exact Nat.lt_succ_self _
  root r hr := by
    obtain ⟨m, mnt, hm, hmnt, hroot⟩ := root_eq_ok_iff.1 hr
    cases hm
    rw [State.addMount, getElem?_concat_length] at hmnt
    cases hmnt
    cases hroot

/-- The root of a mount is linked to a parent, or has none. -/
theorem IsForest.addRoot (hparent : ∀ p, parent = some p → p < s.size) (hmounts : s.mounts ≠ [])
    (hroot : s.rootfs = some (s.mounts.length - 1) → parent = none) (fs : FsType) (flags : UInt32)
    (name : Name) (ops : Bool) :
    IsForest (s.addRoot fs flags parent name ops) := by
  have hlast : s.mounts.length - 1 < s.mounts.length := Nat.sub_one_lt fun h ↦
    hmounts (length_eq_zero_iff.1 h)
  have hpush := h.push (v := ⟨s.mounts.length - 1, [], false, parent, .dir, name⟩) rfl hparent hlast
  refine ⟨hpush.child, hpush.parent, hpush.nodup, fun d hd ↦ ?_, fun m hm ↦ ?_, fun r hr ↦ ?_⟩
  · rw [State.addRoot, length_set]
    exact hpush.mount d hd
  · rw [State.addRoot, length_set]
    exact h.rootfs m hm
  · obtain ⟨m, mnt, hm, hmnt, hr⟩ := root_eq_ok_iff.1 hr
    change s.rootfs = some m at hm
    rw [State.addRoot, getElem?_set] at hmnt
    split at hmnt
    · next heq =>
      subst heq
      cases hmnt
      cases hr
      refine ⟨Nat.lt_succ_self _, ?_⟩
      change ((s.push _).vnodes s.size).parent = none
      rw [push_new]
      exact hroot hm
    · exact hpush.root r (root_eq_ok_iff.2 ⟨m, mnt, hm, hmnt, hr⟩)

end

end Forest

/-! ## Looking up -/

section Walk

variable {s : State}

theorem lookup_eq_some {d : ℕ} {name : Name} (h : s.lookup d name = some c) :
    c ∈ (s.vnodes d).children ∧ (s.vnodes c).hidden = false ∧ (s.vnodes c).name = name := by
  have hchild := find?_some h
  rw [State.isChild, Bool.and_eq_true, Bool.not_eq_true', beq_iff_eq] at hchild
  exact ⟨mem_of_find?_eq_some h, hchild.1, hchild.2⟩

/-- The vnodes that `find_parent_vnode` returns. -/
def Found.Valid (s : State) : Found → Prop
  | .noDirectory => True
  | .existing node parent _ => node < s.size ∧ parent = (s.vnodes node).parent
  | .missing parent comp => parent < s.size ∧ s.lookup parent comp = none

theorem IsForest.walk (h : IsForest s) {toks : List Name} (hcur : cur < s.size)
    (hparent : parent = (s.vnodes cur).parent) (hwalk : walk s toks cur parent comp = .ok f) :
    f.Valid s := by
  induction toks generalizing cur parent comp with
  | nil =>
    cases hwalk
    exact ⟨hcur, hparent⟩
  | cons tok rest ih =>
    rw [Vfs.walk] at hwalk
    split at hwalk
    · cases hwalk
      exact ⟨hcur, hparent⟩
    · obtain ⟨fs, -, hwalk⟩ := of_bind_eq_ok hwalk
      split at hwalk
      · next hnone =>
        split at hwalk
        · cases hwalk
          exact ⟨hcur, hnone⟩
        · cases hwalk
          trivial
      · next child hsome =>
        obtain ⟨-, hlt, hpar⟩ := h.child cur hcur child (lookup_eq_some hsome).1
        exact ih hlt hpar.symm hwalk

theorem IsForest.startOf (h : IsForest s) (hstart : startOf s cwd comp = .ok cur) :
    cur < s.size := by
  unfold Vfs.startOf at hstart
  split at hstart
  · exact (h.root cur hstart).1
  · split at hstart
    · next hcwd =>
      split at hstart
      · split at hstart
        · exact absurd hstart nofun
        · next p hp =>
          obtain rfl := Except.ok.inj hstart
          exact (h.parent cwd hcwd p hp).1
      · exact Except.ok.inj hstart ▸ hcwd
    · exact absurd hstart nofun

theorem findParentVnode_true (s : State) (cwd : ℕ) (path : Name) : findParentVnode s true cwd path =
    if path.length < strLen then
      startOf s cwd ((tokens path).headD []) >>= fun cur ↦
        Vfs.walk s (lookups (tokens path)) cur (s.vnodes cur).parent ((tokens path).headD [])
    else .error .outOfBounds := rfl

section

variable (hfind : findParentVnode s ctx cwd path = .ok f)
include hfind

/-- A path that can be followed has a beginning. -/
theorem findParentVnode_eq_ok :
    ctx = true ∧ path.length < strLen ∧ ∃ cur, startOf s cwd ((tokens path).headD []) = .ok cur ∧
        Vfs.walk s (lookups (tokens path)) cur (s.vnodes cur).parent ((tokens path).headD []) = .ok f := by
  unfold findParentVnode at hfind
  split at hfind
  · cases hfind
  · next hctx =>
    split at hfind
    · next hlt =>
      obtain ⟨cur, hcur, hwalk⟩ := of_bind_eq_ok hfind
      exact ⟨of_not_not hctx, hlt, cur, hcur, hwalk⟩
    · cases hfind

theorem find_of_ctx : findParentVnode s true cwd path = .ok f := by
  obtain ⟨rfl, -⟩ := findParentVnode_eq_ok hfind
  exact hfind

theorem IsForest.find (h : IsForest s) : f.Valid s := by
  obtain ⟨-, -, cur, hcur, hwalk⟩ := findParentVnode_eq_ok hfind
  exact h.walk (h.startOf hcur) rfl hwalk

end

end Walk

/-! ## What the calls do -/

section Calls

variable {s s' : State} {cwd : ℕ} {path target : Name} {m : Allocs} {fs : FsType} {flags : UInt32}
  {contents : List Entry}

/-- A creating call leaves the tree as it is, or adds the missing vnode. -/
theorem vfsCreate_eq_ok {type : FileType} {r : Created} (h : vfsCreate s cwd path type m = .ok (r, s')) :
    (r = ⟨none, false⟩ ∧ s' = s ∧
      ∀ parent comp, findParentVnode s true cwd path = .ok (.missing parent comp) → m.vnode = false) ∨
    ∃ parent comp fs, findParentVnode s true cwd path = .ok (.missing parent comp) ∧ m.vnode = true ∧
      s.ops parent = .ok fs ∧ r = ⟨some s.size, !(needsInternal fs type && !m.internal)⟩ ∧
        s' = s.addChild parent type comp := by
  obtain ⟨f, hfind, h⟩ := of_bind_eq_ok h
  have hfind := find_of_ctx hfind
  cases f with
  | noDirectory | existing node parent comp =>
    cases h
    exact .inl ⟨rfl, rfl, fun p c hp ↦ absurd (Except.ok.inj (hfind.symm.trans hp)) nofun⟩
  | missing parent comp =>
    obtain ⟨fs, hops, h⟩ := of_bind_eq_ok h
    unfold createNode at h
    split at h
    · next hvnode =>
      cases h
      exact .inl ⟨rfl, rfl, fun _ _ _ ↦ Bool.eq_false_iff.2 hvnode⟩
    · next hvnode =>
      split at h
      · cases h
      · cases h
        exact .inr ⟨parent, comp, fs, hfind, of_not_not hvnode, hops, rfl, rfl⟩

theorem vfsOpen_eq_ok {r : Option ℕ} (h : vfsOpen s cwd path flags ctx m = .ok (r, s')) :
    s' = s ∨ ∃ parent comp, flags &&& oCreat ≠ 0 ∧ findParentVnode s true cwd path = .ok (.missing parent comp) ∧
      s' = s.addChild parent .file comp := by
  obtain ⟨⟨node, s₁⟩, hnode, h⟩ := of_bind_eq_ok h
  have hs : s' = s₁ := by
    match node, h with
    | none, h => exact (Prod.mk.inj (Except.ok.inj h)).2.symm
    | some none, h => cases h
    | some (some node), h =>
      obtain ⟨fs, -, h⟩ := of_bind_eq_ok h
      exact (Prod.mk.inj (Except.ok.inj h)).2.symm
  subst hs
  obtain ⟨f, hfind, hnode⟩ := of_bind_eq_ok hnode
  cases f with
  | noDirectory | existing node parent comp => exact .inl (Prod.mk.inj (Except.ok.inj hnode)).2.symm
  | missing parent comp =>
    dsimp only at hnode
    split at hnode
    · next hflags =>
      obtain ⟨⟨r', s₂⟩, hcreate, hnode⟩ := of_bind_eq_ok hnode
      cases hnode
      rcases vfsCreate_eq_ok hcreate with ⟨-, rfl, -⟩ | ⟨parent, comp, fs, hfind, -, -, -, rfl⟩
      · exact .inl rfl
      · exact .inr ⟨parent, comp, hflags, hfind, rfl⟩
    · exact .inl (Prod.mk.inj (Except.ok.inj hnode)).2.symm

/-- The state in which `vfs_mount` calls `setup_mount`, with the directory and the name of the
root. -/
inductive Prepared (s : State) (cwd : ℕ) (target : Name) (fs : FsType) (flags : UInt32) :
    State → Option ℕ → Name → Prop
  | root : target = [slash] →
      Prepared s cwd target fs flags { s.addMount fs flags with rootfs := some s.mounts.length } none []
  | node {node : ℕ} {parent : Option ℕ} {comp : Name} : target ≠ [slash] →
      findParentVnode s true cwd target = .ok (.existing node parent comp) → (s.vnodes node).type = .dir →
      Prepared s cwd target fs flags ((s.hide node).addMount fs flags) parent comp

/-- What `setup_mount` leaves. -/
inductive SetUp (s : State) (fs : FsType) (flags : UInt32) (parent : Option ℕ) (comp : Name) (m : Allocs)
    (contents : List Entry) : Bool → State → Prop
  | noTables : (m.vOps && m.fOps) = false → SetUp s fs flags parent comp m contents false s
  | noMetadata : (m.vOps && m.fOps) = true → fs = .fat32 → m.internal = false →
      SetUp s fs flags parent comp m contents false (s.addRoot fs flags parent comp false)
  | done : SetUp s fs flags parent comp m contents true
      (addContents (s.addRoot fs flags parent comp true) s.size (contentsOf fs contents))

theorem setupMount_eq_ok (h : setupMount s fs flags parent comp m contents = .ok (r, s')) :
    SetUp s fs flags parent comp m contents r s' := by
  unfold setupMount at h
  split at h
  · next hops =>
    cases h
    exact .noTables (by rw [Bool.eq_false_iff.2 hops, Bool.false_and])
  · next hvOps =>
    split at h
    · next hops =>
      cases h
      exact .noTables (by rw [Bool.eq_false_iff.2 hops, Bool.and_false])
    · next hfOps =>
      split at h
      · cases h
      · split at h
        · next hfat =>
          cases h
          exact .noMetadata (Bool.and_eq_true_iff.2 ⟨of_not_not hvOps, of_not_not hfOps⟩) hfat.1
            (Bool.eq_false_iff.2 hfat.2)
        · cases h
          exact .done

/-- The call gets to `setup_mount`. -/
def Attempts (s : State) (cwd : ℕ) (target : Name) (fs : FsType) (flags : UInt32) (m : Allocs) : Prop :=
  fs ∈ s.fsList ∧ m.mnt = true ∧ m.vnode = true ∧ ∃ s₁ parent comp, Prepared s cwd target fs flags s₁ parent comp

theorem not_prepared (hroot : target ≠ [slash]) (hfind : findParentVnode s true cwd target = .ok f)
    (hf : ∀ node parent comp, f = .existing node parent comp → (s.vnodes node).type ≠ .dir) :
    ¬∃ s₁ parent comp, Prepared s cwd target fs flags s₁ parent comp := by
  rintro ⟨s₁, parent, comp, hprep⟩
  cases hprep with
  | root htarget => exact hroot htarget
  | node _ hfind' hdir => exact hf _ _ _ (Except.ok.inj (hfind.symm.trans hfind')) hdir

theorem vfsMount_eq_ok (h : vfsMount s cwd target fs flags m contents = .ok (r, s')) :
    (r = false ∧ s' = s ∧ ¬Attempts s cwd target fs flags m) ∨
    ∃ s₁ parent comp, fs ∈ s.fsList ∧ m.mnt = true ∧ m.vnode = true ∧
      Prepared s cwd target fs flags s₁ parent comp ∧ SetUp s₁ fs flags parent comp m contents r s' := by
  unfold vfsMount at h
  split at h
  · next hfs =>
    cases h
    exact .inl ⟨rfl, rfl, fun ha ↦ hfs ha.1⟩
  · next hfs =>
    split at h
    · next hmnt =>
      cases h
      exact .inl ⟨rfl, rfl, fun ha ↦ hmnt ha.2.1⟩
    · next hmnt =>
      split at h
      · next hvnode =>
        cases h
        exact .inl ⟨rfl, rfl, fun ha ↦ hvnode ha.2.2.1⟩
      · next hvnode =>
        split at h
        · next hroot =>
          exact .inr ⟨_, none, [], of_not_not hfs, of_not_not hmnt, of_not_not hvnode, .root hroot,
            setupMount_eq_ok h⟩
        · next hroot =>
          obtain ⟨f, hfind, h⟩ := of_bind_eq_ok h
          have hfind := find_of_ctx hfind
          cases f with
          | noDirectory | missing parent comp =>
            cases h
            exact .inl ⟨rfl, rfl, fun ha ↦ not_prepared hroot hfind nofun ha.2.2.2⟩
          | existing node parent comp =>
            dsimp only at h
            split at h
            · next htype =>
              cases h
              refine .inl ⟨rfl, rfl, fun ha ↦ not_prepared hroot hfind ?_ ha.2.2.2⟩
              rintro _ _ _ ⟨⟩
              exact htype
            · next htype =>
              exact .inr ⟨_, parent, comp, of_not_not hfs, of_not_not hmnt, of_not_not hvnode,
                .node hroot hfind (of_not_not htype), setupMount_eq_ok h⟩

/-- The calls that create a vnode at a path. -/
inductive Adds : Act → ℕ → Name → FileType → Prop
  | create {cwd : ℕ} {path : Name} {type : FileType} {m : Allocs} : Adds (.vfsCreate cwd path type m) cwd path type
  | mkdir {cwd : ℕ} {path : Name} {m : Allocs} : Adds (.vfsMkdir cwd path m) cwd path .dir
  | openFile {cwd : ℕ} {path : Name} {flags : UInt32} {ctx : Bool} {m : Allocs} : flags &&& oCreat ≠ 0 →
      Adds (.vfsOpen cwd path flags ctx m) cwd path .file

/-- What a call that returns can do. -/
inductive Effect (s : State) : Act → Bool → State → Prop
  | unchanged {a : Act} {r : Bool} : Effect s a r s
  | registered {fs : FsType} : Effect s (.registerFilesystem fs) true (registerFilesystem s fs)
  | added {a : Act} {cwd : ℕ} {path : Name} {type : FileType} {parent : ℕ} {comp : Name} {r : Bool} :
      Adds a cwd path type → findParentVnode s true cwd path = .ok (.missing parent comp) →
      Effect s a r (s.addChild parent type comp)
  | mounted {cwd : ℕ} {target : Name} {fs : FsType} {flags : UInt32} {m : Allocs} {contents : List Entry}
      {s₁ s' : State} {parent : Option ℕ} {comp : Name} {r : Bool} :
      fs ∈ s.fsList → Prepared s cwd target fs flags s₁ parent comp → SetUp s₁ fs flags parent comp m contents r s' →
      Effect s (.vfsMount cwd target fs flags m contents) r s'

theorem Act.effect (h : a.run s = .ok (r, s')) : Effect s a r s' := by
  cases a with
  | registerFilesystem fs =>
    cases h
    exact .registered
  | vfsCreate cwd path type m =>
    obtain ⟨⟨created, s₁⟩, hcreate, h⟩ := map_eq_ok h
    cases h
    rcases vfsCreate_eq_ok hcreate with ⟨-, rfl, -⟩ | ⟨parent, comp, fs, hfind, -, -, -, rfl⟩
    · exact .unchanged
    · exact .added .create hfind
  | vfsMkdir cwd path m =>
    obtain ⟨⟨created, s₁⟩, hcreate, h⟩ := map_eq_ok h
    cases h
    rcases vfsCreate_eq_ok hcreate with ⟨-, rfl, -⟩ | ⟨parent, comp, fs, hfind, -, -, -, rfl⟩
    · exact .unchanged
    · exact .added .mkdir hfind
  | vfsOpen cwd path flags ctx m =>
    obtain ⟨⟨created, s₁⟩, hopen, h⟩ := map_eq_ok h
    cases h
    rcases vfsOpen_eq_ok hopen with rfl | ⟨parent, comp, hflags, hfind, rfl⟩
    · exact .unchanged
    · exact .added (.openFile hflags) hfind
  | vfsMount cwd target fs flags m contents =>
    rcases vfsMount_eq_ok h with ⟨-, rfl, -⟩ | ⟨s₁, parent, comp, hfs, -, -, hprep, hset⟩
    · exact .unchanged
    · exact .mounted hfs hprep hset

end Calls

/-! ## Runs -/

section Runs

variable {s s' s₁ : State} {cwd : ℕ} {target : Name} {fs : FsType} {flags : UInt32}
  {parent : Option ℕ} {comp : Name}

theorem Prepared.isForest (hprep : Prepared s cwd target fs flags s₁ parent comp) (h : IsForest s) :
    IsForest s₁ ∧ (∀ p, parent = some p → p < s₁.size) ∧ s₁.mounts ≠ [] ∧
      (s₁.rootfs = some (s₁.mounts.length - 1) → parent = none) := by
  cases hprep with
  | root _ => exact ⟨h.addRootMount fs flags, nofun, addMount_ne_nil s fs flags, fun _ ↦ rfl⟩
  | @node node _ _ _ hfind _ =>
    obtain ⟨hnode, rfl⟩ := h.find hfind
    refine ⟨(h.hide node).addMount fs flags, fun p hp ↦ (h.parent node hnode p hp).1,
      addMount_ne_nil s fs flags,
      fun hrootfs ↦ ?_⟩
    have hlt := h.rootfs _ hrootfs
    rw [State.addMount, length_append] at hlt
    exact absurd hlt (Nat.lt_irrefl _)

theorem SetUp.isForest {m : Allocs} {contents : List Entry}
    (hset : SetUp s₁ fs flags parent comp m contents r s') (h : IsForest s₁)
    (hparent : ∀ p, parent = some p → p < s₁.size) (hmounts : s₁.mounts ≠ [])
    (hroot : s₁.rootfs = some (s₁.mounts.length - 1) → parent = none) :
    IsForest s' := by
  cases hset with
  | noTables _ => exact h
  | noMetadata _ _ _ => exact h.addRoot hparent hmounts hroot fs flags comp false
  | done => exact (h.addRoot hparent hmounts hroot fs flags comp true).addContents _ _

theorem IsForest.run (h : IsForest s) (hrun : a.run s = .ok (r, s')) : IsForest s' := by
  cases a.effect hrun with
  | unchanged => exact h
  | registered =>
    unfold registerFilesystem
    split
    · exact h
    · exact ⟨h.child, h.parent, h.nodup, h.mount, h.rootfs, h.root⟩
  | added _ hfind => exact h.addChild (h.find hfind).1 _ _
  | mounted _ hprep hset =>
    obtain ⟨h₁, hparent, hmounts, hroot⟩ := hprep.isForest h
    exact hset.isForest h₁ hparent hmounts hroot

theorem isForest_start : IsForest start where
  child d hd c hc := by
    obtain rfl : d = 0 := Nat.lt_one_iff.1 hd
    exact absurd hc not_mem_nil
  parent c hc d hd := by
    obtain rfl : c = 0 := Nat.lt_one_iff.1 hc
    cases hd
  nodup d hd := by
    obtain rfl : d = 0 := Nat.lt_one_iff.1 hd
    exact nodup_nil
  mount d hd := by
    obtain rfl : d = 0 := Nat.lt_one_iff.1 hd
    exact Nat.one_pos
  rootfs m hm := Option.some.inj hm ▸ Nat.one_pos
  root r hr := Except.ok.inj hr ▸ ⟨Nat.one_pos, rfl⟩

end Runs

theorem isForest_of_reachable {s : State}
    (hreach : Reachable (· = start) (CallStep anyCall Act.run) s) : IsForest s := by
  refine hreach.calls ?_ fun s a r s' h _ hrun ↦ h.run hrun
  rintro s rfl
  exact isForest_start

end CapstoneKernel.Vfs
