import CapstoneKernel.Vfs.Mounts

/-!
# Calls that fail

A call of `vfs_create`, `vfs_mkdir` or `vfs_mount` that returns `-1` leaves the tree below the root
as it was, unless an allocation fails that is made after a vnode has been linked or hidden or the
root file system has been replaced.
-/

namespace CapstoneKernel.Vfs

open Execution List

/-- The vnode can be reached from the root. -/
def InTree (s : State) (x : ℕ) : Prop := ∃ r, s.root = .ok r ∧ Below s r x

/-- The root file system and the vnodes below the root, with their names, types and flags. -/
structure SameTree (s s' : State) : Prop where
  rootfs : s'.rootfs = s.rootfs
  mem : ∀ x, InTree s' x ↔ InTree s x
  name : ∀ x, InTree s x → (s'.vnodes x).name = (s.vnodes x).name
  type : ∀ x, InTree s x → (s'.vnodes x).type = (s.vnodes x).type
  hidden : ∀ x, InTree s x → (s'.vnodes x).hidden = (s.vnodes x).hidden

/-- The call comes to an allocation that fails after the tree has been changed. -/
def FailsLate (s : State) : Act → Prop
  | .vfsCreate cwd path _ m | .vfsMkdir cwd path m => m.vnode = true ∧
      ∃ p comp, findParentVnode s true cwd path = .ok (.missing p comp) ∧ InTree s p
  | .vfsMount cwd target fs _ m _ => fs ∈ s.fsList ∧ m.mnt = true ∧ m.vnode = true ∧
      (target = [slash] ∨ ∃ node parent comp, findParentVnode s true cwd target = .ok (.existing node parent comp) ∧
        (s.vnodes node).type = .dir ∧ InTree s node ∧
        ((s.vnodes node).hidden = false ∨ ((m.vOps && m.fOps) = true ∧ parent ≠ none)))
  | _ => False

variable {s s₁ s' : State} {cwd node p x : ℕ} {target comp : Name} {fs : FsType} {flags : UInt32}
  {m : Allocs} {contents : List Entry} {parent : Option ℕ} {v : Vnode}

theorem SameTree.refl (s : State) : SameTree s s :=
  ⟨rfl, fun _ ↦ Iff.rfl, fun _ _ ↦ rfl, fun _ _ ↦ rfl, fun _ _ ↦ rfl⟩

theorem InTree.lt (h : InTree s x) (hforest : IsForest s) : x < s.size := by
  obtain ⟨r, hr, hbelow⟩ := h
  exact hbelow.lt hforest (hforest.root r hr).1

theorem IsForest.inTree_parent_iff (hforest : IsForest s) (hnode : node < s.size)
    (hparent : (s.vnodes node).parent = some p) : InTree s p ↔ InTree s node := by
  obtain ⟨-, hmem⟩ := hforest.parent node hnode p hparent
  constructor
  · rintro ⟨r, hr, hbelow⟩
    exact ⟨r, hr, hbelow.tail hmem⟩
  · rintro ⟨r, hr, hbelow⟩
    obtain ⟨hrlt, hroot⟩ := hforest.root r hr
    refine ⟨r, hr, ?_⟩
    rcases Relation.ReflTransGen.cases_tail hbelow with rfl | ⟨d, hd, hc⟩
    · exact absurd (hroot.symm.trans hparent) nofun
    · have hdp := (hforest.child d (Below.lt hd hforest hrlt) node hc).2.2
      obtain rfl := Option.mem_unique hdp hparent
      exact hd

theorem below_push_iff (hforest : IsForest s) (hchildren : v.children = []) {r : ℕ} (hr : r < s.size) :
    Below (s.push v) r x ↔ Below s r x ∨ (x = s.size ∧ ∃ p, v.parent = some p ∧ Below s r p) := by
  have hmono {x : ℕ} (h : Below s r x) : Below (s.push v) r x := by
    induction h with
    | refl => exact .refl
    | tail hd hc ih => exact ih.tail ((mem_push_children (Below.lt hd hforest hr)).2 (.inl hc))
  constructor
  · intro h
    induction h with
    | refl => exact .inl .refl
    | @tail d c _ hc ih =>
      rcases ih with hd | ⟨rfl, -⟩
      · rcases (mem_push_children (Below.lt hd hforest hr)).1 hc with hold | ⟨rfl, hp⟩
        · exact .inl (hd.tail hold)
        · exact .inr ⟨rfl, d, hp, hd⟩
      · rw [push_new, hchildren] at hc
        exact absurd hc not_mem_nil
  · rintro (h | ⟨rfl, p, hp, hbelow⟩)
    · exact hmono h
    · exact (hmono hbelow).tail ((mem_push_children (Below.lt hbelow hforest hr)).2
        (.inr ⟨rfl, hp⟩))

theorem inTree_hide_iff (hroot : s'.root = s.root) (hvnodes : s'.vnodes = (s.hide node).vnodes) (x : ℕ) :
    InTree s' x ↔ InTree s x := by
  have hbelow : Below s' = Below s := by
    unfold Below
    simp only [hvnodes, hide_eq]
  rw [InTree, InTree, hroot, hbelow]

/-- Only the flag of a hidden vnode changes. -/
theorem sameTree_hide_iff (hroot : s'.root = s.root) (hrootfs : s'.rootfs = s.rootfs)
    (hvnodes : s'.vnodes = (s.hide node).vnodes) :
    SameTree s s' ↔ ¬(InTree s node ∧ (s.vnodes node).hidden = false) := by
  constructor
  · rintro h ⟨hin, hvisible⟩
    have hhidden := h.hidden node hin
    rw [hvnodes, hide_eq, decide_eq_true rfl, hvisible] at hhidden
    cases hhidden
  · intro h
    refine ⟨hrootfs, inTree_hide_iff hroot hvnodes, fun x _ ↦ by rw [hvnodes, hide_eq],
      fun x _ ↦ by rw [hvnodes, hide_eq], fun x hx ↦ ?_⟩
    rw [hvnodes, hide_eq]
    by_cases hnode : x = node
    · subst hnode
      have hhidden : (s.vnodes x).hidden = true := of_not_not fun hne ↦
        h ⟨hx, Bool.eq_false_iff.2 hne⟩
      rw [hhidden, Bool.or_true]
    · rw [decide_eq_false hnode, Bool.false_or]

/-- A vnode that is linked changes the tree if its parent is in the tree. -/
theorem sameTree_push_iff {t : State} (hforest : IsForest s) (hforest' : IsForest t)
    (hsize : t.size = s.size) (hchildren : v.children = []) (hroot : s'.root = t.root) (hrootfs : s'.rootfs = t.rootfs)
    (hvnodes : s'.vnodes = (t.push v).vnodes) :
    SameTree s s' ↔ SameTree s t ∧ ¬∃ p, v.parent = some p ∧ InTree t p := by
  have hmem (x : ℕ) : InTree s' x ↔ InTree t x ∨
    (x = t.size ∧ ∃ p, v.parent = some p ∧ InTree t p) := by
    have hbelow : Below s' = Below (t.push v) := by
      unfold Below
      rw [hvnodes]
    rw [InTree, hroot, hbelow]
    constructor
    · rintro ⟨r, hr, hx⟩
      rcases (below_push_iff hforest' hchildren (hforest'.root r hr).1).1 hx with hx | ⟨rfl, p, hp,
        hbelow⟩
      · exact .inl ⟨r, hr, hx⟩
      · exact .inr ⟨rfl, p, hp, r, hr, hbelow⟩
    · rintro (⟨r, hr, hx⟩ | ⟨rfl, p, hp, r, hr, hbelow⟩)
      · exact ⟨r, hr, (below_push_iff hforest' hchildren (hforest'.root r hr).1).2 (.inl hx)⟩
      · exact ⟨r, hr, (below_push_iff hforest' hchildren (hforest'.root r hr).1).2
          (.inr ⟨rfl, p, hp, hbelow⟩)⟩
  have hold {x : ℕ} (hx : InTree s x) : s'.vnodes x =
      { t.vnodes x with children := (t.vnodes x).children ++ if v.parent = some x then [t.size] else
        [] } := by
    rw [hvnodes, push_old v (hsize ▸ hx.lt hforest)]
  constructor
  · intro h
    refine ⟨⟨hrootfs ▸ h.rootfs, fun x ↦ ⟨fun hx ↦ (h.mem x).1 ((hmem x).2 (.inl hx)), fun hx ↦ ?_⟩,
      fun x hx ↦ ?_, fun x hx ↦ ?_, fun x hx ↦ ?_⟩, fun hp ↦ ?_⟩
    · rcases (hmem x).1 ((h.mem x).2 hx) with ht | ⟨rfl, -⟩
      · exact ht
      · exact absurd (hx.lt hforest) (hsize ▸ Nat.lt_irrefl _)
    · rw [← h.name x hx, hold hx]
    · rw [← h.type x hx, hold hx]
    · rw [← h.hidden x hx, hold hx]
    · have hnew := (h.mem t.size).1 ((hmem t.size).2 (.inr ⟨rfl, hp⟩))
      exact absurd (hnew.lt hforest) (hsize ▸ Nat.lt_irrefl _)
  · rintro ⟨h, hnone⟩
    refine ⟨hrootfs.trans h.rootfs, fun x ↦ ?_, fun x hx ↦ ?_, fun x hx ↦ ?_, fun x hx ↦ ?_⟩
    · rw [hmem, or_iff_left fun hx ↦ hnone hx.2]
      exact h.mem x
    · rw [hold hx]
      exact h.name x hx
    · rw [hold hx]
      exact h.type x hx
    · rw [hold hx]
      exact h.hidden x hx

theorem sameTree_addChild_iff (hforest : IsForest s) (type : FileType) (name : Name) :
    SameTree s (s.addChild p type name) ↔ ¬InTree s p := by
  have hpush : SameTree s (s.addChild p type name) ↔ _ := sameTree_push_iff (t := s)
    (v := ⟨(s.vnodes p).mount, [], false, some p, type, name⟩) hforest hforest rfl rfl rfl rfl rfl
  rw [hpush, and_iff_right (SameTree.refl s)]
  refine not_congr ⟨?_, fun h ↦ ⟨p, rfl, h⟩⟩
  rintro ⟨p', hp', h⟩
  exact Option.some.inj hp' ▸ h

/-- A mount on a directory that fails in `setup_mount`. -/
theorem SetUp.sameTree_iff (hforest : IsForest s)
    (hfind : findParentVnode s true cwd target = .ok (.existing node parent comp))
    (hset : SetUp ((s.hide node).addMount fs flags) fs flags parent comp m contents false s') :
    SameTree s s' ↔ ¬(InTree s node ∧ ((s.vnodes node).hidden = false ∨ ((m.vOps && m.fOps) = true ∧ parent ≠ none))) := by
  obtain ⟨hnode, rfl⟩ := hforest.find hfind
  have hroot : ((s.hide node).addMount fs flags).root = s.root :=
    hforest.root_eq rfl fun k hk ↦ getElem?_append_left hk
  have hhide : SameTree s ((s.hide node).addMount fs flags) ↔ _ := sameTree_hide_iff hroot rfl rfl
  cases hset with
  | noTables htables =>
    rw [hhide, htables]
    simp
  | noMetadata htables _ _ =>
    have hroot' : (((s.hide node).addMount fs flags).addRoot fs flags
      (s.vnodes node).parent comp false).root = s.root := by
      refine hforest.root_eq rfl fun k hk ↦ ?_
      change ((s.mounts ++ [_]).set ((s.mounts ++ [_]).length - 1) _)[k]? = s.mounts[k]?
      rw [getElem?_set_ne (by rw [length_append]; exact Nat.ne_of_gt hk), getElem?_append_left hk]
    have hpush := sameTree_push_iff (t := (s.hide node).addMount fs flags)
      (v := ⟨((s.hide node).addMount fs flags).mounts.length - 1, [], false,
        (s.vnodes node).parent, .dir, comp⟩)
      hforest ((hforest.hide node).addMount fs flags) rfl rfl (hroot'.trans hroot.symm) rfl rfl
    rw [hpush, hhide, htables]
    cases hparent : (s.vnodes node).parent with
    | none => simp
    | some p =>
      have hiff : InTree ((s.hide node).addMount fs flags) p ↔ InTree s node :=
        (inTree_hide_iff hroot rfl p).trans (hforest.inTree_parent_iff hnode hparent)
      have hexists : (∃ p', some p = some p' ∧ InTree ((s.hide node).addMount fs flags) p') ↔
        InTree s node :=
        ⟨fun ⟨p', hp', h⟩ ↦ hiff.1 (Option.some.inj hp' ▸ h), fun h ↦ ⟨p, rfl, hiff.2 h⟩⟩
      rw [hexists]
      constructor
      · rintro ⟨-, hnot⟩ ⟨hin, -⟩
        exact hnot hin
      · intro hnot
        have hout : ¬InTree s node := fun hin ↦ hnot ⟨hin, .inr ⟨rfl, nofun⟩⟩
        exact ⟨fun h ↦ hout h.1, hout⟩

/-- The root file system has been replaced. -/
theorem SetUp.not_sameTree (hforest : IsForest s)
    (hset : SetUp { s.addMount fs flags with rootfs := some s.mounts.length } fs flags parent comp m contents false s') :
    ¬SameTree s s' := by
  intro h
  have hrootfs : s'.rootfs = some s.mounts.length := by cases hset <;> rfl
  rw [h.rootfs] at hrootfs
  exact Nat.lt_irrefl _ (hforest.rootfs _ hrootfs)

/-- The calls that create a vnode. -/
theorem sameTree_iff_of_create {type : FileType} {r : Created} (hforest : IsForest s) {path : Name}
    (hcreate : vfsCreate s cwd path type m = .ok (r, s')) : SameTree s s' ↔ ¬(m.vnode = true ∧
      ∃ p comp, findParentVnode s true cwd path = .ok (.missing p comp) ∧ InTree s p) := by
  rcases vfsCreate_eq_ok hcreate with ⟨-, rfl, hvnode⟩ | ⟨p, comp, fs, hfind, hvnode, -, -, rfl⟩
  · refine iff_of_true (SameTree.refl _) ?_
    rintro ⟨htrue, p, comp, hfind, -⟩
    rw [hvnode p comp hfind] at htrue
    exact Bool.false_ne_true htrue
  · rw [sameTree_addChild_iff hforest]
    refine not_congr ⟨fun h ↦ ⟨hvnode, p, comp, hfind, h⟩, ?_⟩
    rintro ⟨-, p', comp', hfind', h⟩
    obtain ⟨rfl, -⟩ := Found.missing.inj (Except.ok.inj (hfind.symm.trans hfind'))
    exact h

/-- In every well-formed tree a call of `vfs_create`, `vfs_mkdir` or `vfs_mount` that fails leaves
the root file system and the vnodes below the root as they were, exactly if no allocation fails
after the tree has been changed. -/
theorem failed_call_atomic_iff {s s' : State} (hforest : IsForest s) {a : Act}
    (hcall : ∀ cwd path flags ctx m, a ≠ .vfsOpen cwd path flags ctx m) (hrun : a.run s = .ok (false, s')) :
    SameTree s s' ↔ ¬FailsLate s a := by
  cases a with
  | registerFilesystem fs => exact absurd (Prod.mk.inj (Except.ok.inj hrun)).1 nofun
  | vfsOpen cwd path flags ctx m => exact absurd rfl (hcall cwd path flags ctx m)
  | vfsCreate cwd path type m | vfsMkdir cwd path m =>
    obtain ⟨⟨created, s₁⟩, hcreate, hrun⟩ := map_eq_ok hrun
    obtain ⟨-, rfl⟩ := Prod.mk.inj hrun
    exact sameTree_iff_of_create hforest hcreate
  | vfsMount cwd target fs flags m contents =>
    rcases vfsMount_eq_ok hrun with ⟨-, rfl, hnot⟩ | ⟨s₁, parent, comp, hfs, hmnt, hvnode, hprep,
      hset⟩
    · refine iff_of_true (SameTree.refl _) ?_
      rintro ⟨hfs, hmnt, hvnode, htarget⟩
      by_cases hslash : target = [slash]
      · exact hnot ⟨hfs, hmnt, hvnode, _, _, _, .root hslash⟩
      · obtain ⟨node, parent, comp, hfind, hdir, -⟩ := htarget.resolve_left hslash
        exact hnot ⟨hfs, hmnt, hvnode, _, _, _, .node hslash hfind hdir⟩
    · cases hprep with
      | root htarget =>
        exact iff_of_false (hset.not_sameTree hforest) fun h ↦
          h ⟨hfs, hmnt, hvnode, .inl htarget⟩
      | node htarget hfind hdir =>
        rw [hset.sameTree_iff hforest hfind]
        refine not_congr ⟨fun h ↦ ⟨hfs, hmnt, hvnode, .inr ⟨_, _, _, hfind, hdir, h⟩⟩, ?_⟩
        rintro ⟨-, -, -, hlate⟩
        obtain ⟨node', parent', comp', hfind', -, h⟩ := hlate.resolve_left htarget
        obtain ⟨rfl, rfl, -⟩ := Found.existing.inj (Except.ok.inj (hfind.symm.trans hfind'))
        exact h

/-- In a directory with a file, no vnode can be allocated. -/
theorem failed_call_atomic_iff_no_vnode : ∃ s s', Reachable (· = start) (CallStep anyCall Act.run) s ∧
    s.size = 3 ∧ (Act.vfsCreate 0 [slash, 97, slash, 99] .file { Allocs.all with vnode := false }).run s =
      .ok (false, s') ∧ SameTree s s' := by
  obtain ⟨s, hreach, hsize, hfails⟩ := Reachable.exists_calls anyCall Act.run start
    [.vfsMkdir 0 [slash, 97] .all, .vfsCreate 0 [slash, 97, slash, 98] .file .all]
    (fun s ↦ s.size = 3 ∧ ((Act.vfsCreate 0 [slash, 97, slash, 99] .file
      { Allocs.all with vnode := false }).run s).toOption.any (!·.1)) (by decide +kernel)
  obtain ⟨⟨_ | _, s'⟩, hrun, hfails⟩ := exists_of_any_toOption hfails
  · exact ⟨s, s', hreach, hsize, hrun, (failed_call_atomic_iff (isForest_of_reachable hreach)
      (by rintro _ _ _ _ _ ⟨⟩) hrun).2 fun h ↦ Bool.false_ne_true h.1⟩
  · cases hfails

/-- A file whose content cannot be allocated is linked all the same. -/
theorem failed_create_links : ∃ s', (Act.vfsCreate 0 [slash, 97] .file { Allocs.all with internal := false }).run
    start = .ok (false, s') ∧ IsForest start ∧ ¬SameTree start s' := by
  have hrun : (Act.vfsCreate 0 [slash, 97] .file { Allocs.all with internal := false }).run start =
      .ok (false, start.addChild 0 .file [97]) := rfl
  refine ⟨_, hrun, isForest_start, fun h ↦ ?_⟩
  have hin : InTree (start.addChild 0 .file [97]) 1 := ⟨0, rfl, .single (by decide +kernel)⟩
  exact absurd (((h.mem 1).1 hin).lt isForest_start) (by decide +kernel)

end CapstoneKernel.Vfs
