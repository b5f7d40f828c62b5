import CapstoneKernel.Vfs.Lookup

/-!
# Mounting over a directory

A mount hides the vnode of its target and puts the new root next to it, under the last component of
the target.  That shadows the directory if the target is found by looking up its last component, but
not if it is the directory at which the path begins.
-/

namespace CapstoneKernel.Vfs

open Execution Paths List Option

variable {s s₁ s' s'' : State} {first name q target comp : Name} {parent : Option ℕ}
  {c d x cwd cwd' node p root : ℕ} {fs : FsType} {flags : UInt32} {m : Allocs} {contents : List Entry}

/-! ## What a mount leaves -/

/-- A vnode without its children. -/
def Vnode.info (v : Vnode) : Vnode := { v with children := [] }

/-- The vnodes before `root` are as they were, and the others have only got children. -/
structure Extends (s s' : State) (root : ℕ) : Prop where
  size : s.size ≤ s'.size
  mounts : s'.mounts = s.mounts
  rootfs : s'.rootfs = s.rootfs
  info : ∀ i < s.size, (s'.vnodes i).info = (s.vnodes i).info
  children : ∀ i < root, (s'.vnodes i).children = (s.vnodes i).children

theorem Extends.trans (h : Extends s s' root) (h' : Extends s' s'' root) : Extends s s'' root where
  size := Nat.le_trans h.size h'.size
  mounts := h'.mounts.trans h.mounts
  rootfs := h'.rootfs.trans h.rootfs
  info i hi := (h'.info i (Nat.lt_of_lt_of_le hi h.size)).trans (h.info i hi)
  children i hi := (h'.children i hi).trans (h.children i hi)

theorem info_push {v : Vnode} (hd : d < s.size) : ((s.push v).vnodes d).info = (s.vnodes d).info := by
  rw [push_old v hd]
  rfl

theorem extends_addChild (hroot : root ≤ s.size) (hd : root ≤ d) (type : FileType) (name : Name) :
    Extends s (s.addChild d type name) root where
  size := Nat.le_succ _
  mounts := rfl
  rootfs := rfl
  info i hi := info_push hi
  children i hi := by
    have hne : ¬some d = some i := fun h ↦ Nat.not_lt.2 hd (some.inj h ▸ hi)
    rw [State.addChild, push_old _ (Nat.lt_of_lt_of_le hi hroot), if_neg hne, append_nil]

theorem extends_addContents (hroot : root ≤ s.size) (contents : List Entry) :
    Extends s (addContents s root contents) root := by
  induction contents generalizing s with
  | nil => exact ⟨Nat.le_refl _, rfl, rfl, fun _ _ ↦ rfl, fun _ _ ↦ rfl⟩
  | cons e contents ih =>
    rw [addContents, foldl_cons, ← addContents]
    split
    · have hadd := extends_addChild hroot (Nat.le_add_right root e.parent) e.type e.name
      exact hadd.trans (ih (Nat.le_trans hroot hadd.size))
    · exact ih hroot

theorem Extends.lookup (h : Extends s s' root) (hforest : IsForest s) (hd : d < s.size) (hroot : d < root)
    (name : Name) : s'.lookup d name = s.lookup d name := by
  rw [State.lookup, h.children d hroot]
  refine find?_congr fun c hc ↦ ?_
  have hinfo := h.info c (hforest.child d hd c hc).2.1
  rw [State.isChild, State.isChild]
  change (!(s'.vnodes c).info.hidden && (s'.vnodes c).info.name == name) = _
  rw [hinfo]
  rfl

theorem isChild_hide (c : ℕ) : (s.hide node).isChild name c = (s.isChild name c && !decide (c = node)) := by
  rw [State.isChild, State.isChild, hide_eq]
  cases decide (c = node) <;> simp

theorem lookup_hide_of_ne (h : s.lookup d name = some c) (hne : c ≠ node) :
    (s.hide node).lookup d name = some c := by
  obtain ⟨hc, front, back, hsplit, hfront⟩ := find?_eq_some_iff_append.1 h
  rw [State.lookup, hide_eq]
  refine find?_eq_some_iff_append.2 ⟨?_, front, back, hsplit, fun x hx ↦ ?_⟩
  · rw [isChild_hide, hc, decide_eq_false hne]
    rfl
  · have hx := hfront x hx
    rw [Bool.not_eq_true'] at hx ⊢
    rw [isChild_hide, hx, Bool.false_and]

theorem lookup_hide_of_none (h : s.lookup d name = none) : (s.hide node).lookup d name = none := by
  rw [State.lookup, hide_eq]
  refine find?_eq_none.2 fun c hc ↦ ?_
  rw [isChild_hide, Bool.eq_false_iff.2 (find?_eq_none.1 h c hc), Bool.false_and]
  exact Bool.false_ne_true

/-- The only visible vnode with a name cannot be found any more. -/
theorem lookup_hide_eq_none_iff : (s.hide node).lookup d name = none ↔
    ∀ c ∈ (s.vnodes d).children, s.isChild name c = true → c = node := by
  rw [State.lookup, hide_eq, find?_eq_none]
  refine forall₂_congr fun c _ ↦ ?_
  rw [isChild_hide, Bool.and_eq_true, Bool.not_eq_true', decide_eq_false_iff_not, not_and, not_not]

/-- What a mount that has succeeded leaves: the new root is a child of `parent` named `comp`, and
the old vnodes are those of `s₁`. -/
structure After (s s₁ s' : State) (parent : Option ℕ) (comp : Name) : Prop where
  forest : IsForest s'
  size : s.size < s'.size
  lookup : ∀ d < s.size, ∀ name, s'.lookup d name =
    (s₁.lookup d name).or (if parent = some d ∧ comp = name then some s.size else none)
  ops : ∀ d < s.size, s'.ops d = s.ops d
  info : ∀ d < s.size, (s'.vnodes d).info = (s₁.vnodes d).info
  rootfs : s'.rootfs = s₁.rootfs
  mounts : s'.mounts.length = s.mounts.length + 1
  keeps : ∀ k < s.mounts.length, s'.mounts[k]? = s.mounts[k]?
  root : ∃ mnt, s'.mounts[s.mounts.length]? = some mnt ∧ mnt.root = some s.size

section

variable (hprep : Prepared s cwd target fs flags s₁ parent comp)
include hprep

theorem Prepared.mounts_eq : s₁.mounts = s.mounts ++ [⟨none, fs, flags, false⟩] := by
  cases hprep <;> rfl

theorem Prepared.size_eq : s₁.size = s.size := by
  cases hprep <;> rfl

theorem Prepared.mount_eq (d : ℕ) : (s₁.vnodes d).mount = (s.vnodes d).mount := by
  cases hprep with
  | root _ => rfl
  | node _ _ _ =>
    change ((s.hide _).vnodes d).mount = _
    rw [hide_eq]

theorem Prepared.after (hforest : IsForest s)
    (hset : SetUp s₁ fs flags parent comp m contents true s') : After s s₁ s' parent comp := by
  obtain ⟨hforest₁, hparent, hmounts, hroot⟩ := hprep.isForest hforest
  have hsize := hprep.size_eq
  have hforest' := hset.isForest hforest₁ hparent hmounts hroot
  have hadd := hforest₁.addRoot hparent hmounts hroot fs flags comp true
  cases hset with
  | done =>
    have hext : Extends (s₁.addRoot fs flags parent comp true) _ s₁.size :=
      extends_addContents (Nat.le_succ s₁.size) (contentsOf fs contents)
    have hlist : (addContents (s₁.addRoot fs flags parent comp true) s₁.size
      (contentsOf fs contents)).mounts = s.mounts ++ [⟨some s.size, fs, flags, true⟩] := by
      rw [hext.mounts, State.addRoot, hprep.mounts_eq, hsize]
      simp
    have hinfo : ∀ d < s.size, ((addContents (s₁.addRoot fs flags parent comp true) s₁.size
        (contentsOf fs contents)).vnodes d).info = (s₁.vnodes d).info := by
      intro d hd
      rw [← hsize] at hd
      exact (hext.info d (Nat.lt_succ_of_lt hd)).trans (info_push hd)
    refine ⟨hforest', ?_, fun d hd name ↦ ?_, fun d hd ↦ ?_, hinfo, hext.rootfs, ?_, fun k hk ↦
      ?_, ?_⟩
    · rw [← hsize]
      exact hext.size
    · rw [← hsize] at hd ⊢
      rw [hext.lookup hadd (Nat.lt_succ_of_lt hd) hd]
      change (s₁.push _).lookup d name = _
      rw [lookup_push hforest₁ hd]
      simp
    · have hmount := congrArg Vnode.mount (hinfo d hd)
      change ((addContents _ _ _).vnodes d).mount = (s₁.vnodes d).mount at hmount
      rw [State.ops, State.ops, hmount, hprep.mount_eq, hlist,
        getElem?_append_left (hforest.mount d hd)]
    · rw [hlist, length_append]
      rfl
    · rw [hlist, getElem?_append_left hk]
    · exact ⟨_, by rw [hlist, getElem?_concat_length], rfl⟩

end

/-- The root of the last mount. -/
def newRoot (s : State) : Option ℕ := s.mounts.getLast?.bind Mount.root

theorem After.newRoot_eq (h : After s s₁ s' parent comp) : newRoot s' = some s.size := by
  obtain ⟨mnt, hget, hroot⟩ := h.root
  rw [newRoot, getLast?_eq_getElem?, h.mounts, Nat.add_sub_cancel, hget]
  exact hroot

theorem After.parent_eq (h : After s s₁ s' parent comp)
    (hprep : Prepared s cwd target fs flags s₁ parent comp) (hd : d < s.size) :
    (s'.vnodes d).parent = (s.vnodes d).parent := by
  have hparent := congrArg Vnode.parent (h.info d hd)
  change (s'.vnodes d).parent = (s₁.vnodes d).parent at hparent
  rw [hparent]
  cases hprep with
  | root _ => rfl
  | node _ _ _ =>
    change ((s.hide _).vnodes d).parent = _
    rw [hide_eq]

/-! ## Paths -/

/-- The names of a path that are looked up. -/
def walked (path : Name) : List Name := namesOf (lookups (tokens path))

/-- The path leads through the vnode. -/
def GoesThrough (s : State) (cwd : ℕ) (path : Name) (node : ℕ) : Prop :=
  ∃ cur front, startOf s cwd ((tokens path).headD []) = .ok cur ∧ front <+: walked path ∧
    resolve s.lookup cur front = some node

section Walk

variable {toks : List Name} {cur : ℕ} {par : Option ℕ} {c : Name}

/-- Without a name to look up the loop ends where it begins. -/
theorem walk_of_names_nil (h : namesOf toks = []) : walk s toks cur par c = .ok (.existing cur par c) := by
  cases toks with
  | nil => rfl
  | cons tok rest =>
    by_cases htok : tok = []
    · rw [walk, if_pos htok]
    · rw [namesOf_cons htok] at h
      exact absurd h (cons_ne_nil _ _)

/-- A vnode that is found is the one at which the path begins, or the last lookup has found it. -/
theorem walk_existing (h : walk s toks cur par c = .ok (.existing node parent comp)) :
    (namesOf toks = [] ∧ node = cur ∧ parent = par ∧ comp = c) ∨ ∃ front p, namesOf toks = front ++ [comp] ∧
      resolve s.lookup cur front = some p ∧ parent = some p ∧ s.lookup p comp = some node := by
  induction toks generalizing cur par c with
  | nil =>
    obtain ⟨rfl, rfl, rfl⟩ := Found.existing.inj (Except.ok.inj h)
    exact .inl ⟨rfl, rfl, rfl, rfl⟩
  | cons tok rest ih =>
    rw [walk] at h
    split at h
    · next htok =>
      obtain ⟨rfl, rfl, rfl⟩ := Found.existing.inj (Except.ok.inj h)
      exact .inl ⟨by rw [htok]; rfl, rfl, rfl, rfl⟩
    · next htok =>
      rw [namesOf_cons htok]
      obtain ⟨fs, -, h⟩ := of_bind_eq_ok h
      split at h
      · split at h <;> cases h
      · next child hchild =>
        rcases ih h with ⟨hnil, rfl, rfl, rfl⟩ | ⟨front, p, hnames, hp, hparent, hlookup⟩
        · exact .inr ⟨[], cur, by rw [hnil]; rfl, rfl, rfl, hchild⟩
        · exact .inr ⟨tok :: front, p, by rw [hnames]; rfl,
            bind_eq_some_iff.2 ⟨child, hchild, hp⟩,
            hparent, hlookup⟩

/-- Only the last lookup has another result. -/
theorem walk_redirect {front : List Name} {p r : ℕ} (h : walk s toks cur par c = .ok (.existing node parent comp))
    (hnames : namesOf toks = front ++ [comp]) (hp : resolve s.lookup cur front = some p)
    (hsame : ∀ front' n d, front' ++ [n] <+: front → resolve s.lookup cur front' = some d →
      s'.ops d = s.ops d ∧ s'.lookup d n = s.lookup d n)
    (hops : s'.ops p = s.ops p) (hr : s'.lookup p comp = some r) :
    walk s' toks cur par c = .ok (.existing r (some p) comp) := by
  induction toks generalizing cur par c front with
  | nil => exact absurd hnames.symm (by simp [namesOf])
  | cons tok rest ih =>
    rw [walk] at h ⊢
    split at h
    · next htok =>
      rw [htok] at hnames
      exact absurd hnames.symm (by simp [namesOf])
    · next htok =>
      rw [namesOf_cons htok] at hnames
      rw [if_neg htok]
      obtain ⟨fs, hfs, h⟩ := of_bind_eq_ok h
      split at h
      · split at h <;> cases h
      · next child hchild =>
        cases front with
        | nil =>
          obtain ⟨rfl, hnil⟩ := List.cons.inj hnames
          cases hp
          rw [hops, hfs, ok_bind, hr]
          exact walk_of_names_nil hnil
        | cons a front =>
          obtain rfl := (List.cons.inj hnames).1
          obtain ⟨hops', hlookup⟩ := hsame [] tok cur (prefix_append [tok] _) rfl
          obtain ⟨child', hchild', hp⟩ := bind_eq_some_iff.1 hp
          obtain rfl := mem_unique hchild hchild'
          rw [hops', hfs, ok_bind, hlookup, hchild]
          refine ih h (List.cons.inj hnames).2 hp fun front' n d hfront hd ↦ ?_
          exact hsame (tok :: front') n d (cons_prefix_cons.2 ⟨rfl, hfront⟩)
            (bind_eq_some_iff.2 ⟨child, hchild, hd⟩)

theorem IsForest.resolve_le (hforest : IsForest s) {names : List Name} (hd : d < s.size)
    (h : resolve s.lookup d names = some x) : d + names.length ≤ x := by
  induction names generalizing d with
  | nil => exact Nat.le_of_eq (some.inj h)
  | cons name names ih =>
    obtain ⟨e, he, hx⟩ := bind_eq_some_iff.1 h
    obtain ⟨hlt, hsize, -⟩ := hforest.child d hd e (lookup_eq_some he).1
    have hle := ih hsize hx
    rw [length_cons]
    omega

end Walk

/-! ## Lookups after a mount -/

section

variable (h : After s s₁ s' parent comp)
include h

theorem After.root_eq (hforest : IsForest s) (hrootfs : s₁.rootfs = s.rootfs) :
    s'.root = s.root := by
  exact hforest.root_eq (h.rootfs.trans hrootfs) h.keeps

section

variable (hprep : Prepared s cwd target fs flags s₁ parent comp)
include hprep

/-- Paths begin where they did, unless at another root. -/
theorem After.startOf_eq (hcwd : cwd' < s.size) (hroot : first = [] → s'.root = s.root) :
    startOf s' cwd' first = startOf s cwd' first := by
  rw [startOf, startOf, if_pos hcwd]
  split
  · next hfirst => exact hroot hfirst
  · rw [if_pos (Nat.lt_trans hcwd h.size), h.parent_eq hprep hcwd]

theorem After.startOf_of_ok {cur : ℕ} (hroot : first = [] → s'.root = s.root)
    (hstart : startOf s cwd' first = .ok cur) :
    startOf s' cwd' first = .ok cur := by
  by_cases hcwd : cwd' < s.size
  · rw [h.startOf_eq hprep hcwd hroot, hstart]
  · rw [startOf] at hstart ⊢
    rw [if_neg hcwd] at hstart
    split at hstart
    · next hfirst => rw [if_pos hfirst, hroot hfirst, hstart]
    · cases hstart

/-- Lookups that do not find the shadowed vnode decide about the other paths. -/
theorem After.other_paths (hforest : IsForest s)
    (hlook : ∀ d < s.size, ∀ name, s.lookup d name ≠ some node → s'.lookup d name = s.lookup d name)
    (hroot : s.root = .ok node ∨ s'.root = s.root) (hcwd : cwd' < s.size)
    (hq : ¬GoesThrough s cwd' q node) : vfsLookup s' cwd' q = vfsLookup s cwd' q := by
  have hstart : startOf s' cwd' ((tokens q).headD []) = startOf s cwd' ((tokens q).headD []) := by
    refine h.startOf_eq hprep hcwd fun hfirst ↦ hroot.resolve_left fun hnode ↦ hq ?_
    refine ⟨node, [], ?_, List.nil_prefix, rfl⟩
    rw [hfirst, startOf, if_pos rfl, hnode]
  refine vfsLookup_congr ?_
  rw [findParentVnode_true, findParentVnode_true, hstart]
  cases hcur : startOf s cwd' ((tokens q).headD []) with
  | error e => rfl
  | ok cur =>
    have hlt := hforest.startOf hcur
    rw [ok_bind, ok_bind, h.parent_eq hprep hlt, walk_congr fun front n d hfront hd ↦ ?_]
    have hdlt := hforest.resolve_lt hlt hd
    refine ⟨h.ops d hdlt, hlook d hdlt n fun hnode ↦ hq ⟨cur, front ++ [n], hcur, hfront, ?_⟩⟩
    exact resolve_concat hd hnode

end

end

/-- An old vnode that can be found by a path from the root of the new state. -/
theorem exists_resolve_of_vfsLookup (hq : q.head? = some slash)
    (h : vfsLookup s cwd' q = .ok (some (some x))) :
    ∃ r names, s.root = .ok r ∧ resolve s.lookup r names = some x := by
  obtain ⟨f, hfind, hfound⟩ := of_bind_eq_ok h
  obtain ⟨-, r, hr, hwalk⟩ := findParentVnode_absolute_eq_ok hq hfind
  refine ⟨r, namesOf (tokens q).tail, hr, ?_⟩
  cases f with
  | noDirectory => cases hfound
  | missing p comp => exact absurd (some.inj (Except.ok.inj hfound)) nofun
  | existing node parent comp =>
    obtain rfl := some.inj (some.inj (Except.ok.inj hfound))
    rcases walk_existing hwalk with ⟨hnil, rfl, -, -⟩ | ⟨front, p, hnames, hp, -, hlookup⟩
    · rw [hnil]
      rfl
    · rw [hnames]
      exact resolve_concat hp hlookup

/-! ## A mount on a directory -/

section

variable (h : After s ((s.hide node).addMount fs flags) s' parent comp)
include h

/-- Vnodes other than the hidden one are found as before. -/
theorem After.lookup_of_ne (hd : d < s.size) (hc : s.lookup d name = some c) (hne : c ≠ node) :
    s'.lookup d name = some c := by
  rw [h.lookup d hd]
  change ((s.hide node).lookup d name).or _ = _
  rw [lookup_hide_of_ne hc hne, some_or]

/-- What the target leads to. -/
theorem After.target_found_iff
    (hprep : Prepared s cwd target fs flags ((s.hide node).addMount fs flags) parent comp)
    (hforest : IsForest s)
    (hfind : findParentVnode s true cwd target = .ok (.existing node parent comp)) :
    vfsLookup s' cwd target = .ok (some (some s.size)) ↔ walked target ≠ [] ∧
      ∀ p, parent = some p → ∀ c ∈ (s.vnodes p).children, s.isChild comp c = true → c = node := by
  obtain ⟨-, hlength, cur, hcur, hwalk⟩ := findParentVnode_eq_ok hfind
  have hlt := hforest.startOf hcur
  have hnode := (hforest.find hfind).1
  have hcur' := h.startOf_of_ok hprep (fun _ ↦ h.root_eq hforest rfl) hcur
  rw [vfsLookup, findParentVnode_true, if_pos hlength, hcur', ok_bind, h.parent_eq hprep hlt]
  rcases walk_existing hwalk with ⟨hnil, rfl, -, -⟩ | ⟨front, p, hnames, hp, rfl, hlookup⟩
  · rw [walk_of_names_nil hnil]
    refine iff_of_false (fun heq ↦ ?_) fun hwalked ↦ hwalked.1 hnil
    exact Nat.ne_of_lt hnode (some.inj (some.inj (Except.ok.inj heq)))
  · have hplt := hforest.resolve_lt hlt hp
    have hpnode := (hforest.child p hplt node (lookup_eq_some hlookup).1).1
    -- before the last lookup the path cannot have been at the vnode, which is younger
    have hsame : ∀ front' n d, front' ++ [n] <+: front → resolve s.lookup cur front' = some d →
        s'.ops d = s.ops d ∧ s'.lookup d n = s.lookup d n := by
      rintro front' n d ⟨back, rfl⟩ hd
      have hdlt := hforest.resolve_lt hlt hd
      rw [append_assoc, resolve_append, hd, bind_some] at hp
      obtain ⟨c, hc, hback⟩ := bind_eq_some_iff.1 hp
      have hcp := hforest.resolve_le (hforest.lookup hdlt hc).1 hback
      refine ⟨h.ops d hdlt, ?_⟩
      rw [h.lookup_of_ne hdlt hc (by omega), hc]
    have hfound := h.lookup p hplt comp
    rw [if_pos ⟨rfl, rfl⟩] at hfound
    change s'.lookup p comp = ((s.hide node).lookup p comp).or _ at hfound
    have hwalked : walked target ≠ [] := by
      rw [walked, hnames]
      exact append_ne_nil_of_right_ne_nil _ (cons_ne_nil _ _)
    cases hhide : (s.hide node).lookup p comp with
    | none =>
      rw [hhide, none_or] at hfound
      rw [walk_redirect hwalk hnames hp hsame (h.ops p hplt) hfound]
      refine iff_of_true rfl ⟨hwalked, fun p' hp' ↦ ?_⟩
      cases hp'
      exact lookup_hide_eq_none_iff.1 hhide
    | some c =>
      rw [hhide, some_or] at hfound
      rw [walk_redirect hwalk hnames hp hsame (h.ops p hplt) hfound]
      have hclt : c < s.size := ((hforest.hide node).lookup hplt hhide).1
      refine iff_of_false (fun heq ↦ ?_) fun hall ↦ ?_
      · exact Nat.ne_of_lt hclt (some.inj (some.inj (Except.ok.inj heq)))
      · rw [lookup_hide_eq_none_iff.2 (hall.2 p rfl)] at hhide
        cases hhide

omit h in
/-- A lookup changes only if it has found the hidden vnode. -/
theorem After.lookup_eq (h : After s ((s.hide node).addMount fs flags) s' (some p) comp)
    (hlookup : s.lookup p comp = some node) (hd : d < s.size) (hne : s.lookup d name ≠ some node) :
    s'.lookup d name = s.lookup d name := by
  cases hc : s.lookup d name with
  | some c => exact h.lookup_of_ne hd hc fun heq ↦ hne (heq ▸ hc)
  | none =>
    rw [h.lookup d hd, if_neg]
    · change ((s.hide node).lookup d name).or none = none
      rw [lookup_hide_of_none hc, none_or]
    · rintro ⟨hp, rfl⟩
      rw [← some.inj hp, hlookup] at hc
      cases hc

theorem After.hidden (hnode : node < s.size) : (s'.vnodes node).hidden = true := by
  have hhidden := congrArg Vnode.hidden (h.info node hnode)
  change (s'.vnodes node).hidden = ((s.hide node).vnodes node).hidden at hhidden
  rw [hhidden, hide_eq, decide_eq_true rfl, Bool.true_or]

end

/-! ## The shadowed vnodes -/

/-- A vnode and everything below it. -/
def Below (s : State) : ℕ → ℕ → Prop := Relation.ReflTransGen fun d c ↦ c ∈ (s.vnodes d).children

theorem Below.lt (h : Below s node x) (hforest : IsForest s) (hnode : node < s.size) : x < s.size := by
  induction h with
  | refl => exact hnode
  | tail _ hc ih => exact (hforest.child _ ih _ hc).2.1

theorem Below.after (h : Below s node x) (hforest : IsForest s) (hnode : node < s.size)
    (hafter : After s s₁ s' parent comp) (hprep : Prepared s cwd target fs flags s₁ parent comp) :
    Relation.ReflTransGen (fun d c ↦ (s'.vnodes c).parent = some d) node x := by
  induction h with
  | refl => exact .refl
  | @tail d c hbelow hc ih =>
    obtain ⟨-, hclt, hparent⟩ := hforest.child d (Below.lt hbelow hforest hnode) c hc
    exact ih.tail ((hafter.parent_eq hprep hclt).trans hparent)

/-- Below the new root there are only new vnodes. -/
theorem After.not_found_of_root (h : After s s₁ s' parent comp) (hroot : s'.root = .ok s.size)
    (hq : q.head? = some slash) (hx : x < s.size) : vfsLookup s' cwd' q ≠ .ok (some (some x)) := by
  intro hfound
  obtain ⟨r, names, hr, hresolve⟩ := exists_resolve_of_vfsLookup hq hfound
  obtain rfl := Except.ok.inj (hroot.symm.trans hr)
  have hle := h.forest.resolve_le h.size hresolve
  omega

/-- No path leads through the hidden vnode. -/
theorem After.not_found_of_hidden (h : After s ((s.hide node).addMount fs flags) s' (some p) comp)
    (hprep : Prepared s cwd target fs flags ((s.hide node).addMount fs flags) (some p) comp) (hforest : IsForest s)
    (hnode : node < s.size) (hparent : (s.vnodes node).parent = some p) (hbelow : Below s node x)
    (hq : q.head? = some slash) : vfsLookup s' cwd' q ≠ .ok (some (some x)) := by
  intro hfound
  obtain ⟨r, names, hr, hresolve⟩ := exists_resolve_of_vfsLookup hq hfound
  obtain ⟨hrlt, hroot⟩ := h.forest.root r hr
  have hlook : ∀ d name c, d < s'.size → s'.lookup d name = some c → c < s'.size ∧
    (s'.vnodes c).parent = some d :=
    fun d name c hd hc ↦ ⟨(h.forest.lookup hd hc).1, (h.forest.lookup hd hc).2.1⟩
  obtain ⟨front, hfront⟩ := exists_resolve_ancestor hlook hrlt hroot
    (hbelow.after hforest hnode h hprep) hresolve
  rcases eq_nil_or_concat front with rfl | ⟨front, name, rfl⟩
  · cases hfront
    rw [h.parent_eq hprep hnode, hparent] at hroot
    cases hroot
  · obtain ⟨d, -, hlast⟩ := resolve_concat_eq_some hfront
    have hvisible := (lookup_eq_some hlast).2.1
    rw [h.hidden hnode] at hvisible
    cases hvisible

theorem After.shadows_root (h : After s { s.addMount fs flags with rootfs := some s.mounts.length } s' none [])
    (hforest : IsForest s) (hfind : findParentVnode s true cwd [slash] = .ok
      (.existing node parent comp)) :
    vfsLookup s' cwd [slash] = .ok (some (some s.size)) ∧
      (∀ cwd' < s.size, ∀ q, ¬GoesThrough s cwd' q node →
        vfsLookup s' cwd' q = vfsLookup s cwd' q) ∧
      ∀ x, Below s node x → ∀ cwd' q, q.head? = some slash →
        vfsLookup s' cwd' q ≠ .ok (some (some x)) := by
  have hprep : Prepared s cwd [slash] fs flags _ none [] := .root rfl
  have hnode := (hforest.find hfind).1
  have htokens : (tokens [slash]).tail = [[]] := by decide
  have hroot : s'.root = .ok s.size := by
    obtain ⟨mnt, hget, hmnt⟩ := h.root
    exact root_eq_ok_iff.2 ⟨s.mounts.length, mnt, h.rootfs, hget, hmnt⟩
  have hroot' : s.root = .ok node := by
    obtain ⟨-, r, hr, hwalk⟩ := findParentVnode_absolute_eq_ok rfl hfind
    rw [htokens] at hwalk
    obtain ⟨rfl, -, -⟩ := Found.existing.inj (Except.ok.inj hwalk)
    exact hr
  refine ⟨?_, fun cwd' hcwd q hq ↦ ?_, fun x hbelow cwd' q hq ↦ ?_⟩
  · rw [vfsLookup, findParentVnode_absolute s' cwd rfl, if_pos (by decide), hroot, ok_bind, htokens]
    rfl
  · refine h.other_paths hprep hforest (fun d hd name _ ↦ ?_) (.inl hroot') hcwd hq
    rw [h.lookup d hd, if_neg (by simp), or_none]
    rfl
  · exact h.not_found_of_root hroot hq (hbelow.lt hforest hnode)

theorem After.shadows_node (h : After s ((s.hide node).addMount fs flags) s' parent comp)
    (hprep : Prepared s cwd target fs flags ((s.hide node).addMount fs flags) parent comp) (hforest : IsForest s)
    (hfind : findParentVnode s true cwd target = .ok (.existing node parent comp)) (hwalked : walked target ≠ []) :
    (∀ cwd' < s.size, ∀ q, ¬GoesThrough s cwd' q node → vfsLookup s' cwd' q = vfsLookup s cwd' q) ∧
      ∀ x, Below s node x → ∀ cwd' q, q.head? = some slash → vfsLookup s' cwd' q ≠ .ok (some (some x)) := by
  obtain ⟨-, -, cur, hcur, hwalk⟩ := findParentVnode_eq_ok hfind
  obtain ⟨hnode, hparent⟩ := hforest.find hfind
  rcases walk_existing hwalk with ⟨hnil, -⟩ | ⟨front, p, -, -, rfl, hlookup⟩
  · exact absurd hnil hwalked
  · refine ⟨fun cwd' hcwd q hq ↦ ?_, fun x hbelow cwd' q hq ↦ ?_⟩
    · exact h.other_paths hprep hforest (fun d hd name hne ↦ h.lookup_eq hlookup hd hne)
        (.inr (h.root_eq hforest rfl)) hcwd hq
    · exact h.not_found_of_hidden hprep hforest hnode hparent.symm hbelow hq

/-- After a mount on an existing directory the target leads to the new root, the paths that do not
go through the directory lead where they did and no path from the root leads to anything below it,
exactly if the target is the root or a path whose last component is looked up, and the directory is
the only visible vnode with the name. -/
theorem mount_shadows_iff {s s' : State} (hreach : Reachable (· = start) (CallStep anyCall Act.run) s)
    {cwd node : ℕ} {target comp : Name} {parent : Option ℕ} {fs : FsType} {flags : UInt32} {m : Allocs}
    {contents : List Entry} (hfind : findParentVnode s true cwd target = .ok (.existing node parent comp))
    (hmount : vfsMount s cwd target fs flags m contents = .ok (true, s')) :
    (vfsLookup s' cwd target = .ok (some (newRoot s')) ∧
      (∀ cwd' < s.size, ∀ q, ¬GoesThrough s cwd' q node → vfsLookup s' cwd' q = vfsLookup s cwd' q) ∧
      ∀ x, Below s node x → ∀ cwd' q, q.head? = some slash → vfsLookup s' cwd' q ≠ .ok (some (some x))) ↔
    target = [slash] ∨ (walked target ≠ [] ∧ ∀ p, parent = some p → ∀ c ∈ (s.vnodes p).children,
      s.isChild comp c = true → c = node) := by
  have hforest := isForest_of_reachable hreach
  obtain ⟨hnode, hparent⟩ := hforest.find hfind
  rcases vfsMount_eq_ok hmount with ⟨hfalse, -⟩ | ⟨s₁, parent', comp', -, -, -, hprep, hset⟩
  · cases hfalse
  · have hafter := hprep.after hforest hset
    rw [hafter.newRoot_eq]
    cases hprep with
    | root htarget =>
      subst htarget
      exact iff_of_true (hafter.shadows_root hforest hfind) (.inl rfl)
    | node htarget hfind' hdir =>
      obtain ⟨rfl, rfl, rfl⟩ := Found.existing.inj (Except.ok.inj (hfind.symm.trans hfind'))
      have hprep : Prepared s cwd target fs flags _ parent comp := .node htarget hfind hdir
      have hiff := hafter.target_found_iff hprep hforest hfind
      refine ⟨fun h ↦ .inr (hiff.1 h.1), fun h ↦ ?_⟩
      have hshadows := h.resolve_left htarget
      exact ⟨hiff.2 hshadows, hafter.shadows_node hprep hforest hfind hshadows.1⟩

/-- The state after a mount in a state that has been found by a run. -/
theorem exists_mount {s : State} {cwd : ℕ} {target : Name} {fs : FsType} {flags : UInt32} {m : Allocs}
    {contents : List Entry} {Q : State → Prop} [DecidablePred Q]
    (h : ((vfsMount s cwd target fs flags m contents).toOption.any fun r ↦ r.1 && decide (Q r.2)) = true) :
    ∃ s', vfsMount s cwd target fs flags m contents = .ok (true, s') ∧ Q s' := by
  obtain ⟨⟨r, s'⟩, hmount, hr⟩ := exists_of_any_toOption h
  obtain ⟨rfl, hQ⟩ := Bool.and_eq_true_iff.1 hr
  exact ⟨s', hmount, of_decide_eq_true hQ⟩

/-- A mount on a directory with a file. -/
theorem mount_shadows_iff_dir : ∃ s s' : State, Reachable (· = start) (CallStep anyCall Act.run) s ∧
    findParentVnode s true 0 [slash, 97] = .ok (.existing 1 (some 0) [97]) ∧
    vfsMount s 0 [slash, 97] .tmpfs 0 .all [] = .ok (true, s') ∧
    vfsLookup s' 0 [slash, 97] = .ok (some (newRoot s')) ∧
    ∀ x, Below s 1 x → ∀ cwd' q, q.head? = some slash → vfsLookup s' cwd' q ≠ .ok (some (some x)) := by
  obtain ⟨s, hreach, hfind, hmount, hall⟩ :=
    Reachable.exists_calls anyCall Act.run start
    [.vfsMkdir 0 [slash, 97] .all, .vfsCreate 0 [slash, 97, slash, 98] .file .all]
    (fun s ↦ findParentVnode s true 0 [slash, 97] = .ok (.existing 1 (some 0) [97]) ∧
      ((vfsMount s 0 [slash, 97] .tmpfs 0 .all []).toOption.any fun r ↦ r.1 && decide True) = true ∧
      ∀ c ∈ (s.vnodes 0).children, s.isChild [97] c = true → c = 1) (by decide +kernel)
  obtain ⟨s', hmount, -⟩ := exists_mount (Q := fun _ ↦ True) hmount
  have hunique : ∀ p, some 0 = some p → ∀ c ∈ (s.vnodes p).children, s.isChild [97] c = true →
    c = 1 := by
    intro p hp
    exact some.inj hp ▸ hall
  obtain ⟨hlookup, -, hbelow⟩ := (mount_shadows_iff hreach hfind hmount).2
    (.inr ⟨by decide +kernel, hunique⟩)
  exact ⟨s, s', hreach, hfind, hmount, hlookup, hbelow⟩

/-- A mount on the current directory does not shadow it. -/
theorem mount_on_dot : ∃ s s' : State, Reachable (· = start) (CallStep anyCall Act.run) s ∧
    (s.vnodes 1).type = .dir ∧ findParentVnode s true 1 dot = .ok (.existing 1 (some 0) dot) ∧
    vfsMount s 1 dot .tmpfs 0 .all [] = .ok (true, s') ∧ vfsLookup s' 1 dot ≠ .ok (some (newRoot s')) := by
  obtain ⟨s, hreach, hdir, hfind, hmount⟩ :=
    Reachable.exists_calls anyCall Act.run start
    [.vfsMkdir 0 [slash, 97] .all]
    (fun s ↦ (s.vnodes 1).type = .dir ∧ findParentVnode s true 1 dot = .ok
      (.existing 1 (some 0) dot) ∧
      ((vfsMount s 1 dot .tmpfs 0 .all []).toOption.any
        fun r ↦ r.1 && decide (vfsLookup r.2 1 dot ≠ .ok (some (newRoot r.2)))) = true)
          (by decide +kernel)
  obtain ⟨s', hmount, hlookup⟩ := exists_mount
    (Q := fun s' ↦ vfsLookup s' 1 dot ≠ .ok (some (newRoot s'))) hmount
  exact ⟨s, s', hreach, hdir, hfind, hmount, hlookup⟩

end CapstoneKernel.Vfs
