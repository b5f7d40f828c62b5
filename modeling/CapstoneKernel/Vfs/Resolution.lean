import CapstoneKernel.Vfs.Lookup

/-!
# Path resolution

What a path means, as a second definition: its components are followed from left to right, where
empty ones are left out, `.` stays and `..` goes to the parent.  `find_parent_vnode` treats `.` and
`..` as names after the first component, stops at an empty component, takes the empty path for the
root and has no vnode for `..` in the root.  The two agree if and only if the path avoids this, or
both happen to find no directory.
-/

namespace CapstoneKernel.Vfs

open Execution Paths List Option

variable {v d : ℕ} {tok : Name} {rest : List Name}

/-! ## The reference -/

/-- The end of a path: a vnode, a missing last component, or a component missing before it. -/
inductive Resolved
  | found (node : ℕ)
  | missing (parent : ℕ) (component : Name)
  | failed
  deriving DecidableEq

/-- One component; the parent of the root is the root. -/
def component (s : State) (d : ℕ) (name : Name) : Option ℕ :=
  if name = dot then some d
  else if name = dotDot then some ((s.vnodes d).parent.getD d)
  else s.lookup d name

def follow (s : State) : List Name → ℕ → Resolved
  | [], d => .found d
  | name :: rest, d =>
    match component s d name with
    | none => if rest = [] then .missing d name else .failed
    | some c => follow s rest c

/-- The components that count. -/
def components (toks : List Name) : List Name := toks.filter fun n ↦ decide (n ≠ [])

/-- The meaning of a path in a tree with the given root. -/
def reference (s : State) (root cwd : ℕ) (path : Name) : Resolved :=
  follow s (components (tokens path)) (if path.head? = some slash then root else cwd)

/-- What `find_parent_vnode` has found. -/
def Found.resolved : Found → Resolved
  | .noDirectory => .failed
  | .existing node _ _ => .found node
  | .missing parent component => .missing parent component

/-! ## Where they agree -/

/-- A name that is looked up is missing, and it is not the last token. -/
def MissesDirectory (s : State) (toks : List Name) (cur : ℕ) : Prop :=
  ∃ front n d, front ++ [n] <+: namesOf toks ∧ front ++ [n] ≠ toks ∧
    resolve s.lookup cur front = some d ∧ s.lookup d n = none

/-- The tokens after the first from a vnode on: what follows an empty one leads back to where it is,
`.` and `..` occur only if no directory is found either way, and no slash follows a missing last
name. -/
def PlainFrom (s : State) : List Name → ℕ → Prop
  | [], _ => True
  | tok :: rest, cur =>
    if tok = [] then follow s (components rest) cur = .found cur
    else if tok = dot ∨ tok = dotDot then
      MissesDirectory s (tok :: rest) cur ∧ follow s (components (tok :: rest)) cur = .failed
    else
      match s.lookup cur tok with
      | none => rest = [] ∨ components rest ≠ []
      | some c => PlainFrom s rest c

/-- The vnode of the first token, which `..` in the root does not have. -/
def beginning (s : State) (root cwd : ℕ) (first : Name) : Option ℕ :=
  if first = [] then some root
  else if first = dotDot then (s.vnodes cwd).parent
  else some cwd

/-- The paths with which `find_parent_vnode` agrees with the reference. -/
def PlainPath (s : State) (root cwd : ℕ) (path : Name) : Prop :=
  (path = [] → cwd = root) ∧
    ∃ cur ∈ beginning s root cwd ((tokens path).headD []), PlainFrom s (lookups (tokens path)) cur

/-- A tree whose root is mounted, and whose file systems have their operations. -/
structure MountedTree (s : State) (root : ℕ) : Prop where
  forest : IsForest s
  root_eq : s.root = .ok root
  ops : ∀ d < s.size, ∃ fs, s.ops d = .ok fs

/-! ## The loop -/

section Walk

variable {s : State} {root cur : ℕ}

/-- The first vnode is the second one or an ancestor of it. -/
def Above (s : State) : ℕ → ℕ → Prop := Relation.ReflTransGen fun d c ↦ (s.vnodes c).parent = some d

theorem IsForest.le_of_above (hforest : IsForest s) {x : ℕ} (hv : v < s.size) (h : Above s x v) :
    x ≤ v := by
  induction h with
  | refl => exact Nat.le_refl _
  | tail _ hparent ih =>
    obtain ⟨hlt, hmem⟩ := hforest.parent _ hv _ hparent
    exact (ih hlt).trans (hforest.child _ hlt _ hmem).1.le

theorem walk_above (hforest : IsForest s) {toks : List Name} {parent : Option ℕ} {comp : Name}
    {f : Found} (hcur : cur < s.size) (h : walk s toks cur parent comp = .ok f) :
    match f with
    | .noDirectory => True
    | .existing node _ _ => Above s cur node
    | .missing p _ => Above s cur p := by
  induction toks generalizing cur parent comp with
  | nil =>
    cases h
    exact .refl
  | cons tok rest ih =>
    rw [walk] at h
    split at h
    · cases h
      exact .refl
    · obtain ⟨fs, -, h⟩ := of_bind_eq_ok h
      split at h
      · split at h
        · cases h
          exact .refl
        · cases h
          trivial
      · next child hsome =>
        obtain ⟨hlt, hparent, -⟩ := hforest.lookup hcur hsome
        have habove := ih hlt h
        cases f with
        | noDirectory => trivial
        | existing | missing => exact habove.head hparent

/-- The vnodes on the way up from `v` that are in the directory `d` do not have the name `.` or
`..`. -/
def Unmarked (s : State) (d v : ℕ) : Prop :=
  ∀ x, Above s x v → (s.vnodes x).parent = some d → (s.vnodes x).name ≠ dot ∧
    (s.vnodes x).name ≠ dotDot

theorem IsForest.unmarked_self (hforest : IsForest s) (hd : d < s.size) : Unmarked s d d := by
  intro x habove hparent
  have hle := hforest.le_of_above hd habove
  obtain ⟨-, hmem⟩ := hforest.parent x (by omega) d hparent
  have hlt := (hforest.child d hd x hmem).1
  omega

/-- The reference looks up other names only. -/
theorem Unmarked.component (hforest : IsForest s) {c : ℕ} {name : Name} (h : Unmarked s d v)
    (hv : v < s.size) (hstep : component s v name = some c) : c < s.size ∧ Unmarked s d c := by
  unfold Vfs.component at hstep
  split at hstep
  · exact some.inj hstep ▸ ⟨hv, h⟩
  · next hdot =>
    split at hstep
    · cases hstep
      cases hparent : (s.vnodes v).parent with
      | none => exact ⟨hv, h⟩
      | some p =>
        exact ⟨(hforest.parent v hv p hparent).1, fun x habove ↦ h x (habove.tail hparent)⟩
    · next hdotDot =>
      obtain ⟨hlt, hparent, hname⟩ := hforest.lookup hv hstep
      refine ⟨hlt, fun x habove hx ↦ ?_⟩
      rcases Relation.ReflTransGen.cases_tail habove with rfl | ⟨b, hb, hcb⟩
      · exact hname ▸ ⟨hdot, hdotDot⟩
      · obtain rfl := mem_unique hparent hcb
        exact h x hb hx

theorem Unmarked.follow (hforest : IsForest s) (h : Unmarked s d v) (names : List Name)
    (hv : v < s.size) :
    match follow s names v with
    | .found node => Unmarked s d node
    | .missing p name => Unmarked s d p ∧ name ≠ dot ∧ name ≠ dotDot
    | .failed => True := by
  induction names generalizing v with
  | nil => exact h
  | cons name rest ih =>
    rw [Vfs.follow]
    cases hstep : Vfs.component s v name with
    | some c =>
      obtain ⟨hc, hunmarked⟩ := h.component hforest hv hstep
      exact ih hunmarked hc
    | none =>
      unfold Vfs.component at hstep
      split at hstep
      · cases hstep
      · next hdot =>
        split at hstep
        · cases hstep
        · next hdotDot =>
          by_cases hrest : rest = []
          · rw [if_pos hrest]
            exact ⟨h, hdot, hdotDot⟩
          · rw [if_neg hrest]
            trivial

theorem not_missesDirectory_of_namesOf {toks : List Name} (h : namesOf toks = []) :
    ¬ MissesDirectory s toks cur := by
  rintro ⟨front, n, d, hprefix, -⟩
  rw [h, prefix_nil] at hprefix
  exact append_ne_nil_of_right_ne_nil front (cons_ne_nil n []) hprefix

theorem missesDirectory_cons (htok : tok ≠ []) :
    MissesDirectory s (tok :: rest) cur ↔
      match s.lookup cur tok with
      | none => rest ≠ []
      | some c => MissesDirectory s rest c := by
  constructor
  · rintro ⟨front, n, d, hprefix, hne, hfront, hnone⟩
    rw [namesOf_cons htok] at hprefix
    cases front with
    | nil =>
      obtain ⟨rfl, -⟩ := cons_prefix_cons.1 hprefix
      cases hfront
      rw [hnone]
      rintro rfl
      exact hne rfl
    | cons name front =>
      obtain ⟨rfl, hrest⟩ := cons_prefix_cons.1 hprefix
      obtain ⟨c, hc, hd⟩ := bind_eq_some_iff.1 hfront
      rw [hc]
      exact ⟨front, n, d, hrest, fun heq ↦ hne (congrArg _ heq), hd, hnone⟩
  · intro h
    cases hlookup : s.lookup cur tok with
    | none =>
      rw [hlookup] at h
      refine ⟨[], tok, cur, ?_, fun heq ↦ h (List.cons.inj heq).2.symm, rfl, hlookup⟩
      rw [namesOf_cons htok]
      exact prefix_append [tok] _
    | some c =>
      rw [hlookup] at h
      obtain ⟨front, n, d, hprefix, hne, hfront, hnone⟩ := h
      refine ⟨tok :: front, n, d, ?_, fun heq ↦ hne (List.cons.inj heq).2,
        bind_eq_some_iff.2 ⟨c, hlookup, hfront⟩, hnone⟩
      rw [namesOf_cons htok]
      exact cons_prefix_cons.2 ⟨rfl, hprefix⟩

section Tree

variable (htree : MountedTree s root) {toks : List Name} {parent : Option ℕ} {comp : Name}

include htree

section

variable (hcur : cur < s.size)
include hcur

theorem MountedTree.walk_cons (htok : tok ≠ []) : walk s (tok :: rest) cur parent comp =
      match s.lookup cur tok with
      | none => .ok (if rest = [] then .missing cur tok else .noDirectory)
      | some child => walk s rest child (some cur) tok := by
  obtain ⟨fs, hfs⟩ := htree.ops cur hcur
  rw [walk, if_neg htok, hfs, ok_bind]
  cases s.lookup cur tok with
  | none => exact (apply_ite Except.ok _ _ _).symm
  | some child => rfl

theorem MountedTree.walk_ok (toks : List Name) (parent : Option ℕ) (comp : Name) :
    ∃ f, walk s toks cur parent comp = .ok f := by
  induction toks generalizing cur parent comp with
  | nil => exact ⟨_, rfl⟩
  | cons tok rest ih =>
    by_cases htok : tok = []
    · exact ⟨_, by rw [walk, if_pos htok]⟩
    · rw [htree.walk_cons hcur htok]
      cases hlookup : s.lookup cur tok with
      | none => exact ⟨_, rfl⟩
      | some child => exact ih (htree.forest.lookup hcur hlookup).1 _ _

/-- The loop finds no directory if and only if a name is missing before the last token. -/
theorem MountedTree.walk_noDirectory_iff (toks : List Name) (parent : Option ℕ) (comp : Name) :
    walk s toks cur parent comp = .ok .noDirectory ↔ MissesDirectory s toks cur := by
  induction toks generalizing cur parent comp with
  | nil =>
    refine iff_of_false (fun h ↦ ?_) (not_missesDirectory_of_namesOf rfl)
    cases h
  | cons tok rest ih =>
    by_cases htok : tok = []
    · subst htok
      refine iff_of_false (fun h ↦ ?_) (not_missesDirectory_of_namesOf rfl)
      cases h
    · rw [htree.walk_cons hcur htok, missesDirectory_cons htok]
      cases hlookup : s.lookup cur tok with
      | none =>
        by_cases hrest : rest = []
        · simp [hrest]
        · simp [hrest]
      | some child => exact ih (htree.forest.lookup hcur hlookup).1 _ _

/-- With `.` or `..` as a name, the loop and the reference agree only if both find no directory. -/
theorem MountedTree.walk_special (htok : tok = dot ∨ tok = dotDot) {f : Found}
    (hwalk : walk s (tok :: rest) cur parent comp = .ok f)
    (h : f.resolved = follow s (components (tok :: rest)) cur) : f = .noDirectory := by
  have hne : tok ≠ [] := by rcases htok with rfl | rfl <;> exact cons_ne_nil _ _
  have hself :=
    (htree.forest.unmarked_self hcur).follow htree.forest (components (tok :: rest)) hcur
  rw [← h] at hself
  rw [htree.walk_cons hcur hne] at hwalk
  cases hlookup : s.lookup cur tok with
  | none =>
    rw [hlookup] at hwalk
    cases hwalk
    by_cases hrest : rest = []
    · rw [if_pos hrest] at hself
      exact absurd htok (not_or.2 hself.2)
    · rw [if_neg hrest]
  | some c =>
    rw [hlookup] at hwalk
    obtain ⟨hlt, hparent, hname⟩ := htree.forest.lookup hcur hlookup
    -- the vnode with that name is above everything that the loop gets to
    have hmarked {v : ℕ} (habove : Above s c v) : ¬ Unmarked s cur v := fun hunmarked ↦
      absurd htok (hname ▸ not_or.2 (hunmarked c habove hparent))
    have habove := walk_above htree.forest hlt hwalk
    cases f with
    | noDirectory => rfl
    | existing => exact absurd hself (hmarked habove)
    | missing => exact absurd hself.1 (hmarked habove)

omit htree hcur in
theorem components_cons (htok : tok ≠ []) :
    components (tok :: rest) = tok :: components rest := by simp [components, htok]

/-- The loop agrees with the reference if and only if the tokens are plain. -/
theorem MountedTree.walk_resolved_iff :
    (walk s toks cur parent comp).map Found.resolved = .ok (follow s (components toks) cur) ↔
      PlainFrom s toks cur := by
  induction toks generalizing cur parent comp with
  | nil => exact iff_of_true rfl trivial
  | cons tok rest ih =>
    by_cases htok : tok = []
    · subst htok
      rw [PlainFrom, if_pos rfl]
      exact ⟨fun h ↦ (Except.ok.inj h).symm, fun h ↦ congrArg _ h.symm⟩
    rw [PlainFrom, if_neg htok]
    by_cases hspecial : tok = dot ∨ tok = dotDot
    · rw [if_pos hspecial, ← htree.walk_noDirectory_iff hcur (tok :: rest) parent comp]
      obtain ⟨f, hf⟩ := htree.walk_ok hcur (tok :: rest) parent comp
      rw [hf]
      constructor
      · intro h
        obtain rfl := htree.walk_special hcur hspecial hf (Except.ok.inj h)
        exact ⟨rfl, (Except.ok.inj h).symm⟩
      · rintro ⟨h, hfailed⟩
        cases h
        exact congrArg _ hfailed.symm
    · obtain ⟨hdot, hdotDot⟩ := not_or.1 hspecial
      rw [if_neg hspecial, htree.walk_cons hcur htok, components_cons htok, follow, component,
        if_neg hdot, if_neg hdotDot]
      cases hlookup : s.lookup cur tok with
      | none =>
        by_cases hrest : rest = []
        · subst hrest
          exact iff_of_true rfl (.inl rfl)
        · by_cases hcomponents : components rest = []
          · simp [hrest, hcomponents, Except.map, Found.resolved]
          · simp [hrest, hcomponents, Except.map, Found.resolved]
      | some child => exact ih (htree.forest.lookup hcur hlookup).1

end

end Tree

end Walk

/-! ## Paths -/

section Paths

variable {s : State} {root cwd cur : ℕ} {path : Name}

theorem tokens_ne_nil (path : Name) : tokens path ≠ [] := splitOnP_ne_nil (· == slash) path

/-- The first token is empty if there is nothing before the first slash. -/
theorem head_tokens_eq_nil_iff (path : Name) :
    (tokens path).headD [] = [] ↔ path = [] ∨ path.head? = some slash := by
  cases path with
  | nil => exact iff_of_true rfl (.inl rfl)
  | cons c rest =>
    by_cases hc : c = slash
    · subst hc
      rw [tokens_slash]
      exact iff_of_true rfl (.inr rfl)
    · rw [tokens, List.splitOn, splitOnP_cons_eq_if_modifyHead, if_neg (by simpa using hc)]
      obtain ⟨first, more, hsplit⟩ :=
        exists_cons_of_ne_nil (splitOnP_ne_nil (· == slash) rest)
      simp [hsplit, hc]

theorem MountedTree.startOf_eq (htree : MountedTree s root) (hcwd : cwd < s.size) (first : Name) :
    startOf s cwd first =
      match beginning s root cwd first with
      | none => .error .nullPointer
      | some cur => .ok cur := by
  by_cases hfirst : first = []
  · rw [startOf, if_pos hfirst, beginning, if_pos hfirst]
    exact htree.root_eq
  · rw [startOf, if_neg hfirst, if_pos hcwd, beginning, if_neg hfirst]
    split
    · cases (s.vnodes cwd).parent <;> rfl
    · rfl

theorem MountedTree.beginning_lt (htree : MountedTree s root) (hcwd : cwd < s.size) {first : Name}
    (h : cur ∈ beginning s root cwd first) : cur < s.size := by
  have hstart := htree.startOf_eq hcwd first
  rw [Option.mem_def.1 h] at hstart
  exact htree.forest.startOf hstart

/-- The reference after the first token. -/
theorem reference_eq (h : cur ∈ beginning s root cwd ((tokens path).headD []))
    (hempty : path = [] → cwd = root) :
    reference s root cwd path = follow s (components (lookups (tokens path))) cur := by
  have hhead := head_tokens_eq_nil_iff path
  rw [reference]
  obtain ⟨first, rest, htokens⟩ := exists_cons_of_ne_nil (tokens_ne_nil path)
  rw [htokens, headD_cons] at h hhead
  rw [htokens, lookups]
  unfold beginning at h
  split at h
  · next hfirst =>
    cases h
    have hstart : (if path.head? = some slash then root else cwd) = root := by
      rcases hhead.1 hfirst with hnil | habs
      · rw [hempty hnil, ite_self]
      · rw [if_pos habs]
    subst hfirst
    rw [hstart]
    rfl
  · next hfirst =>
    have hrelative : path.head? ≠ some slash := fun habs ↦ hfirst (hhead.2 (.inr habs))
    rw [if_neg hrelative]
    split at h
    · next hdotDot =>
      subst hdotDot
      rw [if_pos (.inr (.inl rfl)), components_cons hfirst, follow, component,
        if_neg (by decide), if_pos rfl, Option.mem_def.1 h]
      rfl
    · next hdotDot =>
      cases h
      by_cases hdot : first = dot
      · subst hdot
        rw [if_pos (.inr (.inr rfl)), components_cons hfirst, follow, component, if_pos rfl]
      · rw [if_neg (by simp [hfirst, hdotDot, hdot])]

theorem MountedTree.resolved_iff (htree : MountedTree s root) (hcwd : cwd < s.size)
    (hlength : path.length < strLen) :
    (findParentVnode s true cwd path).map Found.resolved = .ok (reference s root cwd path) ↔
      PlainPath s root cwd path := by
  rw [findParentVnode_true, if_pos hlength, htree.startOf_eq hcwd, PlainPath]
  cases hbegin : beginning s root cwd ((tokens path).headD []) with
  | none => exact iff_of_false nofun (by simp)
  | some cur =>
    have hcur := htree.beginning_lt hcwd (Option.mem_def.2 hbegin)
    rw [ok_bind]
    by_cases hempty : path = [] → cwd = root
    · rw [reference_eq hbegin hempty, htree.walk_resolved_iff hcur]
      exact ⟨fun h ↦ ⟨hempty, cur, rfl, h⟩, fun ⟨_, _, hcur, h⟩ ↦ some.inj hcur ▸ h⟩
    · obtain ⟨rfl, hne⟩ := Classical.not_imp.1 hempty
      obtain rfl : root = cur := some.inj hbegin
      refine iff_of_false (fun h ↦ ?_) fun h ↦ hne (h.1 rfl)
      exact hne (Resolved.found.inj (Except.ok.inj h)).symm

/-- `find_parent_vnode` agrees with the reference if and only if the path is plain. -/
theorem path_resolution_iff (htree : MountedTree s root) (hcwd : cwd < s.size)
    (hlength : path.length < strLen) :
    (findParentVnode s true cwd path).map Found.resolved = .ok (reference s root cwd path) ↔
      PlainPath s root cwd path :=
  htree.resolved_iff hcwd hlength

/-- A name of an entry of a directory. -/
def IsEntryName (tok : Name) : Prop := tok ≠ [] ∧ tok ≠ dot ∧ tok ≠ dotDot

theorem plainFrom_of_names {toks : List Name} (h : ∀ tok ∈ toks, IsEntryName tok) (cur : ℕ) :
    PlainFrom s toks cur := by
  induction toks generalizing cur with
  | nil => trivial
  | cons tok rest ih =>
    obtain ⟨⟨hne, hdot, hdotDot⟩, hrest⟩ := forall_mem_cons.1 h
    rw [PlainFrom, if_neg hne, if_neg (not_or.2 ⟨hdot, hdotDot⟩)]
    cases s.lookup cur tok with
    | none =>
      cases rest with
      | nil => exact .inl rfl
      | cons next rest =>
        right
        rw [components_cons (hrest next mem_cons_self).1]
        exact cons_ne_nil _ _
    | some c => exact ih hrest c

/-- It agrees with the reference on every path without empty components, `.` and `..` after the
first component, unless the path is empty or starts with `..` in a directory without a parent. -/
theorem path_resolution_of_names (htree : MountedTree s root) (hcwd : cwd < s.size)
    (hlength : path.length < strLen) (hne : path ≠ [])
    (hparent : (tokens path).headD [] = dotDot → (s.vnodes cwd).parent ≠ none)
    (hnames : ∀ tok ∈ (tokens path).tail, IsEntryName tok) :
    (findParentVnode s true cwd path).map Found.resolved = .ok (reference s root cwd path) := by
  refine (htree.resolved_iff hcwd hlength).2 ⟨fun hempty ↦ absurd hempty hne, ?_⟩
  obtain ⟨cur, hcur⟩ : ∃ cur, beginning s root cwd ((tokens path).headD []) = some cur := by
    unfold beginning
    split
    · exact ⟨root, rfl⟩
    · split
      · next hfirst => exact ne_none_iff_exists'.1 (hparent hfirst)
      · exact ⟨cwd, rfl⟩
  refine ⟨cur, hcur, plainFrom_of_names ?_ cur⟩
  cases htoks : tokens path with
  | nil => exact fun tok htok ↦ absurd htok not_mem_nil
  | cons first rest =>
    rw [htoks] at hnames
    rw [lookups]
    split
    · exact hnames
    · next hfirst =>
      obtain ⟨hempty, hdotDot, hdot⟩ := not_or.1 hfirst |>.imp_right not_or.1
      exact forall_mem_cons.2 ⟨⟨hempty, hdot, hdotDot⟩, hnames⟩

end Paths

/-! ## Examples -/

/-- The directory `/a` with the directory `b`. -/
def nestedTree : State := (start.addChild 0 .dir [97]).addChild 1 .dir [98]

theorem nestedTree_mounted : MountedTree nestedTree 0 where
  forest := (isForest_start.addChild (by decide) .dir [97]).addChild (by decide) .dir [98]
  root_eq := rfl
  ops
    | 0, _ => ⟨.tmpfs, rfl⟩
    | 1, _ => ⟨.tmpfs, rfl⟩
    | 2, _ => ⟨.tmpfs, rfl⟩

/-- The path `a/b` from the root. -/
theorem path_resolution_iff_nested :
    MountedTree nestedTree 0 ∧
      ((findParentVnode nestedTree true 0 [97, slash, 98]).map Found.resolved =
        .ok (reference nestedTree 0 0 [97, slash, 98]) ↔
      PlainPath nestedTree 0 0 [97, slash, 98]) ∧ PlainPath nestedTree 0 0 [97, slash, 98] :=
  ⟨nestedTree_mounted, path_resolution_iff nestedTree_mounted (by decide) (by decide),
    nofun, 0, rfl, trivial⟩

/-- From the root of that tree: `..` has no vnode, `a/..` is a missing name in `a`, `a//b` is `a`,
and the missing directory of `c/` cannot be created. -/
theorem resolution_diverges :
    findParentVnode nestedTree true 0 dotDot = .error .nullPointer ∧
    (findParentVnode nestedTree true 0 ([97, slash] ++ dotDot) = .ok (.missing 1 dotDot) ∧
      reference nestedTree 0 0 ([97, slash] ++ dotDot) = .found 0) ∧
    (findParentVnode nestedTree true 0 [97, slash, slash, 98] = .ok (.existing 1 (some 0) [97]) ∧
      reference nestedTree 0 0 [97, slash, slash, 98] = .found 2) ∧
    (findParentVnode nestedTree true 0 [99, slash] = .ok .noDirectory ∧
      reference nestedTree 0 0 [99, slash] = .missing 0 [99]) :=
  ⟨rfl, ⟨rfl, rfl⟩, ⟨rfl, rfl⟩, rfl, rfl⟩

end CapstoneKernel.Vfs
