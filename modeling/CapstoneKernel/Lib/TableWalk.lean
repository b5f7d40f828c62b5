import CapstoneKernel.Lib.RadixTable

/-!
# Radix tables in memory

Tables with `top + 1` levels that are stored in pages, each named by a frame.  An entry may lead to
a page of the next level.  The walk along the digits of a key visits one page a level; the pages
form a tree when a page is visited at one depth only, by keys that agree on the digits up to there.
In a tree an update of one entry is seen by the keys below that entry and by no others.
-/

namespace CapstoneKernel.TableWalk

open RadixTable Function Option

variable {f g : Frame} {depth key : ℕ}

variable {Frame Entry : Type}
variable {key' depth' : ℕ} {x : Frame}

section Definitions

variable (fan : ℕ) (child : Entry → Option Frame) (top : ℕ)

/-- The page that the walk along `key` visits at a depth. -/
def walk (m : Frame → ℕ → Entry) (root : Frame) (key : ℕ) : ℕ → Option Frame
  | 0 => some root
  | depth + 1 => (walk m root key depth).bind fun f ↦ child (m f (digit fan key (top - depth)))

/-- The walks along two keys take the same first `depth` steps. -/
def SharesPath (depth key key' : ℕ) : Prop :=
  ∀ k < depth, digit fan key (top - k) = digit fan key' (top - k)

/-- A page is visited at one depth only, and only by keys with a common path. -/
def IsTree (m : Frame → ℕ → Entry) (root : Frame) : Prop :=
  ∀ d d', d ≤ top → d' ≤ top → ∀ key key' f, walk fan child top m root key d = some f →
    walk fan child top m root key' d' = some f → d = d' ∧ SharesPath fan top d key key'

/-- The page belongs to the tables of `root`. -/
def Visited (m : Frame → ℕ → Entry) (root f : Frame) : Prop :=
  ∃ d ≤ top, ∃ key, walk fan child top m root key d = some f

end Definitions

variable {fan : ℕ} {child : Entry → Option Frame} {top : ℕ} {m m' : Frame → ℕ → Entry}
  {root f g : Frame}

namespace SharesPath

theorem zero : SharesPath fan top 0 key key' := fun _ hk ↦ absurd hk (Nat.not_lt_zero _)

section

variable (h : SharesPath fan top depth key key')
include h

theorem symm :
    SharesPath fan top depth key' key := fun k hk ↦ (h k hk).symm

theorem trans {key'' : ℕ} (h' : SharesPath fan top depth key' key'') :
    SharesPath fan top depth key key'' :=
  fun k hk ↦ (h k hk).trans (h' k hk)

theorem mono (hle : depth' ≤ depth) :
    SharesPath fan top depth' key key' := fun k hk ↦ h k (hk.trans_le hle)

theorem succ (hdigit : digit fan key (top - depth) = digit fan key' (top - depth)) :
    SharesPath fan top (depth + 1) key key' := by
  intro k hk
  rcases Nat.lt_succ_iff_lt_or_eq.1 hk with hk | rfl
  · exact h k hk
  · exact hdigit

end

theorem eq (h : SharesPath fan top (top + 1) key key') (hkey : key < fan ^ (top + 1))
    (hkey' : key' < fan ^ (top + 1)) : key = key' := by
  have hsame (level : ℕ) (hlevel : level ≤ top) : SamePath fan level key key' := by
    induction level with
    | zero => exact samePath_zero.2 (by simpa using h top (Nat.lt_succ_self top))
    | succ level ih =>
      refine samePath_succ.2 ⟨?_, ih (by omega)⟩
      have hdigit := h (top - (level + 1)) (by omega)
      rwa [show top - (top - (level + 1)) = level + 1 by omega] at hdigit
  exact (samePath_of_lt hkey hkey').1 (hsame top le_rfl)

end SharesPath

/-! ## Walks -/

theorem walk_congr (h : SharesPath fan top depth key key') :
    walk fan child top m root key depth = walk fan child top m root key' depth := by
  induction depth with
  | zero => rfl
  | succ depth ih =>
    rw [walk, walk, ih (h.mono (Nat.le_succ depth)), h depth (Nat.lt_succ_self depth)]

/-- A walk depends on where the entries on it lead. -/
theorem walk_of_child (h : ∀ k < depth, ∀ f, walk fan child top m root key k = some f →
      child (m' f (digit fan key (top - k))) = child (m f (digit fan key (top - k)))) :
    walk fan child top m' root key depth = walk fan child top m root key depth := by
  induction depth with
  | zero => rfl
  | succ depth ih =>
    rw [walk, walk, ih fun k hk ↦ h k (hk.trans (Nat.lt_succ_self depth))]
    cases hf : walk fan child top m root key depth with
    | none => rfl
    | some f => exact h depth (Nat.lt_succ_self depth) f hf

/-- Pages that are not visited do not matter. -/
theorem walk_of_agree (h : ∀ f, Visited fan child top m root f → m' f = m f) (hd : depth ≤ top)
    (key : ℕ) :
    walk fan child top m' root key depth = walk fan child top m root key depth :=
  walk_of_child fun k hk f hf ↦ by rw [h f ⟨k, hk.le.trans hd, key, hf⟩]

theorem IsTree.of_walk_eq (h : IsTree fan child top m root)
    (hwalk : ∀ depth ≤ top, ∀ key, walk fan child top m' root key depth =
      walk fan child top m root key depth) :
    IsTree fan child top m' root := by
  intro d d' hd hd' key key' f hf hf'
  rw [hwalk d hd] at hf
  rw [hwalk d' hd'] at hf'
  exact h d d' hd hd' key key' f hf hf'

theorem walk_eq_none_of_le (h : walk fan child top m root key depth = none) (hle : depth ≤ depth') :
    walk fan child top m root key depth' = none := by
  induction hle with
  | refl => exact h
  | step _ ih => rw [walk, ih, bind_none]

/-! ## The table as a value -/

section Contents

variable {Value : Type} (kind : Kind Value) (child) (decode : Entry → Value) (m)

/-- The table of a level that is stored in a page. -/
def contents : (level : ℕ) → Frame → Table Value level
  | 0, f => .leaf fun i ↦ decode (m f i)
  | level + 1, f => .node fun i ↦
      match child (m f i) with
      | none => .entry (decode (m f i))
      | some g => .table (contents level g)

variable {child m}

/-- The value looked up is the one in the last page of the walk. -/
theorem lookup_contents (key : ℕ) :
    lookup fan kind top (contents child m decode top root) key =
      (walk fan child top m root key top).bind fun f ↦
        if kind.valid (decode (m f (digit fan key 0))) then some
          (decode (m f (digit fan key 0))) else none := by
  -- From the page at each depth on, with the induction on the levels below it.
  have hfrom (level : ℕ) (hlevel : level ≤ top) (f : Frame)
      (hf : walk fan child top m root key (top - level) = some f) :
      lookup fan kind level (contents child m decode level f) key =
        (walk fan child top m root key top).bind fun f ↦
          if kind.valid (decode (m f (digit fan key 0))) then some (decode (m f (digit fan key 0)))
          else none := by
    induction level generalizing f with
    | zero =>
      rw [Nat.sub_zero] at hf
      rw [hf]
      rfl
    | succ level ih =>
      have hnext : walk fan child top m root key (top - level) =
          child (m f (digit fan key (level + 1))) := by
        rw [show top - level = top - (level + 1) + 1 by omega, walk, hf, bind_some,
          show top - (top - (level + 1)) = level + 1 by omega]
      rw [contents, lookup]
      cases hchild : child (m f (digit fan key (level + 1))) with
      | none =>
        rw [walk_eq_none_of_le (hnext.trans hchild) (Nat.sub_le top level)]
        rfl
      | some g => exact ih (by omega) g (hnext.trans hchild)
  exact hfrom top le_rfl root (by rw [Nat.sub_self]; rfl)

end Contents

/-! ## Writing an entry -/

variable [DecidableEq Frame]

/-- One entry of a page is replaced. -/
def write (m : Frame → ℕ → Entry) (f : Frame) (i : ℕ) (e : Entry) : Frame → ℕ → Entry :=
  update m f (update (m f) i e)

/-- All entries of a page are replaced by one. -/
def clear (m : Frame → ℕ → Entry) (f : Frame) (blank : Entry) : Frame → ℕ → Entry :=
  update m f fun _ ↦ blank

@[simp] theorem write_self (m : Frame → ℕ → Entry) (f : Frame) (i : ℕ) (e : Entry) :
    write m f i e f i = e := by simp [write]

theorem write_of_ne (m : Frame → ℕ → Entry) {i j : ℕ} (e : Entry) (h : g ≠ f ∨ j ≠ i) :
    write m f i e g j = m g j := by
  unfold write
  by_cases hg : g = f
  · subst hg
    rw [update_self, update_of_ne (h.resolve_left (· rfl))]
  · rw [update_of_ne hg]

@[simp] theorem write_write (m : Frame → ℕ → Entry) (f : Frame) (i : ℕ) (e e' : Entry) :
    write (write m f i e) f i e' = write m f i e' := by simp [write]

theorem clear_of_ne (m : Frame → ℕ → Entry) (blank : Entry) (h : g ≠ f) :
    clear m f blank g = m g := update_of_ne h _ _

section

variable (h : IsTree fan child top m root)
include h

theorem walk_write (hd : depth ≤ top) (hf : walk fan child top m root key depth = some f)
    (e : Entry) (hd' : depth' ≤ top)
    (haway : depth' ≤ depth ∨ ¬ SharesPath fan top (depth + 1) key key') :
    walk fan child top (write m f (digit fan key (top - depth)) e) root key' depth' =
      walk fan child top m root key' depth' := by
  refine walk_of_child fun k hk g hg ↦ ?_
  rw [write_of_ne]
  -- The entry is on this walk only if both walks agree one step further.
  by_contra hsame
  push Not at hsame
  obtain ⟨rfl, hdigit⟩ := hsame
  obtain ⟨rfl, hshare⟩ := h depth k hd (by omega) key key' g hf hg
  rcases haway with hle | hnot
  · omega
  · exact hnot (hshare.succ hdigit.symm)

theorem walk_write_self (hd : depth ≤ top) (hf : walk fan child top m root key depth = some f)
    (e : Entry) (hshare : SharesPath fan top (depth + 1) key key') :
    walk fan child top (write m f (digit fan key (top - depth)) e) root key' (depth + 1) =
      child e := by
  rw [walk, walk_write h hd hf e hd (.inl le_rfl), ← walk_congr (hshare.mono (Nat.le_succ depth)),
    hf,
    bind_some, ← hshare depth (Nat.lt_succ_self depth), write_self]

/-! ## Writing entries of the last level -/

theorem IsTree.writeLeaf (hf : walk fan child top m root key top = some f) (e : Entry)
    (hd : depth ≤ top) (key' : ℕ) :
    walk fan child top (write m f (digit fan key 0) e) root key' depth =
      walk fan child top m root key' depth := by
  have hwalk : walk fan child top (write m f (digit fan key (top - top)) e) root key' depth =
      walk fan child top m root key' depth := walk_write h le_rfl hf e hd (.inl hd)
  rwa [Nat.sub_self] at hwalk

end

/-! ## New tables -/

/-- A cleared page is put below the entry of `key` at `depth`. -/
def install (fan top : ℕ) (m : Frame → ℕ → Entry) (f g : Frame) (key depth : ℕ) (e blank : Entry) :
    Frame → ℕ → Entry :=
  write (clear m g blank) f (digit fan key (top - depth)) e

section Install

variable {key depth : ℕ} {e blank : Entry}

theorem install_of_ne (hf : x ≠ f) (hg : x ≠ g) :
    install fan top m f g key depth e blank x = m x := by
  funext i
  rw [install, write_of_ne _ _ (.inl hf), clear_of_ne _ _ hg]

theorem walk_clear (hg : ¬ Visited fan child top m root g) (hd' : depth' ≤ top) (key' : ℕ) :
    walk fan child top (clear m g blank) root key' depth' =
      walk fan child top m root key' depth' := by
  refine walk_of_agree (fun x hx ↦ clear_of_ne m blank ?_) hd' key'
  rintro rfl
  exact hg hx

/-- The page `g` is fresh and `e` leads to it, and nothing is below the entry `blank`. -/
structure Install (fan : ℕ) (child : Entry → Option Frame) (top : ℕ) (m : Frame → ℕ → Entry)
    (root f g : Frame) (key depth : ℕ) (e blank : Entry) : Prop where
  tree : IsTree fan child top m root
  depth_lt : depth < top
  page : walk fan child top m root key depth = some f
  fresh : ¬ Visited fan child top m root g
  link : child e = some g
  blank_none : child blank = none

namespace Install

variable (h : Install fan child top m root f g key depth e blank)

include h

omit [DecidableEq Frame] in
theorem page_ne : g ≠ f := by
  rintro rfl
  exact h.fresh ⟨depth, h.depth_lt.le, key, h.page⟩

theorem page_clear : walk fan child top (clear m g blank) root key depth = some f :=
  (walk_clear h.fresh h.depth_lt.le key).trans h.page

theorem tree_clear : IsTree fan child top (clear m g blank) root :=
  h.tree.of_walk_eq fun _ hd' key' ↦ walk_clear h.fresh hd' key'

theorem walk_eq (hd' : depth' ≤ top)
    (haway : depth' ≤ depth ∨ ¬ SharesPath fan top (depth + 1) key key') :
    walk fan child top (install fan top m f g key depth e blank) root key' depth' =
      walk fan child top m root key' depth' := by
  rw [install, walk_write h.tree_clear h.depth_lt.le h.page_clear e hd' haway,
    walk_clear h.fresh hd']

theorem walk_self (hshare : SharesPath fan top (depth + 1) key key') :
    walk fan child top (install fan top m f g key depth e blank) root key' (depth + 1) =
      some g := by
  rw [install, walk_write_self h.tree_clear h.depth_lt.le h.page_clear e hshare, h.link]

omit h in
theorem install_new (hne : g ≠ f) (i : ℕ) : install fan top m f g key depth e blank g i = blank := by
  rw [install, write_of_ne _ _ (.inl hne), clear, update_self]

theorem walk_below (hshare : SharesPath fan top (depth + 1) key key') :
    walk fan child top (install fan top m f g key depth e blank) root key' (depth + 2 + depth') =
      none := by
  refine walk_eq_none_of_le ?_ (Nat.le_add_right _ depth')
  rw [walk, h.walk_self hshare, bind_some, install_new h.page_ne, h.blank_none]

/-- The walks after a new table: those of before, those to the new table, and those that end in
it. -/
theorem walk_cases (hd' : depth' ≤ top)
    (hx : walk fan child top (install fan top m f g key depth e blank) root key' depth' = some x) :
    walk fan child top m root key' depth' = some x ∨
      (x = g ∧ depth' = depth + 1 ∧ SharesPath fan top (depth + 1) key key') := by
  by_cases haway : depth' ≤ depth ∨ ¬ SharesPath fan top (depth + 1) key key'
  · rw [h.walk_eq hd' haway] at hx
    exact .inl hx
  · push Not at haway
    obtain ⟨hlt, hshare⟩ := haway
    rcases Nat.eq_or_lt_of_le (Nat.succ_le_of_lt hlt) with rfl | hlt
    · rw [h.walk_self hshare] at hx
      exact .inr ⟨(some.inj hx).symm, rfl, hshare⟩
    · obtain ⟨k, rfl⟩ : ∃ k, depth' = depth + 2 + k := ⟨depth' - (depth + 2), by omega⟩
      rw [h.walk_below hshare] at hx
      cases hx

theorem isTree : IsTree fan child top (install fan top m f g key depth e blank) root := by
  have hfresh {d : ℕ} (hd' : d ≤ top) {key' : ℕ}
      (hx : walk fan child top m root key' d = some g) : False := h.fresh ⟨d, hd', key', hx⟩
  intro d d' hdt hdt' k k' x hx hx'
  rcases h.walk_cases hdt hx with hold | ⟨rfl, rfl, hshare⟩
  · rcases h.walk_cases hdt' hx' with hold' | ⟨rfl, rfl, -⟩
    · exact h.tree d d' hdt hdt' k k' x hold hold'
    · exact (hfresh hdt hold).elim
  · rcases h.walk_cases hdt' hx' with hold' | ⟨-, rfl, hshare'⟩
    · exact (hfresh hdt' hold').elim
    · exact ⟨rfl, hshare.symm.trans hshare'⟩

theorem visited (hx : Visited fan child top (install fan top m f g key depth e blank) root x) :
    Visited fan child top m root x ∨ x = g := by
  obtain ⟨d, hdt, k, hwalk⟩ := hx
  exact (h.walk_cases hdt hwalk).imp (fun hold ↦ ⟨d, hdt, k, hold⟩) And.left

/-- A walk that ends goes on only to the new table. -/
theorem walk_none (hd' : depth' ≤ top) (hx : walk fan child top m root key' depth' = none)
    (haway : depth' = depth + 1 → ¬ SharesPath fan top (depth + 1) key key') :
    walk fan child top (install fan top m f g key depth e blank) root key' depth' = none := by
  refine eq_none_iff_forall_ne_some.2 fun x hnew ↦ ?_
  rcases h.walk_cases hd' hnew with hold | ⟨-, hdepth, hshare⟩
  · exact absurd (hx.symm.trans hold) nofun
  · exact haway hdepth hshare

variable (hempty : walk fan child top m root key (depth + 1) = none)

include hempty

/-- A new table where there was none leaves all walks as they are. -/
theorem walk_mono (hd' : depth' ≤ top) (hx : walk fan child top m root key' depth' = some x) :
    walk fan child top (install fan top m f g key depth e blank) root key' depth' = some x := by
  rw [h.walk_eq hd', hx]
  by_contra haway
  push Not at haway
  obtain ⟨hlt, hshare⟩ := haway
  rw [walk_congr hshare] at hempty
  exact absurd (hx.symm.trans (walk_eq_none_of_le hempty hlt)) nofun

/-- What is read from the last level stays the same where there was no table. -/
theorem read {Result : Type} (read : Entry → Option Result) (hread : read blank = none) (key' : ℕ) :
    ((walk fan child top (install fan top m f g key depth e blank) root key' top).bind fun x ↦
        read (install fan top m f g key depth e blank x (digit fan key' 0))) =
      (walk fan child top m root key' top).bind fun x ↦ read (m x (digit fan key' 0)) := by
  cases hx : walk fan child top m root key' top with
  | some x =>
    have hxf : x ≠ f := by
      rintro rfl
      exact absurd (h.tree top depth le_rfl h.depth_lt.le key' key x hx h.page).1 h.depth_lt.ne'
    have hxg : x ≠ g := fun heq ↦ h.fresh (heq ▸ ⟨top, le_rfl, key', hx⟩)
    rw [h.walk_mono hempty le_rfl hx, bind_some, bind_some, install_of_ne hxf hxg]
  | none =>
    cases hnew : walk fan child top (install fan top m f g key depth e blank) root key' top with
    | none => rfl
    | some x =>
      rcases h.walk_cases le_rfl hnew with hold | ⟨rfl, -⟩
      · exact absurd (hx.symm.trans hold) nofun
      · rw [bind_some, bind_none, install_new h.page_ne, hread]

end Install

end Install

end CapstoneKernel.TableWalk
