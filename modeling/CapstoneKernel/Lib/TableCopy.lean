import CapstoneKernel.Lib.TableWalk

/-!
# Copies of radix tables in memory

A tree of tables is copied entry by entry.  An entry that leads to a table gets a copy of this table
in a fresh page; any other entry is changed in place and copied as it then is.  The result of a part
of the work is stated for the keys whose first digit is in a set, so that the results of the parts
can be put together.
-/

namespace CapstoneKernel.TableWalk

open RadixTable Option

variable {Frame Entry : Type} {fan : ℕ} {child : Entry → Option Frame} {top : ℕ}
    {m m' : Frame → ℕ → Entry} {f d g c : Frame}

/-! ## The table below an entry -/

section Below

/-- A key with another digit at the level above `top`. -/
def splice (fan top i key : ℕ) : ℕ := i * fan ^ (top + 1) + key % fan ^ (top + 1)

theorem digit_splice {i : ℕ} (hi : i < fan) (key : ℕ) :
    digit fan (splice fan top i key) (top + 1) = i := by
  have hpos : 0 < fan ^ (top + 1) := Nat.pow_pos (by omega)
  have hlt : key % fan ^ (top + 1) < fan ^ (top + 1) := Nat.mod_lt _ hpos
  rw [digit, splice, Nat.mul_comm, Nat.mul_add_div hpos, Nat.div_eq_of_lt hlt, Nat.add_zero,
    Nat.mod_eq_of_lt hi]

theorem digit_splice_of_le {level : ℕ} (h : level ≤ top) (i key : ℕ) :
    digit fan (splice fan top i key) level = digit fan key level := by
  have hdvd : fan ^ (level + 1) ∣ fan ^ (top + 1) := pow_dvd_pow fan (by omega)
  have hmod : splice fan top i key % fan ^ (level + 1) = key % fan ^ (level + 1) := by
    rw [splice, Nat.add_mod, Nat.mod_eq_zero_of_dvd (Dvd.dvd.mul_left hdvd i), Nat.zero_add,
      Nat.mod_mod, Nat.mod_mod_of_dvd _ hdvd]
  have hdigit (x : ℕ) : digit fan x level = x % fan ^ (level + 1) / fan ^ level := by
    rw [digit, pow_succ, Nat.mod_mul_right_div_self]
  rw [hdigit, hdigit, hmod]

theorem sharesPath_splice {i : ℕ} (depth key : ℕ) :
    SharesPath fan top depth (splice fan top i key) key :=
  fun k _ ↦ digit_splice_of_le (Nat.sub_le top k) i key

theorem sharesPath_succ {depth key key' : ℕ} :
    SharesPath fan (top + 1) (depth + 1) key key' ↔
      digit fan key (top + 1) = digit fan key' (top + 1) ∧ SharesPath fan top depth key key' := by
  refine ⟨fun h ↦ ⟨h 0 (Nat.succ_pos depth), fun k hk ↦ ?_⟩, fun ⟨hfirst, h⟩ k hk ↦ ?_⟩
  · have hdigit := h (k + 1) (Nat.succ_lt_succ hk)
    rwa [Nat.add_sub_add_right] at hdigit
  · cases k with
    | zero => exact hfirst
    | succ k =>
      rw [Nat.add_sub_add_right]
      exact h k (Nat.lt_of_succ_lt_succ hk)

theorem walk_succ_top (m : Frame → ℕ → Entry) (f : Frame) (key depth : ℕ) :
    walk fan child (top + 1) m f key (depth + 1) =
      (child (m f (digit fan key (top + 1)))).bind fun g ↦ walk fan child top m g key depth := by
  induction depth with
  | zero => cases hg : child (m f (digit fan key (top + 1))) <;> simp [walk, hg]
  | succ depth ih =>
    rw [walk, ih, bind_assoc]
    simp only [walk, Nat.add_sub_add_right]

variable {i : ℕ} (hi : i < fan) (hg : child (m f i) = some g)
include hi hg

theorem walk_splice (key depth : ℕ) :
    walk fan child (top + 1) m f (splice fan top i key) (depth + 1) =
      walk fan child top m g key depth := by
  rw [walk_succ_top, digit_splice hi, hg, bind_some, walk_congr (sharesPath_splice depth key)]

theorem IsTree.below (h : IsTree fan child (top + 1) m f) : IsTree fan child top m g := by
  intro k k' hk hk' key key' x hx hx'
  rw [← walk_splice hi hg] at hx hx'
  obtain ⟨heq, hshare⟩ := h (k + 1) (k' + 1) (by omega) (by omega) _ _ x hx hx'
  have hsub := (sharesPath_succ.1 hshare).2
  exact ⟨by omega, (sharesPath_splice k key).symm.trans (hsub.trans (sharesPath_splice k key'))⟩

theorem Visited.below {x : Frame} (h : Visited fan child top m g x) :
    Visited fan child (top + 1) m f x := by
  obtain ⟨k, hk, key, hx⟩ := h
  exact ⟨k + 1, by omega, splice fan top i key, by rw [walk_splice hi hg, hx]⟩

end Below

/-! ## Copying -/

section Definitions

variable (fan : ℕ) (child : Entry → Option Frame) (leaf : Entry → Entry) (link : Frame → Entry)

/-- What becomes of an entry of a level, in its table and in the copy. -/
inductive EntryCopied : ℕ → Entry → Entry → Entry → Prop
  | table {level : ℕ} {e : Entry} (hchild : child e ≠ none) (copy : Frame) :
      EntryCopied (level + 1) e e (link copy)
  | leaf {level : ℕ} {e : Entry} (hleaf : level = 0 ∨ child e = none) :
      EntryCopied level e (leaf e) (leaf e)

variable (top : ℕ) (m : Frame → ℕ → Entry)

/-- The page belongs to the tables below the entries in a set. -/
def Below (f : Frame) (P : ℕ → Prop) (x : Frame) : Prop :=
  ∃ key k, P (digit fan key top) ∧ k < top ∧ walk fan child top m f key (k + 1) = some x

/-- The entry stands at a depth of the tables, on the path of a key with its first digit in a set. -/
def EntryAt (f : Frame) (P : ℕ → Prop) (k : ℕ) (e : Entry) : Prop :=
  ∃ key x, P (digit fan key top) ∧ walk fan child top m f key k = some x ∧
    m x (digit fan key (top - k)) = e

/-- The tables of `f` have been copied to `d` for the entries in `P`, with fresh pages. -/
structure CopiedOn (m' : Frame → ℕ → Entry) (f d : Frame) (P : ℕ → Prop) (fresh : Set Frame) :
    Prop where
  frame : ∀ x j, (x = f ∨ x = d → ¬ P j) → ¬ Below fan child top m f P x → x ∉ fresh →
    m' x j = m x j
  entries : ∀ key, P (digit fan key top) → ∀ k ≤ top, ∀ x, walk fan child top m f key k = some x →
    ∃ y, walk fan child top m' d key k = some y ∧ EntryCopied child leaf link (top - k)
      (m x (digit fan key (top - k))) (m' x (digit fan key (top - k)))
      (m' y (digit fan key (top - k)))
  copies : ∀ key, P (digit fan key top) → ∀ k < top, ∀ y,
    walk fan child top m' d key (k + 1) = some y → y ∈ fresh
  apart : ∀ key key', P (digit fan key top) → P (digit fan key' top) → ∀ k < top, ∀ k' < top,
    ∀ y, walk fan child top m' d key (k + 1) = some y →
      walk fan child top m' d key' (k' + 1) = some y → k = k' ∧ SharesPath fan top (k + 1) key key'

/-- The pages of a copy are outside of the tree that is copied. -/
structure CopyPages (f d : Frame) (fresh : Set Frame) : Prop where
  tree : IsTree fan child top m f
  copy : ¬ Visited fan child top m f d
  copy_notMem : d ∉ fresh
  fresh : ∀ x ∈ fresh, ¬ Visited fan child top m f x

end Definitions

variable {leaf : Entry → Entry} {link : Frame → Entry} {P Q : ℕ → Prop} {fresh fresh' : Set Frame}
  {x : Frame} {i : ℕ} {e : Entry}

theorem Below.visited (h : Below fan child top m f P x) : Visited fan child top m f x :=
  let ⟨key, k, _, hk, hx⟩ := h
  ⟨k + 1, hk, key, hx⟩

theorem Below.mono (h : Below fan child top m f P x) (hPQ : ∀ i, P i → Q i) :
    Below fan child top m f Q x :=
  let ⟨key, k, hkey, hx⟩ := h
  ⟨key, k, hPQ _ hkey, hx⟩

theorem exists_digit (top : ℕ) (hi : i < fan) : ∃ key, digit fan key top = i :=
  ⟨i * fan ^ top, by
    rw [digit, Nat.mul_div_cancel _ (Nat.pow_pos (Nat.zero_lt_of_lt hi)), Nat.mod_eq_of_lt hi]⟩

theorem entryAt_root (hi : i < fan) : EntryAt fan child top m f (· = i) 0 e ↔ m f i = e := by
  constructor
  · rintro ⟨key, x, rfl, hx, he⟩
    rwa [← some.inj hx] at he
  · intro he
    obtain ⟨key, rfl⟩ := exists_digit top hi
    exact ⟨key, f, rfl, rfl, he⟩

theorem entryAt_or {R : ℕ → Prop} (hR : ∀ i, R i ↔ P i ∨ Q i) {k : ℕ} :
    EntryAt fan child top m f R k e ↔
      EntryAt fan child top m f P k e ∨ EntryAt fan child top m f Q k e := by
  simp only [EntryAt, hR, or_and_right, exists_or]

section Entries

variable {level : ℕ} {e source copy : Entry} (h : EntryCopied child leaf link level e source copy)
  (hlevel : level ≠ 0) (hleaf : ∀ e, child e = none → child (leaf e) = none)
include h hlevel hleaf

theorem EntryCopied.child_source : child source = child e := by
  cases h with
  | table => rfl
  | leaf hnone =>
    have hchild := hnone.resolve_left hlevel
    rw [hchild, hleaf e hchild]

theorem EntryCopied.exists_child (hcopy : child copy ≠ none) : ∃ x, child e = some x := by
  cases h with
  | table hsome => exact ne_none_iff_exists'.1 hsome
  | leaf hnone => exact absurd (hleaf e (hnone.resolve_left hlevel)) hcopy

end Entries

theorem CopyPages.mono (h : CopyPages fan child top m f d fresh') (hle : fresh ⊆ fresh') :
    CopyPages fan child top m f d fresh :=
  ⟨h.tree, h.copy, fun hmem ↦ h.copy_notMem (hle hmem), fun x hx ↦ h.fresh x (hle hx)⟩

theorem CopyPages.of_walk_eq (h : CopyPages fan child top m f d fresh)
    (hwalk : ∀ k ≤ top, ∀ key, walk fan child top m' f key k = walk fan child top m f key k) :
    CopyPages fan child top m' f d fresh := by
  have hvisited {x : Frame} (hx : Visited fan child top m' f x) : Visited fan child top m f x := by
    obtain ⟨k, hk, key, hkey⟩ := hx
    exact ⟨k, hk, key, (hwalk k hk key).symm.trans hkey⟩
  exact ⟨h.tree.of_walk_eq hwalk, fun hx ↦ h.copy (hvisited hx), h.copy_notMem,
    fun x hmem hx ↦ h.fresh x hmem (hvisited hx)⟩

section Linking

variable [DecidableEq Frame]

/-- The pages that are copied are not changed by an entry of the copy. -/
theorem CopyPages.write_of_visited (h : CopyPages fan child top m f d fresh) {x : Frame}
    (hx : Visited fan child top m f x) (i : ℕ) (e : Entry) : write m d i e x = m x := by
  have hxd : x ≠ d := by
    rintro rfl
    exact h.copy hx
  exact Function.update_of_ne hxd _ _

variable {i : ℕ} (h : CopyPages fan child (top + 1) m f d (insert c fresh)) (hi : i < fan)
  (hg : child (m f i) = some g)
include h hi hg

theorem CopyPages.walk_below (e : Entry) {k : ℕ} (hk : k ≤ top) (key : ℕ) :
    walk fan child top (write m d i e) g key k = walk fan child top m g key k :=
  walk_of_agree (fun _ hx ↦ h.write_of_visited (hx.below hi hg) i e) hk key

/-- The entries of the table below an entry. -/
theorem CopyPages.entryAt_below (e' : Entry) {k : ℕ} (hk : k ≤ top) (hP : ∀ key, P (digit fan key top))
    {e : Entry} : EntryAt fan child top (write m d i e') g P k e ↔
      EntryAt fan child (top + 1) m f (· = i) (k + 1) e := by
  constructor
  · rintro ⟨key, x, -, hx, rfl⟩
    rw [h.walk_below hi hg e' hk, ← walk_splice hi hg] at hx
    refine ⟨_, x, digit_splice hi key, hx, ?_⟩
    rw [h.write_of_visited ⟨k + 1, by omega, _, hx⟩, Nat.add_sub_add_right,
      digit_splice_of_le (Nat.sub_le top k)]
  · rintro ⟨key, x, hkey, hx, rfl⟩
    have hvisited : Visited fan child (top + 1) m f x := ⟨k + 1, by omega, key, hx⟩
    rw [walk_succ_top, hkey, hg, bind_some, ← h.walk_below hi hg e' hk] at hx
    exact ⟨key, x, hP key, hx, by rw [h.write_of_visited hvisited, Nat.add_sub_add_right]⟩

/-- The pages for the copy of the table below an entry. -/
theorem CopyPages.below (hc : c ∉ fresh) (e : Entry) :
    CopyPages fan child top (write m d i e) g c fresh := by
  have hold : CopyPages fan child top m g c fresh :=
    ⟨h.tree.below hi hg, fun hx ↦ h.fresh c (.inl rfl) (hx.below hi hg), hc,
      fun x hmem hx ↦ h.fresh x (.inr hmem) (hx.below hi hg)⟩
  exact hold.of_walk_eq fun k hk key ↦ h.walk_below hi hg e hk key

end Linking

namespace CopiedOn

section Source

variable (h : CopiedOn fan child leaf link top m m' f d P fresh)
  (hpages : CopyPages fan child top m f d fresh)
include h hpages

variable {key k : ℕ}

/-- The entries on the path of another key stay as they are. -/
theorem rest (hkey : ¬ P (digit fan key top)) (hk : k ≤ top) {x : Frame}
    (hx : walk fan child top m f key k = some x) :
    m' x (digit fan key (top - k)) = m x (digit fan key (top - k)) := by
  have hvisited : Visited fan child top m f x := ⟨k, hk, key, hx⟩
  refine h.frame x _ ?_ ?_ fun hmem ↦ hpages.fresh x hmem hvisited
  · rintro (rfl | rfl)
    · obtain ⟨rfl, -⟩ := hpages.tree k 0 hk (Nat.zero_le top) key key x hx rfl
      exact hkey
    · exact absurd hvisited hpages.copy
  · rintro ⟨key', k', hkey', hk', hx'⟩
    obtain ⟨rfl, hshare⟩ := hpages.tree k (k' + 1) hk hk' key key' x hx hx'
    have hdigit := hshare 0 (Nat.succ_pos k')
    rw [Nat.sub_zero] at hdigit
    exact hkey (hdigit ▸ hkey')

theorem isTree (hP : ∀ key, P (digit fan key top)) : IsTree fan child top m' d := by
  intro k k' hk hk' key key' y hy hy'
  have hroot {k key : ℕ} (hk : k < top) (hy : walk fan child top m' d key (k + 1) = some d) :
      False := hpages.copy_notMem (h.copies key (hP key) k hk d hy)
  cases k with
  | zero =>
    obtain rfl : d = y := some.inj hy
    cases k' with
    | zero => exact ⟨rfl, .zero⟩
    | succ k' => exact (hroot hk' hy').elim
  | succ k =>
    cases k' with
    | zero =>
      obtain rfl : d = y := some.inj hy'
      exact (hroot hk hy).elim
    | succ k' =>
      obtain ⟨rfl, hshare⟩ := h.apart key key' (hP key) (hP key') k hk k' hk' y hy hy'
      exact ⟨rfl, hshare⟩

variable (hleaf : ∀ e, child e = none → child (leaf e) = none)
include hleaf

/-- The tables that are copied lead where they led before. -/
theorem walk_source (hk : k ≤ top) (key : ℕ) :
    walk fan child top m' f key k = walk fan child top m f key k := by
  refine walk_of_child fun k hk x hx ↦ ?_
  by_cases hkey : P (digit fan key top)
  · obtain ⟨y, -, hentry⟩ := h.entries key hkey k (by omega) x hx
    exact hentry.child_source (by omega) hleaf
  · rw [h.rest hpages hkey (by omega) hx]

/-- The entries on the paths of other keys stay as they are. -/
theorem entryAt (hPQ : ∀ i, P i → ¬ Q i) (hk : k ≤ top) {e : Entry} :
    EntryAt fan child top m' f Q k e ↔ EntryAt fan child top m f Q k e := by
  refine exists_congr fun key ↦ exists_congr fun x ↦ and_congr_right fun hkey ↦ ?_
  rw [h.walk_source hpages hleaf hk]
  exact and_congr_right fun hx ↦ by rw [h.rest hpages (fun hP ↦ hPQ _ hP hkey) hk hx]

omit hpages in
/-- The copy has no other tables. -/
theorem source_of_copy (hkey : P (digit fan key top)) (hk : k ≤ top) {y : Frame}
    (hy : walk fan child top m' d key k = some y) : ∃ x, walk fan child top m f key k = some x := by
  induction k generalizing y with
  | zero => exact ⟨f, rfl⟩
  | succ k ih =>
    obtain ⟨z, hz, hchild⟩ := bind_eq_some_iff.1 hy
    obtain ⟨x, hx⟩ := ih (by omega) hz
    obtain ⟨z', hz', hentry⟩ := h.entries key hkey k (by omega) x hx
    obtain rfl := mem_unique hz' hz
    rw [walk, hx, bind_some]
    exact hentry.exists_child (by omega) hleaf (ne_of_eq_of_ne hchild (some_ne_none y))

end Source

variable (hleaf : ∀ e, child e = none → child (leaf e) = none)

theorem nothing (hP : ∀ i, ¬ P i) : CopiedOn fan child leaf link top m m f d P ∅ where
  frame _ _ _ _ _ := rfl
  entries _ hkey := (hP _ hkey).elim
  copies _ hkey := (hP _ hkey).elim
  apart _ _ hkey := (hP _ hkey).elim

include hleaf in
theorem trans {m₁ m₂ : Frame → ℕ → Entry} {R : ℕ → Prop}
    (h₁ : CopiedOn fan child leaf link top m m₁ f d P fresh)
    (h₂ : CopiedOn fan child leaf link top m₁ m₂ f d Q fresh')
    (hpages : CopyPages fan child top m f d (fresh ∪ fresh')) (hdisjoint : Disjoint fresh fresh')
    (hPQ : ∀ i, P i → ¬ Q i) (hR : ∀ i, R i ↔ P i ∨ Q i) :
    CopiedOn fan child leaf link top m m₂ f d R (fresh ∪ fresh') := by
  have hpages₁ : CopyPages fan child top m f d fresh := hpages.mono Set.subset_union_left
  have hwalk (k : ℕ) (hk : k ≤ top) (key : ℕ) := h₁.walk_source hpages₁ hleaf hk key
  have hpages₂ : CopyPages fan child top m₁ f d fresh' :=
    (hpages.mono Set.subset_union_right).of_walk_eq hwalk
  have hbelow {x : Frame} (hx : Below fan child top m₁ f Q x) : Below fan child top m f Q x := by
    obtain ⟨key, k, hkey, hk, hx⟩ := hx
    exact ⟨key, k, hkey, hk, (hwalk _ hk key).symm.trans hx⟩
  -- The second part does not touch the copies of the first.
  have hcopy {key : ℕ} (hkey : P (digit fan key top)) {k : ℕ} (hk : k ≤ top) {y : Frame}
      (hy : walk fan child top m₁ d key k = some y) :
      m₂ y (digit fan key (top - k)) = m₁ y (digit fan key (top - k)) := by
    cases k with
    | zero =>
      obtain rfl : d = y := some.inj hy
      exact h₂.frame d _ (fun _ ↦ hPQ _ hkey) (fun hx ↦ hpages₂.copy hx.visited) hpages₂.copy_notMem
    | succ k =>
      have hmem := h₁.copies key hkey k hk y hy
      refine h₂.frame y _ ?_ (fun hx ↦ hpages₁.fresh y hmem (hbelow hx).visited)
        (hdisjoint.notMem_of_mem_left hmem)
      rintro (rfl | rfl)
      · exact absurd ⟨0, Nat.zero_le top, key, rfl⟩ (hpages₁.fresh y hmem)
      · exact absurd hmem hpages₁.copy_notMem
  have hwalk' {key : ℕ} (hkey : P (digit fan key top)) {k : ℕ} (hk : k ≤ top) :
      walk fan child top m₂ d key k = walk fan child top m₁ d key k :=
    walk_of_child fun k hk y hy ↦ by rw [hcopy hkey (by omega) hy]
  have hfresh {key k : ℕ} {y : Frame} (hkey : P (digit fan key top)) (hk : k < top)
      (hy : walk fan child top m₂ d key (k + 1) = some y) : y ∈ fresh :=
    h₁.copies key hkey k hk y ((hwalk' hkey hk).symm.trans hy)
  refine ⟨fun x j hroot hout hmem ↦ ?_, fun key hkey k hk x hx ↦ ?_, fun key hkey k hk y hy ↦ ?_,
    fun key key' hkey hkey' k hk k' hk' y hy hy' ↦ ?_⟩
  · have hP (i : ℕ) (hi : P i) : R i := (hR i).2 (.inl hi)
    have hQ (i : ℕ) (hi : Q i) : R i := (hR i).2 (.inr hi)
    rw [h₂.frame x j (fun hx hj ↦ hroot hx (hQ j hj)) (fun hx ↦ hout ((hbelow hx).mono hQ))
        (fun hx ↦ hmem (.inr hx)),
      h₁.frame x j (fun hx hj ↦ hroot hx (hP j hj)) (fun hx ↦ hout (hx.mono hP))
        (fun hx ↦ hmem (.inl hx))]
  · rcases (hR _).1 hkey with hkey | hkey
    · obtain ⟨y, hy, hentry⟩ := h₁.entries key hkey k hk x hx
      refine ⟨y, by rw [hwalk' hkey hk, hy], ?_⟩
      rw [h₂.rest hpages₂ (hPQ _ hkey) hk ((hwalk k hk key).trans hx), hcopy hkey hk hy]
      exact hentry
    · have hold := h₁.rest hpages₁ (fun hP ↦ hPQ _ hP hkey) hk hx
      obtain ⟨y, hy, hentry⟩ := h₂.entries key hkey k hk x ((hwalk k hk key).trans hx)
      exact ⟨y, hy, hold ▸ hentry⟩
  · rcases (hR _).1 hkey with hkey | hkey
    · exact .inl (hfresh hkey hk hy)
    · exact .inr (h₂.copies key hkey k hk y hy)
  · rcases (hR _).1 hkey with hkey | hkey <;> rcases (hR _).1 hkey' with hkey' | hkey'
    · exact h₁.apart key key' hkey hkey' k hk k' hk' y ((hwalk' hkey hk).symm.trans hy)
        ((hwalk' hkey' hk').symm.trans hy')
    · exact absurd (h₂.copies key' hkey' k' hk' y hy')
        (hdisjoint.notMem_of_mem_left (hfresh hkey hk hy))
    · exact absurd (h₂.copies key hkey k hk y hy)
        (hdisjoint.notMem_of_mem_left (hfresh hkey' hk' hy'))
    · exact h₂.apart key key' hkey hkey' k hk k' hk' y hy hy'

variable [DecidableEq Frame] {i : ℕ}

include hleaf in
/-- An entry that is not a table. -/
theorem single_leaf (hpages : CopyPages fan child top m f d ∅)
    (hnone : top = 0 ∨ child (m f i) = none) :
    CopiedOn fan child leaf link top m
      (write (write m f i (leaf (m f i))) d i (leaf (m f i))) f d (fun j ↦ j = i) ∅ := by
  have hfd : f ≠ d := by
    rintro rfl
    exact hpages.copy ⟨0, Nat.zero_le top, 0, rfl⟩
  set m' := write (write m f i (leaf (m f i))) d i (leaf (m f i)) with hm'
  have hsource : m' f i = leaf (m f i) := by
    rw [hm', write_of_ne _ _ (.inl hfd), write_self]
  have hcopy : m' d i = leaf (m f i) := write_self ..
  have hends {key k : ℕ} (hkey : digit fan key top = i) (hk : k < top) :
      walk fan child top m f key (k + 1) = none ∧ walk fan child top m' d key (k + 1) = none := by
    have hchild := hnone.resolve_left (by omega)
    have hfirst : walk fan child top m f key 1 = none := by
      rw [walk, walk, bind_some, Nat.sub_zero, hkey, hchild]
    have hfirst' : walk fan child top m' d key 1 = none := by
      rw [walk, walk, bind_some, Nat.sub_zero, hkey, hcopy, hleaf _ hchild]
    exact ⟨walk_eq_none_of_le hfirst (by omega), walk_eq_none_of_le hfirst' (by omega)⟩
  refine ⟨fun x j hroot _ _ ↦ ?_, fun key hkey k hk x hx ↦ ?_, fun key hkey k hk y hy ↦ ?_,
    fun key key' hkey hkey' k hk k' hk' y hy hy' ↦ ?_⟩
  · have hne {z : Frame} (hz : z = f ∨ z = d) : x ≠ z ∨ j ≠ i := by
      by_cases hx : x = z
      · exact .inr (hroot (hx ▸ hz))
      · exact .inl hx
    rw [hm', write_of_ne _ _ (hne (.inr rfl)), write_of_ne _ _ (hne (.inl rfl))]
  · cases k with
    | zero =>
      obtain rfl : f = x := some.inj hx
      refine ⟨d, rfl, ?_⟩
      rw [Nat.sub_zero, hkey, hsource, hcopy]
      exact .leaf hnone
    | succ k => cases (hends hkey hk).1.symm.trans hx
  · cases (hends hkey hk).2.symm.trans hy
  · cases (hends hkey hk).2.symm.trans hy

/-- An entry that leads to a table, whose copy is linked to before it is made. -/
theorem single_table (hi : i < fan) (hg : child (m f i) = some g)
    (hlink : child (link c) = some c) (hc : c ∉ fresh)
    (hpages : CopyPages fan child (top + 1) m f d (insert c fresh))
    (hP : ∀ key, P (digit fan key top))
    (h : CopiedOn fan child leaf link top (write m d i (link c)) m' g c P fresh) :
    CopiedOn fan child leaf link (top + 1) m m' f d (fun j ↦ j = i) (insert c fresh) := by
  set m₁ := write m d i (link c) with hm₁
  have hne {x : Frame} (hx : Visited fan child (top + 1) m f x) : m₁ x = m x :=
    hpages.write_of_visited hx i (link c)
  have hwalk {k : ℕ} (hk : k ≤ top) (key : ℕ) := hpages.walk_below hi hg (link c) hk key
  have hfirst (key : ℕ) (hkey : digit fan key (top + 1) = i) (k : ℕ) :
      walk fan child (top + 1) m f key (k + 1) = walk fan child top m g key k := by
    rw [walk_succ_top, hkey, hg, bind_some]
  have hbelow {x : Frame} (hx : Below fan child top m₁ g P x) :
      ∃ k < top, ∃ key, walk fan child (top + 1) m f (splice fan top i key) (k + 2) = some x := by
    obtain ⟨key, k, -, hk, hx⟩ := hx
    exact ⟨k, hk, key, by rw [walk_splice hi hg, ← hwalk hk, hx]⟩
  have hdepth : walk fan child (top + 1) m f (splice fan top i 0) 1 = some g :=
    walk_splice hi hg 0 0
  -- The table itself and its copy are not part of what is below the entry.
  have hsource (j : ℕ) : m' f j = m f j := by
    have hroot : Visited fan child (top + 1) m f f := ⟨0, Nat.zero_le _, 0, rfl⟩
    rw [h.frame f j ?_ ?_ fun hmem ↦ hpages.fresh f (.inr hmem) hroot, hne hroot]
    · rintro (rfl | rfl)
      · exact absurd (hpages.tree 0 1 (by omega) (by omega) 0 _ f rfl hdepth).1 (by omega)
      · exact absurd hroot (hpages.fresh f (.inl rfl))
    · intro hx
      obtain ⟨k, hk, key, hx⟩ := hbelow hx
      exact absurd (hpages.tree 0 (k + 2) (by omega) (by omega) 0 _ f rfl hx).1 (by omega)
  have hcopy (j : ℕ) : m' d j = m₁ d j := by
    refine h.frame d j ?_ ?_ fun hmem ↦ hpages.copy_notMem (.inr hmem)
    · rintro (rfl | rfl)
      · exact absurd ⟨1, by omega, _, hdepth⟩ hpages.copy
      · exact absurd (.inl rfl) hpages.copy_notMem
    · intro hx
      obtain ⟨k, hk, key, hx⟩ := hbelow hx
      exact hpages.copy ⟨k + 2, by omega, _, hx⟩
  have hlast : m' d i = link c := (hcopy i).trans (write_self ..)
  have hfirst' (key : ℕ) (hkey : digit fan key (top + 1) = i) (k : ℕ) :
      walk fan child (top + 1) m' d key (k + 1) = walk fan child top m' c key k := by
    rw [walk_succ_top, hkey, hlast, hlink, bind_some]
  refine ⟨fun x j hroot hout hmem ↦ ?_, fun key hkey k hk x hx ↦ ?_, fun key hkey k hk y hy ↦ ?_,
    fun key key' hkey hkey' k hk k' hk' y hy hy' ↦ ?_⟩
  · rw [h.frame x j ?_ ?_ fun hx ↦ hmem (.inr hx), hm₁, write_of_ne]
    · by_cases hx : x = d
      · exact .inr (hroot (.inr hx))
      · exact .inl hx
    · rintro (rfl | rfl)
      · exact absurd ⟨_, 0, digit_splice hi 0, Nat.succ_pos top, hdepth⟩ hout
      · exact absurd (.inl rfl) hmem
    · intro hx
      obtain ⟨k, hk, key, hx⟩ := hbelow hx
      exact hout ⟨_, k + 1, digit_splice hi key, by omega, hx⟩
  · cases k with
    | zero =>
      obtain rfl : f = x := some.inj hx
      refine ⟨d, rfl, ?_⟩
      rw [Nat.sub_zero, hkey, hsource, hlast]
      exact .table (by rw [hg]; exact some_ne_none g) c
    | succ k =>
      have hx₁ := (hfirst key hkey k).symm.trans hx
      obtain ⟨y, hy, hentry⟩ :=
        h.entries key (hP key) k (by omega) x ((hwalk (by omega) key).trans hx₁)
      refine ⟨y, by rw [hfirst' key hkey, hy], ?_⟩
      rw [hne ⟨k + 1, hk, key, hx⟩] at hentry
      rw [Nat.add_sub_add_right]
      exact hentry
  · rw [hfirst' key hkey] at hy
    cases k with
    | zero => exact .inl (some.inj hy).symm
    | succ k => exact .inr (h.copies key (hP key) k (by omega) y hy)
  · rw [hfirst' key hkey] at hy
    rw [hfirst' key' hkey'] at hy'
    obtain ⟨rfl, hshare⟩ := h.isTree (hpages.below hi hg hc (link c)) hP k k' (by omega) (by omega)
      key key' y hy hy'
    exact ⟨rfl, sharesPath_succ.2 ⟨hkey.trans hkey'.symm, hshare⟩⟩

end CopiedOn

end CapstoneKernel.TableWalk
