import Mathlib

/-!
# Radix tables

A multi-level table that maps a key, read as digits in base `fan`, to an entry.  A slot of an upper
level holds either a bare entry or a table of the level below.  Updates along the path of a key are
described by what they do to `lookup`, which sees the valid entries of the bottom level only.
-/

namespace CapstoneKernel.RadixTable

open Function

mutual

/-- Tables with `level` levels above the bottom one. -/
inductive Table (Entry : Type) : ℕ → Type
  | leaf (entries : ℕ → Entry) : Table Entry 0
  | node {level : ℕ} (slots : ℕ → Slot Entry level) : Table Entry (level + 1)

/-- A slot of an upper level, with tables of `level` below it. -/
inductive Slot (Entry : Type) : ℕ → Type
  | entry {level : ℕ} (e : Entry) : Slot Entry level
  | table {level : ℕ} (sub : Table Entry level) : Slot Entry level

end

/-- The digit of `key` that indexes the tables of a level. -/
def digit (fan key level : ℕ) : ℕ := key / fan ^ level % fan

/-- How entries are read: which of them count, and the entry of a fresh table. -/
structure Kind (Entry : Type) where
  valid : Entry → Bool
  blank : Entry
  blank_invalid : valid blank = false

variable {Entry : Type} (fan : ℕ) (kind : Kind Entry)

/-- A table without valid entries. -/
def emptyTable : (level : ℕ) → Table Entry level
  | 0 => .leaf fun _ ↦ kind.blank
  | _ + 1 => .node fun _ ↦ .entry kind.blank

/-- The table a slot leads to; a fresh one where there is none. -/
def subTable {level : ℕ} : Slot Entry level → Table Entry level
  | .entry _ => emptyTable kind level
  | .table sub => sub

/-- The valid entry at the end of the path of `key`. -/
def lookup : (level : ℕ) → Table Entry level → ℕ → Option Entry
  | 0, .leaf entries, key =>
    if kind.valid (entries (digit fan key 0)) then some (entries (digit fan key 0)) else none
  | level + 1, .node slots, key =>
    match slots (digit fan key (level + 1)) with
    | .entry _ => none
    | .table sub => lookup level sub key

/-- Store an entry at the end of the path of `key`, with fresh tables where the path is missing. -/
def store (e : Entry) : (level : ℕ) → Table Entry level → ℕ → Table Entry level
  | 0, .leaf entries, key => .leaf (update entries (digit fan key 0) e)
  | level + 1, .node slots, key =>
    .node (update slots (digit fan key (level + 1))
      (.table (store e level (subTable kind (slots (digit fan key (level + 1)))) key)))

/-- Make the path of `key` down to the bottom level, with fresh tables where it is missing. -/
def openPath : (level : ℕ) → Table Entry level → ℕ → Table Entry level
  | 0, t, _ => t
  | level + 1, .node slots, key =>
    .node (update slots (digit fan key (level + 1))
      (.table (openPath level (subTable kind (slots (digit fan key (level + 1)))) key)))

/-- Put a fresh table of level `target` on the path of `key`, in place of what was there. -/
def renew (target : ℕ) : (level : ℕ) → Table Entry level → ℕ → Table Entry level
  | 0, t, _ => t
  | level + 1, .node slots, key =>
    if level = target then
      .node (update slots (digit fan key (level + 1)) (.table (emptyTable kind level)))
    else
      match slots (digit fan key (level + 1)) with
      | .entry _ => .node slots
      | .table sub =>
        .node (update slots (digit fan key (level + 1)) (.table (renew target level sub key)))

/-- Change the valid entry at the end of the path of `key`, if there is one. -/
def modify (f : Entry → Entry) : (level : ℕ) → Table Entry level → ℕ → Table Entry level
  | 0, .leaf entries, key =>
    if kind.valid (entries (digit fan key 0)) then
      .leaf (update entries (digit fan key 0) (f (entries (digit fan key 0))))
    else .leaf entries
  | level + 1, .node slots, key =>
    match slots (digit fan key (level + 1)) with
    | .entry _ => .node slots
    | .table sub =>
      .node (update slots (digit fan key (level + 1)) (.table (modify f level sub key)))

/-- Change every entry that is not a table. -/
def mapEntries (f : Entry → Entry) : (level : ℕ) → Table Entry level → Table Entry level
  | 0, .leaf entries => .leaf fun i ↦ f (entries i)
  | level + 1, .node slots => .node fun i ↦
      match slots i with
      | .entry e => .entry (f e)
      | .table sub => .table (mapEntries f level sub)

/-- Some entry that is not a table, valid or not, meets `p`. -/
def anyEntry (p : Entry → Bool) : (level : ℕ) → Table Entry level → Bool
  | 0, .leaf entries => (List.range fan).any fun i ↦ p (entries i)
  | level + 1, .node slots => (List.range fan).any fun i ↦
      match slots i with
      | .entry e => p e
      | .table sub => anyEntry p level sub

/-! ## Digits -/

/-- Two keys agree on the digits of the levels up to `level`. -/
def SamePath (level key key' : ℕ) : Prop := key % fan ^ (level + 1) = key' % fan ^ (level + 1)
deriving Decidable

variable {fan} {key key' level : ℕ} {f : Entry → Entry}

theorem samePath_zero : SamePath fan 0 key key' ↔ digit fan key 0 = digit fan key' 0 := by
  simp [SamePath, digit]

/-- The path splits into its first digit and the path below it. -/
theorem samePath_succ :
    SamePath fan (level + 1) key key' ↔
      digit fan key (level + 1) = digit fan key' (level + 1) ∧ SamePath fan level key key' := by
  unfold SamePath digit
  rw [pow_succ fan (level + 1), Nat.mod_mul, Nat.mod_mul]
  constructor
  · intro h
    have hlow := congrArg (· % fan ^ (level + 1)) h
    simp only [Nat.add_mul_mod_self_left, Nat.mod_mod] at hlow
    rw [hlow] at h
    rcases Nat.eq_zero_or_pos (fan ^ (level + 1)) with hzero | hpos
    · have hfan : fan = 0 := by simpa using hzero
      subst hfan
      simp at hlow ⊢
      exact hlow
    · exact ⟨Nat.eq_of_mul_eq_mul_left hpos (Nat.add_left_cancel h), hlow⟩
  · rintro ⟨hdigit, hlow⟩
    rw [hdigit, hlow]

theorem samePath_of_lt (hkey : key < fan ^ (level + 1)) (hkey' : key' < fan ^ (level + 1)) :
    SamePath fan level key key' ↔ key = key' := by
  rw [SamePath, Nat.mod_eq_of_lt hkey, Nat.mod_eq_of_lt hkey']

/-! ## What the updates do to `lookup` -/

variable {kind}

@[simp] theorem lookup_emptyTable (level key : ℕ) :
    lookup fan kind level (emptyTable kind level) key = none := by
  cases level with
  | zero => simp [lookup, emptyTable, kind.blank_invalid]
  | succ level => rfl

/-- A missing table reads as a fresh one. -/
theorem lookup_node (slots : ℕ → Slot Entry level) (key : ℕ) :
    lookup fan kind (level + 1) (.node slots) key =
      lookup fan kind level (subTable kind (slots (digit fan key (level + 1)))) key := by
  rw [lookup]
  cases slots (digit fan key (level + 1)) with
  | entry e => exact (lookup_emptyTable level key).symm
  | table sub => rfl

/-- Changing the table below one slot changes the lookups through that slot. -/
theorem lookup_update (slots : ℕ → Slot Entry level) (i : ℕ) (sub : Table Entry level) (key : ℕ) :
    lookup fan kind (level + 1) (.node (update slots i (.table sub))) key =
      if digit fan key (level + 1) = i then lookup fan kind level sub key
      else lookup fan kind (level + 1) (.node slots) key := by
  simp only [lookup_node]
  by_cases hi : digit fan key (level + 1) = i
  · simp [hi, subTable]
  · simp [hi]

theorem lookup_store (e : Entry) (level : ℕ) (t : Table Entry level) (key key' : ℕ) :
    lookup fan kind level (store fan kind e level t key) key' =
      if SamePath fan level key' key then (if kind.valid e then some e else none)
      else lookup fan kind level t key' := by
  induction level with
  | zero =>
    cases t with | leaf entries =>
    simp only [samePath_zero]
    by_cases h : digit fan key' 0 = digit fan key 0
    · simp [lookup, store, h]
    · simp [lookup, store, h]
  | succ level ih =>
    cases t with | node slots =>
    rw [store, lookup_update, ih, lookup_node slots key']
    simp only [samePath_succ]
    by_cases h : digit fan key' (level + 1) = digit fan key (level + 1)
    · simp [h]
    · simp [h]

@[simp] theorem lookup_openPath (level : ℕ) (t : Table Entry level) (key key' : ℕ) :
    lookup fan kind level (openPath fan kind level t key) key' = lookup fan kind level t key' := by
  induction level with
  | zero =>
    cases t
    rfl
  | succ level ih =>
    cases t with | node slots =>
    rw [openPath, lookup_update, ih, lookup_node slots key']
    split
    · next h => rw [h]
    · rfl

/-- A fresh table hides the keys below it and no other. -/
theorem lookup_renew (target level : ℕ) (t : Table Entry level) (key key' : ℕ) :
    lookup fan kind level (renew fan kind target level t key) key' = lookup fan kind level t key' ∨
      (lookup fan kind level (renew fan kind target level t key) key' = none ∧ target < level ∧
        ∀ k, target < k → k ≤ level → digit fan key' k = digit fan key k) := by
  induction level with
  | zero =>
    cases t
    exact .inl rfl
  | succ level ih =>
    cases t with | node slots =>
    rw [renew]
    by_cases hlevel : level = target
    · subst hlevel
      rw [if_pos rfl, lookup_update]
      split
      · next h =>
        refine .inr ⟨lookup_emptyTable level key', Nat.lt_succ_self _, fun k hlow hhigh ↦ ?_⟩
        obtain rfl : k = level + 1 := by omega
        exact h
      · exact .inl rfl
    · rw [if_neg hlevel]
      split
      · exact .inl rfl
      · next sub hsub =>
        rw [lookup_update]
        split
        · next h =>
          rw [lookup_node, h, hsub, subTable]
          refine (ih sub).imp id fun ⟨hnone, hlt, hall⟩ ↦
            ⟨hnone, Nat.lt_succ_of_lt hlt, fun k hlow hhigh ↦ ?_⟩
          rcases Nat.lt_or_ge level k with hk | hk
          · obtain rfl : k = level + 1 := by omega
            exact h
          · exact hall k hlow hk
        · exact .inl rfl

theorem lookup_modify (hf : ∀ e, kind.valid (f e) = kind.valid e) (level : ℕ)
    (t : Table Entry level) (key key' : ℕ) :
    lookup fan kind level (modify fan kind f level t key) key' =
      if SamePath fan level key' key then (lookup fan kind level t key').map f
      else lookup fan kind level t key' := by
  induction level with
  | zero =>
    cases t with | leaf entries =>
    simp only [samePath_zero, modify]
    by_cases h : digit fan key' 0 = digit fan key 0
    · cases hvalid : kind.valid (entries (digit fan key 0)) with
      | true => simp [lookup, h, hf, hvalid]
      | false => simp [lookup, h, hvalid]
    · rw [if_neg h]
      split
      · simp [lookup, h]
      · rfl
  | succ level ih =>
    cases t with | node slots =>
    simp only [samePath_succ, modify]
    cases hslot : slots (digit fan key (level + 1)) with
    | entry e =>
      by_cases h : digit fan key' (level + 1) = digit fan key (level + 1)
      · simp [lookup, h, hslot]
      · simp [h]
    | table sub =>
      simp only []
      rw [lookup_update, ih]
      by_cases h : digit fan key' (level + 1) = digit fan key (level + 1)
      · simp only [h, if_true, true_and, lookup, hslot]
      · simp [h]

theorem lookup_mapEntries (hf : ∀ e, kind.valid (f e) = kind.valid e) (level : ℕ)
    (t : Table Entry level) (key : ℕ) :
    lookup fan kind level (mapEntries f level t) key = (lookup fan kind level t key).map f := by
  induction level with
  | zero =>
    cases t with | leaf entries =>
    simp only [lookup, mapEntries, hf]
    split <;> rfl
  | succ level ih =>
    cases t with | node slots =>
    simp only [lookup, mapEntries]
    cases slots (digit fan key (level + 1)) with
    | entry e => rfl
    | table sub => exact ih sub

end CapstoneKernel.RadixTable
