import CapstoneKernel.Lib.Writes
import CapstoneKernel.Mem.BuddyInvariant

/-!
# Specifications of the buddy routines

Each routine of `mem.c` gets one specification: under the invariant it returns without a fault,
keeps the invariant, and changes the used blocks in a way that is stated without reference to its
loops.  Splitting and joining are the only changes of the tiling; they are verified once, for the
instruction sequences that `buddy_merge_block`, `buddy_clear_block` and `memory_reserve` share.
-/

namespace CapstoneKernel.Mem

open IntrusiveList BuddyTiling Execution Function Writes

variable {s : Buddy} {listIdx i k idx : ℕ}

/-- The part of the invariant that holds between any two calls of the routines. -/
structure BuddyCore (s : Buddy) : Prop where
  exp_le : s.numPagesExp ≤ 30
  endAddr_eq : s.endAddr = s.numPages * pageSize
  lists : ListsAgree s.numPagesExp s.arr s.nodes s.freeBlocksList
  tiling : IsTiling s.numPagesExp (fun i ↦ orderOf (s.arr i))

/-- The order of the used block headed by page `i`, if there is one. -/
def usedAt (s : Buddy) (i : ℕ) : Option ℕ := usedOrder (s.arr i)

/-- The order of the block that `buddy_malloc` returned at page `idx`. -/
def blockOrder (s : Buddy) (idx : ℕ) : ℕ := (usedAt s idx).getD 0

/-- Two free buddies of one order exist only as the pair that page `idx` belongs to at `exp`. -/
def NoFreePairExcept (s : Buddy) (idx exp : ℕ) : Prop :=
  ∀ i k, k < s.numPagesExp → 2 ^ (k + 1) ∣ i → s.arr i = k → s.arr (i + 2 ^ k) = k →
    k = exp ∧ (i = idx ∨ i + 2 ^ k = idx)

/-- No two buddies of one order are both free. -/
def NoFreePair (s : Buddy) : Prop :=
  ∀ i k, k < s.numPagesExp → 2 ^ (k + 1) ∣ i → ¬ (s.arr i = k ∧ s.arr (i + 2 ^ k) = k)

/-- What the internal routines leave alone. -/
structure SameFrame (s s' : Buddy) : Prop where
  numPagesExp : s'.numPagesExp = s.numPagesExp
  endAddr : s'.endAddr = s.endAddr
  console : s'.console = s.console
  irqNestedCount : s'.irqNestedCount = s.irqNestedCount

namespace SameFrame

theorem refl (s : Buddy) : SameFrame s s := ⟨rfl, rfl, rfl, rfl⟩

theorem trans {s₁ s₂ s₃ : Buddy} (h : SameFrame s₁ s₂) (h' : SameFrame s₂ s₃) : SameFrame s₁ s₃ :=
  ⟨h'.1.trans h.1, h'.2.trans h.2, h'.3.trans h.3, h'.4.trans h.4⟩

theorem unmask {s' : Buddy} (h : SameFrame s.disableInt s') : SameFrame s s'.enableInt := by
  refine ⟨h.1, h.2, h.3, ?_⟩
  have hirq : s'.irqNestedCount = s.irqNestedCount + 1 := h.4
  change s'.irqNestedCount - 1 = s.irqNestedCount
  omega

end SameFrame

namespace BuddyCore

variable {s : Buddy}

section

variable (h : BuddyCore s)
include h

theorem disableInt : BuddyCore s.disableInt :=
  ⟨h.exp_le, h.endAddr_eq, h.lists, h.tiling⟩

theorem enableInt : BuddyCore s.enableInt :=
  ⟨h.exp_le, h.endAddr_eq, h.lists, h.tiling⟩

theorem print (msg : Msg) : BuddyCore (s.print msg) :=
  ⟨h.exp_le, h.endAddr_eq, h.lists, h.tiling⟩

theorem lt (hi : orderOf (s.arr i) = some k) : i < s.numPages :=
  h.tiling.lt hi

theorem order_le (hi : orderOf (s.arr i) = some k) : k ≤ s.numPagesExp :=
  h.tiling.order_le hi

theorem order_of_free (hk : k ≤ s.numPagesExp) (harr : s.arr i = k) :
    orderOf (s.arr i) = some k := by
  rw [harr]
  exact orderOf_cast (hk.trans h.exp_le)

theorem interior {j : ℕ} (hi : orderOf (s.arr i) = some k) (hij : i < j) (hj : j < i + 2 ^ k) :
    s.arr j = empty := by
  have hnone : orderOf (s.arr j) = none := h.tiling.interior hi hij hj
  unfold orderOf at hnone
  split at hnone
  · assumption
  · split at hnone <;> simp at hnone

theorem empty_ne (hk : k ≤ s.numPagesExp) : empty ≠ k :=
  empty_ne_cast (hk.trans h.exp_le)

theorem usedAt_le (hi : usedAt s i = some k) :
    orderOf (s.arr i) = some k ∧ s.arr i = usedMark k ∧ k ≤ s.numPagesExp := by
  have := usedOrder_eq_some hi
  exact ⟨this.2, this.1, h.order_le this.2⟩

end

end BuddyCore

/-! ## Taking a block off its list and putting one on -/

/-- The state after a successful `buddy_delete_free_block`. -/
def Buddy.deleted (s : Buddy) (idx listIdx : ℕ) : Buddy :=
  { s with
    arr := update s.arr idx (usedMark listIdx)
    nodes := s.nodes.unlink idx
    freeBlocksList :=
      if s.freeBlocksList listIdx = some idx then
        update s.freeBlocksList listIdx (s.nodes.next idx)
      else s.freeBlocksList }

/-- The state after a successful `buddy_insert_free_block`. -/
def Buddy.inserted (s : Buddy) (idx listIdx : ℕ) : Buddy :=
  { s with
    arr := update s.arr idx listIdx
    nodes := s.nodes.pushFront (s.freeBlocksList listIdx) idx
    freeBlocksList := update s.freeBlocksList listIdx (some idx) }

/-- The state after a plain store to `arr`. -/
def Buddy.stored (s : Buddy) (idx : ℕ) (value : ℤ) : Buddy :=
  { s with arr := update s.arr idx value }

theorem buddyDeleteFreeBlock_eq (hlists : ListsAgree s.numPagesExp s.arr s.nodes s.freeBlocksList)
    (hidx : idx < s.numPages) (hlist : listIdx ≤ s.numPagesExp) (harr : s.arr idx = listIdx) :
    buddyDeleteFreeBlock s idx listIdx = .ok (s.deleted idx listIdx) := by
  have hidx' : idx < 2 ^ s.numPagesExp := hidx
  have hprev := fun p ↦ hlists.prev_lt (p := p) hlist hidx harr
  have hnext := fun p ↦ hlists.next_lt (p := p) hlist hidx harr
  unfold buddyDeleteFreeBlock Buddy.deleted Links.unlink usedMark
  cases hp : s.nodes.prev idx <;> cases hn : s.nodes.next idx <;>
    by_cases hhead : s.freeBlocksList listIdx = some idx <;>
    simp_all [Buddy.disableInt, Buddy.enableInt, Buddy.readArr, Buddy.readPrev, Buddy.readNext,
      Buddy.readList, Buddy.writeArr, Buddy.writePrev, Buddy.writeNext, Buddy.writeList,
      Buddy.numPages, bind, Except.bind, pure, Except.pure, update_apply]

theorem buddyInsertFreeBlock_eq (hlists : ListsAgree s.numPagesExp s.arr s.nodes s.freeBlocksList)
    (hidx : idx < s.numPages) (hlist : listIdx ≤ s.numPagesExp) :
    buddyInsertFreeBlock s idx listIdx = .ok (s.inserted idx listIdx) := by
  have hidx' : idx < 2 ^ s.numPagesExp := hidx
  have hhead := fun old ↦ hlists.head_spec (i := old) hlist
  unfold buddyInsertFreeBlock Buddy.inserted Links.pushFront
  cases hold : s.freeBlocksList listIdx <;>
    simp_all [Buddy.disableInt, Buddy.enableInt, Buddy.readList, Buddy.writeArr, Buddy.writePrev,
      Buddy.writeNext, Buddy.writeList, Buddy.numPages, bind, Except.bind, pure, Except.pure]

theorem writeArr_eq (value : ℤ) (hidx : idx < s.numPages) :
    s.writeArr idx value = .ok (s.stored idx value) := if_pos hidx

theorem readArr_eq (hidx : idx < s.numPages) :
    s.readArr idx = .ok (s.arr idx) := if_pos hidx

theorem deleted_mark (s : Buddy) (idx listIdx : ℕ) :
    (s.deleted idx listIdx).arr idx = usedMark listIdx := update_self ..

theorem inserted_mark (s : Buddy) (idx listIdx : ℕ) :
    (s.inserted idx listIdx).arr idx = listIdx := update_self ..

theorem sameFrame_deleted (s : Buddy) (idx listIdx : ℕ) : SameFrame s (s.deleted idx listIdx) :=
  ⟨rfl, rfl, rfl, rfl⟩

theorem sameFrame_inserted (s : Buddy) (idx listIdx : ℕ) : SameFrame s (s.inserted idx listIdx) :=
  ⟨rfl, rfl, rfl, rfl⟩

/-! ## Splitting and joining -/

theorem orderOf_update (arr : ℕ → ℤ) (i : ℕ) (value : ℤ) :
    (fun x ↦ orderOf (update arr i value x)) =
      update (fun x ↦ orderOf (arr x)) i (orderOf value) := by
  exact comp_update orderOf arr i value

theorem update_half_ne (i k : ℕ) : i + 2 ^ k ≠ i := by
  have : 0 < 2 ^ k := by positivity
  omega

namespace BuddyCore

variable {s : Buddy}

section

variable (h : BuddyCore s)
include h

section

variable (hi : orderOf (s.arr i) = some (k + 1))
include hi

/-- Two new marks of order `k` on the halves of a block of order `k + 1` give a tiling again. -/
theorem tiling_split {low high : ℤ} (hlow : orderOf low = some k) (hhigh : orderOf high = some k) :
    IsTiling s.numPagesExp (fun x ↦ orderOf (update (update s.arr i low) (i + 2 ^ k) high x)) := by
  rw [orderOf_update, orderOf_update, hlow, hhigh]
  exact h.tiling.split hi

theorem upper_half_lt : i + 2 ^ k < s.numPages := by
  have hin := h.tiling.inside hi
  obtain ⟨hpow, hpos⟩ := two_pow_succ k
  unfold Buddy.numPages
  omega

theorem upper_half_empty : s.arr (i + 2 ^ k) = empty := by
  obtain ⟨hpow, hpos⟩ := two_pow_succ k
  exact h.interior hi (by omega) (by omega)

end

/-- Marking the head of a block with another mark of the same order does not change the tiling. -/
theorem tiling_relabel {v : ℤ} (hi : orderOf (s.arr i) = some k) (hv : orderOf v = some k) :
    IsTiling s.numPagesExp (fun x ↦ orderOf (update s.arr i v x)) := by
  have heq : (fun x ↦ orderOf (update s.arr i v x)) = fun x ↦ orderOf (s.arr x) := by
    rw [orderOf_update, hv, ← hi]
    exact update_eq_self i (fun x ↦ orderOf (s.arr x))
  rw [heq]
  exact h.tiling

/-- A free block is taken off its list and becomes used. -/
theorem takeFree (hk : k ≤ s.numPagesExp) (harr : s.arr i = k) :
    buddyDeleteFreeBlock s i k = .ok (s.deleted i k) ∧ BuddyCore (s.deleted i k) := by
  have hord := h.order_of_free hk harr
  have hi : i < s.numPages := h.lt hord
  exact ⟨buddyDeleteFreeBlock_eq h.lists hi hk harr, h.exp_le, h.endAddr_eq,
    h.lists.delete hk hi harr,
    h.tiling_relabel hord (orderOf_usedMark (hk.trans h.exp_le))⟩

/-- A used block is put on the list of its order and becomes free. -/
theorem releaseUsed (hk : k ≤ 30) (harr : s.arr i = usedMark k) :
    k ≤ s.numPagesExp ∧ buddyInsertFreeBlock s i k = .ok (s.inserted i k) ∧
      BuddyCore (s.inserted i k) := by
  have hord : orderOf (s.arr i) = some k := harr ▸ orderOf_usedMark hk
  have hi : i < s.numPages := h.lt hord
  have hle := h.order_le hord
  exact ⟨hle, buddyInsertFreeBlock_eq h.lists hi hle, h.exp_le, h.endAddr_eq,
    h.lists.insert hle hi (fun j _ ↦ harr ▸ usedMark_ne_cast k j),
    h.tiling_relabel hord (orderOf_cast hk)⟩

/-- Halving a used block: `buddy_cut_block` keeps the lower half and frees the upper one. -/
theorem cutUsed (harr : s.arr i = usedMark (k + 1)) (hk : k + 1 ≤ 30) :
    ∃ s', buddyInsertFreeBlock (s.stored i (usedMark k)) (i + 2 ^ k) k = .ok s' ∧ BuddyCore s' ∧
      SameFrame s s' ∧
      s'.arr = update (update s.arr i (usedMark k)) (i + 2 ^ k) k := by
  have hord : orderOf (s.arr i) = some (k + 1) := harr ▸ orderOf_usedMark hk
  have hle : k ≤ s.numPagesExp := by
    have := h.order_le hord
    omega
  have hlt := h.upper_half_lt hord
  have hlists : ListsAgree s.numPagesExp (update s.arr i (usedMark k)) s.nodes s.freeBlocksList :=
    h.lists.relabel (fun j _ ↦ harr ▸ usedMark_ne_cast _ j) (fun j _ ↦ usedMark_ne_cast _ j)
  have hfresh : ∀ j ≤ s.numPagesExp, update s.arr i (usedMark k) (i + 2 ^ k) ≠ j := by
    intro j hj
    rw [update_of_ne (update_half_ne i k), h.upper_half_empty hord]
    exact h.empty_ne hj
  refine ⟨(s.stored i (usedMark k)).inserted (i + 2 ^ k) k, ?_, ⟨h.exp_le, h.endAddr_eq, ?_, ?_⟩,
    ⟨rfl, rfl, rfl, rfl⟩, rfl⟩
  · exact buddyInsertFreeBlock_eq hlists hlt hle
  · exact hlists.insert hle hlt hfresh
  · exact h.tiling_split hord (orderOf_usedMark (by omega)) (orderOf_cast (by omega))

/-- Halving a free block, as the third loop of `memory_reserve` does. -/
theorem splitFree (hk : k + 1 ≤ s.numPagesExp) (harr : s.arr i = (k + 1 : ℕ)) :
    ∃ s₁ s₂ s₃, buddyDeleteFreeBlock s i (k + 1) = .ok s₁ ∧ buddyInsertFreeBlock s₁ i k = .ok s₂ ∧
      buddyInsertFreeBlock s₂ (i + 2 ^ k) k = .ok s₃ ∧ BuddyCore s₃ ∧ SameFrame s s₃ ∧
      s₃.arr = update (update s.arr i k) (i + 2 ^ k) k := by
  have hord := h.order_of_free hk harr
  have hi : i < s.numPages := h.lt hord
  have hlt := h.upper_half_lt hord
  have hle : k ≤ s.numPagesExp := by omega
  have hne := update_half_ne i k
  obtain ⟨hrun₁, hcore₁⟩ := h.takeFree hk harr
  have hlists₂ := hcore₁.lists.insert hle hi fun j _ ↦
    deleted_mark s i (k + 1) ▸ usedMark_ne_cast _ j
  have hfresh₂ : ∀ j ≤ s.numPagesExp,
      update (update s.arr i (usedMark (k + 1))) i k (i + 2 ^ k) ≠ j := by
    intro j hj
    rw [update_of_ne hne, update_of_ne hne, h.upper_half_empty hord]
    exact h.empty_ne hj
  have harr₃ : update (update (update s.arr i (usedMark (k + 1))) i
      (k : ℤ)) (i + 2 ^ k) (k : ℤ) = update (update s.arr i k) (i + 2 ^ k) k := by
    rw [update_idem]
  refine ⟨s.deleted i (k + 1), (s.deleted i (k + 1)).inserted i k,
    ((s.deleted i (k + 1)).inserted i k).inserted (i + 2 ^ k) k,
    hrun₁, buddyInsertFreeBlock_eq hcore₁.lists hi hle,
    buddyInsertFreeBlock_eq hlists₂ hlt hle, ⟨h.exp_le, h.endAddr_eq, ?_, ?_⟩,
    ⟨rfl, rfl, rfl, rfl⟩, harr₃⟩
  · exact hlists₂.insert hle hlt hfresh₂
  · have hexp : k ≤ 30 := hle.trans h.exp_le
    have htiling := h.tiling_split hord (orderOf_cast hexp) (orderOf_cast hexp)
    rw [← harr₃] at htiling
    exact htiling

/-- Joining two free halves, as `buddy_merge_block` and `buddy_clear_block` do.  The halves are
taken off their list in either order. -/
theorem joinFree {low a b : ℕ} (hk : k + 1 ≤ s.numPagesExp) (hal : 2 ^ (k + 1) ∣ low)
    (hlow : s.arr low = k) (hhigh : s.arr (low + 2 ^ k) = k)
    (hab : (a = low ∧ b = low + 2 ^ k) ∨ (a = low + 2 ^ k ∧ b = low)) :
    ∃ s₁ s₂ s₃ s₄, buddyDeleteFreeBlock s a k = .ok s₁ ∧ buddyDeleteFreeBlock s₁ b k = .ok s₂ ∧
      buddyInsertFreeBlock s₂ low (k + 1) = .ok s₃ ∧ s₃.writeArr (low + 2 ^ k) empty = .ok s₄ ∧
      BuddyCore s₄ ∧ SameFrame s s₄ ∧
      s₄.arr = update (update s.arr low (k + 1 : ℕ)) (low + 2 ^ k) empty := by
  have hle : k ≤ s.numPagesExp := by omega
  have hordLow := h.order_of_free hle hlow
  have hordHigh := h.order_of_free hle hhigh
  have hne := update_half_ne low k
  have hba : b ≠ a := by rcases hab with ⟨rfl, rfl⟩ | ⟨rfl, rfl⟩ <;> omega
  have hmark : s.arr a = k ∧ s.arr b = k := by
    rcases hab with ⟨rfl, rfl⟩ | ⟨rfl, rfl⟩
    · exact ⟨hlow, hhigh⟩
    · exact ⟨hhigh, hlow⟩
  have hlow' : low < s.numPages := h.lt hordLow
  have hhigh' : low + 2 ^ k < s.numPages := h.lt hordHigh
  obtain ⟨hrun₁, hcore₁⟩ := h.takeFree hle hmark.1
  obtain ⟨hrun₂, hcore₂⟩ := hcore₁.takeFree hle ((update_of_ne hba ..).trans hmark.2)
  -- Both halves carry the used mark now, whichever was taken off first.
  have hboth : update (update s.arr a (usedMark k)) b (usedMark k) =
      update (update s.arr low (usedMark k)) (low + 2 ^ k) (usedMark k) := by
    rcases hab with ⟨rfl, rfl⟩ | ⟨rfl, rfl⟩
    · rfl
    · exact update_comm hne _ _ _
  have hlists₂ : ListsAgree s.numPagesExp (update (update s.arr a (usedMark k)) b (usedMark k)) _ _ :=
    hcore₂.lists
  rw [hboth] at hlists₂
  have hlists₃ := hlists₂.insert hk hlow' (fun j _ ↦ by
    rw [update_of_ne hne.symm, update_self]
    exact usedMark_ne_cast _ j)
  have hlists₄ := hlists₃.relabel (i := low + 2 ^ k) (v := empty)
    (fun j _ ↦ by
      rw [update_of_ne hne, update_self]
      exact usedMark_ne_cast _ j)
    (fun j hj ↦ h.empty_ne hj)
  have harr₄ : update (update (update (update s.arr low
      (usedMark k)) (low + 2 ^ k) (usedMark k)) low ((k + 1 : ℕ) : ℤ)) (low + 2 ^ k) empty =
      update (update s.arr low (k + 1 : ℕ)) (low + 2 ^ k) empty := by
    funext x
    simp only [update_apply]
    split <;> simp_all
  refine ⟨s.deleted a k, (s.deleted a k).deleted b k,
    ((s.deleted a k).deleted b k).inserted low (k + 1),
    (((s.deleted a k).deleted b k).inserted low (k + 1)).stored (low + 2 ^ k) empty, hrun₁, hrun₂,
    buddyInsertFreeBlock_eq hcore₂.lists hlow' hk, writeArr_eq _ hhigh',
    ⟨h.exp_le, h.endAddr_eq, ?_, ?_⟩, ⟨rfl, rfl, rfl, rfl⟩, ?_⟩
  · change ListsAgree _ (update (update (update (update s.arr a
      (usedMark k)) b (usedMark k)) low _) _ _) _ _
    rw [hboth]
    exact hlists₄
  · change IsTiling _ (fun x ↦ orderOf (update (update (update
      (update s.arr a (usedMark k)) b (usedMark k)) low _) _ _ x))
    rw [hboth, harr₄, orderOf_update, orderOf_update, orderOf_empty,
      orderOf_cast (hk.trans h.exp_le)]
    exact h.tiling.join hal hordLow hordHigh
  · change update (update (update (update s.arr a (usedMark k)) b (usedMark k)) low _) _ _ = _
    rw [hboth, harr₄]

end

end BuddyCore

/-! ## Free pairs and used blocks -/

theorem NoFreePairExcept.of_noFreePair (h : NoFreePair s) (idx exp : ℕ) :
    NoFreePairExcept s idx exp :=
  fun i k hk hal hlow hhigh ↦ absurd ⟨hlow, hhigh⟩ (h i k hk hal)

/-- Taking the exceptional block removes the last free pair. -/
theorem noFreePair_deleted {exp : ℕ} (h : NoFreePairExcept s idx exp) :
    NoFreePair (s.deleted idx exp) := by
  rintro i k hk hal ⟨hlow, hhigh⟩
  have hkeep {x : ℕ} (hx : (s.deleted idx exp).arr x = k) : x ≠ idx ∧ s.arr x = k :=
    (update_apply_eq_iff.1 hx).resolve_left fun hnew ↦ usedMark_ne_cast exp k hnew.2
  have hpair := (h i k hk hal (hkeep hlow).2 (hkeep hhigh).2).2
  exact hpair.elim (hkeep hlow).1 (hkeep hhigh).1

/-- Releasing a block makes at most the pair it belongs to free. -/
theorem noFreePairExcept_inserted (h : NoFreePair s) (idx exp : ℕ) :
    NoFreePairExcept (s.inserted idx exp) idx exp := by
  intro i k hk hal hlow hhigh
  have hcases {x : ℕ} (hx : (s.inserted idx exp).arr x = k) : x = idx ∧ k = exp ∨ s.arr x = k := by
    rcases update_apply_eq_iff.1 hx with ⟨hx, hk⟩ | ⟨-, hx⟩
    · exact .inl ⟨hx, by omega⟩
    · exact .inr hx
  rcases hcases hlow with ⟨hi, rfl⟩ | hlow
  · exact ⟨rfl, .inl hi⟩
  · rcases hcases hhigh with ⟨hi, rfl⟩ | hhigh
    · exact ⟨rfl, .inr hi⟩
    · exact absurd ⟨hlow, hhigh⟩ (h i k hk hal)

theorem usedAt_deleted (hk : k ≤ 30) :
    usedAt (s.deleted idx k) = update (usedAt s) idx (some k) := by
  rw [← usedOrder_usedMark hk]
  exact comp_update usedOrder s.arr idx (usedMark k)

theorem usedAt_inserted (s : Buddy) (idx k : ℕ) :
    usedAt (s.inserted idx k) = update (usedAt s) idx none := by
  rw [← usedOrder_cast k]
  exact comp_update usedOrder s.arr idx k

end CapstoneKernel.Mem
