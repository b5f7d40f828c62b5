import CapstoneKernel.Mem.BuddyRuns

/-!
# Free and used pages

The calls of the page allocator described by the blocks they move between free and used.  A request
is served from the smallest free block that holds it, a release frees the pages of one block, and
the free blocks depend on the used ones only: whatever order blocks were split, reserved and merged
in, the free pages are cut into the same maximal blocks.
-/

namespace CapstoneKernel.Mem

open BuddyTiling Execution Function

variable {s s' : Buddy} {i k idx : ℕ}

/-- A free block of order `k` starts at page `i`. -/
def FreeBlock (s : Buddy) (i k : ℕ) : Prop := k ≤ s.numPagesExp ∧ s.arr i = k

/-- The page lies in a used block. -/
def PageUsed (s : Buddy) (p : ℕ) : Prop := ∃ i k, usedAt s i = some k ∧ i ≤ p ∧ p < i + 2 ^ k

/-- The page lies in a free block. -/
def PageFree (s : Buddy) (p : ℕ) : Prop := ∃ i k, FreeBlock s i k ∧ i ≤ p ∧ p < i + 2 ^ k

/-- The states differ at most in what was printed. -/
def SameMemory (s s' : Buddy) : Prop := ∃ console, s' = { s with console := console }

/-! ## Pages and blocks -/

theorem FreeBlock.not_used (h : FreeBlock s i k) : usedAt s i = none := by
  rw [usedAt, h.2, usedOrder_cast]

theorem FreeBlock.order (hcore : BuddyCore s) (h : FreeBlock s i k) :
    orderOf (s.arr i) = some k := hcore.order_of_free h.1 h.2

theorem BuddyCore.block_cases (h : BuddyCore s) (hi : orderOf (s.arr i) = some k) :
    FreeBlock s i k ∨ usedAt s i = some k := by
  have hk := h.order_le hi
  rcases eq_of_orderOf hi with harr | harr
  · exact .inl ⟨hk, harr⟩
  · right
    rw [usedAt, harr, usedOrder_usedMark (hk.trans h.exp_le)]

theorem BuddyCore.pageFree_iff (h : BuddyCore s) {p : ℕ} (hp : p < s.numPages) :
    PageFree s p ↔ ¬ PageUsed s p := by
  constructor
  · rintro ⟨i, k, hfree, hip, hpi⟩ ⟨j, m, hused, hjp, hpj⟩
    obtain ⟨rfl, -⟩ := h.tiling.unique (hfree.order h) (h.usedAt_le hused).1 hip hpi hjp hpj
    rw [hfree.not_used] at hused
    cases hused
  · intro hnot
    obtain ⟨i, k, hi, hip, hpi⟩ := h.tiling.cover hp
    rcases h.block_cases hi with hfree | hused
    · exact ⟨i, k, hfree, hip, hpi⟩
    · exact absurd ⟨i, k, hused, hip, hpi⟩ hnot

theorem PageUsed.zero (h : PageUsed s 0) : ∃ k, usedAt s 0 = some k := by
  obtain ⟨i, k, hused, hi, -⟩ := h
  obtain rfl : i = 0 := by omega
  exact ⟨k, hused⟩

/-- A new used block changes the pages in it and no other page. -/
theorem pageUsed_update (hnone : usedAt s idx = none)
    (hused : usedAt s' = update (usedAt s) idx (some k)) (p : ℕ) :
    PageUsed s' p ↔ PageUsed s p ∨ (idx ≤ p ∧ p < idx + 2 ^ k) := by
  unfold PageUsed
  rw [hused]
  constructor
  · rintro ⟨i, m, hi, hip, hpi⟩
    by_cases heq : i = idx
    · subst heq
      rw [update_self] at hi
      cases hi
      exact .inr ⟨hip, hpi⟩
    · rw [update_of_ne heq] at hi
      exact .inl ⟨i, m, hi, hip, hpi⟩
  · rintro (⟨i, m, hi, hip, hpi⟩ | hin)
    · have hne : i ≠ idx := by
        rintro rfl
        rw [hnone] at hi
        cases hi
      exact ⟨i, m, by rw [update_of_ne hne, hi], hip, hpi⟩
    · exact ⟨idx, k, update_self .., hin⟩

/-- Without one of the used blocks, the pages in it are not used any more. -/
theorem pageUsed_release (h : BuddyCore s) (hidx : usedAt s idx = some k)
    (hused : usedAt s' = update (usedAt s) idx none) (p : ℕ) :
    PageUsed s' p ↔ PageUsed s p ∧ ¬ (idx ≤ p ∧ p < idx + 2 ^ k) := by
  unfold PageUsed
  rw [hused]
  constructor
  · rintro ⟨i, m, hi, hip, hpi⟩
    by_cases heq : i = idx
    · rw [heq, update_self] at hi
      cases hi
    · rw [update_of_ne heq] at hi
      refine ⟨⟨i, m, hi, hip, hpi⟩, fun hin ↦ heq ?_⟩
      exact (h.tiling.unique (h.usedAt_le hi).1 (h.usedAt_le hidx).1 hip hpi hin.1 hin.2).1
  · rintro ⟨⟨i, m, hi, hip, hpi⟩, hout⟩
    have hne : i ≠ idx := by
      rintro rfl
      obtain rfl := Option.mem_unique hi hidx
      exact hout ⟨hip, hpi⟩
    exact ⟨i, m, by rw [update_of_ne hne, hi], hip, hpi⟩

/-! ## The free blocks follow from the used ones -/

theorem BuddyCore.usesBlocks (h : BuddyCore s) :
    UsesBlocks (fun i ↦ orderOf (s.arr i)) (usedAt s) :=
  fun _ _ hused ↦ (h.usedAt_le hused).1

theorem BuddyWf.noFreeBuddies (h : BuddyWf s) :
    NoFreeBuddies (fun i ↦ orderOf (s.arr i)) (usedAt s) := by
  intro i k hal hi hfree hi' hfree'
  have hmark {x : ℕ} (hx : orderOf (s.arr x) = some k) (hnone : usedAt s x = none) : s.arr x = k :=
    by
    rcases h.core.block_cases hx with hblock | hused
    · exact hblock.2
    · rw [hnone] at hused
      cases hused
  have hlt : k < s.numPagesExp := by
    have hin := h.core.tiling.inside hi'
    have hpow : (2 : ℕ) ^ (k + 1) = 2 * 2 ^ k := by ring
    exact (Nat.pow_le_pow_iff_right (by decide)).1 (by omega : 2 ^ (k + 1) ≤ 2 ^ s.numPagesExp)
  exact h.noFreePair i k hlt hal ⟨hmark hi hfree, hmark hi' hfree'⟩

theorem FreeBlock.of_usedAt_eq (h : BuddyWf s) (h' : BuddyWf s')
    (hn : s'.numPagesExp = s.numPagesExp) (hused : usedAt s' = usedAt s)
    (hfree : FreeBlock s i k) :
    FreeBlock s' i k := by
  have htiling := h'.core.tiling
  have huses := h'.core.usesBlocks
  have hpair := h'.noFreeBuddies
  rw [hn] at htiling
  rw [hused] at huses hpair
  have hord := h.core.tiling.free_block_unique htiling h.core.usesBlocks huses h.noFreeBuddies hpair
    (hfree.order h.core) hfree.not_used
  refine (h'.core.block_cases hord).resolve_right fun hin ↦ ?_
  rw [hused, hfree.not_used] at hin
  cases hin

theorem freeBlock_iff_of_usedAt_eq (h : BuddyWf s) (h' : BuddyWf s')
    (hn : s'.numPagesExp = s.numPagesExp) (hused : usedAt s' = usedAt s) (i k : ℕ) :
    FreeBlock s i k ↔ FreeBlock s' i k :=
  ⟨FreeBlock.of_usedAt_eq h h' hn hused, FreeBlock.of_usedAt_eq h' h hn.symm hused.symm⟩

/-! ## Requests -/

/-- A request of `size` pages is served with the block of order `k` at `idx`: the smallest order
that is enough, at the head of a free block of the smallest sufficient order. -/
structure Served (s : Buddy) (size : ℕ) (s' : Buddy) (idx k : ℕ) : Prop where
  order : IsLeast {k | size ≤ 2 ^ k} k
  source : ∃ m, FreeBlock s idx m ∧ k ≤ m ∧ ∀ i j, FreeBlock s i j → size ≤ 2 ^ j → m ≤ j
  free_before : ∀ p, idx ≤ p → p < idx + 2 ^ k → PageFree s p
  used_after : usedAt s' idx = some k
  other_pages : ∀ p < s.numPages, p < idx ∨ idx + 2 ^ k ≤ p →
    (PageUsed s' p ↔ PageUsed s p) ∧ (PageFree s' p ↔ PageFree s p)

/-- The outcomes of `buddy_malloc`: `NULL` exactly when the request is empty or too large, and a
block otherwise. -/
structure RequestHandled (s : Buddy) (size : ℕ) (block : Option ℕ) (s' : Buddy) : Prop where
  null_iff : blockPtr block = 0 ↔ size = 0 ∨ ∀ i k, FreeBlock s i k → 2 ^ k < size
  unchanged : blockPtr block = 0 → SameMemory s s'
  served : blockPtr block ≠ 0 → ∃ idx k, blockPtr block = idx * pageSize ∧ Served s size s' idx k

theorem isLeast_order {size : ℕ} (henough : size ≤ 2 ^ k) (htight : k = 0 ∨ 2 ^ (k - 1) < size) :
    IsLeast {k | size ≤ 2 ^ k} k := by
  refine ⟨henough, fun j (hj : size ≤ 2 ^ j) ↦ ?_⟩
  rcases htight with rfl | htight
  · exact Nat.zero_le j
  · have hlt := (Nat.pow_lt_pow_iff_right (by decide)).1 (htight.trans_le hj)
    omega

theorem Allocated.served {size m : ℕ} (h : Allocated s size s' idx m k)
    (hcore : BuddyCore s) : Served s size s' idx k := by
  have hfree : FreeBlock s idx m := ⟨h.order_le, h.free⟩
  have hpow : 2 ^ k ≤ 2 ^ m := Nat.pow_le_pow_right (by decide) h.cut_le
  have hn : s'.numPages = s.numPages := congrArg (2 ^ ·) h.frame.numPagesExp
  refine ⟨isLeast_order h.enough h.tight,
    ⟨m, hfree, h.cut_le, fun i j hj ↦ h.smallest i j hj.1 hj.2⟩,
    fun p hip hpi ↦ ⟨idx, m, hfree, hip, by omega⟩, ?_, fun p hp hout ↦ ?_⟩
  · rw [h.usedAt_eq hcore, update_self]
  · have hused : PageUsed s' p ↔ PageUsed s p := by
      rw [pageUsed_update hfree.not_used (h.usedAt_eq hcore)]
      exact or_iff_left (by omega)
    refine ⟨hused, ?_⟩
    rw [h.core.pageFree_iff (hn ▸ hp), hcore.pageFree_iff hp, hused]

/-- With page 0 in use, `buddy_malloc` finds a block exactly when there is one, and takes the best
one. -/
theorem buddyMalloc_correct {s : Buddy} (h : BuddyWf s) (hzero : PageUsed s 0) :
    ∀ size < 2 ^ 32, ∃ block s', buddyMalloc s size = .ok (block, s') ∧
      RequestHandled s size block s' := by
  intro size _
  obtain ⟨⟨block, s'⟩, hrun, hpost⟩ := buddyMalloc_spec h.core h.noFreePair size
  refine ⟨block, s', hrun, ?_⟩
  cases block with
  | none =>
    have hnull : blockPtr none = 0 := rfl
    rcases hpost with ⟨hsize, rfl⟩ | ⟨hsize, rfl, hsmall⟩
    · exact ⟨by simp [hnull, hsize], fun _ ↦ ⟨_, rfl⟩, fun hne ↦ absurd hnull hne⟩
    · refine ⟨?_, fun _ ↦ ⟨_, rfl⟩, fun hne ↦ absurd hnull hne⟩
      simp only [hnull, true_iff]
      exact .inr fun i k hfree ↦ hsmall i k hfree.1 hfree.2
  | some idx =>
    obtain ⟨m, k, halloc⟩ := hpost
    have hfree : FreeBlock s idx m := ⟨halloc.order_le, halloc.free⟩
    -- Page 0 is in use, so a free block does not start there.
    have hidx : idx ≠ 0 := by
      rintro rfl
      obtain ⟨k', hused⟩ := hzero.zero
      rw [hfree.not_used] at hused
      cases hused
    have hptr : blockPtr (some idx) ≠ 0 := Nat.mul_ne_zero hidx (by decide)
    refine ⟨iff_of_false hptr ?_, fun heq ↦ absurd heq hptr, fun _ ↦
      ⟨idx, k, rfl, halloc.served h.core⟩⟩
    rintro (hsize | hsmall)
    · exact halloc.pos.ne' hsize
    · have hlt := hsmall idx m hfree
      have hpow : 2 ^ k ≤ 2 ^ m := Nat.pow_le_pow_right (by decide) halloc.cut_le
      have := halloc.enough
      omega

theorem buddyMalloc_correct_onePageBoot :
    ∃ s, onePageBoot = .ok s ∧ BuddyWf s ∧ PageUsed s 0 ∧
      ∀ size < 2 ^ 32, ∃ block s', buddyMalloc s size = .ok (block, s') ∧
        RequestHandled s size block s' := by
  obtain ⟨s, hboot, hreach, hmark, -⟩ := onePageBoot_ok
  have hwf := (hreach.wf (by decide)).1
  have hused : PageUsed s 0 := by
    refine ⟨0, 0, ?_, le_rfl, by decide⟩
    rw [usedAt, hmark]
    rfl
  exact ⟨s, hboot, hwf, hused, buddyMalloc_correct hwf hused⟩

/-! ## Releases -/

/-- The pointer is the address of the first page of a used block of order `k`. -/
def HeadOfUsed (s : Buddy) (ptr idx k : ℕ) : Prop := ptr = idx * pageSize ∧ usedAt s idx = some k

/-- `buddy_free` ignores every pointer but the heads of used blocks, and frees the pages of such a
block. -/
structure ReleaseHandled (s : Buddy) (ptr : ℕ) (s' : Buddy) : Prop where
  ignored : (∀ idx k, ¬ HeadOfUsed s ptr idx k) → SameMemory s s'
  released : ∀ idx k, HeadOfUsed s ptr idx k → s'.numPagesExp = s.numPagesExp ∧
    usedAt s' = update (usedAt s) idx none ∧
    ∀ p < s.numPages, (PageFree s' p ↔ PageFree s p ∨ (idx ≤ p ∧ p < idx + 2 ^ k))

theorem buddyFree_handled (h : BuddyWf s) (ptr : ℕ) :
    Returns (buddyFree s ptr) (ReleaseHandled s ptr) := by
  apply (buddyFree_spec h.core h.noFreePair ptr).mono
  rintro s' ⟨hcore, -, ⟨idx, k, hptr, hused, hframe, husedAt⟩ | ⟨hnone, msg, -, rfl⟩⟩
  · refine ⟨fun hno ↦ absurd ⟨hptr, hused⟩ (hno idx k), ?_⟩
    rintro idx' k' ⟨hptr', hused'⟩
    obtain rfl : idx = idx' := Nat.eq_of_mul_eq_mul_right (by decide : 0 < pageSize)
      (hptr.symm.trans hptr')
    obtain rfl := Option.mem_unique hused hused'
    refine ⟨hframe.numPagesExp, husedAt, fun p hp ↦ ?_⟩
    have hp' : p < s'.numPages := by
      rwa [show s'.numPages = s.numPages from congrArg (2 ^ ·) hframe.numPagesExp]
    rw [hcore.pageFree_iff hp', h.core.pageFree_iff hp, pageUsed_release h.core hused husedAt]
    tauto
  · exact ⟨fun _ ↦ ⟨_, rfl⟩, fun idx k hhead ↦ absurd hhead.2 (hnone idx k hhead.1)⟩

/-- In every run `buddy_free` releases used blocks and ignores other pointers, and the free blocks
are determined by the used ones. -/
theorem buddyFree_history_independent {usableEnd : ℕ} (hend : usableEnd ≤ 2 ^ 42) :
    ∀ s, BuddyReachable usableEnd s →
      (∀ ptr < 2 ^ 64, ∃ s', buddyFree s ptr = .ok s' ∧ ReleaseHandled s ptr s') ∧
      ∀ usableEnd' ≤ 2 ^ 42, ∀ s', BuddyReachable usableEnd' s' → s'.numPagesExp = s.numPagesExp →
        usedAt s' = usedAt s → ∀ i k, FreeBlock s i k ↔ FreeBlock s' i k := by
  intro s hs
  have hwf := (hs.wf hend).1
  refine ⟨fun ptr _ ↦ buddyFree_handled hwf ptr, fun usableEnd' hend' s' hs' hn hused ↦ ?_⟩
  exact freeBlock_iff_of_usedAt_eq hwf (hs'.wf hend').1 hn hused

/-- The boot of the Raspberry Pi 3, and the same boot with a page allocated and released. -/
theorem buddyFree_history_independent_onePageBoot :
    ∃ s s₁ s₂ idx, onePageBoot = .ok s ∧ buddyMalloc s 1 = .ok (some idx, s₁) ∧
      buddyFree s₁ (idx * pageSize) = .ok s₂ ∧
      (∀ ptr < 2 ^ 64, ∃ s', buddyFree s ptr = .ok s' ∧ ReleaseHandled s ptr s') ∧
      ∀ i k, FreeBlock s i k ↔ FreeBlock s₂ i k := by
  obtain ⟨s, hboot, hs, -, hone⟩ := onePageBoot_ok
  have hwf := (hs.wf (by decide)).1
  obtain ⟨idx, s₁, hmalloc⟩ := buddyMalloc_succeeds hwf Nat.one_pos (Nat.zero_le _) hone le_rfl
  obtain ⟨m, k, halloc⟩ := (buddyMalloc_spec hwf.core hwf.noFreePair 1).post_of_eq hmalloc
  have hs₁ : BuddyReachable 0x3b400000 s₁ := by
    refine .next hs ⟨.malloc 1, (by decide : 1 < 2 ^ 32), ?_⟩
    rw [BuddyOp.run, hmalloc]
    rfl
  obtain ⟨s₂, hfree, -, hframe, hused⟩ := buddyFree_used ⟨halloc.core, halloc.noFreePair⟩
    (halloc.usedAt_idx hwf.core)
  have hptr : idx * pageSize < 2 ^ 64 := by
    have hidx := halloc.core.lt (halloc.core.usedAt_le (halloc.usedAt_idx hwf.core)).1
    have hpow : s₁.numPages ≤ 2 ^ 30 := Nat.pow_le_pow_right (by decide) halloc.core.exp_le
    unfold pageSize
    omega
  have hs₂ : BuddyReachable 0x3b400000 s₂ := .next hs₁ ⟨.free (idx * pageSize), hptr, hfree⟩
  have hsame : usedAt s₂ = usedAt s := by
    rw [hused, halloc.usedAt_eq hwf.core, update_idem, ← halloc.not_used, update_eq_self]
  obtain ⟨hrelease, hblocks⟩ := buddyFree_history_independent (by decide) s hs
  exact ⟨s, s₁, s₂, idx, hboot, hmalloc, hfree, hrelease, hblocks 0x3b400000 (by decide) s₂ hs₂
    (hframe.numPagesExp.trans halloc.frame.numPagesExp) hsame⟩

end CapstoneKernel.Mem
