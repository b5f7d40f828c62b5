import CapstoneKernel.Mem.BuddySpec

/-!
# Cutting, merging, clearing and reserving blocks

The recursive routines of the buddy allocator, each by induction along its own recursion.  The
condition that no two buddies are free is what the recursion repairs: while a block climbs in
`buddy_merge_block`, or descends in `memory_reserve`, the only free pair is the one it belongs to.
-/

namespace CapstoneKernel.Mem

open IntrusiveList BuddyTiling Execution Function Writes

variable {s s' : Buddy} {k exp size idx m low : ℕ}

/-! ## Cutting -/

/-- The mark `buddy_cut_block` computes with `++` is the used mark of the next lower order. -/
theorem usedMark_succ_add_one (k : ℕ) :
    (if usedMark (k + 1) + 1 = 0 then negZero else usedMark (k + 1) + 1) = usedMark k := by
  have hsucc : usedMark (k + 1) + 1 = -(k : ℤ) := by
    rw [usedMark, if_neg (Nat.succ_ne_zero k)]
    push_cast
    ring
  rw [hsucc]
  by_cases hk : k = 0
  · simp [hk, usedMark]
  · rw [usedMark, if_neg hk, if_neg (by omega)]

variable {i j fuel : ℕ}

/-- One round of `buddy_cut_block`: no free pair can arise, since the lower half stays used. -/
theorem noFreePair_cut (h : NoFreePair s) (hframe : SameFrame s s') (hal : 2 ^ (k + 1) ∣ i)
    (harr : s'.arr = update (update s.arr i (usedMark k)) (i + 2 ^ k) k) :
    NoFreePair s' := by
  intro j m hm hjal hpair
  rw [hframe.numPagesExp] at hm
  rw [harr] at hpair
  obtain ⟨hlow, hhigh⟩ := hpair
  have hnot {x : ℕ} (hx : update (update s.arr i (usedMark k)) (i + 2 ^ k) k x = (m : ℤ)) :
      x = i + 2 ^ k ∧ m = k ∨ x ≠ i ∧ s.arr x = m := by
    rw [update_apply_eq_iff, update_apply_eq_iff] at hx
    have := usedMark_ne_cast k m
    omega
  rcases hnot hlow with ⟨rfl, rfl⟩ | ⟨hji, hj⟩
  · exact not_dvd_add_half hal hjal
  · rcases hnot hhigh with ⟨hju, rfl⟩ | ⟨-, hj'⟩
    · exact hji (by omega)
    · exact h j m hm hjal ⟨hj, hj'⟩

/-- Two marks that say of no used block more than the old ones. -/
theorem usedAt_update_update {a b : ℤ} (harr : s'.arr = update (update s.arr i a) j b)
    (hi : usedAt s i = usedOrder a) (hj : usedAt s j = usedOrder b) : usedAt s' = usedAt s := by
  change usedOrder ∘ s'.arr = usedAt s
  rw [harr, comp_update, comp_update, ← hi, ← hj]
  exact (congrArg (update · j _) (update_eq_self i (usedAt s))).trans (update_eq_self j (usedAt s))

/-- Freeing the upper half of a used block is not visible in the other used blocks. -/
theorem usedAt_cut (harr : s'.arr = update (update s.arr i (usedMark k)) (i + 2 ^ k) k)
    (hempty : s.arr (i + 2 ^ k) = empty) (hj : j ≠ i) : usedAt s' j = usedAt s j := by
  rw [usedAt, harr]
  by_cases hju : j = i + 2 ^ k
  · rw [hju, update_self, usedOrder_cast, usedAt, hempty, usedOrder_empty]
  · rw [update_of_ne hju, update_of_ne hj, usedAt]

/-- What `buddy_cut_block` achieves on a used block: the block shrinks to the smallest order that
holds the request, and all other used blocks stay. -/
structure CutResult (s : Buddy) (idx requiredSize exp : ℕ) (s' : Buddy) (k : ℕ) : Prop where
  core : BuddyCore s'
  noFreePair : NoFreePair s'
  frame : SameFrame s s'
  order_le : k ≤ exp
  mark : s'.arr idx = usedMark k
  enough : requiredSize ≤ 2 ^ exp → requiredSize ≤ 2 ^ k
  tight : k = 0 ∨ 2 ^ (k - 1) < requiredSize
  usedAt_of_ne : ∀ j, j ≠ idx → usedAt s' j = usedAt s j

theorem buddyCutBlock_spec (idx requiredSize : ℕ) (h : BuddyCore s)
    (hpair : NoFreePair s) (hexp : exp ≤ 30) (harr : s.arr idx = usedMark exp) :
    Returns (buddyCutBlock idx requiredSize exp s)
      (fun s' ↦ ∃ k, CutResult s idx requiredSize exp s' k) := by
  induction exp generalizing s with
  | zero =>
    apply Returns.ok
    exact ⟨0, h.disableInt.enableInt, hpair, (SameFrame.refl _).unmask, le_rfl, harr, id,
      .inl rfl, fun _ _ ↦ rfl⟩
  | succ exp ih =>
    unfold buddyCutBlock
    by_cases hstop : 2 ^ exp < requiredSize
    · simp only [hstop, if_true]
      apply Returns.ok
      exact ⟨exp + 1, h.disableInt.enableInt, hpair, (SameFrame.refl _).unmask, le_rfl, harr, id,
        .inr hstop, fun _ _ ↦ rfl⟩
    · have hord : orderOf (s.arr idx) = some (exp + 1) := harr ▸ orderOf_usedMark hexp
      have hidx : idx < s.disableInt.numPages := h.lt hord
      obtain ⟨s₁, hinsert, hcore₁, hframe₁, harr₁⟩ := h.disableInt.cutUsed harr hexp
      have hpair₁ : NoFreePair s₁ :=
        noFreePair_cut (s := s.disableInt) hpair hframe₁ (h.tiling.aligned hord) harr₁
      have hmark₁ : s₁.arr idx = usedMark exp := by
        rw [harr₁, update_of_ne (update_half_ne idx exp).symm, update_self]
      have hstored : (s.disableInt.stored idx (usedMark (exp + 1) + 1)).stored idx (usedMark exp) =
          s.disableInt.stored idx (usedMark exp) := by simp [Buddy.stored]
      obtain ⟨s₂, hrun, k, hcut⟩ := ih hcore₁ hpair₁ (by omega) hmark₁
      refine ⟨s₂.enableInt, ?_, ?_⟩
      · simp only [hstop, if_false, readArr_eq hidx, ok_bind]
        rw [show s.disableInt.arr idx = usedMark (exp + 1) from harr, writeArr_eq _ hidx]
        -- The stores of the source leave the mark of the next lower order.
        have hmark := usedMark_succ_add_one exp
        by_cases hzero : usedMark (exp + 1) + 1 = 0
        · rw [if_pos hzero] at hmark
          simp only [ok_bind, hzero, if_true, pure, Except.pure]
          rw [hmark, writeArr_eq _ (show idx <
            (s.disableInt.stored idx 0).numPages from hidx), ← hzero,
            hstored]
          simp only [ok_bind, hinsert, hrun]
        · rw [if_neg hzero] at hmark
          simp only [ok_bind, pure, Except.pure]
          rw [if_neg hzero, hmark]
          simp only [ok_bind, hinsert, hrun]
      · refine ⟨k, hcut.core.enableInt, hcut.noFreePair, (hframe₁.trans hcut.frame).unmask,
          hcut.order_le.trans (Nat.le_succ exp), hcut.mark, fun _ ↦ hcut.enough (by omega),
          hcut.tight, fun j hj ↦ ?_⟩
        calc
          usedAt s₂.enableInt j = usedAt s₁ j := hcut.usedAt_of_ne j hj
          _ = usedAt s j := usedAt_cut (s := s) harr₁ (h.upper_half_empty hord) hj

/-! ## Allocating -/

theorem Buddy.disableInt_enableInt (s : Buddy) : s.disableInt.enableInt = s := by
  simp [Buddy.disableInt, Buddy.enableInt]

/-- The search loop of `buddy_malloc` stops at the first nonempty list of sufficient order. -/
theorem buddyMallocSearch_spec (s : Buddy) (size : ℕ) {listIdx : ℕ}
    (hlist : listIdx ≤ s.numPagesExp) (hfuel : s.numPagesExp + 1 ≤ fuel + listIdx) :
    Returns (buddyMallocSearch s size fuel listIdx) (fun found ↦
      (∀ k, listIdx ≤ k → k ≤ s.numPagesExp → (∀ m, found = some m → k < m) → size ≤ 2 ^ k →
        s.freeBlocksList k = none) ∧
      ∀ m, found = some m → m ≤ s.numPagesExp ∧ size ≤ 2 ^ m ∧ s.freeBlocksList m ≠ none) := by
  induction fuel generalizing listIdx with
  | zero => omega
  | succ fuel ih =>
    have hread : s.readList listIdx = .ok (s.freeBlocksList listIdx) := if_pos hlist
    unfold buddyMallocSearch
    rw [hread, ok_bind]
    by_cases hskip : 2 ^ listIdx < size ∨ s.freeBlocksList listIdx = none
    · have hhere : size ≤ 2 ^ listIdx → s.freeBlocksList listIdx = none :=
        fun hsize ↦ hskip.resolve_left (by omega)
      rw [if_pos hskip]
      by_cases hlast : s.numPagesExp < listIdx + 1
      · rw [if_pos hlast]
        apply Returns.ok
        refine ⟨fun k hk hk' _ hsize ↦ ?_, by simp⟩
        obtain rfl : k = listIdx := by omega
        exact hhere hsize
      · rw [if_neg hlast]
        apply (ih (by omega) (by omega)).mono
        intro found hfound
        refine ⟨fun k hk hk' hbelow hsize ↦ ?_, hfound.2⟩
        by_cases hkl : k = listIdx
        · subst hkl
          exact hhere hsize
        · exact hfound.1 k (by omega) hk' hbelow hsize
    · rw [if_neg hskip]
      apply Returns.ok
      refine ⟨fun k hk _ hbelow _ ↦ ?_, fun m hm ↦ ?_⟩
      · have := hbelow listIdx rfl
        omega
      · cases hm
        exact ⟨hlist, by omega, fun hnone ↦ hskip (.inr hnone)⟩

/-- What `buddy_malloc` achieves when it finds a block: the smallest sufficient free block, of
order `m`, gives up the pages of a used block of order `k`. -/
structure Allocated (s : Buddy) (size : ℕ) (s' : Buddy) (idx m k : ℕ) : Prop where
  core : BuddyCore s'
  noFreePair : NoFreePair s'
  frame : SameFrame s s'
  pos : 0 < size
  order_le : m ≤ s.numPagesExp
  free : s.arr idx = m
  smallest : ∀ i j, j ≤ s.numPagesExp → s.arr i = j → size ≤ 2 ^ j → m ≤ j
  cut_le : k ≤ m
  enough : size ≤ 2 ^ k
  tight : k = 0 ∨ 2 ^ (k - 1) < size
  mark : s'.arr idx = usedMark k
  usedAt_of_ne : ∀ j, j ≠ idx → usedAt s' j = usedAt s j

section

variable (h : Allocated s size s' idx m k)
include h

theorem Allocated.usedAt_idx (hcore : BuddyCore s) : usedAt s' idx = some k := by
  rw [usedAt, h.mark, usedOrder_usedMark]
  exact h.cut_le.trans (h.order_le.trans hcore.exp_le)

theorem Allocated.not_used : usedAt s idx = none := by
  rw [usedAt, h.free, usedOrder_cast]

theorem Allocated.usedAt_eq (hcore : BuddyCore s) : usedAt s' = update (usedAt s) idx (some k) := by
  exact eq_update_iff.2 ⟨h.usedAt_idx hcore, h.usedAt_of_ne⟩

end

theorem Allocated.order_one (h : Allocated s 1 s' idx m k) : k = 0 := by
  rcases h.tight with hk | hk
  · exact hk
  · have : 0 < 2 ^ (k - 1) := by positivity
    omega

/-- The two outcomes of `buddy_malloc`. -/
def MallocPost (s : Buddy) (size : ℕ) : Option ℕ × Buddy → Prop
  | (none, s') => (size = 0 ∧ s' = s) ∨
      (0 < size ∧ s' = s.print .noEnoughSpace ∧ ∀ i k, k ≤ s.numPagesExp → s.arr i = k → 2 ^ k < size)
  | (some idx, s') => ∃ m k, Allocated s size s' idx m k

theorem buddyMalloc_spec (h : BuddyCore s) (hpair : NoFreePair s) (size : ℕ) :
    Returns (buddyMalloc s size) (MallocPost s size) := by
  unfold buddyMalloc
  by_cases hzero : size = 0
  · rw [if_pos hzero]
    apply Returns.ok
    exact .inl ⟨hzero, s.disableInt_enableInt⟩
  · rw [if_neg hzero]
    apply (buddyMallocSearch_spec s.disableInt size (Nat.zero_le _) le_rfl).bind
    rintro (_ | m) ⟨hnone, hsome⟩
    · apply Returns.ok
      refine .inr ⟨by omega, by rw [s.disableInt_enableInt], fun i k hk harr ↦ ?_⟩
      by_contra hsize
      have hhead := hnone k (Nat.zero_le k) hk (by simp) (by omega)
      exact h.lists.head_eq_none hk hhead (h.lt (h.order_of_free hk harr)) harr
    · obtain ⟨hm, hsize, hhead⟩ := hsome m rfl
      obtain ⟨idx, hidx⟩ := Option.ne_none_iff_exists'.1 hhead
      have hread : s.disableInt.readList m = .ok (some idx) := by
        rw [Buddy.readList, if_pos hm, hidx]
      obtain ⟨hlt, hfree⟩ := h.lists.head_spec hm hidx
      have hsmallest : ∀ i j, j ≤ s.numPagesExp → s.arr i = j → size ≤ 2 ^ j → m ≤ j := by
        intro i j hj harr hsize'
        by_contra hlt'
        have hhead' := hnone j (Nat.zero_le j) hj (by simpa using by omega) hsize'
        exact h.lists.head_eq_none hj hhead' (h.lt (h.order_of_free hj harr)) harr
      obtain ⟨hdelete, hcore₁⟩ := h.disableInt.takeFree hm hfree
      have hpair₁ : NoFreePair (s.disableInt.deleted idx m) :=
        noFreePair_deleted (NoFreePairExcept.of_noFreePair (s := s.disableInt) hpair idx m)
      have hexp : m ≤ 30 := hm.trans h.exp_le
      obtain ⟨s₂, hcutRun, k, hcut⟩ := buddyCutBlock_spec idx size hcore₁ hpair₁ hexp
        (deleted_mark s.disableInt idx m)
      refine ⟨(some idx, s₂.enableInt), ?_, m, k, hcut.core.enableInt, hcut.noFreePair, ?_,
        by omega, hm,
        hfree, hsmallest, hcut.order_le, hcut.enough hsize, hcut.tight, hcut.mark, fun j hj ↦ ?_⟩
      · simp only [hread, ok_bind, hdelete, hcutRun, pure, Except.pure]
      · exact ((sameFrame_deleted s.disableInt idx m).trans hcut.frame).unmask
      · calc
          usedAt s₂.enableInt j = usedAt (s.disableInt.deleted idx m) j := hcut.usedAt_of_ne j hj
          _ = usedAt s j := by
            rw [usedAt_deleted hexp, update_of_ne hj]
            rfl

/-! ## Merging -/

/-- After a join the only free pair is the one of the joined block. -/
theorem noFreePairExcept_join (h : NoFreePairExcept s idx exp)
    (hexp : s.numPagesExp ≤ 30) (hframe : SameFrame s s') (hidx : idx = low ∨ idx = low + 2 ^ exp)
    (harr : s'.arr = update (update s.arr low (exp + 1 : ℕ)) (low + 2 ^ exp) empty) :
    NoFreePairExcept s' low (exp + 1) := by
  intro i k hk hal hlow hhigh
  rw [hframe.numPagesExp] at hk
  have hcases {x : ℕ} (hx : s'.arr x = k) :
      x = low ∧ k = exp + 1 ∨ x ≠ low ∧ x ≠ low + 2 ^ exp ∧ s.arr x = k := by
    rw [harr, update_apply_eq_iff, update_apply_eq_iff] at hx
    have : empty ≠ k := empty_ne_cast (by omega)
    omega
  rcases hcases hlow with ⟨hi, rfl⟩ | ⟨hil, hih, hi⟩
  · exact ⟨rfl, .inl hi⟩
  · rcases hcases hhigh with ⟨hi', rfl⟩ | ⟨hil', hih', hi'⟩
    · exact ⟨rfl, .inr hi'⟩
    · -- Neither page belongs to the joined halves, so the pair was free before.
      have hpair := (h i k hk hal hi hi').2
      rcases hidx with rfl | rfl
      · exact absurd hpair (by simp [hil, hil'])
      · exact absurd hpair (by simp [hih, hih'])

theorem usedAt_join (hlow : s.arr low = exp) (hhigh : s.arr (low + 2 ^ exp) = exp)
    (harr : s'.arr = update (update s.arr low (exp + 1 : ℕ)) (low + 2 ^ exp) empty) :
    usedAt s' = usedAt s := by
  refine usedAt_update_update harr ?_ ?_
  · rw [usedAt, hlow, usedOrder_cast, usedOrder_cast]
  · rw [usedAt, hhigh, usedOrder_cast, usedOrder_empty]

theorem buddy_pages_le {n : ℕ} (hexp : exp < n) (hal : 2 ^ (exp + 1) ∣ low) (hlow : low < 2 ^ n) :
    low + 2 ^ (exp + 1) ≤ 2 ^ n :=
  add_le_of_dvd_of_lt hal (pow_dvd_pow 2 hexp) hlow

theorem noFreePair_of_buddy (h : NoFreePairExcept s idx exp)
    (hidx : idx = low ∨ idx = low + 2 ^ exp) (hal : 2 ^ (exp + 1) ∣ low)
    (hbuddy : ¬ (s.arr low = exp ∧ s.arr (low + 2 ^ exp) = exp)) : NoFreePair s := by
  rintro i k hk hial ⟨hlow, hhigh⟩
  obtain ⟨rfl, hi⟩ := h i k hk hial hlow hhigh
  -- The aligned page of the pair that contains `idx` is `low`.
  obtain rfl : i = low := by
    rcases hidx with rfl | rfl <;> rcases hi with rfl | hi
    · rfl
    · exact absurd hal (hi ▸ not_dvd_add_half hial)
    · exact absurd hial (not_dvd_add_half hal)
    · omega
  exact hbuddy ⟨hlow, hhigh⟩

theorem buddyMergeLoop_spec (h : BuddyCore s) (hexp : exp ≤ s.numPagesExp)
    (hfuel : s.numPagesExp < fuel + exp) (harr : s.arr idx = exp)
    (hpair : NoFreePairExcept s idx exp) :
    Returns (buddyMergeLoop fuel idx exp s)
      (fun s' ↦ BuddyCore s' ∧ NoFreePair s' ∧ SameFrame s s' ∧ usedAt s' = usedAt s) := by
  induction fuel generalizing idx exp s with
  | zero => omega
  | succ fuel ih =>
    unfold buddyMergeLoop
    by_cases htop : exp = s.numPagesExp
    · simp only [show s.disableInt.numPagesExp = s.numPagesExp from rfl, htop, if_true]
      apply Returns.ok
      refine ⟨h.disableInt.enableInt, ?_, (SameFrame.refl _).unmask, rfl⟩
      rintro i k hk hal ⟨hlow, hhigh⟩
      have := (hpair i k hk hal hlow hhigh).1
      exact absurd (this.trans htop) (ne_of_lt hk)
    · have hlt : exp + 1 ≤ s.numPagesExp := by omega
      have hidx : idx < s.numPages := h.lt (h.order_of_free hexp harr)
      simp only [show s.disableInt.numPagesExp = s.numPagesExp from rfl, htop, if_false]
      -- The rest of the round, for a page that is either half of the pair at `low`.
      have hround (low buddyIdx : ℕ) (hal : 2 ^ (exp + 1) ∣ low) (hlow : low < s.numPages)
          (hab : (idx = low ∧ buddyIdx = low + 2 ^ exp) ∨ (idx = low + 2 ^ exp ∧ buddyIdx = low)) :
          Returns (do
            if (← s.disableInt.readArr buddyIdx) ≠ exp then pure s.disableInt.enableInt
            else do
              let s ← buddyDeleteFreeBlock s.disableInt idx exp
              let s ← buddyDeleteFreeBlock s buddyIdx exp
              let s ← buddyInsertFreeBlock s (min idx buddyIdx) (exp + 1)
              let s ← s.writeArr (max idx buddyIdx) empty
              let s ← buddyMergeLoop fuel (min idx buddyIdx) (exp + 1) s
              pure s.enableInt)
            (fun s' ↦ BuddyCore s' ∧ NoFreePair s' ∧ SameFrame s s' ∧ usedAt s' = usedAt s) := by
        have hside : idx = low ∨ idx = low + 2 ^ exp := hab.imp And.left And.left
        have hbuddy : buddyIdx < s.disableInt.numPages := by
          have hin := buddy_pages_le hlt hal hlow
          obtain ⟨hpow, hpos⟩ := two_pow_succ exp
          change buddyIdx < 2 ^ s.numPagesExp
          omega
        rw [readArr_eq hbuddy, ok_bind]
        by_cases hfree : s.disableInt.arr buddyIdx = exp
        · have hhalves : s.arr low = exp ∧ s.arr (low + 2 ^ exp) = exp := by
            rcases hab with ⟨rfl, rfl⟩ | ⟨rfl, rfl⟩
            · exact ⟨harr, hfree⟩
            · exact ⟨hfree, harr⟩
          have hmin : min idx buddyIdx = low := by
            rcases hab with ⟨rfl, rfl⟩ | ⟨rfl, rfl⟩ <;> simp
          have hmax : max idx buddyIdx = low + 2 ^ exp := by
            rcases hab with ⟨rfl, rfl⟩ | ⟨rfl, rfl⟩ <;> simp
          obtain ⟨s₁, s₂, s₃, s₄, hrun₁, hrun₂, hrun₃, hrun₄, hcore, hframe, harr₄⟩ :=
            h.disableInt.joinFree hlt hal hhalves.1 hhalves.2 hab
          have hpair₄ : NoFreePairExcept s₄ low (exp + 1) :=
            noFreePairExcept_join (s := s.disableInt) hpair h.exp_le hframe hside harr₄
          have hlow₄ : s₄.arr low = (exp + 1 : ℕ) := by
            rw [harr₄, update_of_ne (update_half_ne low exp).symm, update_self]
          have hn : s₄.numPagesExp = s.numPagesExp := hframe.numPagesExp
          obtain ⟨s₅, hrun₅, hcore₅, hpair₅, hframe₅, hused₅⟩ :=
            ih hcore (by omega) (by omega) hlow₄ hpair₄
          refine ⟨s₅.enableInt, ?_, hcore₅.enableInt, hpair₅, (hframe.trans hframe₅).unmask, ?_⟩
          · simp only [hfree, ne_eq, not_true_eq_false, if_false, hmin, hmax, hrun₁, hrun₂, hrun₃,
              hrun₄, hrun₅, ok_bind, pure, Except.pure]
          · calc
              usedAt s₅.enableInt = usedAt s₄ := hused₅
              _ = usedAt s := usedAt_join (s := s.disableInt) hhalves.1 hhalves.2 harr₄
        · simp only [ne_eq, hfree, not_false_eq_true, if_true]
          apply Returns.ok
          refine ⟨h.disableInt.enableInt, ?_, (SameFrame.refl _).unmask, rfl⟩
          apply noFreePair_of_buddy hpair hside hal
          rcases hab with ⟨rfl, rfl⟩ | ⟨rfl, rfl⟩
          · exact fun hboth ↦ hfree hboth.2
          · exact fun hboth ↦ hfree hboth.1
      rcases dvd_or_dvd_sub (h.tiling.aligned (h.order_of_free hexp harr)) with hal | ⟨hle, hal⟩
      · simp only [Nat.mod_eq_zero_of_dvd hal, if_true, pure_bind]
        exact hround idx (idx + 2 ^ exp) hal hidx (.inl ⟨rfl, rfl⟩)
      · have hodd : ¬ idx % 2 ^ (exp + 1) = 0 := by
          intro hzero
          have := not_dvd_add_half hal
          rw [Nat.sub_add_cancel hle] at this
          exact this (Nat.dvd_of_mod_eq_zero hzero)
        simp only [hodd, if_false, hle, if_true, pure_bind]
        exact hround (idx - 2 ^ exp) (idx - 2 ^ exp) hal (by omega) (.inr ⟨by omega, rfl⟩)

theorem buddyMergeBlock_spec (h : BuddyCore s) (hexp : exp ≤ s.numPagesExp)
    (harr : s.arr idx = exp) (hpair : NoFreePairExcept s idx exp) :
    Returns (buddyMergeBlock s idx exp)
      (fun s' ↦ BuddyCore s' ∧ NoFreePair s' ∧ SameFrame s s' ∧ usedAt s' = usedAt s) :=
  buddyMergeLoop_spec h hexp (by omega) harr hpair

/-! ## Releasing -/

theorem negZero_ne_usedMark (hk : k ≠ 0) (hle : k ≤ 30) : usedMark k ≠ negZero := by
  rw [usedMark, if_neg hk, negZero, intMax]
  omega

/-- The outcomes of `buddyFree`: the block headed by the page is released, or the pointer is
rejected and nothing but the console changes. -/
def FreePost (s : Buddy) (ptr : ℕ) (s' : Buddy) : Prop :=
  (∃ idx k, ptr = idx * pageSize ∧ usedAt s idx = some k ∧ SameFrame s s' ∧
      usedAt s' = update (usedAt s) idx none) ∨
  ((∀ idx k, ptr = idx * pageSize → usedAt s idx ≠ some k) ∧
    ∃ msg, msg ≠ .nodeNotFound ∧ s' = s.print msg)

theorem buddyFree_spec (h : BuddyCore s) (hpair : NoFreePair s) (ptr : ℕ) :
    Returns (buddyFree s ptr) (fun s' ↦ BuddyCore s' ∧ NoFreePair s' ∧ FreePost s ptr s') := by
  have hreject (msg : Msg) (hmsg : msg ≠ .nodeNotFound)
      (hptr : ∀ idx k, ptr = idx * pageSize → usedAt s idx ≠ some k) :
      Returns (.ok (s.disableInt.enableInt.print msg) : Except Fault Buddy)
        (fun s' ↦ BuddyCore s' ∧ NoFreePair s' ∧ FreePost s ptr s') := by
    rw [s.disableInt_enableInt]
    exact Returns.ok ⟨h.print msg, hpair, .inr ⟨hptr, msg, hmsg, rfl⟩⟩
  unfold buddyFree
  by_cases hptr : s.endAddr ≤ ptr ∨ ptr % pageSize ≠ 0
  · simp only [show s.disableInt.endAddr = s.endAddr from rfl, hptr, if_true]
    apply hreject .invalidPointer (by decide)
    rintro idx k rfl hused
    have hlt := h.lt (h.usedAt_le hused).1
    rcases hptr with hend | hmod
    · rw [h.endAddr_eq] at hend
      have := Nat.le_of_mul_le_mul_right hend (by decide : 0 < pageSize)
      omega
    · exact hmod (Nat.mul_mod_left idx pageSize)
  · simp only [show s.disableInt.endAddr = s.endAddr from rfl, hptr, if_false]
    rw [not_or, not_not] at hptr
    obtain ⟨hend, hmod⟩ := hptr
    obtain ⟨idx, hidx⟩ : ∃ idx, ptr = idx * pageSize := ⟨ptr / pageSize, (Nat.div_mul_cancel
      (Nat.dvd_of_mod_eq_zero hmod)).symm⟩
    have hdiv : ptr / pageSize = idx := by
      rw [hidx]
      exact Nat.mul_div_cancel idx (by decide)
    have hlt : idx < s.disableInt.numPages := by
      rw [h.endAddr_eq, hidx] at hend
      exact Nat.lt_of_mul_lt_mul_right (Nat.lt_of_not_le hend)
    rw [hdiv, readArr_eq hlt, ok_bind]
    have huniq {i k : ℕ} (hi : ptr = i * pageSize) (hk : usedAt s i = some k) :
        usedAt s idx = some k := by
      have : i = idx := Nat.eq_of_mul_eq_mul_right (by decide : 0 < pageSize) (hi.symm.trans hidx)
      rwa [← this]
    by_cases hpos : 0 ≤ s.disableInt.arr idx
    · simp only [hpos, if_true]
      apply hreject .pageNotInUse (by decide)
      intro i k hi hk
      have := (h.usedAt_le (huniq hi hk)).2.1 ▸ usedMark_neg k
      exact absurd hpos (not_le.2 this)
    · simp only [hpos, if_false]
      have hne : s.disableInt.arr idx ≠ empty := by
        intro heq
        rw [heq] at hpos
        exact hpos (by decide)
      simp only [hne, if_false]
      -- A negative mark is the used mark of some order.
      obtain ⟨k, hk⟩ : ∃ k, usedAt s idx = some k := by
        change ∃ k, usedOrder (s.disableInt.arr idx) = some k
        rw [usedOrder, if_pos (not_le.1 hpos), orderOf, if_neg hne]
        split
        · exact ⟨0, rfl⟩
        · exact ⟨_, rfl⟩
      obtain ⟨-, hmark, hkn⟩ := h.usedAt_le hk
      have hlist :
          (if s.disableInt.arr idx = negZero then 0 else (-s.disableInt.arr idx).toNat) = k := by
        rw [show s.disableInt.arr idx = usedMark k from hmark]
        by_cases hzero : k = 0
        · simp [hzero, usedMark]
        · rw [if_neg (negZero_ne_usedMark hzero (hkn.trans h.exp_le)), usedMark, if_neg hzero]
          simp
      rw [hlist]
      obtain ⟨-, hinsert, hcore₁⟩ := h.disableInt.releaseUsed (hkn.trans h.exp_le) hmark
      have hpair₁ : NoFreePairExcept (s.disableInt.inserted idx k) idx k :=
        noFreePairExcept_inserted (s := s.disableInt) hpair idx k
      obtain ⟨s₂, hmerge, hcore₂, hpair₂, hframe₂, hused₂⟩ :=
        buddyMergeBlock_spec hcore₁ hkn (inserted_mark s.disableInt idx k) hpair₁
      refine ⟨s₂.enableInt, ?_, hcore₂.enableInt, hpair₂, .inl ⟨idx, k, hidx, hk, ?_, ?_⟩⟩
      · simp only [hinsert, ok_bind, hmerge, pure, Except.pure]
      · exact ((sameFrame_inserted s.disableInt idx k).trans hframe₂).unmask
      · calc
          usedAt s₂.enableInt = usedAt (s.disableInt.inserted idx k) := hused₂
          _ = update (usedAt s) idx none := usedAt_inserted s.disableInt idx k

end CapstoneKernel.Mem
