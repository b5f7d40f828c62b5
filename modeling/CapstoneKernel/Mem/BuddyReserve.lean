import CapstoneKernel.Mem.BuddyRoutines

/-!
# Reserving a region

`memory_reserve` looks for the block that contains the region.  A larger free block is split down
to the covering block; a covering block that is cut up is cleared first, used parts included.  Its
specification says which block ends up used, and names the one case in which nothing is reserved.
-/

namespace CapstoneKernel.Mem

open IntrusiveList BuddyTiling Execution Function Writes

variable {s s' : Buddy} {idx exp k start stop parent : ℕ}

/-! ## Clearing -/

/-- What `buddy_clear_block` achieves: the block is one free block and nothing else changes. -/
structure Cleared (s : Buddy) (idx exp : ℕ) (s' : Buddy) : Prop where
  core : BuddyCore s'
  frame : SameFrame s s'
  mark : s'.arr idx = exp
  outside : ∀ j, j < idx ∨ idx + 2 ^ exp ≤ j → s'.arr j = s.arr j

/-- The head of a block of order `exp`, free or used, is cleared at once. -/
theorem buddyClearWhole_spec (h : BuddyCore s) (hord : orderOf (s.arr idx) = some exp) :
    Returns (buddyClearWhole exp idx s) (fun result ↦ ∃ s', result = some s' ∧ Cleared s idx exp s') := by
  have hal : idx % 2 ^ exp = 0 := Nat.mod_eq_zero_of_dvd (h.tiling.aligned hord)
  have hexp : exp ≤ 30 := (h.order_le hord).trans h.exp_le
  unfold buddyClearWhole
  simp only [hal, ne_eq, not_true_eq_false, if_false]
  rw [readArr_eq (h.lt hord), ok_bind]
  rcases eq_of_orderOf hord with hfree | hused
  · simp only [hfree, le_refl, if_true]
    exact Returns.ok ⟨s, rfl, h, SameFrame.refl s, hfree, fun _ _ ↦ rfl⟩
  · have hneg := usedMark_neg exp
    have hlt : ¬ (exp : ℤ) ≤ usedMark exp := by omega
    have hmark : (usedMark exp ≠ negZero ∧ usedMark exp ≤ -(exp : ℤ)) ∨
        (usedMark exp = negZero ∧ exp = 0) := by
      by_cases hzero : exp = 0
      · exact .inr ⟨by rw [usedMark, if_pos hzero], hzero⟩
      · exact .inl ⟨negZero_ne_usedMark hzero hexp, by rw [usedMark, if_neg hzero]⟩
    obtain ⟨-, hinsert, hcore⟩ := h.releaseUsed hexp hused
    simp only [hused, hlt, hmark, if_true, if_false, hinsert, ok_bind]
    refine Returns.ok ⟨s.inserted idx exp, rfl, hcore, sameFrame_inserted s idx exp,
      inserted_mark s idx exp, fun j hj ↦ ?_⟩
    have hpos : 0 < 2 ^ exp := by positivity
    exact update_of_ne (by omega) _ _

/-- A smaller head is left to the recursion. -/
theorem buddyClearWhole_smaller (h : BuddyCore s)
    (hal : 2 ^ exp ∣ idx) (hord : orderOf (s.arr idx) = some k) (hlt : k < exp) :
    buddyClearWhole exp idx s = .ok none := by
  have hmod : idx % 2 ^ exp = 0 := Nat.mod_eq_zero_of_dvd hal
  unfold buddyClearWhole
  simp only [hmod, ne_eq, not_true_eq_false, if_false]
  rw [readArr_eq (h.lt hord), ok_bind]
  have hsmall : ¬ (exp : ℤ) ≤ s.arr idx ∧ ¬ ((s.arr idx ≠ negZero ∧ s.arr idx ≤ -(exp : ℤ)) ∨
      (s.arr idx = negZero ∧ exp = 0)) := by
    rcases eq_of_orderOf hord with hval | hval
    · rw [hval]
      unfold negZero intMax
      omega
    · rw [hval]
      unfold usedMark
      split <;> unfold negZero intMax <;> omega
  simp only [ne_eq] at hsmall
  simp only [hsmall, if_false]
  rfl

theorem buddyClearBlock_spec (h : BuddyCore s) (hal : 2 ^ exp ∣ idx)
    (hin : idx + 2 ^ exp ≤ s.numPages) (hord : orderOf (s.arr idx) = some k) (hk : k ≤ exp) :
    Returns (buddyClearBlock exp idx s) (Cleared s idx exp) := by
  induction exp generalizing idx k s with
  | zero =>
    obtain rfl : k = 0 := by omega
    obtain ⟨_, hrun, s', rfl, hcleared⟩ := buddyClearWhole_spec h hord
    unfold buddyClearBlock
    rw [hrun]
    exact Returns.ok hcleared
  | succ exp ih =>
    unfold buddyClearBlock
    by_cases hwhole : k = exp + 1
    · subst hwhole
      obtain ⟨_, hrun, s', rfl, hcleared⟩ := buddyClearWhole_spec h hord
      rw [hrun]
      exact Returns.ok hcleared
    · have hpow : (2 : ℕ) ^ (exp + 1) = 2 * 2 ^ exp := by ring
      have hpos : 0 < 2 ^ exp := by positivity
      rw [buddyClearWhole_smaller h hal hord (by omega), ok_bind]
      obtain ⟨b, hupper, hb⟩ := h.tiling.upper_half hord (by omega) hal hin
      obtain ⟨s₁, hrun₁, hlow⟩ := ih h (dvd_half hal) (by omega) hord (by omega)
      have hn₁ : s₁.numPages = s.numPages := congrArg (2 ^ ·) hlow.frame.numPagesExp
      have hupper₁ : orderOf (s₁.arr (idx + 2 ^ exp)) = some b := by
        rw [hlow.outside _ (.inr le_rfl)]
        exact hupper
      obtain ⟨s₂, hrun₂, hhigh⟩ :=
        ih hlow.core (dvd_add_half hal) (by omega) hupper₁ hb
      have hlow₂ : s₂.arr idx = exp := by
        rw [hhigh.outside idx (.inl (by omega)), hlow.mark]
      have hn₂ : s₂.numPagesExp = s.numPagesExp :=
        hhigh.frame.numPagesExp.trans hlow.frame.numPagesExp
      have hexp : exp + 1 ≤ s.numPagesExp :=
        (Nat.pow_le_pow_iff_right (by norm_num)).1 ((Nat.le_add_left _ _).trans hin)
      obtain ⟨t₁, t₂, t₃, t₄, hdel₁, hdel₂, hins, hstore, hcore, hframe, harr⟩ :=
        hhigh.core.joinFree (by omega) hal hlow₂ hhigh.mark (.inl ⟨rfl, rfl⟩)
      refine ⟨t₄, ?_, hcore, (hlow.frame.trans hhigh.frame).trans hframe, ?_, fun j hj ↦ ?_⟩
      · simp only [hrun₁, hrun₂, hdel₁, hdel₂, hins, hstore, ok_bind]
      · rw [harr, update_of_ne (update_half_ne idx exp).symm, update_self]
      · calc
          t₄.arr j = s₂.arr j := by
            rw [harr, update_of_ne (by omega), update_of_ne (by omega)]
          _ = s₁.arr j := hhigh.outside j (by omega)
          _ = s.arr j := hlow.outside j (by omega)

/-- Clearing leaves no free pair but the one of the cleared block. -/
theorem noFreePairExcept_cleared (h : NoFreePair s)
    (hcleared : Cleared s idx exp s') (hexp : exp ≤ s.numPagesExp) :
    NoFreePairExcept s' idx exp := by
  intro i k hk hal hlow hhigh
  rw [hcleared.frame.numPagesExp] at hk
  have hcore := hcleared.core
  have hn := hcleared.frame.numPagesExp
  have hhead : orderOf (s'.arr idx) = some exp := hcore.order_of_free (by omega) hcleared.mark
  have hcases {x : ℕ} (hx : s'.arr x = k) : x = idx ∧ k = exp ∨ s.arr x = k := by
    by_cases hout : x < idx ∨ idx + 2 ^ exp ≤ x
    · exact .inr (hcleared.outside x hout ▸ hx)
    · by_cases hxi : x = idx
      · rw [hxi, hcleared.mark] at hx
        exact .inl ⟨hxi, by omega⟩
      · rw [hcore.interior hhead (by omega) (by omega)] at hx
        exact absurd hx (hcore.empty_ne (by omega))
  rcases hcases hlow with ⟨hi, rfl⟩ | hlow
  · exact ⟨rfl, .inl hi⟩
  · rcases hcases hhigh with ⟨hi, rfl⟩ | hhigh
    · exact ⟨rfl, .inr hi⟩
    · exact absurd ⟨hlow, hhigh⟩ (h i k hk hal)

/-! ## Locating the block -/

/-- A block, by its first page and its order, whose pages contain the region `[start, stop)`. -/
structure Covers (start stop idx exp : ℕ) : Prop where
  aligned : 2 ^ exp ∣ idx
  start_le : idx * pageSize ≤ start
  le_stop : stop ≤ (idx + 2 ^ exp) * pageSize

/-- Rounding the start of the region down gives the first page of an aligned block. -/
theorem sub_mod_block (start exp : ℕ) :
    start - start % (pageSize * 2 ^ exp) = 2 ^ exp * (start / (pageSize * 2 ^ exp)) * pageSize := by
  have hdm := Nat.div_add_mod start (pageSize * 2 ^ exp)
  have hassoc : pageSize * 2 ^ exp * (start / (pageSize * 2 ^ exp)) =
      2 ^ exp * (start / (pageSize * 2 ^ exp)) * pageSize := by ring
  omega

theorem coverBlock_spec {n : ℕ} (hle : start ≤ stop) (hstart : start < 2 ^ n * pageSize)
    (hstop : stop ≤ 2 ^ n * pageSize) (hn : n ≤ 30) {fuel : ℕ} (hexp : exp ≤ n)
    (hfuel : n < fuel + exp) :
    Returns (coverBlock start stop fuel exp) (fun block ↦
      ∃ idx, block.1 = idx * pageSize ∧ block.2 ≤ n ∧ Covers start stop idx block.2) := by
  induction fuel generalizing exp with
  | zero => omega
  | succ fuel ih =>
    have hpow : (2 : ℕ) ^ exp ≤ 2 ^ n := Nat.pow_le_pow_right (by decide) hexp
    have hmax : (2 : ℕ) ^ n ≤ 2 ^ 30 := Nat.pow_le_pow_right (by decide) hn
    have hsize : (stop + 2 ^ 64 - start) % 2 ^ 64 = stop - start := by
      unfold pageSize at hstop
      omega
    have hblock := sub_mod_block start exp
    have hdiv : start / (pageSize * 2 ^ exp) * (pageSize * 2 ^ exp) ≤ start :=
      Nat.div_mul_le_self _ _
    have hend : (start - start % (pageSize * 2 ^ exp) + pageSize * 2 ^ exp) % 2 ^ 64 =
        start - start % (pageSize * 2 ^ exp) + pageSize * 2 ^ exp := by
      unfold pageSize at hstart ⊢
      omega
    have htop : exp = n → start % (pageSize * 2 ^ exp) = start := by
      rintro rfl
      exact Nat.mod_eq_of_lt (by rw [mul_comm]; exact hstart)
    have htop' : exp = n → pageSize * 2 ^ exp = 2 ^ n * pageSize := by
      rintro rfl
      exact mul_comm _ _
    unfold coverBlock
    simp only [hsize, hend]
    by_cases hsmall : pageSize * 2 ^ exp < stop - start
    · simp only [hsmall, if_true]
      exact ih (by omega) (by omega)
    · simp only [hsmall, if_false]
      by_cases hshort : start - start % (pageSize * 2 ^ exp) + pageSize * 2 ^ exp < stop
      · simp only [hshort, if_true]
        exact ih (by omega) (by omega)
      · simp only [hshort, if_false]
        apply Returns.ok
        refine ⟨2 ^ exp * (start / (pageSize * 2 ^ exp)), hblock, hexp, Nat.dvd_mul_right _ _, ?_,
          ?_⟩
        · rw [← hblock]
          exact Nat.sub_le _ _
        · rw [add_mul, ← hblock, mul_comm (2 ^ exp) pageSize]
          exact Nat.le_of_not_lt hshort

/-- The second loop of `memory_reserve` finds the head of the block a page lies in. -/
theorem findHead_spec (h : BuddyCore s) {head : ℕ} (hord : orderOf (s.arr head) = some k)
    {fuel p : ℕ} (hle : head ≤ p) (hlt : p < head + 2 ^ k) (hfuel : p < fuel + head) :
    findHead s fuel p = .ok head := by
  induction fuel generalizing p with
  | zero => omega
  | succ fuel ih =>
    have hin := h.tiling.inside hord
    have hp : p < s.numPages := lt_of_lt_of_le hlt hin
    have hword : p < 2 ^ 32 := lt_of_lt_of_le hp
      (Nat.pow_le_pow_right (by decide) (h.exp_le.trans (by decide)))
    unfold findHead
    rw [readArr_eq hp, ok_bind]
    by_cases heq : p = head
    · subst heq
      have hne : s.arr p ≠ empty := by
        intro hempty
        simp [hempty] at hord
      simp only [hne, if_false]
      rfl
    · have hempty : s.arr p = empty := h.interior hord (by omega) hlt
      have hpos : 0 < lowBit p := lowBit_pos (by omega) hword
      have hsub : lowBit p ≤ p - head :=
        lowBit_le_sub hword.le (h.tiling.aligned hord) (by omega) hlt
      simp only [hempty, if_true]
      exact ih (by omega) (by omega) (by omega)

/-! ## Splitting down -/

/-- Halving the exceptional block moves the exception to the pair of its halves. -/
theorem noFreePairExcept_split {half : ℕ}
    (h : NoFreePairExcept s parent (k + 1)) (hframe : SameFrame s s') (hal : 2 ^ (k + 1) ∣ parent)
    (hhalf : half = parent ∨ half = parent + 2 ^ k)
    (harr : s'.arr = update (update s.arr parent k) (parent + 2 ^ k) k) :
    NoFreePairExcept s' half k := by
  intro i m hm hial hlow hhigh
  rw [hframe.numPagesExp] at hm
  have hcases {x : ℕ} (hx : s'.arr x = m) :
      (x = parent ∨ x = parent + 2 ^ k) ∧ m = k ∨ x ≠ parent ∧ s.arr x = m := by
    rw [harr, update_apply_eq_iff, update_apply_eq_iff] at hx
    omega
  have hpair : i = parent ∧ m = k → m = k ∧ (i = half ∨ i + 2 ^ m = half) := by
    rintro ⟨rfl, rfl⟩
    exact ⟨rfl, hhalf.imp Eq.symm Eq.symm⟩
  rcases hcases hlow with ⟨rfl | rfl, rfl⟩ | ⟨hil, hi⟩
  · exact hpair ⟨rfl, rfl⟩
  · exact absurd hial (not_dvd_add_half hal)
  · rcases hcases hhigh with ⟨hi' | hi', rfl⟩ | ⟨hil', hi'⟩
    · exact absurd (hi' ▸ hal) (not_dvd_add_half hial)
    · exact hpair ⟨by omega, rfl⟩
    · exact absurd (h i m hm hial hi hi').2 (by simp [hil, hil'])

theorem usedAt_split (hlow : s.arr parent = (k + 1 : ℕ)) (hhigh : s.arr (parent + 2 ^ k) = empty)
    (harr : s'.arr = update (update s.arr parent k) (parent + 2 ^ k) k) :
    usedAt s' = usedAt s := by
  refine usedAt_update_update harr ?_ ?_
  · rw [usedAt, hlow, usedOrder_cast, usedOrder_cast]
  · rw [usedAt, hhigh, usedOrder_cast, usedOrder_empty]

theorem reserveSplit_spec {rounds : ℕ} (h : BuddyCore s)
    (hal : 2 ^ exp ∣ idx) (htop : exp + rounds ≤ s.numPagesExp) (harr : s.arr parent = (exp + rounds : ℕ))
    (hle : parent ≤ idx) (hin : idx + 2 ^ exp ≤ parent + 2 ^ (exp + rounds))
    (hpair : NoFreePairExcept s parent (exp + rounds)) :
    Returns (reserveSplit idx exp rounds parent s) (fun s' ↦ BuddyCore s' ∧ SameFrame s s' ∧
      NoFreePairExcept s' idx exp ∧ s'.arr idx = exp ∧ usedAt s' = usedAt s) := by
  induction rounds generalizing parent s with
  | zero =>
    obtain rfl : parent = idx := by
      rw [Nat.add_zero] at hin
      omega
    exact Returns.ok ⟨h, SameFrame.refl s, hpair, harr, rfl⟩
  | succ rounds ih =>
    have hpow : (2 : ℕ) ^ (exp + rounds + 1) = 2 * 2 ^ (exp + rounds) := by ring
    rw [← Nat.add_assoc] at htop harr hin hpair
    have hparent : 2 ^ (exp + rounds + 1) ∣ parent := h.tiling.aligned (h.order_of_free htop harr)
    obtain ⟨s₁, s₂, s₃, hdel, hins₁, hins₂, hcore, hframe, harr₃⟩ := h.splitFree htop harr
    have hused := usedAt_split harr (h.upper_half_empty (h.order_of_free htop harr)) harr₃
    have hn : s₃.numPagesExp = s.numPagesExp := hframe.numPagesExp
    -- The half that contains the covering block is the next parent.
    obtain ⟨half, hhalf, hif, hhalfLe, hhalfIn⟩ : ∃ half,
        (half = parent ∨ half = parent + 2 ^ (exp + rounds)) ∧
        (if idx < parent + 2 ^ (exp + rounds) then parent else parent + 2 ^ (exp + rounds)) =
          half ∧
        half ≤ idx ∧ idx + 2 ^ exp ≤ half + 2 ^ (exp + rounds) := by
      by_cases hlow : idx < parent + 2 ^ (exp + rounds)
      · have hdvd : 2 ^ exp ∣ parent + 2 ^ (exp + rounds) :=
          (pow_dvd_pow 2 (by omega)).trans (dvd_add_half hparent)
        exact ⟨parent, .inl rfl, if_pos hlow, hle, add_le_of_dvd_of_lt hal hdvd hlow⟩
      · exact ⟨parent + 2 ^ (exp + rounds), .inr rfl, if_neg hlow, by omega, by omega⟩
    have hmark : s₃.arr half = (exp + rounds : ℕ) := by
      rw [harr₃]
      rcases hhalf with rfl | rfl
      · rw [update_of_ne (update_half_ne _ _).symm, update_self]
      · rw [update_self]
    obtain ⟨s₄, hrun, hcore₄, hframe₄, hpair₄, hmark₄, hused₄⟩ :=
      ih hcore (by omega) hmark hhalfLe hhalfIn
        (noFreePairExcept_split hpair hframe hparent hhalf harr₃)
    refine ⟨s₄, ?_, hcore₄, hframe.trans hframe₄, hpair₄, hmark₄, hused₄.trans hused⟩
    unfold reserveSplit
    simp only [hdel, hins₁, hins₂, ok_bind, hif, hrun]

/-! ## Reserving -/

/-- The outcomes of `memory_reserve` for a region whose covering block is `idx` of order `exp`. -/
inductive ReserveOutcome (s : Buddy) (idx exp : ℕ) (s' : Buddy) : Prop
  /-- The covering block lies in a used block already. -/
  | covered (head k : ℕ) (heq : s' = s) (hused : usedAt s head = some k) (hle : head ≤ idx)
      (hin : idx + 2 ^ exp ≤ head + 2 ^ k)
  /-- The region lies in one page, and that page is a free block of order 0. -/
  | missed (heq : s' = s) (hexp : exp = 0) (hfree : s.arr idx = 0)
  /-- The covering block is used now; it was not part of a larger used block. -/
  | reserved (hused : usedAt s' idx = some exp) (hlargest : ∀ k, usedAt s idx = some k → k ≤ exp)
      (houtside : ∀ j, j < idx ∨ idx + 2 ^ exp ≤ j → usedAt s' j = usedAt s j)

/-- What `memory_reserve` achieves. -/
structure ReservePost (s : Buddy) (start stop : ℕ) (s' : Buddy) : Prop where
  core : BuddyCore s'
  noFreePair : NoFreePair s'
  frame : SameFrame s s'
  outcome : ∃ idx exp, Covers start stop idx exp ∧ ReserveOutcome s idx exp s'

/-- The last statement of `memory_reserve` takes the prepared block. -/
theorem takeReserved {s₁ : Buddy} (h : BuddyCore s₁) (hframe : SameFrame s s₁)
    (hexp : exp ≤ s.numPagesExp) (hcover : Covers start stop idx exp)
    (hpair : NoFreePairExcept s₁ idx exp) (hmark : s₁.arr idx = exp)
    (hlargest : ∀ k, usedAt s idx = some k → k ≤ exp)
    (houtside : ∀ j, j < idx ∨ idx + 2 ^ exp ≤ j → usedAt s₁ j = usedAt s j) :
    Returns (buddyDeleteFreeBlock s₁ idx exp) (ReservePost s start stop) := by
  have hn : s₁.numPagesExp = s.numPagesExp := hframe.numPagesExp
  obtain ⟨hdelete, hcore⟩ := h.takeFree (by omega) hmark
  have hused : usedAt (s₁.deleted idx exp) = update (usedAt s₁) idx (some exp) :=
    usedAt_deleted (by have := h.exp_le; omega)
  refine Returns.of_eq hdelete ⟨hcore, noFreePair_deleted hpair,
    hframe.trans (sameFrame_deleted s₁ idx exp),
    idx, exp, hcover, .reserved ?_ hlargest fun j hj ↦ ?_⟩
  · rw [hused, update_self]
  · have hpos : 0 < 2 ^ exp := by positivity
    rw [hused, update_of_ne (by omega)]
    exact houtside j hj

theorem memoryReserve_spec (h : BuddyCore s) (hpair : NoFreePair s)
    (hle : start ≤ stop) (hstart : start < s.endAddr) (hstop : stop ≤ s.endAddr) :
    Returns (memoryReserve s start stop) (ReservePost s start stop) := by
  rw [h.endAddr_eq] at hstart hstop
  unfold memoryReserve
  apply (coverBlock_spec hle hstart hstop h.exp_le (Nat.zero_le _)
    (by have := h.exp_le; omega)).bind
  rintro ⟨reserveStart, exp⟩ ⟨idx, hidx, hexp, hcover⟩
  change reserveStart = idx * pageSize at hidx
  change exp ≤ s.numPagesExp at hexp
  change Covers start stop idx exp at hcover
  have hdiv : reserveStart / pageSize = idx := by
    rw [hidx]
    exact Nat.mul_div_cancel idx (by decide)
  have hlt : idx < s.numPages := Nat.lt_of_mul_lt_mul_right (hcover.start_le.trans_lt hstart)
  have hin : idx + 2 ^ exp ≤ s.numPages :=
    add_le_of_dvd_of_lt hcover.aligned (pow_dvd_pow 2 hexp) hlt
  obtain ⟨head, k, hord, hheadLe, hheadLt⟩ := h.tiling.cover hlt
  have hpos : 0 < 2 ^ exp := by positivity
  have hposk : 0 < 2 ^ k := by positivity
  -- A block of smaller order that contains the first page starts there.
  have hsame (hk : k ≤ exp) : head = idx := by
    have := (nested_of_meet (h.tiling.aligned hord) hcover.aligned hk (by omega) hheadLt).1
    omega
  have hnest (hk : exp ≤ k) : idx + 2 ^ exp ≤ head + 2 ^ k :=
    (nested_of_meet hcover.aligned (h.tiling.aligned hord) hk hheadLt (by omega)).2
  have hk30 : k ≤ 30 := (h.order_le hord).trans h.exp_le
  simp only [hdiv, findHead_spec h hord hheadLe hheadLt
    (Nat.lt_add_right head (Nat.lt_succ_self idx)),
    readArr_eq (h.lt hord), ok_bind]
  have hkeep (houtcome : ReserveOutcome s idx exp s) :
      Returns (.ok s : Except Fault Buddy) (ReservePost s start stop) :=
    Returns.ok ⟨h, hpair, SameFrame.refl s, idx, exp, hcover, houtcome⟩
  have hclear (hk : k ≤ exp) :
      Returns (do let s ← buddyClearBlock exp idx s; buddyDeleteFreeBlock s idx exp)
        (ReservePost s start stop) := by
    have hord' : orderOf (s.arr idx) = some k := hsame hk ▸ hord
    apply (buddyClearBlock_spec h hcover.aligned hin hord' hk).bind
    intro s₁ hcleared
    exact takeReserved hcleared.core hcleared.frame hexp hcover
      (noFreePairExcept_cleared hpair hcleared hexp) hcleared.mark
      (fun m hm ↦ by
        have hord'' := (h.usedAt_le hm).1
        rw [hord', Option.some.injEq] at hord''
        omega)
      (fun j hj ↦ congrArg usedOrder (hcleared.outside j hj))
  rcases eq_of_orderOf hord with hfree | hused
  · by_cases hcov : (k : ℤ) ≤ -(exp : ℤ)
    · have hzero : k = 0 ∧ exp = 0 := by omega
      have hne : s.arr head ≠ negZero := by
        rw [hfree]
        unfold negZero intMax
        omega
      rw [if_pos ⟨hfree ▸ hcov, hne⟩]
      apply hkeep
      refine .missed rfl hzero.2 ?_
      rw [← hsame (by omega), hfree, hzero.1]
      rfl
    · rw [if_neg (fun hcond ↦ hcov (hfree ▸ hcond.1))]
      by_cases hbig : (exp : ℤ) ≤ k
      · rw [if_pos (hfree ▸ hbig)]
        have hrounds : (s.arr head - exp).toNat = k - exp := by
          rw [hfree]
          omega
        have hsum : exp + (k - exp) = k := by omega
        rw [hrounds]
        apply (reserveSplit_spec h hcover.aligned (by have := h.order_le hord; omega)
          (by rw [hsum]; exact hfree) hheadLe (by rw [hsum]; exact hnest (by omega))
          (NoFreePairExcept.of_noFreePair hpair _ _)).bind
        rintro s₁ ⟨hcore, hframe, hpair₁, hmark, hused⟩
        refine takeReserved hcore hframe hexp hcover hpair₁ hmark (fun m hm ↦ ?_)
          (fun j _ ↦ congrFun hused j)
        -- The first page is the free head itself or lies inside the free block.
        have hord' := (h.usedAt_le hm).1
        have hunique := h.tiling.unique hord hord' hheadLe hheadLt le_rfl
          (Nat.lt_add_of_pos_right (by positivity))
        rw [usedAt, ← hunique.1, hfree, usedOrder_cast] at hm
        simp at hm
      · rw [if_neg (by rw [hfree]; exact hbig)]
        exact hclear (by omega)
  · have hneg := usedMark_neg k
    have hnot : ¬ (exp : ℤ) ≤ s.arr head := by
      rw [hused]
      omega
    by_cases hcov : s.arr head ≤ -(exp : ℤ) ∧ s.arr head ≠ negZero
    · rw [if_pos hcov]
      apply hkeep
      have hkz : k ≠ 0 := by
        rintro rfl
        exact hcov.2 (by rw [hused, usedMark, if_pos rfl])
      have hexpk : exp ≤ k := by
        have := hcov.1
        rw [hused, usedMark, if_neg hkz] at this
        omega
      have husedAt : usedAt s head = some k := by
        rw [usedAt, hused, usedOrder_usedMark hk30]
      exact .covered head k rfl husedAt hheadLe (hnest hexpk)
    · rw [if_neg hcov, if_neg hnot]
      apply hclear
      by_contra hlt'
      have hkz : k ≠ 0 := by omega
      apply hcov
      rw [hused]
      refine ⟨?_, negZero_ne_usedMark hkz hk30⟩
      rw [usedMark, if_neg hkz]
      omega

end CapstoneKernel.Mem
