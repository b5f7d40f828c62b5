import CapstoneKernel.Mem.BuddyRuns

/-!
# Reserved memory is not handed out

At boot the kernel reserves regions with `memory_reserve` and then serves `buddy_malloc` and
`buddy_free`.  A reserved region stays inside a used block that the caller of `buddy_malloc` never
holds, so it is never handed out, except after one slip of `memory_reserve`: a region inside a
single page is taken for covered when that page is a free block of order 0, because `-0` is `0`.
-/

namespace CapstoneKernel.Mem

open IntrusiveList BuddyTiling Execution

variable {s' s b : Buddy} {blocks : List (ℕ × ℕ)} {r' r : ReserveRun} {start stop idx : ℕ}
  {region : ℕ × ℕ}

/-- The allocator with the regions reserved and the blocks handed out so far, as head page and
order. -/
structure ReserveRun where
  buddy : Buddy
  booting : Bool
  regions : List (ℕ × ℕ)
  blocks : List (ℕ × ℕ)

/-- One call, first of the boot phase and then of the allocating phase.  `allowed` restricts the
reservations. -/
inductive ReserveStep (allowed : Buddy → ℕ → ℕ → Prop) (r : ReserveRun) : ReserveRun → Prop
  | reserve (start stop : ℕ) (b : Buddy) : r.booting = true → start < stop → stop ≤ r.buddy.endAddr →
      allowed r.buddy start stop → memoryReserve r.buddy start stop = .ok b →
      ReserveStep allowed r { r with buddy := b, regions := (start, stop) :: r.regions }
  | malloc (size : ℕ) (idx : ℕ) (b : Buddy) : size < 2 ^ 32 →
      buddyMalloc r.buddy size = .ok (some idx, b) →
      ReserveStep allowed r
        { r with buddy := b, booting := false, blocks := (idx, blockOrder b idx) :: r.blocks }
  | mallocNull (size : ℕ) (b : Buddy) : size < 2 ^ 32 → buddyMalloc r.buddy size = .ok (none, b) →
      ReserveStep allowed r { r with buddy := b, booting := false }
  | free (idx k : ℕ) (b : Buddy) : (idx, k) ∈ r.blocks →
      buddyFree r.buddy (blockPtr (some idx)) = .ok b →
      ReserveStep allowed r { r with buddy := b, booting := false }

/-- The states of such runs, for a memory that ends at `usableEnd`. -/
def ReserveReachable (allowed : Buddy → ℕ → ℕ → Prop) (usableEnd : ℕ) : ReserveRun → Prop :=
  Reachable (fun r ↦ buddyInit usableEnd = .ok r.buddy ∧ r.booting = true ∧ r.regions = [] ∧ r.blocks = [])
    (ReserveStep allowed)

/-- No block handed out meets a reserved region. -/
def ReserveRun.Isolated (r : ReserveRun) : Prop :=
  ∀ region ∈ r.regions, ∀ block ∈ r.blocks,
    (block.1 + 2 ^ block.2) * pageSize ≤ region.1 ∨ region.2 ≤ block.1 * pageSize

/-- The region lies in one page, and that page is a free block of order 0. -/
def InFreePage (s : Buddy) (start stop : ℕ) : Prop :=
  stop ≤ (start / pageSize + 1) * pageSize ∧ s.arr (start / pageSize) = 0
deriving Decidable

/-! ## The invariant -/

/-- A used block holds the region, and it is none of the blocks handed out. -/
def Guarded (s : Buddy) (blocks : List (ℕ × ℕ)) (region : ℕ × ℕ) : Prop :=
  ∃ head k, usedAt s head = some k ∧ head * pageSize ≤ region.1 ∧
    region.2 ≤ (head + 2 ^ k) * pageSize ∧
    ∀ block ∈ blocks, block.1 + 2 ^ block.2 ≤ head ∨ head + 2 ^ k ≤ block.1

structure ReserveInvariant (r : ReserveRun) : Prop where
  wf : BuddyWf r.buddy
  booting : r.booting = true → r.blocks = []
  guarded : ∀ region ∈ r.regions, Guarded r.buddy r.blocks region

theorem Guarded.apart {block : ℕ × ℕ} (h : Guarded s blocks region) (hblock : block ∈ blocks) :
    (block.1 + 2 ^ block.2) * pageSize ≤ region.1 ∨ region.2 ≤ block.1 * pageSize := by
  obtain ⟨head, k, -, hstart, hstop, hapart⟩ := h
  rcases hapart block hblock with hle | hle
  · left
    exact (Nat.mul_le_mul_right pageSize hle).trans hstart
  · right
    exact hstop.trans (Nat.mul_le_mul_right pageSize hle)

/-- A guarded region stays guarded as long as its block stays used. -/
theorem Guarded.of_usedAt (h : Guarded s blocks region) (hkeep : ∀ head k, usedAt s head = some k →
      (∀ block ∈ blocks, block.1 + 2 ^ block.2 ≤ head ∨ head + 2 ^ k ≤ block.1) →
      usedAt s' head = some k) : Guarded s' blocks region := by
  obtain ⟨head, k, hused, hstart, hstop, hapart⟩ := h
  exact ⟨head, k, hkeep head k hused hapart, hstart, hstop, hapart⟩

/-- A region inside the covering block that became used is guarded by it, any other one by the
block that held it before. -/
theorem Guarded.reserve (h : BuddyCore s) (h' : BuddyCore s') {exp : ℕ}
    (hguard : Guarded s [] region) (hused : usedAt s' idx = some exp)
    (hlargest : ∀ k, usedAt s idx = some k → k ≤ exp)
    (houtside : ∀ j, j < idx ∨ idx + 2 ^ exp ≤ j → usedAt s' j = usedAt s j) :
    Guarded s' [] region := by
  obtain ⟨head, k, hhead, hstart, hstop, -⟩ := hguard
  by_cases hout : head < idx ∨ idx + 2 ^ exp ≤ head
  · exact ⟨head, k, (houtside head hout).trans hhead, hstart, hstop, by simp⟩
  · have hal := h.tiling.aligned (h.usedAt_le hhead).1
    have hal' := h'.tiling.aligned (h'.usedAt_le hused).1
    have hposk : 0 < 2 ^ k := by positivity
    have hk : k ≤ exp := by
      by_contra hlt
      have hnest := nested_of_meet hal' hal (by omega : exp ≤ k) (by omega) (by omega)
      obtain rfl : head = idx := by omega
      exact hlt (hlargest k hhead)
    have hnest := nested_of_meet hal hal' hk (by omega) (by omega)
    exact ⟨idx, exp, hused, (Nat.mul_le_mul_right pageSize hnest.1).trans hstart,
      hstop.trans (Nat.mul_le_mul_right pageSize hnest.2), by simp⟩

theorem Covers.inFreePage (h : Covers start stop idx 0) (hlt : start < stop) (hfree : s.arr idx = 0) :
    InFreePage s start stop := by
  have hstart := h.start_le
  have hstop := h.le_stop
  rw [Nat.pow_zero] at hstop
  have hidx : start / pageSize = idx := by
    unfold pageSize at hstart hstop ⊢
    omega
  rw [InFreePage, hidx]
  exact ⟨hstop, hfree⟩

section

variable (h : ReserveInvariant r)
include h

theorem ReserveInvariant.reserve (hboot : r.booting = true) (hlt : start < stop)
    (hstop : stop ≤ r.buddy.endAddr) (hallowed : ¬ InFreePage r.buddy start stop)
    (hrun : memoryReserve r.buddy start stop = .ok b) :
    ReserveInvariant { r with buddy := b, regions := (start, stop) :: r.regions } := by
  have hpost := (memoryReserve_spec h.wf.core h.wf.noFreePair hlt.le
    (hlt.trans_le hstop) hstop).post_of_eq hrun
  obtain ⟨idx, exp, hcover, houtcome⟩ := hpost.outcome
  refine ⟨⟨hpost.core, hpost.noFreePair⟩, h.booting, fun region hregion ↦ ?_⟩
  have hold := h.guarded
  change Guarded b r.blocks region
  rw [h.booting hboot] at hold ⊢
  cases houtcome with
  | covered head k heq hused hle hin =>
    subst heq
    rcases List.mem_cons.1 hregion with rfl | hregion
    · exact ⟨head, k, hused, (Nat.mul_le_mul_right pageSize hle).trans hcover.start_le,
        hcover.le_stop.trans (Nat.mul_le_mul_right pageSize hin), by simp⟩
    · exact hold region hregion
  | missed heq hexp hfree =>
    subst hexp
    exact absurd (hcover.inFreePage hlt hfree) hallowed
  | reserved hused hlargest houtside =>
    rcases List.mem_cons.1 hregion with rfl | hregion
    · exact ⟨idx, exp, hused, hcover.start_le, hcover.le_stop, by simp⟩
    · exact (hold region hregion).reserve h.wf.core hpost.core hused hlargest houtside

theorem ReserveInvariant.malloc {size : ℕ} (hrun : buddyMalloc r.buddy size = .ok (some idx, b)) :
    ReserveInvariant
      { r with buddy := b, booting := false, blocks := (idx, blockOrder b idx) :: r.blocks } := by
  have hpost := (buddyMalloc_spec h.wf.core h.wf.noFreePair size).post_of_eq hrun
  have hwf := hpost.wf h.wf
  obtain ⟨m, k, halloc⟩ := hpost
  have hm := halloc.order_le
  have hused : usedAt b idx = some k := by
    rw [usedAt, halloc.mark, usedOrder_usedMark]
    exact halloc.cut_le.trans (hm.trans h.wf.core.exp_le)
  have horder : blockOrder b idx = k := by
    rw [blockOrder, hused]
    rfl
  refine ⟨hwf, by simp, fun region hregion ↦ ?_⟩
  obtain ⟨head, j, hhead, hstart, hstop, hapart⟩ := h.guarded region hregion
  -- The new block was free, so it is not the block that guards the region.
  have hne : head ≠ idx := by
    rintro rfl
    rw [usedAt, halloc.free, usedOrder_cast] at hhead
    simp at hhead
  have hhead' : usedAt b head = some j := (halloc.usedAt_of_ne head hne).trans hhead
  refine ⟨head, j, hhead', hstart, hstop, fun block hblock ↦ ?_⟩
  rcases List.mem_cons.1 hblock with rfl | hblock
  · rw [horder]
    exact (hwf.core.tiling.apart (hwf.core.usedAt_le hhead').1
      (hwf.core.usedAt_le hused).1 hne).symm
  · exact hapart block hblock

theorem ReserveInvariant.free {k : ℕ} (hblock : (idx, k) ∈ r.blocks)
    (hrun : buddyFree r.buddy (blockPtr (some idx)) = .ok b) :
    ReserveInvariant { r with buddy := b, booting := false } := by
  obtain ⟨hcore, hpair, hpost⟩ := (buddyFree_spec h.wf.core h.wf.noFreePair _).post_of_eq hrun
  refine ⟨⟨hcore, hpair⟩, by simp, fun region hregion ↦ (h.guarded region hregion).of_usedAt ?_⟩
  intro head j hhead hapart
  rcases hpost with ⟨idx', k', hptr, -, -, hused⟩ | ⟨-, msg, -, rfl⟩
  · obtain rfl : idx = idx' := Nat.eq_of_mul_eq_mul_right (by decide : 0 < pageSize) hptr
    have hne : head ≠ idx := by
      rintro rfl
      have hposk : 0 < 2 ^ k := by positivity
      have hposj : 0 < 2 ^ j := by positivity
      have : head + 2 ^ k ≤ head ∨ head + 2 ^ j ≤ head := hapart (head, k) hblock
      omega
    rw [hused, Function.update_of_ne hne]
    exact hhead
  · exact hhead

theorem ReserveInvariant.step
    (hstep : ReserveStep (fun s start stop ↦ ¬ InFreePage s start stop) r r') :
    ReserveInvariant r' := by
  cases hstep with
  | reserve start stop b hboot hlt hstop hallowed hrun =>
    exact h.reserve hboot hlt hstop hallowed hrun
  | malloc size idx b _ hrun => exact h.malloc hrun
  | mallocNull size b _ hrun =>
    have hpost := (buddyMalloc_spec h.wf.core h.wf.noFreePair size).post_of_eq hrun
    refine ⟨hpost.wf h.wf, by simp, fun region hregion ↦ (h.guarded region hregion).of_usedAt ?_⟩
    intro head k hhead _
    rcases hpost with ⟨-, rfl⟩ | ⟨-, rfl, -⟩ <;> exact hhead
  | free idx k b hblock hrun => exact h.free hblock hrun

end

/-! ## Whole runs -/

/-- As long as no region inside one page is reserved while that page is a free block of order 0, no
block handed out meets a reserved region. -/
theorem reserved_never_handed_out {usableEnd : ℕ} (hend : usableEnd ≤ 2 ^ 42) :
    ∀ r, ReserveReachable (fun s start stop ↦ ¬ InFreePage s start stop) usableEnd r → r.Isolated := by
  intro r hr
  have hinv : ReserveInvariant r := by
    apply Reachable.invariant (P := ReserveInvariant) _ _ hr
    · rintro r ⟨hinit, hboot, hregions, hblocks⟩
      refine ⟨((buddyInit_spec hend).post_of_eq hinit).1, fun _ ↦ hblocks, ?_⟩
      simp [hregions]
    · exact fun r r' h hstep ↦ h.step hstep
  exact fun region hregion block hblock ↦ (hinv.guarded region hregion).apart hblock

/-! ## Runs that evaluate -/

/-- A call of a run. -/
inductive ReserveAct
  | reserve (start stop : ℕ)
  | malloc (size : ℕ)
  | free (idx k : ℕ)

def ReserveAct.Enabled (allowed : Buddy → ℕ → ℕ → Prop) (r : ReserveRun) : ReserveAct → Prop
  | reserve start stop => r.booting = true ∧ start < stop ∧ stop ≤ r.buddy.endAddr ∧
      allowed r.buddy start stop
  | malloc size => size < 2 ^ 32
  | free idx k => (idx, k) ∈ r.blocks

def ReserveAct.run (r : ReserveRun) : ReserveAct → Except Fault ReserveRun
  | reserve start stop => (memoryReserve r.buddy start stop).map fun b ↦
      { r with buddy := b, regions := (start, stop) :: r.regions }
  | malloc size => (buddyMalloc r.buddy size).map fun (block, b) ↦
      { r with
        buddy := b, booting := false
        blocks := (block.map fun idx ↦ (idx, blockOrder b idx)).toList ++ r.blocks }
  | free idx _ => (buddyFree r.buddy (blockPtr (some idx))).map fun b ↦
      { r with buddy := b, booting := false }

theorem ReserveAct.step {allowed : Buddy → ℕ → ℕ → Prop} {act : ReserveAct}
    (henabled : act.Enabled allowed r) (hrun : act.run r = .ok r') : ReserveStep allowed r r' := by
  cases act with
  | reserve start stop =>
    obtain ⟨hboot, hlt, hstop, hallowed⟩ := henabled
    obtain ⟨b, hb, rfl⟩ := map_eq_ok hrun
    exact .reserve start stop b hboot hlt hstop hallowed hb
  | malloc size =>
    obtain ⟨⟨_ | idx, b⟩, hb, rfl⟩ := map_eq_ok hrun
    · exact .mallocNull size b henabled hb
    · exact .malloc size idx b henabled hb
  | free idx k =>
    obtain ⟨b, hb, rfl⟩ := map_eq_ok hrun
    exact .free idx k b henabled hb

instance (allowed : Buddy → ℕ → ℕ → Prop) [∀ s start stop, Decidable (allowed s start stop)]
    (r : ReserveRun) (act : ReserveAct) : Decidable (act.Enabled allowed r) := by
  induction act using ReserveAct.casesOn <;> unfold ReserveAct.Enabled <;> infer_instance

/-- A state with a decidable property, found by evaluating calls on a Raspberry Pi 3. -/
theorem ReserveReachable.exists_run (allowed : Buddy → ℕ → ℕ → Prop)
    [∀ s start stop, Decidable (allowed s start stop)] (acts : List ReserveAct)
    (Q : ReserveRun → Prop) [DecidablePred Q]
    (h : ((buddyInit 0x3b400000).toOption.any fun b ↦
      (runAll (fun r act ↦ act.Enabled allowed r) ReserveAct.run acts ⟨b, true, [], []⟩).any
        fun r ↦ decide (Q r)) = true) : ∃ r, ReserveReachable allowed 0x3b400000 r ∧ Q r := by
  obtain ⟨b, hinit, h⟩ := exists_of_any_toOption h
  refine Reachable.exists_runAll _ (ReserveStep allowed) (fun _ _ _ ↦ ReserveAct.step) ?_ acts Q h
  exact ⟨hinit, rfl, rfl, rfl⟩

/-- Two pages are reserved together, and one of two blocks is freed again. -/
theorem reserved_never_handed_out_rpi3 : ∃ r,
    ReserveReachable (fun s start stop ↦ ¬ InFreePage s start stop) 0x3b400000 r ∧
      (r.regions = [(0, 0x2000)] ∧ r.blocks = [(4, 2), (2, 0)]) ∧ r.Isolated := by
  obtain ⟨r, hreach, hr⟩ := ReserveReachable.exists_run
    (fun s start stop ↦ ¬ InFreePage s start stop)
    [.reserve 0 0x2000, .malloc 1, .malloc 3, .free 2 0]
    (fun r ↦ r.regions = [(0, 0x2000)] ∧ r.blocks = [(4, 2), (2, 0)]) (by decide +kernel)
  exact ⟨r, hreach, hr, reserved_never_handed_out (by decide) r hreach⟩

/-- Page 1 is handed out although it was reserved. -/
theorem reserved_page_handed_out :
    ∃ r, ReserveReachable (fun _ _ _ ↦ True) 0x3b400000 r ∧ (0x1000, 0x2000) ∈ r.regions ∧
      (1, 0) ∈ r.blocks ∧ ¬ r.Isolated := by
  obtain ⟨r, hreach, hregion, hblock⟩ := ReserveReachable.exists_run (fun _ _ _ ↦ True)
    [.reserve 0 0x1000, .reserve 0x1000 0x2000, .malloc 1]
    (fun r ↦ (0x1000, 0x2000) ∈ r.regions ∧ (1, 0) ∈ r.blocks) (by decide +kernel)
  refine ⟨r, hreach, hregion, hblock, fun hisolated ↦ ?_⟩
  have := hisolated _ hregion _ hblock
  simp [pageSize] at this

end CapstoneKernel.Mem
