import CapstoneKernel.Mem.BuddyReserve

/-!
# Runs of the page allocator

Every run that starts with `buddy_init` and goes on with `memory_reserve`, `buddy_malloc` and
`buddy_free` keeps the three representations of the free memory in step, stays inside the arrays
and never asks for a block that is not on its list.
-/

namespace CapstoneKernel.Mem

open IntrusiveList BuddyTiling Execution Function

variable {usableEnd : ℕ} {s : Buddy}

/-! ## Initialisation -/

/-- The invariant of the page allocator between two calls. -/
structure BuddyWf (s : Buddy) : Prop where
  core : BuddyCore s
  noFreePair : NoFreePair s

theorem numPagesLoop_spec {exp : ℕ} (hend : usableEnd ≤ 2 ^ 42) (hexp : exp ≤ 30) {fuel : ℕ}
    (hfuel : 30 < fuel + exp) :
    Returns (numPagesLoop usableEnd fuel (2 ^ exp * pageSize) exp) (fun result ↦
      result.1 = 2 ^ result.2 * pageSize ∧ result.2 ≤ 30 ∧ usableEnd ≤ result.1) := by
  induction fuel generalizing exp with
  | zero => omega
  | succ fuel ih =>
    unfold numPagesLoop
    by_cases hlt : 2 ^ exp * pageSize < usableEnd
    · have hne : exp ≠ 30 := by
        rintro rfl
        unfold pageSize at hlt
        omega
      have hnext : 2 ^ exp * pageSize * 2 % 2 ^ 64 = 2 ^ (exp + 1) * pageSize := by
        rw [Nat.mod_eq_of_lt (by omega)]
        ring
      rw [if_pos hlt, hnext]
      exact ih (by omega) (by omega)
    · rw [if_neg hlt]
      exact Returns.ok ⟨rfl, hexp, Nat.le_of_not_lt hlt⟩

/-- The empty lists of `buddy_init` agree with an array of `EMPTY` marks. -/
theorem listsAgree_empty {n : ℕ} (hn : n ≤ 30) :
    ListsAgree n (fun _ ↦ empty) ⟨fun _ ↦ none, fun _ ↦ none⟩ (fun _ ↦ none) := by
  refine ⟨fun k hk ↦ ⟨[], ⟨rfl, List.nodup_nil⟩, fun i ↦ ?_⟩, fun _ _ _ ↦ ⟨rfl, rfl⟩⟩
  have := empty_ne_cast (hk.trans hn)
  simp [this]

/-- `buddy_init` builds one free block that covers the usable memory. -/
theorem buddyInit_spec (hend : usableEnd ≤ 2 ^ 42) :
    Returns (buddyInit usableEnd) (fun s ↦ BuddyWf s ∧ usableEnd ≤ s.endAddr ∧ s.console = [] ∧
      s.irqNestedCount = 0 ∧ usedAt s = fun _ ↦ none) := by
  unfold buddyInit
  rw [show pageSize = 2 ^ 0 * pageSize from rfl]
  apply (numPagesLoop_spec hend (Nat.zero_le 30) (by decide)).bind
  rintro ⟨endAddr, exp⟩ ⟨hendAddr, hexp, hle⟩
  have hlists := listsAgree_empty hexp
  set s₀ : Buddy := ⟨exp, endAddr, fun _ ↦ empty, ⟨fun _ ↦ none, fun _ ↦ none⟩, fun _ ↦ none, [], 0⟩
  have hzero : 0 < s₀.numPages := by
    unfold Buddy.numPages
    positivity
  have hmark : (s₀.inserted 0 exp).arr = update (fun _ ↦ empty) 0 (exp : ℤ) := rfl
  apply Returns.of_eq (buddyInsertFreeBlock_eq (s := s₀) hlists hzero le_rfl)
  refine ⟨⟨⟨hexp, hendAddr, ?_, ?_⟩, ?_⟩, hle, rfl, rfl, ?_⟩
  · exact hlists.insert le_rfl hzero (fun j hj ↦ empty_ne_cast (hj.trans hexp))
  · rw [hmark, orderOf_update, orderOf_cast hexp]
    exact IsTiling.whole exp
  · rintro i k hk - ⟨-, hhigh⟩
    have hne : i + 2 ^ k ≠ 0 := by
      have : 0 < 2 ^ k := by positivity
      omega
    rw [hmark, update_of_ne hne] at hhigh
    exact empty_ne_cast (hk.le.trans hexp) hhigh
  · rw [usedAt_inserted]
    funext x
    rw [update_apply]
    split
    · rfl
    · exact usedOrder_empty

/-! ## Operations -/

/-- The calls other parts of the kernel make. -/
inductive BuddyOp
  | reserve (start stop : ℕ)
  | malloc (size : ℕ)
  | free (ptr : ℕ)

/-- The state after a call. -/
def BuddyOp.run (s : Buddy) : BuddyOp → Except Fault Buddy
  | .reserve start stop => memoryReserve s start stop
  | .malloc size => (buddyMalloc s size).map Prod.snd
  | .free ptr => buddyFree s ptr

/-- Regions lie inside the memory of the allocator, sizes are `uint32_t` and pointers 64-bit. -/
def BuddyOp.Valid (s : Buddy) : BuddyOp → Prop
  | .reserve start stop => start ≤ stop ∧ start < s.endAddr ∧ stop ≤ s.endAddr
  | .malloc size => size < 2 ^ 32
  | .free ptr => ptr < 2 ^ 64

variable {size k : ℕ} {result : Option ℕ × Buddy} {b : Buddy}

theorem MallocPost.wf (h : BuddyWf s) (hpost : MallocPost s size result) : BuddyWf result.2 := by
  obtain ⟨_ | idx, s'⟩ := result
  · rcases hpost with ⟨-, rfl⟩ | ⟨-, rfl, -⟩
    · exact h
    · exact ⟨h.core.print _, h.noFreePair⟩
  · obtain ⟨m, k, halloc⟩ := hpost
    exact ⟨halloc.core, halloc.noFreePair⟩

theorem MallocPost.console (hpost : MallocPost s size result) (hmsg : Msg.nodeNotFound ∉ s.console) :
    
    Msg.nodeNotFound ∉ result.2.console := by
  obtain ⟨_ | idx, s'⟩ := result
  · rcases hpost with ⟨-, rfl⟩ | ⟨-, rfl, -⟩
    · exact hmsg
    · simp [Buddy.print, hmsg]
  · obtain ⟨m, k, halloc⟩ := hpost
    change Msg.nodeNotFound ∉ s'.console
    rw [halloc.frame.console]
    exact hmsg

theorem FreePost.console {s' : Buddy} {ptr : ℕ} (hpost : FreePost s ptr s')
    (hmsg : Msg.nodeNotFound ∉ s.console) : Msg.nodeNotFound ∉ s'.console := by
  rcases hpost with ⟨idx, k, -, -, hframe, -⟩ | ⟨-, msg, hne, rfl⟩
  · rw [hframe.console]
    exact hmsg
  · simp [Buddy.print, hmsg, hne.symm]

theorem buddyFree_used (h : BuddyWf s) {idx : ℕ} (hused : usedAt s idx = some k) :
    Returns (buddyFree s (idx * pageSize)) (fun s' ↦ BuddyWf s' ∧ SameFrame s s' ∧
      usedAt s' = update (usedAt s) idx none) := by
  apply (buddyFree_spec h.core h.noFreePair (idx * pageSize)).mono
  rintro s' ⟨hcore, hpair, ⟨idx', k', hptr, -, hframe, husedAt⟩ | ⟨hnone, -⟩⟩
  · obtain rfl : idx = idx' := Nat.eq_of_mul_eq_mul_right (by decide : 0 < pageSize) hptr
    exact ⟨⟨hcore, hpair⟩, hframe, husedAt⟩
  · exact absurd hused (hnone idx k rfl)

theorem buddyMalloc_succeeds (h : BuddyWf b) {count i : ℕ} (hcount : 0 < count)
    (hk : k ≤ b.numPagesExp) (hfree : b.arr i = k) (henough : count ≤ 2 ^ k) :
    ∃ idx b', buddyMalloc b count = .ok (some idx, b') := by
  obtain ⟨⟨_ | idx, b'⟩, hrun, hpost⟩ := buddyMalloc_spec h.core h.noFreePair count
  · rcases hpost with ⟨hzero, -⟩ | ⟨-, -, hsmall⟩
    · omega
    · have := hsmall i k hk hfree
      omega
  · exact ⟨idx, b', hrun⟩

/-- One call keeps the invariant, does not fault and does not print `Node not found`. -/
theorem BuddyOp.run_spec (h : BuddyWf s) (hmsg : Msg.nodeNotFound ∉ s.console) {op : BuddyOp}
    (hvalid : op.Valid s) :
    Returns (op.run s) (fun s' ↦ BuddyWf s' ∧ Msg.nodeNotFound ∉ s'.console) := by
  cases op with
  | reserve start stop =>
    apply (memoryReserve_spec h.core h.noFreePair hvalid.1 hvalid.2.1 hvalid.2.2).mono
    intro s' hpost
    refine ⟨⟨hpost.core, hpost.noFreePair⟩, ?_⟩
    rw [hpost.frame.console]
    exact hmsg
  | malloc size =>
    obtain ⟨result, hrun, hpost⟩ := buddyMalloc_spec h.core h.noFreePair size
    refine ⟨result.2, ?_, hpost.wf h, hpost.console hmsg⟩
    rw [BuddyOp.run, hrun]
    rfl
  | free ptr =>
    apply (buddyFree_spec h.core h.noFreePair ptr).mono
    rintro s' ⟨hcore, hpair, hpost⟩
    exact ⟨⟨hcore, hpair⟩, hpost.console hmsg⟩

/-! ## The invariant of all runs -/

/-- The states after `buddy_init` and any sequence of valid calls. -/
def BuddyReachable (usableEnd : ℕ) : Buddy → Prop :=
  Reachable (fun s ↦ buddyInit usableEnd = .ok s) (fun s s' ↦ ∃ op : BuddyOp, op.Valid s ∧ op.run s = .ok s')

/-- The three representations of the memory agree. -/
structure BuddyInvariant (s : Buddy) : Prop where
  /-- Heads are aligned to the order of their block, which lies inside the pages. -/
  aligned : ∀ i k, orderOf (s.arr i) = some k → 2 ^ k ∣ i ∧ i + 2 ^ k ≤ s.numPages
  /-- Every page lies in exactly one block. -/
  partition : ∀ p < s.numPages, ∃! block : ℕ × ℕ,
    orderOf (s.arr block.1) = some block.2 ∧ block.1 ≤ p ∧ p < block.1 + 2 ^ block.2
  /-- The lists hold exactly the free heads, and the other nodes are detached. -/
  lists : ListsAgree s.numPagesExp s.arr s.nodes s.freeBlocksList
  /-- Two buddies are not both free. -/
  noFreePair : NoFreePair s

theorem BuddyWf.invariant (h : BuddyWf s) : BuddyInvariant s where
  aligned _ _ hi := ⟨h.core.tiling.aligned hi, h.core.tiling.inside hi⟩
  partition p hp := by
    obtain ⟨i, k, hi, hle, hlt⟩ := h.core.tiling.cover hp
    refine ⟨(i, k), ⟨hi, hle, hlt⟩, ?_⟩
    rintro ⟨j, m⟩ ⟨hj, hle', hlt'⟩
    obtain ⟨rfl, rfl⟩ := h.core.tiling.unique hj hi hle' hlt' hle hlt
    rfl
  lists := h.core.lists
  noFreePair := h.noFreePair

theorem BuddyReachable.wf (hend : usableEnd ≤ 2 ^ 42)
    (h : BuddyReachable usableEnd s) : BuddyWf s ∧ Msg.nodeNotFound ∉ s.console := by
  refine Reachable.invariant (P := fun s ↦ BuddyWf s ∧ Msg.nodeNotFound ∉ s.console) ?_ ?_ h
  · intro s hinit
    have hspec := (buddyInit_spec hend).post_of_eq hinit
    refine ⟨hspec.1, ?_⟩
    rw [hspec.2.2.1]
    exact List.not_mem_nil
  · rintro s s' ⟨hwf, hmsg⟩ ⟨op, hvalid, hrun⟩
    exact (BuddyOp.run_spec hwf hmsg hvalid).post_of_eq hrun

/-- In every run of the page allocator the array, the lists and the partition agree, no two buddies
are free, the message of `buddy_delete_free_block` never appears and no call faults. -/
theorem buddy_runs_keep_invariant {usableEnd : ℕ} (hend : usableEnd ≤ 2 ^ 42) :
    (∃ s, buddyInit usableEnd = .ok s) ∧
      ∀ s, BuddyReachable usableEnd s → BuddyInvariant s ∧ Msg.nodeNotFound ∉ s.console ∧
        ∀ op : BuddyOp, op.Valid s → ∃ s', op.run s = .ok s' := by
  constructor
  · obtain ⟨s, hrun, -⟩ := buddyInit_spec hend
    exact ⟨s, hrun⟩
  · intro s hs
    obtain ⟨hwf, hmsg⟩ := hs.wf hend
    refine ⟨hwf.invariant, hmsg, fun op hvalid ↦ ?_⟩
    obtain ⟨s', hrun, -⟩ := BuddyOp.run_spec hwf hmsg hvalid
    exact ⟨s', hrun⟩

/-- The memory of the Raspberry Pi 3 is within the bound. -/
theorem buddy_runs_keep_invariant_rpi3 :
    0x3b400000 ≤ 2 ^ 42 ∧ (∃ s, buddyInit 0x3b400000 = .ok s) ∧
      ∀ s, BuddyReachable 0x3b400000 s → BuddyInvariant s ∧ Msg.nodeNotFound ∉ s.console ∧
        ∀ op : BuddyOp, op.Valid s → ∃ s', op.run s = .ok s' :=
  ⟨by decide, buddy_runs_keep_invariant (by decide)⟩

/-- The Raspberry Pi 3 after its first page is reserved. -/
def onePageBoot : Except Fault Buddy := do
  let b ← buddyInit 0x3b400000
  memoryReserve b 0 0x1000

theorem onePageBoot_reachable (h : onePageBoot = .ok b) : BuddyReachable 0x3b400000 b := by
  obtain ⟨b₀, h₀, h⟩ := of_bind_eq_ok h
  obtain ⟨-, hend, -⟩ := (buddyInit_spec (by decide)).post_of_eq h₀
  have hvalid : BuddyOp.Valid b₀ (.reserve 0 0x1000) := ⟨by decide, by omega, by omega⟩
  exact Reachable.next (.start h₀) ⟨.reserve 0 0x1000, hvalid, h⟩

theorem onePageBoot_marks : (onePageBoot.map fun b ↦ (b.arr 0, b.arr 1)).toOption = some (negZero, 0) := by
  decide +kernel

theorem onePageBoot_ok :
    ∃ b, onePageBoot = .ok b ∧ BuddyReachable 0x3b400000 b ∧ b.arr 0 = negZero ∧ b.arr 1 = (0 : ℕ) := by
  obtain ⟨b, hboot, hmarks⟩ := map_eq_ok (eq_ok_of_toOption onePageBoot_marks)
  obtain ⟨hzero, hone⟩ := Prod.mk.inj hmarks
  exact ⟨b, hboot, onePageBoot_reachable hboot, hzero, hone⟩

end CapstoneKernel.Mem
