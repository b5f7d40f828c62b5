import CapstoneKernel.Mem.DynamicFree

/-!
# Runs of the dynamic allocator

The runs start with `dynamic_allocator_init` on any state of the page allocator and go on with
`malloc` and with `free` of live pointers.  While `buddy_malloc` finds a block whenever `malloc`
asks for one, the live allocations stay apart and the pools account for them.
-/

namespace CapstoneKernel.Mem

open LinkedChain BuddyTiling Execution

variable {s : Allocator} {r : HeapRun} {live : List Allocation} {pools : ℕ → List ℕ}

/-- The allocator with the live allocations. -/
structure HeapRun where
  alloc : Allocator
  live : List Allocation

inductive HeapStep (r : HeapRun) : HeapRun → Prop
  | malloc (size ptr : ℕ) (s : Allocator) : size < 2 ^ 64 → BuddyServes r.alloc size →
      malloc r.alloc size = .ok (ptr, s) →
      HeapStep r ⟨s, if size = 0 then r.live else ⟨ptr, allocatedExp size s ptr⟩ :: r.live⟩
  | free (a : Allocation) (s : Allocator) : a ∈ r.live → free r.alloc a.ptr = .ok s →
      HeapStep r ⟨s, r.live.erase a⟩

/-- The states of such runs, for a memory that ends at `usableEnd`. -/
def HeapReachable (usableEnd : ℕ) : HeapRun → Prop :=
  Reachable (fun r ↦ ∃ b, BuddyReachable usableEnd b ∧ r = ⟨dynamicAllocatorInit b, []⟩) HeapStep

/-! ## The invariant of all runs -/

theorem dynamicAllocatorInit_invariant {b : Buddy} (hwf : BuddyWf b) :
    DynamicInvariant (dynamicAllocatorInit b) [] (fun _ ↦ []) := by
  refine ⟨hwf, fun _ _ ↦ rfl, fun _ _ ↦ List.nodup_nil, ?_, fun _ _ _ ↦
    ⟨rfl, rfl, fun _ _ ↦ rfl, rfl⟩, ?_,
    List.Pairwise.nil⟩
  · simp
  · simp

theorem malloc_zero {s' : Allocator} {ptr : ℕ} (h : malloc s 0 = .ok (ptr, s')) : s = s' := by
  have hzero : malloc s 0 = .ok (0, s.disableInt.enableInt) := rfl
  rw [h] at hzero
  have hs := congrArg Prod.snd (Except.ok.inj hzero)
  rw [show s' = s.disableInt.enableInt from hs, Allocator.enableInt, Allocator.disableInt,
    Buddy.disableInt_enableInt]

theorem HeapReachable.invariant {usableEnd : ℕ} (hend : usableEnd ≤ 2 ^ 42)
    (h : HeapReachable usableEnd r) : ∃ pools, DynamicInvariant r.alloc r.live pools := by
  refine Reachable.invariant (P := fun r ↦ ∃ pools, DynamicInvariant r.alloc r.live pools) ?_ ?_ h
  · rintro r ⟨b, hb, rfl⟩
    exact ⟨_, dynamicAllocatorInit_invariant (hb.wf hend).1⟩
  · rintro r r' ⟨pools, hinv⟩ hstep
    cases hstep with
    | malloc size ptr s _ hserve hrun =>
      by_cases hsize : size = 0
      · subst hsize
        obtain rfl := malloc_zero hrun
        exact ⟨pools, hinv⟩
      · simp only [if_neg hsize]
        exact ((malloc_spec hinv hsize hserve).post_of_eq hrun).1.1
    | free a s ha hrun => exact ((free_spec hinv ha).post_of_eq hrun).1

/-- While a page is free, a chunk can be allocated. -/
theorem HeapReachable.exists_malloc {usableEnd : ℕ} (hend : usableEnd ≤ 2 ^ 42)
    (h : HeapReachable usableEnd r) {i : ℕ} (hfree : r.alloc.buddy.arr i = (0 : ℕ)) :
    ∃ a s, HeapStep r ⟨s, a :: r.live⟩ := by
  obtain ⟨pools, hinv⟩ := h.invariant hend
  have hserve : BuddyServes r.alloc 64 := by
    intro last _
    exact buddyMalloc_succeeds hinv.disableInt.wf Nat.one_pos (Nat.zero_le _) hfree le_rfl
  obtain ⟨⟨ptr, s⟩, hrun, -⟩ := malloc_spec hinv (by decide) hserve
  exact ⟨_, s, .malloc 64 ptr s (by decide) hserve hrun⟩

/-! ## Runs that evaluate -/

/-- The call of `buddy_malloc` returned a block. -/
def findsBlock : Except Fault (Option ℕ × Buddy) → Bool
  | .ok (some _, _) => true
  | _ => false

theorem findsBlock_iff {run : Except Fault (Option ℕ × Buddy)} :
    findsBlock run = true ↔ ∃ idx b, run = .ok (some idx, b) := by
  obtain _ | ⟨_ | idx, b⟩ := run <;> simp [findsBlock]

def servesNow (s : Allocator) (size : ℕ) : Bool :=
  match mallocPlan size with
  | .ok (.pages count) => findsBlock (buddyMalloc s.disableInt.buddy count)
  | .ok (.pool c) =>
    match poolScan s.disableInt c (s.buddy.numPages + 1) none (s.memPool (c - minPoolSizeExp)) with
    | .ok (.full _) => findsBlock (buddyMalloc s.disableInt.buddy 1)
    | _ => true
  | _ => true

theorem servesNow_iff {size : ℕ} : servesNow s size = true ↔ BuddyServes s size := by
  unfold servesNow BuddyServes
  obtain _ | _ | count | c := mallocPlan size
  · simp
  · simp
  · exact findsBlock_iff
  · simp only []
    generalize poolScan s.disableInt c (s.buddy.numPages + 1) none
      (s.memPool (c - minPoolSizeExp)) = scan
    obtain _ | _ | last := scan
    · simp
    · simp
    · simp [findsBlock_iff]

instance (s : Allocator) (size : ℕ) : Decidable (BuddyServes s size) := decidable_of_iff _ servesNow_iff

/-- A call of `malloc` in a run. -/
def mallocRun (r : HeapRun) (size : ℕ) : Except Fault HeapRun :=
  (malloc r.alloc size).map fun result ↦
    ⟨result.2, if size = 0 then r.live else ⟨result.1, allocatedExp size result.2 result.1⟩ :: r.live⟩

/-- A state with a decidable property, found by evaluating requests after the boot. -/
theorem HeapReachable.exists_mallocs (sizes : List ℕ) (Q : HeapRun → Prop) [DecidablePred Q]
    (h : (onePageBoot.map fun b ↦
      (runAll (fun r size ↦ size < 2 ^ 64 ∧ BuddyServes r.alloc size) mallocRun sizes
        ⟨dynamicAllocatorInit b, []⟩).any fun r ↦ decide (Q r)).toOption = some true) :
    ∃ r, HeapReachable 0x3b400000 r ∧ Q r := by
  obtain ⟨b, hboot, hreach, -⟩ := onePageBoot_ok
  rw [hboot] at h
  refine Reachable.exists_runAll _ HeapStep ?_ ⟨b, hreach, rfl⟩ sizes Q (Option.some.inj h)
  rintro r size r' ⟨hsize, hserve⟩ hrun
  obtain ⟨⟨ptr, s⟩, hmalloc, rfl⟩ := map_eq_ok hrun
  exact .malloc size ptr s hsize hserve hmalloc

theorem DynamicInvariant.home (h : DynamicInvariant s live pools) {a : Allocation} (ha : a ∈ live) :
    ∃ k, usedAt s.buddy a.page = some k ∧ p2vTransKernel (a.page * pageSize) ≤ a.ptr ∧
      a.ptr + 2 ^ a.exp ≤ p2vTransKernel (a.page * pageSize) + 2 ^ k * pageSize := by
  by_cases hpool : ∃ c, PoolClass c ∧ a.page ∈ pools c
  · obtain ⟨c, hc, hpage⟩ := hpool
    have hp := h.pool c hc _ hpage
    obtain ⟨hexp, hptr, hchunk⟩ := hp.chunks a ha rfl
    have hoffset := hc.offset_lt hchunk
    refine ⟨0, hp.used, by omega, ?_⟩
    rw [hexp, Nat.pow_zero, Nat.one_mul]
    omega
  · push Not at hpool
    obtain ⟨k, hused, hexp, hptr⟩ := h.block a ha hpool
    refine ⟨k, hused, hptr.ge, ?_⟩
    rw [hexp, pow_add, ← hptr]
    exact le_rfl

theorem DynamicInvariant.apart
    (h : DynamicInvariant s live pools) : live.Pairwise Allocation.Apart := by
  apply h.distinct.imp_of_mem
  intro a b ha hb hdistinct
  by_cases hpage : a.page = b.page
  · by_cases hpool : ∃ c, PoolClass c ∧ a.page ∈ pools c
    · obtain ⟨c, hc, hmem⟩ := hpool
      have hp := h.pool c hc _ hmem
      obtain ⟨hexp, hptr, -⟩ := hp.chunks a ha rfl
      obtain ⟨hexp', hptr', -⟩ := hp.chunks b hb hpage.symm
      have hne : a.chunk ≠ b.chunk := by
        intro heq
        apply hdistinct hpage
        rw [heq]
        exact SameMask.refl _
      unfold Allocation.Apart
      rw [hexp, hexp', hptr, hptr']
      rcases Nat.lt_or_gt_of_ne hne with hlt | hlt
      · left
        have hle : (a.chunk + 1) * 2 ^ c ≤ b.chunk * 2 ^ c := Nat.mul_le_mul_right _ hlt
        rw [Nat.add_mul, Nat.one_mul] at hle
        omega
      · right
        have hle : (b.chunk + 1) * 2 ^ c ≤ a.chunk * 2 ^ c := Nat.mul_le_mul_right _ hlt
        rw [Nat.add_mul, Nat.one_mul] at hle
        omega
    · push Not at hpool
      obtain rfl := h.block_alone ha hb hpool hpage.symm
      exact absurd (SameMask.refl _) (hdistinct rfl)
  · -- Different pages lie in different blocks.
    obtain ⟨k, hused, hlow, hhigh⟩ := h.home ha
    obtain ⟨j, hused', hlow', hhigh'⟩ := h.home hb
    have hlt := h.wf.core.addr_lt (h.page_lt ha)
    have hlt' := h.wf.core.addr_lt (h.page_lt hb)
    rw [p2vTransKernel_eq (by omega)] at hlow hhigh hlow' hhigh'
    rcases h.wf.core.tiling.apart (h.wf.core.usedAt_le hused).1
      (h.wf.core.usedAt_le hused').1 hpage with
      hle | hle
    · left
      have hmul := Nat.mul_le_mul_right pageSize hle
      rw [Nat.add_mul] at hmul
      omega
    · right
      have hmul := Nat.mul_le_mul_right pageSize hle
      rw [Nat.add_mul] at hmul
      omega

/-! ## Safety -/

/-- The extents of the live allocations are apart and lie in used blocks, and the pool lists account
for the live chunks. -/
structure HeapSafe (r : HeapRun) : Prop where
  apart : r.live.Pairwise Allocation.Apart
  used : ∀ a ∈ r.live, ∃ head k, usedAt r.alloc.buddy head = some k ∧
    p2vTransKernel (head * pageSize) ≤ a.ptr ∧
    a.ptr + 2 ^ a.exp ≤ p2vTransKernel (head * pageSize) + 2 ^ k * pageSize
  /-- Every list of a size class is a list without repetition of pages of this chunk size, whose
  sums are those of their live chunks. -/
  pool : ∀ c, PoolClass c → ∃ pages : List ℕ, pages.Nodup ∧
    Chain (fun page ↦ (r.alloc.nodes page).next) (r.alloc.memPool (c - minPoolSizeExp)) pages ∧
    ∀ page ∈ pages, (r.alloc.nodes page).chunkSize = 2 ^ c ∧
      (r.alloc.nodes page).sum = liveSum r.live page ∧ (r.alloc.nodes page).sum ≠ 0
  /-- A page is on one list only. -/
  once : ∀ c c' page, PoolClass c → PoolClass c' → OnPool r.alloc c page → OnPool r.alloc c' page → c = c'

theorem DynamicInvariant.mem_of_onPool
    (h : DynamicInvariant s live pools) {c page : ℕ} (hc : PoolClass c) (hon : OnPool s c page) :
    page ∈ pools c := by
  obtain ⟨pages, hchain, hpage⟩ := hon
  rwa [(h.chain c hc).unique hchain]

theorem DynamicInvariant.heapSafe (h : DynamicInvariant r.alloc r.live pools) : HeapSafe r where
  apart := h.apart
  used a ha := ⟨a.page, h.home ha⟩
  pool c hc := by
    refine ⟨pools c, h.nodup c hc, h.chain c hc, fun page hpage ↦ ?_⟩
    have hp := h.pool c hc page hpage
    refine ⟨hp.chunkSize, hp.sum, ?_⟩
    rw [hp.sum, Nat.cast_ne_zero, ne_eq, liveSum_eq_zero_iff]
    push Not
    exact hp.live_ne
  once _ _ _ hc hc' hon hon' := h.class_unique hc hc' (h.mem_of_onPool hc hon)
    (h.mem_of_onPool hc' hon')

/-- In every run in which `buddy_malloc` finds the blocks that `malloc` asks for, the live
allocations are safe; live pointers can be freed and served requests return. -/
theorem heap_runs_safe {usableEnd : ℕ} (hend : usableEnd ≤ 2 ^ 42) :
    ∀ r, HeapReachable usableEnd r → HeapSafe r ∧ (∀ a ∈ r.live, ∃ s, free r.alloc a.ptr = .ok s) ∧
      ∀ size, size ≠ 0 → BuddyServes r.alloc size → ∃ ptr s, malloc r.alloc size = .ok (ptr, s) := by
  intro r hr
  obtain ⟨pools, hinv⟩ := hr.invariant hend
  refine ⟨hinv.heapSafe, fun a ha ↦ ?_, fun size hsize hserve ↦ ?_⟩
  · obtain ⟨s, hrun, -⟩ := free_spec hinv ha
    exact ⟨s, hrun⟩
  · obtain ⟨⟨ptr, s⟩, hrun, -⟩ := malloc_spec hinv hsize hserve
    exact ⟨ptr, s, hrun⟩

/-- Three requests, the first of which is freed again. -/
theorem heap_runs_safe_rpi3 : ∃ r a s, HeapReachable 0x3b400000 r ∧ r.live.length = 3 ∧
    a ∈ r.live ∧ HeapSafe r ∧ free r.alloc a.ptr = .ok s ∧ HeapSafe ⟨s, r.live.erase a⟩ := by
  obtain ⟨r, hreach, hlength⟩ := HeapReachable.exists_mallocs [64, 5000, 64]
    (fun r ↦ r.live.length = 3) (by decide +kernel)
  obtain ⟨a, ha⟩ := List.exists_mem_of_length_pos (by omega : 0 < r.live.length)
  obtain ⟨hsafe, hfree, -⟩ := heap_runs_safe (by decide) r hreach
  obtain ⟨s, hs⟩ := hfree a ha
  exact ⟨r, a, s, hreach, hlength, ha, hsafe, hs,
    (heap_runs_safe (by decide) _ (hreach.next (.free a s ha hs))).1⟩

end CapstoneKernel.Mem
