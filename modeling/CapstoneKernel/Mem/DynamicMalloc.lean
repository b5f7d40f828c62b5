import CapstoneKernel.Mem.DynamicSpec

/-!
# The specification of `malloc`

When the calls of `buddy_malloc` that `malloc` makes find a block, the request is served: from a
chunk that its page does not mark, from a new page of the pool, or by a whole block.  The memory
was free before the call and is one more live allocation after it.
-/

namespace CapstoneKernel.Mem

open LinkedChain BuddyTiling Execution

variable {s : Allocator} {live : List Allocation} {pools : ℕ → List ℕ} {b : Buddy}
  {size idx m k c : ℕ}

/-- The calls of `buddy_malloc` that `malloc` makes, if any, find a block. -/
def BuddyServes (s : Allocator) (size : ℕ) : Prop :=
  match mallocPlan size with
  | .ok (.pages count) => ∃ idx b, buddyMalloc s.disableInt.buddy count = .ok (some idx, b)
  | .ok (.pool c) => ∀ last, poolScan s.disableInt c (s.buddy.numPages + 1) none
      (s.memPool (c - minPoolSizeExp)) = .ok (.full last) →
        ∃ idx b, buddyMalloc s.disableInt.buddy 1 = .ok (some idx, b)
  | _ => True

/-- The exponent of the memory that `malloc(size)` handed out at `ptr`: the size class of a chunk,
or the order of a block. -/
def allocatedExp (size : ℕ) (s : Allocator) (ptr : ℕ) : ℕ :=
  match mallocPlan size with
  | .ok (.pool c) => c
  | _ => blockOrder s.buddy (v2pTransKernel ptr / pageSize) + 12

/-- The page is on the list of size class `c`. -/
def OnPool (s : Allocator) (c page : ℕ) : Prop :=
  ∃ pages, Chain (fun y ↦ (s.nodes y).next) (s.memPool (c - minPoolSizeExp)) pages ∧ page ∈ pages

/-- The memory of the allocation lies in a free block, or is a chunk that its page does not mark. -/
inductive FreeMemory (s : Allocator) (a : Allocation) : Prop
  | block (idx m : ℕ) : m ≤ s.buddy.numPagesExp → s.buddy.arr idx = m →
      p2vTransKernel (idx * pageSize) ≤ a.ptr →
      a.ptr + 2 ^ a.exp ≤ p2vTransKernel (idx * pageSize) + 2 ^ m * pageSize → FreeMemory s a
  | chunk (c page i : ℕ) : PoolClass c → OnPool s c page → i < pageSize / 2 ^ c →
      ChunkFree (s.nodes page) i → a = chunkAllocation page c i → FreeMemory s a

section

variable (h : DynamicInvariant s live pools)
include h

/-- The new block belongs to no pool and to no live allocation. -/
theorem DynamicInvariant.withAllocated (halloc : Allocated s.buddy size b idx m k) :
    DynamicInvariant { s with buddy := b } live pools ∧ (∀ c, PoolClass c → idx ∉ pools c) ∧
      ∀ a ∈ live, a.page ≠ idx := by
  refine ⟨h.withBuddy ⟨halloc.core, halloc.noFreePair⟩ halloc.frame.numPagesExp fun page j hpage ↦
    ?_,
    fun c hc hmem ↦ ?_, fun a ha hpage ↦ ?_⟩
  · have hne : page ≠ idx := by
      rintro rfl
      rw [halloc.not_used] at hpage
      simp at hpage
    exact (halloc.usedAt_of_ne page hne).trans hpage
  · have hused := (h.pool c hc idx hmem).used
    rw [halloc.not_used] at hused
    simp at hused
  · obtain ⟨j, hused⟩ := h.page_used ha
    rw [hpage, halloc.not_used] at hused
    simp at hused

omit h in
/-- The allocation made of a whole block. -/
def blockAllocation (idx k : ℕ) : Allocation := ⟨p2vTransKernel (idx * pageSize), k + 12⟩

omit h in
theorem blockAllocation_page_chunk {s : Buddy} (h : BuddyCore s) (hidx : idx < s.numPages) (k : ℕ) :
    (blockAllocation idx k).page = idx ∧ (blockAllocation idx k).chunk = 0 := by
  have haddr := h.addr_lt hidx
  obtain ⟨hpage, hchunk⟩ := Allocation.page_chunk idx 0 (k + 12) (by omega) (by decide)
  rw [Nat.add_zero] at hpage hchunk
  rw [Nat.zero_div] at hchunk
  exact ⟨hpage, hchunk⟩

theorem DynamicInvariant.addBlock (halloc : Allocated s.buddy size b idx m k) :
    DynamicInvariant { s with buddy := b } (blockAllocation idx k :: live) pools := by
  obtain ⟨h', hout, hlive⟩ := h.withAllocated halloc
  have hused := halloc.usedAt_idx h.wf.core
  have hlt : idx < b.numPages := halloc.core.lt (halloc.core.usedAt_le hused).1
  obtain ⟨hpageEq, -⟩ := blockAllocation_page_chunk halloc.core hlt k
  refine h'.changePage ⟨rfl, fun _ _ ↦ rfl, fun y _ ↦ ⟨_, rfl⟩, fun _ _ _ ↦ rfl,
    fun _ _ _ _ ↦ Iff.rfl, .cons hpageEq⟩ h'.wf h'.chain (fun c hc hmem ↦ absurd hmem (hout c hc))
    (h'.plain idx) (fun a ha hpage _ ↦ ?_)
    (List.pairwise_cons.2 ⟨fun a ha hpage ↦ ?_, h'.distinct⟩)
  · rcases List.mem_cons.1 ha with rfl | ha
    · rw [WholeBlock, hpageEq]
      exact ⟨k, hused, rfl, rfl⟩
    · exact absurd hpage (hlive a ha)
  · exact absurd (hpage.symm.trans hpageEq) (hlive a ha)

omit h in
/-- The result of a successful `malloc`: one more live allocation, in memory that was free. -/
def MallocResult (s : Allocator) (live : List Allocation) (size : ℕ)
    (result : ℕ × Allocator) : Prop :=
  (∃ pools', DynamicInvariant result.2 (⟨result.1, allocatedExp size result.2 result.1⟩ :: live) pools') ∧
    FreeMemory s ⟨result.1, allocatedExp size result.2 result.1⟩

omit h in
/-- What a successful `malloc` does to the used blocks: it takes a chunk of a page with live chunks,
or makes a new block at the page used. -/
def TakesBlock (s : Allocator) (live : List Allocation) (page : ℕ) (s' : Allocator) : Prop :=
  s'.buddy.numPagesExp = s.buddy.numPagesExp ∧
    ((usedAt s'.buddy = usedAt s.buddy ∧ ∃ a ∈ live, a.page = page) ∨
      (usedAt s.buddy page = none ∧ ∃ k, usedAt s'.buddy = Function.update (usedAt s.buddy) page (some k)))

/-! ## Requests for chunks -/

/-- The walk of `malloc` over the pool of a class. -/
theorem DynamicInvariant.scan (hc : PoolClass c) :
    Returns (poolScan s c (s.buddy.numPages + 1) none (s.memPool (c - minPoolSizeExp)))
      (ScanFinds s c none (pools c)) :=
  poolScan_spec hc (h.chain c hc)
    (fun page hpage ↦ ⟨h.pool_lt hc hpage, (h.pool c hc page hpage).curIdx⟩)
    (Nat.lt_succ_of_le (h.length_le hc))

/-- A chunk is found on a page of the pool: the page allocator is not asked. -/
theorem malloc_found {page i : ℕ} (hc : PoolClass c) (hplan : mallocPlan size = .ok (.pool c))
    (hscan : poolScan s.disableInt c (s.buddy.numPages + 1) none (s.memPool (c - minPoolSizeExp)) =
      .ok (.found page i)) :
    page ∈ pools c ∧ i < pageSize / 2 ^ c ∧ ChunkFree (s.nodes page) i ∧
      Returns (malloc s size) (fun result ↦ result.1 = (chunkAllocation page c i).ptr ∧
        result.2.buddy = s.buddy ∧ DynamicInvariant result.2 (chunkAllocation page c i :: live) pools) := by
  have hd := h.disableInt
  obtain ⟨hpage, hi, hfree⟩ := (hd.scan hc).post_of_eq hscan
  obtain ⟨⟨ptr, s'⟩, htake, hptr, hinv⟩ := takeChunk_spec hd hc hpage hi hfree
  have hscan' : poolScan s.disableInt c (s.disableInt.buddy.numPages + 1) none
      (s.disableInt.memPool (c - minPoolSizeExp)) = .ok (.found page i) := hscan
  refine ⟨hpage, hi, hfree, (ptr, s'.enableInt), ?_, hptr, ?_, hinv.enableInt⟩
  · unfold malloc
    rw [hplan, ok_bind]
    simp only [hc.readPool, ok_bind, hscan', htake]
    rfl
  · change s'.buddy.enableInt = s.buddy
    rw [takeChunk_buddy htake]
    exact s.buddy.disableInt_enableInt

end

/-- No chunk is found: a page of `buddy_malloc` is added to the pool. -/
theorem malloc_full {last block : Option ℕ} (hc : PoolClass c)
    (hplan : mallocPlan size = .ok (.pool c))
    (hscan : poolScan s.disableInt c (s.buddy.numPages + 1) none (s.memPool (c - minPoolSizeExp)) =
      .ok (.full last))
    (hrun : buddyMalloc s.disableInt.buddy 1 = .ok (block, b)) :
    malloc s size = (addPage { s.disableInt with buddy := b } c last (blockPtr block)).map
      (fun result ↦ (result.1, result.2.enableInt)) := by
  have hscan' : poolScan s.disableInt c (s.disableInt.buddy.numPages + 1) none
      (s.disableInt.memPool (c - minPoolSizeExp)) = .ok (.full last) := hscan
  unfold malloc
  rw [hplan, ok_bind]
  simp only [hc.readPool, ok_bind, hscan', hrun]
  rfl

theorem Allocated.takesBlock {s' : Allocator}
    (h : Allocated s.disableInt.buddy size b idx m k) (hcore : BuddyCore s.buddy)
    (hb : s'.buddy = b.enableInt) (live : List Allocation) : TakesBlock s live idx s' := by
  unfold TakesBlock
  rw [hb]
  exact ⟨h.frame.numPagesExp, .inr ⟨h.not_used, k, h.usedAt_eq hcore.disableInt⟩⟩

/-! ## Requests for pages -/

theorem Allocated.page_eq {s s' : Buddy} (h : Allocated s size s' idx m k)
    (hcore : BuddyCore s) : v2pTransKernel (p2vTransKernel (idx * pageSize)) / pageSize = idx := by
  have hlt : idx < s'.numPages := h.core.lt (h.core.usedAt_le (h.usedAt_idx hcore)).1
  exact (blockAllocation_page_chunk h.core hlt k).1

/-- A request for pages is answered with the block of `buddy_malloc`. -/
theorem malloc_pages {count : ℕ} (hcore : BuddyCore s.buddy)
    (hplan : mallocPlan size = .ok (.pages count))
    (hrun : buddyMalloc s.disableInt.buddy count = .ok (some idx, b))
    (halloc : Allocated s.disableInt.buddy count b idx m k) :
    malloc s size = .ok (p2vTransKernel (idx * pageSize), { s with buddy := b.enableInt }) ∧
      allocatedExp size { s with buddy := b.enableInt } (p2vTransKernel (idx * pageSize)) =
        k + 12 := by
  constructor
  · unfold malloc
    rw [hplan, ok_bind]
    simp only [hrun, ok_bind]
    rfl
  · unfold allocatedExp
    rw [hplan]
    simp only [halloc.page_eq hcore.disableInt]
    change (usedAt b idx).getD 0 + 12 = k + 12
    rw [halloc.usedAt_idx hcore.disableInt]
    rfl

/-! ## The specification -/

theorem malloc_spec
    (h : DynamicInvariant s live pools) (hsize : size ≠ 0) (hserve : BuddyServes s size) :
    Returns (malloc s size) (fun result ↦ MallocResult s live size result ∧
      TakesBlock s live (v2pTransKernel result.1 / pageSize) result.2) := by
  obtain ⟨plan, hplan, hfits⟩ := mallocPlan_spec size
  have hd := h.disableInt
  unfold BuddyServes at hserve
  rw [hplan] at hserve
  cases plan with
  | null => exact absurd hfits hsize
  | pages count =>
    obtain ⟨idx, b, hrun⟩ := hserve
    obtain ⟨m, k, halloc⟩ := (buddyMalloc_spec hd.wf.core hd.wf.noFreePair count).post_of_eq hrun
    obtain ⟨hmalloc, hexp⟩ := malloc_pages h.wf.core hplan hrun halloc
    refine Returns.of_eq hmalloc ⟨⟨⟨pools, ?_⟩, ?_⟩, ?_⟩
    · rw [hexp]
      exact (hd.addBlock halloc).enableInt
    · rw [hexp]
      refine .block idx m halloc.order_le halloc.free le_rfl ?_
      have hpow : 2 ^ k ≤ 2 ^ m := Nat.pow_le_pow_right (by decide) halloc.cut_le
      have hpages : 2 ^ (k + 12) = 2 ^ k * pageSize := by
        rw [pow_add]
        rfl
      simp only [hpages]
      exact Nat.add_le_add_left (Nat.mul_le_mul_right _ hpow) _
    · rw [halloc.page_eq hd.wf.core]
      exact halloc.takesBlock h.wf.core rfl live
  | pool c =>
    obtain ⟨-, hc, -⟩ := hfits
    have hexp (s' : Allocator) (ptr : ℕ) : allocatedExp size s' ptr = c := by
      unfold allocatedExp
      rw [hplan]
    unfold MallocResult
    simp only [hexp]
    obtain ⟨scan, hscan, hfinds⟩ := hd.scan hc
    cases scan with
    | found page i =>
      obtain ⟨hpage, hi, hfree, ⟨ptr, s'⟩, hrun, hptr, hbuddy, hinv⟩ :=
        malloc_found h hc hplan hscan
      have hptr' : (⟨ptr, c⟩ : Allocation) = chunkAllocation page c i := by
        rw [show ptr = (chunkAllocation page c i).ptr from hptr]
        rfl
      refine Returns.of_eq hrun ⟨⟨⟨pools, ?_⟩,
        .chunk c page i hc ⟨pools c, h.chain c hc, hpage⟩ hi hfree hptr'⟩, ?_⟩
      · simp only [hptr']
        exact hinv
      · have hpageEq := (chunkAllocation_page_chunk h.wf.core (h.pool_lt hc hpage) hc hi).1
        rw [← hptr'] at hpageEq
        change TakesBlock s live (Allocation.mk ptr c).page s'
        rw [hpageEq, TakesBlock, hbuddy]
        exact ⟨rfl, .inl ⟨rfl, (h.pool c hc page hpage).live_ne⟩⟩
    | full last =>
      obtain ⟨hlast, -⟩ := hfinds
      obtain ⟨idx, b, hrun⟩ := hserve last hscan
      obtain ⟨m, k, halloc⟩ := (buddyMalloc_spec hd.wf.core hd.wf.noFreePair 1).post_of_eq hrun
      obtain ⟨hd', hout, hlive⟩ := hd.withAllocated halloc
      obtain rfl := halloc.order_one
      have hused := halloc.usedAt_idx hd.wf.core
      rw [Option.or_none] at hlast
      obtain ⟨⟨ptr, s'⟩, hadd, hptr, hinv⟩ := addPage_spec hd' hc hused hout hlive
      have hptr' : (⟨ptr, c⟩ : Allocation) = chunkAllocation idx c 0 := by
        rw [show ptr = (chunkAllocation idx c 0).ptr from hptr]
        rfl
      have hmalloc : malloc s size = .ok (ptr, s'.enableInt) := by
        rw [malloc_full hc hplan hscan hrun, hlast, blockPtr, hadd]
        rfl
      refine Returns.of_eq hmalloc ⟨⟨⟨Function.update pools c (pools c ++ [idx]), ?_⟩, ?_⟩, ?_⟩
      · simp only [hptr']
        exact hinv.enableInt
      · have hptrEq : ptr = p2vTransKernel (idx * pageSize) := by
          simpa [chunkAllocation] using hptr
        refine .block idx m halloc.order_le halloc.free hptrEq.ge ?_
        change ptr + 2 ^ c ≤ _
        rw [hptrEq]
        have hpos : 1 ≤ 2 ^ m := Nat.one_le_two_pow
        have hpow : 2 ^ c ≤ pageSize := by
          have := hc.offset_lt hc.chunks_pos
          omega
        have hle := Nat.mul_le_mul hpos hpow
        rw [Nat.one_mul] at hle
        exact Nat.add_le_add_left hle _
      · have hlt : idx < b.numPages := halloc.core.lt (halloc.core.usedAt_le hused).1
        have hpageEq := (chunkAllocation_page_chunk halloc.core hlt hc hc.chunks_pos).1
        rw [← hptr'] at hpageEq
        change TakesBlock s live (Allocation.mk ptr c).page s'.enableInt
        rw [hpageEq]
        refine halloc.takesBlock h.wf.core ?_ live
        exact congrArg Buddy.enableInt (addPage_eq_ok hadd).2

end CapstoneKernel.Mem
