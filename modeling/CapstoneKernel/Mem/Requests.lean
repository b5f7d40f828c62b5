import CapstoneKernel.Mem.BuddyBlocks
import CapstoneKernel.Mem.DynamicRuns

/-!
# What a request gets

Two computations of `malloc` are narrower than the data they work on.  The chunk masks are 32-bit
shifts, so that chunk `i` and chunk `i + 32` of a bitmap word count as one, and classes with more
than 32 chunks give out half of them.  The number of pages is a 32-bit argument of `buddy_malloc`,
so that requests above `2^44` bytes are cut down.
-/

namespace CapstoneKernel.Mem

open LinkedChain BuddyTiling Execution

variable {size c page : ℕ} {s : Allocator} {live : List Allocation}

/-! ## Size classes -/

/-- The exponent of the size class of a request. -/
def sizeClass (size : ℕ) : ℕ := max (Nat.clog 2 size) minPoolSizeExp

theorem clog_eq {k : ℕ} (henough : size ≤ 2 ^ k) (htight : k = 0 ∨ 2 ^ (k - 1) < size) :
    Nat.clog 2 size = k := by
  apply le_antisymm ((Nat.clog_le_iff_le_pow (by decide)).2 henough)
  rcases htight with rfl | htight
  · exact Nat.zero_le _
  · have := (Nat.lt_clog_iff_pow_lt (by decide)).2 htight
    omega

/-- Requests up to 2048 bytes are served from the pool of their class. -/
theorem mallocPlan_pool (hpos : 0 < size) (hle : size ≤ 2048) :
    mallocPlan size = .ok (.pool (sizeClass size)) ∧ PoolClass (sizeClass size) := by
  have hlt : size < pageSize := by
    unfold pageSize
    omega
  obtain ⟨exp, hrun, -, hsize, htight⟩ :=
    sizeExpLoop_spec hlt (Nat.zero_le 12) (by decide : 12 < 13 + 0)
    (.inl rfl)
  have hexp : exp = Nat.clog 2 size := (clog_eq hsize htight).symm
  have hmax : exp ≤ maxPoolSizeExp := by
    rw [hexp]
    exact (Nat.clog_le_iff_le_pow (by decide)).2 hle
  refine ⟨?_, le_max_right _ _, ?_⟩
  · unfold mallocPlan
    rw [if_neg hpos.ne', if_neg (Nat.not_le.2 hlt)]
    change sizeExpLoop size 13 (2 ^ 0) 0 >>= _ = _
    rw [hrun, ok_bind, if_neg (Nat.not_lt.2 hmax), hexp]
    rfl
  · rw [sizeClass, ← hexp]
    exact max_le hmax (by decide)

theorem sizeClass_le_six_iff : sizeClass size ≤ 6 ↔ size ≤ 64 := by
  rw [sizeClass, max_le_iff, Nat.clog_le_iff_le_pow (by decide)]
  exact and_iff_left (by decide)

/-! ## The chunks of a class -/

/-- A chunk of some page on the pool of the class is not live. -/
def SpareChunk (r : HeapRun) (c : ℕ) : Prop :=
  ∃ page i, OnPool r.alloc c page ∧ i < pageSize / 2 ^ c ∧ chunkAllocation page c i ∉ r.live

/-- A chunk of some page on the pool of the class shares its mask with no live chunk. -/
def SpareMask (r : HeapRun) (c : ℕ) : Prop :=
  ∃ page i, OnPool r.alloc c page ∧ i < pageSize / 2 ^ c ∧
    ∀ a ∈ r.live, a.page = page → ¬ SameMask i a.chunk

/-- The request is answered with a chunk of a page that is on the pool, and the page allocator is
not asked. -/
def ServedFromPool (r : HeapRun) (size : ℕ) : Prop :=
  ∃ page i s, OnPool r.alloc (sizeClass size) page ∧ i < pageSize / 2 ^ sizeClass size ∧
    malloc r.alloc size = .ok ((chunkAllocation page (sizeClass size) i).ptr, s) ∧
    s.buddy = r.alloc.buddy

section Pools

variable {r : HeapRun} {pools : ℕ → List ℕ}

theorem DynamicInvariant.onPool_iff (h : DynamicInvariant s live pools)
    (hc : PoolClass c) : OnPool s c page ↔ page ∈ pools c :=
  ⟨h.mem_of_onPool hc, fun hpage ↦ ⟨pools c, h.chain c hc, hpage⟩⟩

theorem DynamicInvariant.chunkFree_iff
    (h : DynamicInvariant s live pools) {i : ℕ} (hc : PoolClass c) (hpage : page ∈ pools c)
    (hi : i < pageSize / 2 ^ c) :
    ChunkFree (s.nodes page) i ↔ ∀ a ∈ live, a.page = page → ¬ SameMask i a.chunk := by
  have htest := ((h.pool c hc page hpage).bitmap _ (hc.word_lt hi)).test
  constructor
  · intro hfree a ha hpage' hmask
    exact htest.2 ⟨a.chunk, ⟨a, ha, hpage', rfl⟩, hmask⟩ hfree
  · intro hnone
    by_contra hset
    obtain ⟨j, ⟨a, ha, hpage', rfl⟩, hmask⟩ := htest.1 hset
    exact hnone a ha hpage' hmask

section

variable (h : DynamicInvariant r.alloc r.live pools)
include h

/-- In a class with at most 32 chunks every chunk has its own mask. -/
theorem SpareChunk.spareMask (hc : PoolClass c) (hfew : 6 < c) (hspare : SpareChunk r c) :
    SpareMask r c := by
  obtain ⟨page, i, hon, hi, hnot⟩ := hspare
  have hpage := h.mem_of_onPool hc hon
  have hchunks : pageSize / 2 ^ c ≤ 32 := by
    have hpow : 2 ^ 7 ≤ 2 ^ c := Nat.pow_le_pow_right (by decide) hfew
    exact (Nat.div_le_div_left hpow (by decide)).trans (by decide)
  refine ⟨page, i, hon, hi, fun a ha hap hmask ↦ hnot ?_⟩
  subst hap
  obtain ⟨heq, hchunk⟩ := h.eq_chunkAllocation ha hc hpage
  obtain rfl : i = a.chunk := by
    have := hmask.2
    omega
  rw [← heq]
  exact ha

/-- In a class with more than 32 chunks one of two chunks with the same mask is not live. -/
theorem spareChunk_of_onPool (hc : PoolClass c) (hmany : c ≤ 6) (hon : OnPool r.alloc c page) :
    SpareChunk r c := by
  have hpage := h.mem_of_onPool hc hon
  have hlt := h.pool_lt hc hpage
  have hchunks : 64 ≤ pageSize / 2 ^ c := by
    have hpow : 2 ^ c ≤ 2 ^ 6 := Nat.pow_le_pow_right (by decide) hmany
    exact le_trans (by decide : 64 ≤ pageSize / 2 ^ 6) (Nat.div_le_div_left hpow (by positivity))
  obtain ⟨hpage₀, hchunk₀⟩ := chunkAllocation_page_chunk h.wf.core hlt hc (by omega : 0 < _)
  obtain ⟨hpage₁, hchunk₁⟩ := chunkAllocation_page_chunk h.wf.core hlt hc (by omega : 32 < _)
  by_cases hlive : chunkAllocation page c 0 ∈ r.live
  · refine ⟨page, 32, hon, by omega, fun hlive' ↦ ?_⟩
    have hne : chunkAllocation page c 0 ≠ chunkAllocation page c 32 := by
      intro heq
      rw [heq, hchunk₁] at hchunk₀
      exact absurd hchunk₀ (by decide)
    apply h.not_sameMask hlive hlive' hne (hpage₀.trans hpage₁.symm)
    rw [hchunk₀, hchunk₁]
    exact ⟨rfl, rfl⟩
  · exact ⟨page, 0, hon, by omega, hlive⟩

/-- `malloc` finds the chunks whose masks are clear and no others. -/
theorem servedFromPool_iff (hpos : 0 < size) (hle : size ≤ 2048) :
    ServedFromPool r size ↔ SpareMask r (sizeClass size) := by
  obtain ⟨hplan, hc⟩ := mallocPlan_pool hpos hle
  have hd := h.disableInt
  obtain ⟨scan, hscan, hfinds⟩ := hd.scan hc
  cases scan with
  | found page i =>
    obtain ⟨hpage, hi, hfree, ⟨ptr, s⟩, hrun, hptr, hbuddy, -⟩ := malloc_found h hc hplan hscan
    have hon := (h.onPool_iff hc).2 hpage
    refine iff_of_true ⟨page, i, s, hon, hi, ?_, hbuddy⟩ ⟨page, i, hon, hi, ?_⟩
    · rw [hrun]
      exact congrArg (fun x ↦ Except.ok (x, s)) hptr
    · exact (h.chunkFree_iff hc hpage hi).1 hfree
  | full last =>
    apply iff_of_false
    · rintro ⟨page, i, s, -, -, hrun, hbuddy⟩
      obtain ⟨⟨block, b⟩, hmalloc, hpost⟩ := buddyMalloc_spec hd.wf.core hd.wf.noFreePair 1
      rw [malloc_full hc hplan hscan hmalloc] at hrun
      obtain ⟨⟨ptr, s₁⟩, hadd, heq⟩ := map_eq_ok hrun
      cases heq
      have hsame : b.enableInt = r.alloc.buddy := by
        rw [← hbuddy, ← show s₁.buddy = b from (addPage_eq_ok hadd).2]
        rfl
      -- A call of `buddy_malloc` leaves a new mark or a message.
      cases block with
      | none =>
        rcases hpost with ⟨hzero, -⟩ | ⟨-, rfl, -⟩
        · exact absurd hzero (by decide)
        · have hconsole := congrArg (fun x ↦ x.console.length) hsame
          simp [Buddy.enableInt, Buddy.print, Allocator.disableInt, Buddy.disableInt] at hconsole
      | some idx =>
        obtain ⟨m, k, halloc⟩ := hpost
        have hmark : b.arr idx = r.alloc.buddy.arr idx := congrArg (fun x ↦ x.arr idx) hsame
        rw [halloc.mark, show r.alloc.buddy.arr idx = m from halloc.free] at hmark
        exact usedMark_ne_cast k m hmark
    · rintro ⟨page, i, hon, hi, hnone⟩
      have hpage := h.mem_of_onPool hc hon
      exact hfinds.2 page hpage i hi ((h.chunkFree_iff hc hpage hi).2 hnone)

end

end Pools

/-- A request goes to a page on its pool while there is a spare chunk exactly when its class has at
most 32 chunks a page, or some mask is clear, or the pool has no page. -/
theorem spare_chunks_used_iff {usableEnd : ℕ} (hend : usableEnd ≤ 2 ^ 42) :
    ∀ r, HeapReachable usableEnd r → ∀ size, 0 < size → size ≤ 2048 →
      ((SpareChunk r (sizeClass size) → ServedFromPool r size) ↔
        64 < size ∨ SpareMask r (sizeClass size) ∨ ∀ page,
          ¬ OnPool r.alloc (sizeClass size) page) := by
  intro r hr size hpos hle
  obtain ⟨pools, hinv⟩ := hr.invariant hend
  obtain ⟨-, hc⟩ := mallocPlan_pool hpos hle
  rw [servedFromPool_iff hinv hpos hle]
  constructor
  · intro hused
    by_contra hnot
    push Not at hnot
    obtain ⟨hsmall, hmask, page, hon⟩ := hnot
    exact hmask (hused (spareChunk_of_onPool hinv hc (sizeClass_le_six_iff.2 hsmall) hon))
  · rintro (hlarge | hmask | hempty) hspare
    · refine hspare.spareMask hinv hc ?_
      by_contra hle
      have := sizeClass_le_six_iff.1 (Nat.le_of_not_lt hle)
      omega
    · exact hmask
    · obtain ⟨page, -, hon, -⟩ := hspare
      exact absurd hon (hempty page)

theorem sizeClass_64 : sizeClass 64 = 6 := by
  rw [sizeClass, clog_eq (by decide : 64 ≤ 2 ^ 6) (.inr (by decide))]
  rfl

/-- After 32 requests for 64 bytes their page has 32 chunks left, and the next request changes the
mark of page 2. -/
theorem exists_half_page :
    ∃ r, HeapReachable 0x3b400000 r ∧ r.alloc.memPool 2 = some 1 ∧ (r.alloc.nodes 1).next = none ∧
      chunkAllocation 1 6 32 ∉ r.live ∧
      ((malloc r.alloc 64).map fun result ↦ result.2.buddy.arr 2).toOption ≠ some
        (r.alloc.buddy.arr 2) :=
  HeapReachable.exists_mallocs (List.replicate 32 64) _ (by decide +kernel)

theorem spare_chunks_used_iff_half_page :
    ∃ r, HeapReachable 0x3b400000 r ∧ r.alloc.memPool 2 = some 1 ∧
      ((SpareChunk r (sizeClass 64) → ServedFromPool r 64) ↔
        64 < 64 ∨ SpareMask r (sizeClass 64) ∨ ∀ page, ¬ OnPool r.alloc (sizeClass 64) page) := by
  obtain ⟨r, hr, hpool, -⟩ := exists_half_page
  exact ⟨r, hr, hpool, spare_chunks_used_iff (by decide) r hr 64 (by decide) (by decide)⟩

/-- The next request for 64 bytes takes a new page although half of the chunks are not live. -/
theorem half_page_never_used :
    ∃ r, HeapReachable 0x3b400000 r ∧ SpareChunk r (sizeClass 64) ∧ ¬ ServedFromPool r 64 := by
  obtain ⟨r, hr, hhead, hnext, hnot, hmark⟩ := exists_half_page
  have hon : OnPool r.alloc 6 1 := ⟨[1], ⟨hhead, hnext⟩, List.mem_singleton_self 1⟩
  refine ⟨r, hr, ?_, ?_⟩
  · rw [sizeClass_64]
    exact ⟨1, 32, hon, by decide, hnot⟩
  · rintro ⟨page, i, s, -, -, hrun, hbuddy⟩
    rw [hrun] at hmark
    exact hmark (congrArg (fun b : Buddy ↦ some (b.arr 2)) hbuddy)

/-! ## The number of pages -/

/-- The `uint32_t` argument of `buddy_malloc` for a request of at least a page. -/
def pageCount (size : ℕ) : ℕ := ((size - 1) / pageSize + 1) % 2 ^ 32

/-- A chunk or block that is handed out is as large as the request. -/
def LargeEnough (r : HeapRun) (size : ℕ) : Prop :=
  BuddyServes r.alloc size → ∀ ptr s, malloc r.alloc size = .ok (ptr, s) →
    size ≤ 2 ^ allocatedExp size s ptr

/-- The pages that are asked for hold the request, unless their number does not fit into 32 bits. -/
theorem size_le_of_pages {count : ℕ} (hfits : PlanFits size (.pages count)) (hsize : size ≤ 2 ^ 44)
    (hcount : 0 < count) : size ≤ count * pageSize := by
  rcases hfits with ⟨-, rfl⟩ | ⟨-, hlt, rfl⟩
  · have hle : (size - 1) / pageSize + 1 ≤ 2 ^ 32 := by
      have : (size - 1) / pageSize < 2 ^ 32 := (Nat.div_lt_iff_lt_mul (by decide)).2 (by
        unfold pageSize
        omega)
      omega
    have hlt : (size - 1) / pageSize + 1 < 2 ^ 32 := by
      refine lt_of_le_of_ne hle fun heq ↦ ?_
      rw [heq, Nat.mod_self] at hcount
      exact absurd hcount (lt_irrefl 0)
    rw [Nat.mod_eq_of_lt hlt]
    have := Nat.lt_mul_div_succ (size - 1) (by decide : 0 < pageSize)
    rw [Nat.mul_comm] at this
    omega
  · omega

variable {pools : ℕ → List ℕ}

theorem largeEnough_of_le {r : HeapRun} (h : DynamicInvariant r.alloc r.live pools)
    (hpos : 0 < size) (hsize : size ≤ 2 ^ 44) : LargeEnough r size := by
  intro hserve ptr s hrun
  have hd := h.disableInt
  obtain ⟨plan, hplan, hfits⟩ := mallocPlan_spec size
  unfold BuddyServes at hserve
  rw [hplan] at hserve
  cases plan with
  | null => exact absurd hfits hpos.ne'
  | pages count =>
    obtain ⟨idx, b, hbuddy⟩ := hserve
    obtain ⟨m, k, halloc⟩ := (buddyMalloc_spec hd.wf.core hd.wf.noFreePair count).post_of_eq hbuddy
    obtain ⟨hmalloc, hexp⟩ := malloc_pages h.wf.core hplan hbuddy halloc
    rw [hrun] at hmalloc
    obtain ⟨hptr, hs⟩ := Prod.mk.inj (Except.ok.inj hmalloc)
    rw [hptr, hs, hexp]
    calc
      size ≤ count * pageSize := size_le_of_pages hfits hsize halloc.pos
      _ ≤ 2 ^ k * pageSize := Nat.mul_le_mul_right _ halloc.enough
      _ = 2 ^ (k + 12) := by rw [pow_add]; rfl
  | pool c =>
    have hexp : allocatedExp size s ptr = c := by
      unfold allocatedExp
      rw [hplan]
    rw [hexp]
    exact hfits.2.2

theorem DynamicInvariant.size_le (h : DynamicInvariant s live pools) {a : Allocation}
    (ha : a ∈ live) : 2 ^ a.exp ≤ 2 ^ 42 := by
  obtain ⟨k, hused, hlow, hhigh⟩ := h.home ha
  have hk : k ≤ 30 := (h.wf.core.usedAt_le hused).2.2.trans h.wf.core.exp_le
  have hpow : 2 ^ k ≤ 2 ^ 30 := Nat.pow_le_pow_right (by decide) hk
  unfold pageSize at hlow hhigh
  omega

theorem mallocPlan_large (hsize : 2 ^ 44 < size) :
    mallocPlan size = .ok (.pages (pageCount size)) := by
  have hpage : pageSize ≤ size := by
    unfold pageSize
    omega
  unfold mallocPlan
  rw [if_neg (by omega), if_pos hpage]
  rfl

/-- What is handed out is large enough exactly for requests up to `2^44` bytes, and for larger ones
that no free block is found for. -/
theorem malloc_large_enough_iff {usableEnd : ℕ} (hend : usableEnd ≤ 2 ^ 42) :
    ∀ r, HeapReachable usableEnd r → ∀ size, 0 < size → size < 2 ^ 64 → (LargeEnough r size ↔
        size ≤ 2 ^ 44 ∨ ∀ i k, FreeBlock r.alloc.buddy i k →
          ¬ (0 < pageCount size ∧ pageCount size ≤ 2 ^ k)) := by
  intro r hr size hpos hlt
  obtain ⟨pools, hinv⟩ := hr.invariant hend
  have hd := hinv.disableInt
  constructor
  · intro hlarge
    by_contra hnot
    push Not at hnot
    obtain ⟨hsize, i, k, hfree, hcount, hle⟩ := hnot
    have hserve : BuddyServes r.alloc size := by
      unfold BuddyServes
      rw [mallocPlan_large hsize]
      exact buddyMalloc_succeeds hd.wf hcount hfree.1 hfree.2 hle
    obtain ⟨⟨ptr, s⟩, hrun, ⟨⟨pools', hinv'⟩, -⟩, -⟩ := malloc_spec hinv hpos.ne' hserve
    have hsmall := hinv'.size_le List.mem_cons_self
    have := hlarge hserve ptr s hrun
    simp only [] at hsmall
    omega
  · rintro (hsize | hnone)
    · exact largeEnough_of_le hinv hpos hsize
    · by_cases hsize : size ≤ 2 ^ 44
      · exact largeEnough_of_le hinv hpos hsize
      · intro hserve
        unfold BuddyServes at hserve
        rw [mallocPlan_large (Nat.lt_of_not_le hsize)] at hserve
        obtain ⟨idx, b, hrun⟩ := hserve
        obtain ⟨m, k, halloc⟩ := (buddyMalloc_spec hd.wf.core hd.wf.noFreePair _).post_of_eq hrun
        have hpow : 2 ^ k ≤ 2 ^ m := Nat.pow_le_pow_right (by decide) halloc.cut_le
        exact absurd ⟨halloc.pos, halloc.enough.trans hpow⟩
          (hnone idx m ⟨halloc.order_le, halloc.free⟩)

/-- The boot with one request for 100 bytes. -/
theorem malloc_large_enough_iff_once :
    ∃ r, HeapReachable 0x3b400000 r ∧ r.live ≠ [] ∧ (LargeEnough r 5000 ↔
        5000 ≤ 2 ^ 44 ∨ ∀ i k, FreeBlock r.alloc.buddy i k →
          ¬ (0 < pageCount 5000 ∧ pageCount 5000 ≤ 2 ^ k)) := by
  obtain ⟨r, hr, hlive⟩ := HeapReachable.exists_mallocs [100] (fun r ↦ r.live ≠ [])
    (by decide +kernel)
  exact ⟨r, hr, hlive, malloc_large_enough_iff (by decide) r hr 5000 (by decide) (by decide)⟩

/-- A request for `2^44 + 1` bytes is answered with one page. -/
theorem one_page_for_huge_request :
    ∃ r, HeapReachable 0x3b400000 r ∧ BuddyServes r.alloc (2 ^ 44 + 1) ∧
      (∃ ptr s, malloc r.alloc (2 ^ 44 + 1) = .ok (ptr, s) ∧ allocatedExp (2 ^ 44 + 1) s ptr = 12) ∧
      ¬ LargeEnough r (2 ^ 44 + 1) := by
  obtain ⟨r, hr, hserve, hexp⟩ := HeapReachable.exists_mallocs []
    (fun r ↦ BuddyServes r.alloc (2 ^ 44 + 1) ∧ ((malloc r.alloc (2 ^ 44 + 1)).map fun result ↦
      allocatedExp (2 ^ 44 + 1) result.2 result.1).toOption = some 12) (by decide +kernel)
  obtain ⟨⟨ptr, s⟩, hrun, hexp⟩ := map_eq_ok (eq_ok_of_toOption hexp)
  refine ⟨r, hr, hserve, ⟨ptr, s, hrun, hexp⟩, fun hlarge ↦ ?_⟩
  have hle := hlarge hserve ptr s hrun
  rw [hexp] at hle
  exact absurd hle (by decide)

end CapstoneKernel.Mem
