import CapstoneKernel.Mem.DynamicRuns

/-!
# Exhausted memory

`buddy_malloc` reports a failure with the physical address 0, and `malloc` translates every answer
to a kernel address, so its callers never see `NULL`.  Requests that can be served are served from
free memory; requests that cannot are answered with the address of page 0.
-/

namespace CapstoneKernel.Mem

open LinkedChain BuddyTiling Execution

variable {size : ℕ} {s : Allocator} {live : List Allocation} {pools : ℕ → List ℕ}

/-- No free block is large enough for the request and, for a pool size, every chunk of the class is
marked. -/
structure Exhausted (s : Allocator) (size : ℕ) : Prop where
  block : ∀ i k, k ≤ s.buddy.numPagesExp → s.buddy.arr i = k → 2 ^ k * pageSize < size
  chunk : ∀ c, mallocPlan size = .ok (.pool c) → ∀ page, OnPool s c page →
    ∀ i, i < pageSize / 2 ^ c → ¬ ChunkFree (s.nodes page) i

/-- The result for a request that cannot be served is `NULL`, with nothing changed but the console;
any other result lies in memory that was free. -/
structure ExhaustionReported (s : Allocator) (live : List Allocation) (size : ℕ) : Prop where
  null : Exhausted s size → ∃ console,
    malloc s size = .ok (0, { s with buddy := { s.buddy with console := console } })
  free : ∀ ptr s', malloc s size = .ok (ptr, s') → ptr ≠ 0 →
    FreeMemory s ⟨ptr, allocatedExp size s' ptr⟩ ∧
      ∀ a ∈ live, Allocation.Apart ⟨ptr, allocatedExp size s' ptr⟩ a

/-! ## Requests that can be served -/

/-- The number of pages that `malloc` asks for fits into a block that is large enough. -/
theorem pages_le_of_size_le {k : ℕ} (hk : k ≤ 30) (hpos : 0 < size) (hsize : size ≤ 2 ^ k * pageSize) :
    0 < ((size - 1) / pageSize + 1) % 2 ^ 32 ∧ ((size - 1) / pageSize + 1) % 2 ^ 32 ≤ 2 ^ k := by
  have hpow : 2 ^ k ≤ 2 ^ 30 := Nat.pow_le_pow_right (by decide) hk
  have hlt : (size - 1) / pageSize < 2 ^ k := by
    apply (Nat.div_lt_iff_lt_mul (by decide)).2
    omega
  rw [Nat.mod_eq_of_lt (by omega)]
  exact ⟨Nat.succ_pos _, hlt⟩

theorem buddyServes_of_not_exhausted
    (h : DynamicInvariant s live pools) (hpos : 0 < size) (hserve : ¬ Exhausted s size) :
    BuddyServes s size := by
  obtain ⟨plan, hplan, hfits⟩ := mallocPlan_spec size
  have hd := h.disableInt
  unfold BuddyServes
  rw [hplan]
  cases plan with
  | null => trivial
  | pages count =>
    have hblock : ∃ i k, k ≤ s.buddy.numPagesExp ∧ s.buddy.arr i = k ∧ size ≤ 2 ^ k * pageSize :=
      by
      by_contra hnone
      push Not at hnone
      refine hserve ⟨hnone, fun c hc ↦ ?_⟩
      rw [hplan] at hc
      cases hc
    obtain ⟨i, k, hk, hfree, hsize⟩ := hblock
    have hk30 := hk.trans h.wf.core.exp_le
    rcases hfits with ⟨-, rfl⟩ | ⟨-, -, rfl⟩
    · obtain ⟨hcount, hle⟩ := pages_le_of_size_le hk30 hpos hsize
      exact buddyMalloc_succeeds hd.wf hcount hk hfree hle
    · exact buddyMalloc_succeeds hd.wf Nat.one_pos hk hfree Nat.one_le_two_pow
  | pool c =>
    obtain ⟨-, hc, hsize⟩ := hfits
    intro last hscan
    have hfull := (hd.scan hc).post_of_eq hscan
    -- No chunk of the class is free, so a free block is what is left.
    have hblock : ∃ i k, k ≤ s.buddy.numPagesExp ∧ s.buddy.arr i = k := by
      by_contra hnone
      push Not at hnone
      refine hserve ⟨fun i k hk hfree ↦ absurd hfree (hnone i k hk), fun c' hc' page hon ↦ ?_⟩
      rw [hplan] at hc'
      obtain rfl : c = c' := by
        have := Except.ok.inj hc'
        simpa using this
      exact hfull.2 page (h.mem_of_onPool hc hon)
    obtain ⟨i, k, hk, hfree⟩ := hblock
    exact buddyMalloc_succeeds hd.wf Nat.one_pos hk hfree Nat.one_le_two_pow

/-! ## Requests that cannot be served -/

theorem p2vTransKernel_ne_zero {addr : ℕ} (h : addr < 2 ^ 48) : p2vTransKernel addr ≠ 0 := by
  rw [p2vTransKernel_eq h]
  unfold vKernelSpace
  omega

theorem buddyMalloc_ptr_lt {b b' : Buddy} (h : BuddyWf b) {count : ℕ} {block : Option ℕ}
    (hrun : buddyMalloc b count = .ok (block, b')) : blockPtr block < 2 ^ 48 := by
  cases block with
  | none => decide
  | some idx =>
    obtain ⟨m, k, halloc⟩ := (buddyMalloc_spec h.core h.noFreePair count).post_of_eq hrun
    have hidx : idx < b.numPages := h.core.lt (h.core.order_of_free halloc.order_le halloc.free)
    have := h.core.addr_lt hidx
    change idx * pageSize < _
    omega

/-- Whatever happens, `malloc` does not return `NULL` for a size other than 0. -/
theorem malloc_ne_null {s' : Allocator}
    (h : DynamicInvariant s live pools) {ptr : ℕ} (hpos : 0 < size)
    (hrun : malloc s size = .ok (ptr, s')) : ptr ≠ 0 := by
  have hd := h.disableInt
  obtain ⟨plan, hplan, hrun⟩ := of_bind_eq_ok hrun
  have hfits := (mallocPlan_spec size).post_of_eq hplan
  cases plan with
  | null => exact absurd hfits hpos.ne'
  | pages count =>
    obtain ⟨⟨block, b⟩, hmalloc, hrun⟩ := of_bind_eq_ok hrun
    obtain ⟨rfl, -⟩ := Prod.mk.inj (Except.ok.inj hrun)
    exact p2vTransKernel_ne_zero (buddyMalloc_ptr_lt hd.wf hmalloc)
  | pool c =>
    obtain ⟨-, hc, -⟩ := hfits
    obtain ⟨head, hhead, hrun⟩ := of_bind_eq_ok hrun
    obtain ⟨scan, hscan, hrun⟩ := of_bind_eq_ok hrun
    rw [hc.readPool] at hhead
    obtain rfl := Except.ok.inj hhead
    have hfinds := (hd.scan hc).post_of_eq hscan
    cases scan with
    | found page i =>
      obtain ⟨⟨ptr', s₁⟩, htake, hrun⟩ := of_bind_eq_ok hrun
      obtain rfl : ptr' = ptr := congrArg Prod.fst (Except.ok.inj hrun)
      obtain ⟨hpage, hi, hfree⟩ := hfinds
      have hptr := ((takeChunk_spec hd hc hpage hi hfree).post_of_eq htake).1
      have haddr := hd.wf.core.addr_lt (hd.pool_lt hc hpage)
      have hbase := p2vTransKernel_ne_zero (show page * pageSize < 2 ^ 48 by omega)
      rw [show ptr' = p2vTransKernel (page * pageSize) + i * 2 ^ c from hptr]
      omega
    | full last =>
      obtain ⟨⟨block, b⟩, hmalloc, hrun⟩ := of_bind_eq_ok hrun
      obtain ⟨⟨ptr', s₁⟩, hadd, hrun⟩ := of_bind_eq_ok hrun
      obtain rfl : ptr' = ptr := congrArg Prod.fst (Except.ok.inj hrun)
      rw [(addPage_eq_ok hadd).1]
      exact p2vTransKernel_ne_zero (buddyMalloc_ptr_lt hd.wf hmalloc)

theorem not_reported_of_exhausted
    (h : DynamicInvariant s live pools) (hpos : 0 < size) (hexhausted : Exhausted s size) :
    ¬ ExhaustionReported s live size := by
  intro hreported
  obtain ⟨console, hrun⟩ := hreported.null hexhausted
  exact malloc_ne_null h hpos hrun rfl

/-! ## Exhaustion is never reported -/

/-- In the runs in which `buddy_malloc` found every block so far, the next request is treated as it
should be exactly when it can be served. -/
theorem exhaustion_reported_iff {usableEnd : ℕ} (hend : usableEnd ≤ 2 ^ 42) :
    ∀ r, HeapReachable usableEnd r → ∀ size, 0 < size → size < 2 ^ 64 →
      (ExhaustionReported r.alloc r.live size ↔ ¬ Exhausted r.alloc size) := by
  intro r hr size hpos hlt
  obtain ⟨pools, hinv⟩ := hr.invariant hend
  constructor
  · exact fun hreported hexhausted ↦ not_reported_of_exhausted hinv hpos hexhausted hreported
  · intro hserve
    refine ⟨fun hexhausted ↦ absurd hexhausted hserve, fun ptr s' hrun _ ↦ ?_⟩
    have hserves := buddyServes_of_not_exhausted hinv hpos hserve
    obtain ⟨⟨⟨pools', hinv'⟩, hfree⟩, -⟩ := (malloc_spec hinv hpos.ne' hserves).post_of_eq hrun
    exact ⟨hfree, (List.pairwise_cons.1 hinv'.apart).1⟩

theorem exhaustion_reported_iff_rpi3 :
    0x3b400000 ≤ 2 ^ 42 ∧ ∀ r, HeapReachable 0x3b400000 r → ∀ size, 0 < size → size < 2 ^ 64 →
      (ExhaustionReported r.alloc r.live size ↔ ¬ Exhausted r.alloc size) :=
  ⟨by decide, exhaustion_reported_iff (by decide)⟩

/-- The request for all of the memory, with the order of the memory and the mark of its first
page. -/
theorem onePageBoot_malloc :
    (onePageBoot >>= fun b ↦ (malloc (dynamicAllocatorInit b) 0x40000000).map
      (fun result ↦ (result.1, b.numPagesExp, b.arr 0))).toOption = some (0xffff000000000000, 18, negZero) := by
  decide +kernel

/-- A request that no block can hold is answered with the kernel address of page 0. -/
theorem exhaustion_answered_with_page_zero :
    ∃ r, HeapReachable 0x3b400000 r ∧ Exhausted r.alloc 0x40000000 ∧
      (∃ s, malloc r.alloc 0x40000000 = .ok (0xffff000000000000, s)) ∧
      ¬ ExhaustionReported r.alloc r.live 0x40000000 := by
  obtain ⟨b, hboot, hrun⟩ := of_bind_eq_ok (eq_ok_of_toOption onePageBoot_malloc)
  have hb := onePageBoot_reachable hboot
  have hwf := (hb.wf (by decide)).1
  obtain ⟨⟨ptr, s⟩, hmalloc, hresult⟩ := map_eq_ok hrun
  obtain ⟨rfl, hrest⟩ := Prod.mk.inj hresult
  obtain ⟨hn, hmark⟩ := Prod.mk.inj hrest
  have hexhausted : Exhausted (dynamicAllocatorInit b) 0x40000000 := by
    have hplan : mallocPlan 0x40000000 = .ok (.pages 0x40000) := by rfl
    refine ⟨fun i k hk hfree ↦ ?_, fun c hc ↦ absurd (hplan.symm.trans hc) nofun⟩
    -- Only a block of all pages could hold the request, and it would start at page 0.
    change k ≤ b.numPagesExp at hk
    change b.arr i = k at hfree
    by_contra hlarge
    have hpow : 2 ^ 18 ≤ 2 ^ k := by
      unfold pageSize at hlarge
      omega
    have hk18 : k = 18 := by
      have := (Nat.pow_le_pow_iff_right (by decide)).1 hpow
      omega
    have hord := hwf.core.order_of_free hk hfree
    have hzero : i = 0 := by
      apply Nat.eq_zero_of_dvd_of_lt (hwf.core.tiling.aligned hord)
      rw [hk18, ← hn]
      exact hwf.core.tiling.lt hord
    rw [hzero, hmark, hk18] at hfree
    exact absurd hfree (by decide)
  have hreach : HeapReachable 0x3b400000 ⟨dynamicAllocatorInit b, []⟩ := .start ⟨b, hb, rfl⟩
  exact ⟨_, hreach, hexhausted, ⟨s, hmalloc⟩,
    not_reported_of_exhausted (dynamicAllocatorInit_invariant hwf) (by decide) hexhausted⟩

end CapstoneKernel.Mem
