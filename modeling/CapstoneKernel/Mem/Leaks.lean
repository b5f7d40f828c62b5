import CapstoneKernel.Mem.BuddyBlocks
import CapstoneKernel.Mem.DynamicRuns

/-!
# Memory that comes back

The blocks of the live allocations lie on top of the blocks that were in use before the dynamic
allocator started.  When every allocation has been freed, the pools are empty and the page allocator
has its free blocks back.  A second `free` of the same pointer finds its chunk unmarked or its page
not in use, and only prints a message.
-/

namespace CapstoneKernel.Mem

open LinkedChain BuddyTiling Execution Function List

variable {b : Buddy} {s s' : Allocator} {live : List Allocation} {a : Allocation}

/-- The runs of `malloc` and `free` on top of the page allocator `b`. -/
def HeapRunsFrom (b : Buddy) : HeapRun → Prop :=
  Reachable (fun r ↦ r = ⟨dynamicAllocatorInit b, []⟩) HeapStep

variable {usableEnd : ℕ} {r : HeapRun} {pools : ℕ → List ℕ}

theorem HeapRunsFrom.reachable (hb : BuddyReachable usableEnd b) (h : HeapRunsFrom b r) :
    HeapReachable usableEnd r := by
  induction h with
  | start hinit => exact .start ⟨b, hb, hinit⟩
  | next _ hstep ih => exact .next ih hstep

/-! ## The blocks of the live allocations -/

/-- The used blocks are those of `b` and, at pages that headed no used block of `b`, those of the
live allocations. -/
structure OnTopOf (b : Buddy) (s : Allocator) (live : List Allocation) : Prop where
  numPagesExp : s.buddy.numPagesExp = b.numPagesExp
  same : ∀ page, (∀ a ∈ live, a.page ≠ page) → usedAt s.buddy page = usedAt b page
  fresh : ∀ a ∈ live, usedAt b a.page = none

theorem OnTopOf.malloc (h : OnTopOf b s live) (hinv : DynamicInvariant s live pools)
    (htakes : TakesBlock s live a.page s') : OnTopOf b s' (a :: live) := by
  obtain ⟨hn, ⟨hused, x, hx, hpage⟩ | ⟨hnone, k, hused⟩⟩ := htakes
  · refine ⟨hn.trans h.numPagesExp, fun page hout ↦ ?_, fun y hy ↦ ?_⟩
    · rw [hused]
      exact h.same page fun y hy ↦ hout y (mem_cons_of_mem a hy)
    · rcases mem_cons.1 hy with rfl | hy
      · rw [← hpage]
        exact h.fresh x hx
      · exact h.fresh y hy
  · -- The head of a free block is the page of no live allocation.
    have hout (y : Allocation) (hy : y ∈ live) : y.page ≠ a.page := by
      intro heq
      obtain ⟨j, hj⟩ := hinv.page_used hy
      rw [heq, hnone] at hj
      cases hj
    refine ⟨hn.trans h.numPagesExp, fun page hpage ↦ ?_, fun y hy ↦ ?_⟩
    · rw [hused, update_of_ne (hpage a mem_cons_self).symm]
      exact h.same page fun y hy ↦ hpage y (mem_cons_of_mem a hy)
    · rcases mem_cons.1 hy with rfl | hy
      · rw [← h.same y.page hout, hnone]
      · exact h.fresh y hy

theorem OnTopOf.free (h : OnTopOf b s live)
    (ha : a ∈ live) (hreturns : ReturnsBlock s (live.erase a) a.page s') :
    OnTopOf b s' (live.erase a) := by
  have hfresh (y : Allocation) (hy : y ∈ live.erase a) : usedAt b y.page = none :=
    h.fresh y (mem_of_mem_erase hy)
  -- Only the page of the freed allocation can lose its last live allocation.
  have hkeep (page : ℕ) (hne : page ≠ a.page) (hout : ∀ y ∈ live.erase a, y.page ≠ page) :
      usedAt s.buddy page = usedAt b page := by
    refine h.same page fun y hy heq ↦ ?_
    by_cases hya : y = a
    · exact hne (by rw [← heq, hya])
    · exact hout y ((mem_erase_of_ne hya).2 hy) heq
  obtain ⟨hn, ⟨hused, x, hx, hpage⟩ | ⟨hempty, hused⟩⟩ := hreturns
  · refine ⟨hn.trans h.numPagesExp, fun page hout ↦ ?_, hfresh⟩
    rw [hused]
    refine hkeep page ?_ hout
    rintro rfl
    exact hout x hx hpage
  · refine ⟨hn.trans h.numPagesExp, fun page hout ↦ ?_, hfresh⟩
    rw [hused]
    by_cases hpage : page = a.page
    · rw [hpage, update_self, h.fresh a ha]
    · rw [update_of_ne hpage]
      exact hkeep page hpage hout

theorem HeapRunsFrom.onTopOf (hend : usableEnd ≤ 2 ^ 42) (hb : BuddyReachable usableEnd b)
    (h : HeapRunsFrom b r) : OnTopOf b r.alloc r.live := by
  induction h with
  | start hinit =>
    rw [hinit]
    exact ⟨rfl, fun _ _ ↦ rfl, fun _ ha ↦ absurd ha not_mem_nil⟩
  | next hr hstep ih =>
    obtain ⟨pools, hinv⟩ := (HeapRunsFrom.reachable hb hr).invariant hend
    cases hstep with
    | malloc size ptr s _ hserve hrun =>
      by_cases hsize : size = 0
      · subst hsize
        rwa [if_pos rfl, ← malloc_zero hrun]
      · rw [if_neg hsize]
        exact ih.malloc hinv ((malloc_spec hinv hsize hserve).post_of_eq hrun).2
    | free a s ha hrun => exact ih.free ha ((free_spec hinv ha).post_of_eq hrun).2

/-! ## Nothing leaks -/

/-- The data of the dynamic allocator is as after `dynamic_allocator_init`, and the free blocks are
those of `b`. -/
structure AllReturned (b : Buddy) (s : Allocator) : Prop where
  pools : ∀ c, PoolClass c → s.memPool (c - minPoolSizeExp) = none
  nodes : ∀ page < s.buddy.numPages, PlainPage s page
  blocks : ∀ i k, FreeBlock s.buddy i k ↔ FreeBlock b i k

/-- A run that has freed everything it allocated leaves nothing behind. -/
theorem freed_runs_leave_nothing {usableEnd : ℕ} (hend : usableEnd ≤ 2 ^ 42) :
    ∀ b, BuddyReachable usableEnd b → ∀ r, HeapRunsFrom b r → r.live = [] → AllReturned b r.alloc :=
      by
  intro b hb r hr hlive
  obtain ⟨pools, hinv⟩ := (hr.reachable hb).invariant hend
  have htop := hr.onTopOf hend hb
  rw [hlive] at hinv htop
  have hempty (c : ℕ) (hc : PoolClass c) : pools c = [] := by
    refine eq_nil_iff_forall_not_mem.2 fun page hpage ↦ ?_
    obtain ⟨a, ha, -⟩ := (hinv.pool c hc page hpage).live_ne
    exact absurd ha not_mem_nil
  have hused : usedAt r.alloc.buddy = usedAt b := by
    funext page
    exact htop.same page fun _ ha ↦ absurd ha not_mem_nil
  refine ⟨fun c hc ↦ ?_, fun page hpage ↦ hinv.plain page hpage fun c hc ↦ ?_, fun i k ↦ ?_⟩
  · have hchain := hinv.chain c hc
    rw [hempty c hc] at hchain
    exact hchain
  · rw [hempty c hc]
    exact not_mem_nil
  · exact (freeBlock_iff_of_usedAt_eq (hb.wf hend).1 hinv.wf htop.numPagesExp hused i k).symm

theorem exists_one_allocation : ∃ b a s, BuddyReachable 0x3b400000 b ∧ HeapRunsFrom b ⟨s, [a]⟩ := by
  obtain ⟨b, -, hreach, -, hfree⟩ := onePageBoot_ok
  have hstart : HeapReachable 0x3b400000 ⟨dynamicAllocatorInit b, []⟩ := .start ⟨b, hreach, rfl⟩
  obtain ⟨a, s, hstep⟩ := hstart.exists_malloc (by decide) hfree
  exact ⟨b, a, s, hreach, .next (.start rfl) hstep⟩

theorem freed_runs_leave_nothing_once :
    ∃ b a s s', BuddyReachable 0x3b400000 b ∧ HeapRunsFrom b ⟨s, [a]⟩ ∧ HeapRunsFrom b ⟨s', []⟩ ∧
      free s a.ptr = .ok s' ∧ AllReturned b s' := by
  obtain ⟨b, a, s, hb, hr⟩ := exists_one_allocation
  obtain ⟨pools, hinv⟩ := (hr.reachable hb).invariant (by decide)
  have ha : a ∈ [a] := mem_singleton_self a
  obtain ⟨s', hrun, -⟩ := free_spec hinv ha
  have hstep : HeapStep ⟨s, [a]⟩ ⟨s', [a].erase a⟩ := .free a s' ha hrun
  rw [erase_cons_head] at hstep
  have hr' : HeapRunsFrom b ⟨s', []⟩ := .next hr hstep
  exact ⟨b, a, s, s', hb, hr, hr', hrun, freed_runs_leave_nothing (by decide) b hb _ hr' rfl⟩

/-! ## Freeing twice -/

theorem buddyFree_rejects (h : BuddyWf b) {ptr : ℕ}
    (hno : ∀ idx k, ptr = idx * pageSize → usedAt b idx ≠ some k) :
    ∃ msg, buddyFree b ptr = .ok (b.print msg) := by
  obtain ⟨b', hrun, -, -, ⟨idx, k, hptr, hused, -⟩ | ⟨-, msg, -, rfl⟩⟩ :=
    buddyFree_spec h.core h.noFreePair ptr
  · exact absurd hused (hno idx k hptr)
  · exact ⟨msg, hrun⟩

theorem Allocator.print_enableInt (s : Allocator) (msg : Msg) :
    s.disableInt.enableInt.print msg = s.print msg := by
  unfold Allocator.disableInt Allocator.enableInt
  rw [s.buddy.disableInt_enableInt]

/-- After `free` of a live pointer the same call only prints a message. -/
theorem free_again (h : DynamicInvariant s live pools) (ha : a ∈ live)
    (hrun : free s a.ptr = .ok s') :
    ∃ msg, free s' a.ptr = .ok (s'.print msg) := by
  obtain ⟨⟨pools', hinv⟩, hn, hblocks⟩ := (free_spec h ha).post_of_eq hrun
  have hmem (b : Allocation) : b ∈ live.erase a ↔ b ≠ a ∧ b ∈ live := h.live_nodup.mem_erase_iff
  have hlt' : a.page < s'.buddy.numPages := by
    rw [show s'.buddy.numPages = s.buddy.numPages from congrArg (2 ^ ·) hn]
    exact h.page_lt ha
  -- Another live allocation on the page makes both of them chunks of one pool page.
  have hshared (b : Allocation) (hb : b ∈ live.erase a) (hpage : b.page = a.page) :
      ∃ c, PoolClass c ∧ a.page ∈ pools c ∧ b.exp = c := by
    obtain ⟨hne, hb⟩ := (hmem b).1 hb
    by_contra hnone
    push Not at hnone
    have hout (c : ℕ) (hc : PoolClass c) : a.page ∉ pools c := by
      intro hin
      exact hnone c hc hin ((h.pool c hc _ hin).chunks b hb hpage).1
    exact hne (h.block_alone ha hb hout hpage)
  by_cases hpool : ∃ c, PoolClass c ∧ a.page ∈ pools' c
  · obtain ⟨c, hc, hpage⟩ := hpool
    have hp := hinv.pool c hc _ hpage
    -- The page has kept its size class.
    obtain ⟨b, hb, hbpage⟩ := hp.live_ne
    obtain ⟨c', hc', hpage', hexp⟩ := hshared b hb hbpage
    obtain rfl : c' = c := hexp.symm.trans (hp.chunks b hb hbpage).1
    obtain ⟨heq, hchunk⟩ := h.eq_chunkAllocation ha hc hpage'
    have hfree : ChunkFree (s'.nodes a.page) a.chunk := by
      by_contra hset
      obtain ⟨i, ⟨x, hx, hxpage, rfl⟩, hmask⟩ := (hp.bitmap _ (hc.word_lt hchunk)).test.1 hset
      obtain ⟨hne, hx⟩ := (hmem x).1 hx
      exact h.not_sameMask ha hx hne.symm hxpage.symm hmask
    refine ⟨.chunkNotInUse, ?_⟩
    rw [show a.ptr = (chunkAllocation a.page c' a.chunk).ptr from congrArg Allocation.ptr heq,
      free_chunk_eq hinv hc hpage hchunk, if_pos hfree, s'.print_enableInt]
  · push Not at hpool
    -- The block of the page is not in use.
    have hnone : usedAt s'.buddy a.page = none := by
      rcases hblocks with ⟨-, b, hb, hbpage⟩ | ⟨-, hused⟩
      · obtain ⟨c, hc, -, hexp⟩ := hshared b hb hbpage
        obtain ⟨k, -, hexp', -⟩ := hinv.block b hb (by rw [hbpage]; exact hpool)
        have hle := hc.2
        unfold maxPoolSizeExp at hle
        omega
      · rw [hused, update_self]
    have hend : v2pTransKernel a.ptr < s'.buddy.endAddr := by
      rw [hinv.wf.core.endAddr_eq]
      exact (Nat.div_lt_iff_lt_mul (by decide)).1 hlt'
    have hno (idx k : ℕ) (hptr : v2pTransKernel a.ptr = idx * pageSize) :
        usedAt s'.disableInt.buddy idx ≠ some k := by
      have hidx : a.page = idx := by
        unfold Allocation.page
        rw [hptr, Nat.mul_div_cancel _ (by decide)]
      intro hused
      rw [← hidx] at hused
      exact absurd (hnone.symm.trans hused) nofun
    obtain ⟨msg, hrejected⟩ := buddyFree_rejects hinv.disableInt.wf hno
    refine ⟨msg, ?_⟩
    rw [free_plain_eq hend hlt' (hinv.plain _ hlt' hpool), hrejected, ← s'.print_enableInt]
    rfl

/-- Freeing a live pointer twice leaves the state that freeing it once leaves, up to a message. -/
theorem double_free_harmless {usableEnd : ℕ} (hend : usableEnd ≤ 2 ^ 42) :
    ∀ r, HeapReachable usableEnd r → ∀ a ∈ r.live, ∃ s, free r.alloc a.ptr = .ok s ∧
      ∃ console, free s a.ptr = .ok { s with buddy := { s.buddy with console := console } } := by
  intro r hr a ha
  obtain ⟨pools, hinv⟩ := hr.invariant hend
  obtain ⟨s, hrun, -⟩ := free_spec hinv ha
  obtain ⟨msg, hagain⟩ := free_again hinv ha hrun
  exact ⟨s, hrun, _, hagain⟩

theorem double_free_harmless_once :
    ∃ r a, HeapReachable 0x3b400000 r ∧ a ∈ r.live ∧ ∃ s, free r.alloc a.ptr = .ok s ∧
      ∃ console, free s a.ptr = .ok { s with buddy := { s.buddy with console := console } } := by
  obtain ⟨b, a, s, hb, hr⟩ := exists_one_allocation
  have ha : a ∈ [a] := mem_singleton_self a
  exact ⟨_, a, hr.reachable hb, ha, double_free_harmless (by decide) _ (hr.reachable hb) a ha⟩

end CapstoneKernel.Mem
