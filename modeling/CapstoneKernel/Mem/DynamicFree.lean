import CapstoneKernel.Mem.DynamicMalloc

/-!
# The specification of `free`

A live pointer is taken back without a fault.  A whole block returns to the page allocator.  A chunk
loses its mark, and when the sum of its page reaches zero the page had no other live chunk, leaves
its pool and returns to the page allocator as well.
-/

namespace CapstoneKernel.Mem

open LinkedChain BuddyTiling Execution Function

variable {s : Allocator} {live : List Allocation} {pools : ℕ → List ℕ} {a : Allocation} {b : Buddy}
  {y c page : ℕ}

/-! ## Pages and live allocations -/

namespace DynamicInvariant

theorem block_alone (h : DynamicInvariant s live pools) {b : Allocation} (ha : a ∈ live) (hb : b ∈ live)
    (hout : ∀ c, PoolClass c → a.page ∉ pools c) (hpage : b.page = a.page) : b = a := by
  by_contra hne
  have hchunk {x : Allocation} (hx : x ∈ live) (hxp : x.page = a.page) : x.chunk = 0 := by
    obtain ⟨k, -, hexp, hptr⟩ := h.block x hx (by rw [hxp]; exact hout)
    have hx' : x = blockAllocation x.page k := by
      cases x
      simp only [blockAllocation, Allocation.mk.injEq]
      exact ⟨hptr, hexp⟩
    rw [hx']
    exact (blockAllocation_page_chunk h.wf.core (h.page_lt hx) k).2
  apply h.not_sameMask hb ha hne hpage
  rw [hchunk hb hpage, hchunk ha rfl]
  exact SameMask.refl 0

theorem liveOff_erase (h : DynamicInvariant s live pools) (ha : a ∈ live) :
    LiveOff a.page live (live.erase a) := by
  refine ⟨fun b hb ↦ ?_, fun y hy ↦ ?_⟩
  · rw [h.live_nodup.mem_erase_iff]
    refine ⟨And.right, fun hmem ↦ ⟨?_, hmem⟩⟩
    rintro rfl
    exact hb rfl
  · have := liveSum_erase ha y
    rwa [if_neg hy.symm, Nat.zero_add] at this

end DynamicInvariant

/-! ## Whole blocks -/

section

variable (h : DynamicInvariant s live pools)
include h

theorem DynamicInvariant.removeBlock (ha : a ∈ live) (hout : ∀ c, PoolClass c → a.page ∉ pools c)
    (hwf : BuddyWf b) (hframe : SameFrame s.buddy b)
    (hused : usedAt b = update (usedAt s.buddy) a.page none) :
    DynamicInvariant { s with buddy := b } (live.erase a) pools := by
  have hkeep (y : ℕ) (hy : y ≠ a.page) : usedAt b y = usedAt s.buddy y := by
    rw [hused, update_of_ne hy]
  refine h.changePage ⟨congrArg (2 ^ ·) hframe.numPagesExp, hkeep, fun y _ ↦ ⟨_, rfl⟩,
    fun _ _ _ ↦ rfl, fun _ _ _ _ ↦ Iff.rfl, h.liveOff_erase ha⟩ hwf h.chain
    (fun c hc hmem ↦ absurd hmem (hout c hc)) (fun hlt _ ↦ (h.plain _ hlt hout).congr rfl)
    (fun x hx hpage _ ↦ ?_) (h.distinct.sublist List.erase_sublist)
  obtain ⟨hne, hx⟩ := (h.live_nodup.mem_erase_iff).1 hx
  exact absurd (h.block_alone ha hx hout hpage) hne

/-! ## Chunks -/

omit h in
theorem chunkExpLoop_pow {fuel k : ℕ} (exp : ℤ) (hfuel : k + 1 < fuel) :
    chunkExpLoop fuel (2 ^ k) exp = .ok (exp + k + 1) := by
  induction k generalizing fuel exp with
  | zero =>
    obtain ⟨fuel, rfl⟩ : ∃ f, fuel = f + 2 := ⟨fuel - 2, by omega⟩
    simp [chunkExpLoop]
  | succ k ih =>
    obtain ⟨fuel, rfl⟩ : ∃ f, fuel = f + 1 := ⟨fuel - 1, by omega⟩
    have hpos : 0 < 2 ^ (k + 1) := by positivity
    have hhalf : 2 ^ (k + 1) / 2 = 2 ^ k := by rw [pow_succ, Nat.mul_div_cancel _ (by decide)]
    unfold chunkExpLoop
    rw [if_pos hpos, hhalf, ih (exp + 1) (by omega)]
    congr 1
    push_cast
    ring

omit h in
/-- The node of a page after the mark of chunk `i` is cleared. -/
def DynamicNode.cleared (node : DynamicNode) (i : ℕ) : DynamicNode :=
  { node with
    bitmap := update node.bitmap (i / 64) (node.bitmap (i / 64) &&& ~~~ chunkMask i)
    sum := node.sum - (i + 1) }

theorem DynamicInvariant.chunk_sum (ha : a ∈ live) (hc : PoolClass c) (hpage : a.page ∈ pools c) :
    ((s.nodes a.page).cleared a.chunk).sum = liveSum (live.erase a) a.page := by
  have htotal := liveSum_erase ha a.page
  rw [if_pos rfl] at htotal
  change (s.nodes a.page).sum - (a.chunk + 1) = _
  rw [(h.pool c hc _ hpage).sum, ← htotal]
  push_cast
  ring

/-- A chunk is taken back and its page keeps a live chunk. -/
theorem DynamicInvariant.removeChunk (ha : a ∈ live) (hc : PoolClass c) (hpage : a.page ∈ pools c)
    (hsum : ((s.nodes a.page).cleared a.chunk).sum ≠ 0) :
    DynamicInvariant { s with nodes := update s.nodes a.page ((s.nodes a.page).cleared a.chunk) }
      (live.erase a) pools := by
  have hpool := h.pool c hc _ hpage
  have hword := hc.word_lt (hpool.chunks a ha rfl).2.2
  have herase (b : Allocation) : b ∈ live.erase a ↔ b ≠ a ∧ b ∈ live := h.live_nodup.mem_erase_iff
  have hsumEq := h.chunk_sum ha hc hpage
  -- The other live chunks of the page are those of the invariant without this one.
  have hchunks (j : ℕ) : (∃ b ∈ live.erase a, b.page = a.page ∧ b.chunk = j) ↔
      (∃ b ∈ live, b.page = a.page ∧ b.chunk = j) ∧ j ≠ a.chunk := by
    constructor
    · rintro ⟨b, hb, hbp, rfl⟩
      obtain ⟨hne, hb⟩ := (herase _).1 hb
      refine ⟨⟨b, hb, hbp, rfl⟩, fun heq ↦ h.not_sameMask hb ha hne hbp ?_⟩
      rw [heq]
      exact SameMask.refl _
    · rintro ⟨⟨b, hb, hbp, rfl⟩, hne⟩
      exact ⟨b, (herase b).2 ⟨fun heq ↦ hne (heq ▸ rfl), hb⟩, hbp, rfl⟩
  have halias (j : ℕ) (hj : ∃ b ∈ live, b.page = a.page ∧ b.chunk = j)
    (hmask : SameMask a.chunk j) : j = a.chunk := by
    obtain ⟨b, hb, hbp, rfl⟩ := hj
    by_contra hne
    exact h.not_sameMask ha hb (fun heq ↦ hne (heq ▸ rfl)) hbp.symm hmask
  refine h.updatePage hc hpage rfl (h.liveOff_erase ha) ?_ (h.distinct.sublist List.erase_sublist)
  refine ⟨hpool.used, ?_, ?_, ?_, fun word hword' ↦ ?_, ?_, ?_, fun b hb hbp ↦ ?_⟩
  · simp only [update_self]
    exact hpool.addr
  · simp only [update_self]
    exact hpool.chunkSize
  · simp only [update_self]
    exact hpool.curIdx
  · simp only [update_self]
    change MarksChunks (update (s.nodes a.page).bitmap (a.chunk / 64) _ word) word _
    by_cases hwi : word = a.chunk / 64
    · subst hwi
      rw [update_self]
      exact ((hpool.bitmap _ hword).remove halias).congr (fun j _ ↦ (hchunks j).symm)
    · rw [update_of_ne hwi]
      apply (hpool.bitmap _ hword').congr
      intro j hj
      rw [hchunks j]
      refine ⟨fun hex ↦ ⟨hex, ?_⟩, And.left⟩
      rintro rfl
      exact hwi hj.symm
  · simp only [update_self]
    exact hsumEq
  · rw [hsumEq, Nat.cast_ne_zero, ne_eq, liveSum_eq_zero_iff] at hsum
    push Not at hsum
    exact hsum
  · exact hpool.chunks b ((herase b).1 hb).2 hbp

omit h in
theorem relink_update_of_ne {nodes : ℕ → DynamicNode} {prev : Option ℕ} (node : DynamicNode)
    (hprev : prev ≠ some page) (hy : y ≠ page) (target : Option ℕ) :
    relink (update nodes page node) prev target y = relink nodes prev target y := by
  cases prev with
  | none => exact update_of_ne hy _ _
  | some last =>
    have hlast : last ≠ page := fun heq ↦ hprev (congrArg some heq)
    change update (update nodes page node) last
      { update nodes page node last with next := target } y =
      update nodes last { nodes last with next := target } y
    rw [update_of_ne hlast]
    by_cases hyl : y = last
    · rw [hyl, update_self, update_self]
    · rw [update_of_ne hyl, update_of_ne hyl, update_of_ne hy]

omit h in
/-- The allocator after a page has left the list of class `c` behind `prev`. -/
def Allocator.released (s : Allocator) (c page : ℕ) (prev : Option ℕ) (b : Buddy) : Allocator where
  buddy := b
  memPool := (s.relinked c prev (s.nodes page).next).memPool
  nodes := update (relink s.nodes prev (s.nodes page).next) page
    { s.nodes page with
      addr := page * pageSize
      chunkSize := pageSize
      sum := 0
      bitmap := fun _ ↦ 0
      next := none }

omit h in
theorem releasePage_eq {front back : List ℕ} (hc : PoolClass c)
    (hlt : page < s.buddy.numPages) (hsize : (s.nodes page).chunkSize = 2 ^ c)
    (hchain : Chain (fun y ↦ (s.nodes y).next) (s.memPool (c - minPoolSizeExp)) (front ++ page :: back))
    (hfront : ∀ y ∈ front, y < s.buddy.numPages ∧ y ≠ page) (hlen : front.length ≤ s.buddy.numPages)
    (hfree : buddyFree s.buddy (v2pTransKernel (s.nodes page).addr) = .ok b)
    (hb : b.numPages = s.buddy.numPages) :
    releasePage s page = .ok (s.released c page front.getLast? b) := by
  have hexp : chunkExpLoop 65 (s.nodes page).chunkSize (-1) = .ok (c : ℤ) := by
    have hle := hc.2
    unfold maxPoolSizeExp at hle
    rw [hsize, chunkExpLoop_pow (-1) (by omega)]
    congr 1
    ring
  have hfind : poolFind s page (s.buddy.numPages + 1) none (s.memPool (c - minPoolSizeExp)) =
      .ok front.getLast? := by
    rw [poolFind_spec hchain hfront (by omega), Option.or_none]
  have hlink : s.linkAfter c front.getLast? (s.nodes page).next =
      .ok (s.relinked c front.getLast? (s.nodes page).next) :=
    linkAfter_eq hc _ (fun last hlast ↦ (hfront last (List.mem_of_getLast? hlast)).1)
  have hfree' : buddyFree (s.relinked c front.getLast? (s.nodes page).next).buddy
      (v2pTransKernel (s.nodes page).addr) = .ok b := hfree
  unfold releasePage
  simp only [Allocator.readNode_eq hlt, hexp, hc.readPool, hfind, hlink, hfree', ok_bind]
  exact if_pos (hb ▸ hlt)

/-- The last live chunk of a page is taken back, and the page leaves its pool. -/
theorem DynamicInvariant.removePage {front back : List ℕ} (ha : a ∈ live) (hc : PoolClass c)
    (hsplit : pools c = front ++ a.page :: back) (hempty : ∀ b ∈ live.erase a, b.page ≠ a.page)
    {node : DynamicNode} (hnext : node.next = (s.nodes a.page).next) (hwf : BuddyWf b)
    (hframe : SameFrame s.buddy b) (hused : usedAt b = update (usedAt s.buddy) a.page none) :
    DynamicInvariant (({ s with nodes := update s.nodes a.page node } : Allocator).released c a.page
      front.getLast? b) (live.erase a) (update pools c (front ++ back)) := by
  have hnodup : (front ++ a.page :: back).Nodup := hsplit ▸ h.nodup c hc
  have hnotFront : a.page ∉ front := fun hmem ↦
    (List.nodup_append.1 hnodup).2.2 _ hmem _ List.mem_cons_self rfl
  have hnotBack : a.page ∉ back := (List.nodup_cons.1 (List.nodup_append.1 hnodup).2.1).1
  have hprevMem (last : ℕ) (hlast : front.getLast? = some last) : last ∈ pools c := by
    rw [hsplit]
    exact List.mem_append_left _ (List.mem_of_getLast? hlast)
  have hprevNe : front.getLast? ≠ some a.page := fun heq ↦ hnotFront (List.mem_of_getLast? heq)
  set s' := ({ s with nodes := update s.nodes a.page node } : Allocator).released c a.page
    front.getLast? b with hs'
  have hself : update s.nodes a.page node a.page = node := update_self ..
  have hnodes (y : ℕ) (hy : y ≠ a.page) :
      s'.nodes y = relink s.nodes front.getLast? (s.nodes a.page).next y := by
    rw [hs']
    simp only [Allocator.released, hself, hnext, update_of_ne hy]
    exact relink_update_of_ne node hprevNe hy _
  have hmemPool : s'.memPool = (s.relinked c front.getLast? (s.nodes a.page).next).memPool := by
    rw [hs']
    simp only [Allocator.released, Allocator.relinked, hself, hnext]
  have hmem (c' y : ℕ) (hy : y ≠ a.page) : y ∈ update pools c (front ++ back) c' ↔ y ∈ pools c' := by
    by_cases hcc : c' = c
    · subst hcc
      rw [update_self, hsplit]
      simp [hy]
    · rw [update_of_ne hcc]
  have hgone (c' : ℕ) (hc' : PoolClass c') : a.page ∉ update pools c (front ++ back) c' := by
    by_cases hcc : c' = c
    · subst hcc
      rw [update_self]
      exact List.not_mem_append hnotFront hnotBack
    · rw [update_of_ne hcc]
      exact fun hin ↦ hcc (h.class_unique hc' hc hin (by rw [hsplit]; simp))
  refine h.changePage ⟨congrArg (2 ^ ·) hframe.numPagesExp, fun y hy ↦ ?_, fun y hy ↦ ?_,
    fun y hy hout ↦ ?_, fun c' y _ ↦ hmem c' y, h.liveOff_erase ha⟩ hwf (fun c' hc' ↦ ?_)
    (fun c' hc' hin ↦ absurd hin (hgone c' hc')) (fun _ _ ↦ ?_)
    (fun x hx hpage ↦ absurd hpage (hempty x hx)) (h.distinct.sublist List.erase_sublist)
  · change usedAt b y = _
    rw [hused, update_of_ne hy]
  · rw [hnodes y hy]
    exact relink_same_data s.nodes _ _ y
  · rw [hnodes y hy]
    exact relink_of_ne (fun heq ↦ hout c hc (hprevMem y heq)) _
  · -- Off the released page the links are those of the shortened list.
    have hchain : Chain (fun y ↦ (relink s.nodes front.getLast? (s.nodes a.page).next y).next)
        ((s.relinked c front.getLast? (s.nodes a.page).next).memPool (c' - minPoolSizeExp))
        (update pools c (front ++ back) c') := by
      by_cases hcc : c' = c
      · subst hcc
        rw [update_self, relink_next]
        change Chain _ (update s.memPool _ _ _) _
        rw [update_self]
        exact (hsplit ▸ h.chain c' hc').remove hnodup
      · rw [update_of_ne hcc]
        exact h.relinked_chain hc hc' hcc hprevMem _
    rw [hmemPool]
    apply hchain.congr
    intro y hy
    exact congrArg DynamicNode.next (hnodes y (fun heq ↦ hgone c' hc' (heq ▸ hy)))
  · have hreset : s'.nodes a.page = { node with
        addr := a.page * pageSize, chunkSize := pageSize, sum := 0, bitmap := fun _ ↦ 0,
        next := none } := by
      rw [hs']
      simp only [Allocator.released, update_self]
    exact ⟨by rw [hreset], by rw [hreset], fun _ _ ↦ by rw [hreset], by rw [hreset]⟩

/-! ## Taking a pointer back -/

theorem DynamicInvariant.ptr_lt (ha : a ∈ live) : v2pTransKernel a.ptr < s.buddy.endAddr := by
  rw [h.wf.core.endAddr_eq]
  exact (Nat.div_lt_iff_lt_mul (by decide)).1 (h.page_lt ha)

/-- `releasePage` on the page whose last live chunk is taken back. -/
theorem releasePage_last (ha : a ∈ live) (hc : PoolClass c) (hpage : a.page ∈ pools c)
    (hempty : ∀ b ∈ live.erase a, b.page ≠ a.page) :
    Returns (releasePage
        { s with nodes := update s.nodes a.page ((s.nodes a.page).cleared a.chunk) } a.page)
      (fun s' ↦ (∃ pools', DynamicInvariant s' (live.erase a) pools') ∧
        s'.buddy.numPagesExp = s.buddy.numPagesExp ∧
        usedAt s'.buddy = update (usedAt s.buddy) a.page none) := by
  have hp := h.pool c hc _ hpage
  have hlt := h.pool_lt hc hpage
  have hbound := h.wf.core.addr_lt hlt
  obtain ⟨front, back, hsplit⟩ := List.append_of_mem hpage
  obtain ⟨b, hfree, hwf, hframe, hused⟩ := buddyFree_used h.wf hp.used
  set node := (s.nodes a.page).cleared a.chunk
  have hself : update s.nodes a.page node a.page = node := update_self ..
  have hnodup : (front ++ a.page :: back).Nodup := hsplit ▸ h.nodup c hc
  have hfront (y : ℕ) (hy : y ∈ front) : y < s.buddy.numPages ∧ y ≠ a.page := by
    refine ⟨h.pool_lt hc (hsplit ▸ List.mem_append_left _ hy), ?_⟩
    rintro rfl
    exact (List.nodup_append.1 hnodup).2.2 _ hy _ List.mem_cons_self rfl
  have hlen : front.length ≤ s.buddy.numPages := by
    have hle := h.length_le hc
    rw [hsplit, List.length_append] at hle
    omega
  have hchain : Chain (fun y ↦ (update s.nodes a.page node y).next)
      (s.memPool (c - minPoolSizeExp)) (front ++ a.page :: back) := by
    rw [← hsplit]
    apply (h.chain c hc).congr
    intro y _
    by_cases hy : y = a.page
    · rw [hy, hself]
      rfl
    · rw [update_of_ne hy]
  have haddr : buddyFree s.buddy (v2pTransKernel (update s.nodes a.page node a.page).addr) =
      .ok b := by
    rw [hself, show node.addr = p2vTransKernel (a.page * pageSize) from hp.addr,
      p2vTransKernel_eq (by omega), v2pTransKernel_add (by omega), hfree]
  have hsize : (update s.nodes a.page node a.page).chunkSize = 2 ^ c := by
    rw [hself]
    exact hp.chunkSize
  have hnumPages : b.numPages = s.buddy.numPages := congrArg (2 ^ ·) hframe.numPagesExp
  have hrun := releasePage_eq (s := { s with nodes := update s.nodes a.page node })
    hc hlt hsize hchain hfront hlen haddr hnumPages
  have hnext : node.next = (s.nodes a.page).next := rfl
  exact Returns.of_eq hrun
    ⟨⟨_, h.removePage ha hc hsplit hempty hnext hwf hframe hused⟩, hframe.numPagesExp, hused⟩

/-- `free` on a chunk of a pool page: the mask decides whether the chunk is in use. -/
theorem free_chunk_eq {i : ℕ} (hc : PoolClass c) (hpage : page ∈ pools c)
    (hi : i < pageSize / 2 ^ c) :
    free s (chunkAllocation page c i).ptr =
      if ChunkFree (s.nodes page) i then .ok (s.disableInt.enableInt.print .chunkNotInUse)
      else if ((s.nodes page).cleared i).sum = 0 then
        (releasePage { s.disableInt with
          nodes := update s.nodes page ((s.nodes page).cleared i) } page).map Allocator.enableInt
      else .ok { s.disableInt with
        nodes := update s.nodes page ((s.nodes page).cleared i) }.enableInt := by
  have hp := h.pool c hc _ hpage
  have hlt := h.pool_lt hc hpage
  have haddr := h.wf.core.addr_lt hlt
  have hoffset := hc.offset_lt hi
  have hpos : 0 < 2 ^ c := by positivity
  have hword := hc.word_lt hi
  have hphys : v2pTransKernel (chunkAllocation page c i).ptr = page * pageSize + i * 2 ^ c := by
    change v2pTransKernel (p2vTransKernel (page * pageSize) + i * 2 ^ c) = _
    rw [p2vTransKernel_eq (by omega), show page * pageSize + vKernelSpace + i * 2 ^ c =
      page * pageSize + i * 2 ^ c + vKernelSpace by omega, v2pTransKernel_add (by omega)]
  have hpageEq : v2pTransKernel (chunkAllocation page c i).ptr / pageSize = page :=
    (chunkAllocation_page_chunk h.wf.core hlt hc hi).1
  have hend : ¬ s.disableInt.buddy.endAddr ≤ v2pTransKernel (chunkAllocation page c i).ptr := by
    have hle := Nat.mul_le_mul_right pageSize hlt
    rw [Nat.succ_mul] at hle
    rw [show s.disableInt.buddy.endAddr = s.buddy.endAddr from rfl, h.wf.core.endAddr_eq, hphys]
    omega
  have hlt' : page < s.disableInt.buddy.numPages := hlt
  have hsize : (s.nodes page).chunkSize ≠ pageSize := by
    rw [hp.chunkSize]
    intro heq
    have : 2 ^ c ≤ 2 ^ maxPoolSizeExp := Nat.pow_le_pow_right (by decide) hc.2
    rw [heq] at this
    exact absurd this (by decide)
  have hidx : ((chunkAllocation page c i).ptr + 2 ^ 64 - (s.nodes page).addr) % 2 ^ 64 /
      (s.nodes page).chunkSize = i := by
    have hdiff : ((chunkAllocation page c i).ptr + 2 ^ 64 - (s.nodes page).addr) % 2 ^ 64 =
      i * 2 ^ c := by
      rw [hp.addr, show (chunkAllocation page c i).ptr = p2vTransKernel
        (page * pageSize) + i * 2 ^ c from rfl]
      unfold pageSize at hoffset
      omega
    rw [hdiff, hp.chunkSize, Nat.mul_div_cancel _ hpos]
  have hnode : s.disableInt.nodes page = s.nodes page := rfl
  unfold free
  simp only [if_neg hend, hpageEq, Allocator.readNode_eq hlt', ok_bind, hnode, hsize, if_false, hidx,
    DynamicNode.readBitmap_eq hword]
  by_cases hfree : ChunkFree (s.nodes page) i
  · have hclear : (s.nodes page).bitmap (i / 64) &&& chunkMask i = 0 := hfree
    rw [if_pos hfree]
    simp only [hclear, if_true]
    rfl
  · have hset : ¬ (s.nodes page).bitmap (i / 64) &&& chunkMask i = 0 := hfree
    rw [if_neg hfree]
    simp only [hset, if_false, DynamicNode.writeBitmap_eq hword, Allocator.writeNode_eq hlt', ok_bind]
    by_cases hzero : ((s.nodes page).cleared i).sum = 0
    · rw [if_pos hzero]
      exact if_pos hzero
    · rw [if_neg hzero]
      exact if_neg hzero

omit h in
/-- `free` on a page that is on no pool hands the pointer to `buddy_free`. -/
theorem free_plain_eq {ptr : ℕ} (hlt : v2pTransKernel ptr < s.buddy.endAddr)
    (hpage : v2pTransKernel ptr / pageSize < s.buddy.numPages)
    (hplain : PlainPage s (v2pTransKernel ptr / pageSize)) :
    free s ptr = (buddyFree s.disableInt.buddy (v2pTransKernel ptr)).map
      (fun b ↦ { s.disableInt with buddy := b }.enableInt) := by
  have hread : s.disableInt.readNode (v2pTransKernel ptr / pageSize) =
      .ok (s.nodes (v2pTransKernel ptr / pageSize)) := if_pos hpage
  unfold free
  simp only [show s.disableInt.buddy.endAddr = s.buddy.endAddr from rfl, Nat.not_le.2 hlt, if_false,
    hread, ok_bind, hplain.chunkSize, if_true]
  rfl

omit h in
/-- What `free` does to the used blocks, with `rest` the live allocations after it: the page keeps a
live chunk, or its block is not used any more. -/
def ReturnsBlock (s : Allocator) (rest : List Allocation) (page : ℕ) (s' : Allocator) : Prop :=
  s'.buddy.numPagesExp = s.buddy.numPagesExp ∧
    ((usedAt s'.buddy = usedAt s.buddy ∧ ∃ a ∈ rest, a.page = page) ∨
      ((∀ a ∈ rest, a.page ≠ page) ∧ usedAt s'.buddy = update (usedAt s.buddy) page none))

theorem DynamicInvariant.eq_chunkAllocation (ha : a ∈ live) (hc : PoolClass c)
    (hpage : a.page ∈ pools c) :
    a = chunkAllocation a.page c a.chunk ∧ a.chunk < pageSize / 2 ^ c := by
  obtain ⟨hexp, hptr, hchunk⟩ := (h.pool c hc _ hpage).chunks a ha rfl
  refine ⟨?_, hchunk⟩
  cases a
  simp only [chunkAllocation, Allocation.mk.injEq]
  exact ⟨hptr, hexp⟩

theorem free_spec (ha : a ∈ live) :
    Returns (free s a.ptr) (fun s' ↦ (∃ pools', DynamicInvariant s' (live.erase a) pools') ∧
      ReturnsBlock s (live.erase a) a.page s') := by
  have hd := h.disableInt
  by_cases hpool : ∃ c, PoolClass c ∧ a.page ∈ pools c
  · obtain ⟨c, hc, hpage⟩ := hpool
    obtain ⟨heq, hchunk⟩ := h.eq_chunkAllocation ha hc hpage
    have hmarked : ¬ ChunkFree (s.nodes a.page) a.chunk :=
      ((h.pool c hc _ hpage).bitmap _ (hc.word_lt hchunk)).test.2
        ⟨a.chunk, ⟨a, ha, rfl, rfl⟩, SameMask.refl _⟩
    have hsum := h.chunk_sum ha hc hpage
    rw [show a.ptr = (chunkAllocation a.page c a.chunk).ptr from congrArg Allocation.ptr heq,
      free_chunk_eq h hc hpage hchunk, if_neg hmarked]
    by_cases hzero : ((s.nodes a.page).cleared a.chunk).sum = 0
    · rw [if_pos hzero]
      have hempty : ∀ b ∈ live.erase a, b.page ≠ a.page := by
        rw [← liveSum_eq_zero_iff]
        rw [hsum] at hzero
        exact_mod_cast hzero
      obtain ⟨s', hrun, ⟨pools', hinv⟩, hn, hused⟩ := releasePage_last hd ha hc hpage hempty
      refine ⟨s'.enableInt, ?_, ⟨pools', hinv.enableInt⟩, hn, .inr ⟨hempty, hused⟩⟩
      rw [show releasePage { s.disableInt with
        nodes := update s.nodes a.page ((s.nodes a.page).cleared a.chunk) } a.page =
          .ok s' from hrun]
      rfl
    · rw [if_neg hzero]
      have hother : ∃ b ∈ live.erase a, b.page = a.page := by
        rw [hsum, Nat.cast_eq_zero, liveSum_eq_zero_iff] at hzero
        push Not at hzero
        exact hzero
      exact Returns.ok ⟨⟨pools, (hd.removeChunk ha hc hpage hzero).enableInt⟩, rfl,
        .inl ⟨rfl, hother⟩⟩
  · push Not at hpool
    obtain ⟨k, hused, hexp, hptr⟩ := hd.block a ha hpool
    have hlt := h.page_lt ha
    have hbound := h.wf.core.addr_lt hlt
    have haddr : v2pTransKernel a.ptr = a.page * pageSize := by
      rw [hptr, p2vTransKernel_eq (by omega), v2pTransKernel_add (by omega)]
    obtain ⟨b, hfree, hwf, hframe, husedAt⟩ := buddyFree_used hd.wf hused
    have halone (b : Allocation) (hb : b ∈ live.erase a) : b.page ≠ a.page := by
      obtain ⟨hne, hb⟩ := (h.live_nodup.mem_erase_iff).1 hb
      exact fun hpage ↦ hne (h.block_alone ha hb hpool hpage)
    rw [free_plain_eq (h.ptr_lt ha) hlt (h.plain _ hlt hpool), haddr, hfree]
    exact Returns.ok ⟨⟨pools, (hd.removeBlock ha hpool hwf hframe husedAt).enableInt⟩,
      hframe.numPagesExp, .inr ⟨halone, husedAt⟩⟩

end

end CapstoneKernel.Mem
