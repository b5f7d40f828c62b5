import CapstoneKernel.Mem.DynamicScan

/-!
# Specifications of `malloc` and `free`

Each way in which `malloc` serves a request and each way in which `free` takes a pointer back keeps
the invariant of the dynamic allocator, with the live allocations changed by exactly that pointer.
-/

namespace CapstoneKernel.Mem

open LinkedChain BuddyTiling Execution Function List

variable {page c i : ℕ} {a : Allocation} {s s' : Allocator} {live live' : List Allocation}
  {pools pools' : ℕ → List ℕ} {prev : Option ℕ}

namespace Allocation

theorem page_chunk (page offset exp : ℕ) (hpage : page * pageSize + offset < 2 ^ 48)
    (hoffset : offset < pageSize) :
    (Allocation.mk (p2vTransKernel (page * pageSize) + offset) exp).page = page ∧
      (Allocation.mk (p2vTransKernel (page * pageSize) + offset) exp).chunk = offset / 2 ^ exp := by
  have hptr : v2pTransKernel (p2vTransKernel (page * pageSize) + offset) =
    page * pageSize + offset := by
    rw [p2vTransKernel_eq (by omega), show page * pageSize + vKernelSpace + offset =
      page * pageSize + offset + vKernelSpace by omega, v2pTransKernel_add hpage]
  unfold Allocation.page Allocation.chunk
  rw [hptr]
  refine ⟨?_, ?_⟩
  · rw [Nat.mul_comm, Nat.mul_add_div (by decide), Nat.div_eq_of_lt hoffset, Nat.add_zero]
  · rw [Nat.mul_comm, Nat.mul_add_mod, Nat.mod_eq_of_lt hoffset]

end Allocation

variable {node : DynamicNode} {word ptr : ℕ}

theorem BuddyCore.addr_lt {s : Buddy} (h : BuddyCore s) (hpage : page < s.numPages) :
    page * pageSize + pageSize < 2 ^ 48 := by
  have hend := h.endAddr_lt
  rw [h.endAddr_eq] at hend
  have hle : (page + 1) * pageSize ≤ s.numPages * pageSize := Nat.mul_le_mul_right pageSize hpage
  rw [Nat.add_mul, Nat.one_mul] at hle
  omega

namespace DynamicInvariant

section

variable (h : DynamicInvariant s live pools)
include h

theorem pool_lt (hc : PoolClass c) (hpage : page ∈ pools c) : page < s.buddy.numPages :=
  h.wf.core.lt (h.wf.core.usedAt_le (h.pool c hc page hpage).used).1

theorem class_unique {c' : ℕ} (hc : PoolClass c) (hc' : PoolClass c') (hpage : page ∈ pools c)
    (hpage' : page ∈ pools c') : c = c' := by
  have hsize := (h.pool c hc page hpage).chunkSize
  rw [(h.pool c' hc' page hpage').chunkSize] at hsize
  exact (Nat.pow_right_injective le_rfl hsize).symm

theorem length_le (hc : PoolClass c) : (pools c).length ≤ s.buddy.numPages := by
  have hsub : pools c ⊆ List.range s.buddy.numPages :=
    fun page hpage ↦ mem_range.2 (h.pool_lt hc hpage)
  have hle := (subperm_of_subset (h.nodup c hc) hsub).length_le
  rwa [length_range] at hle

theorem live_nodup : live.Nodup := by
  apply h.distinct.imp
  rintro a b hab rfl
  exact hab rfl (SameMask.refl _)

theorem not_sameMask {b : Allocation} (ha : a ∈ live) (hb : b ∈ live) (hne : a ≠ b)
    (hpage : a.page = b.page) : ¬ SameMask a.chunk b.chunk :=
  h.distinct.forall ha hb hne hpage

theorem page_used (ha : a ∈ live) : ∃ k, usedAt s.buddy a.page = some k := by
  by_cases hpool : ∃ c, PoolClass c ∧ a.page ∈ pools c
  · obtain ⟨c, hc, hpage⟩ := hpool
    exact ⟨0, (h.pool c hc _ hpage).used⟩
  · push Not at hpool
    obtain ⟨k, hused, -⟩ := h.block a ha hpool
    exact ⟨k, hused⟩

theorem page_lt (ha : a ∈ live) : a.page < s.buddy.numPages := by
  obtain ⟨k, hused⟩ := h.page_used ha
  exact h.wf.core.lt (h.wf.core.usedAt_le hused).1

end

end DynamicInvariant

/-! ## Frame rules -/

/-- What a pool page depends on: its node up to `next`, its block and the live chunks on it. -/
theorem PoolPage.frame
    (h : PoolPage s live c page) (hused : usedAt s'.buddy page = usedAt s.buddy page)
    (hnode : ∃ next, s'.nodes page = { s.nodes page with next := next })
    (hlive : ∀ a, a.page = page → (a ∈ live' ↔ a ∈ live))
      (hsum : liveSum live' page = liveSum live page) :
    PoolPage s' live' c page := by
  obtain ⟨next, hnode⟩ := hnode
  refine ⟨hused.trans h.used, ?_, ?_, ?_, ?_, ?_, ?_, ?_⟩
  · rw [hnode]
    exact h.addr
  · rw [hnode]
    exact h.chunkSize
  · rw [hnode]
    exact h.curIdx
  · intro word hword
    rw [hnode]
    apply (h.bitmap word hword).congr
    intro i _
    constructor
    · rintro ⟨a, ha, hpage, hi⟩
      exact ⟨a, (hlive a hpage).2 ha, hpage, hi⟩
    · rintro ⟨a, ha, hpage, hi⟩
      exact ⟨a, (hlive a hpage).1 ha, hpage, hi⟩
  · rw [hnode, hsum]
    exact h.sum
  · obtain ⟨a, ha, hpage⟩ := h.live_ne
    exact ⟨a, (hlive a hpage).2 ha, hpage⟩
  · intro a ha hpage
    exact h.chunks a ((hlive a hpage).1 ha) hpage

theorem PlainPage.congr (h : PlainPage s page) (hnode : s'.nodes page = s.nodes page) :
    PlainPage s' page := by
  constructor
  all_goals rw [hnode]
  exacts [h.chunkSize, h.sum, h.bitmap, h.next]

theorem WholeBlock.congr (h : WholeBlock s a) (hused : usedAt s'.buddy a.page = usedAt s.buddy a.page) :
    WholeBlock s' a := by
  obtain ⟨k, hk, hrest⟩ := h
  exact ⟨k, hused.trans hk, hrest⟩

section

variable (h : DynamicInvariant s live pools)
include h

/-- A page allocator with the same used blocks under the pool pages and the live allocations. -/
theorem DynamicInvariant.withBuddy {b : Buddy} (hwf : BuddyWf b)
    (hn : b.numPagesExp = s.buddy.numPagesExp)
    (hused : ∀ page k, usedAt s.buddy page = some k → usedAt b page = some k) :
    DynamicInvariant { s with buddy := b } live pools where
  wf := hwf
  chain := h.chain
  nodup := h.nodup
  pool c hc page hpage := by
    have hpool := h.pool c hc page hpage
    exact hpool.frame ((hused page 0 hpool.used).trans hpool.used.symm) ⟨_, rfl⟩
      (fun _ _ ↦ Iff.rfl) rfl
  plain page hpage hout :=
    (h.plain page (by unfold Buddy.numPages at hpage ⊢; rwa [← hn]) hout).congr rfl
  block a ha hout := by
    obtain ⟨k, hk, hrest⟩ := h.block a ha hout
    exact ⟨k, hused _ _ hk, hrest⟩
  distinct := h.distinct

theorem DynamicInvariant.disableInt : DynamicInvariant s.disableInt live pools :=
  h.withBuddy ⟨h.wf.core.disableInt, h.wf.noFreePair⟩ rfl (fun _ _ hused ↦ hused)

theorem DynamicInvariant.enableInt : DynamicInvariant s.enableInt live pools :=
  h.withBuddy ⟨h.wf.core.enableInt, h.wf.noFreePair⟩ rfl (fun _ _ hused ↦ hused)

omit h in
/-- The live allocations change on one page only. -/
def LiveOff (page : ℕ) (live live' : List Allocation) : Prop :=
  (∀ a, a.page ≠ page → (a ∈ live' ↔ a ∈ live)) ∧ ∀ y, y ≠ page → liveSum live' y = liveSum live y

omit h in
theorem LiveOff.cons (ha : a.page = page) : LiveOff page live (a :: live) := by
  subst ha
  refine ⟨fun b hb ↦ ?_, fun y hy ↦ ?_⟩
  · simp only [mem_cons, or_iff_right_iff_imp]
    rintro rfl
    exact absurd rfl hb
  · rw [liveSum_cons, if_neg hy.symm, Nat.zero_add]

omit h in
/-- A step changes the block, the node and the live allocations of one page, and the pointers on the
lists of its pool. -/
structure ChangesPage (s s' : Allocator) (live live' : List Allocation) (pools pools' : ℕ → List ℕ)
    (page : ℕ) : Prop where
  numPages : s'.buddy.numPages = s.buddy.numPages
  used : ∀ y, y ≠ page → usedAt s'.buddy y = usedAt s.buddy y
  data : ∀ y, y ≠ page → ∃ next, s'.nodes y = { s.nodes y with next := next }
  plain : ∀ y, y ≠ page → (∀ c, PoolClass c → y ∉ pools c) → s'.nodes y = s.nodes y
  pools : ∀ c y, PoolClass c → y ≠ page → (y ∈ pools' c ↔ y ∈ pools c)
  live : LiveOff page live live'

/-- Of such a step only the lists and the changed page are to be checked. -/
theorem DynamicInvariant.changePage (hchange : ChangesPage s s' live live' pools pools' page)
    (hwf : BuddyWf s'.buddy) (hchain : ∀ c, PoolClass c →
      Chain (fun y ↦ (s'.nodes y).next) (s'.memPool (c - minPoolSizeExp)) (pools' c))
    (hpool : ∀ c, PoolClass c → page ∈ pools' c → PoolPage s' live' c page)
    (hplain : page < s.buddy.numPages → (∀ c, PoolClass c → page ∉ pools' c) → PlainPage s' page)
    (hblock : ∀ a ∈ live', a.page = page → (∀ c, PoolClass c → page ∉ pools' c) → WholeBlock s' a)
    (hdistinct : live'.Pairwise Allocation.MaskApart) : DynamicInvariant s' live' pools' := by
  have hout (y : ℕ) (hy : y ≠ page) (hnone : ∀ c, PoolClass c → y ∉ pools' c) (c : ℕ)
      (hc : PoolClass c) : y ∉ pools c :=
    fun hmem ↦ hnone c hc ((hchange.pools c y hc hy).2 hmem)
  refine ⟨hwf, hchain, fun c hc ↦ (hchain c hc).nodup, fun c hc y hy ↦ ?_, fun y hy hnone ↦ ?_,
    fun a ha hnone ↦ ?_, hdistinct⟩
  · by_cases heq : y = page
    · exact heq ▸ hpool c hc (heq ▸ hy)
    · exact (h.pool c hc y ((hchange.pools c y hc heq).1 hy)).frame (hchange.used y heq)
        (hchange.data y heq) (fun a ha ↦ hchange.live.1 a (ha ▸ heq)) (hchange.live.2 y heq)
  · rw [hchange.numPages] at hy
    by_cases heq : y = page
    · subst heq
      exact hplain hy hnone
    · have hout' := hout y heq hnone
      exact (h.plain y hy hout').congr (hchange.plain y heq hout')
  · by_cases heq : a.page = page
    · exact hblock a ha heq (heq ▸ hnone)
    · exact (h.block a ((hchange.live.1 a heq).1 ha) (hout _ heq hnone)).congr (hchange.used _ heq)

/-- One pool page gets a new node, and the live chunks change on this page only. -/
theorem DynamicInvariant.updatePage (hc : PoolClass c) (hpage : page ∈ pools c) {node : DynamicNode}
    (hnext : node.next = (s.nodes page).next) (hlive : LiveOff page live live')
    (hpool : PoolPage { s with nodes := update s.nodes page node } live' c page)
    (hdistinct : live'.Pairwise Allocation.MaskApart) :
    DynamicInvariant { s with nodes := update s.nodes page node } live' pools := by
  have hoff (y : ℕ) (hy : y ≠ page) : update s.nodes page node y = s.nodes y := update_of_ne hy _ _
  refine h.changePage ⟨rfl, fun _ _ ↦ rfl, fun y hy ↦ ⟨(s.nodes y).next, hoff y hy⟩,
    fun y hy _ ↦ hoff y hy, fun _ _ _ _ ↦ Iff.rfl, hlive⟩ h.wf (fun c' hc' ↦ ?_)
    (fun c' hc' hmem ↦ ?_) (fun _ hout ↦ absurd hpage (hout c hc))
    (fun _ _ _ hout ↦ absurd hpage (hout c hc)) hdistinct
  · apply (h.chain c' hc').congr
    intro y _
    change (update s.nodes page node y).next = (s.nodes y).next
    by_cases hy : y = page
    · rw [hy, update_self, hnext]
    · rw [hoff y hy]
  · rw [h.class_unique hc' hc hmem hpage]
    exact hpool

end

/-! ## Handing out a chunk -/

theorem PoolClass.offset_lt (hc : PoolClass c) (hi : i < pageSize / 2 ^ c) :
    i * 2 ^ c + 2 ^ c ≤ pageSize := by
  calc
    i * 2 ^ c + 2 ^ c = (i + 1) * 2 ^ c := by ring
    _ ≤ pageSize / 2 ^ c * 2 ^ c := Nat.mul_le_mul_right _ hi
    _ = pageSize := hc.mul_chunks

/-- The allocation made of chunk `i` of a page. -/
def chunkAllocation (page c i : ℕ) : Allocation := ⟨p2vTransKernel (page * pageSize) + i * 2 ^ c, c⟩

theorem chunkAllocation_page_chunk {s : Buddy} (h : BuddyCore s) (hpage : page < s.numPages)
    (hc : PoolClass c) (hi : i < pageSize / 2 ^ c) :
    (chunkAllocation page c i).page = page ∧ (chunkAllocation page c i).chunk = i := by
  have hoffset := hc.offset_lt hi
  have hpos : 0 < 2 ^ c := by positivity
  have haddr := h.addr_lt hpage
  obtain ⟨hpage', hchunk⟩ := Allocation.page_chunk page (i * 2 ^ c) c (by omega) (by omega)
  rw [Nat.mul_div_cancel _ hpos] at hchunk
  exact ⟨hpage', hchunk⟩

theorem Allocator.readNode_eq (hlt : page < s.buddy.numPages) : s.readNode page = .ok (s.nodes page) :=
  if_pos hlt

theorem Allocator.writeNode_eq (hlt : page < s.buddy.numPages) (node : DynamicNode) :
    s.writeNode page node = .ok { s with nodes := update s.nodes page node } :=
  if_pos hlt

theorem DynamicNode.readBitmap_eq (hword : word < bitmapArr) :
    node.readBitmap word = .ok (node.bitmap word) :=
  if_pos hword

theorem DynamicNode.writeBitmap_eq (hword : word < bitmapArr) (value : BitVec 64) :
    node.writeBitmap word value = .ok { node with bitmap := update node.bitmap word value } :=
  if_pos hword

/-- A page whose node accounts for the live chunks and is marked with one more chunk. -/
theorem PoolPage.insert {bitmap : ℕ → BitVec 64} (hi : i < pageSize / 2 ^ c)
    (hused : usedAt s.buddy page = some 0) (hpage : (chunkAllocation page c i).page = page)
    (hchunk : (chunkAllocation page c i).chunk = i)
    (haddr : (s.nodes page).addr = p2vTransKernel (page * pageSize))
    (hsize : (s.nodes page).chunkSize = 2 ^ c) (hcur : (s.nodes page).curIdx = i)
    (hmarks : ∀ word, word < bitmapArr →
      MarksChunks (bitmap word) word (fun i ↦ ∃ a ∈ live, a.page = page ∧ a.chunk = i))
    (hbitmap : (s.nodes page).bitmap = update bitmap (i / 64) (bitmap (i / 64) ||| chunkMask i))
    (hsum : (s.nodes page).sum = liveSum live page + (i + 1))
    (hchunks : ∀ a ∈ live, a.page = page → a.exp = c ∧
      a.ptr = p2vTransKernel (page * pageSize) + a.chunk * 2 ^ c ∧ a.chunk < pageSize / 2 ^ c) :
    PoolPage s (chunkAllocation page c i :: live) c page := by
  have hlive (j : ℕ) : (∃ a ∈ chunkAllocation page c i :: live, a.page = page ∧ a.chunk = j) ↔
      j = i ∨ ∃ a ∈ live, a.page = page ∧ a.chunk = j := by
    simp only [mem_cons, exists_eq_or_imp, hpage, hchunk, true_and, eq_comm]
  refine ⟨hused, haddr, hsize, ⟨i, hi, hcur⟩, fun word hword ↦ ?_, ?_,
    ⟨_, mem_cons_self, hpage⟩, fun a ha hap ↦ ?_⟩
  · rw [hbitmap]
    by_cases hwi : word = i / 64
    · subst hwi
      rw [update_self]
      exact (hmarks _ hword).insert.congr (fun j _ ↦ (hlive j).symm)
    · rw [update_of_ne hwi]
      apply (hmarks _ hword).congr
      intro j hj
      rw [hlive j]
      refine ⟨.inr, fun hor ↦ hor.resolve_left ?_⟩
      rintro rfl
      exact hwi hj.symm
  · rw [liveSum_cons, hpage, if_pos rfl, hchunk, hsum]
    push_cast
    ring
  · rcases mem_cons.1 ha with rfl | ha
    · rw [hchunk]
      exact ⟨rfl, rfl, hi⟩
    · exact hchunks a ha hap

theorem takeChunk_spec
    (h : DynamicInvariant s live pools) (hc : PoolClass c) (hpage : page ∈ pools c)
    (hi : i < pageSize / 2 ^ c) (hfree : ChunkFree (s.nodes page) i) :
    Returns (takeChunk s page i) (fun result ↦ result.1 = (chunkAllocation page c i).ptr ∧
      DynamicInvariant result.2 (chunkAllocation page c i :: live) pools) := by
  have hpool := h.pool c hc page hpage
  have hlt := h.pool_lt hc hpage
  have hword := hc.word_lt hi
  obtain ⟨hpageEq, hchunkEq⟩ := chunkAllocation_page_chunk h.wf.core hlt hc hi
  -- The clear mask excludes the chunk and the one that shares its mask.
  have hfresh (b : Allocation) (hb : b ∈ live) (hbp : b.page = page) : ¬ SameMask i b.chunk := by
    intro hmask
    exact (hpool.bitmap _ hword).test.2 ⟨b.chunk, ⟨b, hb, hbp, rfl⟩, hmask⟩ hfree
  unfold takeChunk
  simp only [Allocator.readNode_eq hlt, DynamicNode.readBitmap_eq hword,
    DynamicNode.writeBitmap_eq hword, Allocator.writeNode_eq hlt, ok_bind]
  apply Returns.ok
  refine ⟨?_, h.updatePage hc hpage ?_ (.cons hpageEq)
    (.insert hi hpool.used hpageEq hchunkEq ?_ ?_ ?_ hpool.bitmap ?_ ?_ hpool.chunks) ?_⟩
  · change (s.nodes page).addr + i * (s.nodes page).chunkSize = _
    rw [hpool.addr, hpool.chunkSize]
    rfl
  · rfl
  · simp only [update_self]
    exact hpool.addr
  · simp only [update_self]
    exact hpool.chunkSize
  · simp only [update_self]
  · simp only [update_self]
  · simp only [update_self, hpool.sum]
  · refine pairwise_cons.2 ⟨fun b hb hbp ↦ ?_, h.distinct⟩
    rw [hchunkEq]
    exact hfresh b hb (hbp.symm.trans hpageEq)

/-! ## Changing a pool list -/

/-- The nodes after the `next` field behind `prev` is set. -/
def relink (nodes : ℕ → DynamicNode) (prev target : Option ℕ) : ℕ → DynamicNode :=
  match prev with
  | none => nodes
  | some last => update nodes last { nodes last with next := target }

theorem relink_next (nodes : ℕ → DynamicNode) (prev target : Option ℕ) :
    (fun y ↦ (relink nodes prev target y).next) = setLink (fun y ↦ (nodes y).next) prev target := by
  cases prev with
  | none => rfl
  | some last =>
    funext y
    change (update nodes last _ y).next = update (fun y ↦ (nodes y).next) last target y
    by_cases hy : y = last
    · rw [hy, update_self, update_self]
    · rw [update_of_ne hy, update_of_ne hy]

theorem relink_of_ne {nodes : ℕ → DynamicNode} {y : ℕ} (hy : prev ≠ some y)
    (target : Option ℕ) : relink nodes prev target y = nodes y := by
  cases prev with
  | none => rfl
  | some last =>
    apply update_of_ne
    rintro rfl
    exact hy rfl

theorem relink_same_data (nodes : ℕ → DynamicNode) (prev target : Option ℕ) (y : ℕ) :
    ∃ next, relink nodes prev target y = { nodes y with next := next } := by
  by_cases hy : prev = some y
  · subst hy
    exact ⟨target, update_self ..⟩
  · exact ⟨(nodes y).next, relink_of_ne hy target⟩

theorem PoolClass.readPool (hc : PoolClass c) (s : Allocator) :
    s.readPool c = .ok (s.memPool (c - minPoolSizeExp)) := by
  unfold Allocator.readPool
  rw [if_pos ⟨by exact_mod_cast hc.1, by exact_mod_cast hc.2⟩]
  rfl

theorem PoolClass.writePool (hc : PoolClass c) (s : Allocator) (head : Option ℕ) :
    s.writePool c head = .ok { s with memPool := update s.memPool (c - minPoolSizeExp) head } := by
  unfold Allocator.writePool
  rw [if_pos ⟨by exact_mod_cast hc.1, by exact_mod_cast hc.2⟩]
  rfl

/-- The allocator after the pointer behind `prev` on the list of class `c` is set. -/
def Allocator.relinked (s : Allocator) (c : ℕ) (prev target : Option ℕ) : Allocator :=
  { s with
    memPool := update s.memPool (c - minPoolSizeExp)
      (setHead (s.memPool (c - minPoolSizeExp)) prev target)
    nodes := relink s.nodes prev target }

theorem linkAfter_eq (hc : PoolClass c) (target : Option ℕ)
    (hprev : ∀ last, prev = some last → last < s.buddy.numPages) :
    s.linkAfter c prev target = .ok (s.relinked c prev target) := by
  cases prev with
  | none => exact hc.writePool s target
  | some last =>
    have hlt := hprev last rfl
    unfold Allocator.linkAfter Allocator.relinked setHead relink
    simp only [Allocator.readNode_eq hlt, Allocator.writeNode_eq hlt, ok_bind, update_eq_self]

/-- The chains after a change of the list of class `c`. -/
theorem DynamicInvariant.relinked_chain
    (h : DynamicInvariant s live pools) {c' : ℕ} (hc : PoolClass c) (hc' : PoolClass c') (hne : c' ≠ c)
    (hprev : ∀ last, prev = some last → last ∈ pools c) (target : Option ℕ) :
    Chain (fun y ↦ ((s.relinked c prev target).nodes y).next)
      ((s.relinked c prev target).memPool (c' - minPoolSizeExp)) (pools c') := by
  have hidx : c' - minPoolSizeExp ≠ c - minPoolSizeExp := by
    have := hc.1
    have := hc'.1
    omega
  change Chain (fun y ↦ (relink s.nodes prev target y).next)
    (update s.memPool (c - minPoolSizeExp) _ (c' - minPoolSizeExp)) _
  rw [update_of_ne hidx]
  apply (h.chain c' hc').congr
  intro y hy
  rw [relink_of_ne]
  intro heq
  exact hne (h.class_unique hc' hc hy (hprev y heq))

/-! ## The nodes and pools do not belong to the page allocator -/

theorem Allocator.writeNode_buddy (h : s.writeNode page node = .ok s') : s'.buddy = s.buddy := by
  unfold Allocator.writeNode at h
  split at h
  · rw [← Except.ok.inj h]
  · cases h

theorem Allocator.linkAfter_buddy {sizeExp : ℤ} {target : Option ℕ}
    (h : s.linkAfter sizeExp prev target = .ok s') : s'.buddy = s.buddy := by
  cases prev with
  | none =>
    change s.writePool sizeExp target = .ok s' at h
    unfold Allocator.writePool at h
    split at h
    · rw [← Except.ok.inj h]
    · cases h
  | some last =>
    obtain ⟨node, -, h⟩ := of_bind_eq_ok h
    exact Allocator.writeNode_buddy h

theorem takeChunk_buddy {idx : ℕ} (h : takeChunk s page idx = .ok (ptr, s')) :
    s'.buddy = s.buddy := by
  obtain ⟨node, -, h⟩ := of_bind_eq_ok h
  obtain ⟨word, -, h⟩ := of_bind_eq_ok h
  obtain ⟨node', -, h⟩ := of_bind_eq_ok h
  obtain ⟨s₁, hwrite, h⟩ := of_bind_eq_ok h
  cases h
  exact Allocator.writeNode_buddy hwrite

theorem addPage_eq_ok {addr : ℕ} (h : addPage s c prev addr = .ok (ptr, s')) :
    ptr = p2vTransKernel addr ∧ s'.buddy = s.buddy := by
  obtain ⟨s₁, hlink, h⟩ := of_bind_eq_ok h
  obtain ⟨node, -, h⟩ := of_bind_eq_ok h
  obtain ⟨word, -, h⟩ := of_bind_eq_ok h
  obtain ⟨node', -, h⟩ := of_bind_eq_ok h
  obtain ⟨s₂, hwrite, h⟩ := of_bind_eq_ok h
  obtain ⟨hptr, rfl⟩ := Prod.mk.inj (Except.ok.inj h)
  exact ⟨hptr.symm, (Allocator.writeNode_buddy hwrite).trans (Allocator.linkAfter_buddy hlink)⟩

/-! ## A new page in a pool -/

theorem addPage_spec (h : DynamicInvariant s live pools) (hc : PoolClass c)
    (hused : usedAt s.buddy page = some 0) (hout : ∀ c, PoolClass c → page ∉ pools c)
    (hlive : ∀ a ∈ live, a.page ≠ page) :
    Returns (addPage s c (pools c).getLast? (page * pageSize)) (fun result ↦
      result.1 = (chunkAllocation page c 0).ptr ∧
      DynamicInvariant result.2 (chunkAllocation page c 0 :: live)
        (update pools c (pools c ++ [page]))) := by
  have hlt : page < s.buddy.numPages := h.wf.core.lt (h.wf.core.usedAt_le hused).1
  have hplain := h.plain page hlt hout
  have hnotLast : (pools c).getLast? ≠ some page := fun heq ↦ hout c hc (mem_of_getLast? heq)
  have hprev (last : ℕ) (hlast : (pools c).getLast? = some last) : last ∈ pools c :=
    mem_of_getLast? hlast
  have hpos := hc.chunks_pos
  obtain ⟨hpageEq, hchunkEq⟩ := chunkAllocation_page_chunk h.wf.core hlt hc hpos
  have hwords : 0 < bitmapArr := by decide
  set s₁ := s.relinked c (pools c).getLast? (some page)
  have hlt₁ : page < s₁.buddy.numPages := hlt
  have hnode : s₁.nodes page = s.nodes page := relink_of_ne hnotLast _
  have hdiv : page * pageSize / pageSize = page := Nat.mul_div_cancel page (by decide)
  have hlink : s.linkAfter c (pools c).getLast? (some page) = .ok s₁ :=
    linkAfter_eq hc (some page) (fun last hlast ↦ h.pool_lt hc (hprev last hlast))
  unfold addPage
  simp only [hdiv, hlink, Allocator.readNode_eq hlt₁, hnode, DynamicNode.readBitmap_eq hwords,
    DynamicNode.writeBitmap_eq hwords, Allocator.writeNode_eq hlt₁, ok_bind]
  apply Returns.ok
  refine ⟨by simp [chunkAllocation], ?_⟩
  dsimp only
  set node : DynamicNode :=
    { s.nodes page with
      addr := p2vTransKernel (page * pageSize)
      chunkSize := 2 ^ c
      sum := (s.nodes page).sum + 1
      bitmap := update (s.nodes page).bitmap 0 ((s.nodes page).bitmap 0 ||| 1)
      curIdx := 0 } with hnodeDef
  have hoff (y : ℕ) (hy : y ≠ page) : update s₁.nodes page node y = relink s.nodes _ _ y :=
    update_of_ne hy _ _
  have hnext : (fun y ↦ (update s₁.nodes page node y).next) = fun y ↦ (s₁.nodes y).next := by
    funext y
    by_cases hy : y = page
    · rw [hy, update_self, hnode]
    · rw [update_of_ne hy]
  have hmem : page ∈ update pools c (pools c ++ [page]) c := by
    rw [update_self]
    exact mem_append_right _ (mem_singleton_self page)
  have hnone {P : Prop} (hnot : ∀ c', PoolClass c' → page ∉ update pools c (pools c ++ [page]) c') :
      P :=
    absurd hmem (hnot c hc)
  refine h.changePage ⟨rfl, fun _ _ ↦ rfl, fun y hy ↦ ?_, fun y hy hy' ↦ ?_, fun c' y _ hy ↦ ?_,
    .cons hpageEq⟩ h.wf (fun c' hc' ↦ ?_) (fun c' hc' hc'' ↦ ?_) (fun _ ↦ hnone)
    (fun _ _ _ ↦ hnone) (pairwise_cons.2 ⟨fun b hb hb' ↦ ?_, h.distinct⟩)
  · simp only [hoff y hy]
    exact relink_same_data s.nodes _ _ y
  · exact (hoff y hy).trans (relink_of_ne (fun heq ↦ hy' c hc (hprev y heq)) _)
  · by_cases hcc : c' = c
    · subst hcc
      simp [hy]
    · rw [update_of_ne hcc]
  · -- The lists of the other classes are not touched; this one grows at its end.
    change Chain (fun y ↦ (update s₁.nodes page node y).next) (s₁.memPool _) _
    rw [hnext]
    by_cases hcc : c' = c
    · subst hcc
      rw [update_self]
      change Chain (fun y ↦ (relink s.nodes _ _ y).next) (update s.memPool _ _ _) _
      rw [update_self, relink_next]
      exact (h.chain c' hc').append (h.nodup c' hc') (hout c' hc') hplain.next
    · rw [update_of_ne hcc]
      exact h.relinked_chain hc hc' hcc hprev _
  · obtain rfl : c' = c := by
      by_contra hcc
      rw [update_of_ne hcc] at hc''
      exact hout c' hc' hc''
    have hempty (word : ℕ) (hword : word < bitmapArr) : MarksChunks ((s.nodes page).bitmap word) word
        (fun i ↦ ∃ a ∈ live, a.page = page ∧ a.chunk = i) := by
      rw [hplain.bitmap word hword]
      intro b _
      simp only [BitVec.ofNat_eq_ofNat, BitVec.getLsbD_zero, Bool.false_eq_true, false_iff]
      rintro ⟨i, ⟨a, ha, hap, -⟩, -⟩
      exact hlive a ha hap
    refine .insert hpos hused hpageEq hchunkEq ?_ ?_ ?_ hempty ?_ ?_
      (fun a ha hap ↦ absurd hap (hlive a ha))
    all_goals simp only [update_self, hnodeDef]
    · rfl
    · rfl
    · rw [hplain.sum, liveSum_eq_zero_iff.2 hlive]
      rfl
  · exact absurd (hb'.symm.trans hpageEq) (hlive b hb)

end CapstoneKernel.Mem
