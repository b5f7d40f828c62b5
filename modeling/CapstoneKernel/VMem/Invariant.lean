import CapstoneKernel.VMem.References

/-!
# The memory of processes between two operations

A process is a kernel thread without user memory, a program that has been loaded and not yet fetched
its first instruction, or a running program whose text is mapped.  `VmInv` says this of every
process of a state, together with what the page allocator keeps: page 0 stays in a block in use, so
that a physical address 0 never means a page of a process.
-/

namespace CapstoneKernel.VMem

open Mem Execution BuddyTiling List

variable {b b' : Buddy} {p : Proc} {idx k v x : ℕ}

/-! ## Blocks from the page allocator -/

/-- The page allocator has a free block of at least `pages` pages. -/
def BuddyHas (b : Buddy) (pages : ℕ) : Prop :=
  ∃ k ≤ b.numPagesExp, b.freeBlocksList k ≠ none ∧ pages ≤ 2 ^ k
deriving Decidable

/-- Page `x` lies in the used block of order `k` headed by `head`. -/
def InBlock (b : Buddy) (x head k : ℕ) : Prop := usedAt b head = some k ∧ head ≤ x ∧ x < head + 2 ^ k

/-- The state `b'` comes from `b` by taking the block of order `k` headed by `idx` for a request of
`pages` pages. -/
structure Granted (b : Buddy) (pages idx k : ℕ) (b' : Buddy) : Prop where
  run : buddyMalloc b pages = .ok (some idx, b')
  wf : BuddyWf b'
  exp : b'.numPagesExp = b.numPagesExp
  inside : idx + 2 ^ k ≤ b.numPages
  enough : pages ≤ 2 ^ k
  single : pages = 1 → k = 0
  used : usedAt b' idx = some k
  unused : usedAt b idx = none
  usedAt_of_ne : ∀ j, j ≠ idx → usedAt b' j = usedAt b j
  /-- The pages of the block were in no used block. -/
  fresh : ∀ x, idx ≤ x → x < idx + 2 ^ k → ∀ head m, ¬ InBlock b x head m

theorem Granted.numPages {pages : ℕ} (h : Granted b pages idx k b') :
    b'.numPages = b.numPages := congrArg (2 ^ ·) h.exp

theorem Granted.of_allocated (hwf : BuddyWf b) {pages m : ℕ}
    (hrun : buddyMalloc b pages = .ok (some idx, b')) (h : Allocated b pages b' idx m k) :
    Granted b pages idx k b' := by
  have hord : Mem.orderOf (b.arr idx) = some m := hwf.core.order_of_free h.order_le h.free
  have hpow : 2 ^ k ≤ 2 ^ m := Nat.pow_le_pow_right (by decide) h.cut_le
  have hinside := hwf.core.tiling.inside hord
  have hunused : usedAt b idx = none := by rw [usedAt, h.free, usedOrder_cast]
  refine ⟨hrun, ⟨h.core, h.noFreePair⟩, h.frame.numPagesExp, by unfold Buddy.numPages; omega,
    h.enough, ?_, ?_,
    hunused, h.usedAt_of_ne, ?_⟩
  · rintro rfl
    refine h.tight.resolve_right fun hlt ↦ ?_
    have : 0 < 2 ^ (k - 1) := Nat.pow_pos (by decide)
    omega
  · rw [usedAt, h.mark]
    exact usedOrder_usedMark ((h.cut_le.trans h.order_le).trans hwf.core.exp_le)
  · rintro x hlow hhigh head j ⟨hused, hle, hlt⟩
    obtain ⟨hhead, -⟩ := hwf.core.usedAt_le hused
    obtain ⟨rfl, -⟩ := hwf.core.tiling.unique hord hhead hlow (by omega) hle hlt
    rw [hunused] at hused
    cases hused

theorem buddyMalloc_granted (hwf : BuddyWf b) {pages : ℕ} (hpos : 0 < pages)
    (hhas : BuddyHas b pages) :
    Returns (buddyMalloc b pages) (fun r ↦ ∃ idx k, r.1 = some idx ∧ Granted b pages idx k r.2) := by
  obtain ⟨⟨_ | idx, b'⟩, hrun, hpost⟩ := buddyMalloc_spec hwf.core hwf.noFreePair pages
  · obtain ⟨k, hk, hlist, hle⟩ := hhas
    obtain ⟨i, hi⟩ := Option.ne_none_iff_exists'.1 hlist
    rcases hpost with ⟨hzero, -⟩ | ⟨-, -, hnone⟩
    · omega
    · have := hnone i k hk (hwf.core.lists.head_spec hk hi).2
      omega
  · obtain ⟨m, k, halloc⟩ := hpost
    exact Returns.of_eq hrun ⟨idx, k, rfl, .of_allocated hwf hrun halloc⟩

theorem mallocPages_spec (hwf : BuddyWf b) {pages : ℕ} (hpos : 0 < pages) (hhas : BuddyHas b pages) :
    Returns (mallocPages b pages)
      (fun r ↦ ∃ idx k, r.1 = idx * pageSize ∧ Granted b pages idx k r.2) := by
  have hhas' := hhas
  obtain ⟨k, hk, -, hle⟩ := hhas'
  have hsmall : pages % 2 ^ 32 = pages := by
    have : 2 ^ k ≤ 2 ^ 30 := Nat.pow_le_pow_right (by decide) (hk.trans hwf.core.exp_le)
    exact Nat.mod_eq_of_lt (by omega)
  rw [mallocPages, hsmall]
  apply (buddyMalloc_granted hwf hpos hhas).bind
  rintro ⟨block, b'⟩ ⟨idx, k, rfl, hgranted⟩
  exact Returns.ok ⟨idx, k, rfl, hgranted⟩

/-! ## Processes -/

namespace Proc

/-- The page table maps the virtual page `v` to the physical page `x`. -/
def Maps (p : Proc) (v x : ℕ) : Prop := v < userPages ∧ ∃ e, lookup p.table v = some e ∧ e.frame = x
deriving Decidable

/-- The virtual pages of the sections, in their order. -/
def pages (p : Proc) : List ℕ := p.sections.flatMap Section.pages

/-- All pages of a section are mapped, one after the other in memory. -/
def InOrder (p : Proc) : Prop :=
  ∀ sec ∈ p.sections, ∃ f, ∀ i < sec.numPages, p.Maps (sec.firstPage + i) (f + i)

/-- What a process has been through: nothing but kernel code, `exec`, or the first fetch after
it. -/
inductive Stage (b : Buddy) (p : Proc) : Prop
  | thread : p.el0 = false → p.sections = [] → p.table = emptyPageTable → Stage b p
  | loaded (size code : ℕ) : p.el0 = true → 0 < size → p.sections = [textSection size, stackSection] →
      p.table = emptyPageTable → p.code = code * pageSize → 0 < code →
      code + (textSection size).numPages ≤ b.numPages → Stage b p
  | running (size : ℕ) (rest : List Section) : p.el0 = true → 0 < size →
      p.sections = textSection size :: rest → (∀ sec ∈ rest, sec.type = .stack ∨ sec.type = .heap) →
      (∀ v < (textSection size).numPages, lookup p.table v ≠ none) → Stage b p

structure Wf (b : Buddy) (p : Proc) : Prop where
  stage : p.Stage b
  sections_le : ∀ sec ∈ p.sections, sec.numPages = 0 ∨ sec.firstPage + sec.numPages ≤ userPages
  frame : ∀ v x, p.Maps v x → 0 < x ∧ x < b.numPages
  mem_pages : ∀ v x, p.Maps v x → v ∈ p.pages

theorem Stage.mono (h : p.Stage b) (hnum : b'.numPages = b.numPages) : p.Stage b' := by
  cases h with
  | thread hel hsec htable => exact .thread hel hsec htable
  | loaded size code hel hsize hsec htable hcode hpos hle =>
    exact .loaded size code hel hsize hsec htable hcode hpos (hnum ▸ hle)
  | running size rest hel hsize hsec hrest hmapped =>
    exact .running size rest hel hsize hsec hrest hmapped

theorem Wf.mono (h : p.Wf b) (hnum : b'.numPages = b.numPages) : p.Wf b' :=
  ⟨h.stage.mono hnum, h.sections_le, hnum ▸ h.frame, h.mem_pages⟩

theorem Maps.unique {y : ℕ} (h : p.Maps v x) (h' : p.Maps v y) : x = y := by
  obtain ⟨-, e, he, rfl⟩ := h
  obtain ⟨-, e', he', rfl⟩ := h'
  rw [he] at he'
  rw [Option.some.inj he']

theorem not_maps_of_empty (h : p.table = emptyPageTable) (v x : ℕ) : ¬ p.Maps v x := by
  rintro ⟨-, e, he, -⟩
  rw [h, lookup_emptyPageTable] at he
  cases he

theorem mem_pages_iff :
    v ∈ p.pages ↔ ∃ sec ∈ p.sections, sec.firstPage ≤ v ∧ v < sec.firstPage + sec.numPages := by
  simp only [pages, mem_flatMap, Section.pages, mem_map, mem_range]
  constructor
  · rintro ⟨sec, hsec, i, hi, rfl⟩
    exact ⟨sec, hsec, by omega, by omega⟩
  · rintro ⟨sec, hsec, hlow, hhigh⟩
    exact ⟨sec, hsec, v - sec.firstPage, by omega, by omega⟩

theorem Wf.page_lt (h : p.Wf b) (hv : v ∈ p.pages) : v < userPages := by
  obtain ⟨sec, hsec, hlow, hlt⟩ := mem_pages_iff.1 hv
  have := h.sections_le sec hsec
  omega

theorem Maps.v2pTrans (h : p.Maps v x) : v2pTrans p.table (v * pageSize) = x * pageSize := by
  obtain ⟨-, e, he, rfl⟩ := h
  exact v2pTrans_mapped he

/-- In a process whose sections are in order, `free_sections` sees the pages of the process. -/
theorem InOrder.base (h : p.InOrder) {sec : Section} (hsec : sec ∈ p.sections) {i : ℕ}
    (hi : i < sec.numPages) :
    p.Maps (sec.firstPage + i) (VMem.v2pTrans p.table sec.base / pageSize + i) := by
  obtain ⟨f, hf⟩ := h sec hsec
  have hfirst := (hf 0 (by omega)).v2pTrans
  rw [Nat.add_zero, Nat.add_zero, ← Section.base_eq (by omega)] at hfirst
  rw [hfirst, Nat.mul_div_cancel f (by decide)]
  exact hf i hi

instance (p : Proc) : Decidable p.InOrder :=
  decidable_of_iff (∀ sec ∈ p.sections, ∀ i < sec.numPages,
      p.Maps (sec.firstPage + i) (VMem.v2pTrans p.table sec.base / pageSize + i))
    ⟨fun h sec hsec ↦ ⟨_, h sec hsec⟩, fun h _ hsec _ hi ↦ h.base hsec hi⟩

theorem InOrder.mem_released (h : p.InOrder) :
    x ∈ releasedPages p.table p.sections ↔ ∃ v ∈ p.pages, p.Maps v x := by
  simp only [releasedPages, mem_flatMap, mem_map, mem_range]
  constructor
  · rintro ⟨sec, hsec, i, hi, rfl⟩
    exact ⟨sec.firstPage + i, mem_pages_iff.2 ⟨sec, hsec, by omega, by omega⟩, h.base hsec hi⟩
  · rintro ⟨v, hv, hmaps⟩
    obtain ⟨sec, hsec, hlow, hhigh⟩ := mem_pages_iff.1 hv
    have hi : v - sec.firstPage < sec.numPages := by omega
    have hown := h.base hsec hi
    rw [show sec.firstPage + (v - sec.firstPage) = v by omega] at hown
    exact ⟨sec, hsec, v - sec.firstPage, hi, hown.unique hmaps⟩

end Proc

/-! ## States -/

structure VmInv (s : VmState) : Prop where
  wf : BuddyWf s.buddy
  count_lt : ∀ x, s.refCount x < 2 ^ 16
  zero_used : ∃ k, usedAt s.buddy 0 = some k
  zero_kernel : 0 ∉ s.kernel
  pid_lt : ∀ pid p, s.procs pid = some p → pid < maxProc
  proc : ∀ pid p, s.procs pid = some p → p.Wf s.buddy

/-- The allocations of an operation succeed. -/
def Served (s : VmState) : VmOp → Prop
  | .exec _ image => BuddyHas s.buddy (imagePages image.length)
  | .mmap _ _ len _ flags => flags &&& mapPopulate ≠ 0 → 0 < len → BuddyHas s.buddy (imagePages len)
  | .translationFault _ _ => BuddyHas s.buddy 1
  | .permissionFault _ _ => BuddyHas s.buddy 1
  | _ => True

/-- When a process gives up its memory, all pages of its sections are mapped and in order. -/
def ReleasesInOrder (s : VmState) : VmOp → Prop
  | .exec pid _ => ∀ p, s.procs pid = some p → p.InOrder
  | .reap pid => ∀ p, s.procs pid = some p → p.InOrder
  | _ => True

/-- The allocations succeed, and memory is given up in order. -/
def Tame (s : VmState) (op : VmOp) : Prop := Served s op ∧ ReleasesInOrder s op

instance (s : VmState) (op : VmOp) : Decidable (Tame s op) := by
  induction op using VmOp.casesOn <;> unfold Tame Served ReleasesInOrder <;> infer_instance

end CapstoneKernel.VMem
