import CapstoneKernel.Lib.LinkedChain
import CapstoneKernel.Mem.BuddyRuns
import CapstoneKernel.Mem.Dynamic

/-!
# The invariant of the dynamic allocator

The live allocations are ghost data: the pointers `malloc` returned and `free` has not taken back,
with the exponents of their sizes.  The invariant says what they mean for the data of the source.
A page is either on the list of one size class, where its bitmap and its sum account for the live
chunks, or plain.  Since chunks that differ by 32 share a mask, at most one chunk of such a pair is
live, and a set mask stands for exactly one live chunk.
-/

namespace CapstoneKernel.Mem

open LinkedChain BuddyTiling Execution

variable {value : BitVec 64} {live : List Allocation} {addr i j : ℕ}

/-! ## Kernel addresses -/

/-- Physical addresses stay below the kernel's half of the address space. -/
theorem p2vTransKernel_eq (h : addr < 2 ^ 48) : p2vTransKernel addr = addr + vKernelSpace := by
  unfold p2vTransKernel vKernelSpace
  omega

theorem v2pTransKernel_add (h : addr < 2 ^ 48) : v2pTransKernel (addr + vKernelSpace) = addr := by
  unfold v2pTransKernel vKernelSpace
  omega

theorem BuddyCore.endAddr_lt {s : Buddy} (h : BuddyCore s) : s.endAddr < 2 ^ 48 := by
  rw [h.endAddr_eq]
  have hpow : s.numPages ≤ 2 ^ 30 := Nat.pow_le_pow_right (by decide) h.exp_le
  unfold pageSize
  omega

/-! ## Chunk masks -/

/-- Two chunks that the bitmap cannot tell apart. -/
def SameMask (i j : ℕ) : Prop := i / 64 = j / 64 ∧ i % 32 = j % 32

theorem SameMask.refl (i : ℕ) : SameMask i i := ⟨rfl, rfl⟩

theorem SameMask.symm (h : SameMask i j) : SameMask j i := ⟨h.1.symm, h.2.symm⟩

theorem chunkMask_eq (h : i % 32 = j % 32) : chunkMask i = chunkMask j := by
  have hi : i % 64 % 32 = j % 64 % 32 := by omega
  rw [chunkMask, chunkMask, hi]

theorem mask_and_mask : ∀ r r' : Fin 32, r ≠ r' →
    (1#32 <<< r.val).signExtend 64 &&& (1#32 <<< r'.val).signExtend 64 = 0 := by
  decide +kernel

theorem mask_ne_zero : ∀ r : Fin 32, (1#32 <<< r.val).signExtend 64 ≠ 0 := by
  decide +kernel

/-- A bit belongs to the masks of one residue only. -/
theorem residue_eq_of_bit {b : ℕ} (hi : (chunkMask i).getLsbD b = true)
    (hj : (chunkMask j).getLsbD b = true) : i % 32 = j % 32 := by
  by_contra hne
  have hand := mask_and_mask ⟨i % 64 % 32, by omega⟩ ⟨j % 64 % 32, by omega⟩
    (fun heq ↦ hne (by have := congrArg Fin.val heq; simp only at this; omega))
  have hbit : (chunkMask i &&& chunkMask j).getLsbD b = true := by
    rw [BitVec.getLsbD_and, hi, hj]
    rfl
  change ((1#32 <<< (i % 64 % 32)).signExtend 64 &&& (1#32 <<< (j % 64 % 32)).signExtend 64).getLsbD
    b =
    true at hbit
  rw [hand] at hbit
  simp at hbit

theorem exists_bit_of_ne_zero {x : BitVec 64} (h : x ≠ 0) : ∃ b, b < 64 ∧ x.getLsbD b = true := by
  by_contra hnone
  push Not at hnone
  apply h
  apply BitVec.eq_of_getLsbD_eq
  intro b hb
  simpa using hnone b hb

theorem exists_chunkMask_bit (i : ℕ) : ∃ b, b < 64 ∧ (chunkMask i).getLsbD b = true :=
  exists_bit_of_ne_zero (mask_ne_zero ⟨i % 64 % 32, by omega⟩)

/-- The word `word` of a bitmap is the union of the masks of the chunks in it. -/
def MarksChunks (value : BitVec 64) (word : ℕ) (chunk : ℕ → Prop) : Prop :=
  ∀ b, b < 64 → (value.getLsbD b = true ↔ ∃ i, chunk i ∧ i / 64 = word ∧ (chunkMask i).getLsbD b = true)

/-- The test of `malloc` and `free`: a mask is set when a chunk with this mask is marked. -/
theorem MarksChunks.test {chunk : ℕ → Prop} (h : MarksChunks value (i / 64) chunk) :
    value &&& chunkMask i ≠ 0 ↔ ∃ j, chunk j ∧ SameMask i j := by
  constructor
  · intro hne
    obtain ⟨b, hb, hbit⟩ := exists_bit_of_ne_zero hne
    rw [BitVec.getLsbD_and, Bool.and_eq_true] at hbit
    obtain ⟨j, hj, hword, hmask⟩ := (h b hb).1 hbit.1
    exact ⟨j, hj, hword.symm, residue_eq_of_bit hbit.2 hmask⟩
  · rintro ⟨j, hj, hword, hres⟩ hzero
    obtain ⟨b, hb, hbit⟩ := exists_chunkMask_bit i
    have hvalue : value.getLsbD b = true := by
      refine (h b hb).2 ⟨j, hj, hword.symm, ?_⟩
      rw [← chunkMask_eq hres]
      exact hbit
    have hand : (value &&& chunkMask i).getLsbD b = true := by
      rw [BitVec.getLsbD_and, hvalue, hbit]
      rfl
    rw [hzero] at hand
    simp at hand

theorem MarksChunks.insert {chunk : ℕ → Prop} (h : MarksChunks value (i / 64) chunk) :
    MarksChunks (value ||| chunkMask i) (i / 64) (fun j ↦ j = i ∨ chunk j) := by
  intro b hb
  rw [BitVec.getLsbD_or, Bool.or_eq_true, h b hb]
  constructor
  · rintro (⟨j, hj, hword, hmask⟩ | hmask)
    · exact ⟨j, .inr hj, hword, hmask⟩
    · exact ⟨i, .inl rfl, rfl, hmask⟩
  · rintro ⟨j, rfl | hj, hword, hmask⟩
    · exact .inr hmask
    · exact .inl ⟨j, hj, hword, hmask⟩

/-- Clearing a mask removes its chunk and, since no other chunk has this mask, no other one. -/
theorem MarksChunks.remove {chunk : ℕ → Prop} (h : MarksChunks value (i / 64) chunk)
    (halias : ∀ j, chunk j → SameMask i j → j = i) :
    MarksChunks (value &&& ~~~ chunkMask i) (i / 64) (fun j ↦ chunk j ∧ j ≠ i) := by
  intro b hb
  have hnot : (~~~ chunkMask i).getLsbD b = !(chunkMask i).getLsbD b := by
    rw [BitVec.getLsbD_not]
    simp [hb]
  rw [BitVec.getLsbD_and, Bool.and_eq_true, h b hb, hnot]
  constructor
  · rintro ⟨⟨j, hj, hword, hmask⟩, hclear⟩
    refine ⟨j, ⟨hj, ?_⟩, hword, hmask⟩
    rintro rfl
    simp [hmask] at hclear
  · rintro ⟨j, ⟨hj, hne⟩, hword, hmask⟩
    refine ⟨⟨j, hj, hword, hmask⟩, ?_⟩
    cases hbit : (chunkMask i).getLsbD b with
    | false => rfl
    | true => exact absurd (halias j hj ⟨hword.symm, residue_eq_of_bit hbit hmask⟩) hne

theorem MarksChunks.congr {word : ℕ} {chunk chunk' : ℕ → Prop} (h : MarksChunks value word chunk)
    (heq : ∀ i, i / 64 = word → (chunk i ↔ chunk' i)) :
    MarksChunks value word chunk' := by
  intro b hb
  rw [h b hb]
  constructor
  · rintro ⟨i, hi, hword, hmask⟩
    exact ⟨i, (heq i hword).1 hi, hword, hmask⟩
  · rintro ⟨i, hi, hword, hmask⟩
    exact ⟨i, (heq i hword).2 hi, hword, hmask⟩

/-! ## Live allocations -/

/-- A live allocation: the pointer and the exponent of its size in bytes. -/
structure Allocation where
  ptr : ℕ
  exp : ℕ
  deriving DecidableEq

namespace Allocation

def page (a : Allocation) : ℕ := v2pTransKernel a.ptr / pageSize

def chunk (a : Allocation) : ℕ := v2pTransKernel a.ptr % pageSize / 2 ^ a.exp

/-- Two extents do not meet. -/
def Apart (a b : Allocation) : Prop := a.ptr + 2 ^ a.exp ≤ b.ptr ∨ b.ptr + 2 ^ b.exp ≤ a.ptr

/-- Two live allocations are on different pages or have different masks. -/
def MaskApart (a b : Allocation) : Prop := a.page = b.page → ¬ SameMask a.chunk b.chunk

instance : Std.Symm MaskApart where
  symm _ _ h hpage hmask := h hpage.symm hmask.symm

end Allocation

/-- The sum of the numbers, counted from 1, of the live chunks on a page. -/
def liveSum (live : List Allocation) (page : ℕ) : ℕ :=
  (live.map (fun a ↦ if a.page = page then a.chunk + 1 else 0)).sum

theorem liveSum_cons (a : Allocation) (live : List Allocation) (page : ℕ) :
    liveSum (a :: live) page = (if a.page = page then a.chunk + 1 else 0) + liveSum live page := by
  simp [liveSum]

theorem liveSum_erase {a : Allocation} (ha : a ∈ live) (page : ℕ) :
    (if a.page = page then a.chunk + 1 else 0) + liveSum (live.erase a) page = liveSum live page :=
  List.sum_map_erase (fun a ↦ if a.page = page then a.chunk + 1 else 0) ha

theorem liveSum_eq_zero_iff {page : ℕ} : liveSum live page = 0 ↔ ∀ a ∈ live, a.page ≠ page := by
  rw [liveSum, List.sum_eq_zero_iff_forall_eq_nat]
  simp

/-! ## The invariant -/

/-- The exponents of the pool size classes. -/
def PoolClass (c : ℕ) : Prop := minPoolSizeExp ≤ c ∧ c ≤ maxPoolSizeExp

/-- A page on the list of size class `c`. -/
structure PoolPage (s : Allocator) (live : List Allocation) (c page : ℕ) : Prop where
  used : usedAt s.buddy page = some 0
  addr : (s.nodes page).addr = p2vTransKernel (page * pageSize)
  chunkSize : (s.nodes page).chunkSize = 2 ^ c
  curIdx : ∃ m, m < pageSize / 2 ^ c ∧ (s.nodes page).curIdx = m
  bitmap : ∀ word, word < bitmapArr →
    MarksChunks ((s.nodes page).bitmap word) word (fun i ↦ ∃ a ∈ live, a.page = page ∧ a.chunk = i)
  sum : (s.nodes page).sum = liveSum live page
  live_ne : ∃ a ∈ live, a.page = page
  chunks : ∀ a ∈ live, a.page = page →
    a.exp = c ∧ a.ptr = p2vTransKernel (page * pageSize) + a.chunk * 2 ^ c ∧ a.chunk < pageSize / 2 ^ c

/-- The node of a page on no list. -/
structure PlainPage (s : Allocator) (page : ℕ) : Prop where
  chunkSize : (s.nodes page).chunkSize = pageSize
  sum : (s.nodes page).sum = 0
  bitmap : ∀ word, word < bitmapArr → (s.nodes page).bitmap word = 0
  next : (s.nodes page).next = none

/-- A live allocation that is a whole block of the page allocator. -/
def WholeBlock (s : Allocator) (a : Allocation) : Prop :=
  ∃ k, usedAt s.buddy a.page = some k ∧ a.exp = k + 12 ∧ a.ptr = p2vTransKernel (a.page * pageSize)

/-- The data of the source accounts for the live allocations; `pools c` are the pages of class `c`
in the order of their list. -/
structure DynamicInvariant (s : Allocator) (live : List Allocation) (pools : ℕ → List ℕ) : Prop where
  wf : BuddyWf s.buddy
  chain : ∀ c, PoolClass c →
    Chain (fun page ↦ (s.nodes page).next) (s.memPool (c - minPoolSizeExp)) (pools c)
  nodup : ∀ c, PoolClass c → (pools c).Nodup
  pool : ∀ c, PoolClass c → ∀ page ∈ pools c, PoolPage s live c page
  plain : ∀ page, page < s.buddy.numPages → (∀ c, PoolClass c → page ∉ pools c) → PlainPage s page
  block : ∀ a ∈ live, (∀ c, PoolClass c → a.page ∉ pools c) → WholeBlock s a
  distinct : live.Pairwise Allocation.MaskApart

end CapstoneKernel.Mem
