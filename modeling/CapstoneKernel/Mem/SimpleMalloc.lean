import CapstoneKernel.Mem.Dynamic

/-!
# The startup allocator of `mem.c`

`simple_malloc` serves the tables of the other allocators: it hands out the heap from `_sbrk` on
and takes nothing back.  Addresses are 64-bit words.
-/

namespace CapstoneKernel.Mem

open List

/-- `_sbrk` of the linker script, the value of `heap_start`. -/
def sbrk : ℕ := vKernelSpace + 0x10000000

def heapSize : ℕ := 0x8000000

structure StartupHeap where
  heapPtr : ℕ
  console : List String

/-- `align_padding` after the last `n` rounds of the loop, in which `i` is `1 << (n - 1)` first. -/
def alignPadding (heapPtr size : ℕ) : ℕ → ℕ
  | 0 => 0
  | n + 1 =>
    if size % 2 ^ n = 0 then
      if heapPtr % 2 ^ n ≠ 0 then 2 ^ n - heapPtr % 2 ^ n else 0
    else alignPadding heapPtr size n

def simpleMalloc (s : StartupHeap) (size : ℕ) : Option ℕ × StartupHeap :=
  let padding := alignPadding s.heapPtr size 4
  let ret := (s.heapPtr + padding) % 2 ^ 64
  if (s.heapPtr + size + padding) % 2 ^ 64 ≤ (sbrk + heapSize) % 2 ^ 64 then
    (some ret, { s with heapPtr := (s.heapPtr + (size + padding)) % 2 ^ 64 })
  else (none, { s with console := s.console ++ ["Allocation failed\r\n"] })

/-- A call with the heap before it. -/
structure SimpleCall where
  before : StartupHeap
  size : ℕ
  result : Option ℕ × StartupHeap

/-- The calls with the given sizes, one after the other. -/
def simpleCalls (s : StartupHeap) : List ℕ → List SimpleCall
  | [] => []
  | size :: sizes => ⟨s, size, simpleMalloc s size⟩ :: simpleCalls (simpleMalloc s size).2 sizes

/-- The address and the size of what a call has got. -/
def SimpleCall.region (call : SimpleCall) : Option (ℕ × ℕ) := call.result.1.map (·, call.size)

/-- An address is a multiple of every power of two below `2 ^ n` that divides the size. -/
def Aligned (n size addr : ℕ) : Prop := ∀ k < n, 2 ^ k ∣ size → 2 ^ k ∣ addr

theorem alignPadding_lt (heapPtr size n : ℕ) : alignPadding heapPtr size n < 2 ^ n := by
  induction n with
  | zero => simp [alignPadding]
  | succ n ih =>
    have hpos := Nat.two_pow_pos n
    unfold alignPadding
    split_ifs <;> omega

theorem aligned_add_alignPadding (heapPtr size n : ℕ) :
    Aligned n size (heapPtr + alignPadding heapPtr size n) := by
  induction n with
  | zero => exact nofun
  | succ n ih =>
    intro k hk hdvd
    unfold alignPadding
    by_cases hsize : size % 2 ^ n = 0
    · rw [if_pos hsize]
      refine Nat.dvd_trans (Nat.pow_dvd_pow 2 (Nat.le_of_lt_succ hk)) (Nat.dvd_of_mod_eq_zero ?_)
      have hlt := Nat.mod_lt heapPtr (Nat.two_pow_pos n)
      split_ifs with hptr
      · rw [Nat.add_mod, Nat.mod_eq_of_lt (show 2 ^ n - heapPtr % 2 ^ n < 2 ^ n by omega),
          Nat.add_sub_cancel' hlt.le, Nat.mod_self]
      · exact of_not_not hptr
    · rw [if_neg hsize]
      have hne : k ≠ n := fun heq ↦ hsize (Nat.mod_eq_zero_of_dvd (heq ▸ hdvd))
      exact ih k (by omega) hdvd

/-- No aligned address from `heap_ptr` on is lower. -/
theorem add_alignPadding_le {heapPtr size n addr : ℕ} (h : heapPtr ≤ addr)
    (haligned : Aligned n size addr) : heapPtr + alignPadding heapPtr size n ≤ addr := by
  induction n with
  | zero => exact h
  | succ n ih =>
    have hfound := aligned_add_alignPadding heapPtr size (n + 1) n n.lt_succ_self
    unfold alignPadding at hfound ⊢
    by_cases hsize : size % 2 ^ n = 0
    · rw [if_pos hsize] at hfound ⊢
      have hdvd := Nat.dvd_of_mod_eq_zero hsize
      have hgap := Nat.dvd_sub (hfound hdvd) (haligned n n.lt_succ_self hdvd)
      by_contra hlt
      have hle := Nat.le_of_dvd (by omega) hgap
      have hpos := Nat.two_pow_pos n
      split_ifs at hle hlt <;> omega
    · rw [if_neg hsize]
      exact ih fun k hk ↦ haligned k (Nat.lt_succ_of_lt hk)

/-- A call gets an aligned region from `heap_ptr` on, behind which `heap_ptr` then is, or there is
none in the heap. -/
inductive Answered (s : StartupHeap) (size : ℕ) : Option ℕ × StartupHeap → Prop
  | got {addr : ℕ} (le : s.heapPtr ≤ addr) (aligned : Aligned 4 size addr) :
    Answered s size (some addr, ⟨addr + size, s.console⟩)
  | failed {console : List String} (full : ∀ addr, s.heapPtr ≤ addr → Aligned 4 size addr →
      sbrk + heapSize < addr + size) : Answered s size (none, ⟨s.heapPtr, console⟩)

/-- `heap_ptr` is in the heap. -/
def StartupHeap.Valid (s : StartupHeap) : Prop :=
  sbrk ≤ s.heapPtr ∧ s.heapPtr ≤ sbrk + heapSize

theorem simpleMalloc_spec {s : StartupHeap} (h : s.Valid) {size : ℕ} (hsize : size < 2 ^ 32) :
    Answered s size (simpleMalloc s size) ∧ s.heapPtr ≤ (simpleMalloc s size).2.heapPtr ∧
      (simpleMalloc s size).2.Valid := by
  obtain ⟨hlow, hhigh⟩ := h
  have hend : sbrk + heapSize < 2 ^ 64 - 2 ^ 33 := by decide
  have hpadding : alignPadding s.heapPtr size 4 < 2 ^ 4 := alignPadding_lt ..
  have hassoc : s.heapPtr + (size + alignPadding s.heapPtr size 4) =
      s.heapPtr + alignPadding s.heapPtr size 4 + size := by omega
  -- Nothing wraps around: the heap ends more than the largest size before the last address.
  simp only [simpleMalloc, hassoc, Nat.add_right_comm s.heapPtr size,
    Nat.mod_eq_of_lt (show s.heapPtr + alignPadding s.heapPtr size 4 < 2 ^ 64 by omega),
    Nat.mod_eq_of_lt (show s.heapPtr + alignPadding s.heapPtr size 4 + size < 2 ^ 64 by omega),
    Nat.mod_eq_of_lt (show sbrk + heapSize < 2 ^ 64 by omega)]
  split_ifs with hfits
  · exact ⟨.got (Nat.le_add_right ..) (aligned_add_alignPadding s.heapPtr size 4),
      by dsimp only; omega, by dsimp only [StartupHeap.Valid]; omega⟩
  · refine ⟨.failed fun addr hle haligned ↦ ?_, Nat.le_refl _, hlow, hhigh⟩
    have := add_alignPadding_le hle haligned
    omega

theorem simpleCalls_spec {sizes : List ℕ} (hsizes : ∀ size ∈ sizes, size < 2 ^ 32)
    {s : StartupHeap} (h : s.Valid) :
    (∀ call ∈ simpleCalls s sizes, Answered call.before call.size call.result ∧
      s.heapPtr ≤ call.before.heapPtr ∧ call.before.Valid ∧ call.result.2.Valid) ∧
    (simpleCalls s sizes).Pairwise fun call later ↦
      call.result.2.heapPtr ≤ later.before.heapPtr := by
  induction sizes generalizing s with
  | nil => exact ⟨nofun, .nil⟩
  | cons size sizes ih =>
    obtain ⟨hspec, hle, hvalid⟩ := simpleMalloc_spec h (hsizes size mem_cons_self)
    obtain ⟨hcalls, hordered⟩ := ih (fun size hmem ↦ hsizes size (mem_cons_of_mem _ hmem)) hvalid
    refine ⟨forall_mem_cons.2 ⟨⟨hspec, le_rfl, h, hvalid⟩, fun call hcall ↦ ?_⟩,
      pairwise_cons.2 ⟨fun call hcall ↦ (hcalls call hcall).2.1, hordered⟩⟩
    obtain ⟨hcall, hle', hvalids⟩ := hcalls call hcall
    exact ⟨hcall, le_trans hle hle', hvalids⟩

theorem Answered.region_bounds {call : SimpleCall} (h : Answered call.before call.size call.result)
    {r : ℕ × ℕ} (hr : call.region = some r) :
    call.before.heapPtr ≤ r.1 ∧ call.result.2.heapPtr = r.1 + r.2 ∧ Aligned 4 r.2 r.1 := by
  obtain ⟨before, size, result⟩ := call
  dsimp only at h
  cases h with
  | got le aligned =>
    obtain rfl := Option.some.inj hr
    exact ⟨le, rfl, aligned⟩
  | failed => cases hr

/-- From the start of the kernel on, the regions handed out are in order, disjoint, inside the heap
and aligned to the largest power of two up to 8 that divides their size.  A call that fails leaves
`heap_ptr`, and no aligned region of its size is left. -/
theorem simple_malloc_regions (sizes : List ℕ) (hsizes : ∀ size ∈ sizes, size < 2 ^ 32)
    (console : List String) :
    let calls := simpleCalls ⟨sbrk, console⟩ sizes
    let regions := calls.filterMap SimpleCall.region
    regions.Pairwise (fun r r' ↦
      r.1 ≤ r'.1 ∧ Disjoint (Set.Ico r.1 (r.1 + r.2)) (Set.Ico r'.1 (r'.1 + r'.2))) ∧
    (∀ r ∈ regions, Set.Ico r.1 (r.1 + r.2) ⊆ Set.Ico sbrk (sbrk + heapSize) ∧ Aligned 4 r.2 r.1) ∧
    ∀ call ∈ calls, call.result.1 = none → call.result.2.heapPtr = call.before.heapPtr ∧
      ∀ addr, call.before.heapPtr ≤ addr → Aligned 4 call.size addr →
        sbrk + heapSize < addr + call.size := by
  intro calls regions
  obtain ⟨hcalls, hordered⟩ := simpleCalls_spec hsizes
    (show StartupHeap.Valid ⟨sbrk, console⟩ from ⟨le_rfl, Nat.le_add_right ..⟩)
  refine ⟨pairwise_filterMap.2 (hordered.imp_of_mem ?_), fun r hr ↦ ?_, fun call hcall hnone ↦ ?_⟩
  · intro call later hcall hlater hle r hr r' hr'
    obtain ⟨-, hafter, -⟩ := (hcalls call hcall).1.region_bounds hr
    obtain ⟨hbefore, -, -⟩ := (hcalls later hlater).1.region_bounds hr'
    have hgap : r.1 + r.2 ≤ r'.1 := by omega
    exact ⟨by omega, Set.disjoint_left.2 fun x hx hx' ↦ (hx.2.trans_le hgap).not_ge hx'.1⟩
  · obtain ⟨call, hcall, hregion⟩ := mem_filterMap.1 hr
    obtain ⟨hserved, -, hbefore, hafter⟩ := hcalls call hcall
    obtain ⟨hle, heq, haligned⟩ := hserved.region_bounds hregion
    exact ⟨Set.Ico_subset_Ico (hbefore.1.trans hle) (heq ▸ hafter.2), haligned⟩
  · obtain ⟨hserved, -⟩ := hcalls call hcall
    obtain ⟨before, size, result⟩ := call
    dsimp only at hserved
    cases hserved with
    | got => cases hnone
    | failed full => exact ⟨rfl, full⟩

theorem simple_malloc_regions_three : (∀ size ∈ [24, 3, 4096], size < 2 ^ 32) ∧
      ((simpleCalls ⟨sbrk, []⟩ [24, 3, 4096]).filterMap SimpleCall.region).Pairwise fun r r' ↦
        r.1 ≤ r'.1 ∧ Disjoint (Set.Ico r.1 (r.1 + r.2)) (Set.Ico r'.1 (r'.1 + r'.2)) :=
  ⟨by decide, (simple_malloc_regions [24, 3, 4096] (by decide) []).1⟩

end CapstoneKernel.Mem
