import CapstoneKernel.Lib.ByteWords

/-!
# The kernel stack of a new process

`fork` copies the kernel stack of the parent and moves the saved frame pointers in the copy by the
distance of the two stacks.  The loop follows the chain of frames from the current one on and ends
where the next frame would not lie behind it on the stack.
-/

namespace CapstoneKernel.Sched.ForkStack

open ByteWords Function

variable {a i j top top' k fuel tmp : ℕ} {mem : ℕ → UInt8} {f : ℕ → ℕ}

/-- `STACK_EL1_SIZE`. -/
def stackEl1Size : ℕ := 2 ^ 13

/-- `memcpy`. -/
def memcpy (mem : ℕ → UInt8) (dst src : ℕ) : ℕ → ℕ → UInt8
  | 0 => mem
  | size + 1 => memcpy (update mem dst (mem src)) (dst + 1) (src + 1) size

/-- The difference of two pointers. -/
def sub (a b : ℕ) : ℕ := (a + (2 ^ 64 - b)) % 2 ^ 64

/-- `new_pcb->stack[1] - (pcb->stack[1] - ptr)`. -/
def relocate (top top' ptr : ℕ) : ℕ := sub top' (sub top ptr)

/-- The loop of `fork`. -/
def fixUp (top top' : ℕ) : ℕ → (ℕ → UInt8) → ℕ → Option (ℕ → UInt8)
  | 0, _, _ => none
  | fuel + 1, mem, tmp =>
    if tmp < top' then
      let updateFp := relocate top top' (load mem tmp 8)
      if updateFp ≤ tmp ∨ top' < updateFp then some mem
      else
        let mem := store mem tmp updateFp 8
        fixUp top top' fuel mem (load mem tmp 8)
    else some mem

/-- The memory after `fork` has copied the stack with the given top and moved the frame pointers;
`fp` is the frame of `fork` itself. -/
def copyStack (mem : ℕ → UInt8) (top top' fp : ℕ) : Option (ℕ → UInt8) :=
  fixUp top top' (stackEl1Size + 1)
    (memcpy mem (top' - stackEl1Size) (top - stackEl1Size) stackEl1Size) (relocate top top' fp)

/-- The tops of two kernel stacks. -/
structure Stacks (top top' : ℕ) : Prop where
  top_lt : top < 2 ^ 64
  top'_lt : top' < 2 ^ 64
  size_le : stackEl1Size ≤ top
  size_le' : stackEl1Size ≤ top'
  aligned : top % 8 = 0
  disjoint : top' ≤ top - stackEl1Size ∨ top ≤ top' - stackEl1Size

/-- The frames `f 0`, …, `f k` of a stack, each of which holds the address of the next one.  The
last one is the top, or what it holds is no address behind it. -/
structure FrameChain (mem : ℕ → UInt8) (top fp k : ℕ) (f : ℕ → ℕ) : Prop where
  first : f 0 = fp
  lt : ∀ i < k, f i < f (i + 1)
  last_le : f k ≤ top
  aligned : ∀ i ≤ k, f i % 8 = 0
  word : ∀ i < k, load mem (f i) 8 = f (i + 1)
  last : f k = top ∨ ¬ (f k < load mem (f k) 8 ∧ load mem (f k) 8 ≤ top)

/-! ## Copying -/

theorem memcpy_apply {dst src size : ℕ} (hdisjoint : dst + size ≤ src ∨ src + size ≤ dst) (x : ℕ) :
    memcpy mem dst src size x =
      if dst ≤ x ∧ x < dst + size then mem (src + (x - dst)) else mem x := by
  induction size generalizing mem dst src with
  | zero => rw [if_neg (by omega)]; rfl
  | succ size ih =>
    rw [memcpy, ih (by omega)]
    by_cases hx : x = dst
    · subst hx
      rw [if_neg (by omega), if_pos (by omega), update_self, Nat.sub_self, Nat.add_zero]
    · by_cases hin : dst + 1 ≤ x ∧ x < dst + 1 + size
      · rw [if_pos hin, if_pos (by omega), update_of_ne (by omega)]
        congr 1
        omega
      · rw [if_neg hin, if_neg (by omega), update_of_ne hx]

/-! ## The loop -/

theorem le_of_gaps (hgap : ∀ i < k, f i + 8 ≤ f (i + 1)) (hij : i ≤ j) (hj : j ≤ k) :
    f i ≤ f j := by
  induction j, hij using Nat.le_induction with
  | base => exact Nat.le_refl _
  | succ j _ ih =>
    have hlast := hgap j (by omega)
    have hle := ih (by omega)
    omega

theorem add_le_of_gaps (hgap : ∀ i < k, f i + 8 ≤ f (i + 1)) (hij : i < j) (hj : j ≤ k) :
    f i + 8 ≤ f j :=
  (hgap i (by omega)).trans (le_of_gaps hgap hij hj)

section Loop

variable {top top' : ℕ}

theorem fixUp_succ {next : ℕ} (htop : top' < 2 ^ 64)
    (hnext : relocate top top' (load mem tmp 8) = next) (hlt : tmp < next) (hle : next ≤ top') :
    fixUp top top' (fuel + 1) mem tmp = fixUp top top' fuel (store mem tmp next 8) next := by
  rw [fixUp, if_pos (by omega), if_neg (by omega)]
  dsimp only
  rw [load_store, hnext, Nat.mod_eq_of_lt (show next < 256 ^ 8 by omega)]

theorem fixUp_end (h : tmp < top' → relocate top top' (load mem tmp 8) ≤ tmp ∨
      top' < relocate top top' (load mem tmp 8)) :
    fixUp top top' (fuel + 1) mem tmp = some mem := by
  rw [fixUp]
  split
  · next htmp => rw [if_pos (h htmp)]
  · rfl

theorem fixUp_isSome (mem : ℕ → UInt8) (htop : top' < 2 ^ 64) (hpos : 0 < fuel)
    (hfuel : top' < fuel + tmp) : (fixUp top top' fuel mem tmp).isSome := by
  induction fuel generalizing mem tmp with
  | zero => omega
  | succ fuel ih =>
    by_cases hend : tmp < top' → relocate top top' (load mem tmp 8) ≤ tmp ∨
        top' < relocate top top' (load mem tmp 8)
    · rw [fixUp_end hend]
      rfl
    · rw [fixUp_succ htop rfl (by omega) (by omega)]
      exact ih _ (by omega) (by omega)

variable (hstacks : Stacks top top')

include hstacks

theorem Stacks.relocate_eq {ptr : ℕ} (hle : top - stackEl1Size ≤ ptr) (hptr : ptr ≤ top) :
    relocate top top' ptr = ptr + top' - top := by
  have h := hstacks.top_lt
  have h' := hstacks.top'_lt
  have hsize := hstacks.size_le'
  rw [relocate, sub, sub]
  omega

theorem Stacks.relocate_outside {frame word : ℕ} (hword : word < 2 ^ 64) (hframe : frame < top)
    (houtside : ¬ (frame < word ∧ word ≤ top)) :
    relocate top top' word ≤ frame + top' - top ∨ top' < relocate top top' word := by
  have h := hstacks.top_lt
  have h' := hstacks.top'_lt
  have hsize := hstacks.size_le'
  rw [relocate, sub, sub]
  omega

/-- The loop on a copied chain: the frame pointers are moved, and no other byte changes. -/
theorem Stacks.fixUp_chain
    (hbase : top - stackEl1Size ≤ f 0) (hgap : ∀ i < k, f i + 8 ≤ f (i + 1)) (hlast : f k ≤ top)
    (hword : ∀ i < k, load mem (f i + top' - top) 8 = f (i + 1))
    (hend : f k = top ∨ ¬ (f k < load mem (f k + top' - top) 8 ∧
      load mem (f k + top' - top) 8 ≤ top)) (hfuel : top < fuel + f 0) (hpos : 0 < fuel) :
    ∃ mem', fixUp top top' fuel mem (f 0 + top' - top) = some mem' ∧
      (∀ i < k, load mem' (f i + top' - top) 8 = f (i + 1) + top' - top) ∧
      ∀ x, (∀ i < k, ¬ (f i + top' - top ≤ x ∧ x < f i + top' - top + 8)) → mem' x = mem x := by
  have hsize := hstacks.size_le'
  have htop' := hstacks.top'_lt
  -- by induction on the number of frames, from the first one on
  induction k generalizing fuel mem f with
  | zero =>
    obtain ⟨fuel, rfl⟩ := Nat.exists_eq_add_one_of_ne_zero hpos.ne'
    refine ⟨mem, fixUp_end fun htmp ↦ ?_, fun i hi ↦ absurd hi (Nat.not_lt_zero i), fun _ _ ↦ rfl⟩
    exact hstacks.relocate_outside (load_lt ..) (by omega) (hend.resolve_left (by omega))
  | succ k ih =>
    obtain ⟨fuel, rfl⟩ := Nat.exists_eq_add_one_of_ne_zero hpos.ne'
    have hbehind (i : ℕ) (hi : i ≤ k) : f 0 + 8 ≤ f (i + 1) :=
      add_le_of_gaps hgap (Nat.succ_pos i) (by omega)
    have hfirst : f 1 ≤ top := (le_of_gaps hgap (by omega) (Nat.le_refl _)).trans hlast
    have hgap₀ : f 0 + 8 ≤ f 1 := hbehind 0 (Nat.zero_le k)
    have hnext : relocate top top' (load mem (f 0 + top' - top) 8) = f 1 + top' - top := by
      rw [hword 0 (Nat.succ_pos k), hstacks.relocate_eq (by omega) hfirst]
    set mem₁ := store mem (f 0 + top' - top) (f 1 + top' - top) 8 with hmem₁
    have hkeep (i : ℕ) (hi : i ≤ k) :
        load mem₁ (f (i + 1) + top' - top) 8 = load mem (f (i + 1) + top' - top) 8 := by
      have hle := hbehind i hi
      refine load_copy fun j hj ↦ store_of_notMem ?_
      omega
    have hbase₁ : top - stackEl1Size ≤ f 1 := by omega
    have hfuel₁ : top < fuel + f 1 := by omega
    have hend₁ : f (k + 1) = top ∨ ¬ (f (k + 1) < load mem₁ (f (k + 1) + top' - top) 8 ∧
        load mem₁ (f (k + 1) + top' - top) 8 ≤ top) := by
      rw [hkeep k (Nat.le_refl k)]
      exact hend
    obtain ⟨mem', hrun, hwords, hframe⟩ := ih (f := fun i ↦ f (i + 1)) hbase₁
      (fun i hi ↦ hgap (i + 1) (by omega)) hlast
      (fun i hi ↦ (hkeep i (by omega)).trans (hword (i + 1) (by omega))) hend₁ hfuel₁ (by omega)
    refine ⟨mem', ?_, fun i hi ↦ ?_, fun x hx ↦ ?_⟩
    · rw [fixUp_succ htop' hnext (by omega) (by omega)]
      exact hrun
    · cases i with
      | zero =>
        have hsame : load mem' (f 0 + top' - top) 8 = load mem₁ (f 0 + top' - top) 8 :=
          load_copy fun j hj ↦ hframe _ fun i hi ↦ by
            have hle := hbehind i (by omega)
            omega
        rw [hsame, hmem₁, load_store, Nat.mod_eq_of_lt (show _ < 256 ^ 8 by omega)]
      | succ i => exact hwords i (by omega)
    · rw [hframe x fun i hi ↦ hx (i + 1) (by omega), hmem₁]
      exact store_of_notMem (hx 0 (Nat.succ_pos k))

end Loop

/-! ## The new stack -/

theorem Stacks.memcpy_eq (hstacks : Stacks top top') (mem : ℕ → UInt8)
    (hle : top - stackEl1Size ≤ a) (hlt : a < top) :
    memcpy mem (top' - stackEl1Size) (top - stackEl1Size) stackEl1Size (a + top' - top) =
      mem a := by
  have hsize := hstacks.size_le
  have hsize' := hstacks.size_le'
  have hdisjoint := hstacks.disjoint
  rw [memcpy_apply (by omega), if_pos (by omega)]
  exact congrArg mem (by omega)

theorem Stacks.memcpy_outside (hstacks : Stacks top top') (mem : ℕ → UInt8) {x : ℕ}
    (hx : ¬ (top' - stackEl1Size ≤ x ∧ x < top')) :
    memcpy mem (top' - stackEl1Size) (top - stackEl1Size) stackEl1Size x = mem x := by
  have hsize := hstacks.size_le
  have hsize' := hstacks.size_le'
  have hdisjoint := hstacks.disjoint
  rw [memcpy_apply (by omega), if_neg (by omega)]

theorem Stacks.load_memcpy (hstacks : Stacks top top') (mem : ℕ → UInt8)
    (hle : top - stackEl1Size ≤ a) (hlt : a + 8 ≤ top) :
    load (memcpy mem (top' - stackEl1Size) (top - stackEl1Size) stackEl1Size) (a + top' - top) 8 =
      load mem a 8 := by
  have hsize' := hstacks.size_le'
  refine load_copy fun i hi ↦ ?_
  have haddr : a + top' - top + i = a + i + top' - top := by omega
  rw [haddr, hstacks.memcpy_eq mem (by omega) (by omega)]

/-- For every content of the stack and every frame pointer in it the loop of `fork` ends, and if the
frame pointer begins a chain of frames, the child's stack holds the chain moved to it, and is a copy
of the parent's stack otherwise. -/
theorem fork_relocates_frames {top top' : ℕ} (hstacks : Stacks top top') (mem : ℕ → UInt8) {fp : ℕ}
    (hfp : top - stackEl1Size ≤ fp) (hlt : fp ≤ top) :
    ∃ mem', copyStack mem top top' fp = some mem' ∧ ∀ k f, FrameChain mem top fp k f →
        (∀ i < k, load mem' (f i + top' - top) 8 = f (i + 1) + top' - top) ∧
        (∀ a, top - stackEl1Size ≤ a → a + 8 ≤ top → a % 8 = 0 → (∀ i < k, a ≠ f i) →
          load mem' (a + top' - top) 8 = load mem a 8) ∧
        ∀ x, ¬ (top' - stackEl1Size ≤ x ∧ x < top') → mem' x = mem x := by
  have hsize := hstacks.size_le
  have hsize' := hstacks.size_le'
  have hstart : relocate top top' fp = fp + top' - top := hstacks.relocate_eq hfp hlt
  have hsome : (copyStack mem top top' fp).isSome := by
    rw [copyStack, hstart]
    exact fixUp_isSome _ hstacks.top'_lt (Nat.succ_pos _) (by omega)
  obtain ⟨mem', hrun⟩ := Option.isSome_iff_exists.1 hsome
  refine ⟨mem', hrun, fun k f hchain ↦ ?_⟩
  have hgap (i : ℕ) (hi : i < k) : f i + 8 ≤ f (i + 1) := by
    have hlt := hchain.lt i hi
    have haligned := hchain.aligned i (by omega)
    have haligned' := hchain.aligned (i + 1) (by omega)
    omega
  have hinside (i : ℕ) (hi : i ≤ k) : top - stackEl1Size ≤ f i ∧ f i ≤ top := by
    have hle := le_of_gaps hgap (Nat.zero_le i) hi
    have hle' := le_of_gaps hgap hi (Nat.le_refl k)
    have hlast := hchain.last_le
    have hfirst := hchain.first
    omega
  have hword (i : ℕ) (hi : i ≤ k) (hne : f i ≠ top) :
      load (memcpy mem (top' - stackEl1Size) (top - stackEl1Size) stackEl1Size)
        (f i + top' - top) 8 = load mem (f i) 8 := by
    have haligned := hchain.aligned i hi
    have htop := hstacks.aligned
    obtain ⟨hle, hle'⟩ := hinside i hi
    exact hstacks.load_memcpy mem hle (by omega)
  have hbelow (i : ℕ) (hi : i < k) : f i + 8 ≤ top :=
    (hgap i hi).trans (hinside (i + 1) (by omega)).2
  obtain ⟨mem'', hrun', hwords, hframe⟩ := hstacks.fixUp_chain
    (hinside 0 (Nat.zero_le k)).1 hgap hchain.last_le
    (fun i hi ↦ (hword i hi.le (by have := hbelow i hi; omega)).trans (hchain.word i hi))
    (or_iff_not_imp_left.2 fun hne ↦ by
      rw [hword k (Nat.le_refl k) hne]
      exact hchain.last.resolve_left hne)
    (by have := (hinside 0 (Nat.zero_le k)).1; omega : top < stackEl1Size + 1 + f 0)
    (Nat.succ_pos _)
  rw [copyStack, hstart, ← hchain.first, hrun'] at hrun
  cases hrun
  refine ⟨hwords, fun a hle hle' haligned hne ↦ ?_, fun x hx ↦ ?_⟩
  · rw [← hstacks.load_memcpy mem hle hle']
    refine load_copy fun j hj ↦ hframe _ fun i hi ↦ ?_
    have hi' := hinside i hi.le
    have haligned' := hchain.aligned i hi.le
    have hne' := hne i hi
    omega
  · have hframes (i : ℕ) (hi : i < k) : ¬ (f i + top' - top ≤ x ∧ x < f i + top' - top + 8) := by
      have hle := (hinside i hi.le).1
      have hle' := hbelow i hi
      omega
    rw [hframe x hframes, hstacks.memcpy_outside mem hx]

/-- A stack with the frame `0x3f00`, which holds `0x3f40`, where there is no other frame. -/
def twoFrames : ℕ → UInt8 := fun x ↦ if x = 0x3f00 then 0x40 else if x = 0x3f01 then 0x3f else 0

theorem twoFrames_chain : FrameChain twoFrames 0x4000 0x3f00 1 fun i ↦ 0x3f00 + 0x40 * i where
  first := rfl
  lt := by decide
  last_le := by decide
  aligned := by decide
  word := by decide
  last := .inr (by decide)

theorem fork_relocates_frames_two : ∃ mem', copyStack twoFrames 0x4000 0x8000 0x3f00 = some mem' ∧
    load mem' 0x7f00 8 = 0x7f40 := by
  have hstacks : Stacks 0x4000 0x8000 := by constructor <;> decide
  obtain ⟨mem', hrun, hframes⟩ := fork_relocates_frames hstacks twoFrames
    (by decide : 0x4000 - stackEl1Size ≤ 0x3f00) (by decide)
  exact ⟨mem', hrun, (hframes 1 _ twoFrames_chain).1 0 Nat.one_pos⟩

end CapstoneKernel.Sched.ForkStack
