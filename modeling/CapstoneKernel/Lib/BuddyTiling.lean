import Mathlib

/-!
# Tilings of `2^n` cells by aligned dyadic blocks

A family of blocks over the cells `0, …, 2^n - 1` is described by a partial function `ord`:
`ord i = some k` says that a block of `2^k` cells starts at `i`.  `IsTiling n ord` says that
these blocks are aligned to their own size and partition the cells.

Every change a buddy system makes to its blocks is a sequence of three moves: splitting a block
into halves, joining two halves, and relabelling a block.  Only the first two change `ord`, and
`IsTiling.split` and `IsTiling.join` show that they lead from tilings to tilings.
-/

namespace CapstoneKernel.BuddyTiling

open Function Option

variable {a m b i j k p w : ℕ}

/-- Blocks given by `ord` are aligned, lie inside the `2^n` cells and partition them. -/
structure IsTiling (n : ℕ) (ord : ℕ → Option ℕ) : Prop where
  aligned : ∀ {i k}, ord i = some k → 2 ^ k ∣ i
  inside : ∀ {i k}, ord i = some k → i + 2 ^ k ≤ 2 ^ n
  interior : ∀ {i k j}, ord i = some k → i < j → j < i + 2 ^ k → ord j = none
  cover : ∀ {p}, p < 2 ^ n → ∃ i k, ord i = some k ∧ i ≤ p ∧ p < i + 2 ^ k

/-! ## Arithmetic of aligned blocks -/

theorem two_pow_succ (k : ℕ) : 2 ^ (k + 1) = 2 * 2 ^ k ∧ 0 < 2 ^ k := ⟨by ring, by positivity⟩

theorem add_le_of_dvd_of_lt (hm : a ∣ m) (hb : a ∣ b) (hlt : m < b) : m + a ≤ b := by
  obtain ⟨x, rfl⟩ := hm
  obtain ⟨y, rfl⟩ := hb
  have hxy : x < y := lt_of_mul_lt_mul_left' hlt
  calc
    a * x + a = a * (x + 1) := by ring
    _ ≤ a * y := Nat.mul_le_mul_left a hxy

/-- Two aligned blocks that meet are nested, the smaller inside the larger. -/
theorem nested_of_meet (hi : 2 ^ a ∣ i) (hj : 2 ^ b ∣ j) (hab : a ≤ b)
    (hij : i < j + 2 ^ b) (hji : j < i + 2 ^ a) : j ≤ i ∧ i + 2 ^ a ≤ j + 2 ^ b := by
  have hpow : (2 : ℕ) ^ a ∣ 2 ^ b := pow_dvd_pow 2 hab
  constructor
  · by_contra hlt
    have := add_le_of_dvd_of_lt hi (hpow.trans hj) (Nat.lt_of_not_le hlt)
    omega
  · exact add_le_of_dvd_of_lt hi (Nat.dvd_add (hpow.trans hj) hpow) hij

/-- The lower half of an aligned block is aligned to the whole block, so the upper half is not. -/
theorem not_dvd_add_half (hi : 2 ^ (k + 1) ∣ i) : ¬ 2 ^ (k + 1) ∣ i + 2 ^ k := by
  intro h
  have hhalf : (2 : ℕ) ^ (k + 1) ∣ 2 ^ k := (Nat.dvd_add_right hi).1 h
  obtain ⟨hpow, hpos⟩ := two_pow_succ k
  have := Nat.le_of_dvd hpos hhalf
  omega

/-- An aligned block is either the lower or the upper half of the next larger aligned block. -/
theorem dvd_or_dvd_sub (hi : 2 ^ k ∣ i) :
    2 ^ (k + 1) ∣ i ∨ (2 ^ k ≤ i ∧ 2 ^ (k + 1) ∣ i - 2 ^ k) := by
  obtain ⟨m, rfl⟩ := hi
  rcases Nat.even_or_odd m with ⟨r, hr⟩ | ⟨r, hr⟩
  · left
    exact ⟨r, by rw [hr]; ring⟩
  · right
    subst hr
    have hexp : 2 ^ k * (2 * r + 1) = 2 ^ (k + 1) * r + 2 ^ k := by ring
    rw [hexp]
    exact ⟨by omega, by simp⟩

theorem dvd_half (hi : 2 ^ (k + 1) ∣ i) : 2 ^ k ∣ i :=
  (pow_dvd_pow 2 (Nat.le_succ k)).trans hi

theorem dvd_add_half (hi : 2 ^ (k + 1) ∣ i) : 2 ^ k ∣ i + 2 ^ k :=
  Nat.dvd_add (dvd_half hi) dvd_rfl

/-! ## Blocks of a tiling -/

namespace IsTiling

variable {n e : ℕ} {ord : ℕ → Option ℕ} (h : IsTiling n ord)

include h

theorem lt (hi : ord i = some k) : i < 2 ^ n := by
  have := h.inside hi
  have : 0 < (2 : ℕ) ^ k := by positivity
  omega

theorem order_le (hi : ord i = some k) : k ≤ n := by
  have := h.inside hi
  exact (Nat.pow_le_pow_iff_right (by norm_num)).1 (by omega : 2 ^ k ≤ 2 ^ n)

theorem unique (hi : ord i = some a) (hj : ord j = some b)
    (hip : i ≤ p) (hpi : p < i + 2 ^ a) (hjp : j ≤ p) (hpj : p < j + 2 ^ b) : i = j ∧ a = b := by
  have heq : i = j := by
    rcases lt_trichotomy i j with hlt | heq | hlt
    · have := h.interior hi hlt (by omega)
      rw [hj] at this
      simp at this
    · exact heq
    · have := h.interior hj hlt (by omega)
      rw [hi] at this
      simp at this
  refine ⟨heq, ?_⟩
  rw [heq, hj] at hi
  exact (some.inj hi).symm

theorem apart (hi : ord i = some a) (hj : ord j = some b) (hne : i ≠ j) :
    i + 2 ^ a ≤ j ∨ j + 2 ^ b ≤ i := by
  by_contra hmeet
  push Not at hmeet
  rcases le_total i j with hle | hle
  · exact hne (h.unique hi hj hle hmeet.1 le_rfl (Nat.lt_add_of_pos_right (by positivity))).1
  · exact hne (h.unique hi hj le_rfl (Nat.lt_add_of_pos_right (by positivity)) hle hmeet.2).1

/-- If the block at `i` fits into an aligned region at `i`, every block meeting the region lies
inside it. -/
theorem le_order_of_mem (hi : ord i = some k) (hk : k ≤ e)
    (hal : 2 ^ e ∣ i) (hj : ord j = some b) (hij : i < j + 2 ^ b) (hji : j < i + 2 ^ e) :
    b ≤ e ∧ i ≤ j ∧ j + 2 ^ b ≤ i + 2 ^ e := by
  have hb : b ≤ e := by
    by_contra hlt
    have hnest := nested_of_meet hal (h.aligned hj) (by omega : e ≤ b) hij hji
    have := (h.unique hi hj le_rfl (by have : 0 < (2 : ℕ) ^ k := by positivity
                                       omega) hnest.1 hij).2
    omega
  exact ⟨hb, nested_of_meet (h.aligned hj) hal hb hji hij⟩

/-- If the block at `i` fits into the lower half of an aligned region, a block starts at the upper
half and fits into it. -/
theorem upper_half (hi : ord i = some k) (hk : k ≤ e)
    (hal : 2 ^ (e + 1) ∣ i) (hin : i + 2 ^ (e + 1) ≤ 2 ^ n) :
    ∃ b, ord (i + 2 ^ e) = some b ∧ b ≤ e := by
  obtain ⟨hpow, hpos⟩ := two_pow_succ e
  obtain ⟨j, b, hj, hle, hlt⟩ := h.cover (p := i + 2 ^ e) (by omega)
  obtain ⟨-, hij, hjb⟩ := h.le_order_of_mem hi (by omega : k ≤ e + 1) hal hj (by omega) (by omega)
  have hbe : b ≤ e := by
    by_contra hgt
    have hbpow : (2 : ℕ) ^ (e + 1) ≤ 2 ^ b := Nat.pow_le_pow_right (by norm_num) (by omega)
    have hji : j = i := by omega
    subst hji
    rw [hi] at hj
    have := some.inj hj
    omega
  have hjeq : j = i + 2 ^ e := by
    have := nested_of_meet (h.aligned hj) (dvd_add_half hal) hbe (by omega) (by omega)
    omega
  subst hjeq
  exact ⟨b, hj, hbe⟩

omit h in
/-- The cells `0, …, 2^n - 1` as one block. -/
theorem whole (n : ℕ) : IsTiling n (update (fun _ ↦ none) 0 (some n)) := by
  have hhead {i k : ℕ} (hi : update (fun _ ↦ none) 0 (some n) i = some k) : i = 0 ∧ k = n := by
    rw [update_apply] at hi
    split at hi
    · exact ⟨‹_›, (some.inj hi).symm⟩
    · simp at hi
  refine ⟨fun hi ↦ ?_, fun hi ↦ ?_, fun hi hij _ ↦ ?_, fun {p} hp ↦
    ⟨0, n, by simp, by omega, by omega⟩⟩
  · obtain ⟨rfl, rfl⟩ := hhead hi
    exact dvd_zero _
  · obtain ⟨rfl, rfl⟩ := hhead hi
    omega
  · rw [update_of_ne (by omega)]

/-- A region that no block crosses may be cut into other blocks. -/
theorem recut {ord' : ℕ → Option ℕ} {r : ℕ} (hr : i + r ≤ 2 ^ n)
    (hout : ∀ j, j < i ∨ i + r ≤ j → ord' j = ord j)
    (hregion : ∀ j b, ord j = some b → j + 2 ^ b ≤ i ∨ i + r ≤ j ∨ i ≤ j ∧ j + 2 ^ b ≤ i + r)
    (hblock : ∀ j b, i ≤ j → j < i + r → ord' j = some b → 2 ^ b ∣ j ∧ j + 2 ^ b ≤ i + r ∧
      ∀ p, j < p → p < j + 2 ^ b → ord' p = none)
    (hcover : ∀ p, i ≤ p → p < i + r → ∃ j b, ord' j = some b ∧ j ≤ p ∧ p < j + 2 ^ b) :
    IsTiling n ord' := by
  -- A new block lies in the region or is an old one outside of it.
  have hcases {j b : ℕ} (hj : ord' j = some b) :
      i ≤ j ∧ j < i + r ∨ (j + 2 ^ b ≤ i ∨ i + r ≤ j) ∧ ord j = some b := by
    by_cases hin : j < i ∨ i + r ≤ j
    · have hold := (hout j hin).symm.trans hj
      have := hregion j b hold
      have := Nat.two_pow_pos b
      exact .inr ⟨by omega, hold⟩
    · exact .inl (by omega)
  refine ⟨fun hj ↦ ?_, fun hj ↦ ?_, fun {j b p} hj hlt hlt' ↦ ?_, fun {p} hp ↦ ?_⟩
  · rcases hcases hj with ⟨hle, hlt⟩ | ⟨-, hold⟩
    · exact (hblock _ _ hle hlt hj).1
    · exact h.aligned hold
  · rcases hcases hj with ⟨hle, hlt⟩ | ⟨-, hold⟩
    · exact (hblock _ _ hle hlt hj).2.1.trans hr
    · exact h.inside hold
  · rcases hcases hj with ⟨hle, hltr⟩ | ⟨haway, hold⟩
    · exact (hblock _ _ hle hltr hj).2.2 p hlt hlt'
    · rw [hout p (by omega)]
      exact h.interior hold hlt hlt'
  · obtain ⟨j, b, hj, hle, hlt⟩ := h.cover hp
    by_cases hin : i ≤ p ∧ p < i + r
    · exact hcover p hin.1 hin.2
    · have := hregion j b hj
      exact ⟨j, b, by rw [hout j (by omega), hj], hle, hlt⟩

/-- Replacing a block by its two halves. -/
theorem split (hi : ord i = some (k + 1)) :
    IsTiling n (update (update ord i (some k)) (i + 2 ^ k) (some k)) := by
  obtain ⟨hpow, hpos⟩ := two_pow_succ k
  have hal := h.aligned hi
  refine h.recut (h.inside hi) (fun j hj ↦ ?_) (fun j b hj ↦ ?_) (fun j b hle hlt hj ↦ ?_)
    fun p hle hlt ↦ ?_
  · rw [update_of_ne (by omega), update_of_ne (by omega)]
  · by_cases hji : j = i
    · rw [hji, hi] at hj
      cases hj
      omega
    · rcases h.apart hi hj (Ne.symm hji) with hle | hle <;> omega
  · have hinside (p : ℕ) (hlow : i < p) (hne : p ≠ i + 2 ^ k) (hhigh : p < i + 2 ^ (k + 1)) :
        update (update ord i (some k)) (i + 2 ^ k) (some k) p = none := by
      rw [update_of_ne hne, update_of_ne hlow.ne', h.interior hi hlow hhigh]
    by_cases hju : j = i + 2 ^ k
    · rw [hju, update_self] at hj
      cases hj
      subst hju
      exact ⟨dvd_add_half hal, by omega, fun p _ _ ↦ hinside p (by omega) (by omega) (by omega)⟩
    · by_cases hji : j = i
      · rw [hji, update_of_ne (by omega), update_self] at hj
        cases hj
        subst hji
        exact ⟨dvd_half hal, by omega, fun p _ _ ↦ hinside p (by omega) (by omega) (by omega)⟩
      · rw [hinside j (by omega) hju hlt] at hj
        cases hj
  · by_cases hpu : p < i + 2 ^ k
    · exact ⟨i, k, by simp, hle, hpu⟩
    · exact ⟨i + 2 ^ k, k, by simp, by omega, by omega⟩

/-- Replacing the two halves of an aligned block by the block itself. -/
theorem join (hal : 2 ^ (k + 1) ∣ i) (hi : ord i = some k)
    (hu : ord (i + 2 ^ k) = some k) :
    IsTiling n (update (update ord i (some (k + 1))) (i + 2 ^ k) none) := by
  obtain ⟨hpow, hpos⟩ := two_pow_succ k
  have hin := h.inside hu
  have hinside (p : ℕ) (hlow : i < p) (hhigh : p < i + 2 ^ (k + 1)) :
      update (update ord i (some (k + 1))) (i + 2 ^ k) none p = none := by
    rcases lt_trichotomy p (i + 2 ^ k) with hp | rfl | hp
    · rw [update_of_ne hp.ne, update_of_ne hlow.ne', h.interior hi hlow hp]
    · exact update_self ..
    · rw [update_of_ne hp.ne', update_of_ne hlow.ne', h.interior hu hp (by omega)]
  refine @recut i n ord h _ (2 ^ (k + 1)) (by omega) (fun j hj ↦ ?_) (fun j b hj ↦ ?_)
    (fun j b hle hlt hj ↦ ?_) fun p hle hlt ↦ ⟨i, k + 1, by simp, hle, hlt⟩
  · rw [update_of_ne (by omega), update_of_ne (by omega)]
  · by_cases hji : j = i
    · rw [hji, hi] at hj
      cases hj
      omega
    · by_cases hju : j = i + 2 ^ k
      · rw [hju, hu] at hj
        cases hj
        omega
      · have := h.apart hi hj (Ne.symm hji)
        have := h.apart hu hj (Ne.symm hju)
        have := Nat.two_pow_pos b
        omega
  · by_cases hji : j = i
    · rw [hji, update_of_ne (by omega), update_self] at hj
      cases hj
      subst hji
      exact ⟨hal, le_rfl, hinside⟩
    · rw [hinside j (by omega) hlt] at hj
      cases hj

end IsTiling

/-! ## Maximal free blocks

Some blocks of a tiling are in use, the others are free.  When no two buddies are free, the free
blocks are determined by the blocks in use. -/

section Maximal

variable {n : ℕ} {ord ord' used : ℕ → Option ℕ}

/-- The blocks in use are blocks of the tiling. -/
def UsesBlocks (ord used : ℕ → Option ℕ) : Prop := ∀ i k, used i = some k → ord i = some k

/-- No two buddies of one order are both free. -/
def NoFreeBuddies (ord used : ℕ → Option ℕ) : Prop :=
  ∀ i k, 2 ^ (k + 1) ∣ i → ord i = some k → used i = none → ord (i + 2 ^ k) = some k →
    used (i + 2 ^ k) ≠ none

/-- The block of `2^m` cells at `j` meets no block in use. -/
def FreeRegion (ord used : ℕ → Option ℕ) (j m : ℕ) : Prop :=
  ∀ a b, ord a = some b → a < j + 2 ^ m → j < a + 2 ^ b → used a = none

/-- The block containing the buddy of `(i, k)` in a free region is smaller than `2^k` cells. -/
theorem IsTiling.smaller_of_free_region (h : IsTiling n ord) (hpair : NoFreeBuddies ord used)
    (hal : 2 ^ m ∣ j) (hin : j + 2 ^ m ≤ 2 ^ n) (hregion : FreeRegion ord used j m) (hi : ord i = some k)
    (hkm : k < m) (hij : j ≤ i) (him : i + 2 ^ k ≤ j + 2 ^ m) :
    ∃ a b, ord a = some b ∧ b < k ∧ j ≤ a ∧ a + 2 ^ b ≤ j + 2 ^ m := by
  obtain ⟨hpow, hpos⟩ := two_pow_succ k
  have hfree : used i = none := hregion i k hi (by omega) (by omega)
  -- `low` is the start of the pair, and `x` the buddy of `i`.
  obtain ⟨low, x, hlow, hx⟩ : ∃ low x, 2 ^ (k + 1) ∣ low ∧
      ((i = low ∧ x = low + 2 ^ k) ∨ (i = low + 2 ^ k ∧ x = low)) := by
    rcases dvd_or_dvd_sub (h.aligned hi) with hlow | ⟨hle, hlow⟩
    · exact ⟨i, i + 2 ^ k, hlow, .inl ⟨rfl, rfl⟩⟩
    · exact ⟨i - 2 ^ k, i - 2 ^ k, hlow, .inr ⟨by omega, rfl⟩⟩
  have hnest := nested_of_meet hlow hal hkm (by omega) (by omega)
  have hxal : 2 ^ k ∣ x := by
    rcases hx with ⟨-, rfl⟩ | ⟨-, rfl⟩
    · exact dvd_add_half hlow
    · exact dvd_half hlow
  obtain ⟨a, b, ha, hax, hxb⟩ := h.cover (p := x) (by omega)
  have hmeet := hregion a b ha (by omega) (by omega)
  have hbk : b < k := by
    by_contra hge
    rcases Nat.eq_or_lt_of_le (Nat.le_of_not_lt hge) with rfl | hlt
    · -- Both halves of the pair would be free.
      obtain rfl : a = x := by
        have := nested_of_meet (h.aligned ha) hxal le_rfl (by omega) (by omega)
        omega
      rcases hx with ⟨rfl, rfl⟩ | ⟨rfl, rfl⟩
      · exact hpair i k hlow hi hfree ha hmeet
      · exact hpair a k hlow ha hmeet hi hfree
    · -- A larger block around the buddy would contain `i`.
      have hpair' := nested_of_meet hlow (h.aligned ha) hlt (by omega) (by omega)
      have := (h.unique hi ha le_rfl (by omega) (by omega) (by omega)).2
      omega
  have := nested_of_meet (h.aligned ha) hxal hbk.le (by omega) (by omega)
  exact ⟨a, b, ha, hbk, by omega, by omega⟩

/-- A free region of a tiling without free buddies is not cut into smaller blocks. -/
theorem IsTiling.not_smaller (h : IsTiling n ord) (hpair : NoFreeBuddies ord used) (hal : 2 ^ m ∣ j)
    (hin : j + 2 ^ m ≤ 2 ^ n) (hregion : FreeRegion ord used j m) (k : ℕ) :
    ∀ i, ord i = some k → k < m → j ≤ i → ¬ i + 2 ^ k ≤ j + 2 ^ m := by
  induction k using Nat.strong_induction_on with
  | _ k ih =>
    intro i hi hkm hij him
    obtain ⟨a, b, ha, hbk, hja, haj⟩ :=
      h.smaller_of_free_region hpair hal hin hregion hi hkm hij him
    exact ih b hbk a ha (hbk.trans hkm) hja haj

/-- A free block of one tiling is a free region of every tiling with the same blocks in use. -/
theorem IsTiling.freeRegion (h : IsTiling n ord) (huses : UsesBlocks ord used) (huses' : UsesBlocks ord' used)
    (hi : ord i = some k) (hfree : used i = none) : FreeRegion ord' used i k := by
  intro a b ha hai hia
  by_contra hused
  obtain ⟨b', hb'⟩ := ne_none_iff_exists'.1 hused
  obtain rfl : b = b' := some.inj (ha.symm.trans (huses' a b' hb'))
  by_cases heq : a = i
  · exact hused (heq ▸ hfree)
  · rcases h.apart (huses a b hb') hi heq with hle | hle <;> omega

/-- Two tilings with the same blocks in use and without free buddies have the same free blocks. -/
theorem IsTiling.free_block_unique (h : IsTiling n ord) (h' : IsTiling n ord') (huses : UsesBlocks ord used)
    (huses' : UsesBlocks ord' used) (hpair : NoFreeBuddies ord used) (hpair' : NoFreeBuddies ord' used)
    (hi : ord i = some k) (hfree : used i = none) : ord' i = some k := by
  have hpos (e : ℕ) : 0 < (2 : ℕ) ^ e := by positivity
  obtain ⟨j, m, hj, hji, hij⟩ := h'.cover (h.lt hi)
  have hregion := h.freeRegion huses huses' hi hfree
  have hfree' : used j = none := hregion j m hj (by have := hpos k; omega) hij
  have hregion' := h'.freeRegion huses' huses hj hfree'
  have hik := hpos k
  rcases lt_trichotomy k m with hkm | rfl | hmk
  · have hnest := nested_of_meet (h.aligned hi) (h'.aligned hj) hkm.le hij (by omega)
    exact absurd hnest.2
      (h.not_smaller hpair (h'.aligned hj) (h'.inside hj) hregion' k i hi hkm hnest.1)
  · have hnest := nested_of_meet (h.aligned hi) (h'.aligned hj) le_rfl hij (by omega)
    obtain rfl : i = j := by omega
    exact hj
  · have hnest := nested_of_meet (h'.aligned hj) (h.aligned hi) hmk.le (by omega) hij
    exact absurd hnest.2
      (h'.not_smaller hpair' (h.aligned hi) (h.inside hi) hregion m j hj hmk hnest.1)

end Maximal

/-! ## The lowest set bit of a machine word -/

theorem testBit_lowBit (hpos : 0 < p) (hp : p ≤ 2 ^ w) (i : ℕ) :
    (p &&& (2 ^ w - p)).testBit i = (p.testBit i && (decide (i < w) && !(p - 1).testBit i)) := by
  rw [Nat.testBit_and]
  congr 1
  have hsucc : p = p - 1 + 1 := by omega
  rw [hsucc]
  exact Nat.testBit_two_pow_sub_succ (by omega) i

/-- `p & -p` is not zero, so clearing it makes progress. -/
theorem lowBit_pos (hpos : 0 < p) (hp : p < 2 ^ w) : 0 < p &&& (2 ^ w - p) := by
  by_contra hzero
  have hsub : p &&& (p - 1) = p := by
    apply Nat.eq_of_testBit_eq
    intro i
    have hbit := testBit_lowBit hpos hp.le i
    rw [Nat.eq_zero_of_not_pos hzero, Nat.zero_testBit] at hbit
    rw [Nat.testBit_and]
    by_cases hi : i < w
    · simp only [hi, decide_true, Bool.true_and] at hbit
      cases hpi : p.testBit i
      · rfl
      · simpa [hpi] using hbit
    · rw [Nat.testBit_lt_two_pow (hp.trans_le (Nat.pow_le_pow_right (by decide) (by omega)))]
      rfl
  have hle : p &&& (p - 1) ≤ p - 1 := Nat.and_le_right
  omega

/-- Clearing `p & -p` does not leave the aligned block that `p` lies inside. -/
theorem lowBit_le_sub {h : ℕ} (hp : p ≤ 2 ^ w) (hal : 2 ^ k ∣ h) (hlow : h < p)
    (hhigh : p < h + 2 ^ k) : (p &&& (2 ^ w - p)) ≤ p - h := by
  have hpow : 0 < 2 ^ k := by positivity
  obtain ⟨m, rfl⟩ := hal
  have hdiv {x : ℕ} (hx : 2 ^ k * m ≤ x) (hx' : x < 2 ^ k * m + 2 ^ k) : x / 2 ^ k = m :=
    Nat.div_eq_of_lt_le (by rw [mul_comm]; exact hx) (by rw [mul_comm, Nat.mul_add]; omega)
  -- Above bit `k` the words `p` and `p - 1` agree, so no such bit survives.
  have hlt : (p &&& (2 ^ w - p)) < 2 ^ k := by
    apply Nat.lt_pow_two_of_testBit
    intro i hi
    have hsame : p.testBit i = (p - 1).testBit i := by
      have hshift (x : ℕ) : x.testBit i = (x / 2 ^ k).testBit (i - k) := by
        rw [Nat.testBit_div_two_pow, Nat.sub_add_cancel hi]
      rw [hshift p, hshift (p - 1), hdiv hlow.le hhigh, hdiv (by omega) (by omega)]
    rw [testBit_lowBit (by omega) hp, hsame]
    cases (p - 1).testBit i <;> simp
  calc
    (p &&& (2 ^ w - p)) = (p &&& (2 ^ w - p)) % 2 ^ k := (Nat.mod_eq_of_lt hlt).symm
    _ ≤ p % 2 ^ k := by
      rw [Nat.and_mod_two_pow]
      exact Nat.and_le_left
    _ = p - 2 ^ k * m := by
      rw [Nat.mod_eq_sub_mul_div, hdiv hlow.le hhigh]

end CapstoneKernel.BuddyTiling
