import CapstoneKernel.Mem.DynamicInvariant

/-!
# The searches of `malloc` and `free`

`malloc` turns a size into a plan, walks over the pages of a size class and over the chunks of each
page; `free` walks to the predecessor of a page.  Every walk ends and reports exactly what the
lists and bitmaps hold.
-/

namespace CapstoneKernel.Mem

open LinkedChain Execution List

variable {s : Allocator} {node : DynamicNode} {cur prev : Option ℕ} {c fuel m : ℕ}

/-! ## The plan for a size -/

theorem sizeExpLoop_spec {size exp : ℕ} (hsize : size < pageSize) (hexp : exp ≤ 12)
    (hfuel : 12 < fuel + exp) (hbelow : exp = 0 ∨ 2 ^ (exp - 1) < size) :
    Returns (sizeExpLoop size fuel (2 ^ exp) exp) (fun sizeExp ↦
      sizeExp ≤ 12 ∧ size ≤ 2 ^ sizeExp ∧ (sizeExp = 0 ∨ 2 ^ (sizeExp - 1) < size)) := by
  induction fuel generalizing exp with
  | zero => omega
  | succ fuel ih =>
    unfold sizeExpLoop
    by_cases hlt : 2 ^ exp < size
    · have hne : exp ≠ 12 := by
        rintro rfl
        unfold pageSize at hsize
        omega
      rw [if_pos hlt, ← Nat.pow_succ]
      exact ih (by omega) (by omega) (.inr hlt)
    · rw [if_neg hlt]
      exact Returns.ok ⟨hexp, Nat.le_of_not_lt hlt, hbelow⟩

/-- What a plan promises about the size it was made for. -/
def PlanFits (size : ℕ) : MallocPlan → Prop
  | .null => size = 0
  | .pages count => (pageSize ≤ size ∧ count = ((size - 1) / pageSize + 1) % 2 ^ 32) ∨
      (2 ^ maxPoolSizeExp < size ∧ size < pageSize ∧ count = 1)
  | .pool c => 0 < size ∧ PoolClass c ∧ size ≤ 2 ^ c

theorem mallocPlan_spec (size : ℕ) : Returns (mallocPlan size) (PlanFits size) := by
  unfold mallocPlan
  by_cases hzero : size = 0
  · rw [if_pos hzero]
    exact Returns.ok hzero
  · rw [if_neg hzero]
    by_cases hbig : pageSize ≤ size
    · rw [if_pos hbig]
      exact Returns.ok (.inl ⟨hbig, rfl⟩)
    · rw [if_neg hbig]
      apply (sizeExpLoop_spec (Nat.lt_of_not_le hbig) (Nat.zero_le 12) (by decide : 12 < 13 + 0)
        (.inl rfl)).bind
      rintro sizeExp ⟨hle, hsize, hbelow⟩
      by_cases hmax : maxPoolSizeExp < sizeExp
      · rw [if_pos hmax]
        refine Returns.ok (.inr ⟨?_, Nat.lt_of_not_le hbig, rfl⟩)
        have hpow : 2 ^ maxPoolSizeExp ≤ 2 ^ (sizeExp - 1) :=
          Nat.pow_le_pow_right (by decide) (by omega)
        have : 2 ^ (sizeExp - 1) < size := hbelow.resolve_left (by omega)
        omega
      · rw [if_neg hmax]
        refine Returns.ok ⟨by omega, ⟨le_max_right _ _, ?_⟩, ?_⟩
        · exact max_le (Nat.le_of_not_lt hmax) (by decide)
        · exact hsize.trans (Nat.pow_le_pow_right (by decide) (le_max_left _ _))

/-! ## The chunks of a page -/

/-- The bitmap of the page does not mark the chunk. -/
def ChunkFree (node : DynamicNode) (i : ℕ) : Prop := node.bitmap (i / 64) &&& chunkMask i = 0
deriving Decidable

section

variable (hc : PoolClass c)
include hc

theorem PoolClass.chunks_le : pageSize / 2 ^ c ≤ 256 := by
  have hpow : 2 ^ minPoolSizeExp ≤ 2 ^ c := Nat.pow_le_pow_right (by decide) hc.1
  exact (Nat.div_le_div_left hpow (by decide)).trans (by decide)

theorem PoolClass.chunks_pos : 0 < pageSize / 2 ^ c := by
  have hpow : 2 ^ c ≤ 2 ^ maxPoolSizeExp := Nat.pow_le_pow_right (by decide) hc.2
  exact Nat.div_pos (hpow.trans (by decide)) (by positivity)

theorem PoolClass.mul_chunks : pageSize / 2 ^ c * 2 ^ c = pageSize := by
  apply Nat.div_mul_cancel
  rw [show pageSize = 2 ^ 12 from rfl]
  exact pow_dvd_pow 2 (hc.2.trans (by decide))

theorem PoolClass.word_lt {i : ℕ} (hi : i < pageSize / 2 ^ c) : i / 64 < bitmapArr := by
  have := hc.chunks_le
  have hwords : bitmapArr = 4 := rfl
  omega

/-- The loop over the chunks, from the `t`-th chunk after `cur_idx` on: it ends at a free chunk, or
at `cur_idx` when there is none. -/
theorem chunkScan_spec {t : ℕ} (hcur : node.curIdx = m) (hm : m < pageSize / 2 ^ c)
    (hfuel : fuel + t = pageSize / 2 ^ c) (ht : t < pageSize / 2 ^ c) :
    Returns (chunkScan node (pageSize / 2 ^ c) fuel ((m + 1 + t) % (pageSize / 2 ^ c))) (fun result ↦
      (∀ i, result = some i → i < pageSize / 2 ^ c ∧ ChunkFree node i) ∧
      (result = none → ∀ t', t ≤ t' → t' < pageSize / 2 ^ c →
        ¬ ChunkFree node ((m + 1 + t') % (pageSize / 2 ^ c)))) := by
  induction fuel generalizing t with
  | zero => omega
  | succ fuel ih =>
    set num := pageSize / 2 ^ c with hnum
    have hpos : 0 < num := hc.chunks_pos
    have hi : (m + 1 + t) % num < num := Nat.mod_lt _ hpos
    have hread : node.readBitmap ((m + 1 + t) % num / 64) = .ok
      (node.bitmap ((m + 1 + t) % num / 64)) :=
      if_pos (hc.word_lt hi)
    unfold chunkScan
    rw [hread, ok_bind]
    by_cases hfree : ChunkFree node ((m + 1 + t) % num)
    · rw [if_neg (by simpa [ChunkFree] using hfree)]
      refine Returns.ok ⟨?_, by simp⟩
      intro i heq
      cases heq
      exact ⟨hi, hfree⟩
    · rw [if_pos (by simpa [ChunkFree] using hfree)]
      -- The chunk `cur_idx` is the last one of the round.
      by_cases hlast : t + 1 = num
      · have hback : (m + 1 + t) % num = m := by
          rw [show m + 1 + t = m + num by omega, Nat.add_mod_right, Nat.mod_eq_of_lt hm]
        rw [if_pos (by rw [hcur, hback])]
        refine Returns.ok ⟨by simp, fun _ t' hle hlt ↦ ?_⟩
        obtain rfl : t' = t := by omega
        exact hfree
      · have hne : (m + 1 + t) % num ≠ m := by
          intro heq
          by_cases hwrap : m + 1 + t < num
          · rw [Nat.mod_eq_of_lt hwrap] at heq
            omega
          · rw [Nat.mod_eq_sub_mod (by omega), Nat.mod_eq_of_lt (by omega)] at heq
            omega
        rw [if_neg (by rw [hcur]; exact_mod_cast hne)]
        have hnext : ((m + 1 + t) % num + 1) % num = (m + 1 + (t + 1)) % num := by
          rw [Nat.mod_add_mod]
          rfl
        rw [hnext]
        apply (ih (by omega) (by omega)).mono
        rintro result ⟨hsome, hnone⟩
        refine ⟨hsome, fun heq t' hle hlt ↦ ?_⟩
        by_cases htt : t' = t
        · subst htt
          exact hfree
        · exact hnone heq t' (by omega) hlt

theorem chunkScan_page (hcur : node.curIdx = m) (hm : m < pageSize / 2 ^ c) :
    Returns (chunkScan node (pageSize / 2 ^ c) (pageSize / 2 ^ c)
        ((node.curIdx + 1) % (pageSize / 2 ^ c : ℕ)).toNat) (fun result ↦
      (∀ i, result = some i → i < pageSize / 2 ^ c ∧ ChunkFree node i) ∧
      (result = none → ∀ i, i < pageSize / 2 ^ c → ¬ ChunkFree node i)) := by
  have hpos := hc.chunks_pos
  have hstart : ((node.curIdx + 1) % (pageSize / 2 ^ c : ℕ)).toNat = (m + 1 + 0) %
    (pageSize / 2 ^ c) := by
    rw [hcur, Nat.add_zero, ← Nat.cast_succ, ← Int.natCast_mod, Int.toNat_natCast]
  rw [hstart]
  apply (chunkScan_spec hc hcur hm (Nat.add_zero _) hpos).mono
  rintro result ⟨hsome, hnone⟩
  refine ⟨hsome, fun heq i hi ↦ ?_⟩
  -- Chunk `i` is visited after `i - cur_idx - 1` steps, counted round the page.
  by_cases hle : i ≤ m
  · have := hnone heq (i + pageSize / 2 ^ c - (m + 1)) (Nat.zero_le _) (by omega)
    rw [show m + 1 + (i + pageSize / 2 ^ c - (m + 1)) = i + pageSize / 2 ^ c by omega,
      Nat.add_mod_right, Nat.mod_eq_of_lt hi] at this
    exact this
  · have := hnone heq (i - (m + 1)) (Nat.zero_le _) (by omega)
    rw [show m + 1 + (i - (m + 1)) = i by omega, Nat.mod_eq_of_lt hi] at this
    exact this

/-! ## The pages of a size class -/

omit hc in
/-- The walk over a pool list. -/
def ScanFinds (s : Allocator) (c : ℕ) (prev : Option ℕ) (pages : List ℕ) : PoolScan → Prop
  | .found page i => page ∈ pages ∧ i < pageSize / 2 ^ c ∧ ChunkFree (s.nodes page) i
  | .full last => last = pages.getLast?.or prev ∧
      ∀ page ∈ pages, ∀ i, i < pageSize / 2 ^ c → ¬ ChunkFree (s.nodes page) i

theorem poolScan_spec {pages : List ℕ} (hchain : Chain (fun page ↦ (s.nodes page).next) cur pages)
    (hpages : ∀ page ∈ pages, page < s.buddy.numPages ∧
      ∃ m, m < pageSize / 2 ^ c ∧ (s.nodes page).curIdx = m) (hfuel : pages.length < fuel) :
    Returns (poolScan s c fuel prev cur) (ScanFinds s c prev pages) := by
  induction fuel generalizing prev cur pages with
  | zero => omega
  | succ fuel ih =>
    cases pages with
    | nil =>
      obtain rfl : cur = none := hchain
      exact Returns.ok ⟨rfl, by simp⟩
    | cons page rest =>
      obtain ⟨rfl, hrest⟩ := hchain
      obtain ⟨hpage, m, hm, hcur⟩ := hpages page mem_cons_self
      have hread : s.readNode page = .ok (s.nodes page) := if_pos hpage
      unfold poolScan
      rw [hread, ok_bind]
      apply (chunkScan_page hc hcur hm).bind
      rintro (_ | i) ⟨hsome, hnone⟩
      · apply (ih hrest (fun y hy ↦ hpages y (mem_cons_of_mem page hy))
          (by rw [length_cons] at hfuel; omega)).mono
        rintro (⟨found, i⟩ | last) hscan
        · exact ⟨mem_cons_of_mem page hscan.1, hscan.2⟩
        · refine ⟨?_, fun y hy ↦ ?_⟩
          · rw [hscan.1]
            exact (getLast?_cons_or page rest prev).symm
          · rcases mem_cons.1 hy with rfl | hy
            · exact hnone rfl
            · exact hscan.2 y hy
      · exact Returns.ok ⟨mem_cons_self, hsome i rfl⟩

end

/-- The walk of `free` to the predecessor of a page. -/
theorem poolFind_spec {page : ℕ} {front back : List ℕ}
    (hchain : Chain (fun page ↦ (s.nodes page).next) cur (front ++ page :: back))
    (hpages : ∀ y ∈ front, y < s.buddy.numPages ∧ y ≠ page) (hfuel : front.length < fuel) :
    poolFind s page fuel prev cur = .ok (front.getLast?.or prev) := by
  induction fuel generalizing prev cur front with
  | zero => omega
  | succ fuel ih =>
    cases front with
    | nil =>
      obtain ⟨rfl, -⟩ := hchain
      unfold poolFind
      rw [if_pos rfl]
      rfl
    | cons y front =>
      obtain ⟨rfl, hrest⟩ := hchain
      obtain ⟨hy, hne⟩ := hpages y mem_cons_self
      have hread : s.readNode y = .ok (s.nodes y) := if_pos hy
      unfold poolFind
      rw [if_neg hne, hread, ok_bind]
      have hfind : poolFind s page fuel (some y) (s.nodes y).next = .ok
        (front.getLast?.or (some y)) :=
        ih hrest (fun z hz ↦ hpages z (mem_cons_of_mem y hz)) (by rw [length_cons] at hfuel; omega)
      rw [hfind, getLast?_cons_or]

end CapstoneKernel.Mem
