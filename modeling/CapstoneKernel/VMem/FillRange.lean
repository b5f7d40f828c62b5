import CapstoneKernel.VMem.TableWords

/-!
# The range that `fill_page_table` maps

The walker of `v2p_trans` follows the tables that the filler has set up, so that every page of the
range leads to the descriptor written for it.  The address in this descriptor is the right one as
long as the `int` counter has not wrapped around, that is for ranges of at most `2^31` pages.
-/

namespace CapstoneKernel.VMem.Words

open RadixTable TableWalk Mem List Option

variable {s' : Filling} {flags n startPa calls f va entry root : ℕ} {malloc : ℕ → ℕ} {m : Memory}

/-! ## The filler -/

/-- The first loop moves all cursors to the first page, and keeps what each of its rounds keeps. -/
theorem openTables_rule {K : Filling → Prop} {page : ℕ} {s : Filling}
    (hm : PageSource malloc calls) (h : Sound malloc calls root s) (hat : At root s page 3)
    (hcalls : ([2, 1, 0].foldl (openTable malloc page) s).mallocs ≤ calls)
    (hround : ∀ s l, l < 3 → Sound malloc calls root s →
      (∀ l', l < l' → l' ≤ 3 → At root s page l') →
      (openTable malloc page s l).mallocs ≤ calls → K s → K (openTable malloc page s l))
    (hK : K s) :
    Sound malloc calls root ([2, 1, 0].foldl (openTable malloc page) s) ∧
      (∀ l ≤ 3, At root ([2, 1, 0].foldl (openTable malloc page) s) page l) ∧
      K ([2, 1, 0].foldl (openTable malloc page) s) := by
  obtain ⟨h₀, hat₀, hK₀⟩ := foldl_levels
    (P := fun l s ↦ Sound malloc calls root s ∧ (∀ l', l ≤ l' → l' ≤ 3 → At root s page l') ∧ K s)
    (openTable_mallocs malloc page)
    (fun s l hl hcalls ⟨h, hat, hK⟩ ↦
      let ⟨h', hat'⟩ := openTable_spec hm h hcalls hl hat
      ⟨h', hat', hround s l hl h hat hcalls hK⟩) hcalls
    ⟨h, fun l hlow hhigh ↦ le_antisymm hlow hhigh ▸ hat, hK⟩
  exact ⟨h₀, fun l hl ↦ hat₀ l (Nat.zero_le l) hl, hK₀⟩

theorem at_pgd (m : Memory) (root page : ℕ) :
    At root ⟨m, Function.update (fun _ ↦ 0) 3 (p2vTransKernel (root * pageSize)), 0⟩ page 3 := by
  refine ⟨root, rfl, ?_⟩
  simp only [Function.update_self]

theorem FillRule.fillPageTable {start stop : ℕ} {I : ℕ → Filling → Prop}
    {J : ℕ → ℕ → Filling → Prop}
    (hrule : FillRule malloc calls root start stop (wordOf start startPa flags) I J)
    (hm : PageSource malloc calls) (hshape : TreeShaped m root)
    (hfresh : ∀ n < calls, ¬ Visited numPtEntries child 3 m root (pageOf (malloc n)))
    (hrange : start < stop) (hstop : stop ≤ userPages) (hI : ∀ tableAddr, I start ⟨m, tableAddr, 0⟩)
    (hs' : Words.fillPageTable malloc m (p2vTransKernel (root * pageSize)) start stop startPa
      flags = s') (hcalls : s'.mallocs ≤ calls) :
    Sound malloc calls root s' ∧ J (stop - 1) 3 s' := by
  subst hs'
  have hzero : (start - start) % 2 ^ 32 = 0 := by rw [Nat.sub_self, Nat.zero_mod]
  unfold Words.fillPageTable at hcalls ⊢
  have hopen := (fillLoop_mallocs malloc startPa flags _ _ _ _).1.trans hcalls
  obtain ⟨hsound, hat, hI⟩ := openTables_rule hm ⟨hshape, fun n hn _ ↦ hfresh n hn⟩
    (at_pgd m root start) hopen hrule.opened (hI _)
  have hloop := hrule.fillLoop hm hstop le_rfl (Nat.add_sub_cancel' hrange.le) (by omega) hsound
    hat hI
  rw [hzero] at hloop
  exact hloop hcalls

theorem fillPageTable_spec {sPageIdx ePageIdx : ℕ} (hm : PageSource malloc calls)
    (hshape : TreeShaped m root)
    (hfresh : ∀ n < calls, ¬ Visited numPtEntries child 3 m root (pageOf (malloc n)))
    (hrange : sPageIdx < ePageIdx) (hend : ePageIdx ≤ userPages)
    (hs' : fillPageTable malloc m (p2vTransKernel (root * pageSize)) sPageIdx ePageIdx startPa
      flags = s') (hcalls : s'.mallocs ≤ calls) :
    Sound malloc calls root s' ∧ ∀ j, sPageIdx ≤ j → j < ePageIdx →
      Filled root s' j (pteEntry startPa flags ((j - sPageIdx) % 2 ^ 32)) := by
  have hrule : FillRule malloc calls root sPageIdx ePageIdx (wordOf sPageIdx startPa flags)
      (fun page s ↦ ∀ j, sPageIdx ≤ j → j < page →
        Filled root s j (wordOf sPageIdx startPa flags j))
      fun page _ s ↦ ∀ j, sPageIdx ≤ j → j ≤ page →
        Filled root s j (wordOf sPageIdx startPa flags j) := by
    refine ⟨fun _ _ _ _ _ _ _ j hlow hhigh ↦ by omega,
      fun page s _ hhigh hsound hat hI j hlow hle ↦ ?_,
      fun page s l _ hhigh hl hsound hmoving hcalls hJ j hlow hle ↦
        (renewTable_spec hm hsound hcalls hl (by omega) hmoving).2.2 j _ hle (hJ j hlow hle),
      fun page s hJ j hlow hhigh ↦ hJ j hlow (Nat.le_of_lt_succ hhigh)⟩
    obtain ⟨-, -, hpage, hothers⟩ := storeEntry_spec hsound (wordOf sPageIdx startPa flags page)
      (by omega) hat rfl
    rcases Nat.eq_or_lt_of_le hle with rfl | hlt
    · exact hpage
    · exact hothers j _ hlt (hI j hlow hlt)
  obtain ⟨hsound, hfilled⟩ := hrule.fillPageTable hm hshape hfresh hrange hend
    (fun _ j hlow hhigh ↦ by omega) hs' hcalls
  exact ⟨hsound, fun j hlow hhigh ↦ hfilled j hlow (by omega)⟩

/-! ## The walker -/

theorem entryPtr_eq {i : ℕ} (hf : f < 2 ^ 36) (hi : i < numPtEntries) :
    p2vTransKernel (f * pageSize ||| i <<< 3) = p2vTransKernel (f * pageSize) + 8 * i := by
  have hoffset : 8 * i < pageSize := by
    unfold numPtEntries pageSize at *
    omega
  have hlt : f * pageSize + 8 * i < 2 ^ 48 := by
    unfold pageSize at *
    omega
  rw [Nat.shiftLeft_eq, show i * 2 ^ 3 = 8 * i by ring, or_offset hoffset, p2vTransKernel_eq hlt,
    p2vTransKernel_eq (by omega)]
  omega

/-- Where the walker ends that has got to the last table of a page. -/
def lastRound (m : Memory) (page f : ℕ) : Option (ℕ × ℕ × ℕ) :=
  if m f (digit numPtEntries page 0) &&& 0b1 = 0 then none
  else some (3, m f (digit numPtEntries page 0), 0xfff)

/-- The walks of all addresses lead through tables up to the last level. -/
structure TableWalks (m : Memory) (root : ℕ) : Prop where
  root_lt : root < 2 ^ 36
  tables : ∀ page, ∀ d < 3, ∀ f, walk numPtEntries child 3 m root page d = some f →
    m f (digit numPtEntries page (3 - d)) &&& 0b1 ≠ 0 →
    m f (digit numPtEntries page (3 - d)) &&& 0b10 ≠ 0

theorem TreeShaped.tableWalks (h : TreeShaped m root) : TableWalks m root :=
  ⟨h.root_lt, fun page d hd f hf ↦ h.tables d hd page f _ hf⟩

/-- A loop that reads one entry a round follows the tables. -/
theorem TableWalks.loop_eq {Result : Type} (h : TableWalks m root) (page : ℕ)
    (loop : ℕ → ℕ → ℕ → Option Result) (found : ℕ → ℕ → Result)
    (hround : ∀ rounds i entry f, i ≤ 3 → f < 2 ^ 36 → entry &&& tableAddrMask = f * pageSize →
      loop (rounds + 1) i entry = if m f (digit numPtEntries page (3 - i)) &&& 0b1 = 0 then none
        else if m f (digit numPtEntries page (3 - i)) &&& 0b10 = 0 ∨ i = 3 then some (found i f)
        else loop rounds (i + 1) (m f (digit numPtEntries page (3 - i))))
    (k : ℕ) (hk : k ≤ 3) {g : ℕ}
    (hg : walk numPtEntries child 3 m root page (3 - k) = some g)
    (hentry : entry &&& tableAddrMask = g * pageSize) :
    loop (k + 1) (3 - k) entry = (walk numPtEntries child 3 m root page 3).bind fun f ↦
      if m f (digit numPtEntries page 0) &&& 0b1 = 0 then none else some (found 3 f) := by
  induction k generalizing entry g with
  | zero =>
    rw [hround _ _ _ g (Nat.sub_le 3 0) (walk_frame_lt h.root_lt hg) hentry]
    rw [Nat.sub_zero] at hg
    rw [hg]
    simp
  | succ k ih =>
    rw [hround _ _ _ g (Nat.sub_le 3 (k + 1)) (walk_frame_lt h.root_lt hg) hentry]
    have hnext : 3 - (k + 1) + 1 = 3 - k := by omega
    have hwalk : walk numPtEntries child 3 m root page (3 - k) =
        child (m g (digit numPtEntries page (3 - (3 - (k + 1))))) := by
      rw [← hnext, walk, hg, bind_some]
    set e := m g (digit numPtEntries page (3 - (3 - (k + 1)))) with he
    by_cases hvalid : e &&& 0b1 = 0
    · rw [child, if_pos hvalid] at hwalk
      rw [walk_eq_none_of_le hwalk (Nat.sub_le 3 k), if_pos hvalid, bind_none]
    · have htable : e &&& 0b10 ≠ 0 := h.tables page _ (by omega) g hg hvalid
      rw [child, if_neg hvalid] at hwalk
      rw [if_neg hvalid, if_neg (by omega), hnext]
      exact ih (by omega) hwalk (and_tableAddrMask e)

/-- The root of the tree as the value of a table base register. -/
theorem TableWalks.root_and_tableAddrMask (h : TableWalks m root) :
    root * pageSize &&& tableAddrMask = root * pageSize := by
  rw [and_tableAddrMask, Nat.mul_div_cancel _ (by decide), Nat.mod_eq_of_lt h.root_lt]

theorem walkTable_eq (h : TableWalks m root) (va : ℕ) :
    walkTable m va (root * pageSize) =
      (walk numPtEntries child 3 m root (va / pageSize) 3).bind (lastRound m (va / pageSize)) := by
  refine h.loop_eq (va / pageSize)
    (fun rounds i entry ↦ walkLoop m va rounds i entry (0xff8000000000 >>> (9 * i))
      (0x7fffffffff >>> (9 * i)))
    (fun i f ↦ (i, m f (digit numPtEntries (va / pageSize) (3 - i)), 0x7fffffffff >>> (9 * i)))
    (fun rounds i entry f hi hf hentry ↦ ?_) 3 le_rfl rfl h.root_and_tableAddrMask
  rw [walkLoop]
  simp only [walk_index va hi, hentry, entryPtr_eq hf (digit_lt _ _), load_entry m hf (digit_lt _ _)]
  rw [← Nat.shiftRight_add, ← Nat.shiftRight_add, show 9 * i + 9 = 9 * (i + 1) by ring]

theorem not_kernel_half (hva : va < 2 ^ 48) : ¬ va >>> 48 = 0xffff := by
  rw [Nat.shiftRight_eq_div_pow, Nat.div_eq_of_lt hva]
  decide

/-- A user address is translated with the address in the last entry. -/
theorem v2pTrans_eq (h : TableWalks m root) (hva : va < 2 ^ 48) (ttbr1 : ℕ) :
    v2pTrans m va (root * pageSize) ttbr1 =
      match (walk numPtEntries child 3 m root (va / pageSize) 3).bind
        (lastRound m (va / pageSize)) with
      | none => 0
      | some (_, entry, _) => (entry &&& tableAddrMask) + va % pageSize := by
  rw [v2pTrans, if_neg (not_kernel_half hva), walkTable_eq h]
  cases walk numPtEntries child 3 m root (va / pageSize) 3 with
  | none => rfl
  | some f =>
    rw [bind_some, lastRound]
    by_cases hvalid : m f (digit numPtEntries (va / pageSize) 0) &&& 0b1 = 0
    · rw [if_pos hvalid]
    · have hoffset : va &&& 0xfff = va % pageSize := Nat.and_two_pow_sub_one_eq_mod va 12
      rw [if_neg hvalid]
      simp only [hoffset]
      rw [and_tableAddrMask]
      exact or_offset (Nat.mod_lt va (by decide))

/-! ## Descriptors of pages -/

/-- The bits that `fill_page_table` adds to its flags. -/
def pageAttributes (flags : ℕ) : ℕ := flags ||| pdUserAccess |||
    (mairIdxNormalNocache <<< 2) ||| pdPage

/-- The address that `fill_page_table` computes for the page with the given value of `idx`. -/
def entryAddr (startPa counter : ℕ) : ℕ := (pageSize * extendInt counter + startPa) % 2 ^ 64

theorem pteEntry_eq (startPa flags counter : ℕ) :
    pteEntry startPa flags counter = entryAddr startPa counter ||| pageAttributes flags := by
  unfold pteEntry entryAddr pageAttributes
  simp only [Nat.or_assoc, Nat.or_comm flags]

theorem pageAttributes_valid (flags : ℕ) :
    pageAttributes flags &&& 0b1 ≠ 0 := or_and_ne_zero (by decide)

theorem pageAttributes_and_tableAddrMask (hflags : flags &&& tableAddrMask = 0) :
    pageAttributes flags &&& tableAddrMask = 0 := by
  unfold pageAttributes
  rw [Nat.and_or_distrib_right, Nat.and_or_distrib_right, Nat.and_or_distrib_right, hflags]
  rfl

theorem pageAttributes_and_attributeMask (hlt : flags < 2 ^ 64)
    (hflags : flags &&& tableAddrMask = 0) :
      pageAttributes flags &&& attributeMask = pageAttributes flags := by
  have hall : flags &&& attributeMask = flags := by
    calc
      flags &&& attributeMask = flags &&& tableAddrMask ||| flags &&& attributeMask := by
        rw [hflags, Nat.zero_or]
      _ = flags &&& (2 ^ 64 - 1) := (Nat.and_or_distrib_left ..).symm
      _ = flags := by rw [Nat.and_two_pow_sub_one_eq_mod, Nat.mod_eq_of_lt hlt]
  unfold pageAttributes
  rw [Nat.and_or_distrib_right, Nat.and_or_distrib_right, Nat.and_or_distrib_right, hall]
  rfl

theorem addr_and_attributeMask (hf : f < 2 ^ 36) : f * pageSize &&& attributeMask = 0 := by
  have hlow : f * pageSize &&& (2 ^ 12 - 1) = 0 := by
    rw [Nat.and_two_pow_sub_one_eq_mod]
    exact Nat.mul_mod_left f pageSize
  have hhigh : f * pageSize &&& ((2 ^ 16 - 1) <<< 48) = 0 := by
    rw [and_field, Nat.div_eq_of_lt]
    · rfl
    · unfold pageSize
      omega
  rw [show attributeMask = (2 ^ 12 - 1) ||| ((2 ^ 16 - 1) <<< 48) from rfl, Nat.and_or_distrib_left,
    hlow, hhigh]
  rfl

/-- The address and the attributes of the descriptor of a page. -/
theorem pteEntry_fields (counter : ℕ) (haligned : startPa % pageSize = 0) (hlt : flags < 2 ^ 64)
    (hflags : flags &&& tableAddrMask = 0) :
    pteEntry startPa flags counter &&& tableAddrMask = entryAddr startPa counter &&& tableAddrMask ∧
      (entryAddr startPa counter < 2 ^ 48 →
        pteEntry startPa flags counter &&& attributeMask = pageAttributes flags) := by
  rw [pteEntry_eq, Nat.and_or_distrib_right, pageAttributes_and_tableAddrMask hflags, Nat.or_zero,
    Nat.and_or_distrib_right, pageAttributes_and_attributeMask hlt hflags]
  refine ⟨rfl, fun haddr ↦ ?_⟩
  obtain ⟨f, hf⟩ : ∃ f, entryAddr startPa counter = f * pageSize := by
    refine ⟨entryAddr startPa counter / pageSize,
      (Nat.div_mul_cancel (Nat.dvd_of_mod_eq_zero ?_)).symm⟩
    unfold entryAddr pageSize at *
    omega
  rw [hf] at haddr ⊢
  rw [addr_and_attributeMask (by unfold pageSize at haddr; omega), Nat.zero_or]

/-- Before the counter wraps around, the addresses follow each other. -/
theorem entryAddr_of_lt {counter : ℕ} (hcounter : counter < 2 ^ 31)
    (hinside : startPa + counter * pageSize < 2 ^ 48) :
    entryAddr startPa counter = startPa + counter * pageSize := by
  unfold entryAddr extendInt
  rw [if_pos hcounter, Nat.mod_eq_of_lt (by rw [Nat.mul_comm]; omega), Nat.mul_comm, Nat.add_comm]

/-- The first address after the counter has wrapped around is wrong by `2^44`. -/
theorem entryAddr_wrapped (haligned : startPa % pageSize = 0) :
    entryAddr startPa (2 ^ 31) &&& tableAddrMask ≠ startPa + 2 ^ 31 * pageSize := by
  rw [and_tableAddrMask]
  unfold entryAddr extendInt pageSize at *
  norm_num
  omega

/-! ## The range -/

/-- Every address of the range leads to a descriptor of the last level with its address and exactly
the attributes that were asked for, and is translated accordingly. -/
def MapsRange (m : Memory) (root sPageIdx ePageIdx startPa flags ttbr1 : ℕ) : Prop :=
  ∀ va, sPageIdx ≤ va / pageSize → va / pageSize < ePageIdx →
    (∃ entry offsetMask, walkTable m va (root * pageSize) = some (3, entry, offsetMask) ∧
      entry &&& tableAddrMask = startPa + (va / pageSize - sPageIdx) * pageSize ∧
      entry &&& attributeMask = pageAttributes flags) ∧
    v2pTrans m va (root * pageSize) ttbr1 = startPa + (va - sPageIdx * pageSize)

/-- A call of `fill_page_table` on a tree of tables, while `malloc` returns fresh pages. -/
structure FillCall (malloc : ℕ → ℕ) (m : Memory) (root sPageIdx ePageIdx startPa flags : ℕ) :
    Prop where
  shape : TreeShaped m root
  range : sPageIdx < ePageIdx
  range_le : ePageIdx ≤ 2 ^ 36
  aligned : startPa % pageSize = 0
  inside : startPa + (ePageIdx - sPageIdx) * pageSize ≤ 2 ^ 48
  flags_lt : flags < 2 ^ 64
  flags_attributes : flags &&& tableAddrMask = 0
  pages : PageSource malloc (fillPageTable malloc m
    (p2vTransKernel (root * pageSize)) sPageIdx ePageIdx
    startPa flags).mallocs
  fresh : ∀ n < (fillPageTable malloc m (p2vTransKernel (root * pageSize)) sPageIdx ePageIdx startPa
    flags).mallocs, ¬ Visited numPtEntries child 3 m root (pageOf (malloc n))

variable {sPageIdx ePageIdx startPa flags : ℕ}

section

variable (h : FillCall malloc m root sPageIdx ePageIdx startPa flags)
include h

/-- Each page of the range leads to the descriptor written for it. -/
theorem FillCall.walkTable_page (hlow : sPageIdx ≤ va / pageSize) (hhigh : va / pageSize < ePageIdx)
    (ttbr1 : ℕ) {m' : Memory}
    (hm' : (fillPageTable malloc m (p2vTransKernel (root * pageSize)) sPageIdx ePageIdx startPa
      flags).mem = m')
    (hentry : pteEntry startPa flags ((va / pageSize - sPageIdx) % 2 ^ 32) = entry) :
    walkTable m' va (root * pageSize) = some (3, entry, 0xfff) ∧
      v2pTrans m' va (root * pageSize) ttbr1 = (entry &&& tableAddrMask) + va % pageSize := by
  obtain ⟨hsound, hfilled⟩ := fillPageTable_spec h.pages h.shape h.fresh h.range h.range_le rfl
    le_rfl
  obtain ⟨f, hwalk, hword⟩ := hfilled (va / pageSize) hlow hhigh
  have hshape := hsound.shape
  rw [hm'] at hshape hwalk hword
  rw [hentry] at hword
  have hva : va < 2 ^ 48 := by
    have hle := h.range_le
    unfold pageSize at hhigh
    omega
  have hvalid : m' f (digit numPtEntries (va / pageSize) 0) &&& 0b1 ≠ 0 := by
    rw [hword, ← hentry, pteEntry_eq]
    exact or_and_ne_zero (pageAttributes_valid flags)
  rw [walkTable_eq hshape.tableWalks, v2pTrans_eq hshape.tableWalks hva, hwalk, bind_some,
    lastRound, if_neg hvalid, hword]
  exact ⟨rfl, rfl⟩

/-- As long as the counter has not wrapped around, the descriptor is the one that was asked for. -/
theorem FillCall.pteEntry_page {j : ℕ} (hlt : j < ePageIdx - sPageIdx) (hcounter : j < 2 ^ 31) :
    pteEntry startPa flags (j % 2 ^ 32) &&& tableAddrMask = startPa + j * pageSize ∧
      pteEntry startPa flags (j % 2 ^ 32) &&& attributeMask = pageAttributes flags := by
  have hinside : startPa + j * pageSize < 2 ^ 48 := by
    have := h.inside
    unfold pageSize at *
    omega
  have haddr := entryAddr_of_lt hcounter hinside
  obtain ⟨hmask, hattributes⟩ := pteEntry_fields j h.aligned h.flags_lt h.flags_attributes
  rw [Nat.mod_eq_of_lt (by omega)]
  refine ⟨?_, hattributes (haddr ▸ hinside)⟩
  have haligned := h.aligned
  rw [hmask, haddr, and_tableAddrMask]
  unfold pageSize at *
  omega

theorem FillCall.mapsRange_iff (ttbr1 : ℕ) :
    MapsRange (fillPageTable malloc m (p2vTransKernel (root * pageSize)) sPageIdx ePageIdx startPa
      flags).mem root sPageIdx ePageIdx startPa flags ttbr1 ↔ ePageIdx - sPageIdx ≤ 2 ^ 31 := by
  refine ⟨fun hmaps ↦ ?_, fun hshort va hlow hhigh ↦ ?_⟩
  swap
  · obtain ⟨hwalk, htrans⟩ := h.walkTable_page hlow hhigh ttbr1 rfl rfl
    obtain ⟨haddr, hattributes⟩ := h.pteEntry_page (by omega : va / pageSize - sPageIdx < _)
      (by omega)
    refine ⟨⟨_, _, hwalk, haddr, hattributes⟩, ?_⟩
    rw [htrans, haddr]
    unfold pageSize at *
    omega
  -- The page whose counter has wrapped around is mapped to another address.
  by_contra hlong
  have hpage : (sPageIdx + 2 ^ 31) * pageSize / pageSize = sPageIdx + 2 ^ 31 :=
    Nat.mul_div_cancel _ (by decide)
  have hlow : sPageIdx ≤ (sPageIdx + 2 ^ 31) * pageSize / pageSize := by omega
  have hhigh : (sPageIdx + 2 ^ 31) * pageSize / pageSize < ePageIdx := by omega
  obtain ⟨⟨entry, offsetMask, hwalk, haddr, -⟩, -⟩ := hmaps _ hlow hhigh
  obtain ⟨hwalk', -⟩ := h.walkTable_page hlow hhigh ttbr1 rfl rfl
  rw [hpage, Nat.add_sub_cancel_left] at hwalk' haddr
  rw [hwalk', some.injEq, Prod.mk.injEq, Prod.mk.injEq] at hwalk
  rw [← hwalk.2.1, (pteEntry_fields _ h.aligned h.flags_lt h.flags_attributes).1] at haddr
  exact entryAddr_wrapped h.aligned haddr

end

/-- `fill_page_table` maps its range if and only if the range has at most `2^31` pages. -/
theorem fillPageTable_maps_range_iff (h : FillCall malloc m root sPageIdx ePageIdx startPa flags)
    (ttbr1 : ℕ) :
    MapsRange (fillPageTable malloc m (p2vTransKernel (root * pageSize)) sPageIdx ePageIdx startPa
      flags).mem root sPageIdx ePageIdx startPa flags ttbr1 ↔
      ePageIdx - sPageIdx ≤ 2 ^ 31 := h.mapsRange_iff ttbr1

/-! ## Calls on an empty table -/

theorem fillPageTable_mallocs_le (malloc : ℕ → ℕ) (m : Memory)
    (pgdAddr sPageIdx ePageIdx startPa flags : ℕ) :
    (fillPageTable malloc m pgdAddr sPageIdx ePageIdx startPa flags).mallocs ≤
      3 + 3 * (ePageIdx - sPageIdx) := by
  refine (fillLoop_mallocs ..).2.trans (Nat.add_le_add_right ?_ _)
  exact (foldl_mallocs (openTable_mallocs malloc sPageIdx) _).2.trans_eq (Nat.zero_add 3)

/-- A memory of zeros. -/
def blankMemory : Memory := fun _ _ ↦ 0

/-- Page after page from frame 2 on. -/
def nextPage (n : ℕ) : ℕ := p2vTransKernel ((n + 2) * pageSize)

theorem walk_blankMemory (page d : ℕ) : walk numPtEntries child 3 blankMemory 1 page (d + 1) =
    none := by
  induction d with
  | zero => simp only [walk, bind_some, blankMemory, child_zero]
  | succ d ih => rw [walk, ih, bind_none]

theorem pageOf_nextPage (hn : n + 2 < 2 ^ 36) : pageOf (nextPage n) = n + 2 := by
  rw [pageOf, nextPage, v2p_page hn, Nat.mul_div_cancel _ (by decide)]

theorem pageSource_nextPage {k : ℕ} (hend : calls + k + 2 ≤ 2 ^ 36) :
    PageSource (fun n ↦ nextPage (n + k)) calls := by
  have hpage (n : ℕ) (hn : n < calls) : pageOf (nextPage (n + k)) = n + k + 2 :=
    pageOf_nextPage (by omega)
  refine ⟨fun n hn ↦ ?_, fun n hn ↦ ?_, fun n hn n' hn' heq ↦ ?_⟩
  · simp only [hpage n hn]
    rfl
  · rw [hpage n hn]
    omega
  · have hsame := congrArg pageOf heq
    rw [hpage n hn, hpage n' hn'] at hsame
    omega

theorem visited_blankMemory (h : Visited numPtEntries child 3 blankMemory 1 f) : f = 1 := by
  obtain ⟨d, -, page, hf⟩ := h
  cases d with
  | zero => exact (some.inj hf).symm
  | succ d => exact absurd ((walk_blankMemory page d).symm.trans hf) nofun

theorem treeShaped_blankMemory : TreeShaped blankMemory 1 := by
  refine ⟨by decide, fun d d' hd hd' page page' f hf hf' ↦ ?_,
    fun _ _ _ _ _ _ hvalid ↦ absurd (Nat.zero_and 0b1) hvalid⟩
  cases d with
  | succ d => exact absurd ((walk_blankMemory page d).symm.trans hf) nofun
  | zero =>
    cases d' with
    | succ d' => exact absurd ((walk_blankMemory page' d').symm.trans hf') nofun
    | zero => exact ⟨rfl, .zero⟩

theorem fresh_blankMemory (hn : n + 2 < 2 ^ 36) :
    ¬ Visited numPtEntries child 3 blankMemory 1 (pageOf (nextPage n)) := by
  intro hvisited
  have hf := visited_blankMemory hvisited
  rw [pageOf_nextPage hn] at hf
  omega

theorem fillCall_blankMemory (hrange : sPageIdx < ePageIdx) (hend : ePageIdx ≤ 2 ^ 32)
    (haligned : startPa % pageSize = 0) (hinside :
      startPa + (ePageIdx - sPageIdx) * pageSize ≤ 2 ^ 48)
    (hlt : flags < 2 ^ 64) (hflags : flags &&& tableAddrMask = 0) :
    FillCall nextPage blankMemory 1 sPageIdx ePageIdx startPa flags := by
  have hmallocs := fillPageTable_mallocs_le nextPage blankMemory
    (p2vTransKernel (1 * pageSize)) sPageIdx
    ePageIdx startPa flags
  exact ⟨treeShaped_blankMemory, hrange, hend.trans (by decide), haligned, hinside, hlt, hflags,
    pageSource_nextPage (k := 0) (by omega), fun n hn ↦ fresh_blankMemory (by omega)⟩

/-- Four pages across the border of 1 GB in an empty table. -/
theorem fillPageTable_maps_range_four_pages :
    MapsRange (fillPageTable nextPage blankMemory
      (p2vTransKernel (1 * pageSize)) 0x3fffe 0x40002 0x80000
      (1 <<< 7)).mem 1 0x3fffe 0x40002 0x80000 (1 <<< 7) 0 :=
  (fillPageTable_maps_range_iff (fillCall_blankMemory (by decide) (by decide) (by decide)
    (by decide)
    (by decide) (by decide)) 0).2 (by decide)

/-- The last page of a range of `2^31 + 1` pages is mapped to another address. -/
theorem long_range_not_mapped :
    FillCall nextPage blankMemory 1 0 (2 ^ 31 + 1) 0 0 ∧
      ¬ MapsRange (fillPageTable nextPage blankMemory (p2vTransKernel (1 * pageSize)) 0
        (2 ^ 31 + 1) 0 0).mem
        1 0 (2 ^ 31 + 1) 0 0 0 := by
  have hcall : FillCall nextPage blankMemory 1 0 (2 ^ 31 + 1) 0 0 :=
    fillCall_blankMemory (by decide) (by decide) (by decide) (by decide) (by decide) (by decide)
  exact ⟨hcall, fun hmaps ↦ absurd ((hcall.mapsRange_iff 0).1 hmaps) (by decide)⟩

end CapstoneKernel.VMem.Words
