import CapstoneKernel.VMem.FillRange

/-!
# The tables in memory and their contents

The table that a tree of pages holds, as a value.  The walker computes the translation of this
table, and the words that `fill_page_table` writes are the descriptors that its description on
tables stores.
-/

namespace CapstoneKernel.VMem.Words

open RadixTable TableWalk Mem

variable {malloc : ℕ → ℕ} {m : Memory} {root : ℕ}

/-- The fields of a descriptor. -/
def decodePte (entry : ℕ) : Pte where
  valid := entry &&& 0b1 != 0
  frame := entry / pageSize % 2 ^ 36
  rdonly := entry &&& (1 <<< 7) != 0
  noExec := entry &&& (1 <<< 54) != 0
  userAccess := entry &&& (1 <<< 6) != 0
  access := entry &&& (1 <<< 10) != 0
  mairIdx := (entry &&& (0b111 <<< 2)) >>> 2

/-- The page table that starts at a page. -/
def toTable (m : Memory) (root : ℕ) : PageTable := contents child m decodePte 3 root

theorem lookup_toTable (m : Memory) (root page : ℕ) :
    lookup (toTable m root) page = (walk numPtEntries child 3 m root page 3).bind fun f ↦
        if (decodePte (m f (digit numPtEntries page 0))).valid then
          some (decodePte (m f (digit numPtEntries page 0)))
        else none := lookup_contents pteKind decodePte page

/-- The walker translates addresses as the table does. -/
theorem v2pTrans_toTable (h : TreeShaped m root) {va : ℕ} (hva : va < 2 ^ 48) (ttbr1 : ℕ) :
    v2pTrans m va (root * pageSize) ttbr1 = VMem.v2pTrans (toTable m root) va := by
  rw [v2pTrans_eq h.tableWalks hva, VMem.v2pTrans, lookup_toTable]
  cases walk numPtEntries child 3 m root (va / pageSize) 3 with
  | none => rfl
  | some f =>
    rw [Option.bind_some, Option.bind_some, lastRound]
    by_cases hvalid : m f (digit numPtEntries (va / pageSize) 0) &&& 0b1 = 0
    · rw [if_pos hvalid, if_neg (by simp [decodePte, hvalid])]
    · rw [if_neg hvalid, if_pos (by simpa [decodePte] using hvalid)]
      simp only [and_tableAddrMask, decodePte]

/-! ## Descriptors of `fill_page_table` -/

/-- The bit of a flag. -/
def flagBit (flag : Bool) (bit : ℕ) : ℕ := if flag then 1 <<< bit else 0

/-- The flags as they are passed to `fill_page_table`. -/
def encodeFlags (flags : PteFlags) : ℕ :=
  flagBit flags.rdonly 7 ||| flagBit flags.noExec 54 ||| flagBit flags.userAccess 6 ||| flagBit
    flags.access 10

/-- The fields other than the address are in the bits of the mask. -/
theorem decodePte_eq_of_attributes {entry attributes : ℕ}
    (h : entry &&& attributeMask = attributes) :
    decodePte entry = { decodePte attributes with frame := entry / pageSize % 2 ^ 36 } := by
  have hbits (bits : ℕ) (hmask : attributeMask &&& bits = bits := by decide) :
      entry &&& bits = attributes &&& bits := by
    rw [← h, Nat.and_assoc, hmask]
  unfold decodePte
  rw [hbits 0b1, hbits (1 <<< 7), hbits (1 <<< 54), hbits (1 <<< 6), hbits (1 <<< 10),
    hbits (0b111 <<< 2)]

theorem decodePte_pageAttributes (flags : PteFlags) :
    { decodePte (pageAttributes (encodeFlags flags)) with frame := 0 } = filledPte 0 flags := by
  obtain ⟨rdonly, noExec, userAccess, access⟩ := flags
  cases rdonly <;> cases noExec <;> cases userAccess <;> cases access <;> decide

variable {sPageIdx ePageIdx startPa : ℕ} {flags : PteFlags}

/-- In the range, `fill_page_table` leaves the descriptors of its description on tables. -/
theorem FillCall.table_refines (h : FillCall malloc m root sPageIdx ePageIdx startPa
    (encodeFlags flags)) (hshort : ePageIdx - sPageIdx ≤ 2 ^ 31) (t : PageTable) {page : ℕ}
    (hlow : sPageIdx ≤ page) (hhigh : page < ePageIdx) :
    lookup (toTable (fillPageTable malloc m (p2vTransKernel (root * pageSize)) sPageIdx ePageIdx
        startPa (encodeFlags flags)).mem root) page =
      lookup (VMem.fillPageTable t sPageIdx ePageIdx startPa flags) page := by
  obtain ⟨-, hfilled⟩ := fillPageTable_spec h.pages h.shape h.fresh h.range h.range_le rfl le_rfl
  obtain ⟨f, hwalk, hword⟩ := hfilled page hlow hhigh
  obtain ⟨haddr, hattributes⟩ := h.pteEntry_page (by omega : page - sPageIdx < _) (by omega)
  set entry := pteEntry startPa (encodeFlags flags) ((page - sPageIdx) % 2 ^ 32)
  have hframe : entry / pageSize % 2 ^ 36 = startPa / pageSize + (page - sPageIdx) := by
    rw [and_tableAddrMask] at haddr
    have haligned := h.aligned
    unfold pageSize at *
    omega
  have hpte : decodePte entry = filledPte (startPa / pageSize + (page - sPageIdx)) flags := by
    rw [decodePte_eq_of_attributes hattributes, hframe]
    have hfields := decodePte_pageAttributes flags
    unfold filledPte at hfields ⊢
    simp only [Pte.mk.injEq] at hfields ⊢
    exact ⟨hfields.1, trivial, hfields.2.2⟩
  have hstart : startPa = startPa / pageSize * pageSize :=
    (Nat.div_mul_cancel (Nat.dvd_of_mod_eq_zero h.aligned)).symm
  have hmem : lookup (VMem.fillPageTable t sPageIdx ePageIdx (startPa / pageSize * pageSize) flags)
    page = _ :=
    lookup_fillPageTable_mem h.range_le hlow hhigh
  rw [← hstart] at hmem
  rw [lookup_toTable, hwalk, Option.bind_some, hword, hpte, hmem]
  rfl

/-- The last of four pages, in another table than the first. -/
theorem table_refines_four_pages :
    lookup (toTable (fillPageTable nextPage blankMemory (p2vTransKernel (1 * pageSize)) 510 514
      0x80000 (encodeFlags ⟨true, false, true, true⟩)).mem 1) 513 =
        some (filledPte 0x83 ⟨true, false, true, true⟩) :=
  (FillCall.table_refines (fillCall_blankMemory (by decide) (by decide) (by decide) (by decide)
    (by decide) (by decide)) (by decide) emptyPageTable (by decide) (by decide)).trans (by decide)

end CapstoneKernel.VMem.Words
