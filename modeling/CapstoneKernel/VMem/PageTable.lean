import CapstoneKernel.Lib.RadixTable
import CapstoneKernel.Mem.Buddy

/-!
# User page tables

The four-level tables of `vmem.c` as radix tables of descriptors.  The memory that holds the tables
is not part of the model: a table is the value the code stores in its page.  `v2p_trans` reads a
table, `fill_page_table`, `page_table_fork` and `replace_page_entry` change it; each of them is
described by what it does to `lookup`, the descriptor that maps a virtual page.
-/

namespace CapstoneKernel.VMem

open RadixTable Mem

variable {flags : PteFlags} {endPage frame i startPage page page' : ℕ} {t : PageTable}

/-- The fields of a descriptor that the kernel reads or writes: the valid bits, the page number in
the address field, `PD_RDONLY`, `PD_NX_EL0`, `PD_USER_ACCESS`, `PD_ACCESS` and the memory
attribute. -/
structure Pte where
  valid : Bool
  frame : ℕ
  rdonly : Bool
  noExec : Bool
  userAccess : Bool
  access : Bool
  mairIdx : ℕ
  deriving DecidableEq, Repr

/-- The flags `fill_page_table` is called with. -/
structure PteFlags where
  rdonly : Bool
  noExec : Bool
  userAccess : Bool
  access : Bool
  deriving DecidableEq, Repr

def pteKind : Kind Pte where
  valid := Pte.valid
  blank := ⟨false, 0, false, false, false, false, 0⟩
  blank_invalid := rfl

/-- `NUM_PT_ENTRIES`. -/
def numPtEntries : ℕ := 512

/-- A page table named by its `PGD`, with three levels above the `PTE` level. -/
abbrev PageTable : Type := Table Pte 3

/-- The number of pages of the user address space. -/
def userPages : ℕ := numPtEntries ^ 4

/-- A `PGD` page after `memset`. -/
def emptyPageTable : PageTable := emptyTable pteKind 3

/-- The valid descriptor of a virtual page. -/
def lookup (t : PageTable) (page : ℕ) : Option Pte := RadixTable.lookup numPtEntries pteKind 3 t page

/-- `v2p_trans`: the physical address, and `NULL` where nothing is mapped. -/
def v2pTrans (t : PageTable) (virtualAddr : ℕ) : ℕ :=
  match lookup t (virtualAddr / pageSize) with
  | none => 0
  | some e => e.frame * pageSize + virtualAddr % pageSize

/-- The descriptor `fill_page_table` writes (`MAIR_IDX_NORMAL_NOCACHE` is 1). -/
def filledPte (frame : ℕ) (flags : PteFlags) : Pte where
  valid := true
  frame := frame
  rdonly := flags.rdonly
  noExec := flags.noExec
  userAccess := true
  access := flags.access
  mairIdx := 1

/-- The tables `fill_page_table` starts before the page after `page`: at each level, from `PUD` to
`PTE`, whose index goes back to 0. -/
def renewTables (t : PageTable) (page : ℕ) : PageTable :=
  [2, 1, 0].foldl (fun t i ↦
    if digit numPtEntries page i ≠ 0 ∧ digit numPtEntries (page + 1) i = 0 then
      renew numPtEntries pteKind i 3 t (page + 1)
    else t) t

/-- The loop of `fill_page_table` over the remaining pages. -/
def fillPages (flags : PteFlags) : ℕ → ℕ → ℕ → PageTable → PageTable
  | 0, _, _, t => t
  | count + 1, page, frame, t =>
    let t := store numPtEntries pteKind (filledPte frame flags) 3 t page
    if count = 0 then t else fillPages flags count (page + 1) (frame + 1) (renewTables t page)

/-- `fill_page_table`: map the pages from `startPage` up to `endPage` to the memory at `startPa`. -/
def fillPageTable (t : PageTable) (startPage endPage startPa : ℕ) (flags : PteFlags) : PageTable :=
  fillPages flags (endPage - startPage) startPage (startPa / pageSize)
    (openPath numPtEntries pteKind 3 t startPage)

/-- What `page_table_fork` does to an entry that is not a table: `PD_RDONLY` is set below
`usable_memory[1]`. -/
def protect (usableEnd : ℕ) (e : Pte) : Pte :=
  if e.frame * pageSize < usableEnd then { e with rdonly := true } else e

/-- `page_table_fork`: the source after the call, which is also the copy. -/
def pageTableFork (usableEnd : ℕ) (t : PageTable) : PageTable := mapEntries (protect usableEnd) 3 t

/-- The pages `page_table_fork` calls `set_w_permission` for.  An entry that is not valid counts as
a writable entry for page 0. -/
def forkWritable (usableEnd : ℕ) (t : PageTable) (frame : ℕ) : Bool :=
  anyEntry numPtEntries
    (fun e ↦ e.frame == frame && !e.rdonly && decide (e.frame * pageSize < usableEnd)) 3 t

/-- `replace_page_entry`: a new address and write permission for a mapped page. -/
def replacePageEntry (t : PageTable) (virtualAddr newAddr : ℕ) (wPermission : Bool) : PageTable :=
  modify numPtEntries pteKind
    (fun e ↦ { e with rdonly := !wPermission, frame := newAddr / pageSize }) 3 t (virtualAddr / pageSize)

/-! ## Lookups -/

@[simp] theorem lookup_emptyPageTable (page : ℕ) : lookup emptyPageTable page = none :=
  lookup_emptyTable 3 page

theorem samePath_iff (h : page < userPages) (h' : page' < userPages) :
    SamePath numPtEntries 3 page page' ↔ page = page' := samePath_of_lt h h'

theorem v2pTrans_mapped {e : Pte} (h : lookup t page = some e) :
    v2pTrans t (page * pageSize) = e.frame * pageSize := by
  simp [v2pTrans, h, pageSize]

theorem v2pTrans_unmapped (h : lookup t page = none) : v2pTrans t (page * pageSize) = 0 := by
  simp [v2pTrans, h, pageSize]

/-- An index that goes back to 0 starts a table: all lower indices are 0 too. -/
theorem succ_mod_of_carry (h : digit numPtEntries page i ≠ 0)
    (h' : digit numPtEntries (page + 1) i = 0) : (page + 1) % numPtEntries ^ (i + 1) = 0 := by
  unfold digit at h h'
  have hpos : 0 < numPtEntries ^ i := Nat.pow_pos (by decide)
  rw [pow_succ, Nat.mod_mul, h', Nat.mul_zero, Nat.add_zero]
  rw [Nat.succ_div] at h'
  split at h'
  · next hdvd => exact Nat.mod_eq_zero_of_dvd hdvd
  · exact absurd h' h

/-- Pages with the same indices above level `i` as a page that starts a table lie after its
start. -/
theorem le_of_digits (hi : i < 3) (hpage' : page' < userPages)
    (hstart : page % numPtEntries ^ (i + 1) = 0) (hpage : page < userPages)
    (hdigits : ∀ k, i < k → k ≤ 3 → digit numPtEntries page' k = digit numPtEntries page k) :
    page ≤ page' := by
  have h1 := hdigits 1
  have h2 := hdigits 2
  have h3 := hdigits 3
  simp only [digit, numPtEntries, userPages] at *
  norm_num at *
  obtain rfl | rfl | rfl : i = 0 ∨ i = 1 ∨ i = 2 := by omega
  all_goals norm_num at *
  all_goals omega

theorem lookup_renewTables (t : PageTable) (hpage : page + 1 < userPages)
    (hpage' : page' < userPages) :
    lookup (renewTables t page) page' = lookup t page' ∨
      (lookup (renewTables t page) page' = none ∧ page < page') := by
  suffices hgen : ∀ (is : List ℕ) (t : PageTable), (∀ i ∈ is, i < 3) →
      ∀ t', t' = is.foldl (fun t i ↦
        if digit numPtEntries page i ≠ 0 ∧ digit numPtEntries (page + 1) i = 0 then
          renew numPtEntries pteKind i 3 t (page + 1)
        else t) t → lookup t' page' = lookup t page' ∨ (lookup t' page' = none ∧ page < page') from
    hgen [2, 1, 0] t (by decide) _ rfl
  intro is
  induction is with
  | nil =>
    rintro t - t' rfl
    exact .inl rfl
  | cons i is ih =>
    rintro t his t' rfl
    rw [List.foldl_cons]
    split
    · next hcarry =>
      have hrest := ih (renew numPtEntries pteKind i 3 t (page + 1))
        (fun j hj ↦ his j (List.mem_cons_of_mem _ hj)) _ rfl
      refine hrest.elim (fun heq ↦ ?_) .inr
      rw [heq]
      refine (lookup_renew i 3 t (page + 1) page').imp id fun ⟨hnone, hi, hdigits⟩ ↦ ⟨hnone, ?_⟩
      exact le_of_digits hi hpage' (succ_mod_of_carry hcarry.1 hcarry.2) hpage hdigits
    · exact ih t (fun j hj ↦ his j (List.mem_cons_of_mem _ hj)) _ rfl

/-- The pages in the range are mapped one after the other.  Another page keeps its mapping, or loses
it to a table that was started for the range. -/
theorem lookup_fillPages (flags : PteFlags) (count page frame : ℕ) (t : PageTable)
    (hend : page + count ≤ userPages) (hpage' : page' < userPages) :
    (page ≤ page' → page' < page + count → lookup (fillPages flags count page frame t) page' =
        some (filledPte (frame + (page' - page)) flags)) ∧
    (page' < page ∨ page + count ≤ page' →
      lookup (fillPages flags count page frame t) page' = lookup t page' ∨
        (lookup (fillPages flags count page frame t) page' = none ∧ page < page')) := by
  induction count generalizing page frame t with
  | zero => exact ⟨fun _ _ ↦ by omega, fun _ ↦ .inl rfl⟩
  | succ count ih =>
    have hstore : lookup (store numPtEntries pteKind (filledPte frame flags) 3 t page) page' =
        if page' = page then some (filledPte frame flags) else lookup t page' := by
      rw [lookup, lookup_store, lookup]
      have hsame : SamePath numPtEntries 3 page' page ↔ page' = page :=
        samePath_iff hpage' (by omega)
      simp only [hsame]
      rfl
    rw [fillPages]
    by_cases hcount : count = 0
    · subst hcount
      rw [if_pos rfl, hstore]
      refine ⟨fun _ _ ↦ ?_, fun _ ↦ ?_⟩
      · obtain rfl : page' = page := by omega
        simp
      · exact .inl (if_neg (by omega))
    · rw [if_neg hcount]
      have hrest := ih (page + 1) (frame + 1)
        (renewTables (store numPtEntries pteKind (filledPte frame flags) 3 t page) page) (by omega)
      have hrenew := lookup_renewTables
        (store numPtEntries pteKind (filledPte frame flags) 3 t page)
        (by omega : page + 1 < userPages) hpage'
      rw [hstore] at hrenew
      refine ⟨fun hlow hhigh ↦ ?_, fun hout ↦ ?_⟩
      · by_cases heq : page' = page
        · subst heq
          rw [if_pos rfl] at hrenew
          have hkeep := (hrest.2 (.inl (Nat.lt_succ_self _))).resolve_right (fun h ↦ by omega)
          rw [hkeep, hrenew.resolve_right (fun h ↦ by omega)]
          simp
        · rw [hrest.1 (by omega) (by omega)]
          congr 2
          omega
      · rw [if_neg (by omega)] at hrenew
        rcases hrest.2 (by omega) with hkeep | ⟨hnone, hlt⟩
        · rw [hkeep]
          exact hrenew
        · exact .inr ⟨hnone, by omega⟩

theorem lookup_fillPageTable_mem (hend : endPage ≤ userPages) (hlow : startPage ≤ page)
    (hhigh : page < endPage) :
    lookup (fillPageTable t startPage endPage (frame * pageSize) flags) page =
      some (filledPte (frame + (page - startPage)) flags) := by
  have hframe : frame * pageSize / pageSize = frame := Nat.mul_div_cancel _ (by decide)
  rw [fillPageTable, hframe]
  exact (lookup_fillPages _ _ _ _ _ (by omega) (by omega)).1 hlow (by omega)

theorem lookup_fillPageTable_notMem (t : PageTable) (startPa : ℕ) (flags : PteFlags)
    (hend : endPage ≤ userPages) (hrange : startPage ≤ endPage) (hpage : page < userPages)
    (hout : page < startPage ∨ endPage ≤ page) :
    lookup (fillPageTable t startPage endPage startPa flags) page = lookup t page ∨
      (lookup (fillPageTable t startPage endPage startPa flags) page = none ∧ startPage < page) := by
  have h := (lookup_fillPages flags (endPage - startPage) startPage (startPa / pageSize)
    (openPath numPtEntries pteKind 3 t startPage) (by omega) hpage).2
    (by omega)
  rwa [show lookup (openPath numPtEntries pteKind 3 t startPage) page = lookup t page from
    lookup_openPath 3 t startPage page] at h

/-- Filling one page changes the mapping of that page alone. -/
theorem lookup_fillPageTable_one (hpage : page < userPages) (hpage' : page' < userPages) :
    lookup (fillPageTable t page (page + 1) (frame * pageSize) flags) page' =
      if page' = page then some (filledPte frame flags) else lookup t page' := by
  have hframe : frame * pageSize / pageSize = frame := Nat.mul_div_cancel _ (by decide)
  rw [fillPageTable, hframe, Nat.add_sub_cancel_left, fillPages, if_pos rfl, lookup, lookup_store,
    lookup_openPath]
  have hsame : SamePath numPtEntries 3 page' page ↔ page' = page := samePath_iff hpage' hpage
  simp only [hsame]
  rfl

theorem lookup_pageTableFork (usableEnd : ℕ) (t : PageTable) (page : ℕ) :
    lookup (pageTableFork usableEnd t) page = (lookup t page).map (protect usableEnd) := by
  refine lookup_mapEntries (fun e ↦ ?_) 3 t page
  rw [protect]
  split <;> rfl

theorem lookup_replacePageEntry {va newAddr : ℕ} {w : Bool}
    (hva : va / pageSize < userPages) (hpage : page < userPages) :
    lookup (replacePageEntry t va newAddr w) page = if page = va / pageSize then
        (lookup t page).map fun e ↦ { e with rdonly := !w, frame := newAddr / pageSize }
      else lookup t page := by
  rw [lookup, replacePageEntry, lookup_modify (fun e ↦ by rfl)]
  have hsame : SamePath numPtEntries 3 page (va / pageSize) ↔ page = va / pageSize :=
    samePath_iff hpage hva
  simp only [hsame]
  rfl

end CapstoneKernel.VMem
