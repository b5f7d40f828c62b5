import CapstoneKernel.Lib.TableWalk
import CapstoneKernel.Mem.DynamicInvariant
import CapstoneKernel.VMem.PageTable

/-!
# Page tables as words in memory

`fill_page_table` and `v2p_trans` on the words that the tables consist of.  The memory is a map from
page frames and indices to 64-bit words, and is accessed through kernel addresses.  The filler keeps
one cursor a level and renews the cursors whose index goes back to 0; the walker shifts its masks by
one level a round.  The counter `idx` of the filler is an `int`: its wrapped value is sign-extended
in the address of the entry.
-/

namespace CapstoneKernel.VMem.Words

open RadixTable TableWalk Mem Function List Option

variable {i f offset q : ℕ}

/-! ## Memory -/

abbrev Memory : Type := ℕ → ℕ → ℕ

/-- The word at a kernel address. -/
def load (m : Memory) (vaddr : ℕ) : ℕ :=
  m (v2pTransKernel vaddr / pageSize) (v2pTransKernel vaddr % pageSize / 8)

def store (m : Memory) (vaddr word : ℕ) : Memory :=
  write m (v2pTransKernel vaddr / pageSize) (v2pTransKernel vaddr % pageSize / 8) word

/-- `memset(table, 0, PAGE_SIZE)`. -/
def clearPage (m : Memory) (vaddr : ℕ) : Memory := clear m (v2pTransKernel vaddr / pageSize) 0

/-! ## Descriptors -/

def tableAddrMask : ℕ := 0xfffffffff000

/-- The bits of a descriptor outside of `TABLE_ADDR_MASK`. -/
def attributeMask : ℕ := 0xffff000000000fff

def pdUserAccess : ℕ := 1 <<< 6

def pdTable : ℕ := 0b11

def pdPage : ℕ := 0b11

def mairIdxNormalNocache : ℕ := 1

/-- `IDX`. -/
def idx (pageIdx level : ℕ) : ℕ := (pageIdx &&& (0x1ff <<< (9 * level))) >>> (9 * level)

/-! ## `fill_page_table` -/

/-- The memory, the array `table_addr` and the number of calls of `malloc`. -/
structure Filling where
  mem : Memory
  tableAddr : ℕ → ℕ
  mallocs : ℕ

section Fill

variable (malloc : ℕ → ℕ)

/-- A new table for level `i`, entered in the table above it. -/
def newTable (s : Filling) (i pageIdx : ℕ) : Filling :=
  let table := malloc s.mallocs
  { mem := store (clearPage s.mem table) (s.tableAddr (i + 1) + 8 * idx pageIdx (i + 1))
      (v2pTransKernel table ||| pdTable)
    tableAddr := update s.tableAddr i table
    mallocs := s.mallocs + 1 }

/-- One round of the first loop: the table of level `i` that `s_page_idx` uses. -/
def openTable (pageIdx : ℕ) (s : Filling) (i : ℕ) : Filling :=
  let addrEntry := load s.mem (s.tableAddr (i + 1) + 8 * idx pageIdx (i + 1))
  if addrEntry &&& 0b1 ≠ 0 then
    { s with tableAddr := update s.tableAddr i (p2vTransKernel (addrEntry &&&
      tableAddrMask)) }
  else newTable malloc s i pageIdx

/-- One round of the inner loop: a new table where the index of level `i` goes back to 0. -/
def renewTable (pageIdx : ℕ) (s : Filling) (i : ℕ) : Filling :=
  if idx pageIdx i ≠ 0 ∧ idx (pageIdx + 1) i = 0 then newTable malloc s i (pageIdx + 1) else s

/-- The value of an `int` in an unsigned 64-bit product. -/
def extendInt (word : ℕ) : ℕ := if word < 2 ^ 31 then word else word + (2 ^ 64 - 2 ^ 32)

/-- `pte_entry`. -/
def pteEntry (startPa flags counter : ℕ) : ℕ :=
  (pageSize * extendInt counter + startPa) % 2 ^ 64 ||| pdUserAccess |||
    (mairIdxNormalNocache <<< 2) |||
    pdPage ||| flags

/-- The loop over the remaining pages, with the counter `idx`. -/
def fillLoop (startPa flags : ℕ) : ℕ → ℕ → ℕ → Filling → Filling
  | 0, _, _, s => s
  | count + 1, pageIdx, counter, s =>
    let s := { s with
      mem := store s.mem (s.tableAddr 0 + 8 * idx pageIdx 0) (pteEntry startPa flags counter) }
    if count = 0 then s
    else
      let s := [2, 1, 0].foldl (renewTable malloc pageIdx) s
      fillLoop startPa flags count (pageIdx + 1) ((counter + 1) % 2 ^ 32) s

def fillPageTable (m : Memory) (pgdAddr sPageIdx ePageIdx startPa flags : ℕ) : Filling :=
  let s : Filling := ⟨m, update (fun _ ↦ 0) 3 pgdAddr, 0⟩
  let s := [2, 1, 0].foldl (openTable malloc sPageIdx) s
  fillLoop malloc startPa flags (ePageIdx - sPageIdx) sPageIdx 0 s

end Fill

/-! ## `v2p_trans` -/

/-- The loop of `v2p_trans` from level `i` on: where it ends, the entry and the offset mask. -/
def walkLoop (m : Memory) (virtualAddr : ℕ) : ℕ → ℕ → ℕ → ℕ → ℕ → Option (ℕ × ℕ × ℕ)
  | 0, _, _, _, _ => none
  | rounds + 1, i, entry, idxMask, offsetMask =>
    let tableAddr := entry &&& tableAddrMask
    let index := (virtualAddr &&& idxMask) >>> (39 - i * 9)
    let entryPtr := tableAddr ||| (index <<< 3)
    let entry := load m (p2vTransKernel entryPtr)
    if entry &&& 0b1 = 0 then none
    else if entry &&& 0b10 = 0 ∨ i = 3 then some (i, entry, offsetMask)
    else walkLoop m virtualAddr rounds (i + 1) entry (idxMask >>> 9) (offsetMask >>> 9)

def walkTable (m : Memory) (virtualAddr ttbr : ℕ) : Option (ℕ × ℕ × ℕ) :=
  walkLoop m virtualAddr 4 0 ttbr 0xff8000000000 0x7fffffffff

/-- `v2p_trans`, with the table base registers of the two halves of the address space. -/
def v2pTrans (m : Memory) (virtualAddr ttbr0 ttbr1 : ℕ) : ℕ :=
  match walkTable m virtualAddr (if virtualAddr >>> 48 = 0xffff then ttbr1 else ttbr0) with
  | none => 0
  | some (_, entry, offsetMask) => (entry &&& tableAddrMask) ||| (virtualAddr &&& offsetMask)

/-! ## Bits -/

theorem and_field (x n k : ℕ) : x &&& ((2 ^ n - 1) <<< k) = (x / 2 ^ k % 2 ^ n) * 2 ^ k := by
  rw [← Nat.shiftLeft_eq, ← Nat.shiftRight_eq_div_pow]
  apply Nat.eq_of_testBit_eq
  intro i
  simp only [Nat.testBit_and, Nat.testBit_shiftLeft, Nat.testBit_two_pow_sub_one,
    Nat.testBit_mod_two_pow,
    Nat.testBit_shiftRight]
  by_cases hi : k ≤ i
  · rw [show k + (i - k) = i by omega]
    simp only [hi, decide_true, Bool.true_and, Bool.and_comm]
  · simp [hi]

theorem field_shift (x n k : ℕ) : (x &&& ((2 ^ n - 1) <<< k)) >>> k = x / 2 ^ k % 2 ^ n := by
  rw [and_field, Nat.shiftRight_eq_div_pow, Nat.mul_div_cancel _ (by positivity)]

theorem and_tableAddrMask (x : ℕ) : x &&& tableAddrMask = x / pageSize % 2 ^ 36 * pageSize :=
  and_field x 36 12

theorem idx_eq (pageIdx level : ℕ) : idx pageIdx level = digit numPtEntries pageIdx level := by
  have h := field_shift pageIdx 9 (9 * level)
  rw [pow_mul] at h
  exact h

/-- The index that the walker extracts in round `i`. -/
theorem walk_index (va : ℕ) (hi : i ≤ 3) :
    (va &&& (0xff8000000000 >>> (9 * i))) >>> (39 - i * 9) = digit numPtEntries (va / pageSize)
    (3 - i) := by
  have hmask : 0xff8000000000 >>> (9 * i) = (2 ^ 9 - 1) <<< (39 - i * 9) ∧
      2 ^ (39 - i * 9) = pageSize * numPtEntries ^ (3 - i) := by
    obtain rfl | rfl | rfl | rfl : i = 0 ∨ i = 1 ∨ i = 2 ∨ i = 3 := by omega
    all_goals exact ⟨rfl, rfl⟩
  obtain ⟨hmask, hpow⟩ := hmask
  rw [hmask, field_shift, hpow, ← Nat.div_div_eq_div_mul]
  rfl

theorem or_offset (h : offset < pageSize) : f * pageSize ||| offset = f * pageSize + offset := by
  rw [Nat.mul_comm f]
  exact (Nat.two_pow_add_eq_or_of_lt (i := 12) h f).symm

theorem v2p_page_offset (hf : f < 2 ^ 36) (hoffset : offset < pageSize) :
    v2pTransKernel (p2vTransKernel (f * pageSize) + offset) = f * pageSize + offset := by
  have hlt : f * pageSize + offset < 2 ^ 48 := by
    unfold pageSize at *
    omega
  rw [p2vTransKernel_eq (by omega), show f * pageSize + vKernelSpace + offset =
    f * pageSize + offset + vKernelSpace by omega, v2pTransKernel_add hlt]

theorem v2p_page (hf : f < 2 ^ 36) :
    v2pTransKernel (p2vTransKernel (f * pageSize)) = f * pageSize := by
  have h := v2p_page_offset hf (by decide : 0 < pageSize)
  rw [Nat.add_zero, Nat.add_zero] at h
  exact h

theorem page_of_offset (hoffset : offset < pageSize) :
    (f * pageSize + offset) / pageSize = f ∧ (f * pageSize + offset) % pageSize = offset := by
  unfold pageSize at *
  omega

theorem v2p_entry (hf : f < 2 ^ 36) (hi : i < numPtEntries) :
    v2pTransKernel (p2vTransKernel (f * pageSize) + 8 * i) / pageSize = f ∧
      v2pTransKernel (p2vTransKernel (f * pageSize) + 8 * i) % pageSize / 8 = i := by
  have hoffset : 8 * i < pageSize := by
    unfold pageSize numPtEntries at *
    omega
  rw [v2p_page_offset hf hoffset]
  unfold pageSize at *
  omega

theorem load_entry (m : Memory) (hf : f < 2 ^ 36) (hi : i < numPtEntries) :
    load m (p2vTransKernel (f * pageSize) + 8 * i) = m f i := by
  rw [load, (v2p_entry hf hi).1, (v2p_entry hf hi).2]

theorem store_entry (m : Memory) (word : ℕ) (hf : f < 2 ^ 36) (hi : i < numPtEntries) :
    store m (p2vTransKernel (f * pageSize) + 8 * i) word = write m f i word := by
  rw [store, (v2p_entry hf hi).1, (v2p_entry hf hi).2]

theorem clearPage_page (m : Memory) (hf : f < 2 ^ 36) :
    clearPage m (p2vTransKernel (f * pageSize)) = clear m f 0 := by
  rw [clearPage, v2p_page hf, Nat.mul_div_cancel _ (by decide)]

theorem digit_lt (page level : ℕ) : digit numPtEntries page level < numPtEntries :=
  Nat.mod_lt _ (by decide)

/-! ## The tree of tables -/

/-- The frame of the table that an entry leads to. -/
def child (entry : ℕ) : Option ℕ := if entry &&& 0b1 = 0 then none else some
    (entry / pageSize % 2 ^ 36)

theorem child_zero : child 0 = none := rfl

theorem child_lt {entry : ℕ} (h : child entry = some f) : f < 2 ^ 36 := by
  unfold child at h
  split at h
  · cases h
  · rw [← some.inj h]
    exact Nat.mod_lt _ (by decide)

theorem or_and_ne_zero {x y b : ℕ} (h : y &&& b ≠ 0) : (x ||| y) &&& b ≠ 0 := by
  rw [Nat.and_or_distrib_right]
  intro hzero
  exact h (Nat.or_eq_zero_iff.1 hzero).2

theorem table_entry (hf : f < 2 ^ 36) :
    child (f * pageSize ||| pdTable) = some f ∧ (f * pageSize ||| pdTable) &&& 0b10 ≠ 0 := by
  have hvalid : (f * pageSize ||| pdTable) &&& 0b1 ≠ 0 := or_and_ne_zero (by decide)
  have hframe : (f * pageSize ||| pdTable) / pageSize % 2 ^ 36 = f := by
    rw [or_offset (by decide), (page_of_offset (by decide)).1, Nat.mod_eq_of_lt hf]
  exact ⟨by rw [child, if_neg hvalid, hframe], or_and_ne_zero (by decide)⟩

section Tree

variable (m : Memory) (root : ℕ)

/-- The frame of the table of a level on the path of a page. -/
def tableOf (pageIdx level : ℕ) : Option ℕ := walk numPtEntries child 3 m root pageIdx (3 - level)

/-- A user page table: its pages form a tree, and above the last level every valid entry is a
table. -/
structure TreeShaped : Prop where
  root_lt : root < 2 ^ 36
  tree : IsTree numPtEntries child 3 m root
  tables : ∀ d < 3, ∀ page f i, walk numPtEntries child 3 m root page d = some f →
    m f i &&& 0b1 ≠ 0 → m f i &&& 0b10 ≠ 0

end Tree

variable {m : Memory} {root : ℕ}

theorem walk_frame_lt {top page d : ℕ} (hroot : root < 2 ^ 36)
    (hf : walk numPtEntries child top m root page d = some f) : f < 2 ^ 36 := by
  cases d with
  | zero => exact some.inj hf ▸ hroot
  | succ d =>
    obtain ⟨g, -, hchild⟩ := bind_eq_some_iff.1 hf
    exact child_lt hchild

section

variable (h : TreeShaped m root)
include h

theorem TreeShaped.frame_lt {page d : ℕ} (hf : walk numPtEntries child 3 m root page d = some f) :
    f < 2 ^ 36 :=
  walk_frame_lt h.root_lt hf

theorem TreeShaped.entry_ne {page x : ℕ} (hpage : page < userPages) (hq : q < userPages)
    (hne : q ≠ page) (hf : walk numPtEntries child 3 m root page 3 = some f)
    (hx : walk numPtEntries child 3 m root q 3 = some x) :
    x ≠ f ∨ digit numPtEntries q 0 ≠ digit numPtEntries page 0 := by
  by_contra hsame
  push Not at hsame
  obtain ⟨rfl, hdigit⟩ := hsame
  have hshare := (h.tree 3 3 le_rfl le_rfl q page x hx hf).2
  exact hne ((hshare.succ hdigit).eq hq hpage)

/-- An entry of the last level is not part of the tree. -/
theorem TreeShaped.writeLeaf {page : ℕ} (hf : walk numPtEntries child 3 m root page 3 = some f)
    (word : ℕ) :
    TreeShaped (write m f (digit numPtEntries page 0) word) root := by
  have hwalks (d : ℕ) (hd : d ≤ 3) (q : ℕ) := h.tree.writeLeaf hf word hd q
  refine ⟨h.root_lt, h.tree.of_walk_eq hwalks, fun d hd q x i hx hvalid ↦ ?_⟩
  rw [hwalks d hd.le] at hx
  have hxf : x ≠ f := by
    rintro rfl
    have := (h.tree d 3 hd.le le_rfl q page x hx hf).1
    omega
  rw [write_of_ne _ _ (.inl hxf)] at hvalid ⊢
  exact h.tables d hd q x i hx hvalid

/-- What is read from the last entry of another page stays the same. -/
theorem TreeShaped.read_writeLeaf {Result : Type} {page : ℕ} (hpage : page < userPages)
    (hq : q < userPages) (hne : q ≠ page) (hf : walk numPtEntries child 3 m root page 3 = some f)
    (word : ℕ) (read : ℕ → Option Result) :
    ((walk numPtEntries child 3 (write m f (digit numPtEntries page 0) word) root q 3).bind fun x ↦
        read (write m f (digit numPtEntries page 0) word x (digit numPtEntries q 0))) =
      (walk numPtEntries child 3 m root q 3).bind fun x ↦ read (m x (digit numPtEntries q 0)) := by
  rw [h.tree.writeLeaf hf word le_rfl q]
  cases hx : walk numPtEntries child 3 m root q 3 with
  | none => rfl
  | some x =>
    rw [bind_some, bind_some, write_of_ne _ _ (h.entry_ne hpage hq hne hf hx)]

end

/-! ## New tables -/

/-- The page frame of a kernel address. -/
def pageOf (vaddr : ℕ) : ℕ := v2pTransKernel vaddr / pageSize

/-- The first `calls` calls of `malloc` return different pages. -/
structure PageSource (malloc : ℕ → ℕ) (calls : ℕ) : Prop where
  addr : ∀ n < calls, malloc n = p2vTransKernel (pageOf (malloc n) * pageSize)
  page_lt : ∀ n < calls, pageOf (malloc n) < 2 ^ 36
  distinct : ∀ n < calls, ∀ n' < calls, malloc n = malloc n' → n = n'

/-- The cursor of a level is at the table that the page uses. -/
def At (root : ℕ) (s : Filling) (page level : ℕ) : Prop :=
  ∃ f, tableOf s.mem root page level = some f ∧ s.tableAddr level = p2vTransKernel (f * pageSize)

/-- The tables are a tree and the pages still to be allocated are outside of it. -/
structure Sound (malloc : ℕ → ℕ) (calls root : ℕ) (s : Filling) : Prop where
  shape : TreeShaped s.mem root
  fresh : ∀ n < calls, s.mallocs ≤ n → ¬ Visited numPtEntries child 3 s.mem root (pageOf (malloc n))

/-- What a new table of level `l` on the path of `page` changes. -/
structure TableAdded (root : ℕ) (s s' : Filling) (page l : ℕ) : Prop where
  at_new : At root s' page l
  cursors : ∀ l', l' ≠ l → s'.tableAddr l' = s.tableAddr l'
  walks : ∀ q d, d ≤ 3 → d ≤ 2 - l ∨ ¬ SharesPath numPtEntries 3 (3 - l) page q →
    walk numPtEntries child 3 s'.mem root q d = walk numPtEntries child 3 s.mem root q d
  leaves : ∀ q f, walk numPtEntries child 3 s.mem root q 3 = some f → s'.mem f = s.mem f

section Steps

variable {malloc : ℕ → ℕ} {calls : ℕ} {s s' : Filling} {page l : ℕ}

theorem At.congr (h : At root s page l)
    (hwalk : tableOf s'.mem root page l = tableOf s.mem root page l)
    (haddr : s'.tableAddr l = s.tableAddr l) : At root s' page l :=
  let ⟨f, hf, haddr'⟩ := h
  ⟨f, hwalk.trans hf, haddr.trans haddr'⟩

theorem TableAdded.at_old {l' : ℕ} (h : TableAdded root s s' page l) (hat : At root s q l')
    (hne : l' ≠ l) (haway : l < l' ∨ ¬ SharesPath numPtEntries 3 (3 - l) page q) :
    At root s' q l' :=
  hat.congr (h.walks q _ (Nat.sub_le 3 l') (haway.imp_left fun _ ↦ by omega)) (h.cursors l' hne)

section

variable (hm : PageSource malloc calls)
include hm

theorem PageSource.v2p {n : ℕ} (hn : n < calls) :
    v2pTransKernel (malloc n) = pageOf (malloc n) * pageSize := by
  have h := v2p_page (hm.page_lt n hn)
  rw [← hm.addr n hn] at h
  exact h

theorem newTable_mem (hcalls : s.mallocs < calls) (hl : l < 3) (hf : f < 2 ^ 36)
    (haddr : s.tableAddr (l + 1) = p2vTransKernel (f * pageSize)) :
    (newTable malloc s l page).mem = install numPtEntries 3 s.mem f (pageOf (malloc s.mallocs)) page
    (2 - l) (pageOf (malloc s.mallocs) * pageSize ||| pdTable) 0 := by
  have hclear := clearPage_page s.mem (hm.page_lt _ hcalls)
  rw [← hm.addr _ hcalls] at hclear
  calc
    (newTable malloc s l page).mem =
        store (clearPage s.mem (malloc s.mallocs)) (s.tableAddr (l + 1) + 8 * idx page (l + 1))
          (v2pTransKernel (malloc s.mallocs) ||| pdTable) := rfl
    _ = install numPtEntries 3 s.mem f (pageOf (malloc s.mallocs)) page (2 - l)
          (pageOf (malloc s.mallocs) * pageSize ||| pdTable) 0 := by
      rw [hm.v2p hcalls, hclear, haddr, idx_eq, store_entry _ _ hf (digit_lt page (l + 1)), install,
        show 3 - (2 - l) = l + 1 by omega]

omit hm in
/-- The new table as an installation in the tree. -/
structure Installs (malloc : ℕ → ℕ) (root : ℕ) (s : Filling) (page l f : ℕ) : Prop where
  tree : IsTree numPtEntries child 3 s.mem root
  walk : walk numPtEntries child 3 s.mem root page (2 - l) = some f
  fresh : ¬ Visited numPtEntries child 3 s.mem root (pageOf (malloc s.mallocs))
  link : child (pageOf (malloc s.mallocs) * pageSize ||| pdTable) = some (pageOf (malloc s.mallocs))
  mem : (newTable malloc s l page).mem = install numPtEntries 3 s.mem f
    (pageOf (malloc s.mallocs)) page (2 - l) (pageOf (malloc s.mallocs) * pageSize ||| pdTable) 0

theorem newTable_installs (h : Sound malloc calls root s) (hcalls : s.mallocs < calls) (hl : l < 3)
    (hat : At root s page (l + 1)) :
    ∃ f, Installs malloc root s page l f := by
  obtain ⟨f, hwalk, haddr⟩ := hat
  refine ⟨f, h.shape.tree, ?_, h.fresh _ hcalls le_rfl, (table_entry (hm.page_lt _ hcalls)).1,
    newTable_mem hm hcalls hl (h.shape.frame_lt hwalk) haddr⟩
  rw [← hwalk, tableOf, show 3 - (l + 1) = 2 - l by omega]

omit hm in
theorem Installs.install (h : Installs malloc root s page l f) (hl : l < 3) :
    Install numPtEntries child 3 s.mem root f (pageOf (malloc s.mallocs)) page (2 - l)
      (pageOf (malloc s.mallocs) * pageSize ||| pdTable) 0 :=
  ⟨h.tree, by omega, h.walk, h.fresh, h.link, child_zero⟩

theorem newTable_spec (h : Sound malloc calls root s) (hcalls : s.mallocs < calls) (hl : l < 3)
    (hat : At root s page (l + 1)) :
    Sound malloc calls root (newTable malloc s l page) ∧
      TableAdded root s (newTable malloc s l page) page l := by
  obtain ⟨f, hinstalls⟩ := newTable_installs hm h hcalls hl hat
  have hinstall := hinstalls.install hl
  have hmem := hinstalls.mem
  have htable := (table_entry (hm.page_lt _ hcalls)).2
  set g := pageOf (malloc s.mallocs)
  have hnext : 2 - l + 1 = 3 - l := by omega
  constructor
  · refine ⟨⟨h.shape.root_lt, hmem ▸ hinstall.isTree, ?_⟩, ?_⟩
    · intro d hd q x i hx hvalid
      rw [hmem] at hx hvalid ⊢
      rcases hinstall.walk_cases hd.le hx with hold | ⟨rfl, -⟩
      · have hxg : x ≠ g := fun heq ↦ hinstall.fresh (heq ▸ ⟨d, hd.le, q, hold⟩)
        -- Only the new entry differs from the old ones.
        by_cases hentry : x = f ∧ i = digit numPtEntries page (3 - (2 - l))
        · obtain ⟨rfl, rfl⟩ := hentry
          rw [install, write_self]
          exact htable
        · rw [install, write_of_ne _ _ (not_and_or.1 hentry), clear_of_ne _ _ hxg] at hvalid ⊢
          exact h.shape.tables d hd q x i hold hvalid
      · rw [Install.install_new hinstall.page_ne] at hvalid
        exact absurd rfl hvalid
    · intro n hn hle hvisited
      rw [hmem] at hvisited
      rcases hinstall.visited hvisited with hold | heq
      · exact h.fresh n hn (Nat.le_of_succ_le hle) hold
      · have hsame : malloc n = malloc s.mallocs := by
          rw [hm.addr n hn, heq]
          exact (hm.addr _ hcalls).symm
        have := hm.distinct n hn _ hcalls hsame
        have : s.mallocs + 1 ≤ n := hle
        omega
  · refine ⟨⟨g, ?_, ?_⟩, fun l' hl' ↦ update_of_ne hl' _ _, fun q d hd haway ↦ ?_, fun q x hx ↦ ?_⟩
    · rw [hmem, tableOf, ← hnext]
      exact hinstall.walk_self fun _ _ ↦ rfl
    · change update s.tableAddr l (malloc s.mallocs) l = _
      rw [update_self]
      exact hm.addr _ hcalls
    · rw [hmem]
      rw [← hnext] at haway
      exact hinstall.walk_eq hd haway
    · rw [hmem]
      refine install_of_ne ?_ fun heq ↦ hinstall.fresh (heq ▸ ⟨3, le_rfl, q, hx⟩)
      rintro rfl
      have := (hinstall.tree 3 (2 - l) le_rfl (by omega) q page x hx hinstall.page).1
      omega

end

/-! ## The first loop -/

theorem openTable_mallocs (malloc : ℕ → ℕ) (page : ℕ) (s : Filling) (i : ℕ) :
    s.mallocs ≤ (openTable malloc page s i).mallocs ∧
      (openTable malloc page s i).mallocs ≤ s.mallocs + 1 := by
  unfold openTable
  simp only
  split
  · exact ⟨le_rfl, Nat.le_succ _⟩
  · exact ⟨Nat.le_succ _, le_rfl⟩

theorem tableOf_child (hl : l < 3) (hf : tableOf m root page (l + 1) = some f) :
    tableOf m root page l = child (m f (digit numPtEntries page (l + 1))) := by
  unfold tableOf at hf ⊢
  rw [show 3 - l = 3 - (l + 1) + 1 by omega, walk, hf, bind_some,
    show 3 - (3 - (l + 1)) = l + 1 by omega]

/-- The first loop follows the entry that it looks at, or finds that the table is missing. -/
theorem openTable_cases (h : Sound malloc calls root s) (hl : l < 3)
    (hat : At root s page (l + 1)) :
    ((openTable malloc page s l).mem = s.mem ∧ (openTable malloc page s l).mallocs = s.mallocs ∧
      At root (openTable malloc page s l) page l ∧
      ∀ l', l' ≠ l → (openTable malloc page s l).tableAddr l' = s.tableAddr l') ∨
    openTable malloc page s l = newTable malloc s l page ∧ tableOf s.mem root page l = none := by
  obtain ⟨f, hwalk, haddr⟩ := hat
  have hload : load s.mem (s.tableAddr (l + 1) + 8 * idx page (l + 1)) =
      s.mem f (digit numPtEntries page (l + 1)) := by
    rw [haddr, idx_eq, load_entry _ (h.shape.frame_lt hwalk) (digit_lt page (l + 1))]
  unfold openTable
  simp only [hload]
  split
  · next hvalid =>
    refine .inl ⟨rfl, rfl, ⟨_, (tableOf_child hl hwalk).trans (if_neg hvalid), ?_⟩,
      fun l' hl' ↦ update_of_ne hl' _ _⟩
    simp only [update_self, and_tableAddrMask]
  · next hinvalid =>
    exact .inr ⟨rfl, (tableOf_child hl hwalk).trans (if_pos (not_not.1 hinvalid))⟩

/-- One round of the first loop: the cursor of the next level. -/
theorem openTable_spec (hm : PageSource malloc calls) (h : Sound malloc calls root s)
    (hcalls : (openTable malloc page s l).mallocs ≤ calls) (hl : l < 3)
    (hat : ∀ l', l < l' → l' ≤ 3 → At root s page l') :
    Sound malloc calls root (openTable malloc page s l) ∧
      ∀ l', l ≤ l' → l' ≤ 3 → At root (openTable malloc page s l) page l' := by
  have hnext := hat (l + 1) (Nat.lt_succ_self l) hl
  rcases openTable_cases h hl hnext with ⟨hmem, hmallocs, hnew, hcursors⟩ | ⟨hopen, -⟩
  · refine ⟨⟨hmem ▸ h.shape, by rw [hmem, hmallocs]; exact h.fresh⟩, fun l' hle hle' ↦ ?_⟩
    rcases Nat.eq_or_lt_of_le hle with rfl | hlt
    · exact hnew
    · exact (hat l' hlt hle').congr (by rw [hmem]) (hcursors l' hlt.ne')
  · rw [hopen] at hcalls ⊢
    obtain ⟨hsound, hadded⟩ := newTable_spec hm h hcalls hl hnext
    refine ⟨hsound, fun l' hle hle' ↦ ?_⟩
    rcases Nat.eq_or_lt_of_le hle with rfl | hlt
    · exact hadded.at_new
    · exact hadded.at_old (hat l' hlt hle') hlt.ne' (.inl hlt)

section Levels

variable {step : Filling → ℕ → Filling} (hmallocs : ∀ s l,
  s.mallocs ≤ (step s l).mallocs ∧ (step s l).mallocs ≤ s.mallocs + 1)

include hmallocs

theorem foldl_mallocs (s : Filling) : s.mallocs ≤ ([2, 1, 0].foldl step s).mallocs ∧
    ([2, 1, 0].foldl step s).mallocs ≤ s.mallocs + 3 := by
  simp only [foldl_cons, foldl_nil]
  have h₂ := hmallocs s 2
  have h₁ := hmallocs (step s 2) 1
  have h₀ := hmallocs (step (step s 2) 1) 0
  omega

/-- A loop over the levels whose rounds preserve a property. -/
theorem foldl_levels {P : ℕ → Filling → Prop}
    (hstep : ∀ s l, l < 3 → (step s l).mallocs ≤ calls → P (l + 1) s → P l (step s l))
    (hcalls : ([2, 1, 0].foldl step s).mallocs ≤ calls) (h : P 3 s) :
    P 0 ([2, 1, 0].foldl step s) := by
  simp only [foldl_cons, foldl_nil] at hcalls ⊢
  have hcalls₁ := (hmallocs _ 0).1.trans hcalls
  have h₂ := hstep s 2 (by decide) ((hmallocs _ 1).1.trans hcalls₁) h
  have h₁ := hstep _ 1 (by decide) hcalls₁ h₂
  exact hstep _ 0 (by decide) hcalls h₁

end Levels

/-! ## The loop over the pages -/

theorem renewTable_mallocs (malloc : ℕ → ℕ) (page : ℕ) (s : Filling) (i : ℕ) :
    s.mallocs ≤ (renewTable malloc page s i).mallocs ∧
      (renewTable malloc page s i).mallocs ≤ s.mallocs + 1 := by
  unfold renewTable
  split
  · exact ⟨Nat.le_succ _, le_rfl⟩
  · exact ⟨le_rfl, Nat.le_succ _⟩

/-- Where the index of a level does not go back to 0, the next page uses the same table. -/
theorem sharesPath_of_no_carry (hi : i < 3)
    (hcarry : ¬ (digit numPtEntries page i ≠ 0 ∧ digit numPtEntries (page + 1) i = 0)) :
    SharesPath numPtEntries 3 (3 - i) page (page + 1) := by
  have hdiv : page / numPtEntries ^ (i + 1) = (page + 1) / numPtEntries ^ (i + 1) := by
    obtain rfl | rfl | rfl : i = 0 ∨ i = 1 ∨ i = 2 := by omega
    all_goals
      simp only [digit, numPtEntries] at hcarry ⊢
      norm_num at hcarry ⊢
      omega
  intro k hk
  have hsplit (x : ℕ) : x / numPtEntries ^ (3 - k) = x / numPtEntries ^ (i + 1) / numPtEntries ^
    (2 - k - i) := by
    rw [Nat.div_div_eq_div_mul, ← pow_add, show i + 1 + (2 - k - i) = 3 - k by omega]
  rw [digit, digit, hsplit, hsplit, hdiv]

/-- The page starts a table of the level. -/
def StartsTable (page i : ℕ) : Prop := page % numPtEntries ^ (i + 1) = 0

/-- A page that starts a table of a level comes before all others of this table. -/
theorem StartsTable.not_sharesPath {p : ℕ} (hstart : StartsTable p i) (hi : i < 3)
    (hp : p < userPages) (hlt : q < p) : ¬ SharesPath numPtEntries 3 (3 - i) p q := by
  intro hshare
  have hle : p ≤ q := by
    refine le_of_digits hi (by omega) hstart hp fun k hlow hhigh ↦ ?_
    have hdigit := hshare (3 - k) (by omega)
    rw [show 3 - (3 - k) = k by omega] at hdigit
    exact hdigit.symm
  omega

/-- The cursors from level `i` on are at the tables of the next page, those below at the tables of
this page. -/
def Moving (root : ℕ) (s : Filling) (page i : ℕ) : Prop :=
  (∀ l, i ≤ l → l ≤ 3 → At root s (page + 1) l) ∧ ∀ l < i, At root s page l

/-- The entry of the last level for a page. -/
def Filled (root : ℕ) (s : Filling) (q word : ℕ) : Prop :=
  ∃ f, walk numPtEntries child 3 s.mem root q 3 = some f ∧ s.mem f (digit numPtEntries q 0) = word

theorem renewTable_spec (hm : PageSource malloc calls) (h : Sound malloc calls root s)
    (hcalls : (renewTable malloc page s l).mallocs ≤ calls) (hl : l < 3)
    (hpage : page + 1 < userPages) (hmoving : Moving root s page (l + 1)) :
    Sound malloc calls root (renewTable malloc page s l) ∧
      Moving root (renewTable malloc page s l) page l ∧ ∀ q word, q ≤ page →
        Filled root s q word → Filled root (renewTable malloc page s l) q word := by
  unfold renewTable at hcalls ⊢
  simp only [idx_eq] at hcalls ⊢
  by_cases hcarry : digit numPtEntries page l ≠ 0 ∧ digit numPtEntries (page + 1) l = 0
  · rw [if_pos hcarry] at hcalls ⊢
    obtain ⟨hsound, hadded⟩ := newTable_spec hm h hcalls hl (hmoving.1 (l + 1) le_rfl (by omega))
    have hstart : StartsTable (page + 1) l := succ_mod_of_carry hcarry.1 hcarry.2
    have haway (q : ℕ) (hq : q ≤ page) := hstart.not_sharesPath hl hpage (Nat.lt_succ_of_le hq)
    refine ⟨hsound, ⟨fun l' hle hle' ↦ ?_, fun l' hlt ↦ ?_⟩, fun q word hq ↦ ?_⟩
    · rcases Nat.eq_or_lt_of_le hle with rfl | hlt
      · exact hadded.at_new
      · exact hadded.at_old (hmoving.1 l' hlt hle') hlt.ne' (.inl hlt)
    · exact hadded.at_old (hmoving.2 l' (by omega)) hlt.ne (.inr (haway page le_rfl))
    · rintro ⟨f, hwalk, hword⟩
      refine ⟨f, ?_, by rw [hadded.leaves q f hwalk, hword]⟩
      rw [hadded.walks q 3 le_rfl (.inr (haway q hq)), hwalk]
  · rw [if_neg hcarry]
    refine ⟨h, ⟨fun l' hle hle' ↦ ?_, fun l' hlt ↦ hmoving.2 l' (by omega)⟩, fun _ _ _ hfilled ↦
      hfilled⟩
    rcases Nat.eq_or_lt_of_le hle with rfl | hlt
    · obtain ⟨f, hwalk, haddr⟩ := hmoving.2 l (by omega)
      exact ⟨f, by rw [tableOf, ← walk_congr (sharesPath_of_no_carry hl hcarry)]; exact hwalk,
        haddr⟩
    · exact hmoving.1 l' hlt hle'

/-- The inner loop moves all cursors to the next page, and keeps what each of its rounds keeps. -/
theorem renewTables_rule {J : ℕ → Filling → Prop} (hm : PageSource malloc calls)
    (h : Sound malloc calls root s)
    (hcalls : ([2, 1, 0].foldl (renewTable malloc page) s).mallocs ≤ calls)
    (hpage : page + 1 < userPages) (hat : ∀ l ≤ 3, At root s page l)
    (hround : ∀ s l, l < 3 → Sound malloc calls root s → Moving root s page (l + 1) →
      (renewTable malloc page s l).mallocs ≤ calls → J (l + 1) s → J l (renewTable malloc page s l))
    (hJ : J 3 s) :
    Sound malloc calls root ([2, 1, 0].foldl (renewTable malloc page) s) ∧
      (∀ l ≤ 3, At root ([2, 1, 0].foldl (renewTable malloc page) s) (page + 1) l) ∧
      J 0 ([2, 1, 0].foldl (renewTable malloc page) s) := by
  have hstart : Moving root s page 3 := by
    refine ⟨fun l hle hle' ↦ ?_, fun l hlt ↦ hat l hlt.le⟩
    obtain rfl : l = 3 := by omega
    exact hat 3 le_rfl
  obtain ⟨h₀, hmoving₀, hJ₀⟩ := foldl_levels
    (P := fun l s ↦ Sound malloc calls root s ∧ Moving root s page l ∧ J l s)
    (renewTable_mallocs malloc page)
    (fun s l hl hcalls ⟨h, hmoving, hJ⟩ ↦
      let ⟨h', hmoving', _⟩ := renewTable_spec hm h hcalls hl hpage hmoving
      ⟨h', hmoving', hround s l hl h hmoving hcalls hJ⟩) hcalls ⟨h, hstart, hJ⟩
  exact ⟨h₀, fun l hl ↦ hmoving₀.1 l (Nat.zero_le l) hl, hJ₀⟩

theorem storeEntry_spec (h : Sound malloc calls root s) (word : ℕ) (hpage : page < userPages)
    (hat : ∀ l ≤ 3, At root s page l) {s' : Filling}
    (hs' : s' = { s with mem := store s.mem (s.tableAddr 0 + 8 * idx page 0) word }) :
    Sound malloc calls root s' ∧ (∀ l ≤ 3, At root s' page l) ∧ Filled root s' page word ∧
      ∀ q word', q < page → Filled root s q word' → Filled root s' q word' := by
  obtain ⟨f, hwalk, haddr⟩ := hat 0 (by decide)
  have htree := h.shape.tree
  have hmem : s'.mem = write s.mem f (digit numPtEntries page 0) word := by
    rw [hs', haddr, idx_eq, store_entry _ _ (h.shape.frame_lt hwalk) (digit_lt page 0)]
  have hwalks (d : ℕ) (hd : d ≤ 3) (q : ℕ) : walk numPtEntries child 3 s'.mem root q d =
      walk numPtEntries child 3 s.mem root q d := by
    rw [hmem]
    exact htree.writeLeaf hwalk word hd q
  have hshape : TreeShaped s'.mem root := by
    rw [hmem]
    exact h.shape.writeLeaf hwalk word
  refine ⟨⟨hshape, fun n hn hle hvisited ↦ ?_⟩, fun l hl ↦ ?_, ⟨f, ?_, ?_⟩,
    fun q word' hq hfilled ↦ ?_⟩
  · obtain ⟨d, hd, q, hq⟩ := hvisited
    rw [hwalks d hd] at hq
    exact h.fresh n hn (by rw [hs'] at hle; exact hle) ⟨d, hd, q, hq⟩
  · exact (hat l hl).congr (hwalks _ (Nat.sub_le 3 l) page) (by rw [hs'])
  · rw [hwalks 3 le_rfl]
    exact hwalk
  · rw [hmem, write_self]
  · obtain ⟨x, hx, hword⟩ := hfilled
    refine ⟨x, by rw [hwalks 3 le_rfl, hx], ?_⟩
    have hne := h.shape.entry_ne hpage (hq.trans hpage) hq.ne hwalk hx
    rw [hmem, write_of_ne _ _ hne, hword]

theorem fillLoop_mallocs (malloc : ℕ → ℕ) (startPa flags count page counter : ℕ) (s : Filling) :
    s.mallocs ≤ (fillLoop malloc startPa flags count page counter s).mallocs ∧
      (fillLoop malloc startPa flags count page counter s).mallocs ≤ s.mallocs + 3 * count := by
  induction count generalizing page counter s with
  | zero => exact ⟨le_rfl, le_rfl⟩
  | succ count ih =>
    rw [fillLoop]
    simp only
    split
    · exact ⟨le_rfl, Nat.le_add_right _ _⟩
    · set s₁ : Filling := { s with
        mem := store s.mem (s.tableAddr 0 + 8 * idx page 0) (pteEntry startPa flags counter) }
      have hrenew : s.mallocs ≤ _ ∧ _ ≤ s.mallocs + 3 :=
        foldl_mallocs (renewTable_mallocs malloc page) s₁
      exact ⟨hrenew.1.trans (ih _ _ _).1, (ih _ _ _).2.trans (by omega)⟩

/-! ## The rule for the loop over the pages -/

section Rule

variable {start stop startPa flags : ℕ} {I : ℕ → Filling → Prop} {J : ℕ → ℕ → Filling → Prop}

/-- The rule for `fill_page_table`.  `I` holds before the entry of a page is stored, `J` while the
cursors move on to the next page and those from the given level on have been moved. -/
structure FillRule (malloc : ℕ → ℕ) (calls root start stop : ℕ) (word : ℕ → ℕ)
    (I : ℕ → Filling → Prop) (J : ℕ → ℕ → Filling → Prop) : Prop where
  opened : ∀ s l, l < 3 → Sound malloc calls root s →
    (∀ l', l < l' → l' ≤ 3 → At root s start l') → (openTable malloc start s l).mallocs ≤ calls →
    I start s → I start (openTable malloc start s l)
  stored : ∀ page s, start ≤ page → page < stop → Sound malloc calls root s →
    (∀ l ≤ 3, At root s page l) → I page s →
    J page 3 { s with mem := store s.mem (s.tableAddr 0 + 8 * idx page 0) (word page) }
  renewed : ∀ page s l, start ≤ page → page + 1 < stop → l < 3 → Sound malloc calls root s →
    Moving root s page (l + 1) → (renewTable malloc page s l).mallocs ≤ calls →
    J page (l + 1) s → J page l (renewTable malloc page s l)
  next : ∀ page s, J page 0 s → I (page + 1) s

/-- The words that `fill_page_table` stores, with the counter of the page. -/
def wordOf (start startPa flags page : ℕ) : ℕ := pteEntry startPa flags ((page - start) % 2 ^ 32)

theorem FillRule.fillLoop {count : ℕ}
    (hrule : FillRule malloc calls root start stop (wordOf start startPa flags) I J)
    (hm : PageSource malloc calls) (hstop : stop ≤ userPages) (hstart : start ≤ page)
    (hcount : page + count = stop) (hpos : count ≠ 0) (h : Sound malloc calls root s)
    (hat : ∀ l ≤ 3, At root s page l) (hI : I page s)
    (hcalls : (Words.fillLoop malloc startPa flags count page ((page - start) % 2 ^ 32) s).mallocs ≤
      calls) :
    Sound malloc calls root
        (Words.fillLoop malloc startPa flags count page ((page - start) % 2 ^ 32) s) ∧
      J (stop - 1) 3
        (Words.fillLoop malloc startPa flags count page ((page - start) % 2 ^ 32) s) := by
  induction count generalizing page s with
  | zero => exact absurd rfl hpos
  | succ count ih =>
    have hcounter : ((page - start) % 2 ^ 32 + 1) % 2 ^ 32 = (page + 1 - start) % 2 ^ 32 := by
      rw [Nat.mod_add_mod, Nat.sub_add_comm hstart]
    rw [Words.fillLoop, hcounter] at hcalls ⊢
    simp only at hcalls ⊢
    have hJ₃ := hrule.stored page s hstart (by omega) h hat hI
    obtain ⟨h₃, hat₃, -⟩ := storeEntry_spec h (wordOf start startPa flags page) (by omega) hat rfl
    by_cases hlast : count = 0
    · rw [if_pos hlast, show stop - 1 = page by omega]
      exact ⟨h₃, hJ₃⟩
    · rw [if_neg hlast] at hcalls ⊢
      have hcalls₀ := (fillLoop_mallocs malloc startPa flags count (page + 1) _ _).1.trans hcalls
      obtain ⟨h₀, hat₀, hJ₀⟩ := renewTables_rule hm h₃ hcalls₀ (by omega) hat₃
        (fun s l ↦ hrule.renewed page s l hstart (by omega)) hJ₃
      exact ih (by omega) (by omega) hlast h₀ hat₀ (hrule.next page _ hJ₀) hcalls

end Rule

end Steps

end CapstoneKernel.VMem.Words
