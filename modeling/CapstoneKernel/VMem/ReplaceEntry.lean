import CapstoneKernel.VMem.TableContents

/-!
# `replace_page_entry` and the walker

`replace_page_entry` walks the tables as `v2p_trans` does and changes the entry at which it ends:
first `PD_RDONLY`, then the address.  In a tree of tables no other page uses this entry, so the
walker sees the new address for one page and its old results for all others.  Processes whose tables
have no page in common can replace pages in any order without being seen by each other.
-/

namespace CapstoneKernel.VMem.Words

open RadixTable TableWalk Mem Option

variable {m : Memory} {root : ℕ}

def pdRdonly : ℕ := 1 <<< 7

/-- `~mask` for a word of 64 bits. -/
def complement (mask : ℕ) : ℕ := (2 ^ 64 - 1) ^^^ mask

/-- The loop of `replace_page_entry` from level `i` on: `v_entry_ptr` where it ends. -/
def findEntry (m : Memory) (virtualAddr : ℕ) : ℕ → ℕ → ℕ → ℕ → Option ℕ
  | 0, _, _, _ => none
  | rounds + 1, i, entry, idxMask =>
    let tableAddr := entry &&& tableAddrMask
    let index := (virtualAddr &&& idxMask) >>> (39 - i * 9)
    let entryPtr := tableAddr ||| (index <<< 3)
    let vEntryPtr := p2vTransKernel entryPtr
    let entry := load m vEntryPtr
    if entry &&& 0b1 = 0 then none
    else if entry &&& 0b10 = 0 ∨ i = 3 then some vEntryPtr
    else findEntry m virtualAddr rounds (i + 1) entry (idxMask >>> 9)

/-- `replace_page_entry`, with the table base registers of the two halves of the address space. -/
def replacePageEntry (m : Memory) (virtualAddr ttbr0 ttbr1 newAddr : ℕ) (wPermission : Bool) :
    Memory :=
  match findEntry m virtualAddr 4 0 (if virtualAddr >>> 48 = 0xffff then ttbr1 else ttbr0)
    0xff8000000000 with
  | none => m
  | some vEntryPtr =>
    let m :=
      if wPermission then store m vEntryPtr (load m vEntryPtr &&& complement pdRdonly)
      else store m vEntryPtr (load m vEntryPtr ||| pdRdonly)
    let m := store m vEntryPtr (load m vEntryPtr &&& complement tableAddrMask)
    store m vEntryPtr (load m vEntryPtr ||| newAddr &&& tableAddrMask)

/-! ## The entry -/

/-- The entry after the call. -/
def replacedEntry (entry newAddr : ℕ) (wPermission : Bool) : ℕ :=
  (if wPermission then entry &&& complement pdRdonly else entry ||| pdRdonly) &&&
    complement tableAddrMask ||| newAddr &&& tableAddrMask

/-- The attributes of a descriptor other than `PD_RDONLY`. -/
def otherAttributes : ℕ := attributeMask ^^^ pdRdonly

/-- Bits outside of the address are those of the first step. -/
theorem replacedEntry_and {bits : ℕ} (hkeep : complement tableAddrMask &&& bits = bits)
    (hzero : tableAddrMask &&& bits = 0) (entry newAddr : ℕ) (w : Bool) :
    replacedEntry entry newAddr w &&& bits =
      (if w then entry &&& complement pdRdonly else entry ||| pdRdonly) &&& bits := by
  rw [replacedEntry, Nat.and_or_distrib_right, Nat.and_assoc, hkeep, Nat.and_assoc, hzero,
    Nat.and_zero, Nat.or_zero]

theorem replacedEntry_address (entry newAddr : ℕ) (w : Bool) :
    replacedEntry entry newAddr w &&& tableAddrMask = newAddr &&& tableAddrMask := by
  have hgone : complement tableAddrMask &&& tableAddrMask = 0 := by decide
  rw [replacedEntry, Nat.and_or_distrib_right, Nat.and_assoc, hgone, Nat.and_zero, Nat.zero_or,
    Nat.and_assoc, Nat.and_self]

theorem replacedEntry_rdonly (entry newAddr : ℕ) (w : Bool) :
    replacedEntry entry newAddr w &&& pdRdonly ≠ 0 ↔ w = false := by
  rw [replacedEntry_and (by decide) (by decide)]
  cases w with
  | false =>
    have hset : (entry ||| pdRdonly) &&& pdRdonly ≠ 0 := or_and_ne_zero (by decide)
    simpa using hset
  | true =>
    have hgone : complement pdRdonly &&& pdRdonly = 0 := by decide
    simp [Nat.and_assoc, hgone]

/-- All other attributes stay as they were. -/
theorem replacedEntry_attributes {bits : ℕ} (hbits : otherAttributes &&& bits = bits)
    (entry newAddr : ℕ) (w : Bool) :
    replacedEntry entry newAddr w &&& bits = entry &&& bits := by
  have hall : replacedEntry entry newAddr w &&& otherAttributes = entry &&& otherAttributes := by
    rw [replacedEntry_and (by decide) (by decide)]
    cases w with
    | false =>
      have hgone : pdRdonly &&& otherAttributes = 0 := by decide
      rw [if_neg Bool.false_ne_true, Nat.and_or_distrib_right, hgone, Nat.or_zero]
    | true =>
      have hkeep : complement pdRdonly &&& otherAttributes = otherAttributes := by decide
      rw [if_pos rfl, Nat.and_assoc, hkeep]
  rw [← hbits, ← Nat.and_assoc, hall, Nat.and_assoc]

/-! ## The loop -/

/-- The address of the last entry for a page in its table. -/
def lastEntry (m : Memory) (page f : ℕ) : Option ℕ :=
  if m f (digit numPtEntries page 0) &&& 0b1 = 0 then none
  else some (p2vTransKernel (f * pageSize) + 8 * digit numPtEntries page 0)

theorem findEntry_eq (h : TreeShaped m root) (va : ℕ) :
    findEntry m va 4 0 (root * pageSize) 0xff8000000000 =
      (walk numPtEntries child 3 m root (va / pageSize) 3).bind (lastEntry m (va / pageSize)) := by
  refine h.tableWalks.loop_eq (va / pageSize)
    (fun rounds i entry ↦ findEntry m va rounds i entry (0xff8000000000 >>> (9 * i)))
    (fun i f ↦ p2vTransKernel (f * pageSize) + 8 * digit numPtEntries (va / pageSize) (3 - i))
    (fun rounds i entry f hi hf hentry ↦ ?_) 3 le_rfl rfl h.tableWalks.root_and_tableAddrMask
  rw [findEntry]
  simp only [walk_index va hi, hentry, entryPtr_eq hf (digit_lt _ _), load_entry m hf (digit_lt _ _)]
  rw [← Nat.shiftRight_add, show 9 * i + 9 = 9 * (i + 1) by ring]

/-! ## The call -/

section Call

variable {va newAddr : ℕ} {w : Bool}

/-- What the call does to the memory: it changes the last entry for the page, if it is valid. -/
theorem replacePageEntry_eq (h : TreeShaped m root) (hva : va < 2 ^ 48) (ttbr1 : ℕ) :
    replacePageEntry m va (root * pageSize) ttbr1 newAddr w =
      match walk numPtEntries child 3 m root (va / pageSize) 3 with
      | none => m
      | some f =>
        if m f (digit numPtEntries (va / pageSize) 0) &&& 0b1 = 0 then m
        else write m f (digit numPtEntries (va / pageSize) 0)
          (replacedEntry (m f (digit numPtEntries (va / pageSize) 0)) newAddr w) := by
  rw [replacePageEntry, if_neg (not_kernel_half hva), findEntry_eq h]
  cases hf : walk numPtEntries child 3 m root (va / pageSize) 3 with
  | none => rfl
  | some f =>
    have hlt := h.frame_lt hf
    have hdigit := digit_lt (va / pageSize) 0
    rw [bind_some, lastEntry]
    by_cases hvalid : m f (digit numPtEntries (va / pageSize) 0) &&& 0b1 = 0
    · simp only [if_pos hvalid]
    · simp only [if_neg hvalid, store_entry _ _ hlt hdigit, load_entry _ hlt hdigit]
      cases w <;> simp [replacedEntry]

/-- The mapping of one page is replaced: the walker computes the new address in this page and
nothing new elsewhere, and the leaf keeps its attributes apart from `PD_RDONLY`. -/
structure Replaced (m m' : Memory) (root ttbr1 va newAddr : ℕ) (w : Bool) : Prop where
  page : ∀ va', va' / pageSize = va / pageSize →
    v2pTrans m' va' (root * pageSize) ttbr1 = newAddr + va' % pageSize
  others : ∀ va' < 2 ^ 48, va' / pageSize ≠ va / pageSize →
    v2pTrans m' va' (root * pageSize) ttbr1 = v2pTrans m va' (root * pageSize) ttbr1
  leaf : ∃ level entry entry' offsetMask,
    walkTable m va (root * pageSize) = some (level, entry, offsetMask) ∧
    walkTable m' va (root * pageSize) = some (level, entry', offsetMask) ∧
    (entry' &&& pdRdonly ≠ 0 ↔ w = false) ∧ entry' &&& otherAttributes = entry &&& otherAttributes

theorem replacePageEntry_replaced (h : TreeShaped m root) (hva : va < 2 ^ 48)
    (hnew : newAddr < 2 ^ 48) (haligned : newAddr % pageSize = 0) (ttbr1 : ℕ)
    (hmapped : walkTable m va (root * pageSize) ≠ none) :
    Replaced m (replacePageEntry m va (root * pageSize) ttbr1 newAddr w) root ttbr1 va newAddr
      w := by
  have hpage : va / pageSize < userPages := by
    unfold pageSize userPages numPtEntries
    omega
  rw [walkTable_eq h.tableWalks] at hmapped
  rw [replacePageEntry_eq h hva]
  cases hf : walk numPtEntries child 3 m root (va / pageSize) 3 with
  | none =>
    rw [hf] at hmapped
    exact absurd rfl hmapped
  | some f =>
    rw [hf, bind_some, lastRound] at hmapped
    split at hmapped
    · exact absurd rfl hmapped
    next hvalid =>
    simp only [if_neg hvalid]
    set entry := m f (digit numPtEntries (va / pageSize) 0) with hentry
    set m' := write m f (digit numPtEntries (va / pageSize) 0) (replacedEntry entry newAddr w)
      with hm'
    have hshape : TreeShaped m' root := h.writeLeaf hf _
    have hwalk : walk numPtEntries child 3 m' root (va / pageSize) 3 = some f :=
      (h.tree.writeLeaf hf _ le_rfl _).trans hf
    have hvalid' : replacedEntry entry newAddr w &&& 0b1 ≠ 0 := by
      rw [replacedEntry_attributes (by decide)]
      exact hvalid
    have hlast : (walk numPtEntries child 3 m' root (va / pageSize) 3).bind
        (lastRound m' (va / pageSize)) = some (3, replacedEntry entry newAddr w, 0xfff) := by
      rw [hwalk, bind_some, lastRound, hm', write_self, if_neg hvalid']
    refine ⟨fun va' hsame ↦ ?_, fun va' hva' hne ↦ ?_, ?_⟩
    · have hva' : va' < 2 ^ 48 := by
        unfold pageSize at hsame
        omega
      rw [v2pTrans_eq hshape.tableWalks hva', hsame, hlast]
      simp only [replacedEntry_address]
      rw [and_tableAddrMask]
      unfold pageSize at *
      omega
    · have hpage' : va' / pageSize < userPages := by
        unfold pageSize userPages numPtEntries
        omega
      have hread := h.read_writeLeaf hpage hpage' hne hf (replacedEntry entry newAddr w) fun e ↦
        if e &&& 0b1 = 0 then none else some (3, e, 0xfff)
      rw [v2pTrans_eq hshape.tableWalks hva', v2pTrans_eq h.tableWalks hva']
      unfold lastRound
      rw [hread]
    · refine ⟨3, entry, replacedEntry entry newAddr w, 0xfff, ?_, ?_, replacedEntry_rdonly ..,
        replacedEntry_attributes (by decide) ..⟩
      · rw [walkTable_eq h.tableWalks, hf, bind_some, lastRound, if_neg hvalid]
      · rw [walkTable_eq hshape.tableWalks, hlast]

theorem replacePageEntry_unmapped (h : TreeShaped m root) (hva : va < 2 ^ 48) (ttbr1 : ℕ)
    (hunmapped : walkTable m va (root * pageSize) = none) :
    replacePageEntry m va (root * pageSize) ttbr1 newAddr w = m := by
  rw [walkTable_eq h.tableWalks] at hunmapped
  rw [replacePageEntry_eq h hva]
  cases hf : walk numPtEntries child 3 m root (va / pageSize) 3 with
  | none => rfl
  | some f =>
    rw [hf, bind_some, lastRound] at hunmapped
    split at hunmapped
    · next hinvalid => exact if_pos hinvalid
    · cases hunmapped

/-- The call replaces the mapping of a mapped page, and does nothing for another one. -/
theorem replacePageEntry_agrees (h : TreeShaped m root) (hva : va < 2 ^ 48)
    (hnew : newAddr < 2 ^ 48) (haligned : newAddr % pageSize = 0) (w : Bool) (ttbr1 : ℕ) :
    (walkTable m va (root * pageSize) ≠ none →
      Replaced m (replacePageEntry m va (root * pageSize) ttbr1 newAddr w) root ttbr1 va newAddr
        w) ∧
    (walkTable m va (root * pageSize) = none →
      replacePageEntry m va (root * pageSize) ttbr1 newAddr w = m) :=
  ⟨replacePageEntry_replaced h hva hnew haligned ttbr1, replacePageEntry_unmapped h hva ttbr1⟩

/-- The second of four mapped pages is replaced, and made writable. -/
theorem replacePageEntry_agrees_filled :
    let m := (fillPageTable nextPage blankMemory (p2vTransKernel (1 * pageSize)) 510 514 0x80000
      pdRdonly).mem
    walkTable m (511 * pageSize + 5) (1 * pageSize) ≠ none ∧
      Replaced m (replacePageEntry m (511 * pageSize + 5) (1 * pageSize) 0 0x200000 true) 1 0
        (511 * pageSize + 5) 0x200000 true := by
  have hcall : FillCall nextPage blankMemory 1 510 514 0x80000 pdRdonly :=
    fillCall_blankMemory (by decide) (by decide) (by decide) (by decide) (by decide) (by decide)
  obtain ⟨hsound, -⟩ := fillPageTable_spec hcall.pages hcall.shape hcall.fresh (by decide)
    hcall.range_le rfl le_rfl
  obtain ⟨hwalk, -⟩ := hcall.walkTable_page (by decide : 510 ≤ (511 * pageSize + 5) / pageSize)
    (by decide) 0 rfl rfl
  have hmapped := ne_of_eq_of_ne hwalk (some_ne_none _)
  exact ⟨hmapped, (replacePageEntry_agrees hsound.shape (by decide) (by decide) (by decide) true
    0).1 hmapped⟩

/-! ## The contents -/

theorem decodePte_replacedEntry (entry : ℕ) (hnew : newAddr < 2 ^ 48) (w : Bool) :
    decodePte (replacedEntry entry newAddr w) =
      { decodePte entry with rdonly := !w, frame := newAddr / pageSize } := by
  have hbits (bits : ℕ) (h : otherAttributes &&& bits = bits := by decide) :
      replacedEntry entry newAddr w &&& bits = entry &&& bits :=
    replacedEntry_attributes h entry newAddr w
  have hframe : replacedEntry entry newAddr w / pageSize % 2 ^ 36 = newAddr / pageSize := by
    have haddr := replacedEntry_address entry newAddr w
    rw [and_tableAddrMask, and_tableAddrMask] at haddr
    unfold pageSize at *
    omega
  have hrdonly : (replacedEntry entry newAddr w &&& (1 <<< 7) != 0) = !w := by
    have hiff := replacedEntry_rdonly entry newAddr w
    cases w <;> simpa [pdRdonly] using hiff
  unfold decodePte
  rw [hbits 0b1, hbits (1 <<< 54), hbits (1 <<< 6), hbits (1 <<< 10), hbits (0b111 <<< 2), hframe,
    hrdonly]

theorem page_lt_userPages (hva : va < 2 ^ 48) : va / pageSize < userPages := by
  unfold pageSize userPages numPtEntries
  omega

/-- The table in memory changes as its description says. -/
theorem lookup_toTable_replacePageEntry (h : TreeShaped m root) (hva : va < 2 ^ 48)
    (hnew : newAddr < 2 ^ 48) (ttbr1 : ℕ) {page : ℕ} (hpage : page < userPages) :
    lookup (toTable (replacePageEntry m va (root * pageSize) ttbr1 newAddr w) root) page =
      lookup (VMem.replacePageEntry (toTable m root) va newAddr w) page := by
  have hpage' := page_lt_userPages hva
  rw [lookup_toTable, lookup_replacePageEntry hpage' hpage, lookup_toTable,
    replacePageEntry_eq h hva]
  by_cases heq : page = va / pageSize
  · subst heq
    cases hf : walk numPtEntries child 3 m root (va / pageSize) 3 with
    | none => simp only [if_true, hf, bind_none, map_none]
    | some f =>
      by_cases hvalid : m f (digit numPtEntries (va / pageSize) 0) &&& 0b1 = 0
      · have hinvalid : (decodePte (m f (digit numPtEntries (va / pageSize) 0))).valid = false := by
          simp [decodePte, hvalid]
        simp [hf, hvalid, hinvalid]
      · simp only [if_neg hvalid, if_true, h.tree.writeLeaf hf _ le_rfl, hf, bind_some,
          write_self, decodePte_replacedEntry _ hnew w]
        split <;> rfl
  · rw [if_neg heq]
    cases hf : walk numPtEntries child 3 m root (va / pageSize) 3 with
    | none => rfl
    | some f =>
      simp only
      split
      · rfl
      · exact h.read_writeLeaf hpage' hpage heq hf _ fun e ↦
          if (decodePte e).valid then some (decodePte e) else none

end Call

/-! ## Several address spaces -/

/-- The tables of several processes in one memory. -/
structure Spaces (m : Memory) (roots : Set ℕ) : Prop where
  shape : ∀ r ∈ roots, TreeShaped m r
  apart : ∀ r ∈ roots, ∀ r' ∈ roots, ∀ f, Visited numPtEntries child 3 m r f →
    Visited numPtEntries child 3 m r' f → r = r'

/-- A call of `replace_page_entry` while `ttbr0_el1` is the page `root`. -/
structure Replacement where
  root : ℕ
  virtualAddr : ℕ
  newAddr : ℕ
  wPermission : Bool

namespace Replacement

/-- The call in memory. -/
def run (ttbr1 : ℕ) (m : Memory) (c : Replacement) : Memory :=
  replacePageEntry m c.virtualAddr (c.root * pageSize) ttbr1 c.newAddr c.wPermission

/-- The call on the table of the process. -/
def replace (t : PageTable) (c : Replacement) : PageTable :=
  VMem.replacePageEntry t c.virtualAddr c.newAddr c.wPermission

end Replacement

variable {roots : Set ℕ} {c : Replacement}

/-- A call keeps the tables apart, and the table of another process as it is. -/
theorem Spaces.run (h : Spaces m roots) (hc : c.root ∈ roots) (hva : c.virtualAddr < 2 ^ 48)
    (ttbr1 : ℕ) : Spaces (c.run ttbr1 m) roots ∧ ∀ r ∈ roots, r ≠ c.root →
      ∀ page, lookup (toTable (c.run ttbr1 m) r) page = lookup (toTable m r) page := by
  rw [Replacement.run, replacePageEntry_eq (h.shape _ hc) hva]
  cases hf : walk numPtEntries child 3 m c.root (c.virtualAddr / pageSize) 3 with
  | none => exact ⟨h, fun _ _ _ _ ↦ rfl⟩
  | some f =>
    dsimp only
    split
    · exact ⟨h, fun _ _ _ _ ↦ rfl⟩
    set m' := write m f _ _
    -- The page is on the last level of its own tree, and in no other.
    have hkept {r : ℕ} (hr : r ∈ roots) {d : ℕ} (hd : d ≤ 3) (hother : r = c.root → d < 3)
        {page x : ℕ} (hx : walk numPtEntries child 3 m r page d = some x) : m' x = m x := by
      refine funext fun i ↦ write_of_ne _ _ (.inl ?_)
      rintro rfl
      obtain rfl := h.apart r hr _ hc x ⟨d, hd, page, hx⟩ ⟨3, le_rfl, _, hf⟩
      exact (hother rfl).ne ((h.shape _ hc).tree d 3 hd le_rfl _ _ x hx hf).1
    have hwalk {r : ℕ} (hr : r ∈ roots) (d : ℕ) (hd : d ≤ 3) (page : ℕ) :
        walk numPtEntries child 3 m' r page d = walk numPtEntries child 3 m r page d :=
      walk_of_child fun k hk x hx ↦ by rw [hkept hr (hk.le.trans hd) (fun _ ↦ hk.trans_le hd) hx]
    refine ⟨⟨fun r hr ↦ ?_, fun r hr r' hr' x ⟨d, hd, page, hx⟩ ⟨d', hd', page', hx'⟩ ↦ ?_⟩,
      fun r hr hne page ↦ ?_⟩
    · have hshape := h.shape r hr
      refine ⟨hshape.root_lt, hshape.tree.of_walk_eq (hwalk hr), fun d hd page x i hx ↦ ?_⟩
      rw [hwalk hr d hd.le] at hx
      rw [hkept hr hd.le (fun _ ↦ hd) hx]
      exact hshape.tables d hd page x i hx
    · rw [hwalk hr d hd] at hx
      rw [hwalk hr' d' hd'] at hx'
      exact h.apart r hr r' hr' x ⟨d, hd, page, hx⟩ ⟨d', hd', page', hx'⟩
    · rw [lookup_toTable, lookup_toTable, hwalk hr 3 le_rfl]
      cases hx : walk numPtEntries child 3 m r page 3 with
      | none => rfl
      | some x => rw [bind_some, bind_some, hkept hr le_rfl (absurd · hne) hx]

/-- A run of calls keeps the tables apart and changes the table of each process by its own calls. -/
theorem Spaces.runs (h : Spaces m roots) {calls : List Replacement}
    (hcalls : ∀ c ∈ calls, c.root ∈ roots ∧ c.virtualAddr < 2 ^ 48 ∧ c.newAddr < 2 ^ 48)
    (hroot : root ∈ roots) (ttbr1 : ℕ) : Spaces (calls.foldl (Replacement.run ttbr1) m) roots ∧
      ∀ page < userPages, lookup (toTable (calls.foldl (Replacement.run ttbr1) m) root) page =
        lookup ((calls.filter (·.root = root)).foldl Replacement.replace (toTable m root))
          page := by
  induction calls using List.reverseRecOn with
  | nil => exact ⟨h, fun _ _ ↦ rfl⟩
  | append_singleton calls c ih =>
    obtain ⟨hspaces, hlookup⟩ := ih fun c hc ↦ hcalls c (List.mem_append_left _ hc)
    obtain ⟨hc, hva, hnew⟩ := hcalls c (by simp)
    obtain ⟨hspaces', hother⟩ := hspaces.run hc hva ttbr1
    rw [List.foldl_append, List.filter_append, List.foldl_append]
    refine ⟨hspaces', fun page hpage ↦ ?_⟩
    by_cases hown : c.root = root
    · have hva' := page_lt_userPages hva
      rw [List.filter_cons_of_pos (by simpa using hown), ← hown]
      refine (lookup_toTable_replacePageEntry (hspaces.shape _ hc) hva hnew ttbr1 hpage).trans ?_
      rw [hown, lookup_replacePageEntry hva' hpage, hlookup page hpage]
      exact (lookup_replacePageEntry hva' hpage).symm
    · rw [List.filter_cons_of_neg (by simpa using hown)]
      exact (hother root hroot (Ne.symm hown) page).trans (hlookup page hpage)

/-- In whatever order the processes replace pages, their tables stay trees without a common page,
each has the descriptors of its own table with its own replacements, and the walker translates its
addresses so. -/
theorem replacements_isolated (h : Spaces m roots) (calls : List Replacement)
    (hcalls : ∀ c ∈ calls, c.root ∈ roots ∧ c.virtualAddr < 2 ^ 48 ∧ c.newAddr < 2 ^ 48)
    (hroot : root ∈ roots) (ttbr1 : ℕ) :
    let m' := calls.foldl (Replacement.run ttbr1) m
    let t' := (calls.filter (·.root = root)).foldl Replacement.replace (toTable m root)
    Spaces m' roots ∧ (∀ page < userPages, lookup (toTable m' root) page = lookup t' page) ∧
      ∀ va < 2 ^ 48, v2pTrans m' va (root * pageSize) ttbr1 = VMem.v2pTrans t' va := by
  obtain ⟨hspaces, hlookup⟩ := h.runs hcalls hroot ttbr1
  refine ⟨hspaces, hlookup, fun va hva ↦ ?_⟩
  rw [v2pTrans_toTable (hspaces.shape root hroot) hva, VMem.v2pTrans,
    hlookup _ (page_lt_userPages hva)]
  rfl

/-- Each process maps its first page. -/
def chains : Memory := fun f i ↦ if i = 0 then (f + 1) * pageSize ||| pdTable else 0

theorem walk_chains {r d f page : ℕ} (hr : r < 2 ^ 35) (hd : d ≤ 3)
    (h : walk numPtEntries child 3 chains r page d = some f) :
    f = r + d ∧ ∀ k < d, digit numPtEntries page (3 - k) = 0 := by
  induction d generalizing f with
  | zero => exact ⟨(some.inj h).symm, nofun⟩
  | succ d ih =>
    obtain ⟨g, hg, hchild⟩ := bind_eq_some_iff.1 h
    obtain ⟨rfl, hzero⟩ := ih (by omega) hg
    unfold chains at hchild
    split at hchild
    · next hdigit =>
      rw [(table_entry (by omega : r + d + 1 < _)).1] at hchild
      exact ⟨(some.inj hchild).symm, Nat.forall_lt_succ_right.2 ⟨hzero, hdigit⟩⟩
    · cases hchild

theorem spaces_chains : Spaces chains {r | r % 4 = 1 ∧ r < 2 ^ 35} where
  shape r hr := by
    obtain ⟨-, hr⟩ := hr
    refine ⟨by omega, fun d d' hd hd' key key' f hf hf' ↦ ?_, fun d hd page f i hf hvalid ↦ ?_⟩
    · obtain ⟨rfl, hzero⟩ := walk_chains hr hd hf
      obtain ⟨heq, hzero'⟩ := walk_chains hr hd' hf'
      obtain rfl : d = d' := by omega
      exact ⟨rfl, fun k hk ↦ (hzero k hk).trans (hzero' k hk).symm⟩
    · obtain ⟨rfl, -⟩ := walk_chains hr hd.le hf
      unfold chains at hvalid ⊢
      split at hvalid
      · next hi =>
        rw [if_pos hi]
        exact (table_entry (by omega)).2
      · exact absurd rfl hvalid
  apart := by
    rintro r ⟨hmod, hr⟩ r' ⟨hmod', hr'⟩ f ⟨d, hd, page, hf⟩ ⟨d', hd', page', hf'⟩
    obtain ⟨rfl, -⟩ := walk_chains hr hd hf
    obtain ⟨heq, -⟩ := walk_chains hr' hd' hf'
    omega

/-- Two processes replace their first page. -/
theorem replacements_isolated_two : Spaces chains {r | r % 4 = 1 ∧ r < 2 ^ 35} ∧
    v2pTrans ([⟨1, 5, 0x200000, true⟩, ⟨9, 7, 0x300000, true⟩, ⟨1, 0, 0x400000, false⟩].foldl
      (Replacement.run 0) chains) 9 (9 * pageSize) 0 = 0x300009 :=
  ⟨spaces_chains, ((replacements_isolated spaces_chains _ (by simp) (by simp) 0).2.2 9
    (by decide)).trans (by decide +kernel)⟩

end CapstoneKernel.VMem.Words
