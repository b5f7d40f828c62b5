import CapstoneKernel.VMem.ForkTables

/-!
# The address spaces after `page_table_fork`

Both trees of tables translate every user address as the source did, and their leaves below
`usable_memory[1]` are read-only.  The pages that were writable are marked, so that a write can give
the permission back.
-/

namespace CapstoneKernel.VMem.Words

open RadixTable TableWalk Mem Option

variable {malloc : ℕ → ℕ} {usableEnd : ℕ}

/-! ## Address spaces -/

/-- A four-level user table: a tree, with tables above the last level, pages other than page 0 in
it, and invalid entries without an address. -/
structure UserTable (m : Memory) (root : ℕ) : Prop extends TableWalks m root where
  tree : IsTree numPtEntries child 3 m root
  leaves : ∀ page f, walk numPtEntries child 3 m root page 3 = some f →
    m f (digit numPtEntries page 0) &&& 0b1 ≠ 0 →
    m f (digit numPtEntries page 0) &&& tableAddrMask ≠ 0
  blank : ∀ page, ∀ d ≤ 3, ∀ f, walk numPtEntries child 3 m root page d = some f →
    BlankEntry (m f (digit numPtEntries page (3 - d)))

/-- A call of `page_table_fork` on the `PGD` of a user table, while `malloc` returns fresh pages. -/
structure ForkCall (malloc : ℕ → ℕ) (usableEnd : ℕ) (m : Memory) (wPermission : ℕ → Bool)
    (dst src : ℕ) : Prop where
  source : UserTable m src
  copy_lt : dst < 2 ^ 36
  copy_fresh : ¬ Visited numPtEntries child 3 m src dst
  pages : PageSource malloc (pageTableFork malloc usableEnd 3 (dst * pageSize) (src * pageSize)
    ⟨m, wPermission, 0⟩).mallocs
  fresh : ∀ n < (pageTableFork malloc usableEnd 3 (dst * pageSize) (src * pageSize)
    ⟨m, wPermission, 0⟩).mallocs,
      pageOf (malloc n) ≠ dst ∧ ¬ Visited numPtEntries child 3 m src (pageOf (malloc n))

/-- The entry of the last level maps an address to the page. -/
def LeafOf (m : Memory) (root page entry : ℕ) : Prop :=
  ∃ va < 2 ^ 48, ∃ level offsetMask, walkTable m va (root * pageSize) =
    some (level, entry, offsetMask) ∧ entry &&& tableAddrMask = page * pageSize

/-- The address space of `src` is shared with `dst`. -/
structure SpaceForked (usableEnd ttbr1 : ℕ) (m m' : Memory) (wPermission wPermission' : ℕ → Bool)
    (dst src : ℕ) : Prop where
  translation : ∀ va < 2 ^ 48,
    v2pTrans m' va (dst * pageSize) ttbr1 = v2pTrans m va (src * pageSize) ttbr1 ∧
    v2pTrans m' va (src * pageSize) ttbr1 = v2pTrans m va (src * pageSize) ttbr1
  below : ∀ va level entry offsetMask,
    walkTable m va (src * pageSize) = some (level, entry, offsetMask) →
    entry &&& tableAddrMask < usableEnd → ∃ entry',
      walkTable m' va (dst * pageSize) = some (level, entry', offsetMask) ∧
      walkTable m' va (src * pageSize) = some (level, entry', offsetMask) ∧
      entry' &&& pdRdonly ≠ 0 ∧ entry' &&& otherAttributes = entry &&& otherAttributes
  above : ∀ va level entry offsetMask,
    walkTable m va (src * pageSize) = some (level, entry, offsetMask) →
    usableEnd ≤ entry &&& tableAddrMask →
      walkTable m' va (dst * pageSize) = some (level, entry, offsetMask) ∧
      walkTable m' va (src * pageSize) = some (level, entry, offsetMask)
  writable : ∀ page, (∃ entry, LeafOf m src page entry) → page * pageSize < usableEnd →
    ((∃ entry, LeafOf m src page entry ∧ entry &&& pdRdonly = 0) → wPermission' page = true) ∧
    ((∀ entry, LeafOf m src page entry → entry &&& pdRdonly ≠ 0) →
      wPermission' page = wPermission page)
  disjoint : ∀ x, Visited numPtEntries child 3 m' dst x →
    ¬ Visited numPtEntries child 3 m src x ∧ ¬ Visited numPtEntries child 3 m' src x

section Space

variable {m : Memory} {wPermission : ℕ → Bool} {dst src : ℕ}

theorem UserTable.blankOn (h : UserTable m src) : BlankOn 3 m src (· < numPtEntries) :=
  fun d hd _ ⟨page, f, _, hf, he⟩ ↦ he ▸ h.blank page d hd f hf

namespace ForkCall

variable (h : ForkCall malloc usableEnd m wPermission dst src)

include h in
theorem copyPages : CopyPages numPtEntries child 3 m src dst (newPages malloc 0
    (pageTableFork malloc usableEnd 3 (dst * pageSize) (src * pageSize)
      ⟨m, wPermission, 0⟩).mallocs) := by
  refine ⟨h.source.tree, h.copy_fresh, ?_, ?_⟩
  · rintro ⟨n, ⟨-, hn⟩, heq⟩
    exact (h.fresh n hn).1 heq
  · rintro x ⟨n, ⟨-, hn⟩, rfl⟩
    exact (h.fresh n hn).2

include h in
theorem forked : Forked malloc usableEnd 3 ⟨m, wPermission, 0⟩
    (pageTableFork malloc usableEnd 3 (dst * pageSize) (src * pageSize) ⟨m, wPermission, 0⟩) src dst
    (· < numPtEntries) :=
  pageTableFork_forked h.pages h.copy_lt h.source.root_lt h.copyPages h.source.blankOn le_rfl

end ForkCall

variable {s' : Forking} (hsource : UserTable m src)
  (hcopied : CopiedOn numPtEntries child (protectWord usableEnd) linkWord 3 m s'.mem src dst
    (· < numPtEntries) (newPages malloc 0 s'.mallocs))
  (hpages : CopyPages numPtEntries child 3 m src dst (newPages malloc 0 s'.mallocs))

include hcopied hpages in
theorem walk_forked {d : ℕ} (hd : d ≤ 3) (page : ℕ) :
    walk numPtEntries child 3 s'.mem src page d = walk numPtEntries child 3 m src page d :=
  hcopied.walk_source hpages (child_protectWord usableEnd) hd page

/-- What becomes of an entry of a level, in the source or in the copy. -/
inductive EntryForked (usableEnd : ℕ) : ℕ → ℕ → ℕ → Prop
  | kept {level e : ℕ} : EntryForked usableEnd (level + 1) e e
  | linked {level e : ℕ} (c : ℕ) : EntryForked usableEnd (level + 1) e (linkWord c)
  | leaf {level e : ℕ} (hleaf : level = 0 ∨ child e = none) :
      EntryForked usableEnd level e (protectWord usableEnd e)

theorem entryForked {level e source copy : ℕ}
    (h : EntryCopied child (protectWord usableEnd) linkWord level e source copy) :
    EntryForked usableEnd level e source ∧ EntryForked usableEnd level e copy := by
  cases h with
  | table _ c => exact ⟨.kept, .linked c⟩
  | leaf hleaf => exact ⟨.leaf hleaf, .leaf hleaf⟩

namespace EntryForked

variable {level e e' : ℕ}

/-- The entries are those of tables where they lead on. -/
theorem table (h : EntryForked usableEnd level e e') (hlevel : level ≠ 0)
    (htable : e &&& 0b1 ≠ 0 → e &&& 0b10 ≠ 0) : e' &&& 0b1 ≠ 0 → e' &&& 0b10 ≠ 0 := by
  cases h with
  | kept => exact htable
  | linked c => exact fun _ ↦ or_and_ne_zero (by decide)
  | leaf hnone =>
    exact absurd (child_eq_none.1 (child_protectWord usableEnd e (hnone.resolve_left hlevel)))

theorem blank (h : EntryForked usableEnd level e e') (hblank : BlankEntry e) : BlankEntry e' := by
  cases h with
  | kept => exact hblank
  | linked c => exact fun hinvalid ↦ absurd hinvalid (or_and_ne_zero (by decide))
  | leaf =>
    intro hinvalid
    rw [protectWord_and (by decide)] at hinvalid
    unfold protectWord
    rcases hblank hinvalid with rfl | rfl
    · split
      · exact .inr rfl
      · exact .inl rfl
    · exact .inr (ite_self _)

theorem eq_of_zero (h : EntryForked usableEnd 0 e e') : e' = protectWord usableEnd e := by
  cases h with
  | leaf => rfl

end EntryForked

/-- The tables of `root` have the shape of those of `src` before the fork, with its entries as they
are after it. -/
structure Mirrors (usableEnd : ℕ) (m m' : Memory) (src root : ℕ) : Prop where
  root_lt : root < 2 ^ 36
  tree : IsTree numPtEntries child 3 m' root
  back : ∀ page, ∀ d ≤ 3, ∀ y, walk numPtEntries child 3 m' root page d = some y →
    ∃ f, walk numPtEntries child 3 m src page d = some f
  entries : ∀ page, ∀ d ≤ 3, ∀ f, walk numPtEntries child 3 m src page d = some f →
    ∃ y, walk numPtEntries child 3 m' root page d = some y ∧ EntryForked usableEnd (3 - d)
      (m f (digit numPtEntries page (3 - d))) (m' y (digit numPtEntries page (3 - d)))

include hsource hcopied hpages in
theorem mirrors_forked (hdst : dst < 2 ^ 36) :
    Mirrors usableEnd m s'.mem src src ∧ Mirrors usableEnd m s'.mem src dst := by
  have hentry (page : ℕ) := hcopied.entries page (digit_lt page 3)
  have hwalk (d : ℕ) (hd : d ≤ 3) (page : ℕ) := walk_forked hcopied hpages hd page
  refine ⟨⟨hsource.root_lt, hsource.tree.of_walk_eq hwalk,
      fun page d hd y hy ↦ ⟨y, (hwalk d hd page).symm.trans hy⟩,
      fun page d hd f hf ↦
        let ⟨_, _, hcopy⟩ := hentry page d hd f hf
        ⟨f, (hwalk d hd page).trans hf, (entryForked hcopy).1⟩⟩,
    ⟨hdst, hcopied.isTree hpages (digit_lt · 3), fun page d hd y hy ↦ ?_,
      fun page d hd f hf ↦ let ⟨y, hy, hcopy⟩ := hentry page d hd f hf
        ⟨y, hy, (entryForked hcopy).2⟩⟩⟩
  exact hcopied.source_of_copy (child_protectWord usableEnd) (digit_lt page 3) hd hy

namespace Mirrors

variable {m' : Memory} {root : ℕ} (h : Mirrors usableEnd m m' src root)

include h

theorem entry {page d y : ℕ} (hd : d ≤ 3) (hy : walk numPtEntries child 3 m' root page d = some y) :
    ∃ f, walk numPtEntries child 3 m src page d = some f ∧ EntryForked usableEnd (3 - d)
      (m f (digit numPtEntries page (3 - d))) (m' y (digit numPtEntries page (3 - d))) := by
  obtain ⟨f, hf⟩ := h.back page d hd y hy
  obtain ⟨y', hy', hentry⟩ := h.entries page d hd f hf
  obtain rfl := mem_unique hy' hy
  exact ⟨f, hf, hentry⟩

theorem userTable (hsource : UserTable m src) : UserTable m' root := by
  refine ⟨⟨h.root_lt, fun page d hd y hy ↦ ?_⟩, h.tree, fun page y hy hvalid ↦ ?_,
    fun page d hd y hy ↦ ?_⟩
  · obtain ⟨f, hf, hentry⟩ := h.entry hd.le hy
    exact hentry.table (by omega) (hsource.tables page d hd f hf)
  · obtain ⟨f, hf, hentry⟩ := h.entry le_rfl hy
    rw [hentry.eq_of_zero, protectWord_and (by decide)] at hvalid ⊢
    exact hsource.leaves page f hf hvalid
  · obtain ⟨f, hf, hentry⟩ := h.entry hd hy
    exact hentry.blank (hsource.blank page d hd f hf)

theorem read {Result : Type} (page : ℕ) (read : ℕ → Option Result) :
    ((walk numPtEntries child 3 m' root page 3).bind fun x ↦
        read (m' x (digit numPtEntries page 0))) =
      (walk numPtEntries child 3 m src page 3).bind fun x ↦
        read (protectWord usableEnd (m x (digit numPtEntries page 0))) := by
  cases hx : walk numPtEntries child 3 m src page 3 with
  | none =>
    cases hy : walk numPtEntries child 3 m' root page 3 with
    | none => rfl
    | some y =>
      obtain ⟨x, hx'⟩ := h.back page 3 le_rfl y hy
      exact absurd (hx.symm.trans hx') nofun
  | some x =>
    obtain ⟨y, hy, hentry⟩ := h.entries page 3 le_rfl x hx
    rw [hy, bind_some, bind_some, hentry.eq_of_zero]

/-- The walker ends where it ended before, at the protected entry. -/
theorem walkTable (hsource : UserTable m src) (va : ℕ) :
    walkTable m' va (root * pageSize) = (walkTable m va (src * pageSize)).map
      fun found ↦ (found.1, protectWord usableEnd found.2.1, found.2.2) := by
  rw [walkTable_eq (h.userTable hsource).toTableWalks, walkTable_eq hsource.toTableWalks]
  refine (h.read (va / pageSize) fun e ↦ if e &&& 0b1 = 0 then none else some (3, e, 0xfff)).trans ?_
  cases walk numPtEntries child 3 m src (va / pageSize) 3 with
  | none => rfl
  | some x =>
    rw [bind_some, bind_some, lastRound, protectWord_and (by decide)]
    split <;> rfl

end Mirrors

variable {x page entry : ℕ}

/-- A leaf that a walk in the tables ends at is one for a user address. -/
theorem leafOf_of_walk (hsource : UserTable m src) {key : ℕ}
    (hx : walk numPtEntries child 3 m src key 3 = some x)
    (hvalid : m x (digit numPtEntries key 0) &&& 0b1 ≠ 0)
    (hpage : m x (digit numPtEntries key 0) / pageSize % 2 ^ 36 = page) :
    LeafOf m src page (m x (digit numPtEntries key 0)) := by
  have hdigit : digit numPtEntries (splice numPtEntries 3 0 key) 0 = digit numPtEntries key 0 :=
    digit_splice_of_le (Nat.zero_le 3) 0 key
  have hlt : splice numPtEntries 3 0 key < 2 ^ 36 := by
    rw [splice, Nat.zero_mul, Nat.zero_add]
    exact Nat.mod_lt _ (by decide)
  have hva : splice numPtEntries 3 0 key * pageSize / pageSize = splice numPtEntries 3 0 key :=
    Nat.mul_div_cancel _ (by decide)
  have hx' : walk numPtEntries child 3 m src (splice numPtEntries 3 0 key) 3 = some x := by
    rw [walk_congr (sharesPath_splice 3 key), hx]
  refine ⟨splice numPtEntries 3 0 key * pageSize, ?_, 3, 0xfff, ?_, ?_⟩
  · unfold pageSize
    omega
  · rw [walkTable_eq hsource.toTableWalks, hva, hx', bind_some, lastRound, hdigit, if_neg hvalid]
  · rw [and_tableAddrMask, hpage]

theorem LeafOf.walk (hsource : UserTable m src) (h : LeafOf m src page entry) :
    entry &&& 0b1 ≠ 0 ∧ entry / pageSize % 2 ^ 36 = page ∧ page ≠ 0 ∧
      ∃ key x, walk numPtEntries child 3 m src key 3 = some x ∧
        m x (digit numPtEntries key 0) = entry := by
  obtain ⟨va, -, level, offsetMask, hwalk, hpage⟩ := h
  rw [walkTable_eq hsource.toTableWalks, bind_eq_some_iff] at hwalk
  obtain ⟨x, hx, hlast⟩ := hwalk
  unfold lastRound at hlast
  split at hlast
  · cases hlast
  · next hvalid =>
    rw [some.injEq, Prod.mk.injEq, Prod.mk.injEq] at hlast
    obtain ⟨-, rfl, -⟩ := hlast
    have hframe := hsource.leaves _ x hx hvalid
    rw [and_tableAddrMask] at hpage hframe
    unfold pageSize at *
    exact ⟨hvalid, by omega, by omega, _, x, hx, rfl⟩

include hpages hcopied in
theorem disjoint_forked (hx : Visited numPtEntries child 3 s'.mem dst x) :
    ¬ Visited numPtEntries child 3 m src x ∧ ¬ Visited numPtEntries child 3 s'.mem src x := by
  have hold : ¬ Visited numPtEntries child 3 m src x := by
    obtain ⟨d, hd, page, hpage⟩ := hx
    cases d with
    | zero => exact some.inj hpage ▸ hpages.copy
    | succ d => exact hpages.fresh x (hcopied.copies page (digit_lt page 3) d hd x hpage)
  refine ⟨hold, fun hx' ↦ hold ?_⟩
  obtain ⟨d, hd, page, hpage⟩ := hx'
  exact ⟨d, hd, page, (walk_forked hcopied hpages hd page).symm.trans hpage⟩

/-- The pages that become writable on demand. -/
theorem Forked.wPermission_leaf (h : Forked malloc usableEnd 3 ⟨m, wPermission, 0⟩ s' src dst
      (· < numPtEntries)) (hsource : UserTable m src) (hmapped : LeafOf m src page entry)
    (hbelow : page * pageSize < usableEnd) :
    s'.wPermission page = true ↔ wPermission page = true ∨
      ∃ entry, LeafOf m src page entry ∧ entry &&& pdRdonly = 0 := by
  obtain ⟨-, -, hpage, -⟩ := hmapped.walk hsource
  rw [h.writable page hpage]
  refine or_congr_right ⟨?_, ?_⟩
  · rintro ⟨_, ⟨key, x, -, hx, rfl⟩, hvalid, hframe, -, hwritable⟩
    exact ⟨_, leafOf_of_walk hsource hx hvalid hframe, hwritable⟩
  · rintro ⟨entry, hleaf, hwritable⟩
    obtain ⟨hvalid, hframe, -, key, x, hx, rfl⟩ := hleaf.walk hsource
    exact ⟨_, ⟨key, x, digit_lt key 3, hx, rfl⟩, hvalid, hframe, hbelow, hwritable⟩

/-- `page_table_fork` makes a copy of the address space that shares its pages read-only. -/
theorem pageTableFork_copies (h : ForkCall malloc usableEnd m wPermission dst src) (ttbr1 : ℕ) :
    SpaceForked usableEnd ttbr1 m
      (pageTableFork malloc usableEnd 3 (dst * pageSize) (src * pageSize) ⟨m, wPermission, 0⟩).mem
      wPermission
      (pageTableFork malloc usableEnd 3 (dst * pageSize) (src * pageSize)
        ⟨m, wPermission, 0⟩).wPermission dst src := by
  have hforked := h.forked
  have hpages := h.copyPages
  set s' := pageTableFork malloc usableEnd 3 (dst * pageSize) (src * pageSize) ⟨m, wPermission, 0⟩
  obtain ⟨hsrc, hdst⟩ := mirrors_forked h.source hforked.copied hpages h.copy_lt
  have hsrc := hsrc.walkTable h.source
  have hdst := hdst.walkTable h.source
  refine ⟨fun va hva ↦ ?_, fun va level entry offsetMask hentry hbelow ↦ ?_,
    fun va level entry offsetMask hentry habove ↦ ?_, fun page hmapped hbelow ↦ ?_,
    fun x hx ↦ disjoint_forked hforked.copied hpages hx⟩
  · simp only [v2pTrans, if_neg (not_kernel_half hva), hsrc va, hdst va]
    cases walkTable m va (src * pageSize) with
    | none => exact ⟨rfl, rfl⟩
    | some found =>
      have haddr : protectWord usableEnd found.2.1 &&& tableAddrMask = _ :=
        protectWord_and (by decide) found.2.1
      simp only [map_some, haddr, and_self]
  · specialize hsrc va
    specialize hdst va
    rw [hentry, map_some] at hsrc hdst
    refine ⟨_, hdst, hsrc, ?_, protectWord_and (by decide) entry⟩
    rw [protectWord, if_pos hbelow]
    exact or_and_ne_zero (by decide)
  · specialize hsrc va
    specialize hdst va
    have hsame : protectWord usableEnd entry = entry := if_neg (Nat.not_lt.2 habove)
    rw [hentry, map_some, hsame] at hsrc hdst
    exact ⟨hdst, hsrc⟩
  · obtain ⟨entry, hmapped⟩ := hmapped
    have hiff := hforked.wPermission_leaf h.source hmapped hbelow
    refine ⟨fun hleaf ↦ hiff.2 (.inr hleaf), fun hnone ↦ Bool.eq_iff_iff.2 ?_⟩
    rw [hiff]
    refine or_iff_left ?_
    rintro ⟨entry, hleaf, hwritable⟩
    exact hnone entry hleaf hwritable

end Space

/-! ## A chain of tables -/

/-- Tables in the pages 1 to 4, with a writable page, a read-only page and an entry that a fork has
left without a page. -/
def chainMemory : Memory := fun f i ↦
  if f < 4 ∧ i = 0 then linkWord (f + 1)
  else if f = 4 ∧ i = 0 then 0x80000 ||| pdUserAccess ||| pdPage
  else if f = 4 ∧ i = 1 then 0x81000 ||| pdUserAccess ||| pdRdonly ||| pdPage
  else if f = 4 ∧ i = 2 then pdRdonly
  else 0

theorem chainMemory_table {f : ℕ} (hf : f < 4) (i : ℕ) :
    chainMemory f i = if i = 0 then linkWord (f + 1) else 0 := by
  unfold chainMemory
  have hne : f ≠ 4 := by omega
  simp only [hf, true_and, hne, false_and, if_false]

/-- The walks go down the chain while the index is 0. -/
theorem walk_chainMemory {page d x : ℕ} (hd : d ≤ 3)
    (hx : walk numPtEntries child 3 chainMemory 1 page d = some x) :
    x = d + 1 ∧ ∀ k < d, digit numPtEntries page (3 - k) = 0 := by
  induction d generalizing x with
  | zero => exact ⟨(some.inj hx).symm, fun k hk ↦ absurd hk (Nat.not_lt_zero k)⟩
  | succ d ih =>
    obtain ⟨y, hy, hchild⟩ := bind_eq_some_iff.1 hx
    obtain ⟨rfl, hdigits⟩ := ih (by omega) hy
    rw [chainMemory_table (by omega)] at hchild
    split at hchild
    · next hdigit =>
      have hlink := (table_entry (by omega : d + 1 + 1 < 2 ^ 36)).1
      refine ⟨mem_unique hchild hlink, fun k hk ↦ ?_⟩
      rcases Nat.lt_succ_iff_lt_or_eq.1 hk with hk | rfl
      · exact hdigits k hk
      · exact hdigit
    · cases hchild

theorem userTable_chainMemory : UserTable chainMemory 1 := by
  have hleaf (i : ℕ) : (chainMemory 4 i &&& 0b1 ≠ 0 → chainMemory 4 i &&& tableAddrMask ≠ 0) ∧
      BlankEntry (chainMemory 4 i) := by
    unfold chainMemory BlankEntry
    match i with
    | 0 | 1 | 2 => decide
    | i + 3 => simp
  have htable {f : ℕ} (hf : f < 4) (i : ℕ) :
      (chainMemory f i &&& 0b1 ≠ 0 → chainMemory f i &&& 0b10 ≠ 0) ∧
        BlankEntry (chainMemory f i) := by
    rw [chainMemory_table hf]
    split
    · exact ⟨fun _ ↦ or_and_ne_zero (by decide),
        fun hinvalid ↦ absurd hinvalid (or_and_ne_zero (by decide))⟩
    · exact ⟨fun hvalid ↦ absurd rfl hvalid, fun _ ↦ .inl rfl⟩
  refine ⟨⟨by decide, fun page d hd f hf ↦ ?_⟩, fun d d' hd hd' page page' x hx hx' ↦ ?_,
    fun page f hf ↦ ?_, fun page d hd f hf ↦ ?_⟩
  · obtain ⟨rfl, -⟩ := walk_chainMemory hd.le hf
    exact (htable (by omega) _).1
  · obtain ⟨rfl, hdigits⟩ := walk_chainMemory hd hx
    obtain ⟨heq, hdigits'⟩ := walk_chainMemory hd' hx'
    obtain rfl : d = d' := by omega
    exact ⟨rfl, fun k hk ↦ (hdigits k hk).trans (hdigits' k hk).symm⟩
  · obtain ⟨rfl, -⟩ := walk_chainMemory le_rfl hf
    exact (hleaf _).1
  · obtain ⟨rfl, -⟩ := walk_chainMemory hd hf
    rcases Nat.lt_or_ge d 3 with hlt | hge
    · exact (htable (by omega) _).2
    · obtain rfl : d = 3 := by omega
      exact (hleaf _).2

theorem forkCall_chainMemory (usableEnd : ℕ) (wPermission : ℕ → Bool) :
    ForkCall (fun n ↦ nextPage (n + 4)) usableEnd chainMemory wPermission 5 1 := by
  have hcalls := (@pageTableFork_calls (fun n ↦ nextPage (n + 4)) usableEnd 3 (5 * pageSize)
    (1 * pageSize) ⟨chainMemory, wPermission, 0⟩).2
  set calls := (pageTableFork (fun n ↦ nextPage (n + 4)) usableEnd 3 (5 * pageSize) (1 * pageSize)
    ⟨chainMemory, wPermission, 0⟩).mallocs
  have hbound : calls < 2 ^ 35 := by
    have hmax : 0 + maxTables 3 < 2 ^ 35 := by decide
    exact hcalls.trans_lt hmax
  have hpage (n : ℕ) (hn : n < calls) : pageOf (nextPage (n + 4)) = n + 6 :=
    pageOf_nextPage (by omega)
  have hfresh (x : ℕ) (hx : 5 ≤ x) : ¬ Visited numPtEntries child 3 chainMemory 1 x := by
    rintro ⟨d, hd, page, hwalk⟩
    have := (walk_chainMemory hd hwalk).1
    omega
  refine ⟨userTable_chainMemory, by decide, hfresh 5 le_rfl, pageSource_nextPage (by omega),
    fun n hn ↦ ?_⟩
  rw [hpage n hn]
  exact ⟨by omega, hfresh _ (by omega)⟩

/-- The fork of the chain. -/
theorem pageTableFork_copies_chain :
    SpaceForked 0x3c000000 0 chainMemory
      (pageTableFork (fun n ↦ nextPage (n + 4)) 0x3c000000 3 (5 * pageSize) (1 * pageSize)
        ⟨chainMemory, fun _ ↦ false, 0⟩).mem (fun _ ↦ false)
      (pageTableFork (fun n ↦ nextPage (n + 4)) 0x3c000000 3 (5 * pageSize) (1 * pageSize)
        ⟨chainMemory, fun _ ↦ false, 0⟩).wPermission 5 1 :=
  pageTableFork_copies (forkCall_chainMemory 0x3c000000 fun _ ↦ false) 0

/-! ## The contents -/

section Contents

variable {m : Memory} {wPermission : ℕ → Bool} {dst src : ℕ}

theorem decodePte_protectWord (usableEnd entry : ℕ) :
    decodePte (protectWord usableEnd entry) = protect usableEnd (decodePte entry) := by
  have hbits (bits : ℕ) (h : pdRdonly &&& bits = 0 := by decide) :
      protectWord usableEnd entry &&& bits = entry &&& bits := protectWord_and h entry
  have hframe : protectWord usableEnd entry / pageSize % 2 ^ 36 = entry / pageSize % 2 ^ 36 := by
    have haddr := hbits tableAddrMask
    rw [and_tableAddrMask, and_tableAddrMask] at haddr
    unfold pageSize at *
    omega
  have hset : (entry ||| pdRdonly) &&& (1 <<< 7) ≠ 0 := or_and_ne_zero (by decide)
  unfold decodePte protect
  rw [hbits 0b1, hbits (1 <<< 54), hbits (1 <<< 6), hbits (1 <<< 10), hbits (0b111 <<< 2), hframe]
  by_cases hbelow : entry / pageSize % 2 ^ 36 * pageSize < usableEnd
  · rw [if_pos hbelow, protectWord, if_pos (by rw [and_tableAddrMask]; exact hbelow),
      bne_iff_ne.2 hset]
  · rw [if_neg hbelow, protectWord, if_neg (by rw [and_tableAddrMask]; exact hbelow)]

/-- Both tables in memory are the fork of the table that was there before. -/
theorem ForkCall.tables_refine (h : ForkCall malloc usableEnd m wPermission dst src)
    (page : ℕ) {m' : Memory}
    (hm' : (pageTableFork malloc usableEnd 3 (dst * pageSize) (src * pageSize)
      ⟨m, wPermission, 0⟩).mem = m') :
    lookup (toTable m' src) page = lookup (VMem.pageTableFork usableEnd (toTable m src)) page ∧
      lookup (toTable m' dst) page =
        lookup (VMem.pageTableFork usableEnd (toTable m src)) page := by
  obtain ⟨hsrc, hdst⟩ := mirrors_forked h.source h.forked.copied h.copyPages h.copy_lt
  have hold : lookup (VMem.pageTableFork usableEnd (toTable m src)) page =
      (walk numPtEntries child 3 m src page 3).bind fun x ↦
        if (decodePte (protectWord usableEnd (m x (digit numPtEntries page 0)))).valid then
          some (decodePte (protectWord usableEnd (m x (digit numPtEntries page 0))))
        else none := by
    rw [lookup_pageTableFork, Words.lookup_toTable]
    cases walk numPtEntries child 3 m src page 3 with
    | none => rfl
    | some x =>
      have hvalid (e : Pte) : (protect usableEnd e).valid = e.valid := by
        unfold protect
        split <;> rfl
      rw [bind_some, bind_some, decodePte_protectWord, hvalid]
      split <;> rfl
  rw [hold, Words.lookup_toTable, Words.lookup_toTable, ← hm']
  exact ⟨hsrc.read page fun e ↦ if (decodePte e).valid then some (decodePte e) else none,
    hdst.read page fun e ↦ if (decodePte e).valid then some (decodePte e) else none⟩

/-- The writable page of the chain. -/
theorem tables_refine_chain :
    lookup (toTable (pageTableFork (fun n ↦ nextPage (n + 4)) 0x3c000000 3 (5 * pageSize)
      (1 * pageSize) ⟨chainMemory, fun _ ↦ false, 0⟩).mem 5) 0 =
        lookup (VMem.pageTableFork 0x3c000000 (toTable chainMemory 1)) 0 :=
  ((forkCall_chainMemory 0x3c000000 fun _ ↦ false).tables_refine 0 rfl).2

end Contents

end CapstoneKernel.VMem.Words
