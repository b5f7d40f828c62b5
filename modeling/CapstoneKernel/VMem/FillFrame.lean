import CapstoneKernel.VMem.FillRange

/-!
# What `fill_page_table` does to other pages

For its first page `fill_page_table` uses the tables that exist.  Where an index goes back to 0 it
always starts a new table, and enters it without a look at the entry that is there.  A table that
exists at such a place is lost, with all mappings in it; otherwise every page outside of the range
keeps its mapping and every table stays.
-/

namespace CapstoneKernel.VMem.Words

open RadixTable TableWalk Mem

variable {f i root calls : ℕ} {word : ℕ → ℕ} {done' pending' : ℕ → ℕ → Prop}
  {pending done : ℕ → ℕ → Prop} {malloc : ℕ → ℕ} {m : Memory}

/-! ## Steps -/

/-- The inner loop starts a new table for the next page where this page starts one. -/
theorem renewTable_cases (malloc : ℕ → ℕ) (s : Filling) (page : ℕ) (hi : i < 3) :
    StartsTable (page + 1) i ∧ renewTable malloc page s i = newTable malloc s i (page + 1) ∨
      ¬ StartsTable (page + 1) i ∧ renewTable malloc page s i = s := by
  unfold renewTable
  simp only [idx_eq]
  split
  · next hcarry => exact .inl ⟨succ_mod_of_carry hcarry.1 hcarry.2, rfl⟩
  · next hcarry =>
    refine .inr ⟨fun hstart ↦ hcarry ?_, rfl⟩
    unfold StartsTable at hstart
    obtain rfl | rfl | rfl : i = 0 ∨ i = 1 ∨ i = 2 := by omega
    all_goals
      simp only [digit, numPtEntries] at hstart ⊢
      norm_num at hstart ⊢
      omega

/-! ## Ranges without a table in the way -/

/-- No table exists that the inner loop starts anew: at the pages of the range, the first one apart,
that start a table of some level. -/
def NoTableInside (m : Memory) (root sPageIdx ePageIdx : ℕ) : Prop :=
  ∀ page i, sPageIdx < page → page < ePageIdx → i < 3 → StartsTable page i →
    tableOf m root page i = none

/-- Pages outside of the range end at the same level and entry, with its address and attributes, and
no table is lost. -/
structure KeepsOthers (m m' : Memory) (root sPageIdx ePageIdx : ℕ) : Prop where
  pages : ∀ va < 2 ^ 48, va / pageSize < sPageIdx ∨ ePageIdx ≤ va / pageSize →
    walkTable m' va (root * pageSize) = walkTable m va (root * pageSize)
  tables : ∀ f, Visited numPtEntries child 3 m root f → Visited numPtEntries child 3 m' root f

/-- Where the walker ends for a page. -/
def lastEntryOf (m : Memory) (root page : ℕ) : Option (ℕ × ℕ × ℕ) :=
  (walk numPtEntries child 3 m root page 3).bind fun f ↦
    if m f (digit numPtEntries page 0) &&& 0b1 = 0 then none
    else some (3, m f (digit numPtEntries page 0), 0xfff)

section Keeping

variable {start stop : ℕ} {s : Filling} {page l : ℕ}

/-- What has been kept so far, and the places in `pending` at which there is no table yet. -/
structure Keeping (m : Memory) (root start stop : ℕ) (pending : ℕ → ℕ → Prop) (m' : Memory) :
    Prop where
  walks : ∀ q d x, d ≤ 3 → walk numPtEntries child 3 m root q d = some x →
    walk numPtEntries child 3 m' root q d = some x
  entries : ∀ q < userPages, q < start ∨ stop ≤ q → lastEntryOf m' root q = lastEntryOf m root q
  missing : ∀ p i, pending p i → i < 3 → p < stop → StartsTable p i → tableOf m' root p i = none

theorem Keeping.mono {m' : Memory} (h : Keeping m root start stop pending m')
    (hle : ∀ p i, pending' p i → i < 3 → pending p i) :
    Keeping m root start stop pending' m' :=
  ⟨h.walks, h.entries, fun p i hp hi ↦ h.missing p i (hle p i hp hi) hi⟩

theorem Keeping.newTable (h : Keeping m root start stop pending s.mem) (hl : l < 3)
    (hstop : stop ≤ userPages) (hinstall : Installs malloc root s page l f)
    (hnone : tableOf s.mem root page l = none)
    (hle : ∀ p i, pending' p i → i < 3 → pending p i ∧ (page < p ∨ p = page ∧ i < l)) :
    Keeping m root start stop pending' (newTable malloc s l page).mem := by
  have hnext : 2 - l + 1 = 3 - l := by omega
  have hempty : walk numPtEntries child 3 s.mem root page (2 - l + 1) = none := by
    rw [hnext]
    exact hnone
  have hnew := hinstall.install hl
  rw [hinstall.mem]
  refine ⟨fun q d x hd hx ↦ hnew.walk_mono hempty hd (h.walks q d x hd hx), fun q hq hout ↦ ?_,
    fun p i hp hi hpstop hstart ↦ ?_⟩
  · rw [← h.entries q hq hout]
    exact hnew.read hempty (fun e ↦ if e &&& 0b1 = 0 then none else some (3, e, 0xfff)) rfl q
  · obtain ⟨hp, hplace⟩ := hle p i hp hi
    refine hnew.walk_none (by omega) (h.missing p i hp hi hpstop hstart) fun hlevel hshare ↦ ?_
    -- A place at the same level lies behind the new table.
    obtain rfl : i = l := by omega
    rw [hnext] at hshare
    exact hstart.not_sharesPath hi (by omega) (by omega) hshare.symm

theorem Keeping.store (h : Keeping m root start stop pending s.mem)
    (hsound : Sound malloc calls root s) (hat : At root s page 0) (hpage : page < userPages)
    (hlow : start ≤ page) (hhigh : page < stop) (word : ℕ) :
    Keeping m root start stop pending (store s.mem (s.tableAddr 0 + 8 * idx page 0) word) := by
  obtain ⟨f, hwalk, haddr⟩ := hat
  have hleaf (d : ℕ) (hd : d ≤ 3) (q : ℕ) := hsound.shape.tree.writeLeaf hwalk word hd q
  rw [haddr, idx_eq, store_entry _ _ (hsound.shape.frame_lt hwalk) (digit_lt page 0)]
  refine ⟨fun q d x hd hx ↦ ?_, fun q hq hout ↦ ?_, fun p i hp hi hpstop hstart ↦ ?_⟩
  · rw [hleaf d hd]
    exact h.walks q d x hd hx
  · rw [← h.entries q hq hout]
    exact hsound.shape.read_writeLeaf hpage hq (by omega) hwalk word fun e ↦
      if e &&& 0b1 = 0 then none else some (3, e, 0xfff)
  · rw [tableOf, hleaf _ (by omega)]
    exact h.missing p i hp hi hpstop hstart

/-- Without a table inside of the range, everything else is kept. -/
theorem keeping_rule (hm : PageSource malloc calls) (hstop : stop ≤ userPages) :
    FillRule malloc calls root start stop word
      (fun page s ↦ Keeping m root start stop (fun p _ ↦ page < p) s.mem)
      fun page l s ↦
        Keeping m root start stop (fun p i ↦ page + 1 < p ∨ p = page + 1 ∧ i < l) s.mem where
  opened s l hl hsound hat hcalls hkeep := by
    have hat := hat (l + 1) (by omega) (by omega)
    rcases openTable_cases hsound hl hat with ⟨hmem, -, -⟩ | ⟨hnew, hnone⟩
    · rw [hmem]
      exact hkeep
    · rw [hnew] at hcalls ⊢
      obtain ⟨f, hinstall⟩ := newTable_installs hm hsound hcalls hl hat
      exact hkeep.newTable hl hstop hinstall hnone fun p i hp _ ↦ ⟨hp, .inl hp⟩
  stored page s hlow hhigh hsound hat hkeep :=
    (hkeep.store hsound (hat 0 (by decide)) (by omega) hlow hhigh _).mono
      fun p i hp _ ↦ by omega
  renewed page s l hlow hhigh hl hsound hmoving hcalls hkeep := by
    rcases renewTable_cases malloc s page hl with ⟨hstart, hnew⟩ | ⟨-, hnew⟩
    · have hnone := hkeep.missing (page + 1) l (.inr ⟨rfl, Nat.lt_succ_self l⟩) hl hhigh hstart
      rw [hnew] at hcalls ⊢
      obtain ⟨f, hinstall⟩ :=
        newTable_installs hm hsound hcalls hl (hmoving.1 (l + 1) le_rfl (by omega))
      exact hkeep.newTable hl hstop hinstall hnone fun p i hp _ ↦ by omega
    · rw [hnew]
      exact hkeep.mono fun p i hp _ ↦ by omega
  next page s hkeep := hkeep.mono fun p i hp _ ↦ .inl hp

end Keeping

/-! ## Tables that are lost -/

section Losing

variable {start stop : ℕ} {s : Filling} {page l : ℕ}

/-- The page has been allocated by the filler. -/
def NewPage (malloc : ℕ → ℕ) (s : Filling) (x : ℕ) : Prop := ∃ n < s.mallocs, x = pageOf (malloc n)

/-- All tables are old ones at their old places or new ones, and those at the places in `done` are
new. -/
structure Renewing (malloc : ℕ → ℕ) (m : Memory) (root : ℕ) (done : ℕ → ℕ → Prop) (s : Filling) :
    Prop where
  origin : ∀ q d x, d ≤ 3 → walk numPtEntries child 3 s.mem root q d = some x →
    walk numPtEntries child 3 m root q d = some x ∨ NewPage malloc s x
  renewed : ∀ p i, done p i → i < 3 → StartsTable p i →
    ∃ x, tableOf s.mem root p i = some x ∧ NewPage malloc s x

section

variable (h : Renewing malloc m root done s)
include h

theorem Renewing.mono (hle : ∀ p i, done' p i → i < 3 → StartsTable p i → done p i) :
    Renewing malloc m root done' s :=
  ⟨h.origin, fun p i hp hi hstart ↦ h.renewed p i (hle p i hp hi hstart) hi hstart⟩

theorem Renewing.of_walk_eq {s' : Filling} (hmallocs : s'.mallocs = s.mallocs)
    (hwalk : ∀ d ≤ 3, ∀ q, walk numPtEntries child 3 s'.mem root q d =
      walk numPtEntries child 3 s.mem root q d) : Renewing malloc m root done s' := by
  refine ⟨fun q d x hd hx ↦ ?_, fun p i hp hi hstart ↦ ?_⟩
  · rw [hwalk d hd] at hx
    rw [NewPage, hmallocs]
    exact h.origin q d x hd hx
  · rw [tableOf, hwalk _ (by omega)]
    unfold NewPage
    rw [hmallocs]
    exact h.renewed p i hp hi hstart

theorem Renewing.newTable (hl : l < 3) (hinstall : Installs malloc root s page l f)
    (hle : ∀ p i, done' p i → i < 3 → StartsTable p i → (p = page ∧ i = l) ∨
      done p i ∧ (l < i ∨ ¬ SharesPath numPtEntries 3 (3 - l) page p)) :
    Renewing malloc m root done' (newTable malloc s l page) := by
  have hnext : 2 - l + 1 = 3 - l := by omega
  have hnew {x : ℕ} (hx : NewPage malloc s x) :
      NewPage malloc (Words.newTable malloc s l page) x := by
    obtain ⟨n, hn, rfl⟩ := hx
    exact ⟨n, Nat.lt_succ_of_lt hn, rfl⟩
  have hlast : NewPage malloc (Words.newTable malloc s l page) (pageOf (malloc s.mallocs)) :=
    ⟨s.mallocs, Nat.lt_succ_self _, rfl⟩
  have hadded := hinstall.install hl
  refine ⟨fun q d x hd hx ↦ ?_, fun p i hp hi hstart ↦ ?_⟩
  · rw [hinstall.mem] at hx
    rcases hadded.walk_cases hd hx with hold | ⟨rfl, -⟩
    · exact (h.origin q d x hd hold).imp_right hnew
    · exact .inr hlast
  · rw [hinstall.mem, tableOf]
    rcases hle p i hp hi hstart with ⟨rfl, rfl⟩ | ⟨hp, haway⟩
    · refine ⟨_, ?_, hlast⟩
      rw [← hnext]
      exact hadded.walk_self fun _ _ ↦ rfl
    · obtain ⟨x, hx, hxnew⟩ := h.renewed p i hp hi hstart
      refine ⟨x, ?_, hnew hxnew⟩
      rw [hadded.walk_eq (by omega) ?_]
      · exact hx
      · rw [hnext]
        exact haway.imp_left fun _ ↦ by omega

omit h in
/-- The filler starts a new table wherever a page of the range starts one. -/
theorem renewing_rule (hm : PageSource malloc calls) (hstop : stop ≤ userPages) :
    FillRule malloc calls root start stop word
      (fun page ↦ Renewing malloc m root fun p _ ↦ start < p ∧ p ≤ page)
      fun page l ↦
        Renewing malloc m root fun p i ↦ start < p ∧ (p ≤ page ∨ p = page + 1 ∧ l ≤ i) where
  opened s l hl hsound hat hcalls hrenew := by
    have hat := hat (l + 1) (by omega) (by omega)
    rcases openTable_cases hsound hl hat with ⟨hmem, hmallocs, -⟩ | ⟨hnew, -⟩
    · exact hrenew.of_walk_eq hmallocs fun d _ q ↦ by rw [hmem]
    · rw [hnew] at hcalls ⊢
      obtain ⟨f, hinstall⟩ := newTable_installs hm hsound hcalls hl hat
      exact hrenew.newTable hl hinstall fun p i hp _ _ ↦ by omega
  stored page s hlow hhigh hsound hat hrenew := by
    obtain ⟨f, hwalk, haddr⟩ := hat 0 (by decide)
    have hsame : Renewing malloc m root (fun p _ ↦ start < p ∧ p ≤ page)
        { s with mem := store s.mem (s.tableAddr 0 + 8 * idx page 0) (word page) } := by
      refine hrenew.of_walk_eq rfl fun d hd q ↦ ?_
      simp only [haddr, idx_eq, store_entry _ _ (hsound.shape.frame_lt hwalk) (digit_lt page 0)]
      exact hsound.shape.tree.writeLeaf hwalk _ hd q
    exact hsame.mono fun p i hp hi _ ↦ by omega
  renewed page s l hlow hhigh hl hsound hmoving hcalls hrenew := by
    rcases renewTable_cases malloc s page hl with ⟨hstart, hnew⟩ | ⟨hstart, hnew⟩
    · rw [hnew] at hcalls ⊢
      obtain ⟨f, hinstall⟩ :=
        newTable_installs hm hsound hcalls hl (hmoving.1 (l + 1) le_rfl (by omega))
      refine hrenew.newTable hl hinstall fun p i hp _ _ ↦ ?_
      rcases hp.2 with hle | ⟨rfl, hi⟩
      · exact .inr ⟨⟨hp.1, .inl hle⟩, .inr (hstart.not_sharesPath hl (by omega) (by omega))⟩
      · rcases Nat.eq_or_lt_of_le hi with rfl | hlt
        · exact .inl ⟨rfl, rfl⟩
        · exact .inr ⟨⟨hp.1, .inr ⟨rfl, hlt⟩⟩, .inl hlt⟩
    · rw [hnew]
      refine hrenew.mono fun p i hp _ hstart' ↦ ⟨hp.1, ?_⟩
      rcases hp.2 with hle | ⟨rfl, hi⟩
      · exact .inl hle
      · have hne : i ≠ l := by
          rintro rfl
          exact hstart hstart'
        exact .inr ⟨rfl, by omega⟩
  next page s hrenew := hrenew.mono fun p i hp _ _ ↦ by omega

/-- A table at a place that has been renewed is not reachable any more. -/
theorem Renewing.not_visited (htree : IsTree numPtEntries child 3 m root)
    (hfresh : ∀ n < s.mallocs, ¬ Visited numPtEntries child 3 m root (pageOf (malloc n))) {p g : ℕ}
    (hp : done p i) (hi : i < 3) (hstart : StartsTable p i) (hg : tableOf m root p i = some g) :
    ¬ Visited numPtEntries child 3 s.mem root g := by
  have hold : Visited numPtEntries child 3 m root g := ⟨3 - i, by omega, p, hg⟩
  have hnotNew : ¬ NewPage malloc s g := by
    rintro ⟨n, hn, rfl⟩
    exact hfresh n hn hold
  rintro ⟨d, hd, q, hq⟩
  -- The place of the table has not changed, so that it is the one that has been renewed.
  have horigin := (h.origin q d g hd hq).resolve_right hnotNew
  obtain ⟨rfl, hshare⟩ := htree d (3 - i) hd (by omega) q p g horigin hg
  obtain ⟨x, hx, hxnew⟩ := h.renewed p i hp hi hstart
  rw [tableOf, ← walk_congr hshare, hq] at hx
  exact hnotNew (Option.some.inj hx ▸ hxnew)

end

end Losing

/-! ## The call -/

/-- A call of `fill_page_table` on a tree of tables, while `malloc` returns fresh pages. -/
structure FreshFill (malloc : ℕ → ℕ) (m : Memory) (root sPageIdx ePageIdx startPa flags : ℕ) :
    Prop where
  shape : TreeShaped m root
  range : sPageIdx < ePageIdx
  range_le : ePageIdx ≤ 2 ^ 36
  pages : PageSource malloc (fillPageTable malloc m
    (p2vTransKernel (root * pageSize)) sPageIdx ePageIdx startPa flags).mallocs
  fresh : ∀ n < (fillPageTable malloc m (p2vTransKernel (root * pageSize)) sPageIdx ePageIdx startPa
    flags).mallocs, ¬ Visited numPtEntries child 3 m root (pageOf (malloc n))

variable {sPageIdx ePageIdx startPa flags : ℕ}

namespace FreshFill

variable (h : FreshFill malloc m root sPageIdx ePageIdx startPa flags)

include h in
theorem shape_filled : TreeShaped (fillPageTable malloc m (p2vTransKernel (root * pageSize))
    sPageIdx ePageIdx startPa flags).mem root :=
  (fillPageTable_spec h.pages h.shape h.fresh h.range h.range_le rfl le_rfl).1.shape

include h in
theorem keepsOthers (hnone : NoTableInside m root sPageIdx ePageIdx) :
    KeepsOthers m (fillPageTable malloc m (p2vTransKernel (root * pageSize)) sPageIdx ePageIdx
      startPa flags).mem root sPageIdx ePageIdx := by
  have hstart : Keeping m root sPageIdx ePageIdx (fun p _ ↦ sPageIdx < p) m :=
    ⟨fun _ _ _ _ hx ↦ hx, fun _ _ _ ↦ rfl, fun p i hp hi hstop ↦ hnone p i hp hstop hi⟩
  obtain ⟨-, hkeep⟩ := (keeping_rule h.pages h.range_le).fillPageTable h.pages h.shape h.fresh
    h.range h.range_le (fun _ ↦ hstart) rfl le_rfl
  refine ⟨fun va hva hout ↦ ?_, fun f ⟨d, hd, page, hf⟩ ↦ ⟨d, hd, page, hkeep.walks page d f hd hf⟩⟩
  have hpage : va / pageSize < userPages := by
    unfold pageSize userPages numPtEntries
    omega
  rw [walkTable_eq h.shape_filled.tableWalks, walkTable_eq h.shape.tableWalks]
  exact hkeep.entries _ hpage hout

include h in
theorem noTableInside (hkeeps : KeepsOthers m (fillPageTable malloc m
      (p2vTransKernel (root * pageSize)) sPageIdx ePageIdx startPa flags).mem root sPageIdx
      ePageIdx) : NoTableInside m root sPageIdx ePageIdx := by
  obtain ⟨-, hrenew⟩ := (renewing_rule h.pages h.range_le).fillPageTable h.pages h.shape h.fresh
    h.range h.range_le (fun _ ↦ ⟨fun _ _ _ _ hx ↦ .inl hx, fun p i hp ↦
      absurd hp.2 (Nat.not_le.2 hp.1)⟩) rfl le_rfl
  intro page i hlow hhigh hi hstart
  by_contra hsome
  obtain ⟨g, hg⟩ := Option.ne_none_iff_exists'.1 hsome
  exact hrenew.not_visited h.shape.tree h.fresh ⟨hlow, .inl (by omega)⟩ hi hstart hg
    (hkeeps.tables g ⟨3 - i, by omega, page, hg⟩)

end FreshFill

/-- `fill_page_table` keeps all other pages and all tables if and only if there is no table inside
of the range. -/
theorem fillPageTable_keeps_others_iff
    (h : FreshFill malloc m root sPageIdx ePageIdx startPa flags) :
    KeepsOthers m (fillPageTable malloc m (p2vTransKernel (root * pageSize)) sPageIdx ePageIdx
        startPa flags).mem root sPageIdx ePageIdx ↔
      NoTableInside m root sPageIdx ePageIdx :=
  ⟨h.noTableInside, h.keepsOthers⟩

/-- An address space in which page 600 is mapped. -/
def filledMemory : Memory :=
  (fillPageTable nextPage blankMemory (p2vTransKernel (1 * pageSize)) 600 601 0x80000 0).mem

/-- A short range can be filled there with the pages behind the first ones. -/
theorem freshFill_filledMemory {sPageIdx ePageIdx : ℕ} (hrange : sPageIdx < ePageIdx)
    (hend : ePageIdx ≤ 2 ^ 32) (startPa flags : ℕ) :
    FreshFill (fun n ↦ nextPage (n + 6)) filledMemory 1 sPageIdx ePageIdx startPa flags := by
  have hmallocs := fillPageTable_mallocs_le nextPage blankMemory (p2vTransKernel (1 * pageSize))
    600 601 0x80000 0
  have hmallocs' := fillPageTable_mallocs_le (fun n ↦ nextPage (n + 6)) filledMemory
    (p2vTransKernel (1 * pageSize)) sPageIdx ePageIdx startPa flags
  have hsource : PageSource nextPage (2 ^ 35) := pageSource_nextPage (k := 0) (by decide)
  obtain ⟨hsound, -⟩ := fillPageTable_spec hsource treeShaped_blankMemory
    (fun n hn ↦ fresh_blankMemory (by omega)) (by decide) (by decide) rfl
    (hmallocs.trans (by decide))
  exact ⟨hsound.shape, hrange, hend.trans (by decide), pageSource_nextPage (by omega),
    fun n hn ↦ hsound.fresh (n + 6) (by omega) (by omega)⟩

/-- Four pages across the boundary of the table of page 600, to which nothing happens. -/
theorem fillPageTable_keeps_others_iff_boundary :
    KeepsOthers filledMemory (fillPageTable (fun n ↦ nextPage (n + 6)) filledMemory
      (p2vTransKernel (1 * pageSize)) 1022 1026 0x90000 0).mem 1 1022 1026 ∧
    v2pTrans filledMemory (600 * pageSize) (1 * pageSize) 0 = 0x80000 := by
  have hfresh := freshFill_filledMemory (by decide : 1022 < 1026) (by decide) 0x90000 0
  refine ⟨(fillPageTable_keeps_others_iff hfresh).2 fun page i hlow hhigh hi hstart ↦ ?_, ?_⟩
  · -- Page 1024 would start the table of the lowest level, which is missing.
    have hstart : page % 512 ^ (i + 1) = 0 := hstart
    interval_cases i
    · obtain rfl : page = 1024 := by omega
      decide +kernel
    · omega
    · omega
  · decide +kernel

/-- Filling the pages from 510 to 513 starts the table for the pages from 512 on anew, and page 600
is lost. -/
theorem fillPageTable_loses_page :
    FreshFill (fun n ↦ nextPage (n + 6)) filledMemory 1 510 514 0x90000 0 ∧
      v2pTrans filledMemory (600 * pageSize) (1 * pageSize) 0 = 0x80000 ∧
      v2pTrans (fillPageTable (fun n ↦ nextPage (n + 6)) filledMemory
        (p2vTransKernel (1 * pageSize)) 510 514 0x90000 0).mem (600 * pageSize) (1 * pageSize)
        0 = 0 := by
  refine ⟨freshFill_filledMemory (by decide) (by decide) 0x90000 0, ?_⟩
  decide +kernel

end CapstoneKernel.VMem.Words
