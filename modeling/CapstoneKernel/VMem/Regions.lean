import CapstoneKernel.VMem.LazyRegions

/-!
# The regions of `mmap`

The search of `mmap` with addresses of 64 bits: it goes from page to page, around the end of the
address space, until it has seen enough pages in a row for which `v2p_trans` is `NULL`.  It does not
look at the sections of the process, so that a region that has not been touched is found again; the
regions are disjoint if all sections are mapped before each call.
-/

namespace CapstoneKernel.VMem

open Mem Execution List

variable {sec : Section} {s s' : VmState} {addr flags len numPages page prot rounds : ℕ}

/-! ## `mmap` and the faults -/

/-- The number of pages that addresses of 64 bits name. -/
def addressPages : ℕ := 2 ^ 52

/-- `v2p_trans(i, NULL)` is not `NULL`.  The upper half of the addresses is translated by the tables
of the kernel, any other address by those of the process, whatever its upper bits are. -/
def pageMapped (kernelMapped : ℕ → Bool) (t : PageTable) (page : ℕ) : Bool :=
  if page / userPages = 0xffff then kernelMapped (page % userPages)
  else v2pTrans t (page * pageSize) != 0

/-- The loop of `mmap`, for at most `rounds` rounds. -/
def regionSearch (mapped : ℕ → Bool) (numPages : ℕ) : ℕ → ℕ → ℕ → ℕ → Except Fault ℕ
  | 0, _, _, _ => .error .diverges
  | rounds + 1, page, start, continuous =>
    if numPages ≤ continuous then .ok start
    else if mapped page then
      regionSearch mapped numPages rounds ((page + 1) % addressPages) start 0
    else
      regionSearch mapped numPages rounds ((page + 1) % addressPages)
        (if continuous = 0 then page else start) (continuous + 1)

/-- The section that `mmap` adds for a region. -/
def regionSection (page numPages : ℕ) : Section :=
  ⟨.heap, page * pageSize, numPages * pageSize % 2 ^ 64, .inl (Nat.mul_mod_left page pageSize)⟩

/-- `mmap` of a length above 0, with the address that it returns. -/
def mmapRegion (kernelMapped : ℕ → Bool) (rounds : ℕ) (s : VmState)
    (pid addr len prot flags : ℕ) : Except Fault (ℕ × VmState) := do
  let p ← s.proc pid
  let numPages := imagePages len
  let page ← regionSearch (pageMapped kernelMapped p.table) numPages rounds (addr / pageSize)
    (addr / pageSize) 0
  let p := { p with sections := p.sections ++ [regionSection page numPages] }
  if flags &&& mapPopulate = 0 then
    return (page * pageSize, s.setProc pid p)
  else
    let (b, t) ← populate (mmapFlags prot) (page + numPages) (numPages + 2) numPages page s.buddy
      p.table
    return (page * pageSize, { s with buddy := b }.setProc pid { p with table := t })

/-- `in_section` with pointers of 64 bits. -/
def inSection (sec : Section) (addr : ℕ) : Bool :=
  sec.base ≤ addr && addr < (sec.base + sec.size) % 2 ^ 64

/-- `exception_entry` for a translation fault at any address. -/
def regionFault (s : VmState) (pid addr : ℕ) : Except Fault VmState := do
  let p ← s.proc pid
  faultIn s pid addr p (p.sections.find? (inSection · addr))

/-! ## The search -/

section Search

variable {mapped : ℕ → Bool} {hint numPages : ℕ}

/-- The page that the search gets to in a round. -/
def pageAt (hint k : ℕ) : ℕ := (hint + k) % addressPages

/-- In round `k + continuous` the last `continuous` pages have been found not to be mapped. -/
structure Searching (mapped : ℕ → Bool) (hint k page start continuous : ℕ) : Prop where
  page_eq : page = pageAt hint (k + continuous)
  start_eq : continuous = 0 ∨ start = pageAt hint k
  free : ∀ j < continuous, mapped (pageAt hint (k + j)) = false

theorem pageAt_succ (hint k : ℕ) : (pageAt hint k + 1) % addressPages = pageAt hint (k + 1) := by
  unfold pageAt
  rw [Nat.mod_add_mod, Nat.add_assoc]

variable {k page start continuous : ℕ}

section

variable (h : Searching mapped hint k page start continuous)
include h

theorem Searching.skip :
    Searching mapped hint (k + continuous + 1) ((page + 1) % addressPages) start 0 := by
  refine ⟨?_, .inl rfl, fun j hj ↦ absurd hj (Nat.not_lt_zero j)⟩
  rw [h.page_eq, pageAt_succ, Nat.add_zero]

theorem Searching.extend (hunmapped : mapped page = false) :
    Searching mapped hint k ((page + 1) % addressPages)
      (if continuous = 0 then page else start) (continuous + 1) := by
  refine ⟨?_, .inr ?_, fun j hj ↦ ?_⟩
  · rw [h.page_eq, pageAt_succ]
    rfl
  · split
    · next hzero => rw [h.page_eq, hzero, Nat.add_zero]
    · next hpos => exact h.start_eq.resolve_left hpos
  · rcases Nat.lt_succ_iff_lt_or_eq.1 hj with hj | rfl
    · exact h.free j hj
    · rw [← h.page_eq]
      exact hunmapped

theorem Searching.result {result : ℕ} (hpos : 0 < numPages)
    (hrun : regionSearch mapped numPages rounds page start continuous = .ok result) :
    ∃ k, result = pageAt hint k ∧ ∀ j < numPages, mapped (pageAt hint (k + j)) = false := by
  induction rounds generalizing k page start continuous with
  | zero => cases hrun
  | succ rounds ih =>
    rw [regionSearch] at hrun
    split at hrun
    · next hdone =>
      cases hrun
      exact ⟨k, h.start_eq.resolve_left (by omega), fun j hj ↦ h.free j (by omega)⟩
    · split at hrun
      · exact ih h.skip hrun
      · next hmapped => exact ih (h.extend (by simpa using hmapped)) hrun

end

/-- The search ends at pages in a row that are not mapped. -/
theorem regionSearch_spec {result : ℕ} (hpos : 0 < numPages) (hhint : hint < addressPages)
    (hrun : regionSearch mapped numPages rounds hint hint 0 = .ok result) :
    ∃ k, result = pageAt hint k ∧ ∀ j < numPages, mapped (pageAt hint (k + j)) = false := by
  have hstart : Searching mapped hint 0 hint hint 0 := by
    refine ⟨?_, .inl rfl, fun j hj ↦ absurd hj (Nat.not_lt_zero j)⟩
    rw [pageAt, Nat.add_zero, Nat.mod_eq_of_lt hhint]
  exact hstart.result hpos hrun

end Search

/-! ## The user space -/

section UserSpace

variable {kernelMapped : ℕ → Bool} {s : VmState} {pid : ℕ}

theorem pageMapped_of_lt (t : PageTable) (h : page < userPages) :
    pageMapped kernelMapped t page = true ↔ v2pTrans t (page * pageSize) ≠ 0 := by
  rw [pageMapped, if_neg (by rw [Nat.div_eq_of_lt h]; decide), bne_iff_ne]

/-- A search that does not leave the user space is the one of `mmap`. -/
theorem regionSearch_of_mmapSearch {t : PageTable} {fuel start continuous result : ℕ}
    (hrun : mmapSearch t numPages fuel page start continuous = .ok result) :
    regionSearch (pageMapped kernelMapped t) numPages fuel page start continuous = .ok result := by
  induction fuel generalizing page start continuous with
  | zero => cases hrun
  | succ fuel ih =>
    rw [mmapSearch] at hrun
    rw [regionSearch]
    split at hrun
    · next hdone =>
      rw [if_pos hdone]
      exact hrun
    · next hmore =>
      split at hrun
      · cases hrun
      · next hpage =>
        have hnext : (page + 1) % addressPages = page + 1 := by
          have huser : userPages = 2 ^ 36 := rfl
          unfold addressPages
          omega
        simp only [if_neg hmore, pageMapped_of_lt t (not_le.1 hpage), hnext]
        split at hrun
        · next hmapped =>
          rw [if_pos hmapped]
          exact ih hrun
        · next hfree =>
          rw [if_neg hfree]
          exact ih hrun

/-- What `mmap` does inside of the user space is what it does with addresses of 64 bits. -/
theorem mmapRegion_of_mmap (hpos : 0 < len) (hrun : mmap s pid addr len prot flags = .ok s') :
    ∃ address, mmapRegion kernelMapped (userPages + 1) s pid addr len prot flags =
      .ok (address, s') := by
  obtain ⟨p, hproc, hrun⟩ := of_bind_eq_ok hrun
  obtain ⟨page, hsearch, hrun⟩ := of_bind_eq_ok hrun
  have hnum := imagePages_pos.2 hpos
  have hend := ((mmapSearch_free (.inl rfl) hsearch).resolve_left hnum.ne').1
  have hsection : heapSection addr page (imagePages len) = regionSection page (imagePages len) := by
    have hsize : imagePages len * pageSize % 2 ^ 64 = imagePages len * pageSize := by
      have huser : userPages = 2 ^ 36 := rfl
      unfold pageSize
      omega
    simp only [heapSection, if_neg hnum.ne', regionSection, hsize]
  refine ⟨page * pageSize, ?_⟩
  rw [mmapRegion, hproc, ok_bind]
  simp only [hsection, regionSearch_of_mmapSearch hsearch, ok_bind] at hrun ⊢
  split at hrun
  · next hflags =>
    cases hrun
    exact if_pos hflags
  · next hflags =>
    rw [if_neg hflags]
    obtain ⟨⟨b, t⟩, hpop, hrun⟩ := of_bind_eq_ok hrun
    cases hrun
    rw [hpop]
    rfl

theorem inSection_eq_contains (h : sec.numPages = 0 ∨ sec.firstPage + sec.numPages ≤ userPages)
    (addr : ℕ) :
    inSection sec addr = sec.contains addr := by
  have huser : userPages = 2 ^ 36 := rfl
  have haligned := sec.aligned
  rw [Bool.eq_iff_iff]
  simp only [inSection, Section.contains, Bool.and_eq_true, decide_eq_true_eq]
  unfold Section.numPages Section.firstPage at h
  unfold pageSize at *
  omega

/-- In the states of the runs, so are the faults. -/
theorem regionFault_eq_translationFault (hinv : VmInv s) (addr : ℕ) :
    regionFault s pid addr = translationFault s pid addr := by
  unfold regionFault translationFault
  cases hproc : s.proc pid with
  | error e => rfl
  | ok p =>
    have hfind : p.sections.find? (inSection · addr) = p.sections.find? (·.contains addr) := by
      refine find?_congr fun sec hsec ↦ inSection_eq_contains ?_ addr
      exact (hinv.proc pid p (procs_of_proc hproc)).sections_le sec hsec
    exact congrArg (faultIn s pid addr p) hfind

end UserSpace

/-! ## Regions and sections -/

/-- The addresses of a region that starts at `base`, around the end of the address space. -/
def Covers (base size a : ℕ) : Prop := ∃ offset < size, a = (base + offset) % 2 ^ 64

/-- A successful call of `mmap` and the state before it. -/
structure MmapCall where
  before : VmState
  addr : ℕ
  len : ℕ
  address : ℕ

namespace MmapCall

/-- The region is disjoint from the sections that the process has. -/
def RegionDisjoint (call : MmapCall) (pid : ℕ) : Prop :=
  ∀ p, call.before.procs pid = some p → ∀ sec ∈ p.sections, ∀ a,
    Covers call.address (imagePages call.len * pageSize) a → ¬ Covers sec.base sec.size a

end MmapCall

/-- Every page of every section of the process is mapped. -/
def SectionsMapped (kernelMapped : ℕ → Bool) (s : VmState) (pid : ℕ) : Prop :=
  ∀ p, s.procs pid = some p → ∀ sec ∈ p.sections, ∀ i < sec.numPages,
    pageMapped kernelMapped p.table (pageAt sec.firstPage i) = true

instance (kernelMapped : ℕ → Bool) (s : VmState) (pid : ℕ) :
    Decidable (SectionsMapped kernelMapped s pid) :=
  inferInstanceAs (Decidable (∀ p, _ = some p → _))

/-- A region and a section that have an address in common have a page in common. -/
theorem covers_page {hint k a : ℕ}
    (hregion : Covers (pageAt hint k * pageSize) (numPages * pageSize) a)
    (hsec : Covers sec.base sec.size a) :
    ∃ j < numPages, ∃ i < sec.numPages, pageAt hint (k + j) = pageAt sec.firstPage i := by
  obtain ⟨o, ho, ha⟩ := hregion
  obtain ⟨o', ho', ha'⟩ := hsec
  have haligned := sec.aligned
  unfold Section.numPages Section.firstPage
  unfold pageAt addressPages pageSize at *
  exact ⟨o / 4096, by omega, o' / 4096, by omega, by omega⟩

/-! ## Runs -/

/-- Calls of `mmap` and page faults of a process, one after the other, with the successful calls. -/
inductive RegionRun (kernelMapped : ℕ → Bool) (pid : ℕ) (start : VmState) :
    List MmapCall → VmState → Prop
  | start : RegionRun kernelMapped pid start [] start
  | mmap {calls : List MmapCall} {s s' : VmState} {rounds addr len prot flags address : ℕ}
      (h : RegionRun kernelMapped pid start calls s) (haddr : addr < 2 ^ 64) (hpos : 0 < len)
      (hlen : len < 2 ^ 64)
      (hrun : mmapRegion kernelMapped rounds s pid addr len prot flags = .ok (address, s')) :
      RegionRun kernelMapped pid start (calls ++ [⟨s, addr, len, address⟩]) s'
  | translationFault {calls : List MmapCall} {s s' : VmState} {addr : ℕ}
      (h : RegionRun kernelMapped pid start calls s) (haddr : addr < 2 ^ 64)
      (hrun : regionFault s pid addr = .ok s') : RegionRun kernelMapped pid start calls s'
  | permissionFault {calls : List MmapCall} {s s' : VmState} {addr : ℕ}
      (h : RegionRun kernelMapped pid start calls s) (haddr : addr < 2 ^ 48)
      (hrun : permissionFault s pid addr = .ok s') : RegionRun kernelMapped pid start calls s'

section Runs

variable {kernelMapped : ℕ → Bool} {pid : ℕ}

theorem mmapRegion_disjoint {address : ℕ} (haddr : addr < 2 ^ 64) (hpos : 0 < len)
    (hrun : mmapRegion kernelMapped rounds s pid addr len prot flags = .ok (address, s'))
    (hmapped : SectionsMapped kernelMapped s pid) :
    (⟨s, addr, len, address⟩ : MmapCall).RegionDisjoint pid := by
  obtain ⟨p, hproc, hrun⟩ := of_bind_eq_ok hrun
  obtain ⟨page, hsearch, hrun⟩ := of_bind_eq_ok hrun
  have haddress : address = page * pageSize := by
    simp only at hrun
    split at hrun
    · exact (Prod.mk.inj (Except.ok.inj hrun)).1.symm
    · obtain ⟨_, -, hrun⟩ := of_bind_eq_ok hrun
      exact (Prod.mk.inj (Except.ok.inj hrun)).1.symm
  have hhint : addr / pageSize < addressPages := by
    unfold addressPages pageSize
    omega
  obtain ⟨k, rfl, hfree⟩ := regionSearch_spec (imagePages_pos.2 hpos) hhint hsearch
  subst haddress
  intro q hq sec hsec a hregion hcovered
  obtain rfl := Option.mem_unique (procs_of_proc hproc) hq
  obtain ⟨j, hj, i, hi, hpage⟩ := covers_page hregion hcovered
  -- The page is not mapped as one of the region, and mapped as one of the section.
  have hunmapped := hfree j hj
  rw [hpage, hmapped p hq sec hsec i hi] at hunmapped
  exact absurd hunmapped (by decide)

/-- In every run in which all sections are mapped before each `mmap`, the regions are disjoint from
the sections before them. -/
theorem mmap_regions_disjoint_of_mapped {start s : VmState} {calls : List MmapCall}
    (h : RegionRun kernelMapped pid start calls s)
    (hmapped : ∀ call ∈ calls, SectionsMapped kernelMapped call.before pid) :
    ∀ call ∈ calls, call.RegionDisjoint pid := by
  induction h with
  | start => simp only [not_mem_nil, false_implies, implies_true]
  | mmap _ haddr hpos _ hrun ih =>
    rw [forall_mem_append, forall_mem_singleton] at hmapped ⊢
    exact ⟨ih hmapped.1, mmapRegion_disjoint haddr hpos hrun hmapped.2⟩
  | translationFault _ _ _ ih | permissionFault _ _ _ ih => exact ih hmapped

end Runs

/-! ## Two calls with the same hint -/

/-- The pages of the kernel half that the tables of the kernel translate: 2 GB without the first
page, whose address is `NULL`. -/
def kernelPages (page : ℕ) : Bool := 0 < page && page < 2 ^ 19

/-- A process that has just been loaded. -/
def loadedState (b : Buddy) : VmState :=
  { bootState 0x3b400000 b with
    procs := Function.update (fun _ ↦ none) 0 (some (loadedProc 0x1000 1)) }

/-- Faults one after the other. -/
theorem RegionRun.touch {kernelMapped : ℕ → Bool} {pid : ℕ} {start : VmState}
    {calls : List MmapCall} {addrs : List ℕ} (h : RegionRun kernelMapped pid start calls s)
    (haddrs : ∀ addr ∈ addrs, addr < 2 ^ 64) (hrun : addrs.foldlM (regionFault · pid) s = .ok s') :
    RegionRun kernelMapped pid start calls s' := by
  induction addrs generalizing s with
  | nil => exact Except.ok.inj hrun ▸ h
  | cons addr addrs ih =>
    rw [forall_mem_cons] at haddrs
    obtain ⟨t, hfault, hrun⟩ := of_bind_eq_ok hrun
    exact ih (h.translationFault haddrs.1 hfault) haddrs.2 hrun

/-- Faults and two calls with the same hint, for which a condition holds of the results and the
states before the calls. -/
theorem exists_mmap_twice (addrs : List ℕ) (haddrs : ∀ addr ∈ addrs, addr < 2 ^ 64) (flags : ℕ)
    (Q : VmState → ℕ → VmState → ℕ → Bool)
    (h : (rpi3Buddy.toOption.any fun b ↦
      (addrs.foldlM (regionFault · 0) (loadedState b)).toOption.any fun t ↦
      (mmapRegion kernelPages 8 t 0 0x10000000 0x1000 3 flags).toOption.any fun r ↦
        (mmapRegion kernelPages 8 r.2 0 0x10000000 0x1000 3 flags).toOption.any fun r' ↦
          Q t r.1 r.2 r'.1) = true) :
    ∃ start t address s address' s', Q t address s address' = true ∧
      RegionRun kernelPages 0 start [⟨t, 0x10000000, 0x1000, address⟩,
        ⟨s, 0x10000000, 0x1000, address'⟩] s' := by
  obtain ⟨b, -, h⟩ := exists_of_any_toOption h
  obtain ⟨t, htouch, h⟩ := exists_of_any_toOption h
  obtain ⟨⟨address, s⟩, hfirst, h⟩ := exists_of_any_toOption h
  obtain ⟨⟨address', s'⟩, hsecond, h⟩ := exists_of_any_toOption h
  refine ⟨loadedState b, t, address, s, address', s', h, ?_⟩
  exact (((RegionRun.start.touch haddrs htouch).mmap (by decide) (by decide) (by decide)
    hfirst).mmap (by decide) (by decide) (by decide) hsecond :)

/-- When all pages of the program have been touched, and with `MAP_POPULATE`, the second call returns
the page behind the first region. -/
theorem mmap_regions_disjoint_of_mapped_populated : ∃ start t s s', RegionRun kernelPages 0 start
    [⟨t, 0x10000000, 0x1000, 0x10000000⟩, ⟨s, 0x10000000, 0x1000, 0x10001000⟩] s' ∧
      (SectionsMapped kernelPages t 0 ∧ SectionsMapped kernelPages s 0) ∧
      (⟨t, 0x10000000, 0x1000, 0x10000000⟩ : MmapCall).RegionDisjoint 0 ∧
      (⟨s, 0x10000000, 0x1000, 0x10001000⟩ : MmapCall).RegionDisjoint 0 := by
  obtain ⟨start, t, address, s, address', s', hQ, hrun⟩ := exists_mmap_twice
    [0, 0xffffffffb000, 0xffffffffc000, 0xffffffffd000, 0xffffffffe000] (by decide) mapPopulate
    (fun t address s address' ↦ address == 0x10000000 && address' == 0x10001000 &&
      (decide (SectionsMapped kernelPages t 0) && decide (SectionsMapped kernelPages s 0)))
    (by decide +kernel)
  simp only [Bool.and_eq_true, beq_iff_eq, decide_eq_true_eq] at hQ
  obtain ⟨⟨rfl, rfl⟩, hmapped⟩ := hQ
  have hdisjoint := mmap_regions_disjoint_of_mapped hrun (by simpa using hmapped)
  exact ⟨start, t, s, s', hrun, hmapped, hdisjoint _ (by simp), hdisjoint _ (by simp)⟩

/-- Without a fault in between, the second call returns the region of the first one. -/
theorem mmap_returns_region_twice : ∃ start t s s', RegionRun kernelPages 0 start
    [⟨t, 0x10000000, 0x1000, 0x10000000⟩, ⟨s, 0x10000000, 0x1000, 0x10000000⟩] s' ∧
      ¬ (⟨s, 0x10000000, 0x1000, 0x10000000⟩ : MmapCall).RegionDisjoint 0 := by
  obtain ⟨start, t, address, s, address', s', hQ, hrun⟩ := exists_mmap_twice [] (by decide) 0
    (fun _ address s address' ↦ address == 0x10000000 && address' == 0x10000000 &&
      (s.procs 0).any fun p ↦ p.sections.any fun sec ↦ sec.base == 0x10000000 && sec.size == 0x1000)
    (by decide +kernel)
  rw [Bool.and_eq_true, Bool.and_eq_true, beq_iff_eq, beq_iff_eq] at hQ
  obtain ⟨⟨rfl, rfl⟩, hsection⟩ := hQ
  obtain ⟨p, hp, hsection⟩ := (Option.any_eq_true ..).1 hsection
  obtain ⟨sec, hsec, hsection⟩ := any_eq_true.1 hsection
  rw [Bool.and_eq_true, beq_iff_eq, beq_iff_eq] at hsection
  have hregion : Covers 0x10000000 (imagePages 0x1000 * pageSize) 0x10000000 :=
    ⟨0, by decide, by decide⟩
  refine ⟨start, t, s, s', hrun, fun hdisjoint ↦ hdisjoint p hp sec hsec 0x10000000 hregion ?_⟩
  rw [hsection.1, hsection.2]
  exact ⟨0, by decide, by decide⟩

end CapstoneKernel.VMem
