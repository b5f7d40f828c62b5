import CapstoneKernel.VMem.Isolation

/-!
# Regions that are mapped at once and regions that are mapped on demand

`mmap` with `MAP_POPULATE` maps its region with the permissions that `prot` asks for, and does not
count the pages.  Without it the fault handler maps each page that is touched, always writable and
not executable, and counts it.  So where the free pages are not counted, the counts always differ,
and the permissions are the same if `prot` asks for just that.
-/

namespace CapstoneKernel.VMem

open Mem Execution Function Option

variable {p : Proc} {s' s : VmState} {flags pages va pid addr len prot : ℕ}

/-! ## Pages -/

/-- The permissions in a descriptor. -/
def Pte.permissions (e : Pte) : PteFlags := ⟨e.rdonly, e.noExec, e.userAccess, e.access⟩

/-- The permissions of a virtual page and the count of the page that it is mapped to. -/
def pageStatus (s : VmState) (pid page : ℕ) : Option (PteFlags × ℕ) :=
  (s.procs pid).bind fun p ↦ (lookup p.table page).map fun e ↦ (e.permissions, s.refCount e.frame)

theorem filledPte_permissions (frame : ℕ) {flags : PteFlags} (hflags : flags.userAccess = true) :
    (filledPte frame flags).permissions = flags := by
  obtain ⟨rdonly, noExec, userAccess, access⟩ := flags
  obtain rfl : userAccess = true := hflags
  rfl

/-! ## The two kinds of `mmap` -/

theorem numPages_pos_of_contains {page numPages : ℕ}
    (h : (heapSection addr page numPages).contains va = true) : 0 < numPages := by
  rcases Nat.eq_zero_or_pos numPages with rfl | hpos
  · rw [heapSection, if_pos rfl] at h
    simp only [Section.contains, Bool.and_eq_true, decide_eq_true_eq] at h
    omega
  · exact hpos

/-- Without `MAP_POPULATE` only the section is added. -/
theorem mmap_reserves (hp : s.procs pid = some p) (hflags : flags &&& mapPopulate = 0)
    (hrun : mmap s pid addr len prot flags = .ok s') :
    ∃ page, mmapSearch p.table (imagePages len) (userPages + 1) (addr / pageSize)
        (addr / pageSize) 0 = .ok page ∧
      s' = s.setProc pid
        { p with sections := p.sections ++ [heapSection addr page (imagePages len)] } := by
  rw [mmap, proc_eq hp, ok_bind] at hrun
  obtain ⟨page, hsearch, hrun⟩ := of_bind_eq_ok hrun
  refine ⟨page, hsearch, ?_⟩
  simp only [if_pos hflags] at hrun
  exact (Except.ok.inj hrun).symm

/-- With `MAP_POPULATE` the region is also mapped, to pages in a row. -/
theorem mmap_populates (hp : s.procs pid = some p) (hflags : flags &&& mapPopulate ≠ 0)
    (hpos : 0 < imagePages len) (hrun : mmap s pid addr len prot flags = .ok s') :
    ∃ page ptr b, mmapSearch p.table (imagePages len) (userPages + 1) (addr / pageSize)
        (addr / pageSize) 0 = .ok page ∧ mallocPages s.buddy (imagePages len) = .ok (ptr, b) ∧
      s'.procs pid = some { p with
        sections := p.sections ++ [heapSection addr page (imagePages len)]
        table := fillPageTable p.table page (page + imagePages len) ptr (mmapFlags prot) } ∧
      s'.refCount = s.refCount := by
  rw [mmap, proc_eq hp, ok_bind] at hrun
  obtain ⟨page, hsearch, hrun⟩ := of_bind_eq_ok hrun
  simp only [if_neg hflags, populate_eq _ hpos] at hrun
  obtain ⟨⟨b, t⟩, hpop, hrun⟩ := of_bind_eq_ok hrun
  obtain ⟨⟨ptr, b'⟩, hmalloc, hpop⟩ := of_bind_eq_ok hpop
  cases hpop
  cases hrun
  exact ⟨page, ptr, b', hsearch, hmalloc, update_self .., rfl⟩

/-- A translation fault in a `HEAP` section counts the new page and maps it. -/
theorem translationFault_heap {sec : Section} {frame : ℕ} {b : Buddy} (hp : s.procs pid = some p)
    (hsec : p.sections.find? (·.contains va) = some sec) (hheap : sec.type = .heap)
    (hmalloc : mallocPages s.buddy 1 = .ok (frame * pageSize, b))
    (hrun : translationFault s pid va = .ok s') :
    s'.procs pid = some { p with
        table := fillPageTable p.table (va / pageSize) (va / pageSize + 1) (frame * pageSize)
          dataFlags } ∧
      s'.refCount frame = (s.refCount frame + 1) % 2 ^ 16 := by
  rw [translationFault, proc_eq hp, ok_bind] at hrun
  simp only [hsec, faultIn, hheap, faultData, hmalloc, ok_bind] at hrun
  have haligned : ¬ frame * pageSize % pageSize ≠ 0 := by
    rw [Nat.mul_mod_left]
    exact not_not.2 rfl
  have hframe : frame * pageSize / pageSize = frame := Nat.mul_div_cancel _ (by decide)
  simp only [refPage, if_neg haligned, hframe] at hrun
  split at hrun
  · cases hrun
    exact ⟨update_self .., update_self ..⟩
  · cases hrun

/-! ## Touched and populated pages -/

/-- The same region is created without `MAP_POPULATE`, after which its page `i` is touched, and with
`MAP_POPULATE`.  The page is touched at `va`, with a fault in a `HEAP` section. -/
structure LazyAndEager (s : VmState) (pid addr len prot i va : ℕ) (touched populated : VmState) :
    Prop where
  reserves : ∃ flags reserved p region sec, flags &&& mapPopulate = 0 ∧
    mmap s pid addr len prot flags = .ok reserved ∧ reserved.procs pid = some p ∧
    p.sections.getLast? = some region ∧ region.contains va = true ∧
    va / pageSize = region.firstPage + i ∧ p.sections.find? (·.contains va) = some sec ∧
    sec.type = .heap ∧ translationFault reserved pid va = .ok touched
  populates : ∃ flags, flags &&& mapPopulate ≠ 0 ∧ mmap s pid addr len prot flags = .ok populated

/-- The page allocator has the pages of the region, and its free pages are not counted. -/
structure FreshPages (s : VmState) (pages : ℕ) : Prop where
  wf : BuddyWf s.buddy
  has : BuddyHas s.buddy pages
  uncounted : ∀ x, (∀ head k, ¬ InBlock s.buddy x head k) → s.refCount x = 0

/-- What `malloc` returns has not been counted. -/
theorem FreshPages.mallocPages (h : FreshPages s pages) (hpos : 0 < pages) :
    ∃ frame b, mallocPages s.buddy pages = .ok (frame * pageSize, b) ∧
      ∀ i < pages, s.refCount (frame + i) = 0 := by
  obtain ⟨⟨ptr, b⟩, hrun, frame, k, rfl, hgranted⟩ := mallocPages_spec h.wf hpos h.has
  have henough := hgranted.enough
  exact ⟨frame, b, hrun, fun i hi ↦
    h.uncounted _ (hgranted.fresh _ (Nat.le_add_right frame i) (by omega))⟩

theorem FreshPages.one (h : FreshPages s pages) : FreshPages s 1 := by
  obtain ⟨k, hk, hlist, -⟩ := h.has
  exact ⟨h.wf, ⟨k, hk, hlist, Nat.one_le_two_pow⟩, h.uncounted⟩

/-- A touched page is counted and a populated one is not, and they have the same permissions if and
only if `prot` asks for what the fault handler gives. -/
theorem lazy_mmap_status {i va : ℕ} {touched populated : VmState}
    (hfresh : FreshPages s (imagePages len))
    (h : LazyAndEager s pid addr len prot i va touched populated) :
    ∃ flags flags', pageStatus touched pid (va / pageSize) = some (flags, 1) ∧
      pageStatus populated pid (va / pageSize) = some (flags', 0) ∧
      (flags = flags' ↔ prot &&& protWrite ≠ 0 ∧ prot &&& protExec = 0) := by
  obtain ⟨flags, reserved, p₁, region, sec, hlazy, hreserve, hp₁, hlast, hcontains, hpage, hsec,
    hheap, hfault⟩ := h.reserves
  obtain ⟨flags', heager, hpopulate⟩ := h.populates
  obtain ⟨p, hproc, -⟩ := of_bind_eq_ok hpopulate
  have hp := procs_of_proc hproc
  obtain ⟨page, hsearch, rfl⟩ := mmap_reserves hp hlazy hreserve
  obtain rfl := setProc_self hp₁
  simp only [List.getLast?_append, List.getLast?_singleton, some_or, some.injEq] at hlast
  subst hlast
  have hpos := numPages_pos_of_contains hcontains
  obtain ⟨hfirst, hnum⟩ := heapSection_page addr page hpos
  obtain ⟨hlow, hhigh⟩ := Section.page_mem hcontains
  rw [hfirst] at hlow hhigh
  rw [hnum] at hhigh
  have hend := ((mmapSearch_free (.inl rfl) hsearch).resolve_left hpos.ne').1
  have huser : va / pageSize < userPages := by omega
  refine ⟨dataFlags, mmapFlags prot, ?_, ?_, by simp [dataFlags, mmapFlags]⟩
  · obtain ⟨frame, b, hmalloc, hcount⟩ := hfresh.one.mallocPages Nat.one_pos
    obtain ⟨hproc, hrefs⟩ := translationFault_heap hp₁ hsec hheap hmalloc hfault
    have hone : touched.refCount frame = 1 := by
      rw [hrefs]
      exact congrArg (fun count ↦ (count + 1) % 2 ^ 16) (hcount 0 Nat.one_pos)
    rw [pageStatus, hproc, bind_some]
    simp only [lookup_fillPageTable_one huser huser, if_true, map_some]
    rw [filledPte_permissions _ rfl]
    exact congrArg (fun count ↦ some (dataFlags, count)) hone
  · obtain ⟨frame, b, hmalloc, hcount⟩ := hfresh.mallocPages hpos
    obtain ⟨page', ptr, b', hsearch', hmalloc', hproc, hrefs⟩ :=
      mmap_populates hp heager hpos hpopulate
    obtain rfl : page = page' := Except.ok.inj (hsearch.symm.trans hsearch')
    cases hmalloc.symm.trans hmalloc'
    rw [pageStatus, hproc, bind_some]
    simp only [lookup_fillPageTable_mem hend hlow hhigh, map_some]
    rw [filledPte_permissions _ rfl, hrefs]
    exact congrArg (fun count ↦ some (mmapFlags prot, count)) (hcount _ (by omega))

/-- A free page is not counted where the counts are exact and the processes are isolated. -/
theorem refCount_of_free {boot : ℕ → Option ℕ} (hexact : CountsExact s) (hiso : Isolated boot s)
    {x : ℕ} (hfree : ∀ head k, ¬ InBlock s.buddy x head k) : s.refCount x = 0 := by
  rw [hexact x, mappingCount]
  refine Finset.sum_eq_zero fun r _ ↦ ?_
  cases hq : s.procs r with
  | none => rfl
  | some q =>
    change q.mapCount x = 0
    rw [Proc.mapCount, Finset.card_eq_zero, Finset.filter_eq_empty_iff]
    intro v _ hv
    obtain ⟨head, k, hblock, -⟩ := hiso.block r q v x hq hv.holds
    exact hfree head k hblock

/-- The condition for exact counts and isolation. -/
def ExactAllowed (s : VmState) (op : VmOp) : Prop := CountingAllowed s op ∧ IsolationAllowed s op
deriving Decidable

theorem VmReachable.freshPages {usableEnd : ℕ} (hend : usableEnd ≤ 2 ^ 42)
    (h : VmReachable ExactAllowed usableEnd s) (hhas : BuddyHas s.buddy pages) :
    FreshPages s pages := by
  obtain ⟨boot, hiso⟩ := h.isolated (fun _ _ hallowed ↦ hallowed.2) hend
  have hexact := h.countsExact (fun _ _ hallowed ↦ hallowed.1) hend
  exact ⟨(h.inv (fun _ _ hallowed ↦ hallowed.1.1) hend).wf, hhas,
    fun x hfree ↦ refCount_of_free hexact hiso hfree⟩

/-- A program that has been fetched and asks for two writable pages, of which it touches the second
one. -/
theorem exists_lazyAndEager : ∃ s touched populated, VmReachable ExactAllowed 0x3b400000 s ∧
    BuddyHas s.buddy (imagePages 0x2000) ∧
    LazyAndEager s 0 0x10000000 0x2000 protWrite 1 0x10001004 touched populated := by
  have h : ((rpi3Run ExactAllowed [.exec 0 [0], .translationFault 0 usrCodeStart]).any fun s ↦
      decide (BuddyHas s.buddy (imagePages 0x2000)) &&
      (mmap s 0 0x10000000 0x2000 protWrite mapPopulate).toOption.any fun _ ↦
        (mmap s 0 0x10000000 0x2000 protWrite 0).toOption.any fun reserved ↦
          (translationFault reserved 0 0x10001004).toOption.any fun _ ↦
            (reserved.procs 0).any fun p ↦
              (p.sections.getLast?.any fun region ↦ region.contains 0x10001004 &&
                0x10001004 / pageSize == region.firstPage + 1) &&
              (p.sections.find? (·.contains 0x10001004)).any (·.type == .heap)) = true := by
    decide +kernel
  obtain ⟨s, hs, h⟩ := (Option.any_eq_true ..).1 h
  rw [Bool.and_eq_true, decide_eq_true_eq] at h
  obtain ⟨hhas, h⟩ := h
  obtain ⟨populated, hpopulate, h⟩ := exists_of_any_toOption h
  obtain ⟨reserved, hreserve, h⟩ := exists_of_any_toOption h
  obtain ⟨touched, htouch, h⟩ := exists_of_any_toOption h
  obtain ⟨p, hp, h⟩ := (Option.any_eq_true ..).1 h
  rw [Bool.and_eq_true] at h
  obtain ⟨region, hlast, hregion⟩ := (Option.any_eq_true ..).1 h.1
  obtain ⟨sec, hsec, hheap⟩ := (Option.any_eq_true ..).1 h.2
  rw [Bool.and_eq_true, beq_iff_eq] at hregion
  exact ⟨s, touched, populated, rpi3Run_reachable hs, hhas,
    ⟨⟨0, reserved, p, region, sec, by decide, hreserve, hp, hlast, hregion.1, hregion.2, hsec,
      beq_iff_eq.1 hheap, htouch⟩, mapPopulate, by decide, hpopulate⟩⟩

theorem lazy_mmap_status_writable : ∃ s touched populated flags,
    VmReachable ExactAllowed 0x3b400000 s ∧ FreshPages s (imagePages 0x2000) ∧
    LazyAndEager s 0 0x10000000 0x2000 protWrite 1 0x10001004 touched populated ∧
    pageStatus touched 0 0x10001 = some (flags, 1) ∧
    pageStatus populated 0 0x10001 = some (flags, 0) := by
  obtain ⟨s, touched, populated, hreach, hhas, hboth⟩ := exists_lazyAndEager
  have hfresh := hreach.freshPages (by decide) hhas
  obtain ⟨flags, flags', htouched, hpopulated, hflags⟩ := lazy_mmap_status hfresh hboth
  obtain rfl := hflags.2 (by decide)
  exact ⟨s, touched, populated, flags, hreach, hfresh, hboth, htouched, hpopulated⟩

/-- The permissions of a page and its count after some operations of a program. -/
def statusAfter (ops : List VmOp) (page : ℕ) : Option (PteFlags × ℕ) :=
  (rpi3Run (fun _ _ ↦ True) ([.exec 0 [0], .translationFault 0 usrCodeStart] ++ ops)).bind
    (pageStatus · 0 page)

/-- A program that asks for `PROT_READ | PROT_EXEC` and for `PROT_READ | PROT_WRITE`. -/
theorem lazy_mmap_differs :
    statusAfter [.mmap 0 0x10000000 0x1000 5 0, .translationFault 0 0x10000000] 0x10000 =
        some (⟨false, true, true, true⟩, 1) ∧
      statusAfter [.mmap 0 0x10000000 0x1000 5 mapPopulate] 0x10000 =
        some (⟨true, false, true, true⟩, 0) ∧
      statusAfter [.mmap 0 0x10000000 0x1000 3 0, .translationFault 0 0x10000000] 0x10000 =
        some (⟨false, true, true, true⟩, 1) ∧
      statusAfter [.mmap 0 0x10000000 0x1000 3 mapPopulate] 0x10000 =
        some (⟨false, true, true, true⟩, 0) := by
  decide +kernel

end CapstoneKernel.VMem
