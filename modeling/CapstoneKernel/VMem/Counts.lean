import CapstoneKernel.VMem.PageZero

/-!
# Reference counts

The count of a physical page is meant to be the number of pairs of a process and a virtual page in
its sections that the page table of the process maps to it.  The fault handler and `fork` count per
mapped virtual page, `free_sections` per page after the first one of a section, and `MAP_POPULATE`
not at all. The counts are exact in the runs in which these agree.
-/

namespace CapstoneKernel.VMem

open Mem Execution Function List
open scoped BigOperators

variable {p q : Proc} {op : VmOp} {s t t' s' : VmState}
  {addr child frame' k v pid code frame size : ℕ} {b : Buddy}

/-- The virtual pages in the sections of the process that are mapped to the physical page. -/
def Proc.mapCount (p : Proc) (x : ℕ) : ℕ := (p.pages.toFinset.filter fun v ↦ p.Maps v x).card

/-- The same for a slot of `pcb_table`. -/
def slotCount (slot : Option Proc) (x : ℕ) : ℕ := slot.elim 0 (·.mapCount x)

/-- The pairs of a process in `pcb_table` and a virtual page in its sections that is mapped to the
physical page. -/
def mappingCount (s : VmState) (x : ℕ) : ℕ := ∑ pid ∈ Finset.range maxProc, slotCount (s.procs pid) x

def CountsExact (s : VmState) : Prop := ∀ x, s.refCount x = mappingCount s x

/-- The page the next allocation of one page gives. -/
def nextPage (s : VmState) : Option ℕ := (buddyMalloc s.buddy 1).toOption.bind Prod.fst

/-- The pages an operation may pass to `ref_page`. -/
def refTargets (s : VmState) : VmOp → List ℕ
  | .fork pid _ => (s.procs pid).elim [] Proc.frames
  | .translationFault pid _ => (nextPage s).toList ++ (s.procs pid).elim [] fun p ↦
      (p.sections.filter (·.type = .text)).flatMap fun sec ↦
        (List.range sec.numPages).map (p.code / pageSize + ·)
  | .permissionFault _ _ => (nextPage s).toList
  | _ => []

/-- The pages can be counted once more for each time they are listed. -/
abbrev Fits (s : VmState) (pages : List ℕ) : Prop := ∀ x ∈ pages, s.refCount x + pages.count x < 2 ^ 16

/-- No count grows beyond 16 bits. -/
def CountsFit (s : VmState) (op : VmOp) : Prop :=
  ∀ x ∈ refTargets s op, s.refCount x + (refTargets s op).count x < 2 ^ 16
deriving Decidable

/-- Sections of a process that counts or gives up its memory do not overlap, and nothing is mapped
by `MAP_POPULATE`. -/
def CountsMappings (s : VmState) : VmOp → Prop
  | .exec pid _ => ∀ p, s.procs pid = some p → p.pages.Nodup
  | .reap pid => ∀ p, s.procs pid = some p → p.pages.Nodup
  | .fork pid _ => ∀ p, s.procs pid = some p → p.pages.Nodup
  | .mmap _ _ _ _ flags => flags &&& mapPopulate = 0
  | _ => True

instance (s : VmState) (op : VmOp) : Decidable (CountsMappings s op) := by
  induction op using VmOp.casesOn <;> unfold CountsMappings <;> infer_instance

/-- The condition for exact counts. -/
def CountingAllowed (s : VmState) (op : VmOp) : Prop :=
  Tame s op ∧ ForksMapped s op ∧ CountsMappings s op ∧ CountsFit s op
deriving Decidable

/-! ## Counting -/

/-- Two predicates that differ at most at `v` count alike up to `v`. -/
theorem card_filter_of_agree {S : Finset ℕ} {P Q : ℕ → Prop} [DecidablePred P] [DecidablePred Q]
    (hv : v ∈ S) (hagree : ∀ u ∈ S, u ≠ v → (P u ↔ Q u)) :
    (S.filter Q).card + (if P v then 1 else 0) = (S.filter P).card + (if Q v then 1 else 0) := by
  have hrest : ∑ u ∈ S.erase v, (if Q u then 1 else 0) = ∑ u ∈ S.erase v, (if P u then 1 else 0) :=
    by
    apply Finset.sum_congr rfl
    intro u hu
    have hiff := hagree u (Finset.mem_of_mem_erase hu) (Finset.ne_of_mem_erase hu)
    simp only [hiff]
  rw [Finset.card_filter, Finset.card_filter, ← Finset.add_sum_erase S _ hv, ← Finset.add_sum_erase
    S _ hv,
    hrest]
  omega

/-- Changing one slot changes the number of pairs by the pairs of that slot. -/
theorem mappingCount_update (s s' : VmState) {slot : Option Proc} (hpid : pid < maxProc)
    (hprocs : s'.procs = update s.procs pid slot) (x : ℕ) :
    mappingCount s' x + slotCount (s.procs pid) x = mappingCount s x + slotCount slot x := by
  have hmem : pid ∈ Finset.range maxProc := Finset.mem_range.2 hpid
  have hrest : ∑ r ∈ (Finset.range maxProc).erase pid, slotCount (s'.procs r) x =
      ∑ r ∈ (Finset.range maxProc).erase pid, slotCount (s.procs r) x := by
    apply Finset.sum_congr rfl
    intro r hr
    rw [hprocs, update_of_ne (Finset.ne_of_mem_erase hr)]
  rw [mappingCount, mappingCount, ← Finset.add_sum_erase _ _ hmem, ← Finset.add_sum_erase _ _ hmem,
    hrest,
    hprocs, update_self]
  omega

theorem slotCount_le (hpid : pid < maxProc) (x : ℕ) :
    slotCount (s.procs pid) x ≤ mappingCount s x :=
  Finset.single_le_sum (f := fun r ↦ slotCount (s.procs r) x) (fun _ _ ↦ Nat.zero_le _)
    (Finset.mem_range.2 hpid)

namespace Proc

variable {p : Proc}

/-- The multiplicity of a physical page among the images of distinct virtual pages. -/
theorem count_map_pages (hnodup : p.pages.Nodup) {f : ℕ → ℕ} (hf : ∀ v ∈ p.pages, p.Maps v (f v)) (x : ℕ) :
    (p.pages.map f).count x = p.mapCount x := by
  rw [mapCount, List.count, countP_map, countP_eq_length_filter,
    ← toFinset_card_of_nodup (hnodup.filter _), toFinset_filter]
  congr 1
  apply Finset.filter_congr
  intro v hv
  have hmaps := hf v (mem_toFinset.1 hv)
  simp only [Function.comp_apply, beq_iff_eq]
  exact ⟨fun heq ↦ heq ▸ hmaps, fun h ↦ hmaps.unique h⟩

theorem count_frames (hnodup : p.pages.Nodup) (hlt : ∀ v ∈ p.pages, v < userPages)
    (hmapped : ∀ v ∈ p.pages, lookup p.table v ≠ none) (x : ℕ) : p.frames.count x = p.mapCount x := by
  apply count_map_pages hnodup
  intro v hv
  obtain ⟨e, he⟩ := Option.ne_none_iff_exists'.1 (hmapped v hv)
  rw [v2pTrans_mapped he, Nat.mul_div_cancel _ (by decide)]
  exact ⟨hlt v hv, e, he, rfl⟩

/-- In order, the pages `free_sections` passes to `deref_page` are the images of the virtual
pages. -/
theorem count_released (hnodup : p.pages.Nodup) (horder : p.InOrder) (x : ℕ) :
    (releasedPages p.table p.sections).count x = p.mapCount x := by
  have heq : releasedPages p.table p.sections =
      p.pages.map fun v ↦ v2pTrans p.table (v * pageSize) / pageSize := by
    rw [releasedPages, pages, map_flatMap]
    apply flatMap_congr
    intro sec hsec
    rw [Section.pages, map_map]
    apply map_congr_left
    intro i hi
    have hmaps := horder.base hsec (mem_range.1 hi)
    rw [Function.comp_apply, hmaps.v2pTrans, Nat.mul_div_cancel _ (by decide)]
  rw [heq]
  apply count_map_pages hnodup
  intro v hv
  obtain ⟨sec, hsec, hlow, hhigh⟩ := mem_pages_iff.1 hv
  have hmaps := horder.base hsec (i := v - sec.firstPage) (by omega)
  rw [show sec.firstPage + (v - sec.firstPage) = v by omega] at hmaps
  rw [hmaps.v2pTrans, Nat.mul_div_cancel _ (by decide)]
  exact hmaps

theorem mapCount_of_empty (h : p.table = emptyPageTable) (x : ℕ) : p.mapCount x = 0 := by
  rw [mapCount, Finset.card_eq_zero]
  apply Finset.filter_false_of_mem
  exact fun v _ ↦ not_maps_of_empty h v x

theorem mapCount_congr (hpages : q.pages = p.pages) (hmaps : ∀ v x, q.Maps v x ↔ p.Maps v x) (x : ℕ) :
    q.mapCount x = p.mapCount x := by
  rw [mapCount, mapCount, hpages]
  simp only [hmaps]

theorem mapCount_change (hpages : q.pages = p.pages) (hv : v ∈ p.pages)
    (hmaps : ∀ u x, u ≠ v → (q.Maps u x ↔ p.Maps u x)) (x : ℕ) :
    q.mapCount x + (if p.Maps v x then 1 else 0) = p.mapCount x + (if q.Maps v x then 1 else 0) := by
  rw [mapCount, mapCount, hpages]
  exact card_filter_of_agree (mem_toFinset.2 hv) fun u _ hu ↦ (hmaps u x hu).symm

theorem mapCount_forked (usableEnd x : ℕ) : (p.forked usableEnd).mapCount x = p.mapCount x :=
  mapCount_congr (p := p) (q := p.forked usableEnd) rfl (fun _ _ ↦ forked_maps) x

theorem mapCount_addSection {sec : Section} (h : ∀ v ∈ sec.pages, lookup p.table v = none) (x : ℕ) :
    (p.addSection sec).mapCount x = p.mapCount x := by
  rw [mapCount, mapCount, addSection_pages]
  congr 1
  ext v
  simp only [Finset.mem_filter, mem_toFinset, mem_append]
  constructor
  · rintro ⟨hv | hv, hmaps⟩
    · exact ⟨hv, hmaps⟩
    · obtain ⟨-, e, he, -⟩ := hmaps
      exact absurd ((h v hv).symm.trans he) nofun
  · rintro ⟨hv, hmaps⟩
    exact ⟨.inl hv, hmaps⟩

theorem mapCount_withText (hempty : p.table = emptyPageTable)
    (hcount : (textSection size).numPages ≤ userPages)
    (hpages : ∀ v < (textSection size).numPages, v ∈ p.pages) (x : ℕ) :
    (p.withText size code).mapCount x = (textFrames size code).count x := by
  have hnodup : (textFrames size code).Nodup := nodup_range.map fun _ _ h ↦ Nat.add_left_cancel h
  have hfilter : ((p.withText size code).pages.toFinset.filter fun v ↦
    (p.withText size code).Maps v x) = if x ∈ textFrames size code then {x - code} else ∅ := by
    ext v
    simp only [Finset.mem_filter, mem_toFinset, withText_maps _ _ _ hempty hcount]
    split
    · next hx =>
      obtain ⟨i, hi, rfl⟩ := mem_map.1 hx
      have := mem_range.1 hi
      rw [Finset.mem_singleton]
      constructor
      · rintro ⟨-, -, heq⟩
        omega
      · rintro rfl
        exact ⟨hpages _ (by omega), by omega, by omega⟩
    · next hx =>
      refine iff_of_false (fun ⟨_, hlt, heq⟩ ↦ hx ?_) (Finset.notMem_empty v)
      exact mem_map.2 ⟨v, mem_range.2 hlt, heq.symm⟩
  rw [mapCount, hfilter, hnodup.count]
  split <;> simp

end Proc

/-! ## One step -/

section Step

variable {s : VmState} (hinv : VmInv s) (hexact : CountsExact s)

include hinv hexact

theorem slotCount_le_refCount (hp : s.procs pid = some p) (x : ℕ) :
    p.mapCount x ≤ s.refCount x := by
  have hle := slotCount_le (s := s) (hinv.pid_lt pid p hp) x
  rw [hp, ← hexact] at hle
  exact hle

/-- One process changes its mappings, and the counts follow. -/
theorem CountsExact.of_slot (hp : s.procs pid = some p) (slot : Option Proc)
    (hprocs : s'.procs = update s.procs pid slot)
    (hcount : ∀ x, s'.refCount x + p.mapCount x = s.refCount x + slotCount slot x) :
    CountsExact s' := by
  intro x
  have hupdate := mappingCount_update s s' (hinv.pid_lt pid p hp) hprocs x
  rw [hp] at hupdate
  have h := hcount x
  rw [hexact x] at h
  change mappingCount s' x + p.mapCount x = _ at hupdate
  omega

omit hinv hexact in
/-- A reference to targets of the operation does not overflow. -/
theorem withRefs_refCount (t : VmState) (pages : List ℕ) (hcount : ∀ x, t.refCount x < 2 ^ 16)
    (hfit : Fits t pages) (x : ℕ) : (t.withRefs pages).refCount x = t.refCount x + pages.count x := by
  change (t.refCount x + pages.count x) % 2 ^ 16 = _
  by_cases hx : x ∈ pages
  · exact Nat.mod_eq_of_lt (hfit x hx)
  · rw [count_eq_zero.2 hx, Nat.add_zero]
    exact Nat.mod_eq_of_lt (hcount x)

omit hinv hexact in
theorem withRefs_one_refCount (t : VmState) (hcount : ∀ x, t.refCount x < 2 ^ 16)
    (hfit : t.refCount frame + 1 < 2 ^ 16) (x : ℕ) :
    (t.withRefs [frame]).refCount x = t.refCount x + if frame = x then 1 else 0 := by
  rw [withRefs_refCount t _ hcount _ x, count_singleton]
  · simp only [beq_iff_eq]
  · intro y hy
    obtain rfl := mem_singleton.1 hy
    rw [count_singleton_self]
    exact hfit

omit hinv hexact in
theorem Derefs.one_refCount (h : Derefs t [frame] t') (x : ℕ) :
    t'.refCount x = t.refCount x - if frame = x then 1 else 0 := by
  rw [h.refCount, count_singleton]
  simp only [beq_iff_eq]

omit hexact in
/-- The counts after a copy of the page `frame` to `frame'`. -/
theorem copied_refCount (hderefs : Derefs t [frame] t') (hrefs : t.refCount = s.refCount)
    (hfit : s.refCount frame' + 1 < 2 ^ 16) (x : ℕ) :
    (t'.withRefs [frame']).refCount x =
      s.refCount x - (if frame = x then 1 else 0) + if frame' = x then 1 else 0 := by
  have hless (y : ℕ) := hderefs.one_refCount y
  rw [hrefs] at hless
  rw [withRefs_one_refCount t' (hderefs.count_lt (hrefs ▸ hinv.count_lt)) _ x, hless]
  rw [hless]
  omega

omit hinv hexact in
theorem nextPage_of_granted {idx : ℕ} (h : Granted s.buddy 1 idx k b) : nextPage s = some idx := by
  rw [nextPage, h.run]
  rfl

omit hinv hexact in
theorem CountsFit.next (hfit : CountsFit s op) (hgranted : Granted s.buddy 1 frame k b)
    (hop : nextPage s = some frame → frame ∈ refTargets s op) :
    s.refCount frame + 1 < 2 ^ 16 := by
  have hmem := hop (nextPage_of_granted hgranted)
  have hcount := count_pos_iff.2 hmem
  have h := hfit frame hmem
  omega

omit hinv hexact in
theorem CountsFit.text (hfit : CountsFit s (.translationFault pid addr)) (hp : s.procs pid = some p)
    (hsecs : p.sections = [textSection size, stackSection]) (hcode : p.code = code * pageSize) :
    Fits s (textFrames size code) := by
  intro x hx
  have hlist : (p.sections.filter (·.type = .text)).flatMap (fun sec ↦
      (List.range sec.numPages).map (p.code / pageSize + ·)) =
      textFrames size code := by
    rw [hsecs, hcode, Nat.mul_div_cancel code (by decide)]
    simp [textFrames, textSection, stackSection]
  have htargets : refTargets s (.translationFault pid addr) = (nextPage s).toList ++
      textFrames size code := by
    rw [refTargets, hp, Option.elim_some, hlist]
  rw [CountsFit, htargets] at hfit
  have h := hfit x (mem_append_right _ hx)
  rw [count_append] at h
  omega

omit hinv hexact in
theorem CountsFit.frames (hfit : CountsFit s (.fork pid child)) (hp : s.procs pid = some p) :
    Fits s p.frames := by
  have htargets : refTargets s (.fork pid child) = p.frames := by
    rw [refTargets, hp]
    rfl
  rwa [CountsFit, htargets] at hfit

section

variable (hp : s.procs pid = some p)
include hp

/-- A process gives up its memory. -/
theorem CountsExact.releases (hnodup : p.pages.Nodup) (horder : p.InOrder)
    (hderefs : Derefs t (releasedPages p.table p.sections) t') (hrefs : t.refCount = s.refCount)
    (slot : Option Proc) (hprocs : s'.procs = update s.procs pid slot)
    (hcounts : s'.refCount = t'.refCount) (hempty : ∀ x, slotCount slot x = 0) :
    CountsExact s' := by
  refine hexact.of_slot hinv hp slot hprocs fun x ↦ ?_
  have hle := slotCount_le_refCount hinv hexact hp x
  rw [hcounts, hderefs.refCount, Proc.count_released hnodup horder, hrefs, hempty]
  omega

omit hp in
omit hinv hexact in
theorem mappingCount_child (hchild : child < maxProc) (hnone : s.procs child = none)
    (hprocs : s'.procs = update s.procs child (some p)) (x : ℕ) :
    mappingCount s' x = mappingCount s x + p.mapCount x := by
  have h := mappingCount_update s s' hchild hprocs x
  have hsome : slotCount (some p) x = p.mapCount x := rfl
  have hzero : slotCount none x = 0 := rfl
  rw [hnone, hzero, hsome] at h
  omega

omit hp in
theorem CountsExact.forks (w : ℕ → Bool) (hp : s.procs pid = some p) (hchild : child < maxProc)
    (hnone : s.procs child = none) (hnodup : p.pages.Nodup)
    (hmapped : ∀ v ∈ p.pages, lookup p.table v ≠ none) (hfit : Fits s p.frames) :
    CountsExact { ((s.clear.withRefs p.frames).setProc pid (p.forked s.usableEnd)).setProc child
      (p.forked s.usableEnd) with wPermission := w } := by
  intro x
  have hne : child ≠ pid := by
    rintro rfl
    rw [hp] at hnone
    cases hnone
  set t := s.clear.setProc pid (p.forked s.usableEnd)
  have hparent : mappingCount t x = mappingCount s x := by
    have h := mappingCount_update s t (hinv.pid_lt pid p hp) rfl x
    have hsame : slotCount (some (p.forked s.usableEnd)) x = slotCount (s.procs pid) x := by
      rw [hp]
      exact Proc.mapCount_forked _ x
    rw [hsame] at h
    exact Nat.add_right_cancel h
  have hboth : mappingCount (t.setProc child (p.forked s.usableEnd)) x =
    mappingCount t x + p.mapCount x := by
    rw [mappingCount_child hchild ((update_of_ne hne _ _).trans hnone) rfl, Proc.mapCount_forked]
  have hrefs := withRefs_refCount s.clear _ hinv.count_lt hfit x
  rw [Proc.count_frames hnodup (fun v hv ↦ (hinv.proc pid p hp).page_lt hv) hmapped] at hrefs
  change (s.clear.withRefs p.frames).refCount x = mappingCount
    (t.setProc child (p.forked s.usableEnd)) x
  rw [hrefs, hboth, hparent]
  exact congrArg (· + _) (hexact x)

theorem CountsExact.fetches (hsecs : p.sections = [textSection size, stackSection])
    (htable : p.table = emptyPageTable)
    (hfit : Fits s (textFrames size code)) :
    CountsExact ((s.clear.setProc pid (p.withText size code)).withRefs (textFrames size code)) := by
  have hfirst := textSection_firstPage size
  have htext : textSection size ∈ p.sections := hsecs ▸ mem_cons_self
  have hle := (hinv.proc pid p hp).sections_le _ htext
  refine hexact.of_slot hinv hp (some (p.withText size code)) rfl fun x ↦ ?_
  rw [withRefs_refCount (s.clear.setProc pid _) _ hinv.count_lt hfit x]
  have hcount : slotCount (some (p.withText size code)) x = _ :=
    Proc.mapCount_withText htable (by omega)
      (fun v hv ↦ Proc.mem_pages_iff.2 ⟨_, htext, by omega, by omega⟩) x
  rw [hcount, Proc.mapCount_of_empty htable, Nat.add_zero]
  rfl

theorem CountsExact.grows {page : ℕ} (hpage : page ∈ p.pages) (hnone : lookup p.table page = none)
    (hfit : s.refCount frame + 1 < 2 ^ 16) :
    CountsExact (({ s.clear with buddy := b }.setProc pid
      (p.withPages page 1 frame dataFlags)).withRefs [frame]) := by
  have hlt := (hinv.proc pid p hp).page_lt hpage
  refine hexact.of_slot hinv hp (some (p.withPages page 1 frame dataFlags)) rfl fun x ↦ ?_
  have hrefs := withRefs_one_refCount
    ({ s.clear with buddy := b }.setProc pid (p.withPages page 1 frame dataFlags)) hinv.count_lt hfit x
  have hchange := Proc.mapCount_change (p := p) (q := p.withPages page 1 frame dataFlags) rfl hpage
    (fun u y hu ↦ by rw [Proc.withPages_one_maps hlt]; simp [hu]) x
  have hold : ¬ p.Maps page x := fun ⟨_, e, he, _⟩ ↦ absurd (hnone.symm.trans he) nofun
  have hnew : (p.withPages page 1 frame dataFlags).Maps page x ↔ frame = x := by
    rw [Proc.withPages_one_maps hlt]
    simp [eq_comm]
  rw [if_neg hold, if_congr hnew rfl rfl] at hchange
  rw [hrefs]
  change s.refCount x + _ + _ = s.refCount x + (p.withPages page 1 frame dataFlags).mapCount x
  omega

theorem CountsExact.copies (hmaps : p.Maps (addr / pageSize) frame) (hcount : 1 < s.refCount frame)
    (hderefs : Derefs t [frame] s') (hrefs : t.refCount = s.refCount)
    (hprocs : t.procs = update s.procs pid (some (p.withFrame addr frame')))
    (hfit : s.refCount frame' + 1 < 2 ^ 16) :
    CountsExact (s'.withRefs [frame']) := by
  refine hexact.of_slot hinv hp (some (p.withFrame addr frame')) (hderefs.procs.trans hprocs)
    fun x ↦ ?_
  have hchange := Proc.mapCount_change (p := p) (q := p.withFrame addr frame') rfl
    ((hinv.proc pid p hp).mem_pages _ _ hmaps)
    (fun u y hu ↦ by rw [Proc.withFrame_maps hmaps]; simp [hu]) x
  have hold : p.Maps (addr / pageSize) x ↔ frame = x :=
    ⟨fun h ↦ hmaps.unique h, fun h ↦ h ▸ hmaps⟩
  have hnew : (p.withFrame addr frame').Maps (addr / pageSize) x ↔ frame' = x := by
    rw [Proc.withFrame_maps hmaps]
    simp [eq_comm]
  rw [if_congr hold rfl rfl, if_congr hnew rfl rfl] at hchange
  rw [copied_refCount hinv hderefs hrefs hfit x]
  change _ = s.refCount x + (p.withFrame addr frame').mapCount x
  by_cases hx : frame = x
  · subst hx
    simp only [if_true] at hchange ⊢
    omega
  · simp only [if_neg hx] at hchange ⊢
    omega

theorem CountsExact.of_same (hprocs : s'.procs = update s.procs pid (some q))
    (hrefs : s'.refCount = s.refCount) (hcount : ∀ x, q.mapCount x = p.mapCount x) :
    CountsExact s' := by
  refine hexact.of_slot hinv hp _ hprocs fun x ↦ ?_
  rw [hrefs]
  exact congrArg (s.refCount x + ·) (hcount x).symm

end

theorem Effect.countsExact (hallowed : CountingAllowed s op) (h : Effect s op s') :
    CountsExact s' := by
  obtain ⟨-, hfork, hmappings, hfit⟩ := hallowed
  cases h with
  | dies hp => exact hexact.of_same hinv hp rfl rfl fun _ ↦ rfl
  | @execs pid _ p _ _ _ _ hp hlen horder hgranted hderefs =>
    exact hexact.releases hinv hp (hmappings p hp) horder hderefs rfl _
      (congrArg (update · pid _) hderefs.procs) rfl (Proc.mapCount_of_empty rfl)
  | @forksThread pid child p hp hel hchild hnone =>
    intro x
    have htable : p.table = emptyPageTable := by
      cases (hinv.proc pid p hp).stage with
      | thread _ _ htable => exact htable
      | loaded _ _ hel' | running _ _ hel' => exact absurd (hel.symm.trans hel') (by decide)
    have hsame : mappingCount (s.clear.setProc child p) x = _ :=
      mappingCount_child hchild hnone rfl x
    rw [Proc.mapCount_of_empty htable, Nat.add_zero] at hsame
    exact (hexact x).trans hsame.symm
  | @forks _ _ p w hp hel hfetched hchild hnone =>
    exact hexact.forks hinv w hp hchild hnone (hmappings p hp) (hfork p hp) (hfit.frames hp)
  | reserves hp hel hfetched hflags hend hfree =>
    refine hexact.of_same hinv hp rfl rfl (Proc.mapCount_addSection fun v hv ↦ ?_)
    obtain ⟨hlow, hhigh⟩ := mem_heapSection_pages.1 hv
    exact hfree v hlow hhigh
  | populates hp hel hfetched hflags =>
    exact absurd hmappings hflags
  | fetches hp hel hsize hsecs htable hcode hpos hle =>
    exact hexact.fetches hinv hp hsecs htable (hfit.text hp hsecs hcode)
  | grows hp hel hfetched hpage hnone hgranted =>
    exact hexact.grows hinv hp hpage hnone
      (hfit.next hgranted fun hnext ↦ by simp [refTargets, hnext])
  | copies hp hel hmaps hcount hgranted hderefs =>
    exact hexact.copies hinv hp hmaps hcount hderefs rfl rfl
      (hfit.next hgranted fun hnext ↦ by simp [refTargets, hnext])
  | unprotects hp hel hmaps hcount =>
    exact hexact.of_same hinv hp rfl rfl
      (Proc.mapCount_congr rfl fun _ _ ↦ Proc.withFrame_maps_same hmaps)
  | stores | takes | takesNone | gives => exact hexact
  | @reaps pid p _ hp horder hderefs =>
    exact hexact.releases hinv hp (hmappings p hp) horder hderefs rfl none
      (congrArg (update · pid none) hderefs.procs) rfl fun _ ↦ rfl

end Step

theorem VmReachable.countsExact {allowed : VmState → VmOp → Prop}
    (hallowed : ∀ s op, allowed s op → CountingAllowed s op) {usableEnd : ℕ}
    (hend : usableEnd ≤ 2 ^ 42) (h : VmReachable allowed usableEnd s) :
    CountsExact s := by
  refine VmReachable.induct (P := CountsExact) (fun s op h ↦ (hallowed s op h).1) hend ?_ ?_ h
  · intro s hinit x
    rw [hinit.refCount, mappingCount]
    symm
    apply Finset.sum_eq_zero
    intro pid _
    cases hp : s.procs pid with
    | none => rfl
    | some p => exact Proc.mapCount_of_empty (hinit.procs pid p hp).2.2 x
  · exact fun s op s' hinv hexact hop heffect ↦
      heffect.countsExact hinv hexact (hallowed s op hop)

/-- In every run that meets the condition the counts are exact in every state. -/
theorem ref_counts_exact {usableEnd : ℕ} (hend : usableEnd ≤ 2 ^ 42) {s : VmState}
    (h : VmReachable CountingAllowed usableEnd s) : ∀ x, s.refCount x = mappingCount s x :=
  h.countsExact (fun _ _ hallowed ↦ hallowed) hend

/-- A run with a fork and a copied page: the pages of the child are counted for the parent too. -/
theorem ref_counts_exact_fork : ∃ s s', VmReachable CountingAllowed 0x3b400000 s ∧ s.refCount 2 = 2 ∧
    s'.refCount 2 = 1 ∧ VmReachable CountingAllowed 0x3b400000 s' ∧ mappingCount s 2 = 2 ∧
    mappingCount s' 2 = 1 := by
  obtain ⟨s, s', hreach, henabled, hrun, hallowed, hbefore, hafter⟩ :=
    rpi3Run_exists CountingAllowed
    (tameOps.take 7) (.permissionFault 1 usrStackStart)
    (fun s s' ↦ CountingAllowed s (.permissionFault 1 usrStackStart) ∧ s.refCount 2 = 2 ∧
      s'.refCount 2 = 1)
    (by decide +kernel)
  have hreach' : VmReachable CountingAllowed 0x3b400000 s' :=
    hreach.next ⟨_, henabled, hallowed, hrun⟩
  have hexact := ref_counts_exact (by decide) hreach 2
  have hexact' := ref_counts_exact (by decide) hreach' 2
  exact ⟨s, s', hreach, hbefore, hafter, hreach', by omega, by omega⟩

/-- `MAP_POPULATE` maps a page without counting it. -/
theorem populated_page_not_counted : ∃ s, VmReachable (fun _ _ ↦ True) 0x3b400000 s ∧ s.refCount 2 = 0 ∧
    mappingCount s 2 = 1 := by
  obtain ⟨s, s', hreach, henabled, hrun, hcount, hmapping⟩ := rpi3Run_exists (fun _ _ ↦ True)
    [.exec 0 [0], .translationFault 0 usrCodeStart]
      (.mmap 0 0x10000000 0x1000 protWrite mapPopulate)
    (fun _ s' ↦ s'.refCount 2 = 0 ∧ mappingCount s' 2 = 1) (by decide +kernel)
  exact ⟨s', hreach.next ⟨_, henabled, trivial, hrun⟩, hcount, hmapping⟩

end CapstoneKernel.VMem
