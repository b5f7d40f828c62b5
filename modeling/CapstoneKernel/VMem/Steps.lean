import CapstoneKernel.VMem.Mappings

/-!
# What an operation does

`Effect` lists the ways in which one operation of a tame run can end, with the state it leaves
written out in terms of the state before.  Every invariant of such runs is proved from this list.
-/

namespace CapstoneKernel.VMem

open Mem Execution List

variable {t : PageTable} {p : Proc} {op : VmOp} {s : VmState}
  {fuel numPages page pid result size start : ℕ}

inductive Effect (s : VmState) : VmOp → VmState → Prop
  | dies {op : VmOp} {pid : ℕ} {p : Proc} : s.procs pid = some p →
      Effect s op (s.clear.setProc pid { p with dead := true })
  | execs {pid : ℕ} {image : List (BitVec 8)} {p : Proc} {code k : ℕ} {b : Buddy} {s' : VmState} :
      s.procs pid = some p → 0 < image.length → p.InOrder →
      Granted s.buddy (imagePages image.length) code k b →
      Derefs { s.clear with buddy := b, mem := writeBytes s.mem (code * pageSize) image }
        (releasedPages p.table p.sections) s' →
      Effect s (.exec pid image) (s'.setProc pid (loadedProc (code * pageSize) image.length))
  | forksThread {pid child : ℕ} {p : Proc} : s.procs pid = some p → p.el0 = false → child < maxProc →
      s.procs child = none → Effect s (.fork pid child) (s.clear.setProc child p)
  | forks {pid child : ℕ} {p : Proc} {w : ℕ → Bool} : s.procs pid = some p → p.el0 = true → p.Fetched →
      child < maxProc → s.procs child = none →
      Effect s (.fork pid child)
        { ((s.clear.withRefs p.frames).setProc pid (p.forked s.usableEnd)).setProc child
            (p.forked s.usableEnd) with wPermission := w }
  | reserves {pid addr len prot flags page : ℕ} {p : Proc} : s.procs pid = some p → p.el0 = true →
      p.Fetched → (flags &&& mapPopulate = 0 ∨ imagePages len = 0) →
      (imagePages len = 0 ∨ page + imagePages len ≤ userPages) →
      (∀ v, page ≤ v → v < page + imagePages len → lookup p.table v = none) →
      Effect s (.mmap pid addr len prot flags)
        (s.clear.setProc pid (p.addSection (heapSection addr page (imagePages len))))
  | populates {pid addr len prot flags page frame k : ℕ} {p : Proc} {b : Buddy} : s.procs pid = some p →
      p.el0 = true → p.Fetched → flags &&& mapPopulate ≠ 0 → 0 < imagePages len →
      page + imagePages len ≤ userPages →
      (∀ v, page ≤ v → v < page + imagePages len → lookup p.table v = none) →
      Granted s.buddy (imagePages len) frame k b →
      Effect s (.mmap pid addr len prot flags) ({ s.clear with buddy := b }.setProc pid
          ((p.addSection (heapSection addr page (imagePages len))).withPages page (imagePages len) frame
            (mmapFlags prot)))
  | fetches {pid addr size code : ℕ} {p : Proc} : s.procs pid = some p → p.el0 = true → 0 < size →
      p.sections = [textSection size, stackSection] → p.table = emptyPageTable →
      p.code = code * pageSize → 0 < code → code + (textSection size).numPages ≤ s.buddy.numPages →
      Effect s (.translationFault pid addr) ((s.clear.setProc pid (p.withText size code)).withRefs
          (textFrames size code))
  | grows {pid addr frame : ℕ} {p : Proc} {b : Buddy} : s.procs pid = some p → p.el0 = true → p.Fetched →
      addr / pageSize ∈ p.pages → lookup p.table (addr / pageSize) = none →
      Granted s.buddy 1 frame 0 b →
      Effect s (.translationFault pid addr) (({ s.clear with buddy := b }.setProc pid
          (p.withPages (addr / pageSize) 1 frame dataFlags)).withRefs [frame])
  | copies {pid addr frame frame' : ℕ} {p : Proc} {b : Buddy} {s' : VmState} : s.procs pid = some p →
      p.el0 = true → p.Maps (addr / pageSize) frame → 1 < s.refCount frame → Granted s.buddy 1 frame' 0 b →
      Derefs ({ s.clear with
          buddy := b
          mem := copyPage s.mem (frame' * pageSize) (frame * pageSize) }.setProc pid
        (p.withFrame addr frame')) [frame] s' →
      Effect s (.permissionFault pid addr) (s'.withRefs [frame'])
  | unprotects {pid addr frame : ℕ} {p : Proc} : s.procs pid = some p → p.el0 = true →
      p.Maps (addr / pageSize) frame → s.refCount frame ≤ 1 →
      Effect s (.permissionFault pid addr) (s.clear.setProc pid (p.withFrame addr frame))
  | stores {pid addr : ℕ} {byte : BitVec 8} {p : Proc} {e : Pte} : s.procs pid = some p →
      addr / pageSize < userPages → lookup p.table (addr / pageSize) = some e → e.rdonly = false →
      Effect s (.store pid addr byte)
        { s.clear with mem := Function.update s.mem (e.frame * pageSize + addr % pageSize) byte }
  | reaps {pid : ℕ} {p : Proc} {s' : VmState} : s.procs pid = some p → p.InOrder →
      Derefs s.clear (releasedPages p.table p.sections) s' →
      Effect s (.reap pid) { s' with procs := Function.update s'.procs pid none }
  | takes {size head k : ℕ} {b : Buddy} : Granted s.buddy size head k b →
      Effect s (.kernelAlloc size) { s.clear with buddy := b, kernel := head :: s.kernel }
  | takesNone {size : ℕ} {b : Buddy} : BuddyWf b → b.numPagesExp = s.buddy.numPagesExp →
      usedAt b = usedAt s.buddy → Effect s (.kernelAlloc size) { s.clear with buddy := b }
  | gives {head : ℕ} {b : Buddy} : head ∈ s.kernel → BuddyWf b → b.numPagesExp = s.buddy.numPagesExp →
      (∀ x, x ≠ head → usedAt b x = usedAt s.buddy x) →
      Effect s (.kernelFree head) { s.clear with buddy := b, kernel := s.kernel.filter (· ≠ head) }

/-! ## The parts of the operations -/

theorem proc_eq (h : s.procs pid = some p) : s.proc pid = .ok p := by
  rw [VmState.proc, h]

theorem procs_of_proc (h : s.proc pid = .ok p) : s.procs pid = some p := by
  unfold VmState.proc at h
  split at h
  · cases h
  · next q hq => rw [hq, Except.ok.inj h]

theorem exit_effect {s' : VmState} (hp : s.procs pid = some p) (hrun : exit s.clear pid = .ok s') :
    Effect s op s' := by
  rw [exit, proc_eq (s := s.clear) hp, ok_bind] at hrun
  cases hrun
  exact .dies hp

theorem Section.page_mem {sec : Section} {addr : ℕ} (h : sec.contains addr = true) :
    sec.firstPage ≤ addr / pageSize ∧ addr / pageSize < sec.firstPage + sec.numPages := by
  have hbase : sec.base % pageSize = 0 := sec.aligned.resolve_right fun hsize ↦ by
    simp [Section.contains, hsize] at h
    omega
  simp only [Section.contains, Bool.and_eq_true, decide_eq_true_eq] at h
  unfold Section.firstPage Section.numPages
  unfold pageSize at *
  omega

/-- The search of `mmap` finds pages of the user space without a translation. -/
theorem mmapSearch_free {continuous : ℕ}
    (hinv : continuous = 0 ∨ (start + continuous = page ∧ page ≤ userPages ∧
      ∀ v, start ≤ v → v < page → v2pTrans t (v * pageSize) = 0))
    (hrun : mmapSearch t numPages fuel page start continuous = .ok result) :
    numPages = 0 ∨ (result + numPages ≤ userPages ∧
      ∀ v, result ≤ v → v < result + numPages → v2pTrans t (v * pageSize) = 0) := by
  induction fuel generalizing page start continuous with
  | zero => cases hrun
  | succ fuel ih =>
    rw [mmapSearch] at hrun
    split at hrun
    · next hdone =>
      cases hrun
      rcases hinv with hzero | ⟨hsum, hle, hnone⟩
      · exact .inl (by omega)
      · exact .inr ⟨by omega, fun v hlow hhigh ↦ hnone v hlow (by omega)⟩
    · split at hrun
      · cases hrun
      · next hpage =>
        split at hrun
        · exact ih (.inl rfl) hrun
        · next hv2p =>
          have hfree := not_not.1 hv2p
          refine ih (.inr ?_) hrun
          rcases hinv with hzero | ⟨hsum, hle, hnone⟩
          · rw [if_pos hzero]
            refine ⟨by omega, by omega, fun v hlow hhigh ↦ ?_⟩
            obtain rfl : v = page := by omega
            exact hfree
          · have hstart : start ≤ (if continuous = 0 then page else start) := by split <;>
              omega
            refine ⟨by split <;> omega, by omega, fun v hlow hhigh ↦ ?_⟩
            rcases Nat.lt_or_ge v page with hv | hv
            · exact hnone v (by omega) hv
            · obtain rfl : v = page := by omega
              exact hfree

theorem mmapSearch_spec (hframe : ∀ v < userPages, ∀ e, lookup t v = some e → 0 < e.frame)
    (hrun : mmapSearch t numPages fuel page start 0 = .ok result) :
    numPages = 0 ∨ (result + numPages ≤ userPages ∧
      ∀ v, result ≤ v → v < result + numPages → lookup t v = none) := by
  refine (mmapSearch_free (.inl rfl) hrun).imp_right fun ⟨hle, hfree⟩ ↦
    ⟨hle, fun v hlow hhigh ↦ ?_⟩
  cases hlook : lookup t v with
  | none => rfl
  | some e =>
    have hpos := hframe v (by omega) e hlook
    have hv2p := hfree v hlow hhigh
    rw [v2pTrans_mapped hlook] at hv2p
    exact absurd hv2p (Nat.mul_ne_zero hpos.ne' (by decide))

/-- The first block `MAP_POPULATE` asks for is already the whole region. -/
theorem populate_eq (flags : PteFlags) (hpos : 0 < numPages) (page : ℕ) (b : Buddy) (t : PageTable) :
    populate flags (page + numPages) (numPages + 2) numPages page b t = (do
      let r ← mallocPages b numPages
      return (r.2, fillPageTable t page (page + numPages) r.1 flags)) := by
  rw [populate, if_pos ⟨by omega, hpos⟩, if_pos (by omega)]
  congr 1
  funext ⟨ptr, b'⟩
  change populate flags (page + numPages) (numPages + 1) numPages (page + numPages) b' _ = _
  rw [populate, if_neg (by omega)]
  rfl

/-! ## Every operation has one of the effects -/

section Inversion

variable {s s' : VmState} {pid addr : ℕ} {p : Proc} (hinv : VmInv s)

include hinv

section

variable (hp : s.procs pid = some p)
include hp

theorem released_lt (horder : p.InOrder) {x : ℕ} (hx : x ∈ releasedPages p.table p.sections) :
    x < s.buddy.numPages := by
  obtain ⟨v, -, hmaps⟩ := horder.mem_released.1 hx
  exact ((hinv.proc pid p hp).frame v x hmaps).2

omit hp in
theorem exec_effect {image : List (BitVec 8)} (htame : Tame s (.exec pid image))
    (hp : s.procs pid = some p) (hrun : exec s.clear pid image = .ok s') :
    Effect s (.exec pid image) s' := by
  rw [exec, proc_eq (s := s.clear) hp, ok_bind] at hrun
  split at hrun
  · exact exit_effect hp hrun
  · next hlen =>
    have hpos : 0 < image.length := by omega
    have horder := htame.2 p hp
    obtain ⟨⟨ptr, b⟩, hmalloc, hrun⟩ := of_bind_eq_ok hrun
    obtain ⟨code, k, hptr, hgranted⟩ :=
      (mallocPages_spec hinv.wf (imagePages_pos.2 hpos) htame.1).post_of_eq hmalloc
    obtain rfl : ptr = code * pageSize := hptr
    obtain ⟨s₁, hrelease, hrun⟩ := of_bind_eq_ok hrun
    cases hrun
    refine .execs hp hpos horder hgranted ?_
    rw [releaseProc] at hrelease
    split at hrelease
    · exact (freeSections_spec hgranted.wf fun page hpage ↦
        hgranted.numPages.symm ▸ released_lt hinv hp horder hpage).post_of_eq hrelease
    · next hel =>
      cases hrelease
      cases (hinv.proc pid p hp).stage with
      | thread _ hsec _ =>
        rw [hsec]
        exact Derefs.refl hgranted.wf
      | loaded size code hel' | running size rest hel' => exact absurd hel' hel

theorem frames_lt : ∀ x ∈ p.frames, x < s.buddy.numPages := by
  intro x hx
  obtain ⟨v, hv, rfl⟩ := mem_map.1 hx
  have hwf := hinv.proc pid p hp
  cases hlook : lookup p.table v with
  | none =>
    rw [v2pTrans_unmapped hlook]
    exact Nat.pow_pos (by decide)
  | some e =>
    rw [v2pTrans_mapped hlook, Nat.mul_div_cancel _ (by decide)]
    exact (hwf.frame v e.frame ⟨hwf.page_lt hv, e, hlook, rfl⟩).2

/-- `add_ref_sections` visits the pages of the sections, since there are no devices among them. -/
theorem addRefSections_eq :
    addRefSections p.table p.sections s.clear = .ok (s.clear.withRefs p.frames) := by
  have hwf := hinv.proc pid p hp
  have hdevice : p.sections.filter (·.type ≠ .device) = p.sections := by
    apply filter_eq_self.2
    intro sec hsec
    cases hwf.stage with
    | thread _ hnil => rw [hnil] at hsec; exact absurd hsec not_mem_nil
    | loaded size code _ _ hsecs =>
      rw [hsecs] at hsec
      rcases mem_cons.1 hsec with rfl | hsec
      · rfl
      · rw [mem_singleton.1 hsec]
        rfl
    | running size rest _ _ hsecs hrest =>
      rw [hsecs] at hsec
      rcases mem_cons.1 hsec with rfl | hsec
      · rfl
      · rcases hrest sec hsec with h | h <;> simp [h]
  have hptrs : ((p.sections.filter (·.type ≠ .device)).flatMap fun sec ↦
      (List.range sec.numPages).map fun i ↦ v2pTrans p.table (sec.base + i * pageSize)) =
      p.frames.map (· * pageSize) := by
    rw [hdevice, Proc.frames, Proc.pages, map_map, map_flatMap]
    apply flatMap_congr
    intro sec hsec
    rw [Section.pages, map_map]
    apply map_congr_left
    intro i hi
    have hpos : 0 < sec.numPages := (Nat.zero_le i).trans_lt (mem_range.1 hi)
    have hadd : sec.base + i * pageSize = (sec.firstPage + i) * pageSize := by
      rw [Section.base_eq hpos]
      ring
    simp only [Function.comp_apply, hadd]
    exact v2pTrans_page p.table (sec.firstPage + i)
  rw [addRefSections, hptrs]
  exact refAll_eq (s := s.clear) hinv.count_lt (frames_lt (s := s) hinv hp)

theorem fork_effect {child : ℕ} (hfetch : p.el0 = true → p.Fetched) (hchild : child < maxProc)
    (hnone : s.procs child = none) (hrun : fork s.clear pid child = .ok s') :
    Effect s (.fork pid child) s' := by
  rw [fork, proc_eq (s := s.clear) hp, ok_bind] at hrun
  split at hrun
  · next hel =>
    rw [addRefSections_eq hinv hp, ok_bind] at hrun
    cases hrun
    exact .forks hp hel (hfetch hel) hchild hnone
  · next hel =>
    cases hrun
    exact .forksThread hp (by simpa using hel) hchild hnone

omit hp in
theorem mmap_effect {len prot flags : ℕ} (htame : Tame s (.mmap pid addr len prot flags))
    (hp : s.procs pid = some p) (hel : p.el0 = true) (hfetch : p.Fetched)
    (hrun : mmap s.clear pid addr len prot flags = .ok s') :
    Effect s (.mmap pid addr len prot flags) s' := by
  have hwf := hinv.proc pid p hp
  rw [mmap, proc_eq (s := s.clear) hp, ok_bind] at hrun
  obtain ⟨page, hsearch, hrun⟩ := of_bind_eq_ok hrun
  have hregion := mmapSearch_spec (fun v hv e he ↦ (hwf.frame v e.frame ⟨hv, e, he, rfl⟩).1) hsearch
  have hfree : ∀ v, page ≤ v → v < page + imagePages len → lookup p.table v = none := by
    intro v hlow hhigh
    rcases hregion with hzero | ⟨-, hnone⟩
    · omega
    · exact hnone v hlow hhigh
  simp only at hrun
  split at hrun
  · next hflag =>
    cases hrun
    exact .reserves hp hel hfetch (.inl hflag) (hregion.imp id And.left) hfree
  · next hflag =>
    rcases Nat.eq_zero_or_pos (imagePages len) with hzero | hpos
    · have hnothing : populate (mmapFlags prot) (page + imagePages len) (imagePages len + 2)
        (imagePages len) page s.clear.buddy p.table = .ok (s.clear.buddy, p.table) := by
        rw [hzero, populate, if_neg (by omega)]
      rw [hnothing, ok_bind] at hrun
      cases hrun
      exact .reserves hp hel hfetch (.inr hzero) (.inl hzero) hfree
    · rw [populate_eq _ hpos] at hrun
      obtain ⟨⟨b, t⟩, hpop, hrun⟩ := of_bind_eq_ok hrun
      obtain ⟨⟨ptr, b'⟩, hmalloc, hpop⟩ := of_bind_eq_ok hpop
      cases hpop
      obtain ⟨frame, k, hptr, hgranted⟩ := (mallocPages_spec hinv.wf hpos
        (htame.1 hflag (imagePages_pos.1 hpos))).post_of_eq hmalloc
      obtain rfl : ptr = frame * pageSize := hptr
      cases hrun
      exact .populates hp hel hfetch hflag hpos (hregion.resolve_left hpos.ne').1 hfree hgranted

theorem faultText_effect {code : ℕ} (hel : p.el0 = true) (hsize : 0 < size)
    (hsecs : p.sections = [textSection size, stackSection]) (htable : p.table = emptyPageTable)
    (hcode : p.code = code * pageSize) (hpos : 0 < code)
    (hle : code + (textSection size).numPages ≤ s.buddy.numPages)
    (hrun : faultText s.clear pid p (textSection size) = .ok s') :
    Effect s (.translationFault pid addr) s' := by
  have hpages : usrCodeStart / pageSize + ((textSection size).size - 1) / pageSize + 1 =
      (textSection size).numPages := by
    rw [textSection_numPages hsize, usrCodeStart, Nat.zero_div, Nat.zero_add]
    rfl
  have hproc : { p with
      table := fillPageTable p.table (usrCodeStart / pageSize)
        (textSection size).numPages p.code textFlags } =
      p.withText size code := by
    rw [Proc.withText, hcode]
    rfl
  have hptrs : (List.range (textSection size).numPages).map (fun i ↦ p.code + i * pageSize) =
      (textFrames size code).map (· * pageSize) := by
    rw [map_map]
    apply map_congr_left
    intro i _
    rw [hcode, Function.comp_apply]
    ring
  have hrefs : ∀ x ∈ textFrames size code, x < s.buddy.numPages := by
    intro x hx
    obtain ⟨i, hi, rfl⟩ := mem_map.1 hx
    have := mem_range.1 hi
    omega
  rw [faultText] at hrun
  simp only [hpages, hproc, hptrs] at hrun
  rw [refAll_eq (s := s.clear.setProc pid (p.withText size code)) hinv.count_lt hrefs] at hrun
  cases hrun
  exact .fetches hp hel hsize hsecs htable hcode hpos hle

end

theorem faultData_effect (htame : Tame s (.translationFault pid addr))
    (hp : s.procs pid = some p) (hel : p.el0 = true) (hfetched : p.Fetched)
    (hpage : addr / pageSize ∈ p.pages) (hnone : lookup p.table (addr / pageSize) = none)
    (hrun : faultData s.clear pid p addr = .ok s') : Effect s (.translationFault pid addr) s' := by
  rw [faultData] at hrun
  obtain ⟨⟨ptr, b⟩, hmalloc, hrun⟩ := of_bind_eq_ok hrun
  obtain ⟨frame, k, hptr, hgranted⟩ := (mallocPages_spec hinv.wf Nat.one_pos htame.1).post_of_eq
    hmalloc
  obtain rfl : ptr = frame * pageSize := hptr
  obtain rfl := hgranted.single rfl
  have hlt : frame < b.numPages := by
    have := hgranted.inside
    rw [hgranted.numPages]
    omega
  have hrefs := refPage_eq
    (s := { s.clear with buddy := b }.setProc pid (p.withPages (addr / pageSize) 1 frame dataFlags))
    hinv.count_lt hlt
  obtain rfl := Except.ok.inj (hrefs.symm.trans hrun)
  exact .grows hp hel hfetched hpage hnone hgranted

theorem translationFault_effect (htame : Tame s (.translationFault pid addr))
    (hp : s.procs pid = some p) (hel : p.el0 = true) (hnone : lookup p.table (addr / pageSize) = none)
    (hfetch : p.Fetched ∨ addr = usrCodeStart) (hrun : translationFault s.clear pid addr = .ok s') :
    Effect s (.translationFault pid addr) s' := by
  rw [translationFault, proc_eq (s := s.clear) hp, ok_bind] at hrun
  cases hfind : p.sections.find? (·.contains addr) with
  | none =>
    rw [hfind] at hrun
    exact exit_effect hp hrun
  | some sec =>
    rw [hfind] at hrun
    have hcontains : sec.contains addr = true := by simpa using find?_some hfind
    have hsec : sec ∈ p.sections := mem_of_find?_eq_some hfind
    cases (hinv.proc pid p hp).stage with
    | thread hthread =>
      rw [hel] at hthread
      exact absurd hthread (by decide)
    | loaded size code _ hsize hsecs htable hcode hpos hle =>
      have haddr : addr = usrCodeStart := hfetch.resolve_left (Proc.not_fetched htable)
      have htext : (textSection size).contains addr = true := by
        simp [Section.contains, textSection, haddr, usrCodeStart, hsize]
      obtain rfl : textSection size = sec := by
        simp only [hsecs, find?_cons, htext] at hfind
        exact Option.some.inj hfind
      exact faultText_effect hinv hp hel hsize hsecs htable hcode hpos hle hrun
    | running size rest _ hsize hsecs hrest hmapped =>
      have hfetched : p.Fetched := hmapped 0 (textSection_pos hsize)
      have hpage := Section.page_mem hcontains
      -- The program is mapped as a whole, so the fault is in another section.
      have hdata : sec.type = .stack ∨ sec.type = .heap := by
        rw [hsecs] at hsec
        refine (mem_cons.1 hsec).elim (fun htext ↦ ?_) (hrest sec)
        subst htext
        have hfirst := textSection_firstPage size
        exact absurd hnone (hmapped _ (by omega))
      have hgrow : faultData s.clear pid p addr = .ok s' := by
        rcases hdata with htype | htype <;> simpa only [faultIn, htype] using hrun
      exact faultData_effect hinv htame hp hel hfetched
        (Proc.mem_pages_iff.2 ⟨sec, hsec, hpage⟩) hnone hgrow

theorem permissionFault_effect (htame : Tame s (.permissionFault pid addr)) {e : Pte}
    (hp : s.procs pid = some p) (hel : p.el0 = true) (haddr : addr / pageSize < userPages)
    (hlook : lookup p.table (addr / pageSize) = some e)
    (hrun : permissionFault s.clear pid addr = .ok s') : Effect s (.permissionFault pid addr) s' := by
  have hmaps : p.Maps (addr / pageSize) e.frame := ⟨haddr, e, hlook, rfl⟩
  have hlt := ((hinv.proc pid p hp).frame _ _ hmaps).2
  have hv2p : v2pTrans p.table addr = e.frame * pageSize + addr % pageSize :=
    by rw [v2pTrans, hlook]
  have hoff : (e.frame * pageSize + addr % pageSize) % pageSize = addr % pageSize := by
    rw [Nat.mul_add_mod_self_right, Nat.mod_mod]
  have hpage : v2pTrans p.table addr - v2pTrans p.table addr % pageSize = e.frame * pageSize := by
    rw [hv2p, hoff, Nat.add_sub_cancel]
  have hdiv : e.frame * pageSize / pageSize = e.frame := Nat.mul_div_cancel _ (by decide)
  rw [permissionFault, proc_eq (s := s.clear) hp, ok_bind] at hrun
  simp only [hpage, hdiv] at hrun
  rw [if_neg (show ¬ s.clear.buddy.numPages ≤ e.frame from Nat.not_le.2 hlt)] at hrun
  split at hrun
  · split at hrun
    · next hcount =>
      rw [copyOnWrite] at hrun
      obtain ⟨⟨ptr, b⟩, hmalloc, hrun⟩ := of_bind_eq_ok hrun
      obtain ⟨frame', k, hptr, hgranted⟩ :=
        (mallocPages_spec hinv.wf Nat.one_pos htame.1).post_of_eq hmalloc
      obtain rfl : ptr = frame' * pageSize := hptr
      obtain rfl := hgranted.single rfl
      obtain ⟨s₁, hderef, hrun⟩ := of_bind_eq_ok hrun
      have hderefs := (derefPage_spec (s := { s.clear with
        buddy := b
        mem := copyPage s.mem (frame' * pageSize) (e.frame * pageSize) }.setProc pid
          (p.withFrame addr frame'))
        hgranted.wf e.frame (hgranted.numPages.symm ▸ hlt)).post_of_eq hderef
      have hlt' : frame' < s₁.buddy.numPages := by
        have hinside := hgranted.inside
        have hnum : s₁.buddy.numPages = b.numPages := congrArg (2 ^ ·) hderefs.exp
        rw [hnum, hgranted.numPages]
        omega
      have hcounts : ∀ x, s₁.refCount x < 2 ^ 16 := by
        intro x
        rw [hderefs.refCount]
        exact (Nat.sub_le _ _).trans_lt (hinv.count_lt x)
      rw [refPage_eq hcounts hlt'] at hrun
      cases hrun
      exact .copies hp hel hmaps hcount hgranted hderefs
    · next hcount =>
      cases hrun
      have hsame : replacePageEntry p.table addr (v2pTrans p.table addr) true =
          replacePageEntry p.table addr (e.frame * pageSize) true := by
        have hframe : (e.frame * pageSize + addr % pageSize) / pageSize = e.frame := by
          rw [Nat.mul_comm, Nat.mul_add_div (by decide),
            Nat.div_eq_of_lt (Nat.mod_lt _ (by decide)), Nat.add_zero]
        rw [replacePageEntry, replacePageEntry, hv2p, hframe, hdiv]
      rw [hsame]
      exact .unprotects hp hel hmaps (Nat.not_lt.1 hcount)
  · exact exit_effect hp hrun

theorem reap_effect (htame : Tame s (.reap pid)) (hp : s.procs pid = some p)
    (hrun : reap s.clear pid = .ok s') : Effect s (.reap pid) s' := by
  have horder := htame.2 p hp
  rw [reap, proc_eq (s := s.clear) hp, ok_bind] at hrun
  obtain ⟨s₁, hfree, hrun⟩ := of_bind_eq_ok hrun
  cases hrun
  exact .reaps hp horder ((freeSections_spec (s := s.clear) hinv.wf fun x hx ↦
      released_lt hinv hp horder hx).post_of_eq hfree)

theorem kernelAlloc_effect (hrun : kernelAlloc s.clear size = .ok s') :
    Effect s (.kernelAlloc size) s' := by
  rw [kernelAlloc] at hrun
  obtain ⟨⟨block, b⟩, hmalloc, hrun⟩ := of_bind_eq_ok hrun
  cases hrun
  have hpost := (buddyMalloc_spec hinv.wf.core hinv.wf.noFreePair size).post_of_eq hmalloc
  cases block with
  | some idx =>
    obtain ⟨m, k, halloc⟩ := hpost
    exact .takes (.of_allocated hinv.wf hmalloc halloc)
  | none =>
    have hwf : BuddyWf b := hpost.wf hinv.wf
    rcases hpost with ⟨-, rfl⟩ | ⟨-, rfl, -⟩
    · exact .takesNone hwf rfl rfl
    · exact .takesNone hwf rfl rfl

theorem kernelFree_effect {head : ℕ} (hhead : head ∈ s.kernel) (hrun : kernelFree s.clear head = .ok s') :
    Effect s (.kernelFree head) s' := by
  rw [kernelFree] at hrun
  obtain ⟨b, hfree, hrun⟩ := of_bind_eq_ok hrun
  cases hrun
  obtain ⟨hcore, hpair, hpost⟩ := (buddyFree_spec hinv.wf.core hinv.wf.noFreePair _).post_of_eq
    hfree
  rcases hpost with ⟨idx, k, hptr, -, hframe, hused⟩ | ⟨-, msg, -, rfl⟩
  · obtain rfl : head = idx := Nat.eq_of_mul_eq_mul_right (by decide : 0 < pageSize) hptr
    refine .gives hhead ⟨hcore, hpair⟩ hframe.numPagesExp fun x hx ↦ ?_
    rw [hused, Function.update_of_ne hx]
  · exact .gives hhead ⟨hcore, hpair⟩ rfl fun _ _ ↦ rfl

theorem VmOp.effect (henabled : op.Enabled s) (htame : Tame s op) (hrun : op.run s = .ok s') :
    Effect s op s' := by
  cases op with
  | exec pid image =>
    obtain ⟨p, hp, -, -⟩ := henabled
    exact exec_effect hinv htame hp hrun
  | fork pid child =>
    obtain ⟨⟨p, hp, -, hfetch⟩, hchild, hnone⟩ := henabled
    exact fork_effect hinv hp hfetch hchild hnone hrun
  | mmap pid addr len prot flags =>
    obtain ⟨p, hp, -, hel, hfetch⟩ := henabled
    exact mmap_effect hinv htame hp hel hfetch hrun
  | translationFault pid addr =>
    obtain ⟨p, hp, -, hel, -, hnone, hfetch⟩ := henabled
    exact translationFault_effect hinv htame hp hel hnone hfetch hrun
  | permissionFault pid addr =>
    obtain ⟨p, hp, -, hel, haddr, e, hlook, -⟩ := henabled
    exact permissionFault_effect hinv htame hp hel haddr hlook hrun
  | store pid addr byte =>
    obtain ⟨p, hp, -, -, haddr, e, hlook, hwrite⟩ := henabled
    rw [VmOp.run, VMem.store, proc_eq (s := s.clear) hp, ok_bind] at hrun
    cases hrun
    rw [show v2pTrans p.table addr = e.frame * pageSize + addr % pageSize by rw [v2pTrans, hlook]]
    exact .stores hp haddr hlook hwrite
  | exit pid =>
    obtain ⟨p, hp, -⟩ := henabled
    exact exit_effect hp hrun
  | reap pid =>
    obtain ⟨p, hp, -⟩ := henabled
    exact reap_effect hinv htame hp hrun
  | kernelAlloc size => exact kernelAlloc_effect hinv hrun
  | kernelFree head => exact kernelFree_effect hinv henabled hrun

end Inversion

end CapstoneKernel.VMem
