import CapstoneKernel.VMem.Isolation

/-!
# The blocks that `deref_page` frees

`load_prog` allocates a program as one block, and the pages of the program are counted one by one.
`deref_page` frees the whole block when the count of its first page drops to 0.  In runs in which
the first page of a program of several pages is counted for another process whenever a process gives
the program up, no block is freed of which a page is still counted.
-/

namespace CapstoneKernel.VMem

open Mem Execution Function List Option

variable {pid k : ℕ} {p : Proc} {op : VmOp} {t t' : VmState} {b : Buddy}

/-- The program has several pages. -/
def Proc.LongText (p : Proc) : Prop := ∃ sec ∈ p.sections, sec.type = .text ∧ 1 < sec.numPages
deriving Decidable

/-- The sections of the process do not overlap, and the first page of a program of several pages is
counted for another process too. -/
def LeavesProgram (s : VmState) (pid : ℕ) : Prop :=
  ∀ p, s.procs pid = some p → p.pages.Nodup ∧
    (p.LongText → 2 ≤ s.refCount (v2pTrans p.table usrCodeStart / pageSize))
deriving Decidable

/-- Programs of several pages are not given up by the last process that has them, and nothing is
mapped by `MAP_POPULATE`. -/
def KeepsPrograms (s : VmState) : VmOp → Prop
  | .exec pid _ => LeavesProgram s pid
  | .reap pid => LeavesProgram s pid
  | .mmap _ _ _ _ flags => flags &&& mapPopulate = 0
  | _ => True

instance (s : VmState) (op : VmOp) : Decidable (KeepsPrograms s op) := by
  induction op using VmOp.casesOn <;> unfold KeepsPrograms <;> infer_instance

/-- The condition for blocks to be freed without counted pages. -/
def ReleaseAllowed (s : VmState) (op : VmOp) : Prop := Tame s op ∧ KeepsPrograms s op ∧ CountsFit s op
deriving Decidable

/-- Mapped pages are counted, and of the pages that processes hold only the first page of a program
of several pages is the head of a block of several pages. -/
structure Counted (s : VmState) : Prop where
  counted : ∀ r q v x, s.procs r = some q → q.Maps v x → 1 ≤ s.refCount x
  head : ∀ r q v x k, s.procs r = some q → q.Holds v x → usedAt s.buddy x = some k →
    k = 0 ∨ (v = 0 ∧ q.LongText)

section Step

variable {boot : ℕ → Option ℕ} {s s' : VmState} (hinv : VmInv s) (hiso : Isolated boot s) (hcounted : Counted s)

include hinv hiso hcounted

/-! ## The condition for isolation -/

omit hinv in
/-- A page whose count is used up by the release is a block of its own, if it heads a block. -/
theorem Counted.single_of_released {x : ℕ} (hp : s.procs pid = some p) (horder : p.InOrder)
    (hleaves : LeavesProgram s pid) (hpos : 0 < s.refCount x)
    (hcount : s.refCount x ≤ (releasedPages p.table p.sections).count x) (hused : usedAt s.buddy x = some k) :
    k = 0 := by
  obtain ⟨hnodup, hlong⟩ := hleaves p hp
  have hone := hiso.count_released_le hp horder hnodup x
  have hmem : x ∈ releasedPages p.table p.sections := count_pos_iff.1 (by omega)
  obtain ⟨v, -, hv⟩ := horder.mem_released.1 hmem
  refine (hcounted.head pid p v x k hp hv.holds hused).resolve_right ?_
  rintro ⟨rfl, htext⟩
  have htwo := hlong htext
  have hfirst : v2pTrans p.table usrCodeStart = x * pageSize := hv.v2pTrans
  rw [hfirst, Nat.mul_div_cancel x (by decide)] at htwo
  omega

theorem Counted.givesUpOwn (hleaves : LeavesProgram s pid)
    (horder : ∀ p, s.procs pid = some p → p.InOrder) : GivesUpOwn s pid := by
  refine fun p hp ↦ ⟨(hleaves p hp).1, fun x hx hone k hused ↦ ?_⟩
  rintro ⟨r, -, hr, q, hq, v, hv, e, he, hlow, hhigh⟩
  have hpos := count_pos_iff.2 hx
  obtain rfl := hcounted.single_of_released hiso hp (horder p hp) hleaves (by omega)
    (by omega) hused
  obtain rfl : e.frame = x := by omega
  obtain ⟨u, -, hu⟩ := (horder p hp).mem_released.1 hx
  have hmaps : q.Maps v e.frame := ⟨(hinv.proc r q hq).page_lt hv, e, he, rfl⟩
  exact hr (hiso.eq_of_count_le hinv hone.le hq hp hmaps.holds hu.holds)

theorem Counted.isolationAllowed (hallowed : ReleaseAllowed s op) : IsolationAllowed s op := by
  obtain ⟨htame, hkeeps, hfit⟩ := hallowed
  refine ⟨htame, ?_, ?_⟩
  · cases op with
    | exec pid image | reap pid => exact hcounted.givesUpOwn hinv hiso hkeeps htame.2
    | _ => exact trivial
  · cases op with
    | fork pid child =>
      intro p hp x hx hne
      refine ⟨?_, hfit.frames hp x hx⟩
      rcases Proc.mem_frames (hinv.proc pid p hp) hx with ⟨v, -, hv⟩ | ⟨hzero, -⟩
      · exact hcounted.counted pid p v x hp hv
      · exact absurd hzero hne
    | _ => exact trivial

/-! ## One step -/

section

variable (hinv' : VmInv s')
include hinv'

omit hinv in
/-- The order of a block headed by a held page does not change while the block is in use. -/
theorem Counted.head_of_kept {r v x : ℕ} {q : Proc} (hq : s.procs r = some q) (hv : q.Holds v x)
    (hkept : ∀ head m, InBlock s.buddy x head m → boot head = none → head ∉ s.kernel →
      usedAt s'.buddy head = some m) (hused : usedAt s'.buddy x = some k) :
    k = 0 ∨ (v = 0 ∧ q.LongText) := by
  obtain ⟨head, m, hblock, hboot, hkernel⟩ := hiso.block r q v x hq hv
  obtain ⟨rfl, rfl⟩ := InBlock.unique hinv'.wf (.head hused) ⟨hkept head m hblock hboot hkernel, hblock.2⟩
  exact hcounted.head r q v x k hq hv hblock.1

omit hinv in
/-- Operations that free no block of a process. -/
theorem Counted.of_keeps
    (hkeeps : ∀ head m, usedAt s.buddy head = some m → boot head = none → head ∉ s.kernel →
      usedAt s'.buddy head = some m)
    (hmaps : ∀ r q v x, s'.procs r = some q → q.Maps v x → 1 ≤ s'.refCount x)
    (hholds : ∀ r q v x, s'.procs r = some q → q.Holds v x →
      (∃ r₀ q₀, s.procs r₀ = some q₀ ∧ q₀.Holds v x ∧ (q₀.LongText → q.LongText)) ∨
        usedAt s'.buddy x = some 0) : Counted s' := by
  refine ⟨hmaps, fun r q v x k hq hv hused ↦ ?_⟩
  rcases hholds r q v x hq hv with ⟨r₀, q₀, hq₀, hv₀, hlong⟩ | hzero
  · exact (hcounted.head_of_kept hiso hinv' hq₀ hv₀
      (fun head m hblock ↦ hkeeps head m hblock.1) hused).imp id
      fun ⟨hzero, htext⟩ ↦ ⟨hzero, hlong htext⟩
  · exact .inl (mem_unique hused hzero)

omit hinv in
/-- Operations that free no block and change one process. -/
theorem Counted.of_proc (pid : ℕ) (q : Proc) (hself : s'.procs pid = some q)
    (hother : ∀ r, r ≠ pid → s'.procs r = s.procs r)
    (hkeeps : ∀ head m, usedAt s.buddy head = some m → usedAt s'.buddy head = some m)
    (hrefs : ∀ x, 1 ≤ s.refCount x → 1 ≤ s'.refCount x)
    (hmaps : ∀ v x, q.Maps v x → 1 ≤ s'.refCount x) (hholds : ∀ v x, q.Holds v x →
      (∃ r₀ q₀, s.procs r₀ = some q₀ ∧ q₀.Holds v x ∧ (q₀.LongText → q.LongText)) ∨
        usedAt s'.buddy x = some 0) : Counted s' := by
  refine hcounted.of_keeps hiso hinv' (fun head m h _ _ ↦ hkeeps head m h) ?_ ?_ <;>
    intro r q' v x hq hv <;>
    by_cases hr : r = pid
  · subst hr
    obtain rfl := mem_unique hself hq
    exact hmaps v x hv
  · rw [hother r hr] at hq
    exact hrefs x (hcounted.counted r q' v x hq hv)
  · subst hr
    obtain rfl := mem_unique hself hq
    exact hholds v x hv
  · rw [hother r hr] at hq
    exact .inl ⟨r, q', hq, hv, id⟩

omit hinv' in
omit hinv in
/-- Operations that make a process with the pages of another one, or with fewer. -/
theorem Counted.of_setProc {r : ℕ} {q : Proc} (hinv' : VmInv (s.clear.setProc pid q))
    (hp : s.procs r = some p) (hmaps : ∀ v x, q.Maps v x → p.Maps v x)
    (hholds : ∀ v x, q.Holds v x → p.Holds v x) (hlong : p.LongText → q.LongText) :
    Counted (s.clear.setProc pid q) :=
  hcounted.of_proc hiso hinv' pid q (update_self ..) (fun _ hr ↦ update_of_ne hr _ _)
    (fun _ _ h ↦ h) (fun _ h ↦ h) (fun v x hv ↦ hcounted.counted r p v x hp (hmaps v x hv))
    fun v x hv ↦ .inl ⟨r, p, hp, hholds v x hv, hlong⟩

omit hinv in
/-- Operations of the allocator. -/
theorem Counted.of_buddy (hprocs : s'.procs = s.procs) (hrefs : s'.refCount = s.refCount)
    (hkeeps : ∀ head m, usedAt s.buddy head = some m → boot head = none → head ∉ s.kernel →
      usedAt s'.buddy head = some m) : Counted s' :=
  hcounted.of_keeps hiso hinv' hkeeps (by rw [hprocs, hrefs]; exact hcounted.counted)
    fun r q v x hq hv ↦ .inl ⟨r, q, hprocs ▸ hq, hv, id⟩

section

variable (hp : s.procs pid = some p)
include hp

/-- A process gives up its memory: the other processes keep their pages and their counts. -/
theorem Counted.releases (horder : p.InOrder) (hleaves : LeavesProgram s pid)
    (hderefs : Derefs t (releasedPages p.table p.sections) t') (hrefs : t.refCount = s.refCount)
    (hkeeps : ∀ head k, usedAt s.buddy head = some k → usedAt t.buddy head = some k)
    (hbuddy : s'.buddy = t'.buddy) (hcounts : s'.refCount = t'.refCount)
    (hother : ∀ r, r ≠ pid → s'.procs r = s.procs r)
    (hself : ∀ q, s'.procs pid = some q → (∀ v x, ¬ q.Maps v x) ∧
      ∀ v x k, q.Holds v x → usedAt s'.buddy x = some k → k = 0 ∨ (v = 0 ∧ q.LongText)) :
    Counted s' := by
  have hown : GivesUpOwn s pid :=
    hcounted.givesUpOwn hinv hiso hleaves fun p' hp' ↦ mem_unique hp hp' ▸ horder
  refine ⟨fun r q v x hq hv ↦ ?_, fun r q v x k hq hv hused ↦ ?_⟩ <;> by_cases hr : r = pid
  · subst hr
    exact absurd hv ((hself q hq).1 v x)
  · rw [hother r hr] at hq
    rw [hcounts, hderefs.refCount, hrefs]
    have hone := hiso.count_released_le hp horder (hown p hp).1 x
    have hpos := hcounted.counted r q v x hq hv
    by_contra hzero
    -- The page is counted once and held by both processes.
    have hmem : 0 < (releasedPages p.table p.sections).count x := by omega
    obtain ⟨u, -, hu⟩ := horder.mem_released.1 (count_pos_iff.1 hmem)
    exact hr (hiso.eq_of_count_le hinv (by omega) hq hp hv.holds hu.holds)
  · subst hr
    exact (hself q hq).2 v x k hv hused
  · rw [hother r hr] at hq
    refine hcounted.head_of_kept hiso hinv' hq hv (fun head m hblock _ _ ↦ ?_) hused
    rw [hbuddy]
    exact hiso.release_keeps hinv hp horder hderefs hown hrefs hr hq hv hblock
      (hkeeps head m hblock.1)

theorem Counted.execs {size code : ℕ} (hsize : 0 < size) (horder : p.InOrder)
    (hleaves : LeavesProgram s pid) (hgranted : Granted s.buddy (imagePages size) code k b)
    (hderefs : Derefs t (releasedPages p.table p.sections) t') (hbuddy : t.buddy = b)
    (hrefs : t.refCount = s.refCount) (hprocs : t.procs = s.procs)
    (hs' : s' = t'.setProc pid (loadedProc (code * pageSize) size)) : Counted s' := by
  subst hs'
  refine hcounted.releases hinv hiso hinv' hp horder hleaves hderefs hrefs
    (fun _ _ h ↦ hbuddy ▸ hgranted.keeps h) rfl rfl
    (fun r hr ↦ (update_of_ne hr _ _).trans (by rw [hderefs.procs, hprocs])) fun q hq ↦ ?_
  obtain rfl := setProc_self hq
  refine ⟨fun v x ↦ Proc.not_maps_of_empty rfl v x, fun v x m hv hused ↦ ?_⟩
  obtain ⟨hlt, rfl⟩ := Proc.loadedProc_holds hv
  have henough := hgranted.enough
  rw [← textSection_imagePages hsize] at henough
  have hcode := hiso.granted_kept hp horder hderefs hgranted hbuddy
  obtain ⟨hhead, rfl⟩ := InBlock.unique hinv'.wf (.head hused) ⟨hcode, by omega, by omega⟩
  by_cases hone : (textSection size).numPages = 1
  · exact .inl (hgranted.single (textSection_imagePages hsize ▸ hone))
  · exact .inr ⟨by omega, textSection size, mem_cons_self, rfl, by omega⟩

theorem Counted.forks {child : ℕ} {w : ℕ → Bool} (hfetched : p.Fetched) (hfit : Fits s p.frames)
    (hs' : s' = { ((s.clear.withRefs p.frames).setProc pid (p.forked s.usableEnd)).setProc child
      (p.forked s.usableEnd) with wPermission := w }) : Counted s' := by
  subst hs'
  have hmono (x : ℕ) (h : 1 ≤ s.refCount x) : 1 ≤ (s.clear.withRefs p.frames).refCount x := by
    rw [withRefs_refCount s.clear p.frames hinv.count_lt hfit x]
    exact h.trans (Nat.le_add_right _ _)
  refine hcounted.of_keeps hiso hinv' (fun _ _ h _ _ ↦ h)
    (fun r q v x hq hv ↦ ?_) fun r q v x hq hv ↦ ?_
  · rcases forks_cases hq with ⟨-, rfl⟩ | ⟨-, hq⟩
    · exact hmono x (hcounted.counted pid p v x hp (Proc.forked_maps.1 hv))
    · exact hmono x (hcounted.counted r q v x hq hv)
  · rcases forks_cases hq with ⟨-, rfl⟩ | ⟨-, hq⟩
    · exact .inl ⟨pid, p, hp, (Proc.forked_maps.1 (hv.maps (forked_fetched hfetched _))).holds, id⟩
    · exact .inl ⟨r, q, hq, hv, id⟩

theorem Counted.fetches {size code : ℕ} (hloaded : p.LoadedAt size code)
    (hfit : Fits s (textFrames size code))
    (hs' : s' = (s.clear.setProc pid (p.withText size code)).withRefs
      (textFrames size code)) : Counted s' := by
  subst hs'
  obtain ⟨hfetched, hmaps⟩ := fetched_withText hinv hinv' hp hloaded (update_self ..)
  have hrefs (x : ℕ) : _ = s.refCount x + _ := withRefs_refCount
    (s.clear.setProc pid (p.withText size code)) _ hinv.count_lt hfit x
  refine hcounted.of_proc hiso hinv' pid _ (update_self ..) (fun r hr ↦ update_of_ne hr _ _)
    (fun _ _ h ↦ h) (fun x h ↦ by rw [hrefs]; omega) (fun v x hv ↦ ?_)
    fun v x hv ↦ .inl ⟨pid, p, hp, ?_, id⟩
  · obtain ⟨hlt, rfl⟩ := (hmaps v x).1 hv
    have hmem : code + v ∈ textFrames size code := mem_map.2 ⟨v, mem_range.2 hlt, rfl⟩
    have hpos := count_pos_iff.2 hmem
    rw [hrefs]
    omega
  · obtain ⟨hlt, hx⟩ := (hmaps v x).1 (hv.maps hfetched)
    exact .inr ⟨size, code, hloaded, hlt, hx⟩

theorem Counted.grows {page frame : ℕ} (hpage : page ∈ p.pages)
    (hgranted : Granted s.buddy 1 frame 0 b) (hfit : s.refCount frame + 1 < 2 ^ 16)
    (hs' : s' = ({ s.clear with buddy := b }.setProc pid (p.withPages page 1 frame dataFlags)).withRefs [frame]) :
    Counted s' := by
  have hlt := (hinv.proc pid p hp).page_lt hpage
  subst hs'
  have hfetched := (hinv'.proc pid _ (update_self ..)).fetched
    ((Proc.withPages_one_maps hlt).2 (.inl ⟨rfl, rfl⟩))
  have hrefs (x : ℕ) : _ = s.refCount x + _ := withRefs_one_refCount
    ({ s.clear with buddy := b }.setProc pid (p.withPages page 1 frame dataFlags)) hinv.count_lt hfit x
  refine hcounted.of_proc hiso hinv' pid _ (update_self ..) (fun r hr ↦ update_of_ne hr _ _)
    (fun _ _ h ↦ hgranted.keeps h) (fun x h ↦ by rw [hrefs]; omega) (fun v x hv ↦ ?_)
    fun v x hv ↦ ?_
  · rw [hrefs]
    rcases (Proc.withPages_one_maps hlt).1 hv with ⟨-, rfl⟩ | ⟨-, hold⟩
    · rw [if_pos rfl]
      omega
    · exact (hcounted.counted pid p v x hp hold).trans (Nat.le_add_right _ _)
  · rcases (Proc.withPages_one_maps hlt).1 (hv.maps hfetched) with ⟨-, rfl⟩ | ⟨-, hold⟩
    · exact .inr hgranted.used
    · exact .inl ⟨pid, p, hp, hold.holds, id⟩

end

end

theorem Counted.copies {addr frame frame' : ℕ} {mem : ℕ → BitVec 8}
    (hinv' : VmInv (t.withRefs [frame'])) (hp : s.procs pid = some p)
    (hmaps : p.Maps (addr / pageSize) frame) (hcount : 1 < s.refCount frame)
    (hgranted : Granted s.buddy 1 frame' 0 b)
    (hderefs : Derefs ({ s.clear with buddy := b, mem := mem }.setProc pid (p.withFrame addr frame'))
      [frame] t) (hfit : s.refCount frame' + 1 < 2 ^ 16) : Counted (t.withRefs [frame']) := by
  have hfetched := (hinv.proc _ _ hp).fetched hmaps
  have hprocs : t.procs = update s.procs pid (some (p.withFrame addr frame')) := hderefs.procs
  have hused (x : ℕ) : usedAt t.buddy x = usedAt b x := hderefs.usedAt_of_counted hcount x
  have hrefs (x : ℕ) := copied_refCount hinv hderefs rfl hfit x
  have hmono (x : ℕ) (h : 1 ≤ s.refCount x) : 1 ≤ (t.withRefs [frame']).refCount x := by
    rw [hrefs]
    split
    · next heq =>
      rw [← heq]
      omega
    · omega
  refine hcounted.of_proc hiso hinv' pid (p.withFrame addr frame')
    ((congrFun hprocs pid).trans (update_self ..))
    (fun r hr ↦ (congrFun hprocs r).trans (update_of_ne hr _ _))
    (fun head _ h ↦ (hused head).trans (hgranted.keeps h)) hmono (fun v x hv ↦ ?_) fun v x hv ↦ ?_
  · rcases (Proc.withFrame_maps hmaps).1 hv with ⟨-, rfl⟩ | ⟨-, hold⟩
    · rw [hrefs, if_pos (rfl : x = x)]
      omega
    · exact hmono x (hcounted.counted pid p v x hp hold)
  · rcases withFrame_holds hmaps hfetched hv with ⟨-, rfl⟩ | ⟨-, hold, -⟩
    · exact .inr ((hused x).trans hgranted.used)
    · exact .inl ⟨pid, p, hp, hold, id⟩

theorem Effect.counted (hallowed : ReleaseAllowed s op) (h : Effect s op s') : Counted s' := by
  have hinv' := h.inv hinv
  obtain ⟨-, hprograms, hfit⟩ := hallowed
  cases h with
  | dies hp =>
    exact hcounted.of_setProc hiso hinv' hp (fun _ _ h ↦ h) (fun _ _ h ↦ h) id
  | execs hp hlen horder hgranted hderefs =>
    exact hcounted.execs hinv hiso hinv' hp hlen horder hprograms hgranted hderefs rfl rfl rfl rfl
  | forksThread hp hel hchild hnone =>
    exact hcounted.of_setProc hiso hinv' hp (fun _ _ h ↦ h) (fun _ _ h ↦ h) id
  | forks hp hel hfetched hchild hnone =>
    exact hcounted.forks hinv hiso hinv' hp hfetched (hfit.frames hp) rfl
  | @reserves _ _ _ _ _ _ p hp hel hfetched hflags hend hfree =>
    refine hcounted.of_setProc hiso hinv' hp (fun _ _ h ↦ h) (fun v x hv ↦ ?_) ?_
    · have hmaps : p.Maps v x := hv.maps (p := p.addSection _) hfetched
      exact hmaps.holds
    · rintro ⟨sec, hsec, htext⟩
      exact ⟨sec, mem_append_left _ hsec, htext⟩
  | populates hp hel hfetched hflags =>
    exact absurd hprograms hflags
  | fetches hp hel hsize hsecs htable hcode hpos hle =>
    exact hcounted.fetches hinv hiso hinv' hp ⟨hel, htable, hsecs, hcode⟩
      (hfit.text hp hsecs hcode) rfl
  | grows hp hel hfetched hpage hnone hgranted =>
    exact hcounted.grows hinv hiso hinv' hp hpage hgranted
      (hfit.next hgranted fun hnext ↦ by simp [refTargets, hnext]) rfl
  | copies hp hel hmaps hcount hgranted hderefs =>
    exact hcounted.copies hinv hiso hinv' hp hmaps hcount hgranted hderefs
      (hfit.next hgranted fun hnext ↦ by simp [refTargets, hnext])
  | @unprotects _ _ frame _ hp hel hmaps hcount =>
    have hfetched := withFrame_fetched frame hmaps ((hinv.proc _ _ hp).fetched hmaps)
    exact hcounted.of_setProc hiso hinv' hp (fun v x ↦ (Proc.withFrame_maps_same hmaps).1)
      (fun v x hv ↦ ((Proc.withFrame_maps_same hmaps).1 (hv.maps hfetched)).holds) id
  | stores hp haddr hlook hwrite =>
    exact hcounted.of_buddy hiso hinv' rfl rfl fun _ _ h _ _ ↦ h
  | @reaps pid _ t hp horder hderefs =>
    refine hcounted.releases hinv hiso hinv' hp horder hprograms hderefs rfl (fun _ _ h ↦ h) rfl rfl
      (fun r hr ↦ (update_of_ne hr _ _).trans (congrFun hderefs.procs r)) fun q hq ↦ ?_
    cases (update_self pid none t.procs).symm.trans hq
  | takes hgranted =>
    exact hcounted.of_buddy hiso hinv' rfl rfl fun _ _ h _ _ ↦ hgranted.keeps h
  | takesNone hwf hexp hused =>
    exact hcounted.of_buddy hiso hinv' rfl rfl fun head _ h _ _ ↦ (congrFun hused head).trans h
  | gives hhead hwf hexp hused =>
    exact hcounted.of_buddy hiso hinv' rfl rfl fun head' _ h _ hkernel ↦
      (hused head' fun heq ↦ hkernel (heq ▸ hhead)).trans h

/-! ## What is freed -/

omit hinv in
/-- A release frees blocks of one page only. -/
theorem Counted.release_frees
    (hderefs : Derefs t (releasedPages p.table p.sections) t') (hp : s.procs pid = some p) (horder : p.InOrder)
    (hleaves : LeavesProgram s pid) (hrefs : t.refCount = s.refCount) (htrace : t.trace = [])
    (hused : ∀ x ∈ releasedPages p.table p.sections, usedAt t.buddy x = usedAt s.buddy x) :
    ∀ head counted, .free head counted ∈ t'.trace → counted = [] := by
  intro head counted hfree
  obtain ⟨events, heq, -, -, hevents⟩ := hderefs.trace
  rw [heq, htrace, nil_append] at hfree
  obtain ⟨hpos, hle, k, hblock, hempty⟩ := hevents head counted hfree
  rw [hrefs] at hpos hle
  have hmem : head ∈ releasedPages p.table p.sections := count_pos_iff.1 (by omega)
  rw [hused head hmem] at hblock
  exact hempty (hcounted.single_of_released hiso hp horder hleaves hpos hle hblock)

omit hinv hiso hcounted in
theorem free_notMem_refs (pages : List ℕ) (head : ℕ) (counted : List ℕ) :
    .free head counted ∉ [] ++ pages.map VmEvent.ref := by
  simp

omit hinv in
/-- What an operation frees has no counted pages. -/
theorem Effect.frees_uncounted (hallowed : ReleaseAllowed s op) (h : Effect s op s') :
    ∀ head counted, .free head counted ∈ s'.trace → counted = [] := by
  obtain ⟨-, hprograms, -⟩ := hallowed
  cases h with
  | execs hp hlen horder hgranted hderefs =>
    have hfrees := hcounted.release_frees hiso hderefs hp horder hprograms rfl rfl
    refine hfrees fun x hx ↦ ?_
    obtain ⟨v, -, hv⟩ := horder.mem_released.1 hx
    refine hgranted.usedAt_of_ne x fun heq ↦ ?_
    exact hiso.granted_fresh hgranted heq.ge
      (heq ▸ Nat.lt_add_of_pos_right (Nat.pow_pos (by decide))) hp hv.holds
  | reaps hp horder hderefs =>
    have hfrees := hcounted.release_frees hiso hderefs hp horder hprograms rfl rfl
    exact hfrees fun _ _ ↦ rfl
  | @copies _ _ _ frame' _ _ t hp hel hmaps hcount hgranted hderefs =>
    intro head counted hfree
    obtain ⟨events, heq, -, -, hevents⟩ := hderefs.trace
    have hmem : .free head counted ∈ events := by
      change _ ∈ t.trace ++ [frame'].map VmEvent.ref at hfree
      rw [heq] at hfree
      simpa [VmState.clear, VmState.setProc] using hfree
    obtain ⟨hpos, hle, -⟩ := hevents head counted hmem
    change 0 < s.refCount head at hpos
    change s.refCount head ≤ _ at hle
    obtain rfl := mem_singleton.1 (count_pos_iff.1 (hpos.trans_le hle))
    rw [count_singleton_self] at hle
    omega
  | forks | fetches | grows =>
    exact fun head counted hfree ↦ absurd hfree (free_notMem_refs _ head counted)
  | dies | forksThread | reserves | populates | unprotects | stores | takes | takesNone | gives =>
    exact fun _ _ hfree ↦ absurd hfree not_mem_nil

end Step

/-! ## Runs -/

theorem VmReachable.counted {usableEnd : ℕ} (hend : usableEnd ≤ 2 ^ 42) {s : VmState}
    (h : VmReachable ReleaseAllowed usableEnd s) : (∃ boot, Isolated boot s) ∧ Counted s := by
  refine VmReachable.induct (P := fun s ↦ (∃ boot, Isolated boot s) ∧ Counted s)
    (fun _ _ h ↦ h.1) hend ?_ ?_ h
  · intro s hinit
    exact ⟨⟨_, hinit.isolated⟩, fun r q v x hq hv ↦ absurd hv.holds (hinit.not_holds r q v x hq),
      fun r q v x k hq hv ↦ absurd hv (hinit.not_holds r q v x hq)⟩
  · rintro s op s' hinv ⟨⟨boot, hiso⟩, hcounted⟩ hallowed heffect
    exact ⟨⟨boot, heffect.isolated hinv hiso (hcounted.isolationAllowed hinv hiso hallowed)⟩,
      heffect.counted hinv hiso hcounted hallowed⟩

/-- In every run that meets the condition, no block that `deref_page` frees has a page that is still
counted. -/
theorem freed_blocks_uncounted {usableEnd : ℕ} (hend : usableEnd ≤ 2 ^ 42) {s s' : VmState} {op : VmOp}
    (h : VmReachable ReleaseAllowed usableEnd s) (henabled : op.Enabled s) (hallowed : ReleaseAllowed s op)
    (hrun : op.run s = .ok s') : ∀ head counted, .free head counted ∈ s'.trace → counted = [] := by
  have hinv := h.inv (fun _ _ hallowed ↦ hallowed.1) hend
  obtain ⟨⟨boot, hiso⟩, hcounted⟩ := h.counted hend
  exact (VmOp.effect hinv henabled hallowed.1 hrun).frees_uncounted hiso hcounted hallowed

/-- A process with a program of one page and a touched stack exits and is reaped: its five pages are
freed one by one. -/
theorem freed_blocks_uncounted_reap : ∃ s s', VmReachable ReleaseAllowed 0x3b400000 s ∧
    (VmOp.reap 0).run s = .ok s' ∧ usedAt s.buddy 1 = some 0 ∧ usedAt s'.buddy 1 = none ∧
    ∀ head counted, .free head counted ∈ s'.trace → counted = [] := by
  obtain ⟨s, s', hreach, henabled, hrun, hallowed, hbefore, hafter⟩ := rpi3Run_exists ReleaseAllowed
    (tameOps.take 6 ++ [.exit 0]) (.reap 0)
    (fun s s' ↦ ReleaseAllowed s (.reap 0) ∧ usedAt s.buddy 1 = some 0 ∧ usedAt s'.buddy 1 = none)
    (by decide +kernel)
  exact ⟨s, s', hreach, hrun, hbefore, hafter,
    freed_blocks_uncounted (by decide) hreach henabled hallowed hrun⟩

/-- A program of two pages after a fork: the child has its own copy of the first page, so reaping
the parent uses up the count of that page, and the second page is freed with it although the child
still maps it. -/
theorem mapped_page_freed : ∃ s s', VmReachable (fun _ _ ↦ True) 0x3b400000 s ∧ (VmOp.reap 0).Enabled s ∧
    (VmOp.reap 0).run s = .ok s' ∧ .free 2 [3] ∈ s'.trace ∧ s'.refCount 3 = 1 ∧ usedAt s.buddy 2 = some 1 ∧
    usedAt s'.buddy 2 = none ∧ ∃ p, s'.procs 1 = some p ∧ p.Maps 1 3 :=
  rpi3Run_exists (fun _ _ ↦ True)
    [.kernelAlloc 1, .exec 0 (List.replicate 4097 0), .translationFault 0 usrCodeStart,
      .translationFault 0 usrStackStart, .translationFault 0 (usrStackStart + 0x1000),
      .translationFault 0 (usrStackStart + 0x2000), .translationFault 0 (usrStackStart + 0x3000),
        .fork 0 1,
      .permissionFault 1 usrCodeStart, .exit 0] (.reap 0)
    (fun s s' ↦ .free 2 [3] ∈ s'.trace ∧ s'.refCount 3 = 1 ∧ usedAt s.buddy 2 = some 1 ∧
      usedAt s'.buddy 2 = none ∧ ∃ p, s'.procs 1 = some p ∧ p.Maps 1 3)
    (by decide +kernel)

end CapstoneKernel.VMem
