import CapstoneKernel.VMem.Steps

/-!
# Runs

The runs start where the boot code leaves the page allocator, with kernel threads only, and go on
with any enabled operations that meet a condition on the state before them.  In runs that are tame
the invariant of `VMem/Invariant.lean` holds in every state.
-/

namespace CapstoneKernel.VMem

open Mem Execution Function List

variable {ops : List VmOp} {q p : Proc} {flags : PteFlags} {s s' t t' : VmState}
  {code idx pages size x usableEnd k pid page count addr frame : ℕ}
  {allowed : VmState → VmOp → Prop} {b : Buddy}

/-- The state after boot: page 0 and the pages from the end of the usable memory on are reserved, no
page is counted, and there are kernel threads only. -/
structure VmInit (usableEnd : ℕ) (s : VmState) : Prop where
  buddy : BuddyReachable usableEnd s.buddy
  usableEnd_eq : s.usableEnd = usableEnd
  zero_used : ∃ k, usedAt s.buddy 0 = some k
  high_used : ∀ x < s.buddy.numPages, usableEnd ≤ x * pageSize → ∃ head k, InBlock s.buddy x head k
  refCount : ∀ x, s.refCount x = 0
  kernel : s.kernel = []
  pid_lt : ∀ pid p, s.procs pid = some p → pid < maxProc
  procs : ∀ pid p, s.procs pid = some p → p.el0 = false ∧ p.sections = [] ∧ p.table = emptyPageTable

/-- One enabled operation that meets the condition. -/
def VmStep (allowed : VmState → VmOp → Prop) (s s' : VmState) : Prop :=
  ∃ op : VmOp, op.Enabled s ∧ allowed s op ∧ op.run s = .ok s'

/-- The states of the runs whose operations all meet the condition. -/
def VmReachable (allowed : VmState → VmOp → Prop) (usableEnd : ℕ) : VmState → Prop :=
  Reachable (VmInit usableEnd) (VmStep allowed)

/-- The state in which one kernel thread runs and no process has user memory. -/
def bootState (usableEnd : ℕ) (b : Buddy) : VmState where
  buddy := b
  usableEnd := usableEnd
  refCount := fun _ ↦ 0
  wPermission := fun _ ↦ false
  mem := fun _ ↦ 0
  procs := fun pid ↦ if pid = 0 then some ⟨false, false, 0, [], emptyPageTable⟩ else none
  kernel := []
  trace := []

theorem bootState_init (hb : BuddyReachable usableEnd b) (hzero : ∃ k, usedAt b 0 = some k)
    (hhigh : ∀ x < b.numPages, usableEnd ≤ x * pageSize → ∃ head k, InBlock b x head k) :
    VmInit usableEnd (bootState usableEnd b) := by
  refine ⟨hb, rfl, hzero, hhigh, fun _ ↦ rfl, rfl, fun pid p hp ↦ ?_, fun pid p hp ↦ ?_⟩ <;>
    simp only [bootState] at hp <;> split at hp
  · next hpid =>
    rw [hpid]
    decide
  · cases hp
  · cases hp
    exact ⟨rfl, rfl, rfl⟩
  · cases hp

/-- The page allocator of a Raspberry Pi 3 after the reservations at both ends of the memory. -/
def rpi3Buddy : Except Fault Buddy := do
  let b ← buddyInit 0x3b400000
  let b ← memoryReserve b 0 0x1000
  memoryReserve b 0x3b400000 0x40000000

/-- Operations on that machine, from the state after boot. -/
def rpi3Run (allowed : VmState → VmOp → Prop) [∀ s op, Decidable (allowed s op)] (ops : List VmOp) :
    Option VmState :=
  rpi3Buddy.toOption.bind fun b ↦
    runAll (fun s op ↦ op.Enabled s ∧ allowed s op) VmOp.run ops (bootState 0x3b400000 b)

theorem rpi3_endAddr : ((buddyInit 0x3b400000).map Buddy.endAddr).toOption = some 0x40000000 := by
  decide +kernel

theorem rpi3Buddy_reserved :
    (rpi3Buddy.map fun b ↦ (b.numPagesExp, usedAt b 0, usedAt b 0x38000)).toOption =
      some (18, some 0, some 15) := by
  decide +kernel

theorem rpi3Buddy_reachable (h : rpi3Buddy = .ok b) : BuddyReachable 0x3b400000 b := by
  obtain ⟨b₀, hinit, h⟩ := of_bind_eq_ok h
  obtain ⟨b₁, hlow, hhigh⟩ := of_bind_eq_ok h
  obtain ⟨hwf, -⟩ := (buddyInit_spec (by decide)).post_of_eq hinit
  have hend₀ : b₀.endAddr = 0x40000000 := by
    have hend := rpi3_endAddr
    rw [hinit] at hend
    exact Option.some.inj hend
  have hvalid₀ : (BuddyOp.reserve 0 0x1000).Valid b₀ := by
    rw [BuddyOp.Valid, hend₀]
    decide
  have hpost := (memoryReserve_spec hwf.core hwf.noFreePair hvalid₀.1 hvalid₀.2.1
    hvalid₀.2.2).post_of_eq hlow
  have hvalid₁ : (BuddyOp.reserve 0x3b400000 0x40000000).Valid b₁ := by
    rw [BuddyOp.Valid, hpost.frame.endAddr, hend₀]
    decide
  have hreach₀ : BuddyReachable 0x3b400000 b₀ := Reachable.start hinit
  have hreach₁ : BuddyReachable 0x3b400000 b₁ := hreach₀.next ⟨_, hvalid₀, hlow⟩
  exact hreach₁.next ⟨_, hvalid₁, hhigh⟩

theorem rpi3Run_reachable [∀ s op, Decidable (allowed s op)] (h : rpi3Run allowed ops = some s) :
    VmReachable allowed 0x3b400000 s := by
  obtain ⟨b, hb, hrun⟩ := Option.bind_eq_some_iff.1 h
  have hboot := eq_ok_of_toOption hb
  have hreserved := rpi3Buddy_reserved
  rw [hboot] at hreserved
  have hfields := Prod.mk.inj (Option.some.inj hreserved)
  have hused := Prod.mk.inj hfields.2
  have hinit : VmInit 0x3b400000 (bootState 0x3b400000 b) := by
    refine bootState_init (rpi3Buddy_reachable hboot) ⟨0, hused.1⟩ fun x hx hlow ↦ ?_
    have hnum : b.numPages = 2 ^ 18 := congrArg (2 ^ ·) hfields.1
    unfold pageSize at hlow
    exact ⟨0x38000, 15, hused.2, by omega, by omega⟩
  have hreach : VmReachable allowed 0x3b400000 (bootState 0x3b400000 b) := Reachable.start hinit
  exact hreach.runAll (fun s op s' hop hrun ↦ ⟨op, hop.1, hop.2, hrun⟩) hrun

/-- A run on that machine and one more operation, found by evaluation. -/
theorem rpi3Run_exists (allowed : VmState → VmOp → Prop) [∀ s op, Decidable (allowed s op)]
    (ops : List VmOp) (op : VmOp) (Q : VmState → VmState → Prop) [∀ s s', Decidable (Q s s')]
    (h : ((rpi3Run allowed ops).any fun s ↦
      decide (op.Enabled s) && (op.run s).toOption.any fun s' ↦ decide (Q s s')) = true) :
    ∃ s s', VmReachable allowed 0x3b400000 s ∧ op.Enabled s ∧ op.run s = .ok s' ∧ Q s s' := by
  cases hs : rpi3Run allowed ops with
  | none =>
    rw [hs] at h
    exact absurd h Bool.false_ne_true
  | some s =>
    rw [hs, Option.any_some, Bool.and_eq_true, decide_eq_true_eq] at h
    obtain ⟨henabled, hop⟩ := h
    obtain ⟨s', hrun, hQ⟩ := exists_of_any_toOption hop
    exact ⟨s, s', rpi3Run_reachable hs, henabled, hrun, of_decide_eq_true hQ⟩

theorem VmInit.inv (hend : usableEnd ≤ 2 ^ 42) (h : VmInit usableEnd s) : VmInv s := by
  refine ⟨(h.buddy.wf hend).1, fun x ↦ ?_, h.zero_used, ?_, h.pid_lt, fun pid p hp ↦ ?_⟩
  · rw [h.refCount]
    decide
  · rw [h.kernel]
    exact not_mem_nil
  · obtain ⟨hel, hsec, htable⟩ := h.procs pid p hp
    refine ⟨.thread hel hsec htable, ?_, fun v x hv ↦ absurd hv (Proc.not_maps_of_empty htable v x),
      fun v x hv ↦ absurd hv (Proc.not_maps_of_empty htable v x)⟩
    rw [hsec]
    exact fun sec hmem ↦ absurd hmem not_mem_nil

/-! ## One step -/

section Step

variable {s : VmState} (hinv : VmInv s)

include hinv

/-- The processes that an operation does not touch stay as they are. -/
theorem VmInv.of_procs (hwf : BuddyWf s'.buddy)
    (hexp : s'.buddy.numPagesExp = s.buddy.numPagesExp) (hcount : ∀ x, s'.refCount x < 2 ^ 16)
    (hzero : usedAt s'.buddy 0 = usedAt s.buddy 0) (hkernel : 0 ∉ s'.kernel)
    (hprocs : ∀ r q, s'.procs r = some q → s.procs r = some q ∨ (r < maxProc ∧ q.Wf s.buddy)) :
    VmInv s' := by
  have hnum : s'.buddy.numPages = s.buddy.numPages := congrArg (2 ^ ·) hexp
  refine ⟨hwf, hcount, hzero ▸ hinv.zero_used, hkernel, fun r q hq ↦ ?_, fun r q hq ↦ ?_⟩
  · exact (hprocs r q hq).elim (hinv.pid_lt r q) And.left
  · refine Proc.Wf.mono ?_ hnum
    exact (hprocs r q hq).elim (hinv.proc r q) And.right

theorem granted_ne_zero (h : Granted s.buddy pages idx k b) : 0 < idx := by
  obtain ⟨m, hm⟩ := hinv.zero_used
  rcases Nat.eq_zero_or_pos idx with rfl | hpos
  · rw [h.unused] at hm
    cases hm
  · exact hpos

theorem granted_zero (h : Granted s.buddy pages idx k b) :
    usedAt b 0 = usedAt s.buddy 0 := h.usedAt_of_ne 0 (granted_ne_zero hinv h).ne

theorem released_pos (hp : s.procs pid = some p) (horder : p.InOrder)
    (hx : x ∈ releasedPages p.table p.sections) : 0 < x := by
  obtain ⟨v, -, hmaps⟩ := horder.mem_released.1 hx
  exact ((hinv.proc pid p hp).frame v x hmaps).1

omit hinv in
theorem Derefs.usedAt_eq {pages : List ℕ} (h : Derefs t pages t') (hx : x ∉ pages) :
    usedAt t'.buddy x = usedAt t.buddy x := by
  refine (h.used x).resolve_right fun ⟨_, hpos, hle⟩ ↦ ?_
  rw [count_eq_zero.2 hx] at hle
  omega

omit hinv in
/-- Nothing is freed by a single `deref_page` on a page that is counted twice. -/
theorem Derefs.usedAt_of_counted (h : Derefs t [page] t')
    (hcount : 1 < t.refCount page) (x : ℕ) : usedAt t'.buddy x = usedAt t.buddy x := by
  refine (h.used x).resolve_right fun ⟨_, hpos, hle⟩ ↦ ?_
  rw [count_singleton] at hle
  split at hle
  · next heq =>
    rw [← eq_of_beq heq] at hle
    omega
  · omega

omit hinv in
/-- The process that an operation updates, and the others. -/
theorem setProc_cases {r : ℕ} (h : (t.setProc pid p).procs r = some q) :
    (r = pid ∧ q = p) ∨ (r ≠ pid ∧ t.procs r = some q) := by
  refine (Writes.update_apply_eq_iff.1 h).imp_left fun ⟨hr, hq⟩ ↦ ?_
  exact ⟨hr, (Option.some.inj hq).symm⟩

omit hinv in
theorem setProc_self (h : (t.setProc pid p).procs pid = some q) : p = q :=
  ((setProc_cases h).resolve_right fun hne ↦ hne.1 rfl).2.symm

theorem loadedProc_wf (hsize : 0 < size) (h : Granted s.buddy (imagePages size) code k b) :
    (loadedProc (code * pageSize) size).Wf s.buddy := by
  have hpages : (textSection size).numPages ≤ 2 ^ k := by
    have henough := h.enough
    rw [imagePages_eq] at henough
    exact henough
  have hnum : s.buddy.numPages ≤ 2 ^ 30 := Nat.pow_le_pow_right (by decide) hinv.wf.core.exp_le
  have hinside := h.inside
  refine ⟨.loaded size code rfl hsize rfl rfl rfl (granted_ne_zero hinv h) (by omega), ?_,
    fun v x hv ↦ absurd hv (Proc.not_maps_of_empty rfl v x),
    fun v x hv ↦ absurd hv (Proc.not_maps_of_empty rfl v x)⟩
  intro sec hsec
  rcases mem_cons.1 hsec with rfl | hsec
  · have hfirst := textSection_firstPage size
    have huser : (2 : ℕ) ^ 30 ≤ userPages := by decide
    exact .inr (by omega)
  · rw [mem_singleton.1 hsec]
    exact .inr (by decide)

theorem forked_wf (hp : s.procs pid = some p) (hfetched : p.Fetched) :
    (p.forked s.usableEnd).Wf s.buddy := by
  have hwf := hinv.proc pid p hp
  refine hwf.of_running hfetched rfl [] (append_nil _).symm (by simp) ?_ ?_
  · intro v _ hv
    rw [Proc.forked, lookup_pageTableFork]
    simpa using hv v le_rfl
  · intro v x hv
    have hmaps := Proc.forked_maps.1 hv
    exact ⟨(hwf.frame v x hmaps).1, (hwf.frame v x hmaps).2, hwf.mem_pages v x hmaps⟩

omit hinv in
theorem heapSection_page (addr page : ℕ) (hpos : 0 < count) :
    (heapSection addr page count).firstPage = page ∧ (heapSection addr page count).numPages = count := by
  rw [heapSection, if_neg hpos.ne']
  unfold Section.firstPage Section.numPages pageSize
  simp only
  omega

omit hinv in
/-- The section of an `mmap` has exactly the pages of the region. -/
theorem mem_heapSection_pages {v : ℕ} :
    v ∈ (heapSection addr page count).pages ↔ page ≤ v ∧ v < page + count := by
  rcases Nat.eq_zero_or_pos count with rfl | hpos
  · rw [Section.pages, Section.numPages_eq_zero (by rfl)]
    simp
  · obtain ⟨hfirst, hnum⟩ := heapSection_page addr page hpos
    simp only [Section.pages, hfirst, hnum, mem_map, mem_range]
    constructor
    · rintro ⟨i, hi, rfl⟩
      omega
    · rintro ⟨hlow, hhigh⟩
      exact ⟨v - page, by omega, by omega⟩

omit hinv in
theorem heapSection_ok (h : count = 0 ∨ page + count ≤ userPages) :
    ∀ sec ∈ [heapSection addr page count], (sec.type = .stack ∨ sec.type = .heap) ∧
      (sec.numPages = 0 ∨ sec.firstPage + sec.numPages ≤ userPages) := by
  intro sec hsec
  rw [mem_singleton.1 hsec]
  refine ⟨.inr (by rw [heapSection]; split <;> rfl), ?_⟩
  rcases Nat.eq_zero_or_pos count with rfl | hpos
  · exact .inl (Section.numPages_eq_zero rfl)
  · obtain ⟨hfirst, hnum⟩ := heapSection_page addr page hpos
    exact .inr (by omega)

section

variable (hp : s.procs pid = some p)
include hp

theorem addSection_wf (hfetched : p.Fetched) (h : count = 0 ∨ page + count ≤ userPages) :
    (p.addSection (heapSection addr page count)).Wf s.buddy := by
  have hwf := hinv.proc pid p hp
  refine hwf.of_running hfetched rfl [_] rfl (heapSection_ok h)
    (fun v _ hv ↦ hv v le_rfl) fun v x hv ↦ ?_
  refine ⟨(hwf.frame v x hv).1, (hwf.frame v x hv).2, ?_⟩
  rw [Proc.addSection_pages]
  exact mem_append_left _ (hwf.mem_pages v x hv)

theorem populated_wf (hfetched : p.Fetched) (hcount : 0 < count) (hend : page + count ≤ userPages)
    (hfree : ∀ v, page ≤ v → v < page + count → lookup p.table v = none)
    (h : Granted s.buddy count frame k b) :
    ((p.addSection (heapSection addr page count)).withPages page count frame flags).Wf s.buddy := by
  have hwf := hinv.proc pid p hp
  have hpos := granted_ne_zero hinv h
  have hinside := h.inside
  have henough := h.enough
  refine hwf.of_running hfetched rfl [_] rfl (heapSection_ok (.inr hend)) ?_ ?_
  · intro v _ hv
    rcases Nat.lt_or_ge v page with hlt | hge
    · rw [Proc.withPages_lookup_below hend hlt]
      exact hv v le_rfl
    · exact absurd (hfree page le_rfl (by omega)) (hv page hge)
  · intro v x hv
    change 0 < x ∧ x < s.buddy.numPages ∧ v ∈ (p.addSection (heapSection addr page count)).pages
    rw [Proc.addSection_pages, mem_append, mem_heapSection_pages]
    rcases Proc.withPages_maps hend hv with ⟨hlow, hhigh, rfl⟩ | ⟨-, hmaps⟩
    · exact ⟨by omega, by omega, .inr ⟨hlow, hhigh⟩⟩
    · exact ⟨(hwf.frame v x hmaps).1, (hwf.frame v x hmaps).2, .inl (hwf.mem_pages v x hmaps)⟩

theorem fetched_wf (hel : p.el0 = true) (hsize : 0 < size)
    (hsecs : p.sections = [textSection size, stackSection]) (htable : p.table = emptyPageTable)
    (hpos : 0 < code) (hle : code + (textSection size).numPages ≤ s.buddy.numPages) :
    (p.withText size code).Wf s.buddy := by
  have hwf := hinv.proc pid p hp
  have hfirst := textSection_firstPage size
  have hcount : (textSection size).numPages ≤ userPages := by
    have := hwf.sections_le (textSection size) (hsecs ▸ mem_cons_self)
    omega
  refine ⟨.running size [stackSection] hel hsize hsecs ?_ fun v hv ↦ ?_, hwf.sections_le,
    fun v x hv ↦ ?_,
    fun v x hv ↦ ?_⟩
  · intro sec hsec
    rw [mem_singleton.1 hsec]
    exact .inl rfl
  · exact (Proc.lookup_ne_none_iff (by omega)).2
      ⟨_, (Proc.withText_maps _ _ _ htable hcount).2 ⟨hv, rfl⟩⟩
  · obtain ⟨hlt, rfl⟩ := (Proc.withText_maps _ _ _ htable hcount).1 hv
    omega
  · obtain ⟨hlt, rfl⟩ := (Proc.withText_maps _ _ _ htable hcount).1 hv
    refine Proc.mem_pages_iff.2 ⟨textSection size, ?_, by omega, by omega⟩
    change textSection size ∈ p.sections
    rw [hsecs]
    exact mem_cons_self

theorem grown_wf (hfetched : p.Fetched) (hpage : page ∈ p.pages) (h : Granted s.buddy 1 frame 0 b) :
    (p.withPages page 1 frame flags).Wf s.buddy := by
  have hwf := hinv.proc pid p hp
  have hlt := hwf.page_lt hpage
  have hpos := granted_ne_zero hinv h
  have hinside := h.inside
  exact hwf.of_page hfetched rfl rfl hpage hpos (by omega) fun v x ↦ Proc.withPages_one_maps hlt

theorem withFrame_wf {frame' : ℕ} (hmaps : p.Maps (addr / pageSize) frame) (hpos : 0 < frame')
    (hlt : frame' < s.buddy.numPages) :
    (p.withFrame addr frame').Wf s.buddy := by
  have hwf := hinv.proc pid p hp
  exact hwf.of_page (hwf.fetched hmaps) rfl rfl (hwf.mem_pages _ _ hmaps) hpos hlt
    fun v x ↦ Proc.withFrame_maps hmaps

omit hp in
omit hinv in
theorem Derefs.count_lt {pages : List ℕ} (h : Derefs t pages t')
    (hcount : ∀ x, t.refCount x < 2 ^ 16) (x : ℕ) : t'.refCount x < 2 ^ 16 := by
  rw [h.refCount]
  exact (Nat.sub_le _ _).trans_lt (hcount x)

omit hp in
/-- An operation on one process. -/
theorem VmInv.of_update (hwf : BuddyWf s'.buddy) (hexp : s'.buddy.numPagesExp = s.buddy.numPagesExp)
    (hcount : ∀ x, s'.refCount x < 2 ^ 16) (hzero : usedAt s'.buddy 0 = usedAt s.buddy 0)
    (hkernel : s'.kernel = s.kernel) (hprocs : s'.procs = update s.procs pid (some p))
    (hpid : pid < maxProc) (hp : p.Wf s.buddy) : VmInv s' := by
  refine hinv.of_procs hwf hexp hcount hzero (hkernel ▸ hinv.zero_kernel) fun r q hq ↦ ?_
  rw [hprocs] at hq
  rcases setProc_cases hq with ⟨rfl, rfl⟩ | ⟨-, hq⟩
  · exact .inr ⟨hpid, hp⟩
  · exact .inl hq

theorem zero_notMem_released (horder : p.InOrder) : 0 ∉ releasedPages p.table p.sections :=
  fun hmem ↦ (released_pos hinv hp horder hmem).ne rfl

end

theorem Effect.inv {op : VmOp} {s' : VmState} (h : Effect s op s') : VmInv s' := by
  cases h with
  | dies hp =>
    exact hinv.of_update hinv.wf rfl hinv.count_lt rfl rfl rfl (hinv.pid_lt _ _ hp)
      (hinv.proc _ _ hp).setDead
  | @execs pid _ _ _ _ _ _ hp hlen horder hgranted hderefs =>
    exact hinv.of_update hderefs.wf (hderefs.exp.trans hgranted.exp)
      (hderefs.count_lt hinv.count_lt)
      ((hderefs.usedAt_eq (zero_notMem_released hinv hp horder)).trans (granted_zero hinv hgranted))
      hderefs.kernel (congrArg (update · pid _) hderefs.procs) (hinv.pid_lt _ _ hp)
      (loadedProc_wf hinv hlen hgranted)
  | forksThread hp hel hchild hnone =>
    exact hinv.of_update hinv.wf rfl hinv.count_lt rfl rfl rfl hchild (hinv.proc _ _ hp)
  | @forks _ _ p _ hp hel hfetched hchild hnone =>
    refine hinv.of_procs hinv.wf rfl (withRefs_count_lt s.clear p.frames) rfl hinv.zero_kernel
      fun r q hq ↦ ?_
    rcases setProc_cases hq with ⟨rfl, rfl⟩ | ⟨-, hq⟩
    · exact .inr ⟨hchild, forked_wf hinv hp hfetched⟩
    · rcases setProc_cases hq with ⟨rfl, rfl⟩ | ⟨-, hq⟩
      · exact .inr ⟨hinv.pid_lt _ _ hp, forked_wf hinv hp hfetched⟩
      · exact .inl hq
  | reserves hp hel hfetched hflags hend hfree =>
    exact hinv.of_update hinv.wf rfl hinv.count_lt rfl rfl rfl (hinv.pid_lt _ _ hp)
      (addSection_wf hinv hp hfetched hend)
  | populates hp hel hfetched hflags hpos hend hfree hgranted =>
    exact hinv.of_update hgranted.wf hgranted.exp hinv.count_lt (granted_zero hinv hgranted) rfl rfl
      (hinv.pid_lt _ _ hp) (populated_wf hinv hp hfetched hpos hend hfree hgranted)
  | fetches hp hel hsize hsecs htable hcode hpos hle =>
    exact hinv.of_update hinv.wf rfl (withRefs_count_lt _ _) rfl rfl rfl (hinv.pid_lt _ _ hp)
      (fetched_wf hinv hp hel hsize hsecs htable hpos hle)
  | grows hp hel hfetched hpage hnone hgranted =>
    exact hinv.of_update hgranted.wf hgranted.exp (withRefs_count_lt _ _)
      (granted_zero hinv hgranted) rfl rfl (hinv.pid_lt _ _ hp)
      (grown_wf hinv hp hfetched hpage hgranted)
  | @copies _ _ frame _ _ _ _ hp hel hmaps hcount hgranted hderefs =>
    have hframe := (hinv.proc _ _ hp).frame _ _ hmaps
    have hinside := hgranted.inside
    have hzero : 0 ∉ [frame] := fun hmem ↦ hframe.1.ne (mem_singleton.1 hmem)
    exact hinv.of_update hderefs.wf (hderefs.exp.trans hgranted.exp) (withRefs_count_lt _ _)
      ((hderefs.usedAt_eq hzero).trans (granted_zero hinv hgranted)) hderefs.kernel hderefs.procs
      (hinv.pid_lt _ _ hp) (withFrame_wf hinv hp hmaps (granted_ne_zero hinv hgranted) (by omega))
  | unprotects hp hel hmaps hcount =>
    have hframe := (hinv.proc _ _ hp).frame _ _ hmaps
    exact hinv.of_update hinv.wf rfl hinv.count_lt rfl rfl rfl (hinv.pid_lt _ _ hp)
      (withFrame_wf hinv hp hmaps hframe.1 hframe.2)
  | stores hp haddr hlook hwrite =>
    exact hinv.of_procs hinv.wf rfl hinv.count_lt rfl hinv.zero_kernel fun r q hq ↦ .inl hq
  | reaps hp horder hderefs =>
    refine hinv.of_procs hderefs.wf hderefs.exp (hderefs.count_lt hinv.count_lt)
      (hderefs.usedAt_eq (zero_notMem_released hinv hp horder))
      (hderefs.kernel.symm ▸ hinv.zero_kernel) fun r q hq ↦ ?_
    refine .inl (hderefs.procs ▸ ((Writes.update_apply_eq_iff.1 hq).resolve_left ?_).2)
    exact fun h ↦ nomatch h.2
  | takes hgranted =>
    refine hinv.of_procs hgranted.wf hgranted.exp hinv.count_lt (granted_zero hinv hgranted) ?_
      fun r q hq ↦ .inl hq
    simp [(granted_ne_zero hinv hgranted).ne, hinv.zero_kernel]
  | takesNone hwf hexp hused =>
    exact hinv.of_procs hwf hexp hinv.count_lt (congrFun hused 0) hinv.zero_kernel fun r q hq ↦
      .inl hq
  | @gives head _ hhead hwf hexp hused =>
    have hne : 0 ≠ head := fun heq ↦ hinv.zero_kernel (heq ▸ hhead)
    refine hinv.of_procs hwf hexp hinv.count_lt (hused 0 hne) ?_ fun r q hq ↦ .inl hq
    exact fun hmem ↦ hinv.zero_kernel (mem_filter.1 hmem).1

end Step

theorem VmReachable.inv (htame : ∀ s op, allowed s op → Tame s op) (hend : usableEnd ≤ 2 ^ 42)
    (h : VmReachable allowed usableEnd s) :
    VmInv s := by
  refine Reachable.invariant (P := VmInv) (fun s hinit ↦ hinit.inv hend) ?_ h
  rintro s s' hinv ⟨op, henabled, hallowed, hrun⟩
  exact (VmOp.effect hinv henabled (htame s op hallowed) hrun).inv hinv

/-- A property that holds at boot and that every effect keeps holds in all states of tame runs. -/
theorem VmReachable.induct (htame : ∀ s op, allowed s op → Tame s op) (hend : usableEnd ≤ 2 ^ 42)
    {P : VmState → Prop} (hinit : ∀ s, VmInit usableEnd s → P s)
    (hstep : ∀ s op s', VmInv s → P s → allowed s op → Effect s op s' → P s')
    (h : VmReachable allowed usableEnd s) : P s := by
  refine (Reachable.invariant (P := fun s ↦ VmInv s ∧ P s)
    (fun s hs ↦ ⟨hs.inv hend, hinit s hs⟩) ?_ h).2
  rintro s s' ⟨hinv, hP⟩ ⟨op, henabled, hallowed, hrun⟩
  have heffect := VmOp.effect hinv henabled (htame s op hallowed) hrun
  exact ⟨heffect.inv hinv, hstep s op s' hinv hP hallowed heffect⟩

end CapstoneKernel.VMem
