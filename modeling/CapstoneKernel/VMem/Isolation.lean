import CapstoneKernel.VMem.Ownership

/-!
# Copy-on-write isolation

A store of one process does not change what another process reads, in all runs in which a process
forks with the mapped pages of its sections counted, and gives up its memory in order and without
freeing a block of which another process maps a page.  Pages mapped by `MAP_POPULATE` are not
counted; after a fork the first of the two processes that writes to such a page takes it for its
own.
-/

namespace CapstoneKernel.VMem

open Mem Execution Function List Option

variable {p q : Proc} {s s' t : VmState}
  {child code frame' head size usableEnd page count frame v x pid k addr r : ℕ} {flags : PteFlags}
  {b : Buddy}

/-- A process other than `pid` maps a page of the block. -/
def OthersMap (s : VmState) (pid head k : ℕ) : Prop :=
  ∃ r < maxProc, r ≠ pid ∧ ∃ q, s.procs r = some q ∧
    ∃ v ∈ q.pages, ∃ e, lookup q.table v = some e ∧ head ≤ e.frame ∧ e.frame < head + 2 ^ k

instance (s : VmState) (pid head k : ℕ) : Decidable (OthersMap s pid head k) :=
  inferInstanceAs (Decidable (∃ r < maxProc, _))

/-- The sections of the process do not overlap, and no other process maps a page of a block whose
head is a page of the process that nobody else counts. -/
def GivesUpOwn (s : VmState) (pid : ℕ) : Prop :=
  ∀ p, s.procs pid = some p → p.pages.Nodup ∧
    ∀ x ∈ releasedPages p.table p.sections, s.refCount x = 1 →
      ∀ k, usedAt s.buddy x = some k → ¬ OthersMap s pid x k
deriving Decidable

/-- A process that gives up its memory gives up blocks of its own only. -/
def ReleasesOwn (s : VmState) : VmOp → Prop
  | .exec pid _ => GivesUpOwn s pid
  | .reap pid => GivesUpOwn s pid
  | _ => True

/-- A process forks with its mapped pages counted, and the counts do not overflow. -/
def ForksCounted (s : VmState) : VmOp → Prop
  | .fork pid _ => ∀ p, s.procs pid = some p →
      ∀ x ∈ p.frames, x ≠ 0 → 1 ≤ s.refCount x ∧ s.refCount x + p.frames.count x < 2 ^ 16
  | _ => True

/-- The condition for isolation. -/
def IsolationAllowed (s : VmState) (op : VmOp) : Prop :=
  Tame s op ∧ ReleasesOwn s op ∧ ForksCounted s op

instance (s : VmState) (op : VmOp) : Decidable (IsolationAllowed s op) := by
  induction op using VmOp.casesOn <;> unfold IsolationAllowed ReleasesOwn ForksCounted <;>
    infer_instance

/-! ## The processes of the effects -/

namespace Proc

variable {p : Proc}

theorem withPages_lookup_of_some {e : Pte} (hend : page + count ≤ userPages) (hv : v < userPages)
    (h : VMem.lookup (p.withPages page count frame flags).table v = some e) :
    (page ≤ v ∧ v < page + count) ∨ VMem.lookup p.table v = some e := by
  by_cases hin : page ≤ v ∧ v < page + count
  · exact .inl hin
  · right
    rcases lookup_fillPageTable_notMem p.table (frame * pageSize) flags hend
      (Nat.le_add_right _ _) hv (by omega) with hsame | ⟨hnone, -⟩
    · rw [← hsame]
      exact h
    · exact absurd (h.symm.trans hnone) nofun

/-- Mapping fresh pages: what the process held it still holds in the same way. -/
theorem withPages_holds (hend : page + count ≤ userPages)
    (hfetched' : (p.withPages page count frame flags).Fetched)
    (h : (p.withPages page count frame flags).Holds v x) :
    (page ≤ v ∧ v < page + count ∧ x = frame + (v - page)) ∨
      (p.Holds v x ∧ ((p.withPages page count frame flags).HoldsRw v x → p.HoldsRw v x)) := by
  rcases withPages_maps hend (h.maps hfetched') with hnew | ⟨hout, hmaps⟩
  · exact .inl hnew
  · refine .inr ⟨hmaps.holds, fun hrw ↦ ?_⟩
    obtain ⟨hv, e, he, hx, hw⟩ := hrw.lookup hfetched'
    exact .inl ⟨hv, e, (withPages_lookup_of_some hend hv he).resolve_left (by omega), hx, hw⟩

end Proc

/-! ## One step -/

section Step

variable {boot : ℕ → Option ℕ} {s : VmState} (hinv : VmInv s) (hiso : Isolated boot s)

include hinv hiso

theorem Isolated.maps_fresh_pages (hinv' : VmInv s') (hp : s.procs pid = some p)
    (hfetched : p.Fetched) (hfetched' : (q.withPages page count frame flags).Fetched)
    (hq : q.table = p.table) (hend : page + count ≤ userPages)
    (hgranted : Granted s.buddy count frame k b) (husable : s'.usableEnd = s.usableEnd)
    (hbuddy : s'.buddy = b) (hkernel : s'.kernel = s.kernel)
    (hprocs : s'.procs = update s.procs pid (some (q.withPages page count frame flags)))
    (hrefs : ∀ x, x < frame ∨ frame + count ≤ x → s'.refCount x = s.refCount x) :
    Isolated boot s' := by
  have hself : s'.procs pid = some (q.withPages page count frame flags) := by
    rw [hprocs, update_self]
  have hqfetched : q.Fetched := by
    rw [Proc.Fetched, hq]
    exact hfetched
  refine hiso.of_keeps hinv hinv' pid _ (hiso.acquires_granted page hgranted (hbuddy ▸ hgranted.used)
    hkernel husable (hbuddy ▸ hgranted.exp) (fun r hr ↦ by rw [hprocs, update_of_ne hr])
    (fun q' v x hq' hv ↦ ?_) fun q' size code hq' hloaded ↦ ?_) hkernel
    (fun head m hused ↦ hbuddy ▸ hgranted.keeps hused) (fun x hfresh _ ↦ ?_)
  · obtain rfl := mem_unique hself hq'
    refine (Proc.withPages_holds hend hfetched' hv).imp id fun hold ↦ ⟨p, hp, ?_, ?_⟩
    · obtain ⟨hv, e, he, hx⟩ := hold.1.maps hqfetched
      exact .inl ⟨hv, e, hq ▸ he, hx⟩
    · intro h
      obtain ⟨hv, e, he, hx, hw⟩ := (hold.2 h).lookup hqfetched
      exact .inl ⟨hv, e, hq ▸ he, hx, hw⟩
  · obtain rfl := mem_unique hself hq'
    exact absurd hloaded (Proc.not_loadedAt hfetched' size code)
  · refine .inl (hrefs x ?_).ge
    by_contra hin
    exact hfresh (page + (x - frame)) ⟨by omega, by omega, by omega⟩

omit hiso in
/-- The first fetch maps the pages of the code and no others. -/
theorem fetched_withText (hinv' : VmInv s') (hp : s.procs pid = some p)
    (hloaded : p.LoadedAt size code)
    (hself : s'.procs pid = some (p.withText size code)) :
    (p.withText size code).Fetched ∧ ∀ v x, (p.withText size code).Maps v x ↔
        v < (textSection size).numPages ∧ x = code + v := by
  have hpos := (loaded_pos hinv hp hloaded).1
  have hfirst := textSection_firstPage size
  have htext : textSection size ∈ p.sections := hloaded.2.2.1 ▸ mem_cons_self
  have hle := (hinv.proc pid p hp).sections_le _ htext
  have hmaps (v x : ℕ) := Proc.withText_maps code v x hloaded.2.1
    (by omega : (textSection size).numPages ≤ userPages)
  exact ⟨(hinv'.proc _ _ hself).fetched ((hmaps 0 (code + 0)).2 ⟨hpos, rfl⟩), hmaps⟩

theorem Isolated.fetches (hinv' : VmInv s') (hp : s.procs pid = some p)
    (hloaded : p.LoadedAt size code)
    (hs' : s' = (s.clear.setProc pid (p.withText size code)).withRefs
      (textFrames size code)) : Isolated boot s' := by
  subst hs'
  obtain ⟨hfetched, hmaps⟩ := fetched_withText hinv hinv' hp hloaded (update_self ..)
  have hrw (v x : ℕ) (hv : (p.withText size code).Holds v x) : p.HoldsRw v x := by
    obtain ⟨hlt, hx⟩ := (hmaps v x).1 (hv.maps hfetched)
    exact .inr ⟨size, code, hloaded, hlt, hx⟩
  refine hiso.of_keeps hinv hinv' pid _ (.old rfl rfl (fun r hr ↦ update_of_ne hr _ _)
    fun q hq ↦ ?_) rfl (fun head k hused ↦ hused) fun x _ htwo ↦ ?_
  · obtain rfl := setProc_self hq
    exact ⟨fun v x hv ↦ ⟨p, hp, (hrw v x hv).holds, fun _ ↦ .inl (hrw v x hv)⟩,
      fun size' code' hloaded' ↦ absurd hloaded' (Proc.not_loadedAt hfetched size' code')⟩
  · by_cases hx : x ∈ textFrames size code
    · -- The program is held by `pid` alone.
      obtain ⟨i, hi, rfl⟩ := mem_map.1 hx
      have hown : p.HoldsRw i (code + i) := .inr ⟨size, code, hloaded, mem_range.1 hi, rfl⟩
      have hone := card_holders_le_one hinv' fun r q v hq (hv : q.Holds v (code + i)) ↦
        (setProc_cases hq).elim And.left fun ⟨_, hq⟩ ↦ (hiso.alone pid p r q i v _ hp hq hown hv).symm
      omega
    · left
      change s.refCount x ≤ (s.refCount x + _) % 2 ^ 16
      rw [count_eq_zero.2 hx, Nat.add_zero, Nat.mod_eq_of_lt (hinv.count_lt x)]

omit hinv hiso in
theorem withFrame_fetched (frame' : ℕ) (hmaps : p.Maps (addr / pageSize) frame)
    (hfetched : p.Fetched) : (p.withFrame addr frame').Fetched := by
  have hzero : usrCodeStart / pageSize < userPages := by decide
  obtain ⟨x, hx⟩ := (Proc.lookup_ne_none_iff hzero).1 hfetched
  apply (Proc.lookup_ne_none_iff hzero).2
  by_cases heq : usrCodeStart / pageSize = addr / pageSize
  · exact ⟨frame', (Proc.withFrame_maps hmaps).2 (.inl ⟨heq, rfl⟩)⟩
  · exact ⟨x, (Proc.withFrame_maps hmaps).2 (.inr ⟨heq, hx⟩)⟩

omit hinv hiso in
/-- Replacing a frame: other virtual pages are held in the same way as before. -/
theorem withFrame_holds (hmaps : p.Maps (addr / pageSize) frame) (hfetched : p.Fetched)
    (h : (p.withFrame addr frame').Holds v x) :
    (v = addr / pageSize ∧ x = frame') ∨ (v ≠ addr / pageSize ∧ p.Holds v x ∧
      ((p.withFrame addr frame').HoldsRw v x → p.HoldsRw v x)) := by
  have hfetched' := withFrame_fetched frame' hmaps hfetched
  refine ((Proc.withFrame_maps hmaps).1 (h.maps hfetched')).imp id fun ⟨hne, hold⟩ ↦
    ⟨hne, hold.holds, fun hrw ↦ ?_⟩
  obtain ⟨hv, e, he, hx, hw⟩ := hrw.lookup hfetched'
  rw [Proc.withFrame_lookup hmaps.1 hv, if_neg hne] at he
  exact .inl ⟨hv, e, he, hx, hw⟩

theorem Isolated.copies {mem : ℕ → BitVec 8} (hinv' : VmInv (s'.withRefs [frame']))
    (hp : s.procs pid = some p) (hmaps : p.Maps (addr / pageSize) frame)
    (hcount : 1 < s.refCount frame) (hgranted : Granted s.buddy 1 frame' 0 b)
    (hderefs : Derefs ({ s.clear with buddy := b, mem := mem }.setProc pid (p.withFrame addr frame'))
      [frame] s') : Isolated boot (s'.withRefs [frame']) := by
  have hfetched := (hinv.proc _ _ hp).fetched hmaps
  have hfetched' := withFrame_fetched frame' hmaps hfetched
  have hprocs : s'.procs = update s.procs pid (some (p.withFrame addr frame')) := hderefs.procs
  have hself : s'.procs pid = some (p.withFrame addr frame') := by rw [hprocs, update_self]
  -- The old frame stays counted, so nothing is freed.
  have hused (x : ℕ) : usedAt s'.buddy x = usedAt b x := hderefs.usedAt_of_counted hcount x
  refine hiso.of_keeps hinv hinv' pid _ (hiso.acquires_granted (addr / pageSize) hgranted
    ((hused _).trans hgranted.used) hderefs.kernel hderefs.usableEnd (hderefs.exp.trans hgranted.exp)
    (fun r hr ↦ (congrFun hprocs r).trans (update_of_ne hr _ _)) (fun q v x hq hv ↦ ?_)
    fun q size code hq hloaded ↦ ?_) hderefs.kernel
    (fun head m h ↦ (hused head).trans (hgranted.keeps h)) (fun x hfresh _ ↦ ?_)
  · obtain rfl := mem_unique hself hq
    exact (withFrame_holds hmaps hfetched hv).imp (by omega) fun ⟨_, hold, hrw⟩ ↦ ⟨p, hp, hold, hrw⟩
  · obtain rfl := mem_unique hself hq
    exact absurd hloaded (Proc.not_loadedAt hfetched' size code)
  · have hne : x ≠ frame' := fun heq ↦ hfresh (addr / pageSize) ⟨le_rfl, by omega, by omega⟩
    have hcountx : (s'.withRefs [frame']).refCount x = s.refCount x - if frame = x then 1 else 0 := by
      change (s'.refCount x + [frame'].count x) % 2 ^ 16 = _
      rw [count_singleton, if_neg (by simpa using hne.symm), Nat.add_zero,
        Nat.mod_eq_of_lt (hderefs.count_lt hinv.count_lt x)]
      exact hderefs.one_refCount x
    by_cases hx : frame = x
    · subst hx
      rw [if_pos rfl] at hcountx
      refine .inr ⟨by omega, ⟨p, _, hp, hmaps.holds⟩, fun q v hq hv ↦ ?_⟩
      obtain rfl := mem_unique hself hq
      rcases withFrame_holds hmaps hfetched hv with ⟨-, heq⟩ | ⟨hvne, hold, -⟩
      · exact hne heq
      · exact hvne (hiso.same pid p pid p v _ frame hp hp hold hmaps.holds)
    · rw [if_neg hx] at hcountx
      exact .inl (by omega)

theorem Isolated.unprotects (hinv' : VmInv s') (hp : s.procs pid = some p)
    (hmaps : p.Maps (addr / pageSize) frame) (hcount : s.refCount frame ≤ 1)
    (hs' : s' = s.clear.setProc pid (p.withFrame addr frame)) : Isolated boot s' := by
  have hfetched := (hinv.proc _ _ hp).fetched hmaps
  subst hs'
  refine hiso.of_same hinv hinv' pid (.old rfl rfl (fun r hr ↦ update_of_ne hr _ _) fun q hq ↦ ?_)
    rfl (fun head k hused ↦ hused) rfl
  obtain rfl := setProc_self hq
  refine ⟨fun v x hv ↦ ?_, fun size code hloaded ↦
    absurd hloaded (Proc.not_loadedAt (withFrame_fetched _ hmaps hfetched) size code)⟩
  rcases withFrame_holds hmaps hfetched hv with ⟨rfl, rfl⟩ | ⟨-, hold, hrw⟩
  · exact ⟨p, hp, hmaps.holds, fun _ ↦ .inr fun r q v hq hv ↦
      hiso.eq_of_count_le hinv hcount hq hp hv hmaps.holds⟩
  · exact ⟨p, hp, hold, fun h ↦ .inl (hrw h)⟩

/-! ## Giving up memory -/

section

variable (hp : s.procs pid = some p) (horder : p.InOrder)
include hp horder

omit hinv in
theorem Isolated.count_released_le (hnodup : p.pages.Nodup) (x : ℕ) :
    (releasedPages p.table p.sections).count x ≤ 1 := by
  rw [Proc.count_released hnodup horder, Proc.mapCount]
  apply Finset.card_le_one.2
  intro v hv v' hv'
  exact hiso.same pid p pid p v v' x hp hp (Finset.mem_filter.1 hv).2.holds
    (Finset.mem_filter.1 hv').2.holds

variable (hderefs : Derefs t (releasedPages p.table p.sections) s')
include hderefs

theorem Isolated.release_keeps (hown : GivesUpOwn s pid) (hrefs : t.refCount = s.refCount)
    (hr : r ≠ pid) (hq : s.procs r = some q) (hv : q.Holds v x) (hblock : InBlock s.buddy x head k)
    (hused : usedAt t.buddy head = some k) :
    usedAt s'.buddy head = some k := by
  obtain ⟨hnodup, hothers⟩ := hown p hp
  rcases hderefs.used head with hsame | ⟨-, hpos, hle⟩
  · rw [hsame, hused]
  · exfalso
    rw [hrefs] at hpos hle
    have hone := hiso.count_released_le hp horder hnodup head
    have hmem : head ∈ releasedPages p.table p.sections := count_pos_iff.1 (by omega)
    obtain ⟨u, -, hu⟩ := horder.mem_released.1 hmem
    rcases hv with hmaps | ⟨size, code, hloaded, hlt, rfl⟩
    · obtain ⟨hvlt, e, he, rfl⟩ := hmaps
      refine hothers head hmem (by omega) k hblock.1
        ⟨r, hinv.pid_lt r q hq, hr, q, hq, v, ?_, e, he, hblock.2⟩
      exact (hinv.proc r q hq).mem_pages v _ ⟨hvlt, e, he, rfl⟩
    · -- The program that `r` has loaded is in a block headed by its first page.
      obtain ⟨hrw, m, hcode, hpages, -⟩ := hiso.loaded_block hinv hq hloaded
      obtain ⟨rfl, -⟩ := InBlock.unique hinv.wf ⟨hcode.1, by omega, by omega⟩ hblock
      exact hr (hiso.alone r q pid p 0 u code hq hp hrw hu.holds)

theorem Isolated.release_keeps_head
    (hhead : boot head ≠ none ∨ head ∈ s.kernel) (hsused : usedAt s.buddy head = some k) :
    usedAt s'.buddy head = usedAt t.buddy head := by
  apply hderefs.usedAt_eq
  intro hmem
  obtain ⟨v, -, hv⟩ := horder.mem_released.1 hmem
  obtain ⟨head', m, hblock, hboot, hker⟩ := hiso.block pid p v head hp hv.holds
  obtain ⟨rfl, -⟩ := hblock.unique hinv.wf (.head hsused)
  exact hhead.elim (fun h ↦ h hboot) hker

omit hinv in
theorem Isolated.granted_kept {pages idx : ℕ} (hgranted : Granted s.buddy pages idx k b)
    (hbuddy : t.buddy = b) : usedAt s'.buddy idx = some k := by
  have hout : idx ∉ releasedPages p.table p.sections := fun hmem ↦ by
    obtain ⟨v, -, hv⟩ := horder.mem_released.1 hmem
    exact hiso.granted_fresh hgranted le_rfl
      (Nat.lt_add_of_pos_right (Nat.pow_pos (by decide))) hp hv.holds
  rw [hderefs.usedAt_eq hout, hbuddy, hgranted.used]

/-- A process gives up its memory and holds fresh pages only from then on. -/
theorem Isolated.releases {s'' : VmState} (hinv' : VmInv s'') (hown : GivesUpOwn s pid)
    (hrefs : t.refCount = s.refCount)
    (hkeeps : ∀ head k, usedAt s.buddy head = some k → usedAt t.buddy head = some k)
    (New : ℕ → ℕ → Prop) (h : Acquires boot s s'' pid New)
    (hpid : ∀ q v x, s''.procs pid = some q → q.Holds v x → New v x) (hbuddy : s''.buddy = s'.buddy)
    (hkernel : s''.kernel = s.kernel) (hcounts : s''.refCount = s'.refCount) :
    Isolated boot s'' := by
  refine hiso.of_holds hinv hinv' pid New h ?_ ?_ ?_ ?_
  · intro head k hboot
    have hsused := hiso.boot_used head k hboot
    rw [hbuddy, hiso.release_keeps_head hinv hp horder hderefs
      (.inl (by rw [hboot]; exact nofun)) hsused]
    exact hkeeps head k hsused
  · intro head hmem
    rw [hkernel] at hmem
    obtain ⟨⟨k, hsused⟩, hboot⟩ := hiso.kernel head hmem
    rw [hbuddy, hiso.release_keeps_head hinv hp horder hderefs (.inr hmem) hsused]
    exact ⟨⟨k, hkeeps head k hsused⟩, hboot⟩
  · intro r q v x hq hv hrpid head k hblock hboot hker
    rw [hbuddy, hkernel]
    refine ⟨?_, hker⟩
    by_cases hr : r = pid
    · obtain ⟨q', hq', hv'⟩ := hrpid hr
      exact absurd hv (h.fresh v x (hpid q' v x hq' hv') r q v hq)
    · exact hiso.release_keeps hinv hp horder hderefs hown hrefs hr hq hv hblock
        (hkeeps head k hblock.1)
  · intro x hnew _
    have hle := hiso.count_released_le hp horder (hown p hp).1 x
    rw [hcounts, hderefs.refCount, hrefs]
    rcases Nat.eq_zero_or_pos ((releasedPages p.table p.sections).count x) with hzero | hpos
    · exact .inl (by omega)
    · obtain ⟨v, -, hv⟩ := horder.mem_released.1 (count_pos_iff.1 hpos)
      exact .inr ⟨by omega, ⟨p, v, hp, hv.holds⟩, fun q u hq hu ↦ hnew u (hpid q u x hq hu)⟩

end

/-! ## Forking -/

omit hinv hiso in
theorem forked_fetched (hfetched : p.Fetched) (usableEnd : ℕ) : (p.forked usableEnd).Fetched := by
  have hzero : usrCodeStart / pageSize < userPages := by decide
  obtain ⟨x, hx⟩ := (Proc.lookup_ne_none_iff hzero).1 hfetched
  exact (Proc.lookup_ne_none_iff hzero).2 ⟨x, Proc.forked_maps.2 hx⟩

/-- After a fork neither process may write to what both of them map. -/
theorem Isolated.forked_readOnly (hp : s.procs pid = some p) (hfetched : p.Fetched) (v x : ℕ) :
    ¬ (p.forked s.usableEnd).HoldsRw v x := by
  intro hrw
  obtain ⟨hv, e', he', rfl, hw⟩ := hrw.lookup (forked_fetched hfetched _)
  rw [Proc.forked, lookup_pageTableFork, map_eq_some_iff] at he'
  obtain ⟨e, he, rfl⟩ := he'
  rw [protect] at hw
  split at hw
  · cases hw
  · next hhigh =>
    -- Only pages of the reserved memory at the end are left writable, and nobody maps these.
    have hmaps : p.Maps v e.frame := ⟨hv, e, he, rfl⟩
    have hlt := ((hinv.proc pid p hp).frame _ _ hmaps).2
    obtain ⟨head, k, hboot, hin⟩ := hiso.high e.frame hlt (by omega)
    obtain ⟨head', k', hblock, hboot', -⟩ := hiso.block pid p v _ hp hmaps.holds
    obtain ⟨rfl, -⟩ := hblock.unique hinv.wf ⟨hiso.boot_used head k hboot, hin⟩
    cases hboot.symm.trans hboot'

omit hiso in
theorem holds_pos (hq : s.procs r = some q) (hv : q.Holds v x) : 0 < x := by
  rcases hv with hmaps | ⟨size, code, hloaded, -, rfl⟩
  · exact ((hinv.proc r q hq).frame v x hmaps).1
  · exact Nat.add_pos_left (loaded_pos hinv hq hloaded).2 v

omit hinv hiso in
theorem forks_cases (h : ((t.setProc pid p).setProc child p).procs r = some q) :
    ((r = pid ∨ r = child) ∧ q = p) ∨ (r ≠ pid ∧ t.procs r = some q) := by
  rcases setProc_cases h with ⟨hr, hq⟩ | ⟨-, h⟩
  · exact .inl ⟨.inr hr, hq⟩
  · exact (setProc_cases h).imp_left fun ⟨hr, hq⟩ ↦ ⟨.inl hr, hq⟩

theorem Isolated.forks (hinv' : VmInv s') {w : ℕ → Bool} (hp : s.procs pid = some p)
    (hfetched : p.Fetched)
    (hs' : s' = { ((s.clear.withRefs p.frames).setProc pid (p.forked s.usableEnd)).setProc child
      (p.forked s.usableEnd) with wPermission := w })
    (hcounted : ∀ x ∈ p.frames, x ≠ 0 → 1 ≤ s.refCount x ∧ s.refCount x + p.frames.count x < 2 ^ 16) :
    Isolated boot s' := by
  have hro := hiso.forked_readOnly hinv hp hfetched
  have hfetched' := forked_fetched hfetched s.usableEnd
  have hproc (r : ℕ) (q : Proc) (hq : s'.procs r = some q) :
      ((r = pid ∨ r = child) ∧ q = p.forked s.usableEnd) ∨ (r ≠ pid ∧ s.procs r = some q) := by
    rw [hs'] at hq
    exact forks_cases hq
  have hholds (r : ℕ) (q : Proc) (v x : ℕ) (hq : s'.procs r = some q) (hv : q.Holds v x) :
      ((r = pid ∨ r = child) ∧ p.Holds v x ∧ ¬ q.HoldsRw v x) ∨ (r ≠ pid ∧ s.procs r = some q) := by
    refine (hproc r q hq).imp ?_ id
    rintro ⟨hr, rfl⟩
    exact ⟨hr, (Proc.forked_maps.1 (hv.maps hfetched')).holds, hro v x⟩
  have hold (r : ℕ) (q : Proc) (v x : ℕ) (hq : s'.procs r = some q) (hv : q.Holds v x) :
      ∃ r₀ q₀, s.procs r₀ = some q₀ ∧ q₀.Holds v x := by
    rcases hholds r q v x hq hv with ⟨-, hpv, -⟩ | ⟨-, hq₀⟩
    · exact ⟨pid, p, hp, hpv⟩
    · exact ⟨r, q, hq₀, hv⟩
  refine ⟨hs' ▸ hiso.high, hs' ▸ hiso.boot_used, hs' ▸ hiso.kernel, ?_, ?_, ?_, ?_, ?_⟩
  · intro r q v x hq hv
    obtain ⟨r₀, q₀, hq₀, hv₀⟩ := hold r q v x hq hv
    rw [hs']
    exact hiso.block r₀ q₀ v x hq₀ hv₀
  · intro r q size code hq hloaded
    rcases hproc r q hq with ⟨-, rfl⟩ | ⟨-, hq₀⟩
    · exact absurd hloaded (Proc.not_loadedAt hfetched' size code)
    · rw [hs']
      exact hiso.loaded r q size code hq₀ hloaded
  · intro r q r' q' v v' x hq hq' hv hv'
    obtain ⟨r₀, q₀, hq₀, hv₀⟩ := hold r q v x hq hv
    obtain ⟨r₁, q₁, hq₁, hv₁⟩ := hold r' q' v' x hq' hv'
    exact hiso.same r₀ q₀ r₁ q₁ v v' x hq₀ hq₁ hv₀ hv₁
  · intro r q r' q' v v' x hq hq' hv hv'
    rcases hholds r q v x hq hv.holds with ⟨-, -, hnot⟩ | ⟨hr, hq₀⟩
    · exact absurd hv hnot
    · rcases hholds r' q' v' x hq' hv' with ⟨-, hpv, -⟩ | ⟨-, hq₀'⟩
      · exact absurd (hiso.alone r q pid p v v' x hq₀ hp hv hpv) hr
      · exact hiso.alone r q r' q' v v' x hq₀ hq₀' hv hv'
  · intro x htwo
    have hcount : s'.refCount x = (s.refCount x + p.frames.count x) % 2 ^ 16 := by
      rw [hs']
      rfl
    by_cases hpv : ∃ v, p.Holds v x
    · -- The child is one more holder, and the page is counted once more.
      obtain ⟨v, hpv⟩ := hpv
      have hmaps := hpv.maps hfetched
      have hmem : x ∈ p.frames :=
        mem_map.2 ⟨v, (hinv.proc pid p hp).mem_pages v x hmaps, by
          rw [hmaps.v2pTrans, Nat.mul_div_cancel x (by decide)]⟩
      obtain ⟨hone, hfit⟩ := hcounted x hmem (holds_pos hinv hp hpv).ne'
      have hpos := count_pos_iff.2 hmem
      have hsub : holders s' x ⊆ insert child (holders s x) := by
        intro r hr
        obtain ⟨q, v', hq, hv'⟩ := (mem_holders hinv').1 hr
        rw [Finset.mem_insert]
        rcases hholds r q v' x hq hv' with ⟨rfl | rfl, hpv', -⟩ | ⟨-, hq₀⟩
        · exact .inr ((mem_holders hinv).2 ⟨p, v', hp, hpv'⟩)
        · exact .inl rfl
        · exact .inr ((mem_holders hinv).2 ⟨q, v', hq₀, hv'⟩)
      have hle := (Finset.card_le_card hsub).trans (Finset.card_insert_le _ _)
      rw [hcount, Nat.mod_eq_of_lt hfit]
      by_cases hshared : 2 ≤ (holders s x).card
      · have := hiso.shared x hshared
        omega
      · omega
    · have hsub := holders_subset hinv hinv' fun r q v hq (hv : q.Holds v x) ↦
        (hholds r q v x hq hv).elim (fun h ↦ absurd ⟨v, h.2.1⟩ hpv) fun h ↦ ⟨q, h.2, hv⟩
      have hle := Finset.card_le_card hsub
      obtain ⟨r, hr⟩ := Finset.card_pos.1 (by omega : 0 < (holders s' x).card)
      obtain ⟨q, v, hq, hv⟩ := (mem_holders hinv).1 (hsub hr)
      have hout : x ∉ p.frames := fun hmem ↦ by
        rcases Proc.mem_frames (hinv.proc pid p hp) hmem with ⟨v', -, hmaps⟩ | ⟨rfl, -⟩
        · exact hpv ⟨v', hmaps.holds⟩
        · exact (holds_pos hinv hq hv).ne rfl
      rw [hcount, count_eq_zero.2 hout, Nat.add_zero, Nat.mod_eq_of_lt (hinv.count_lt x)]
      exact hle.trans (hiso.shared x (by omega))

/-! ## Every operation -/

theorem Effect.isolated {op : VmOp} (hallowed : IsolationAllowed s op) (h : Effect s op s') :
    Isolated boot s' := by
  obtain ⟨-, hreleases, hcounted⟩ := hallowed
  have hinv' := h.inv hinv
  cases h with
  | @dies _ pid p hp =>
    refine hiso.of_same hinv hinv' pid (.old rfl rfl (fun r hr ↦ update_of_ne hr _ _) fun q hq ↦ ?_) rfl
      (fun _ _ h ↦ h) rfl
    obtain rfl := setProc_self hq
    exact ⟨fun v x hv ↦ ⟨p, hp, hv, .inl⟩, fun size code h ↦ ⟨p, hp, h⟩⟩
  | @execs pid image _ code _ _ t hp hlen horder hgranted hderefs =>
    have hpages := textSection_imagePages hlen
    have hcode := hiso.granted_kept hp horder hderefs hgranted rfl
    have hholds (q : Proc) (v x : ℕ)
        (hq : (t.setProc pid (loadedProc (code * pageSize) image.length)).procs pid = some q)
        (hv : q.Holds v x) : 0 ≤ v ∧ v < 0 + imagePages image.length ∧ x = code + (v - 0) := by
      obtain rfl := setProc_self hq
      obtain ⟨hlt, rfl⟩ := Proc.loadedProc_holds hv
      omega
    refine hiso.releases hinv hp horder hderefs hinv' hreleases rfl (fun _ _ h ↦ hgranted.keeps h) _
      (hiso.acquires_granted 0 hgranted hcode hderefs.kernel hderefs.usableEnd
        (hderefs.exp.trans hgranted.exp)
        (fun r hr ↦ (update_of_ne hr _ _).trans (congrFun hderefs.procs r))
        (fun q v x hq hv ↦ .inl (hholds q v x hq hv)) fun q size code' hq hloaded ↦ ?_)
      hholds rfl hderefs.kernel rfl
    obtain rfl := setProc_self hq
    obtain ⟨rfl, rfl⟩ := (Proc.loadedProc_loadedAt code image.length).unique hloaded
    exact ⟨rfl, hpages⟩
  | @forksThread pid child p hp hel hchild hnone =>
    have hholds (v x : ℕ) : ¬ p.Holds v x := by
      rintro (hmaps | ⟨size, code, hloaded, -⟩)
      · cases (hinv.proc pid p hp).stage with
        | thread _ _ htable => exact Proc.not_maps_of_empty htable v x hmaps
        | loaded _ _ hel' | running _ _ hel' => exact absurd (hel.symm.trans hel') (by decide)
      · exact absurd (hel.symm.trans hloaded.1) (by decide)
    refine hiso.of_same hinv hinv' child (.old rfl rfl (fun r hr ↦ update_of_ne hr _ _)
      fun q hq ↦ ?_) rfl (fun _ _ h ↦ h) rfl
    obtain rfl := setProc_self hq
    exact ⟨fun v x hv ↦ absurd hv (hholds v x),
      fun size code hloaded ↦ absurd (hel.symm.trans hloaded.1) (by decide)⟩
  | @forks _ _ p _ hp hel hfetched hchild hnone =>
    exact hiso.forks hinv hinv' hp hfetched rfl (hcounted p hp)
  | @reserves pid _ _ _ _ _ p hp hel hfetched hflags hend hfree =>
    refine hiso.of_same hinv hinv' pid (.old rfl rfl (fun r hr ↦ update_of_ne hr _ _) fun q hq ↦ ?_) rfl
      (fun _ _ h ↦ h) rfl
    obtain rfl := setProc_self hq
    refine ⟨fun v x hv ↦ ?_, fun size code hloaded ↦
      absurd hloaded (Proc.not_loadedAt (p := p.addSection _) hfetched size code)⟩
    have hmaps : p.Maps v x := hv.maps (p := p.addSection _) hfetched
    exact ⟨p, hp, hmaps.holds, fun hrw ↦ .inl (.inl (hrw.lookup (p := p.addSection _) hfetched))⟩
  | @populates _ addr len _ _ page _ _ p _ hp hel hfetched hflags hpos hend hfree hgranted =>
    have hpage : usrCodeStart / pageSize < page := by
      have hzero : usrCodeStart / pageSize = 0 := by decide
      by_contra hle
      exact hfetched (hfree _ (by omega) (by omega))
    refine hiso.maps_fresh_pages (q := p.addSection (heapSection addr page (imagePages len))) hinv
      hinv' hp
      hfetched ?_ rfl hend hgranted rfl rfl rfl rfl fun _ _ ↦ rfl
    rw [Proc.Fetched, Proc.withPages_lookup_below hend hpage]
    exact hfetched
  | fetches hp hel hsize hsecs htable hcode hpos hle =>
    exact hiso.fetches hinv hinv' hp ⟨hel, htable, hsecs, hcode⟩ rfl
  | @grows pid addr frame p _ hp hel hfetched hpage hnone hgranted =>
    have hlt := (hinv.proc pid p hp).page_lt hpage
    have hself : (p.withPages (addr / pageSize) 1 frame dataFlags).Maps (addr / pageSize) frame :=
      (Proc.withPages_one_maps hlt).2 (.inl ⟨rfl, rfl⟩)
    have hfetched' : (p.withPages (addr / pageSize) 1 frame dataFlags).Fetched :=
      (hinv'.proc _ _ (update_self ..)).fetched hself
    refine hiso.maps_fresh_pages hinv hinv' hp hfetched hfetched' rfl
      (by omega) hgranted rfl rfl rfl rfl
      fun x hx ↦ ?_
    change (s.refCount x + [frame].count x) % 2 ^ 16 = s.refCount x
    rw [count_singleton, if_neg (by simp only [beq_iff_eq]; omega), Nat.add_zero,
      Nat.mod_eq_of_lt (hinv.count_lt x)]
  | copies hp hel hmaps hcount hgranted hderefs =>
    exact hiso.copies hinv hinv' hp hmaps hcount hgranted hderefs
  | unprotects hp hel hmaps hcount =>
    exact hiso.unprotects hinv hinv' hp hmaps hcount rfl
  | @stores pid _ _ _ _ hp haddr hlook hwrite =>
    exact hiso.of_same hinv hinv' pid (.none rfl rfl rfl) rfl (fun _ _ h ↦ h) rfl
  | @reaps pid _ t hp horder hderefs =>
    have hgone (q : Proc) : update t.procs pid none pid ≠ some q := by
      rw [update_self]
      rintro ⟨⟩
    exact hiso.releases hinv hp horder hderefs hinv' hreleases rfl (fun _ _ h ↦ h) _
      (.old hderefs.usableEnd hderefs.exp
        (fun r hr ↦ (update_of_ne hr _ _).trans (congrFun hderefs.procs r))
        fun q hq ↦ absurd hq (hgone q))
      (fun q v x hq ↦ absurd hq (hgone q)) rfl hderefs.kernel rfl
  | @takes _ head k _ hgranted =>
    have hnew := hiso.granted_new hgranted
    refine hiso.of_holds hinv hinv' 0 _ (.none rfl hgranted.exp rfl)
      (fun head k hboot ↦ hgranted.keeps (hiso.boot_used head k hboot)) ?_ ?_
      (fun _ _ _ ↦ .inl le_rfl)
    · intro head' hmem
      rcases mem_cons.1 hmem with rfl | hmem
      · exact ⟨⟨k, hgranted.used⟩, hnew.1⟩
      · obtain ⟨⟨m, hused⟩, hboot⟩ := hiso.kernel head' hmem
        exact ⟨⟨m, hgranted.keeps hused⟩, hboot⟩
    · intro r q v x hq hv _ head' m hblock _ hker
      refine ⟨hgranted.keeps hblock.1, fun hmem ↦ (mem_cons.1 hmem).elim (fun heq ↦ ?_) hker⟩
      exact hgranted.ne_of_used hblock.1 heq
  | takesNone hwf hexp hused =>
    exact hiso.of_same hinv hinv' 0 (.none rfl hexp rfl) rfl
      (fun head k h ↦ (congrFun hused head).trans h) rfl
  | @gives head _ hhead hwf hexp hused =>
    have hboot := (hiso.kernel head hhead).2
    refine hiso.of_holds hinv hinv' 0 _ (.none rfl hexp rfl) (fun head' k hboot' ↦ ?_) ?_ ?_
      (fun _ _ _ ↦ .inl le_rfl)
    · have hne : head' ≠ head := fun heq ↦ by
        rw [heq, hboot] at hboot'
        cases hboot'
      exact (hused head' hne).trans (hiso.boot_used head' k hboot')
    · intro head' hmem
      obtain ⟨hmem, hne⟩ := mem_filter.1 hmem
      obtain ⟨⟨m, hold⟩, hboot'⟩ := hiso.kernel head' hmem
      exact ⟨⟨m, (hused head' (of_decide_eq_true hne)).trans hold⟩, hboot'⟩
    · intro r q v x hq hv _ head' m hblock _ hker
      have hne : head' ≠ head := fun heq ↦ hker (heq ▸ hhead)
      exact ⟨(hused head' hne).trans hblock.1, fun hmem ↦ hker (mem_filter.1 hmem).1⟩

end Step

/-! ## Runs -/

theorem VmInit.not_holds (h : VmInit usableEnd s) (r : ℕ) (q : Proc) (v x : ℕ)
    (hq : s.procs r = some q) : ¬ q.Holds v x := by
  obtain ⟨hel, -, htable⟩ := h.procs r q hq
  rintro (hmaps | ⟨size, code, hloaded, -⟩)
  · exact Proc.not_maps_of_empty htable v x hmaps
  · exact absurd (hel.symm.trans hloaded.1) (by decide)

theorem VmInit.isolated (h : VmInit usableEnd s) : Isolated (usedAt s.buddy) s := by
  have hholds := h.not_holds
  refine ⟨fun x hx hhigh ↦ h.high_used x hx (h.usableEnd_eq ▸ hhigh), fun _ _ hused ↦ hused, ?_, ?_,
    ?_, ?_, ?_, ?_⟩
  · intro head hmem
    rw [h.kernel] at hmem
    exact absurd hmem not_mem_nil
  · exact fun r q v x hq hv ↦ absurd hv (hholds r q v x hq)
  · intro r q size code hq hloaded
    exact absurd ((h.procs r q hq).1.symm.trans hloaded.1) (by decide)
  · exact fun r q _ _ v _ x hq _ hv ↦ absurd hv (hholds r q v x hq)
  · exact fun r q _ _ v _ x hq _ hv ↦ absurd hv.holds (hholds r q v x hq)
  · intro x htwo
    classical
    have hnone : holders s x = ∅ := by
      rw [holders, Finset.filter_eq_empty_iff]
      rintro r - ⟨q, v, hq, hv⟩
      exact hholds r q v x hq hv
    rw [hnone, Finset.card_empty] at htwo
    omega

/-- The processes are apart in every state of the runs that meet the condition. -/
theorem VmReachable.isolated {allowed : VmState → VmOp → Prop}
    (hallowed : ∀ s op, allowed s op → IsolationAllowed s op) (hend : usableEnd ≤ 2 ^ 42)
    (h : VmReachable allowed usableEnd s) : ∃ boot, Isolated boot s := by
  refine VmReachable.induct (P := fun s ↦ ∃ boot, Isolated boot s)
    (fun s op h ↦ (hallowed s op h).1) hend (fun s hinit ↦ ⟨_, hinit.isolated⟩) ?_ h
  rintro s op s' hinv ⟨boot, hiso⟩ hop heffect
  exact ⟨boot, heffect.isolated hinv hiso (hallowed s op hop)⟩

/-- The operations a write of the process `pid` consists of: the faults it takes and the store. -/
def VmOp.WriteOf (pid : ℕ) : VmOp → Prop
  | .translationFault r _ => r = pid
  | .permissionFault r _ => r = pid
  | .store r _ _ => r = pid
  | _ => False

/-- A process reads the same where its page table is the same and so are the bytes of its pages. -/
theorem load_congr (htable : (s'.procs r).map Proc.table = (s.procs r).map Proc.table)
    (hmem : ∀ q v x i, s.procs r = some q → q.Maps v x → i < pageSize →
      s'.mem (x * pageSize + i) = s.mem (x * pageSize + i)) (addr : ℕ) :
    load s' r addr = load s r addr := by
  unfold load
  cases hq : s.procs r with
  | none =>
    rw [hq, map_none, map_eq_none_iff] at htable
    rw [htable]
  | some q =>
    rw [hq, map_some, map_eq_some_iff] at htable
    obtain ⟨q', hq', htable⟩ := htable
    rw [hq']
    simp only [htable]
    split
    · next hmapped =>
      obtain ⟨e, he⟩ := ne_none_iff_exists'.1 hmapped.2
      rw [v2pTrans, he]
      exact congrArg some (hmem q _ e.frame _ hq ⟨hmapped.1, e, he, rfl⟩ (Nat.mod_lt _ (by decide)))
    · rfl

theorem setProc_table (hr : r ≠ pid) :
    ((t.setProc pid p).procs r).map Proc.table = (t.procs r).map Proc.table :=
  congrArg (Option.map Proc.table) (update_of_ne hr _ _)

theorem page_addr_ne {y i j : ℕ} (hne : x ≠ y) (hi : i < pageSize) (hj : j < pageSize) :
    x * pageSize + i ≠ y * pageSize + j := by
  unfold pageSize at *
  omega

/-- In every run that meets the condition, a write of one process changes nothing for another. -/
theorem write_leaves_others_alone {usableEnd : ℕ} (hend : usableEnd ≤ 2 ^ 42) {s s' : VmState} {op : VmOp}
    {pid : ℕ} (h : VmReachable IsolationAllowed usableEnd s) (hop : op.WriteOf pid) (henabled : op.Enabled s)
    (hallowed : IsolationAllowed s op) (hrun : op.run s = .ok s') {r : ℕ} (hr : r ≠ pid) (addr : ℕ) :
    load s' r addr = load s r addr := by
  have hinv := h.inv (fun _ _ hallowed ↦ hallowed.1) hend
  obtain ⟨boot, hiso⟩ := h.isolated (fun _ _ h ↦ h) hend
  cases VmOp.effect hinv henabled hallowed.1 hrun with
  | @dies _ pid' p hp =>
    have htable : ((s.clear.setProc pid' { p with dead := true }).procs r).map Proc.table =
        (s.procs r).map Proc.table := by
      by_cases heq : r = pid'
      · rw [heq, hp]
        change (update s.procs pid' _ pid').map Proc.table = _
        rw [update_self]
        rfl
      · exact setProc_table heq
    exact load_congr htable (fun _ _ _ _ _ _ _ ↦ rfl) addr
  | execs | forksThread | forks | reserves | populates | reaps | takes | takesNone | gives =>
    exact hop.elim
  | fetches | grows | unprotects =>
    cases hop
    exact load_congr (setProc_table hr) (fun _ _ _ _ _ _ _ ↦ rfl) addr
  | @copies pid' _ _ frame' _ _ t hp hel hmaps hcount hgranted hderefs =>
    obtain rfl : pid' = pid := hop
    refine load_congr ?_ (fun q v x i hq hv hi ↦ ?_) addr
    · exact (congrArg (fun procs ↦ (procs r).map Proc.table) hderefs.procs).trans (setProc_table hr)
    · change t.mem _ = _
      have hne : x ≠ frame' := fun heq ↦
        hiso.granted_fresh hgranted le_rfl (by omega) hq (heq ▸ hv.holds)
      rw [hderefs.mem]
      change copyPage s.mem _ _ _ = _
      rw [copyPage, if_neg]
      rintro ⟨hlow, hhigh⟩
      exact page_addr_ne hne hi (j := x * pageSize + i - frame' * pageSize) (by omega) (by omega)
  | @stores pid' addr' _ p e hp haddr hlook hwrite =>
    obtain rfl : pid' = pid := hop
    refine load_congr ?_ (fun q v x i hq hv hi ↦ ?_) addr
    · rfl
    · have hne : x ≠ e.frame := fun heq ↦
        hr (hiso.alone pid' p r q _ v x hp hq
          (.inl ⟨haddr, e, hlook, heq.symm, hwrite⟩) hv.holds).symm
      have hdiff := page_addr_ne hne hi (Nat.mod_lt addr' (by decide : 0 < pageSize))
      simp only [ne_eq, hdiff, not_false_eq_true, update_of_ne]

/-- After a fork the child's write to a page of its stack goes to a copy; the parent reads on what
it has written itself. -/
theorem write_leaves_others_alone_fork : ∃ s s', VmReachable IsolationAllowed 0x3b400000 s ∧
    (VmOp.store 1 usrStackStart 0x42).run s = .ok s' ∧ load s' 1 usrStackStart = some 0x42 ∧
    load s' 0 usrStackStart = load s 0 usrStackStart ∧ load s 0 usrStackStart = some 0x41 := by
  obtain ⟨s, s', hreach, henabled, hrun, hallowed, hchild, hparent⟩ :=
    rpi3Run_exists IsolationAllowed
    (tameOps.take 6 ++ [.store 0 usrStackStart 0x41, .fork 0 1, .permissionFault 1 usrStackStart])
    (.store 1 usrStackStart 0x42)
    (fun s s' ↦ IsolationAllowed s (.store 1 usrStackStart 0x42) ∧
      load s' 1 usrStackStart = some 0x42 ∧
      load s 0 usrStackStart = some 0x41)
    (by decide +kernel)
  have hwrite : (VmOp.store 1 usrStackStart 0x42).WriteOf 1 := rfl
  have hsame := write_leaves_others_alone (r := 0) (by decide) hreach hwrite henabled hallowed hrun
    (by decide)
    usrStackStart
  exact ⟨s, s', hreach, hrun, hchild, hsame, hparent⟩

/-- A page mapped by `MAP_POPULATE` is counted once after a fork, so the child makes it writable in
place and the parent reads what the child writes. -/
theorem populated_page_written_by_child : ∃ s s', VmReachable (fun _ _ ↦ True) 0x3b400000 s ∧
    (VmOp.store 1 0x10000000 0x41).Enabled s ∧ (VmOp.store 1 0x10000000 0x41).run s = .ok s' ∧
    load s 0 0x10000000 = some 0 ∧ load s' 0 0x10000000 = some 0x41 := by
  exact rpi3Run_exists (fun _ _ ↦ True)
    [.exec 0 [0], .translationFault 0 usrCodeStart, .mmap 0 0x10000000 0x1000 protWrite mapPopulate,
      .fork 0 1, .permissionFault 1 0x10000000] (.store 1 0x10000000 0x41)
    (fun s s' ↦ load s 0 0x10000000 = some 0 ∧ load s' 0 0x10000000 = some 0x41) (by decide +kernel)

end CapstoneKernel.VMem
