import CapstoneKernel.VMem.Counts

/-!
# Who holds a page

A process holds the pages it maps, and after `exec` the pages of the program it will map.  The
invariant `Isolated` of this module says that a page is held at one virtual page only, that a page
one process may write is held by no other, and that a page held by several processes is counted at
least as often as it is held, which is what the fault handler relies on when it decides to write in
place.
-/

namespace CapstoneKernel.VMem

open Mem Execution BuddyTiling

variable {p q : Proc} {v x size code r k pages idx : ℕ} {b : Buddy}

namespace Proc

/-- The program has been loaded to `code` and not been mapped yet. -/
def LoadedAt (p : Proc) (size code : ℕ) : Prop :=
  p.el0 = true ∧ p.table = emptyPageTable ∧ p.sections = [textSection size, stackSection] ∧
    p.code = code * pageSize

/-- The process maps the page, or will do so on its first fetch. -/
def Holds (p : Proc) (v x : ℕ) : Prop :=
  p.Maps v x ∨ ∃ size code, p.LoadedAt size code ∧ v < (textSection size).numPages ∧ x = code + v

/-- The process holds the page and may write to it. -/
def HoldsRw (p : Proc) (v x : ℕ) : Prop :=
  (v < userPages ∧ ∃ e, lookup p.table v = some e ∧ e.frame = x ∧ e.rdonly = false) ∨
    ∃ size code, p.LoadedAt size code ∧ v < (textSection size).numPages ∧ x = code + v

theorem HoldsRw.holds (h : p.HoldsRw v x) : p.Holds v x :=
  h.imp (fun ⟨hv, e, he, hx, _⟩ ↦ ⟨hv, e, he, hx⟩) id

theorem Maps.holds (h : p.Maps v x) : p.Holds v x := .inl h

theorem not_loadedAt (hfetched : p.Fetched) (size code : ℕ) : ¬ p.LoadedAt size code :=
  fun ⟨_, htable, _⟩ ↦ not_fetched htable hfetched

theorem Holds.maps (hfetched : p.Fetched) (h : p.Holds v x) : p.Maps v x :=
  h.resolve_right fun ⟨size, code, hloaded, _⟩ ↦ not_loadedAt hfetched size code hloaded

theorem HoldsRw.lookup (hfetched : p.Fetched) (h : p.HoldsRw v x) :
    v < userPages ∧ ∃ e, lookup p.table v = some e ∧ e.frame = x ∧ e.rdonly = false :=
  h.resolve_right fun ⟨size, code, hloaded, _⟩ ↦ not_loadedAt hfetched size code hloaded

theorem textSection_size_eq {size' : ℕ} (h : textSection size = textSection size') : size = size' :=
  congrArg Section.size h

theorem LoadedAt.unique {size' code' : ℕ} (h : p.LoadedAt size code)
    (h' : p.LoadedAt size' code') : size = size' ∧ code = code' := by
  obtain ⟨-, -, hsecs, hcode⟩ := h
  obtain ⟨-, -, hsecs', hcode'⟩ := h'
  refine ⟨textSection_size_eq (List.cons.inj (hsecs.symm.trans hsecs')).1, ?_⟩
  exact Nat.eq_of_mul_eq_mul_right (by decide : 0 < pageSize) (hcode.symm.trans hcode')

theorem loadedProc_loadedAt (code size : ℕ) : (loadedProc (code * pageSize) size).LoadedAt size code :=
  ⟨rfl, rfl, rfl, rfl⟩

theorem loadedProc_holds (h : (loadedProc (code * pageSize) size).Holds v x) :
    v < (textSection size).numPages ∧ x = code + v := by
  rcases h with hmaps | ⟨size', code', hloaded, hv, hx⟩
  · exact absurd hmaps (not_maps_of_empty rfl v x)
  · obtain ⟨rfl, rfl⟩ := (loadedProc_loadedAt code size).unique hloaded
    exact ⟨hv, hx⟩

end Proc

/-- The processes that hold a page. -/
noncomputable def holders (s : VmState) (x : ℕ) : Finset ℕ := by
  classical
  exact (Finset.range maxProc).filter fun r ↦ ∃ q v, s.procs r = some q ∧ q.Holds v x

theorem mem_holders {s : VmState} (hinv : VmInv s) :
    r ∈ holders s x ↔ ∃ q v, s.procs r = some q ∧ q.Holds v x := by
  classical
  rw [holders, Finset.mem_filter, Finset.mem_range]
  exact ⟨And.right, fun ⟨q, v, hq, hv⟩ ↦ ⟨hinv.pid_lt r q hq, q, v, hq, hv⟩⟩

/-- The pages of the processes are apart.  `boot` are the blocks in use after boot. -/
structure Isolated (boot : ℕ → Option ℕ) (s : VmState) : Prop where
  high : ∀ x < s.buddy.numPages, s.usableEnd ≤ x * pageSize →
    ∃ head k, boot head = some k ∧ head ≤ x ∧ x < head + 2 ^ k
  boot_used : ∀ head k, boot head = some k → usedAt s.buddy head = some k
  kernel : ∀ head ∈ s.kernel, (∃ k, usedAt s.buddy head = some k) ∧ boot head = none
  block : ∀ r q v x, s.procs r = some q → q.Holds v x →
    ∃ head k, InBlock s.buddy x head k ∧ boot head = none ∧ head ∉ s.kernel
  loaded : ∀ r q size code, s.procs r = some q → q.LoadedAt size code →
    ∃ k, usedAt s.buddy code = some k ∧ (textSection size).numPages ≤ 2 ^ k
  same : ∀ r q r' q' v v' x, s.procs r = some q → s.procs r' = some q' → q.Holds v x → q'.Holds v' x → v = v'
  alone : ∀ r q r' q' v v' x, s.procs r = some q → s.procs r' = some q' → q.HoldsRw v x → q'.Holds v' x →
    r = r'
  shared : ∀ x, 2 ≤ (holders s x).card → (holders s x).card ≤ s.refCount x

theorem InBlock.unique (hwf : BuddyWf b) {head head' k' : ℕ} (h : InBlock b x head k)
    (h' : InBlock b x head' k') : head = head' ∧ k = k' :=
  hwf.core.tiling.unique (hwf.core.usedAt_le h.1).1
    (hwf.core.usedAt_le h'.1).1 h.2.1 h.2.2 h'.2.1 h'.2.2

theorem InBlock.head (h : usedAt b x = some k) : InBlock b x x k :=
  ⟨h, le_rfl, Nat.lt_add_of_pos_right (Nat.pow_pos (by decide))⟩

theorem Granted.ne_of_used {b' : Buddy} {head m : ℕ} (h : Granted b pages idx k b')
    (hused : usedAt b head = some m) : head ≠ idx := by
  rintro rfl
  rw [h.unused] at hused
  cases hused

theorem Granted.keeps {b' : Buddy} {head m : ℕ} (h : Granted b pages idx k b')
    (hused : usedAt b head = some m) : usedAt b' head = some m :=
  (h.usedAt_of_ne head (h.ne_of_used hused)).trans hused

section Transition

variable {boot : ℕ → Option ℕ} {s s' : VmState} (hinv : VmInv s) (hiso : Isolated boot s)

include hinv hiso

omit hiso in
theorem loaded_pos (hq : s.procs r = some q) (hloaded : q.LoadedAt size code) :
    0 < (textSection size).numPages ∧ 0 < code := by
  cases (hinv.proc r q hq).stage with
  | thread hthread => exact absurd (hloaded.1.symm.trans hthread) (by decide)
  | loaded size' code' hel hsize hsecs htable hcode hpos =>
    obtain ⟨rfl, rfl⟩ := hloaded.unique ⟨hel, htable, hsecs, hcode⟩
    exact ⟨textSection_pos hsize, hpos⟩
  | running size' rest _ hsize _ _ hmapped =>
    exact absurd hloaded (Proc.not_loadedAt (hmapped 0 (textSection_pos hsize)) size code)

/-- The block of a program that is not mapped yet is headed by its first page. -/
theorem Isolated.loaded_block (hq : s.procs r = some q) (hloaded : q.LoadedAt size code) :
    q.HoldsRw 0 code ∧ ∃ k, InBlock s.buddy code code k ∧ (textSection size).numPages ≤ 2 ^ k ∧
      boot code = none ∧ code ∉ s.kernel := by
  have hrw : q.HoldsRw 0 code := .inr ⟨size, code, hloaded, (loaded_pos hinv hq hloaded).1, rfl⟩
  obtain ⟨k, hused, hle⟩ := hiso.loaded r q size code hq hloaded
  obtain ⟨head, m, hblock, hboot, hker⟩ := hiso.block r q 0 code hq hrw.holds
  obtain ⟨rfl, -⟩ := hblock.unique hinv.wf (.head hused)
  exact ⟨hrw, k, .head hused, hle, hboot, hker⟩

omit hinv in
theorem Isolated.granted_fresh (hgranted : Granted s.buddy pages idx k b)
    (hlow : idx ≤ x) (hhigh : x < idx + 2 ^ k) (hq : s.procs r = some q) :
    ¬ q.Holds v x := by
  intro hholds
  obtain ⟨head, m, hblock, -⟩ := hiso.block r q v x hq hholds
  exact hgranted.fresh x hlow hhigh head m hblock

omit hinv in
theorem Isolated.granted_new (hgranted : Granted s.buddy pages idx k b) :
    boot idx = none ∧ idx ∉ s.kernel := by
  refine ⟨Option.eq_none_iff_forall_ne_some.2 fun m hboot ↦ ?_, fun hmem ↦ ?_⟩
  · exact hgranted.ne_of_used (hiso.boot_used idx m hboot) rfl
  · obtain ⟨⟨m, hused⟩, -⟩ := hiso.kernel idx hmem
    exact hgranted.ne_of_used hused rfl

/-- A page that is counted at most once has at most one holder. -/
theorem Isolated.eq_of_count_le (hcount : s.refCount x ≤ 1) {r' v' : ℕ} {q' : Proc}
    (hq : s.procs r = some q) (hq' : s.procs r' = some q') (hv : q.Holds v x) (hv' : q'.Holds v' x) :
    r = r' := by
  by_contra hne
  have htwo : 2 ≤ (holders s x).card := by
    apply Finset.one_lt_card.2
    exact ⟨r, (mem_holders hinv).2 ⟨q, v, hq, hv⟩, r', (mem_holders hinv).2 ⟨q', v', hq', hv'⟩, hne⟩
  have := hiso.shared x htwo
  omega

variable {pid : ℕ}

omit hiso in
theorem card_holders_le_one (h : ∀ r q v, s.procs r = some q → q.Holds v x → r = pid) :
    (holders s x).card ≤ 1 := by
  refine Finset.card_le_one.2 fun r hr r' hr' ↦ ?_
  obtain ⟨q, v, hq, hv⟩ := (mem_holders hinv).1 hr
  obtain ⟨q', v', hq', hv'⟩ := (mem_holders hinv).1 hr'
  rw [h r q v hq hv, h r' q' v' hq' hv']

omit hiso in
theorem holders_subset (hinv' : VmInv s')
    (h : ∀ r q v, s'.procs r = some q → q.Holds v x → ∃ q₀, s.procs r = some q₀ ∧ q₀.Holds v x) :
    holders s' x ⊆ holders s x := by
  intro r hr
  obtain ⟨q, v, hq, hv⟩ := (mem_holders hinv').1 hr
  obtain ⟨q₀, hq₀, hv₀⟩ := h r q v hq hv
  exact (mem_holders hinv).2 ⟨q₀, v, hq₀, hv₀⟩

/-- By an operation the process `pid` gets the fresh pages `New` only, and becomes the writer only of
pages that it holds alone. -/
structure Acquires (boot : ℕ → Option ℕ) (s s' : VmState) (pid : ℕ) (New : ℕ → ℕ → Prop) :
    Prop where
  usableEnd : s'.usableEnd = s.usableEnd
  exp : s'.buddy.numPagesExp = s.buddy.numPagesExp
  other : ∀ r, r ≠ pid → s'.procs r = s.procs r
  holds : ∀ q v x, s'.procs pid = some q → q.Holds v x → New v x ∨
    ∃ q₀, s.procs pid = some q₀ ∧ q₀.Holds v x ∧ (q.HoldsRw v x → q₀.HoldsRw v x ∨
      ∀ r' q' v', s.procs r' = some q' → q'.Holds v' x → r' = pid)
  loaded : ∀ q size code, s'.procs pid = some q → q.LoadedAt size code →
    (∃ q₀, s.procs pid = some q₀ ∧ q₀.LoadedAt size code) ∨
      ∃ k, usedAt s'.buddy code = some k ∧ (textSection size).numPages ≤ 2 ^ k
  inj : ∀ v v' x, New v x → New v' x → v = v'
  fresh : ∀ v x, New v x → ∀ r q v', s.procs r = some q → ¬ q.Holds v' x
  block : ∀ v x, New v x → ∃ head k, InBlock s'.buddy x head k ∧ boot head = none ∧ head ∉ s'.kernel

omit hinv hiso in
/-- An operation without fresh pages. -/
theorem Acquires.old (husable : s'.usableEnd = s.usableEnd)
    (hexp : s'.buddy.numPagesExp = s.buddy.numPagesExp)
    (hother : ∀ r, r ≠ pid → s'.procs r = s.procs r) (hpid : ∀ q, s'.procs pid = some q →
      (∀ v x, q.Holds v x → ∃ q₀, s.procs pid = some q₀ ∧ q₀.Holds v x ∧
        (q.HoldsRw v x → q₀.HoldsRw v x ∨
          ∀ r' q' v', s.procs r' = some q' → q'.Holds v' x → r' = pid)) ∧
      ∀ size code, q.LoadedAt size code → ∃ q₀, s.procs pid = some q₀ ∧ q₀.LoadedAt size code) :
    Acquires boot s s' pid (fun _ _ ↦ False) :=
  ⟨husable, hexp, hother, fun q v x hq hv ↦ .inr ((hpid q hq).1 v x hv),
    fun q size code hq h ↦ .inl ((hpid q hq).2 size code h), fun _ _ _ h ↦ h.elim,
    fun _ _ h ↦ h.elim, fun _ _ h ↦ h.elim⟩

omit hinv hiso in
theorem Acquires.none (husable : s'.usableEnd = s.usableEnd)
    (hexp : s'.buddy.numPagesExp = s.buddy.numPagesExp) (hprocs : s'.procs = s.procs) :
    Acquires boot s s' pid (fun _ _ ↦ False) :=
  .old husable hexp (fun _ _ ↦ by rw [hprocs]) fun q hq ↦
    ⟨fun _ _ hv ↦ ⟨q, hprocs ▸ hq, hv, .inl⟩, fun _ _ h ↦ ⟨q, hprocs ▸ hq, h⟩⟩

omit hinv in
/-- The fresh pages are those of a block that the page allocator has granted. -/
theorem Isolated.acquires_granted {count frame : ℕ} (page : ℕ)
    (hgranted : Granted s.buddy count frame k b) (hused : usedAt s'.buddy frame = some k)
    (hkernel : s'.kernel = s.kernel) (husable : s'.usableEnd = s.usableEnd)
    (hexp : s'.buddy.numPagesExp = s.buddy.numPagesExp)
    (hother : ∀ r, r ≠ pid → s'.procs r = s.procs r)
    (hholds : ∀ q v x, s'.procs pid = some q → q.Holds v x →
      (page ≤ v ∧ v < page + count ∧ x = frame + (v - page)) ∨
      ∃ q₀, s.procs pid = some q₀ ∧ q₀.Holds v x ∧ (q.HoldsRw v x → q₀.HoldsRw v x))
    (hloaded : ∀ q size code, s'.procs pid = some q → q.LoadedAt size code →
      code = frame ∧ (textSection size).numPages = count) :
    Acquires boot s s' pid (fun v x ↦ page ≤ v ∧ v < page + count ∧ x = frame + (v - page)) := by
  have henough := hgranted.enough
  obtain ⟨hboot, hker⟩ := hiso.granted_new hgranted
  refine ⟨husable, hexp, hother, fun q v x hq hv ↦ ?_, fun q size code hq h ↦ ?_, ?_, ?_, ?_⟩
  · exact (hholds q v x hq hv).imp id fun ⟨q₀, hq₀, hv₀, hrw⟩ ↦ ⟨q₀, hq₀, hv₀, fun h ↦ .inl (hrw h)⟩
  · obtain ⟨rfl, hpages⟩ := hloaded q size code hq h
    exact .inr ⟨k, hused, hpages ▸ henough⟩
  · rintro v v' x ⟨hlow, hhigh, rfl⟩ ⟨hlow', hhigh', heq⟩
    omega
  · rintro v x ⟨hlow, hhigh, rfl⟩ r q' v' hq'
    exact hiso.granted_fresh hgranted (by omega) (by omega) hq'
  · rintro v x ⟨hlow, hhigh, rfl⟩
    exact ⟨frame, k, ⟨hused, by omega, by omega⟩, hboot, hkernel ▸ hker⟩

/-- The counts of shared pages go down by at most one and only where `pid` lets go of the page. -/
def KeepsCounts (s s' : VmState) (pid : ℕ) (New : ℕ → ℕ → Prop) : Prop :=
  ∀ x, (∀ v, ¬ New v x) → 2 ≤ (holders s' x).card → s.refCount x ≤ s'.refCount x ∨
    (s.refCount x ≤ s'.refCount x + 1 ∧ (∃ q v, s.procs pid = some q ∧ q.Holds v x) ∧
      ∀ q v, s'.procs pid = some q → ¬ q.Holds v x)

/-- An operation of the process `pid` keeps the processes apart, if moreover it leaves the blocks of
held pages in use. -/
theorem Isolated.of_holds (hinv' : VmInv s') (pid : ℕ) (New : ℕ → ℕ → Prop)
    (h : Acquires boot s s' pid New)
    (hboot : ∀ head k, boot head = some k → usedAt s'.buddy head = some k)
    (hkernel : ∀ head ∈ s'.kernel, (∃ k, usedAt s'.buddy head = some k) ∧ boot head = none)
    (hblock : ∀ r q v x, s.procs r = some q → q.Holds v x →
      (r = pid → ∃ q', s'.procs pid = some q' ∧ q'.Holds v x) → ∀ head k, InBlock s.buddy x head k →
      boot head = none → head ∉ s.kernel → usedAt s'.buddy head = some k ∧ head ∉ s'.kernel)
    (hcount : KeepsCounts s s' pid New) : Isolated boot s' := by
  have hholds (r : ℕ) (q : Proc) (v x : ℕ) (hq : s'.procs r = some q) (hv : q.Holds v x) :
      (r = pid ∧ New v x) ∨ ∃ q₀, s.procs r = some q₀ ∧ q₀.Holds v x ∧
        (q.HoldsRw v x → q₀.HoldsRw v x ∨
        ∀ r' q' v', s.procs r' = some q' → q'.Holds v' x → r' = r) := by
    by_cases hr : r = pid
    · subst hr
      exact (h.holds q v x hq hv).imp (fun h ↦ ⟨rfl, h⟩) id
    · exact .inr ⟨q, (h.other r hr).symm.trans hq, hv, .inl⟩
  have hnum : s'.buddy.numPages = s.buddy.numPages := congrArg (2 ^ ·) h.exp
  refine ⟨?_, hboot, hkernel, ?_, ?_, ?_, ?_, ?_⟩
  · rw [hnum, h.usableEnd]
    exact hiso.high
  · intro r q v x hq hv
    rcases hholds r q v x hq hv with ⟨-, hnew⟩ | ⟨q₀, hq₀, hv₀, -⟩
    · exact h.block v x hnew
    · obtain ⟨head, k, hin, hboot', hker⟩ := hiso.block r q₀ v x hq₀ hv₀
      obtain ⟨hused, hker'⟩ := hblock r q₀ v x hq₀ hv₀
        (fun hr ↦ ⟨q, hr ▸ hq, hv⟩) head k hin hboot' hker
      exact ⟨head, k, ⟨hused, hin.2⟩, hboot', hker'⟩
  · intro r q size code hq hloaded
    have hold : (∃ q₀, s.procs r = some q₀ ∧ q₀.LoadedAt size code) ∨
        ∃ k, usedAt s'.buddy code = some k ∧ (textSection size).numPages ≤ 2 ^ k := by
      by_cases hr : r = pid
      · subst hr
        exact h.loaded q size code hq hloaded
      · exact .inl ⟨q, (h.other r hr).symm.trans hq, hloaded⟩
    refine hold.elim (fun ⟨q₀, hq₀, hloaded₀⟩ ↦ ?_) id
    obtain ⟨hrw, k, hin, hle, hboot', hker⟩ := hiso.loaded_block hinv hq₀ hloaded₀
    have hself : q.Holds 0 code := .inr ⟨size, code, hloaded, (loaded_pos hinv' hq hloaded).1, rfl⟩
    exact ⟨k, (hblock r q₀ 0 code hq₀ hrw.holds (fun hr ↦ ⟨q, hr ▸ hq, hself⟩) code k hin hboot'
      hker).1, hle⟩
  · intro r q r' q' v v' x hq hq' hv hv'
    rcases hholds r q v x hq hv with ⟨-, hnew⟩ | ⟨q₀, hq₀, hv₀, -⟩ <;>
      rcases hholds r' q' v' x hq' hv' with ⟨-, hnew'⟩ | ⟨q₀', hq₀', hv₀', -⟩
    · exact h.inj v v' x hnew hnew'
    · exact absurd hv₀' (h.fresh v x hnew r' q₀' v' hq₀')
    · exact absurd hv₀ (h.fresh v' x hnew' r q₀ v hq₀)
    · exact hiso.same r q₀ r' q₀' v v' x hq₀ hq₀' hv₀ hv₀'
  · intro r q r' q' v v' x hq hq' hv hv'
    rcases hholds r q v x hq hv.holds with ⟨rfl, hnew⟩ | ⟨q₀, hq₀, hv₀, hrw⟩ <;>
      rcases hholds r' q' v' x hq' hv' with ⟨rfl, hnew'⟩ | ⟨q₀', hq₀', hv₀', -⟩
    · rfl
    · exact absurd hv₀' (h.fresh v x hnew r' q₀' v' hq₀')
    · exact absurd hv₀ (h.fresh v' x hnew' r q₀ v hq₀)
    · rcases hrw hv with hrw | honly
      · exact hiso.alone r q₀ r' q₀' v v' x hq₀ hq₀' hrw hv₀'
      · exact (honly r' q₀' v' hq₀' hv₀').symm
  · intro x htwo
    by_cases hnew : ∃ v, New v x
    · -- A fresh page is held by `pid` alone.
      obtain ⟨v, hnew⟩ := hnew
      have hone : (holders s' x).card ≤ 1 := card_holders_le_one hinv' fun r q v' hq hv' ↦
        (hholds r q v' x hq hv').elim And.left
          fun ⟨q₀, hq₀, hv₀, _⟩ ↦ absurd hv₀ (h.fresh v x hnew r q₀ v' hq₀)
      omega
    · rw [not_exists] at hnew
      have hsub : holders s' x ⊆ holders s x := holders_subset hinv hinv' fun r q v hq hv ↦
        (hholds r q v x hq hv).elim (fun hnew' ↦ absurd hnew'.2 (hnew v))
          fun ⟨q₀, hq₀, hv₀, _⟩ ↦ ⟨q₀, hq₀, hv₀⟩
      have hle := Finset.card_le_card hsub
      have hold := hiso.shared x (htwo.trans hle)
      rcases hcount x hnew htwo with hge | ⟨hge, ⟨q, v, hq, hv⟩, hgone⟩
      · omega
      · have hpid : pid ∈ holders s x := (mem_holders hinv).2 ⟨q, v, hq, hv⟩
        have hout : pid ∉ holders s' x := fun hmem ↦ by
          obtain ⟨q', v', hq', hv'⟩ := (mem_holders hinv').1 hmem
          exact hgone q' v' hq' hv'
        have herase : holders s' x ⊆ (holders s x).erase pid := fun r hr ↦
          Finset.mem_erase.2 ⟨fun heq ↦ hout (heq ▸ hr), hsub hr⟩
        have hcard := Finset.card_le_card herase
        rw [Finset.card_erase_of_mem hpid] at hcard
        omega

/-- The same for operations that free nothing. -/
theorem Isolated.of_keeps (hinv' : VmInv s') (pid : ℕ) (New : ℕ → ℕ → Prop)
    (h : Acquires boot s s' pid New) (hkernel : s'.kernel = s.kernel)
    (hkeeps : ∀ head k, usedAt s.buddy head = some k → usedAt s'.buddy head = some k)
    (hcount : KeepsCounts s s' pid New) : Isolated boot s' := by
  refine hiso.of_holds hinv hinv' pid New h
    (fun head k hboot ↦ hkeeps head k (hiso.boot_used head k hboot)) (fun head hmem ↦ ?_)
    (fun r q v x _ _ _ head k hin _ hker ↦ ⟨hkeeps head k hin.1, hkernel ▸ hker⟩) hcount
  obtain ⟨⟨k, hused⟩, hboot⟩ := hiso.kernel head (hkernel ▸ hmem)
  exact ⟨⟨k, hkeeps head k hused⟩, hboot⟩

/-- Operations that leave the held pages and the counts alone. -/
theorem Isolated.of_same (hinv' : VmInv s') (pid : ℕ) (h : Acquires boot s s' pid (fun _ _ ↦ False))
    (hkernel : s'.kernel = s.kernel)
    (hkeeps : ∀ head k, usedAt s.buddy head = some k → usedAt s'.buddy head = some k)
    (hrefs : s'.refCount = s.refCount) : Isolated boot s' :=
  hiso.of_keeps hinv hinv' pid _ h hkernel hkeeps (fun x _ _ ↦ .inl (by rw [hrefs]))

end Transition

end CapstoneKernel.VMem
