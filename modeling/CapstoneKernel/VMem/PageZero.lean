import CapstoneKernel.VMem.Runs

/-!
# Teardown and page 0

`v2p_trans` answers 0 for a virtual page that is not mapped, and neither `add_ref_sections` nor
`free_sections` tells this from the physical page 0.  As long as a process forks with all pages of
its sections mapped and gives its memory up in order, only its own pages are dereferenced, and page
0 and the block that holds it are left alone.  Otherwise a process that has not touched the lowest
page of its stack frees the reserved block at 0.
-/

namespace CapstoneKernel.VMem

open Mem Execution List

/-- A process forks with all pages of its sections mapped. -/
def ForksMapped (s : VmState) : VmOp → Prop
  | .fork pid _ => ∀ p, s.procs pid = some p → ∀ v ∈ p.pages, lookup p.table v ≠ none
  | _ => True

instance (s : VmState) (op : VmOp) : Decidable (ForksMapped s op) := by
  induction op using VmOp.casesOn <;> unfold ForksMapped <;> infer_instance

/-- The process an operation works on. -/
def VmOp.pid : VmOp → Option ℕ
  | .exec pid _ => some pid
  | .fork pid _ => some pid
  | .mmap pid _ _ _ _ => some pid
  | .translationFault pid _ => some pid
  | .permissionFault pid _ => some pid
  | .store pid _ _ => some pid
  | .exit pid => some pid
  | .reap pid => some pid
  | .kernelAlloc _ => none
  | .kernelFree _ => none

/-- The calls of an operation: `deref_page` only on pages of the process, and nothing on page 0. -/
structure TouchesOwnPages (s : VmState) (op : VmOp) (events : List VmEvent) : Prop where
  own : ∀ x, .deref x ∈ events → ∃ pid p v, op.pid = some pid ∧ s.procs pid = some p ∧ p.Maps v x
  ref_zero : .ref 0 ∉ events
  deref_zero : .deref 0 ∉ events
  free_zero : ∀ counted, .free 0 counted ∉ events

theorem TouchesOwnPages.nil (s : VmState) (op : VmOp) : TouchesOwnPages s op [] :=
  ⟨by simp, by simp, by simp, by simp⟩

variable {s : VmState} {op : VmOp} {pages : List ℕ}

theorem TouchesOwnPages.refs {events : List VmEvent} (h : TouchesOwnPages s op events)
    (hpages : 0 ∉ pages) : TouchesOwnPages s op (events ++ pages.map .ref) := by
  refine ⟨fun x hx ↦ h.own x (by simpa using hx), fun hzero ↦ ?_, fun hzero ↦
    h.deref_zero (by simpa using hzero),
    fun counted hfree ↦ h.free_zero counted (by simpa using hfree)⟩
  rcases mem_append.1 hzero with hmem | hmem
  · exact h.ref_zero hmem
  · obtain ⟨x, hx, heq⟩ := mem_map.1 hmem
    obtain rfl := VmEvent.ref.inj heq
    exact hpages hx

/-- Dereferencing mapped pages of the process. -/
theorem Derefs.touchesOwnPages {t t' : VmState} (hinv : VmInv s) {pid : ℕ} {p : Proc}
    (hop : op.pid = some pid) (hp : s.procs pid = some p) (h : Derefs t pages t')
    (htrace : t.trace = []) (hpages : ∀ x ∈ pages, ∃ v, p.Maps v x) :
    TouchesOwnPages s op t'.trace := by
  obtain ⟨events, heq, href, hderef, hfree⟩ := h.trace
  rw [htrace, nil_append] at heq
  rw [heq]
  have hpos : 0 ∉ pages := fun hmem ↦ by
    obtain ⟨v, hv⟩ := hpages 0 hmem
    exact absurd ((hinv.proc pid p hp).frame v 0 hv).1 (Nat.lt_irrefl 0)
  refine ⟨fun x hx ↦ ?_, href 0, fun hzero ↦ hpos (hderef 0 hzero), fun counted hzero ↦ ?_⟩
  · obtain ⟨v, hv⟩ := hpages x (hderef x hx)
    exact ⟨pid, p, v, hop, hp, hv⟩
  · obtain ⟨hlt, hle, -⟩ := hfree 0 counted hzero
    rw [count_eq_zero.2 hpos] at hle
    omega

theorem Effect.touchesOwnPages {s' : VmState} (hinv : VmInv s) (hfork : ForksMapped s op)
    (h : Effect s op s') : TouchesOwnPages s op s'.trace := by
  cases h with
  | @execs _ _ _ _ _ _ s₁ hp hlen horder hgranted hderefs =>
    change TouchesOwnPages s _ s₁.trace
    exact hderefs.touchesOwnPages hinv rfl hp rfl fun x hx ↦
      (horder.mem_released.1 hx).imp fun _ ↦ And.right
  | @forks pid _ p _ hp hel hfetched hchild hnone =>
    refine (TouchesOwnPages.nil s _).refs fun hzero ↦ ?_
    have hwf := hinv.proc pid p hp
    rcases Proc.mem_frames hwf hzero with ⟨v, -, hv⟩ | ⟨-, v, hv, hlook⟩
    · exact absurd (hwf.frame v 0 hv).1 (Nat.lt_irrefl 0)
    · exact hfork p hp v hv hlook
  | fetches hp hel hsize hsecs htable hcode hpos hle =>
    refine (TouchesOwnPages.nil s _).refs fun hzero ↦ ?_
    obtain ⟨i, -, hi⟩ := mem_map.1 hzero
    omega
  | grows hp hel hfetched hpage hnone hgranted =>
    have hpos := granted_ne_zero hinv hgranted
    exact (TouchesOwnPages.nil s _).refs fun hzero ↦ hpos.ne (mem_singleton.1 hzero)
  | copies hp hel hmaps hcount hgranted hderefs =>
    have hpos := granted_ne_zero hinv hgranted
    refine (hderefs.touchesOwnPages hinv rfl hp rfl fun x hx ↦ ?_).refs fun hzero ↦
      hpos.ne (mem_singleton.1 hzero)
    rw [mem_singleton.1 hx]
    exact ⟨_, hmaps⟩
  | @reaps _ _ s₁ hp horder hderefs =>
    change TouchesOwnPages s _ s₁.trace
    exact hderefs.touchesOwnPages hinv rfl hp rfl fun x hx ↦
      (horder.mem_released.1 hx).imp fun _ ↦ And.right
  | dies | forksThread | reserves | populates | unprotects | stores | takes | takesNone | gives =>
    exact TouchesOwnPages.nil s _

/-- If every process forks with its pages mapped and gives its memory up in order, then in all runs
`deref_page` gets pages of the process only, and page 0 is neither counted nor freed. -/
theorem teardown_keeps_to_own_pages {usableEnd : ℕ} (hend : usableEnd ≤ 2 ^ 42) {s : VmState}
    (h : VmReachable (fun s op ↦ Tame s op ∧ ForksMapped s op) usableEnd s) :
    (∃ k, usedAt s.buddy 0 = some k) ∧ ∀ (op : VmOp) (s' : VmState), op.Enabled s → Tame s op →
      ForksMapped s op → op.run s = .ok s' → TouchesOwnPages s op s'.trace := by
  have hinv := h.inv (fun _ _ hallowed ↦ hallowed.1) hend
  refine ⟨hinv.zero_used, fun op s' henabled htame hfork hrun ↦ ?_⟩
  exact (VmOp.effect hinv henabled htame hrun).touchesOwnPages hinv hfork

/-- A process touches all pages of its stack, forks, and its child exits and is reaped. -/
def tameOps : List VmOp :=
  [.exec 0 [0], .translationFault 0 usrCodeStart, .translationFault 0 usrStackStart,
    .translationFault 0 (usrStackStart + 0x1000), .translationFault 0 (usrStackStart + 0x2000),
    .translationFault 0 (usrStackStart + 0x3000), .fork 0 1, .exit 1]

theorem teardown_keeps_to_own_pages_fork : ∃ s s', VmReachable (fun s op ↦ Tame s op ∧ ForksMapped s op)
    0x3b400000 s ∧ (VmOp.reap 1).run s = .ok s' ∧ s'.trace.length = 5 ∧
    TouchesOwnPages s (.reap 1) s'.trace := by
  obtain ⟨s, s', hreach, henabled, hrun, hQ⟩ := rpi3Run_exists
    (fun s op ↦ Tame s op ∧ ForksMapped s op) tameOps (.reap 1)
    (fun s s' ↦ Tame s (.reap 1) ∧ s'.trace.length = 5) (by decide +kernel)
  exact ⟨s, s', hreach, hrun, hQ.2,
    (teardown_keeps_to_own_pages (by decide) hreach).2 _ s' henabled hQ.1 trivial hrun⟩

/-- A process whose stack pages are touched except for the lowest one forks, which counts page 0
once, and its child exits: reaping the child frees the reserved block at 0. -/
theorem reserved_page_zero_freed : ∃ s s', VmReachable (fun _ _ ↦ True) 0x3b400000 s ∧
    (VmOp.reap 1).Enabled s ∧ (VmOp.reap 1).run s = .ok s' ∧ .deref 0 ∈ s'.trace ∧ .free 0 [] ∈ s'.trace ∧
    usedAt s.buddy 0 = some 0 ∧ usedAt s'.buddy 0 = none := by
  obtain ⟨s, s', hreach, henabled, hrun, hQ⟩ := rpi3Run_exists (fun _ _ ↦ True)
    [.exec 0 [0], .translationFault 0 usrCodeStart, .translationFault 0 (usrStackStart + 0x1000),
      .translationFault 0 (usrStackStart + 0x2000), .translationFault 0 (usrStackStart + 0x3000),
      .fork 0 1, .exit 1] (.reap 1)
    (fun s s' ↦ .deref 0 ∈ s'.trace ∧ .free 0 [] ∈ s'.trace ∧ usedAt s.buddy 0 = some 0 ∧
      usedAt s'.buddy 0 = none) (by decide +kernel)
  exact ⟨s, s', hreach, henabled, hrun, hQ⟩

end CapstoneKernel.VMem
