import CapstoneKernel.Sched.Queues

/-!
# Finding a pid

`thread_create` looks for a free entry of `pcb_table` from behind the last pid on.  The index goes
around the table only at its beginning, so the search runs over the end of the table if all entries
behind the last pid are used, and it does not see the free ones before it.
-/

namespace CapstoneKernel.Sched

open Execution Function List

variable {pid id : ℕ} {allowed : State → Act → Prop}

/-- What callers expect: a free pid if there is one, and otherwise an error that changes nothing,
for `fork` as well. -/
structure FindsPid (s : State) : Prop where
  free : (∃ pid < maxProc, s.pcbTable pid = none) →
    ∃ pid < maxProc, s.pcbTable pid = none ∧ threadCreate s = .ok (some pid, s.created pid)
  full : (∀ pid < maxProc, s.pcbTable pid ≠ none) → threadCreate s = .ok (none, s) ∧ fork s = .ok s

/-! ## The search -/

section Search

variable {s : State}

theorem threadCreate_of_free
    (h : ∃ pid < maxProc, s.pcbTable pid = none ∧ (s.lastPid < pid ∨ s.lastPid + 1 = maxProc)) :
    ∃ pid < maxProc, s.pcbTable pid = none ∧ threadCreate s = .ok (some pid, s.created pid) := by
  obtain ⟨pid, hlt, hpid, hlast⟩ := h
  have hstart : (s.lastPid + 1) % maxProc ≤ pid ∧
      (s.lastPid < (s.lastPid + 1) % maxProc ∨ s.lastPid + 1 = maxProc) := by
    rcases hlast with hlast | hlast
    · rw [Nat.mod_eq_of_lt (by omega)]
      omega
    · rw [hlast, Nat.mod_self]
      omega
  obtain ⟨q, hle, hpassed, hfound⟩ := findPid_spec s _ (Nat.lt_add_right _ (Nat.lt_succ_self maxProc))
  -- The search does not pass the free entry.
  have hq : q ≤ pid := not_lt.1 fun hq ↦ (hpassed pid hstart.1 hq).2.1 hpid
  rcases hfound with ⟨hend, -⟩ | ⟨hlt, hfree, hfind⟩ | ⟨hlt, hused, hlastq, -⟩
  · omega
  · refine ⟨q, hlt, hfree, ?_⟩
    rw [threadCreate, hfind]
    rfl
  · obtain rfl : q = pid := by omega
    exact absurd hpid hused

theorem threadCreate_of_used (hlast : s.lastPid + 1 < maxProc)
    (hused : ∀ q, s.lastPid < q → q < maxProc → s.pcbTable q ≠ none) :
    threadCreate s = .error .outOfBounds := by
  obtain ⟨q, hle, -, ⟨-, hfind⟩ | ⟨hlt, hfree, -⟩ | ⟨-, -, hq, -⟩⟩ :=
    findPid_spec s (s.lastPid + 1) (Nat.lt_add_right _ (Nat.lt_succ_self maxProc))
  · rw [threadCreate, Nat.mod_eq_of_lt hlast, hfind]
    rfl
  · exact absurd hfree (hused q hle hlt)
  · omega

theorem threadCreate_of_full (hlast : s.lastPid + 1 = maxProc)
    (hfull : ∀ q < maxProc, s.pcbTable q ≠ none) : threadCreate s = .ok (none, s) := by
  obtain ⟨q, -, hpassed, ⟨hend, -⟩ | ⟨hlt, hfree, -⟩ | ⟨-, -, -, hfind⟩⟩ :=
    findPid_spec s 0 (Nat.lt_succ_self maxProc)
  · exact absurd rfl (hpassed s.lastPid (Nat.zero_le _) (by omega)).2.2
  · exact absurd hfree (hfull q hlt)
  · rw [threadCreate, hlast, Nat.mod_self, hfind]
    rfl

/-- Without a pid `fork` reads `pcb_table[-1]`. -/
theorem fork_of_none (h : threadCreate s = .ok (none, s)) : fork s = .error .outOfBounds := by
  rw [fork, h]
  rfl

end Search

/-! ## The last pid -/

section LastPid

variable {s s' : State}

theorem waitToReady_lastPid (h : waitToReady s id = .ok s') : s'.lastPid = s.lastPid := by
  obtain ⟨p, -, h⟩ := of_bind_eq_ok h
  exact Except.ok.inj h ▸ rfl

theorem rmAndProcess_lastPid {ids kept : List ℕ}
    (h : rmAndProcess pid ids s = .ok (kept, s')) : s'.lastPid = s.lastPid := by
  induction ids generalizing s kept with
  | nil => exact (Prod.mk.inj (Except.ok.inj h)).2 ▸ rfl
  | cons id rest ih =>
    obtain ⟨p, -, h⟩ := of_bind_eq_ok h
    split at h
    · obtain ⟨t, ht, h⟩ := of_bind_eq_ok h
      exact (ih h).trans (waitToReady_lastPid ht)
    · obtain ⟨⟨kept', t⟩, ht, h⟩ := of_bind_eq_ok h
      cases h
      exact ih ht

theorem die_lastPid {p : Pcb} (h : die s id p = .ok s') : s'.lastPid = s.lastPid := by
  obtain ⟨⟨kept, t⟩, ht, h⟩ := of_bind_eq_ok h
  cases h
  exact (rmAndProcess_lastPid ht :)

theorem exit_lastPid (h : exit s = .ok s') : s'.lastPid = s.lastPid := by
  obtain ⟨p, -, h⟩ := of_bind_eq_ok h
  cases h
  split <;> rfl

theorem killBody_lastPid (h : killBody s id = .ok s') : s'.lastPid = s.lastPid := by
  obtain ⟨p, -, h⟩ := of_bind_eq_ok h
  split at h
  · exact exit_lastPid h
  · exact (die_lastPid h :)
  · split at h
    · cases h
    · exact (die_lastPid h :)
  · exact Except.ok.inj h ▸ rfl

theorem frame_lastPid {f : Frame} {rest : List Frame} (h : f.run s rest = .ok s') :
    s'.lastPid = s.lastPid := by
  cases f with
  | schedule | wait =>
    obtain ⟨p, -, h⟩ := of_bind_eq_ok h
    exact Except.ok.inj h ▸ rfl
  | switchNext | switchRegs | checkReady => exact Except.ok.inj h ▸ rfl
  | switchTo prev next =>
    cases next with
    | none => cases h
    | some next =>
      obtain ⟨p, -, h⟩ := of_bind_eq_ok h
      exact Except.ok.inj h ▸ rfl
  | exit pcb =>
    obtain ⟨p, -, h⟩ := of_bind_eq_ok h
    exact (die_lastPid h :)
  | kill pcb => exact (killBody_lastPid h :)
  | killZombies =>
    rw [Frame.run] at h
    split at h <;> exact Except.ok.inj h ▸ rfl
  | reap pcb =>
    obtain ⟨p, -, h⟩ := of_bind_eq_ok h
    exact Except.ok.inj h ▸ rfl
  | wakePop e =>
    rw [Frame.run] at h
    split at h
    · cases h
    · exact Except.ok.inj h ▸ rfl
  | wakeReady e pcb => exact (waitToReady_lastPid h :)

theorem threadCreate_lastPid {result : Option ℕ} (h : threadCreate s = .ok (result, s'))
    (hlast : s.lastPid < maxProc) : s'.lastPid < maxProc := by
  rcases threadCreate_spec h with ⟨-, rfl⟩ | ⟨pid, -, hlt, -, rfl⟩
  · exact hlast
  · exact hlt

theorem act_lastPid {a : Act} (h : a.run s = .ok s') (hlast : s.lastPid < maxProc) :
    s'.lastPid < maxProc := by
  cases a with
  | step =>
    rw [Act.run] at h
    split at h
    · exact Except.ok.inj h ▸ hlast
    · exact frame_lastPid h ▸ hlast
  | timerInt | schedule =>
    cases h
    unfold Sched.schedule
    split <;> exact hlast
  | ioInt e =>
    cases h
    unfold Sched.ioInt
    split <;> exact hlast
  | wait | killZombies => exact Except.ok.inj h ▸ hlast
  | exit => exact exit_lastPid h ▸ hlast
  | kill pid =>
    change Sched.kill s pid = .ok s' at h
    unfold Sched.kill at h
    split at h
    · cases h
    · split at h <;> exact Except.ok.inj h ▸ hlast
  | threadCreate =>
    obtain ⟨⟨result, t⟩, ht, h⟩ := of_bind_eq_ok h
    exact Except.ok.inj h ▸ threadCreate_lastPid ht hlast
  | fork =>
    obtain ⟨⟨result, t⟩, ht, h⟩ := of_bind_eq_ok h
    cases result with
    | none => cases h
    | some pid =>
      cases h
      exact (threadCreate_lastPid ht hlast :)

theorem SchedReachable.lastPid_lt (h : SchedReachable allowed s) : s.lastPid < maxProc := by
  refine Reachable.invariant (P := fun s ↦ s.lastPid < maxProc) (fun s hboot ↦ ?_) ?_ h
  · rw [boot_eq] at hboot
    exact Except.ok.inj hboot ▸ (by decide : 1 < maxProc)
  · rintro s s' hlast ⟨a, -, -, hrun⟩
    exact act_lastPid hrun hlast

end LastPid

/-- In every run, `thread_create` and `fork` find a pid or fail cleanly if and only if a pid behind
the last one is free, or any pid if the last one is the end of the table. -/
theorem finds_pid_iff {s : State} (h : SchedReachable (fun _ _ ↦ True) s) :
    FindsPid s ↔
      ∃ pid < maxProc, s.pcbTable pid = none ∧ (s.lastPid < pid ∨ s.lastPid + 1 = maxProc) := by
  constructor
  · intro hfinds
    by_contra hnone
    push Not at hnone
    by_cases hfull : ∀ pid < maxProc, s.pcbTable pid ≠ none
    · obtain ⟨hcreate, hfork⟩ := hfinds.full hfull
      rw [fork_of_none hcreate] at hfork
      cases hfork
    · push Not at hfull
      obtain ⟨pid, -, -, hcreate⟩ := hfinds.free hfull
      obtain ⟨q, hq, hfree⟩ := hfull
      have hlast := h.lastPid_lt
      have hend := (hnone q hq hfree).2
      rw [threadCreate_of_used (by omega) fun q hlt hq hfree ↦
        absurd (hnone q hq hfree).1 (by omega)] at hcreate
      cases hcreate
  · intro hfree
    refine ⟨fun _ ↦ threadCreate_of_free hfree, fun hfull ↦ ?_⟩
    obtain ⟨pid, hlt, hpid, -⟩ := hfree
    exact absurd hpid (hfull pid hlt)

/-- Of two threads the first one is killed and reaped, and a pid behind the second one is found. -/
theorem finds_pid_iff_reaped : ∃ s, SchedReachable (fun _ _ ↦ True) s ∧
    (s.pcbTable 2 = none ∧ s.pcbTable 3 = some 3 ∧ s.lastPid = 3) ∧ FindsPid s := by
  obtain ⟨s, hreach, hreaped, hfree⟩ := SchedReachable.exists_run (fun _ _ ↦ True)
    [.threadCreate, .threadCreate, .kill 2, .step, .schedule, .step, .step, .step, .step,
      .killZombies, .step, .step]
    (fun s ↦ (s.pcbTable 2 = none ∧ s.pcbTable 3 = some 3 ∧ s.lastPid = 3) ∧ s.pcbTable 4 = none)
    (by decide +kernel)
  have hbehind : s.lastPid < 4 := by omega
  exact ⟨s, hreach, hreaped, (finds_pid_iff hreach).2 ⟨4, by decide, hfree, .inl hbehind⟩⟩

/-! ## Runs that fill the table -/

section Crowded

/-- After `k` more calls of `thread_create`, if the entries behind the last pid are free. -/
def State.crowded (s : State) (k : ℕ) : State :=
  { s with
    pcbs := fun id ↦ if s.nextPcb ≤ id ∧ id < s.nextPcb + k then
      some ⟨s.lastPid + 1 + (id - s.nextPcb), .ready, none, 0⟩ else s.pcbs id
    pcbTable := fun pid ↦ if s.lastPid + 1 ≤ pid ∧ pid < s.lastPid + 1 + k then
      some (s.nextPcb + (pid - (s.lastPid + 1))) else s.pcbTable pid
    queue := update s.queue .ready (s.queue .ready ++ List.range' s.nextPcb k)
    saved := fun id ↦ if s.nextPcb ≤ id ∧ id < s.nextPcb + k then [] else s.saved id
    lastPid := s.lastPid + k
    nextPcb := s.nextPcb + k }

variable {s : State}

theorem crowded_zero : s.crowded 0 = s := by
  have hnone (a b : ℕ) : ¬ (a ≤ b ∧ b < a) := by omega
  simp only [State.crowded, Nat.add_zero, range'_zero, append_nil,
    update_eq_self, if_neg (hnone _ _)]

theorem update_crowded {α : Type} (first k : ℕ) (f g : ℕ → α) :
    update (fun i ↦ if first ≤ i ∧ i < first + k then f i else g i) (first + k)
      (f (first + k)) = fun i ↦ if first ≤ i ∧ i < first + (k + 1) then f i else g i := by
  funext i
  by_cases hi : i = first + k
  · subst hi
    rw [update_self, if_pos (by omega)]
  · rw [update_of_ne hi]
    have hiff : first ≤ i ∧ i < first + k ↔ first ≤ i ∧ i < first + (k + 1) := by omega
    simp only [hiff]

theorem crowded_succ (k : ℕ) : (s.crowded k).created (s.lastPid + 1 + k) = s.crowded (k + 1) := by
  have hpcbs := update_crowded s.nextPcb k
    (fun id ↦ some ⟨s.lastPid + 1 + (id - s.nextPcb), .ready, none, 0⟩) s.pcbs
  have htable := update_crowded (s.lastPid + 1) k
    (fun pid ↦ some (s.nextPcb + (pid - (s.lastPid + 1)))) s.pcbTable
  have hsaved := update_crowded s.nextPcb k (fun _ ↦ []) s.saved
  simp only [Nat.add_sub_cancel_left] at hpcbs htable
  simp only [State.created, State.crowded, State.mk.injEq]
  refine ⟨hpcbs, htable, ?_, trivial, trivial, hsaved, by omega, by omega, trivial⟩
  rw [update_self, update_idem, append_assoc, range'_concat, Nat.one_mul]

/-- The table can be filled. -/
theorem SchedReachable.crowded (h : SchedReachable allowed s)
    (hallowed : ∀ s, allowed s .threadCreate) (hcontext : s.context = [])
    (hcurrent : s.current ≠ idlePcb)
    (hfree : ∀ pid < maxProc, s.lastPid < pid → s.pcbTable pid = none)
    {k : ℕ} (hk : s.lastPid + k < maxProc) : SchedReachable allowed (s.crowded k) := by
  induction k with
  | zero => exact crowded_zero.symm ▸ h
  | succ k ih =>
    refine (ih (by omega)).next ⟨.threadCreate, ⟨hcontext, hcurrent⟩, hallowed _, ?_⟩
    have hstart : ((s.crowded k).lastPid + 1) % maxProc = s.lastPid + 1 + k := by
      change (s.lastPid + k + 1) % maxProc = _
      rw [Nat.mod_eq_of_lt (by omega), Nat.add_right_comm]
    have hnone : (s.crowded k).pcbTable (s.lastPid + 1 + k) = none := by
      change (if _ then _ else _) = none
      rw [if_neg (by omega)]
      exact hfree _ (by omega) (by omega)
    rw [Act.run, threadCreate, hstart, findPid, if_neg (by omega), hnone, ← crowded_succ]
    rfl

/-- The shell creates two threads and kills the second one, which is reaped.  Then the first one
kills the shell. -/
def reapedState : State :=
  (runAll (fun s a ↦ Act.Enabled s a ∧ TimerAtSafePoint s a) Act.run
    [.threadCreate, .threadCreate, .kill 3, .step, .schedule, .step, .step, .step, .step,
      .killZombies, .step, .step, .step, .schedule, .step, .step, .step, .step, .kill 0, .step]
    (initPcb.created 1)).get (by decide +kernel)

theorem SchedReachable.runAll [∀ s a, Decidable (allowed s a)]
    {acts : List Act} {s' : State} (h : SchedReachable allowed s)
    (hrun : Execution.runAll (fun s a ↦ Act.Enabled s a ∧ allowed s a) Act.run acts s = some s') :
    SchedReachable allowed s' :=
  Reachable.runAll (fun _ a _ hcan hrun ↦ ⟨a, hcan.1, hcan.2, hrun⟩) h hrun

theorem reapedState_reachable : SchedReachable TimerAtSafePoint reapedState :=
  SchedReachable.runAll (.start boot_eq) (Option.some_get _).symm

/-- The table has been filled but for the pid of the thread that was reaped. -/
theorem crowded_reachable : SchedReachable TimerAtSafePoint (reapedState.crowded 1020) :=
  reapedState_reachable.crowded (fun _ ↦ trivial) rfl (by decide +kernel) (by decide +kernel)
    (by decide +kernel)

end Crowded

/-- A search over the end of the table while the pid of the shell is free, and a full table with
which `fork` reads in front of it. -/
theorem creation_faults : (∃ s, SchedReachable TimerAtSafePoint s ∧ s.pcbTable 0 = none ∧
      threadCreate s = .error .outOfBounds ∧ ¬ FindsPid s) ∧
    ∃ s, SchedReachable TimerAtSafePoint s ∧ (∀ pid < maxProc, s.pcbTable pid ≠ none) ∧
      threadCreate s = .ok (none, s) ∧ fork s = .error .outOfBounds ∧ ¬ FindsPid s := by
  constructor
  · -- the pid is given away again, and the idle thread reaps the shell
    obtain ⟨s, hrun, hstate⟩ := (Option.any_eq_true
      (fun s : State ↦ decide (s.pcbTable 0 = none ∧ s.lastPid = 3 ∧
        ∀ pid < maxProc, 3 < pid → s.pcbTable pid ≠ none))
      (runAll (fun s a ↦ Act.Enabled s a ∧ TimerAtSafePoint s a) Act.run
        [.threadCreate, .schedule, .step, .step, .step, .step, .killZombies, .step, .step]
        (reapedState.crowded 1020))).1 (by decide +kernel)
    obtain ⟨hfree, hlast, hused⟩ := of_decide_eq_true hstate
    have hcreate : threadCreate s = .error .outOfBounds :=
      threadCreate_of_used (by rw [hlast]; decide) fun pid hlt hpid ↦ hused pid hpid (hlast ▸ hlt)
    refine ⟨s, crowded_reachable.runAll hrun, hfree, hcreate, fun hfinds ↦ ?_⟩
    obtain ⟨pid, -, -, hok⟩ := hfinds.free ⟨0, by decide, hfree⟩
    exact absurd (hcreate.symm.trans hok) nofun
  · have hreach : SchedReachable TimerAtSafePoint ((initPcb.created 1).crowded 1022) :=
      SchedReachable.crowded (.start boot_eq) (fun _ ↦ trivial) rfl (by decide) (by decide +kernel)
        (by decide)
    have hfull : ∀ pid < maxProc, ((initPcb.created 1).crowded 1022).pcbTable pid ≠ none := by
      decide +kernel
    have hcreate := threadCreate_of_full (s := (initPcb.created 1).crowded 1022) rfl hfull
    have hfork := fork_of_none hcreate
    exact ⟨_, hreach, hfull, hcreate, hfork, fun hfinds ↦
      absurd (hfork.symm.trans (hfinds.full hfull).2) nofun⟩

end CapstoneKernel.Sched
