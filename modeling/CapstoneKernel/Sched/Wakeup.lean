import CapstoneKernel.Sched.Queues

/-!
# Waiting for a child

A process that waits for a child is woken once, when the child dies.  `wait` does not look at the
child, so a process whose child has died before it waits is never woken.  In runs in which children
outlive the calls of `wait` for them, every process on `wait_queue[PROC]` waits for a child that can
still wake it.
-/

namespace CapstoneKernel.Sched

open Places Execution Function List Option

variable {p p' : Pcb} {id id' : ℕ}

/-- The pid is that of a process which `fork` has returned to `id`, and which has not died. -/
def LiveChild (s : State) (id pid : ℕ) : Prop :=
  ∃ child ∈ s.forked id pid, s.pcbTable pid = some child ∧ ∃ p ∈ s.pcbs child, p.state ≠ .dead
deriving Decidable

/-- Every PCB on `wait_queue[PROC]` waits for a child that can still wake it. -/
def Waits (s : State) : Prop :=
  ∀ id ∈ s.queue (.wait .proc), ∀ p ∈ s.pcbs id, LiveChild s id p.waitData

/-- A process waits for the pids only that its own calls of `fork` have returned. -/
def WaitsForOwn (s : State) : Act → Prop
  | .wait .proc pid => s.forked s.current pid ≠ none
  | _ => True

/-- The child is alive when `wait` has disabled interrupts. -/
def FindsChildAlive (s : State) : Act → Prop
  | .step => ∀ f ∈ s.context.head?,
      match f with
      | .wait pcb .proc pid => LiveChild s pcb pid
      | _ => True
  | _ => True

instance (s : State) (a : Act) : Decidable (WaitsForOwn s a) := by
  unfold WaitsForOwn
  induction a using Act.casesOn with
  | wait e pid => induction e using Event.casesOn <;> infer_instance
  | _ => infer_instance

instance (s : State) (a : Act) : Decidable (FindsChildAlive s a) := by
  unfold FindsChildAlive
  split
  · refine @Option.decidableForallMem _ _ (fun f ↦ ?_) _
    split <;> infer_instance
  · infer_instance

def WakeupAllowed (s : State) (a : Act) : Prop :=
  TimerAtSafePoint s a ∧ WaitsForOwn s a ∧ FindsChildAlive s a
deriving Decidable

/-! ## Steps -/

section Step

variable {s s' : State} {leaving : Bool}

/-- No process joins the queue, and the children that are waited for stay alive. -/
theorem Waits.mono (h : Waits s) (hqueue : ∀ id ∈ s'.queue (.wait .proc), id ∈ s.queue (.wait .proc))
    (hwaiter : ∀ id ∈ s'.queue (.wait .proc), ∀ p' ∈ s'.pcbs id,
      s'.forked id = s.forked id ∧ ∃ p ∈ s.pcbs id, p.waitData = p'.waitData)
    (hchild : ∀ id ∈ s'.queue (.wait .proc), ∀ p' ∈ s'.pcbs id, ∀ child p, s.pcbTable p'.waitData = some child →
      s.pcbs child = some p → p.state ≠ .dead →
      s'.pcbTable p'.waitData = some child ∧ ∃ p ∈ s'.pcbs child, p.state ≠ .dead) : Waits s' := by
  intro id hid p' hp'
  obtain ⟨hforked, p, hp, hdata⟩ := hwaiter id hid p' hp'
  obtain ⟨child, hchildOf, htable, q, hq, hlive⟩ := h id (hqueue id hid) p hp
  rw [hdata] at hchildOf htable
  refine ⟨child, ?_, hchild id hid p' hp' child q htable hq hlive⟩
  rwa [hforked]

theorem Waits.congr (h : Waits s) (hqueue : ∀ id ∈ s'.queue (.wait .proc), id ∈ s.queue (.wait .proc))
    (hpcbs : s'.pcbs = s.pcbs) (htable : s'.pcbTable = s.pcbTable) (hforked : s'.forked = s.forked) :
    Waits s' := by
  refine h.mono hqueue (fun id _ p' hp' ↦ ⟨by rw [hforked], p', hpcbs ▸ hp', rfl⟩) ?_
  intro id _ p' _ child p hchild hp hlive
  exact ⟨by rwa [htable], p, by rwa [hpcbs], hlive⟩

theorem LiveChild.setPcb {pid : ℕ} (h : LiveChild s id pid) (hstate : p'.state ≠ .dead)
    (hpcbs : s'.pcbs = update s.pcbs id' (some p')) (htable : s'.pcbTable = s.pcbTable)
    (hforked : s'.forked = s.forked) : LiveChild s' id pid := by
  obtain ⟨child, hchild, hslot, p, hp, hlive⟩ := h
  refine ⟨child, hforked ▸ hchild, htable ▸ hslot, ?_⟩
  rw [hpcbs]
  by_cases heq : child = id'
  · rw [heq, update_self]
    exact ⟨p', rfl, hstate⟩
  · rw [update_of_ne heq]
    exact ⟨p, hp, hlive⟩

/-- One PCB that is not on the queue gets a state other than `DEAD`. -/
theorem Waits.setPcb (h : Waits s)
    (hqueue : ∀ id' ∈ s'.queue (.wait .proc), id' ∈ s.queue (.wait .proc) ∧ id' ≠ id)
    (hpcbs : s'.pcbs = update s.pcbs id (some p')) (hstate : p'.state ≠ .dead)
    (htable : s'.pcbTable = s.pcbTable) (hforked : s'.forked = s.forked) : Waits s' := by
  intro id' hid' q hq
  rw [hpcbs, update_of_ne (hqueue id' hid').2] at hq
  exact (h id' (hqueue id' hid').1 q hq).setPcb hstate hpcbs htable hforked

theorem mem_of_mem_popped {q q' : Queue} {frames : List Frame}
    (h : id ∈ ((s.popped q).resume frames).queue q') : id ∈ s.queue q' := by
  change id ∈ update s.queue q (s.queue q).tail q' at h
  by_cases hq : q' = q
  · rw [hq, update_self] at h
    exact hq ▸ mem_of_mem_tail h
  · rwa [update_of_ne hq] at h

variable (hinv : SchedInv s leaving)

include hinv

theorem SchedInv.waiting (hid : id ∈ s.queue (.wait .proc)) : ∃ p ∈ s.pcbs id, p.state = .wait := by
  obtain ⟨p, hp, hhome⟩ := home_eq_some (hinv.placed.home_of_mem hid)
  exact ⟨p, hp, ((Pcb.state_of_home hhome).2.2 _ rfl).1⟩

theorem SchedInv.ne_of_state (hid : id ∈ s.queue (.wait .proc)) (hp : s.pcbs id' = some p)
    (hstate : p.state ≠ .wait) : id ≠ id' := by
  rintro rfl
  obtain ⟨q, hq, hwait⟩ := hinv.waiting hid
  rw [Option.mem_def, hp] at hq
  exact hstate (some.inj hq ▸ hwait)

/-- The children a dying process leaves waiting are those of others. -/
theorem Waits.died (h : Waits s) {t : State} (hp : s.pcbs id = some p)
    (hqueue : ∀ id' ∈ t.queue (.wait .proc), id' ∈ s.queue (.wait .proc) ∧ id' ≠ id)
    (hpcbs : t.pcbs = s.pcbs) (htable : t.pcbTable = s.pcbTable) (hforked : t.forked = s.forked) :
    Waits (t.died id p) := by
  have hleft (id' : ℕ) (hid' : id' ∈ (t.died id p).queue (.wait .proc)) :
      (id' ∈ s.queue (.wait .proc) ∧ id' ≠ id) ∧
        ((t.setPcb id { p with state := .dead }).push .dead id).waitsFor p.pid id' = false := by
    rw [State.died, State.wakeFor] at hid'
    dsimp only at hid'
    rw [update_self] at hid'
    obtain ⟨hmem, hnot⟩ := mem_filter.1 hid'
    exact ⟨hqueue id' hmem, by simpa using hnot⟩
  have hkept (id' : ℕ) (hid' : id' ∈ (t.died id p).queue (.wait .proc)) (q : Pcb)
      (hq : (t.died id p).pcbs id' = some q) : s.pcbs id' = some q ∧ q.waitData % 2 ^ 32 ≠ p.pid :=
        by
    obtain ⟨⟨-, hne⟩, hwaits⟩ := hleft id' hid'
    obtain ⟨q₀, hq₀, ⟨-, rfl⟩ | ⟨hmem, -⟩⟩ := wakeFor_pcbs hq
    · rw [State.waitsFor, hq₀, any_some, decide_eq_false_iff_not] at hwaits
      change update t.pcbs id _ id' = _ at hq₀
      rw [update_of_ne hne, hpcbs] at hq₀
      exact ⟨hq₀, hwaits⟩
    · rw [mem_filter, hwaits] at hmem
      exact absurd hmem.2 Bool.false_ne_true
  refine h.mono (fun id' hid' ↦ (hleft id' hid').1.1) (fun id' hid' q hq ↦ ?_) ?_
  · exact ⟨congrFun hforked id', q, (hkept id' hid' q hq).1, rfl⟩
  · intro id' hid' q hq child c hchild hc hlive
    refine ⟨(congrFun htable _).trans hchild, ?_⟩
    -- the dying process has woken everyone who waits for its pid
    have hne : child ≠ id := by
      rintro rfl
      obtain ⟨p', hp', hpid⟩ := (hinv.pcbs.table _ _).1 hchild
      rw [hp] at hp'
      cases hp'
      have hlt := hinv.pcbs.pid_lt _ p hp
      unfold maxProc at hlt
      exact (hkept id' hid' q hq).2 (by omega)
    have hc' : ((t.setPcb id { p with state := .dead }).push .dead id).pcbs child = some c := by
      change update t.pcbs id _ child = _
      rwa [update_of_ne hne, hpcbs]
    rw [State.died, State.wakeFor]
    dsimp only
    rw [hc']
    split
    · exact ⟨c.woken, rfl, by rintro ⟨⟩⟩
    · exact ⟨c, rfl, hlive⟩

theorem Effect.keeps_waits {a : Act} {leaving' : Bool} (h : Waits s) (halive : FindsChildAlive s a)
    (heffect : Effect s leaving a s' leaving') : Waits s' := by
  cases heffect with
  | stays => exact h
  | enters | interrupts | loads | checks | killsSelf | returns =>
    exact h.congr (fun _ h ↦ h) rfl rfl rfl
  | @creates _ pid _ hnone hlt hcontext hforked =>
    obtain ⟨p, hp, hrun⟩ := hinv.pcb_current rfl
    have hfresh := hinv.pcbs.fresh s.nextPcb (Nat.le_refl _)
    refine h.mono (fun id hid ↦ hid) (fun id hid p' hp' ↦ ?_) ?_
    · obtain ⟨q, hq, hwait⟩ := hinv.waiting hid
      have hne : id ≠ s.nextPcb := by
        rintro rfl
        rw [hfresh] at hq
        cases hq
      have hp' : update s.pcbs s.nextPcb _ id = some p' := hp'
      rw [update_of_ne hne] at hp'
      exact ⟨hforked id (hinv.ne_of_state hid hp (by rw [hrun]; exact nofun)), p', hp', rfl⟩
    · intro id hid p' _ child c hchild hc hlive
      change update s.pcbTable pid _ p'.waitData = _ ∧ ∃ p ∈ update s.pcbs s.nextPcb _ child, _
      have hne : child ≠ s.nextPcb := by
        rintro rfl
        rw [hfresh] at hc
        cases hc
      have hpid : p'.waitData ≠ pid := by
        rintro rfl
        rw [hnone] at hchild
        cases hchild
      rw [update_of_ne hne, update_of_ne hpid]
      exact ⟨hchild, c, hc, hlive⟩
  | schedules _ _ hp hrun =>
    exact h.setPcb (fun id hid ↦ ⟨hid, hinv.ne_of_state hid hp (by rw [hrun]; exact nofun)⟩) rfl
      nofun rfl rfl
  | picks | finds | takes => exact h.congr (fun _ hid ↦ mem_of_mem_popped hid) rfl rfl rfl
  | switches hcontext _ hp =>
    have hstate := (Pcb.state_of_home (hinv.home_top hcontext rfl hp)).1 rfl
    exact h.setPcb (fun id hid ↦ ⟨hid, hinv.ne_of_state hid hp (by rw [hstate]; exact nofun)⟩) rfl
      nofun rfl rfl
  | exits _ _ _ hp hrun =>
    exact Waits.died hinv h hp (fun id hid ↦
      ⟨hid, hinv.ne_of_state hid hp (by rw [hrun]; exact nofun)⟩)
      rfl rfl rfl
  | @waits e data _ _ hcontext _ _ hp hrun =>
    intro id hid q hq
    by_cases hid' : id ∈ s.queue (.wait .proc)
    · have hne : id ≠ s.current := hinv.ne_of_state hid' hp (by rw [hrun]; exact nofun)
      have hq : update s.pcbs s.current _ id = some q := hq
      rw [update_of_ne hne] at hq
      exact (h id hid' q hq).setPcb (by exact nofun) rfl rfl rfl
    · -- the process that starts to wait
      obtain ⟨rfl, rfl⟩ : e = .proc ∧ id = s.current := by
        change id ∈ update s.queue (.wait e) (s.queue (.wait e) ++ [s.current]) (.wait .proc) at hid
        by_cases he : e = .proc
        · subst he
          rw [update_self, mem_append] at hid
          exact ⟨rfl, mem_singleton.1 (hid.resolve_left hid')⟩
        · rw [update_of_ne (fun heq ↦ he (Queue.wait.inj heq).symm)] at hid
          exact absurd hid hid'
      have hq : update s.pcbs s.current _ s.current = some q := hq
      rw [update_self] at hq
      cases hq
      have hlive : LiveChild s s.current data :=
        halive (.wait s.current .proc data) (by rw [hcontext]; rfl)
      exact hlive.setPcb (by exact nofun) rfl rfl rfl
  | @kills id q _ _ _ _ _ hp hhome hmem =>
    refine Waits.died hinv h hp (fun id' hid' ↦ ?_) rfl rfl rfl
    change id' ∈ update s.queue q ((s.queue q).erase id) (.wait .proc) at hid'
    by_cases hq : .wait .proc = q
    · rw [← hq, update_self] at hid'
      exact ⟨mem_of_mem_erase hid', ((hinv.placed.nodup _).mem_erase_iff.1 hid').1⟩
    · rw [update_of_ne hq] at hid'
      refine ⟨hid', ?_⟩
      rintro rfl
      have hplace := hinv.placed.home_of_mem hid'
      rw [hinv.placed.home_of_mem hmem] at hplace
      exact hq (some.inj hplace).symm
  | @reaps id p _ hcontext _ hp =>
    have hdead : p.state = .dead := (Pcb.state_of_home (hinv.home_top hcontext rfl hp)).2.1 rfl
    refine h.mono (fun _ h ↦ h) (fun id' hid' q hq ↦ ?_) ?_
    · have hne := hinv.ne_of_state hid' hp (by rw [hdead]; exact nofun)
      have hq : update s.pcbs id none id' = some q := hq
      rw [update_of_ne hne] at hq
      exact ⟨rfl, q, hq, rfl⟩
    · intro id' _ q _ child c hchild hc hlive
      have hne : child ≠ id := by
        rintro rfl
        rw [hp] at hc
        exact hlive (some.inj hc ▸ hdead)
      have hpid : q.waitData ≠ p.pid := by
        intro heq
        rw [heq, (hinv.pcbs.table p.pid id).2 ⟨p, hp, rfl⟩] at hchild
        exact hne (some.inj hchild).symm
      change update s.pcbTable p.pid none q.waitData = _ ∧ ∃ c' ∈ update s.pcbs id none child, _
      rw [update_of_ne hne, update_of_ne hpid]
      exact ⟨hchild, c, hc, hlive⟩
  | @wakes _ e id _ _ hcontext _ hp =>
    have htaken : (Queue.wait e, id) ∈ s.context.filterMap Frame.taken := by
      rw [hcontext, filterMap_taken rfl]
      exact mem_cons_self
    refine h.setPcb (fun id' hid' ↦ ⟨hid', ?_⟩) rfl nofun rfl rfl
    rintro rfl
    exact hinv.placed.notMem_of_taken htaken _ hid'

end Step

/-! ## Runs -/

/-- In every run whose timer interrupts come at safe points, and whose calls of `wait` find the
child alive, every process that waits for a child waits for one that can still wake it. -/
theorem waits_for_live_child {s : State} (h : SchedReachable WakeupAllowed s) : Waits s := by
  refine (h.of_effect (fun _ _ hallowed ↦ hallowed.1) (fun _ hid ↦ absurd hid not_mem_nil) ?_).2
  intro s s' leaving leaving' a hinv hwaits ⟨_, _, halive⟩ heffect
  exact heffect.keeps_waits hinv hwaits halive

/-- A process forks and waits for the child, which has not run yet. -/
theorem waits_for_live_child_fork : ∃ s, SchedReachable WakeupAllowed s ∧ s.queue (.wait .proc) = [0] ∧
    s.pcbs 0 = some ⟨0, .wait, some .proc, 2⟩ ∧ Waits s := by
  obtain ⟨s, hreach, hqueue, hpcb⟩ := SchedReachable.exists_run WakeupAllowed
    [.fork, .wait .proc 2, .step]
    (fun s ↦ s.queue (.wait .proc) = [0] ∧ s.pcbs 0 = some ⟨0, .wait, some .proc, 2⟩)
      (by decide +kernel)
  exact ⟨s, hreach, hqueue, hpcb, waits_for_live_child hreach⟩

/-- The child of a fork runs and exits before its parent calls `wait`: the parent waits for a
zombie. -/
theorem waits_for_zombie : ∃ s, SchedReachable (fun s a ↦ TimerAtSafePoint s a ∧ WaitsForOwn s a) s ∧
    s.queue (.wait .proc) = [0] ∧ s.pcbs 0 = some ⟨0, .wait, some .proc, 2⟩ ∧ s.forked 0 2 = some 2 ∧
    s.pcbs 2 = some ⟨2, .dead, none, 0⟩ ∧ ¬ Waits s := by
  obtain ⟨s, hreach, hqueue, hparent, hforked, hchild⟩ := SchedReachable.exists_run
    (fun s a ↦ TimerAtSafePoint s a ∧ WaitsForOwn s a)
    [.fork, .timerInt, .step, .step, .step, .step, .schedule, .step, .step, .step, .step, .exit,
      .step, .step,
      .step, .step, .step, .wait .proc 2, .step]
    (fun s ↦ s.queue (.wait .proc) = [0] ∧ s.pcbs 0 = some ⟨0, .wait, some .proc, 2⟩ ∧
      s.forked 0 2 = some 2 ∧ s.pcbs 2 = some ⟨2, .dead, none, 0⟩)
    (by decide +kernel)
  refine ⟨s, hreach, hqueue, hparent, hforked, hchild, fun hwaits ↦ ?_⟩
  obtain ⟨child, hchildOf, -, p, hp, hlive⟩ :=
    hwaits 0 (by rw [hqueue]; exact mem_cons_self) _ hparent
  rw [Option.mem_def, hforked] at hchildOf
  cases hchildOf
  rw [Option.mem_def, hchild] at hp
  exact hlive (some.inj hp ▸ rfl)

end CapstoneKernel.Sched
