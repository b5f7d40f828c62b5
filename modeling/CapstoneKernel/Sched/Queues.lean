import CapstoneKernel.Sched.Steps

/-!
# The queues match the states

If timer interrupts come at safe points only, every PCB is where its state says in all states of all
runs, as soon as the running stack is at a safe point.  A timer interrupt in `exit` after
`enable_int` makes the dying process `READY` again while it is on the dead queue.
-/

namespace CapstoneKernel.Sched

open Places Execution Function List Option Writes

variable {id : ℕ} {p : Pcb} {q : Queue} {rest : List Frame}

/-! ## One step keeps the invariant -/

section Step

variable {s s' : State} {leaving : Bool} (hinv : SchedInv s leaving)

include hinv

theorem SchedInv.resume {frames : List Frame} (hstack : Stack s.current leaving frames)
    (htaken : frames.filterMap Frame.taken = s.context.filterMap Frame.taken) :
    SchedInv (s.resume frames) leaving :=
  ⟨hinv.pcbs.congr rfl rfl rfl, htaken ▸ hinv.placed, hstack, hinv.saved, hinv.current, hinv.run⟩

theorem SchedInv.ne_current (hp : s.pcbs id = some p) (hstate : p.state ≠ .run) :
    ¬ (id = s.current ∧ leaving = false) :=
  fun h ↦ hstate ((hinv.run id p hp).2 h)

theorem SchedInv.run_setPcb {p' : Pcb} (hp : s.pcbs id = some p) (hstate : p.state ≠ .run)
    (hstate' : p'.state ≠ .run) (id' : ℕ) (q : Pcb)
    (hq : update s.pcbs id (some p') id' = some q) :
    q.state = .run ↔ id' = s.current ∧ leaving = false := by
  rcases update_apply_eq_iff.1 hq with ⟨rfl, ⟨⟩⟩ | ⟨-, hq⟩
  · exact iff_of_false hstate' (hinv.ne_current hp hstate)
  · exact hinv.run id' q hq

theorem SchedInv.current_update {slot : Option Pcb} (hslot : id = s.current → slot ≠ none)
    (hleaving : leaving = false) : update s.pcbs id slot s.current ≠ none := by
  by_cases hid : s.current = id
  · rw [hid, update_self]
    exact hslot hid.symm
  · rw [update_of_ne hid]
    exact hinv.current hleaving

theorem SchedInv.parked (p' : Pcb) {f : Frame}
    (hleaving : leaving = false) (hp : s.pcbs s.current = some p) (hpid : p'.pid = p.pid)
    (hhome : p'.home = some q) (hrun : p'.state ≠ .run) (hwait : p'.state = .wait → p'.waitQ ≠ none)
    (hidle : s.current = idlePcb → p'.state = .run ∨ p'.state = .ready)
    (htaken : (f :: rest).filterMap Frame.taken = s.context.filterMap Frame.taken) (hleaves : f.Leaves)
    (hfits : f.Fits s.current) (hrest : SafeStack s.current rest) :
    SchedInv (s.parked p' q (f :: rest)) true := by
  have hstate := (hinv.run _ p hp).2 ⟨rfl, hleaving⟩
  have hnone : s.home s.current = none := by rw [home_of_pcb hp, Pcb.home, hstate]
  refine ⟨hinv.pcbs.setPcb p' hp hpid hwait hidle rfl rfl rfl, ?_, .leaves hleaves hfits hrest,
    hinv.saved,
    by simp, fun id r hr ↦ iff_of_false (fun hr' ↦ ?_) (by simp)⟩
  · have hplaced := hinv.placed.push hnone q
    rw [← htaken] at hplaced
    refine hplaced.congr_home fun id ↦ ?_
    rw [← hhome]
    exact congrFun (home_setPcb s s.current p') id
  · rcases update_apply_eq_iff.1 hr with ⟨-, ⟨⟩⟩ | ⟨hid, hr⟩
    · exact hrun hr'
    · exact hid ((hinv.run id r hr).1 hr').1

theorem PcbsWf.created {pid : ℕ} (hnone : s.pcbTable pid = none) (hlt : pid < maxProc)
    (forked : ℕ → ℕ → Option ℕ) : PcbsWf { s.created pid with forked := forked } := by
  have h := hinv.pcbs
  have hfresh := h.fresh s.nextPcb (Nat.le_refl _)
  refine ⟨fun pid' id ↦ ?_, fun id q hq ↦ ?_, fun id q hq ↦ ?_, fun id hid ↦ ?_, ?_⟩
  · change update s.pcbTable pid (some s.nextPcb) pid' = some id ↔ ∃ p,
      update s.pcbs s.nextPcb (some ⟨pid, .ready, none, 0⟩) id = some p ∧ p.pid = pid'
    constructor
    · intro htable
      rcases update_apply_eq_iff.1 htable with ⟨rfl, ⟨⟩⟩ | ⟨-, htable⟩
      · exact ⟨_, update_self .., rfl⟩
      · obtain ⟨p, hp, hppid⟩ := (h.table pid' id).1 htable
        refine ⟨p, ?_, hppid⟩
        rw [update_of_ne, hp]
        rintro rfl
        exact absurd (hfresh.symm.trans hp) nofun
    · rintro ⟨p, hp, rfl⟩
      rcases update_apply_eq_iff.1 hp with ⟨rfl, ⟨⟩⟩ | ⟨-, hp⟩
      · rw [update_self]
      · have htable := (h.table p.pid id).2 ⟨p, hp, rfl⟩
        rw [update_of_ne, htable]
        intro hpid
        rw [hpid, hnone] at htable
        cases htable
  · rcases update_apply_eq_iff.1 hq with ⟨-, ⟨⟩⟩ | ⟨-, hq⟩
    · exact hlt
    · exact h.pid_lt id q hq
  · rcases update_apply_eq_iff.1 hq with ⟨-, ⟨⟩⟩ | ⟨-, hq⟩
    · exact nofun
    · exact h.waiting id q hq
  · change s.nextPcb + 1 ≤ id at hid
    change update s.pcbs s.nextPcb _ id = none
    rw [update_of_ne (by omega)]
    exact h.fresh id (by omega)
  · obtain ⟨p, hp, hstate⟩ := h.idle
    refine ⟨p, ?_, hstate⟩
    change update s.pcbs s.nextPcb _ idlePcb = some p
    rw [update_of_ne, hp]
    intro hid
    rw [hid, hfresh] at hp
    cases hp

theorem SchedInv.creates {pid : ℕ} (hnone : s.pcbTable pid = none) (hlt : pid < maxProc)
    (hleaving : leaving = false) (forked : ℕ → ℕ → Option ℕ) :
    SchedInv { s.created pid with forked := forked } false := by
  have hfresh := hinv.pcbs.fresh s.nextPcb (Nat.le_refl _)
  have hcurrent := hinv.current hleaving
  have hne : s.current ≠ s.nextPcb := fun heq ↦ hcurrent (heq ▸ hfresh)
  refine ⟨PcbsWf.created hinv hnone hlt forked, ?_, ?_, fun id ↦ ?_, fun _ ↦ ?_, fun id p hp ↦ ?_⟩
  · have hhome : s.home s.nextPcb = none := by rw [State.home, hfresh, bind_none]
    refine (hinv.placed.push hhome .ready).congr_home fun id ↦ ?_
    exact congrFun (home_setPcb s s.nextPcb ⟨pid, .ready, none, 0⟩) id
  · rw [← hleaving]
    exact hinv.stack
  · exact (forall_update_iff s.saved SafeStack).2 ⟨by rintro _ ⟨⟩, fun id _ ↦ hinv.saved id⟩ id
  · change update s.pcbs s.nextPcb _ s.current ≠ none
    rwa [update_of_ne hne]
  · rcases update_apply_eq_iff.1 hp with ⟨hid, ⟨⟩⟩ | ⟨-, hp⟩
    · exact iff_of_false (by rintro ⟨⟩) fun h ↦ hne (hid ▸ h.1).symm
    · have h := hinv.run id p hp
      rwa [hleaving] at h

theorem SchedInv.exits (hcontext : s.context = .exit s.current :: rest)
    (hrest : SafeStack s.current rest) (hidle : s.current ≠ idlePcb) (hp : s.pcbs s.current = some p)
    (hstate : p.state = .run) :
    SchedInv ((s.resume (.checkReady s.current :: rest)).died s.current p) true := by
  have hnone : s.home s.current = none := by rw [home_of_pcb hp, Pcb.home, hstate]
  have hplaced := hinv.placed
  rw [← update_eq_self s.current s.home, hnone, hcontext] at hplaced
  refine ⟨PcbsWf.died (s := s.resume _) hp (hinv.pcbs.congr rfl rfl rfl) hidle,
    died_placed (s := s.resume (.checkReady s.current :: rest)) hplaced,
    .leaves trivial rfl hrest, hinv.saved, by simp,
    fun id q hq ↦ iff_of_false (fun hrun ↦ ?_) (by simp)⟩
  obtain ⟨hne, hq⟩ := died_run hq hrun
  exact hne ((hinv.run id q hq).1 hrun).1

theorem SchedInv.kills
    (hcontext : s.context = .kill id :: rest) (hleaving : leaving = false) (hrest : SafeStack s.current rest)
    (hid : id ≠ idlePcb) (hp : s.pcbs id = some p) (hhome : p.home = some q) (hmem : id ∈ s.queue q) :
    SchedInv (((s.resume rest).delete q id).died id p) false := by
  subst hleaving
  have hplaced := hinv.placed.erase hmem
  rw [hcontext] at hplaced
  have hstate : p.state ≠ .run := fun hrun ↦ by
    rw [Pcb.home, hrun] at hhome
    cases hhome
  have hne : s.current ≠ id := fun heq ↦ hinv.ne_current hp hstate ⟨heq.symm, rfl⟩
  refine ⟨PcbsWf.died (s := (s.resume rest).delete q id) hp (hinv.pcbs.congr rfl rfl rfl) hid,
    died_placed (s := (s.resume rest).delete q id) hplaced, .safe hrest, hinv.saved,
    fun _ ↦ died_live (hinv.current rfl), fun id' r hr ↦ ⟨fun hrun ↦ ?_, ?_⟩⟩
  · exact (hinv.run id' r (died_run hr hrun).2).1 hrun
  · -- The current process is on no list, so it is not among those that are woken.
    rintro ⟨rfl, -⟩
    obtain ⟨p', hp', hrun⟩ := hinv.pcb_current rfl
    obtain ⟨r₀, hr₀, ⟨-, rfl⟩ | ⟨hwoken, -⟩⟩ := wakeFor_pcbs hr
    · change update s.pcbs id _ s.current = some r at hr₀
      rw [update_of_ne hne, hp'] at hr₀
      rwa [← some.inj hr₀]
    · have hdead := dead_placed (s := (s.resume rest).delete q id) (p := p) hplaced
      have hhome' := hdead.home_of_mem (mem_filter.1 hwoken).1
      obtain ⟨r₁, hr₁, hhome₁⟩ := home_eq_some hhome'
      change update s.pcbs id _ s.current = some r₁ at hr₁
      rw [update_of_ne hne, hp'] at hr₁
      rw [← some.inj hr₁, Pcb.home, hrun] at hhome₁
      cases hhome₁

theorem SchedInv.reaps (hcontext : s.context = .reap id :: rest)
    (hleaving : leaving = false) (hrest : SafeStack s.current rest) (hp : s.pcbs id = some p) :
    SchedInv { s.resume (.killZombies :: rest) with
      pcbs := update s.pcbs id none
      pcbTable := update s.pcbTable p.pid none } false := by
  subst hleaving
  have hplaced := hinv.placed
  rw [hcontext, filterMap_taken rfl] at hplaced
  have hdead : p.state = .dead := (Pcb.state_of_home (hinv.home_top hcontext rfl hp)).2.1 rfl
  have hne (id' : ℕ) (q : Pcb) (hq : update s.pcbs id none id' = some q) :
      id' ≠ id ∧ s.pcbs id' = some q := (update_apply_eq_iff.1 hq).resolve_left fun h ↦ nomatch h.2
  have htable := (hinv.pcbs.table p.pid id).2 ⟨p, hp, rfl⟩
  refine ⟨⟨fun pid id' ↦ ?_, fun id' q hq ↦ hinv.pcbs.pid_lt id' q (hne id' q hq).2,
    fun id' q hq ↦ hinv.pcbs.waiting id' q (hne id' q hq).2, fun id' hid' ↦ ?_, ?_⟩, ?_,
    .safe (hrest.cons trivial trivial), hinv.saved, fun _ ↦ hinv.current_update (fun hid ↦ ?_) rfl,
    fun id' q hq ↦ hinv.run id' q (hne id' q hq).2⟩
  · change update s.pcbTable p.pid none pid = some id' ↔ ∃ q,
      update s.pcbs id none id' = some q ∧ q.pid = pid
    constructor
    · intro h
      rcases update_apply_eq_iff.1 h with ⟨-, ⟨⟩⟩ | ⟨hpid, h⟩
      · obtain ⟨q, hq, hqpid⟩ := (hinv.pcbs.table pid id').1 h
        refine ⟨q, ?_, hqpid⟩
        rw [update_of_ne, hq]
        rintro rfl
        exact hpid (by rw [← hqpid, mem_unique hp hq])
    · rintro ⟨q, hq, rfl⟩
      obtain ⟨hid, hq⟩ := hne id' q hq
      have h := (hinv.pcbs.table q.pid id').2 ⟨q, hq, rfl⟩
      rw [update_of_ne, h]
      intro hpid
      rw [hpid, htable] at h
      exact hid (some.inj h).symm
  · rw [update_apply_eq_iff]
    exact (em _).imp (⟨·, rfl⟩) (⟨·, hinv.pcbs.fresh id' hid'⟩)
  · obtain ⟨q, hq, hstate⟩ := hinv.pcbs.idle
    refine ⟨q, ?_, hstate⟩
    change update s.pcbs id none idlePcb = some q
    rw [update_of_ne, hq]
    rintro rfl
    obtain rfl := mem_unique hp hq
    rw [hdead] at hstate
    exact hstate.elim nofun nofun
  · refine hplaced.drop.congr_home fun id' ↦ ?_
    by_cases hid : id' = id
    · subst hid
      simp [State.home]
    · simp [State.home, hid]
  · exact absurd ⟨hid, rfl⟩ (hinv.ne_current hp (by rw [hdead]; decide))

theorem SchedInv.switches {next : ℕ}
    (hcontext : s.context = .switchTo s.current (some next) :: rest) (hleaving : leaving = true)
    (hrest : SafeStack s.current rest) (hp : s.pcbs next = some p) :
    SchedInv { (s.setPcb next { p with state := .run }).resume (.switchRegs s.current next :: rest) with
      current := next } false := by
  subst hleaving
  have hplaced := hinv.placed
  rw [hcontext, filterMap_taken rfl] at hplaced
  refine ⟨hinv.pcbs.setPcb { p with state := .run } hp rfl nofun (fun _ ↦ .inl rfl) rfl rfl rfl, ?_,
    .regs hrest, hinv.saved, fun _ ↦ ?_, fun id q hq ↦ ?_⟩
  · exact hplaced.drop.congr_home (congrFun (home_setPcb s next { p with state := .run }))
  · change update s.pcbs next _ next ≠ none
    rw [update_self]
    exact nofun
  · rcases update_apply_eq_iff.1 hq with ⟨hid, ⟨⟩⟩ | ⟨hid, hq⟩
    · exact iff_of_true rfl ⟨hid, rfl⟩
    · refine iff_of_false (fun hrun ↦ ?_) fun h ↦ hid h.1
      exact absurd ((hinv.run id q hq).1 hrun).2 (by decide)

theorem SchedInv.wakes {e : Event}
    (hcontext : s.context = .wakeReady e id :: rest) (hstack : Stack s.current leaving rest)
    (hp : s.pcbs id = some p) : SchedInv (((s.resume rest).setPcb id p.woken).push .ready id) leaving := by
  have hplaced := hinv.placed
  rw [hcontext, filterMap_taken rfl] at hplaced
  have hwait : p.state = .wait :=
    ((Pcb.state_of_home (hinv.home_top hcontext rfl hp)).2.2 e rfl).1
  refine ⟨hinv.pcbs.setPcb p.woken hp rfl nofun (fun _ ↦ .inr rfl) rfl rfl rfl, ?_, hstack,
    hinv.saved,
    hinv.current_update fun _ ↦ nofun, hinv.run_setPcb hp (by rw [hwait]; decide) nofun⟩
  have h := hplaced.drop.push (update_self ..) .ready
  rw [update_idem] at h
  exact h.congr_home (congrFun (home_setPcb s id p.woken))

theorem SchedInv.loads {prev : ℕ} (hcontext : s.context = .switchRegs prev s.current :: rest)
    (hrest : SafeStack prev rest) (hleaving : leaving = false) :
    SchedInv { s.resume (update s.saved prev rest s.current) with
      saved := update s.saved prev rest } false := by
  subst hleaving
  have hsaved : ∀ id, SafeStack id (update s.saved prev rest id) :=
    (forall_update_iff s.saved SafeStack).2 ⟨hrest, fun id _ ↦ hinv.saved id⟩
  refine ⟨hinv.pcbs.congr rfl rfl rfl, ?_, .safe (hsaved s.current), hsaved, hinv.current, hinv.run⟩
  have hplaced := hinv.placed
  rw [hcontext, filterMap_cons_none rfl, hrest.taken] at hplaced
  change Placed s.queue ((update s.saved prev rest s.current).filterMap Frame.taken) s.home
  rwa [(hsaved s.current).taken]

/-- Taking the first PCB off a list. -/
theorem SchedInv.pops {tail : List ℕ} {f : Frame}
    (hqueue : s.queue q = id :: tail) (htaken : f.taken = some (q, id))
    (hrest : rest.filterMap Frame.taken = s.context.filterMap Frame.taken)
    (hstack : Stack s.current leaving (f :: rest)) :
    SchedInv ((s.popped q).resume (f :: rest)) leaving := by
  refine ⟨hinv.pcbs.congr rfl rfl rfl, ?_, hstack, hinv.saved, hinv.current, hinv.run⟩
  have hplaced := hinv.placed.pop hqueue
  rw [← hrest] at hplaced
  change Placed (update s.queue q (s.queue q).tail) ((f :: rest).filterMap Frame.taken) s.home
  rwa [hqueue, filterMap_taken htaken]

theorem Effect.inv {a : Act} {leaving' : Bool} (h : Effect s leaving a s' leaving') : SchedInv s' leaving' := by
  cases h with
  | stays => exact hinv
  | enters hsafe => exact hinv.resume (.safe hsafe) (by rw [hsafe.taken, hsafe.tail.taken])
  | interrupts => exact hinv.resume (.wakes trivial hinv.stack) (filterMap_cons_none rfl)
  | @creates _ _ forked hnone hlt hcontext => exact hinv.creates hnone hlt rfl forked
  | @schedules p _ hcontext hrest hp =>
    exact hinv.parked { p with state := .ready } rfl hp rfl rfl nofun nofun (fun _ ↦ .inr rfl)
      (by rw [hcontext]; rfl) trivial rfl hrest
  | picks hcontext hrest hnext =>
    cases hqueue : s.queue .ready with
    | nil => exact absurd hqueue (hinv.ready_ne_nil hcontext trivial rfl)
    | cons id tail =>
      rw [hqueue] at hnext
      obtain rfl := hnext
      exact hinv.pops hqueue rfl (by rw [hcontext]; rfl) (.leaves trivial rfl hrest)
  | switches hcontext hrest hp => exact hinv.switches hcontext rfl hrest hp
  | loads hcontext hrest => exact hinv.loads hcontext hrest rfl
  | checks hcontext hrest =>
    exact hinv.resume (.leaves trivial rfl hrest) (by rw [hcontext]; rfl)
  | exits hcontext hrest hidle hp hstate => exact hinv.exits hcontext hrest hidle hp hstate
  | @waits e data p _ hcontext hrest hidle hp =>
    exact hinv.parked { p with waitData := data, state := .wait, waitQ := some e } rfl hp rfl rfl
      nofun
      (fun _ ↦ nofun) (fun heq ↦ absurd heq hidle) (by rw [hcontext]; rfl) trivial rfl hrest
  | kills hcontext hrest hid hp hhome hmem =>
    exact hinv.kills hcontext rfl hrest hid hp hhome hmem
  | killsSelf hcontext hrest hidle =>
    exact hinv.resume (.safe (hrest.cons trivial ⟨rfl, hidle⟩)) (by rw [hcontext]; rfl)
  | returns hcontext hsafe =>
    exact hinv.resume (.safe hsafe.tail) (by rw [hcontext, hsafe.taken, hsafe.tail.taken])
  | finds hcontext hrest hdead =>
    exact hinv.pops hdead rfl (by rw [hcontext]; rfl) (.reap hrest)
  | reaps hcontext hrest hp => exact hinv.reaps hcontext rfl hrest hp
  | takes hcontext hstack hqueue =>
    exact hinv.pops hqueue rfl (by rw [hcontext]; rfl) (.wakes trivial hstack)
  | wakes hcontext hstack hp => exact hinv.wakes hcontext hstack hp

end Step

/-! ## Runs -/

/-- One enabled act that meets the condition. -/
def SchedStep (allowed : State → Act → Prop) (s s' : State) : Prop :=
  ∃ a : Act, a.Enabled s ∧ allowed s a ∧ a.run s = .ok s'

/-- The states of the runs whose acts all meet the condition. -/
def SchedReachable (allowed : State → Act → Prop) : State → Prop :=
  Reachable (fun s ↦ boot = .ok s) (SchedStep allowed)

theorem boot_eq : boot = .ok (initPcb.created 1) := rfl

theorem created_inv : SchedInv (initPcb.created 1) false := by
  have hpcbs (id : ℕ) (p : Pcb) (h : (initPcb.created 1).pcbs id = some p) :
      (id = 0 ∧ p = ⟨0, .run, none, 0⟩) ∨ (id = 1 ∧ p = ⟨1, .ready, none, 0⟩) := by
    rcases update_apply_eq_iff.1 h with ⟨hone, ⟨⟩⟩ | ⟨-, h⟩
    · exact .inr ⟨hone, rfl⟩
    · rw [initPcb] at h
      dsimp only at h
      split at h
      · next hzero => exact .inl ⟨hzero, (some.inj h).symm⟩
      · cases h
  refine ⟨⟨fun pid id ↦ ?_, fun id p hp ↦ ?_, fun id p hp ↦ ?_, fun id hid ↦ ?_,
    ⟨_, rfl, .inr rfl⟩⟩, ?_,
    .safe (by rintro _ ⟨⟩), fun id ↦ ?_, fun _ ↦ by rintro ⟨⟩, fun id p hp ↦ ?_⟩
  · have htable : (initPcb.created 1).pcbTable pid = if pid = 1 then some 1 else if pid =
      0 then some 0 else none :=
      update_apply ..
    rw [htable]
    constructor
    · intro h
      split at h
      · next hone =>
        cases h
        exact ⟨_, rfl, hone.symm⟩
      · split at h
        · next hzero =>
          cases h
          exact ⟨_, rfl, hzero.symm⟩
        · cases h
    · rintro ⟨p, hp, rfl⟩
      rcases hpcbs id p hp with ⟨rfl, rfl⟩ | ⟨rfl, rfl⟩ <;> rfl
  · rcases hpcbs id p hp with ⟨rfl, rfl⟩ | ⟨rfl, rfl⟩ <;> decide
  · rcases hpcbs id p hp with ⟨rfl, rfl⟩ | ⟨rfl, rfl⟩ <;> rintro ⟨⟩
  · cases hnone : (initPcb.created 1).pcbs id with
    | none => rfl
    | some p =>
      change 2 ≤ id at hid
      rcases hpcbs id p hnone with ⟨rfl, -⟩ | ⟨rfl, -⟩ <;> omega
  · have hhome (id : ℕ) : initPcb.home id = none := by
      rw [State.home, initPcb]
      dsimp only
      split <;> rfl
    refine ((Placed.empty.congr_home hhome).push (hhome 1) .ready).congr_home fun id ↦ ?_
    exact congrFun (home_setPcb initPcb 1 ⟨1, .ready, none, 0⟩) id
  · exact (forall_update_iff initPcb.saved SafeStack).2 ⟨by rintro _ ⟨⟩, fun _ _ _ ↦ by rintro ⟨⟩⟩ id
  · rcases hpcbs id p hp with ⟨rfl, rfl⟩ | ⟨rfl, rfl⟩
    · exact iff_of_true rfl ⟨rfl, rfl⟩
    · exact iff_of_false (by rintro ⟨⟩) fun h ↦ absurd h.1 (by decide)

/-- What every effect keeps holds in all runs whose timer interrupts come at safe points. -/
theorem SchedReachable.of_effect {allowed : State → Act → Prop} {P : State → Prop}
    (hallowed : ∀ s a, allowed s a → TimerAtSafePoint s a) (hboot : P (initPcb.created 1))
    (heffect : ∀ s s' leaving leaving' a, SchedInv s leaving → P s → allowed s a →
      Effect s leaving a s' leaving' → P s') {s : State} (h : SchedReachable allowed s) :
    (∃ leaving, SchedInv s leaving) ∧ P s := by
  refine Reachable.invariant (P := fun s ↦ (∃ leaving, SchedInv s leaving) ∧ P s)
    (fun s hs ↦ ?_) ?_ h
  · rw [boot_eq] at hs
    cases hs
    exact ⟨⟨false, created_inv⟩, hboot⟩
  · rintro s s' ⟨⟨leaving, hinv⟩, hP⟩ ⟨a, henabled, hact, hrun⟩
    obtain ⟨leaving', h⟩ := Act.effect hinv henabled (hallowed s a hact) hrun
    exact ⟨⟨leaving', h.inv hinv⟩, heffect _ _ _ _ _ hinv hP hact h⟩

instance (s : State) (a : Act) : Decidable (a.Enabled s) := by
  induction a using Act.casesOn <;> unfold Act.Enabled <;> infer_instance

theorem SchedReachable.exists_run (allowed : State → Act → Prop) [∀ s a, Decidable (allowed s a)]
    (acts : List Act) (Q : State → Prop) [DecidablePred Q]
    (h : ((runAll (fun s a ↦ Act.Enabled s a ∧ allowed s a) Act.run acts (initPcb.created 1)).any
      fun s ↦ decide (Q s)) = true) : ∃ s, SchedReachable allowed s ∧ Q s := by
  refine Reachable.exists_runAll (fun s ↦ boot = .ok s) (SchedStep allowed) ?_ boot_eq acts Q h
  exact fun _ a _ hcan hrun ↦ ⟨a, hcan.1, hcan.2, hrun⟩

/-! ## The queues -/

end CapstoneKernel.Sched
