import CapstoneKernel.Sched.Dying

/-!
# What a step does

`Effect` lists what can happen between two points, with the state it leaves, for runs in which no
timer interrupt comes at an unsafe point.  The flags say whether the current process is about to be
replaced.
-/

namespace CapstoneKernel.Sched

open Places Execution Function List

variable {f : Frame} {rest : List Frame}

/-- The current process gets another state and joins a list. -/
def State.parked (s : State) (p : Pcb) (q : Queue) (context : List Frame) : State :=
  ((s.setPcb s.current p).push q s.current).resume context

/-- A call of `wait` is what puts its frame on the stack. -/
def Frame.EnteredBy : Frame → Act → Prop
  | .wait _ e data, a => a = .wait e data
  | _, _ => True

inductive Effect (s : State) : Bool → Act → State → Bool → Prop
  | stays {leaving : Bool} {a : Act} : Effect s leaving a s leaving
  | enters {a : Act} {f : Frame} : SafeStack s.current (f :: s.context) → f.EnteredBy a →
      Effect s false a (s.resume (f :: s.context)) false
  | interrupts {leaving : Bool} {a : Act} {e : Event} :
      Effect s leaving a (s.resume (.wakePop e :: s.context)) leaving
  | creates {a : Act} {pid : ℕ} {forked : ℕ → ℕ → Option ℕ} : s.pcbTable pid = none → pid < maxProc →
      s.context = [] → (∀ id, id ≠ s.current → forked id = s.forked id) →
      Effect s false a { s.created pid with forked := forked } false
  | schedules {p : Pcb} {rest : List Frame} : s.context = .schedule :: rest → SafeStack s.current rest →
      s.pcbs s.current = some p → p.state = .run →
      Effect s false .step (s.parked { p with state := .ready } .ready (.switchNext s.current :: rest)) true
  | picks {next : Option ℕ} {rest : List Frame} : s.context = .switchNext s.current :: rest →
      SafeStack s.current rest → (s.queue .ready).head? = next →
      Effect s true .step ((s.popped .ready).resume (.switchTo s.current next :: rest)) true
  | switches {next : ℕ} {p : Pcb} {rest : List Frame} : s.context = .switchTo s.current (some next) :: rest →
      SafeStack s.current rest → s.pcbs next = some p →
      Effect s true .step { (s.setPcb next { p with state := .run }).resume
        (.switchRegs s.current next :: rest) with current := next } false
  | loads {prev : ℕ} {rest : List Frame} : s.context = .switchRegs prev s.current :: rest →
      SafeStack prev rest →
      Effect s false .step { s.resume (update s.saved prev rest s.current) with
        saved := update s.saved prev rest } false
  | checks {rest : List Frame} : s.context = .checkReady s.current :: rest → SafeStack s.current rest →
      Effect s true .step (s.resume (.switchNext s.current :: rest)) true
  | exits {p : Pcb} {rest : List Frame} : s.context = .exit s.current :: rest → SafeStack s.current rest →
      s.current ≠ idlePcb → s.pcbs s.current = some p → p.state = .run →
      Effect s false .step ((s.resume (.checkReady s.current :: rest)).died s.current p) true
  | waits {e : Event} {data : ℕ} {p : Pcb} {rest : List Frame} : s.context = .wait s.current e data :: rest →
      SafeStack s.current rest → s.current ≠ idlePcb → s.pcbs s.current = some p → p.state = .run →
      Effect s false .step (s.parked { p with waitData := data, state := .wait, waitQ := some e } (.wait e)
        (.checkReady s.current :: rest)) true
  | kills {id : ℕ} {q : Queue} {p : Pcb} {rest : List Frame} : s.context = .kill id :: rest →
      SafeStack s.current rest → id ≠ idlePcb → s.pcbs id = some p → p.home = some q → id ∈ s.queue q →
      Effect s false .step (((s.resume rest).delete q id).died id p) false
  | killsSelf {id : ℕ} {rest : List Frame} : s.context = .kill id :: rest → SafeStack s.current rest →
      s.current ≠ idlePcb → Effect s false .step (s.resume (.exit s.current :: rest)) false
  | returns {f : Frame} {rest : List Frame} : s.context = f :: rest → SafeStack s.current (f :: rest) →
      Effect s false .step (s.resume rest) false
  | finds {id : ℕ} {tail : List ℕ} {rest : List Frame} : s.context = .killZombies :: rest →
      SafeStack s.current rest → s.queue .dead = id :: tail →
      Effect s false .step ((s.popped .dead).resume (.reap id :: rest)) false
  | reaps {id : ℕ} {p : Pcb} {rest : List Frame} : s.context = .reap id :: rest → SafeStack s.current rest →
      s.pcbs id = some p →
      Effect s false .step { s.resume (.killZombies :: rest) with
        pcbs := update s.pcbs id none
        pcbTable := update s.pcbTable p.pid none } false
  | takes {leaving : Bool} {e : Event} {id : ℕ} {tail : List ℕ} {rest : List Frame} :
      s.context = .wakePop e :: rest → Stack s.current leaving rest → s.queue (.wait e) = id :: tail →
      Effect s leaving .step ((s.popped (.wait e)).resume (.wakeReady e id :: rest)) leaving
  | wakes {leaving : Bool} {e : Event} {id : ℕ} {p : Pcb} {rest : List Frame} :
      s.context = .wakeReady e id :: rest → Stack s.current leaving rest → s.pcbs id = some p →
      Effect s leaving .step (((s.resume rest).setPcb id p.woken).push .ready id) leaving

/-- A timer interrupt comes at safe points only. -/
def TimerAtSafePoint (s : State) : Act → Prop
  | .timerInt => ∀ f ∈ s.context, f.Safe
  | _ => True

instance (s : State) (a : Act) : Decidable (TimerAtSafePoint s a) := by
  cases a <;> unfold TimerAtSafePoint <;> infer_instance

section Step

variable {s s' : State} {leaving : Bool} (hinv : SchedInv s leaving)

include hinv

/-! ## The running stack -/

theorem SchedInv.pcb_current (hleaving : leaving = false) :
    ∃ p, s.pcbs s.current = some p ∧ p.state = .run := by
  obtain ⟨p, hp⟩ := Option.ne_none_iff_exists'.1 (hinv.current hleaving)
  exact ⟨p, hp, (hinv.run _ p hp).2 ⟨rfl, hleaving⟩⟩

section

variable (hcontext : s.context = f :: rest)
include hcontext

theorem SchedInv.safe_top (hsafe : f.Safe) (hwakes : ¬ f.Wakes) :
    leaving = false ∧ SafeStack s.current (f :: rest) := by
  have hstack := hinv.stack
  rw [hcontext] at hstack
  cases hstack with
  | safe h => exact ⟨rfl, h⟩
  | leaves hleaves => cases f <;> first | exact hleaves.elim | exact hsafe.elim
  | regs | reap => exact hsafe.elim
  | wakes h => exact absurd h hwakes

theorem SchedInv.leaving_top (hleaves : f.Leaves) :
    leaving = true ∧ f.Fits s.current ∧ SafeStack s.current rest := by
  have hstack := hinv.stack
  rw [hcontext] at hstack
  cases hstack with
  | safe h =>
    have hsafe := (h f mem_cons_self).1
    cases f <;> first | exact hleaves.elim | exact hsafe.elim
  | leaves _ hfits hrest => exact ⟨rfl, hfits, hrest⟩
  | regs | reap => exact hleaves.elim
  | wakes h => cases f <;> first | exact hleaves.elim | exact h.elim

theorem SchedInv.waking_top (hwakes : f.Wakes) : Stack s.current leaving rest := by
  have hstack := hinv.stack
  rw [hcontext] at hstack
  cases hstack with
  | safe h => exact .safe h.tail
  | leaves hleaves => cases f <;> first | exact hleaves.elim | exact hwakes.elim
  | regs | reap => exact hwakes.elim
  | wakes _ h => exact h

theorem SchedInv.ready_ne_nil (hleaves : f.Leaves) (htaken : f.taken = none) :
    s.queue .ready ≠ [] := by
  obtain ⟨rfl, -, hrest⟩ := hinv.leaving_top hcontext hleaves
  obtain ⟨p, hp, hstate⟩ := hinv.pcbs.idle
  have hready : p.state = .ready := hstate.resolve_left fun hrun ↦
    absurd ((hinv.run _ p hp).1 hrun).2 (by decide)
  have hhome : s.home idlePcb = some .ready := by
    rw [home_of_pcb hp, Pcb.home, hready]
  rcases hinv.placed.mem_of_home hhome with hmem | hmem
  · exact ne_nil_of_mem hmem
  · rw [hcontext, filterMap_cons_none htaken, hrest.taken] at hmem
    exact absurd hmem not_mem_nil

/-! ## The parts of a step -/

omit hcontext in
theorem die_effect {id : ℕ} {q : Queue} {p : Pcb} (hcontext : s.context = .kill id :: rest)
    (hleaving : leaving = false) (hrest : SafeStack s.current rest) (hid : id ≠ idlePcb)
    (hp : s.pcbs id = some p) (hhome : p.home = some q)
    (hrun : die ((s.resume rest).delete q id) id p = .ok s') : Effect s leaving .step s' false := by
  subst hleaving
  have htaken : s.context.filterMap Frame.taken = [] := by
    rw [hcontext, filterMap_cons_none rfl, hrest.taken]
  have hplaced := hinv.placed
  rw [htaken] at hplaced
  have hmem : id ∈ s.queue q :=
    (hplaced.mem_of_home ((home_of_pcb hp).trans hhome)).resolve_right not_mem_nil
  have herased := hplaced.erase hmem
  have hdied := die_eq (s := (s.resume rest).delete q id) (p := p) herased
  obtain rfl := Except.ok.inj (hdied.symm.trans hrun)
  exact .kills hcontext hrest hid hp hhome hmem

omit hcontext in
theorem kill_effect {id : ℕ} (hcontext : s.context = .kill id :: rest)
    (hrun : killBody (s.resume rest) id = .ok s') : Effect s leaving .step s' false := by
  obtain ⟨rfl, hsafe⟩ := hinv.safe_top hcontext trivial not_false
  have hid : id ≠ idlePcb := (hsafe _ mem_cons_self).2
  obtain ⟨p, hpcb, hrun⟩ := of_bind_eq_ok hrun
  have hp : s.pcbs id = some p := pcb_eq_ok.1 hpcb
  cases hstate : p.state with
  | run =>
    rw [hstate] at hrun
    obtain ⟨rfl, -⟩ := (hinv.run id p hp).1 hstate
    change exit (s.resume rest) = .ok s' at hrun
    rw [exit, pcb_eq_ok.2 (show (s.resume rest).pcbs (s.resume rest).current = some p from hp),
      ok_bind,
      hstate] at hrun
    cases hrun
    exact .killsSelf hcontext hsafe.tail hid
  | ready =>
    rw [hstate] at hrun
    exact die_effect hinv hcontext rfl hsafe.tail hid hp (by rw [Pcb.home, hstate]) hrun
  | wait =>
    rw [hstate] at hrun
    cases hwaitQ : p.waitQ with
    | none => exact absurd hwaitQ (hinv.pcbs.waiting id p hp hstate)
    | some e =>
      simp only [hwaitQ] at hrun
      exact die_effect hinv hcontext rfl hsafe.tail hid hp
        (by rw [Pcb.home, hstate, hwaitQ]; rfl) hrun
  | dead =>
    rw [hstate] at hrun
    cases hrun
    exact .returns hcontext hsafe

theorem frame_effect (hrun : f.run s rest = .ok s') :
    ∃ leaving', Effect s leaving .step s' leaving' := by
  cases f with
  | schedule =>
    obtain ⟨rfl, hsafe⟩ := hinv.safe_top hcontext trivial not_false
    obtain ⟨p, hp, hstate⟩ := hinv.pcb_current rfl
    rw [Frame.run, pcb_eq_ok.2 hp, ok_bind] at hrun
    cases hrun
    exact ⟨_, .schedules hcontext hsafe.tail hp hstate⟩
  | switchNext prev =>
    obtain ⟨rfl, rfl, hrest⟩ := hinv.leaving_top hcontext trivial
    cases hrun
    exact ⟨_, .picks hcontext hrest rfl⟩
  | switchTo prev next =>
    obtain ⟨rfl, rfl, hrest⟩ := hinv.leaving_top hcontext trivial
    cases next with
    | none => cases hrun
    | some next =>
      obtain ⟨p, hp, hrun⟩ := of_bind_eq_ok hrun
      cases hrun
      exact ⟨_, .switches hcontext hrest (pcb_eq_ok.1 hp)⟩
  | switchRegs prev next =>
    have hstack := hinv.stack
    rw [hcontext] at hstack
    cases hrun
    cases hstack with
    | safe h => exact (h _ mem_cons_self).1.elim
    | leaves h => exact h.elim
    | regs hrest => exact ⟨_, .loads hcontext hrest⟩
    | wakes h => exact h.elim
  | checkReady pcb =>
    obtain ⟨rfl, rfl, hrest⟩ := hinv.leaving_top hcontext trivial
    have hready := hinv.ready_ne_nil hcontext trivial rfl
    rw [Frame.run, if_neg hready] at hrun
    cases hrun
    exact ⟨_, .checks hcontext hrest⟩
  | exit pcb =>
    obtain ⟨rfl, hsafe⟩ := hinv.safe_top hcontext trivial not_false
    obtain ⟨rfl, hidle⟩ := (hsafe _ mem_cons_self).2
    obtain ⟨p, hp, hstate⟩ := hinv.pcb_current rfl
    have hnone : s.home s.current = none := by rw [home_of_pcb hp, Pcb.home, hstate]
    have hplaced : Placed s.queue ((.checkReady s.current :: rest).filterMap Frame.taken)
        (update s.home s.current none) := by
      rw [← hnone, update_eq_self]
      have h := hinv.placed
      rwa [hcontext] at h
    rw [Frame.run, pcb_eq_ok.2 hp, ok_bind,
      die_eq (s := s.resume (.checkReady s.current :: rest)) hplaced] at hrun
    cases hrun
    exact ⟨_, .exits hcontext hsafe.tail hidle hp hstate⟩
  | wait pcb e data =>
    obtain ⟨rfl, hsafe⟩ := hinv.safe_top hcontext trivial not_false
    obtain ⟨rfl, hidle⟩ := (hsafe _ mem_cons_self).2
    obtain ⟨p, hp, hstate⟩ := hinv.pcb_current rfl
    rw [Frame.run, pcb_eq_ok.2 hp, ok_bind] at hrun
    cases hrun
    exact ⟨_, .waits hcontext hsafe.tail hidle hp hstate⟩
  | kill pcb => exact ⟨_, kill_effect hinv hcontext hrun⟩
  | killZombies =>
    obtain ⟨rfl, hsafe⟩ := hinv.safe_top hcontext trivial not_false
    cases hdead : s.queue .dead with
    | nil =>
      rw [Frame.run, hdead] at hrun
      cases hrun
      exact ⟨_, .returns hcontext hsafe⟩
    | cons id tail =>
      rw [Frame.run, hdead] at hrun
      cases hrun
      exact ⟨_, .finds hcontext hsafe.tail hdead⟩
  | reap pcb =>
    have hstack := hinv.stack
    rw [hcontext] at hstack
    obtain ⟨p, hp, hrun⟩ := of_bind_eq_ok hrun
    cases hrun
    cases hstack with
    | safe h => exact (h _ mem_cons_self).1.elim
    | leaves h => exact h.elim
    | reap hrest => exact ⟨_, .reaps hcontext hrest (pcb_eq_ok.1 hp)⟩
    | wakes h => exact h.elim
  | wakePop e =>
    have hstack := hinv.waking_top hcontext trivial
    cases hqueue : s.queue (.wait e) with
    | nil =>
      rw [Frame.run, hqueue] at hrun
      cases hrun
    | cons id tail =>
      rw [Frame.run, hqueue] at hrun
      cases hrun
      exact ⟨_, .takes hcontext hstack hqueue⟩
  | wakeReady e pcb =>
    have hstack := hinv.waking_top hcontext trivial
    obtain ⟨p, hp, hrun⟩ := of_bind_eq_ok hrun
    cases hrun
    exact ⟨_, .wakes hcontext hstack (pcb_eq_ok.1 hp)⟩

end

omit hinv in
/-- The search passes used entries up to the first one that is free or has the last pid, or over
the end of the table. -/
theorem findPid_spec (s : State) {fuel : ℕ} (pid : ℕ) (hfuel : maxProc < fuel + pid) :
    ∃ q, pid ≤ q ∧ (∀ r, pid ≤ r → r < q → r < maxProc ∧ s.pcbTable r ≠ none ∧ r ≠ s.lastPid) ∧
      (maxProc ≤ q ∧ findPid s fuel pid = .error .outOfBounds ∨
        q < maxProc ∧ s.pcbTable q = none ∧ findPid s fuel pid = .ok (some q) ∨
        q < maxProc ∧ s.pcbTable q ≠ none ∧ q = s.lastPid ∧ findPid s fuel pid = .ok none) := by
  induction fuel generalizing pid with
  | zero => exact ⟨pid, Nat.le_refl _, by omega, .inl ⟨by omega, rfl⟩⟩
  | succ fuel ih =>
    rw [findPid]
    by_cases hlt : maxProc ≤ pid
    · exact ⟨pid, Nat.le_refl _, by omega, .inl ⟨hlt, if_pos hlt⟩⟩
    · rw [if_neg hlt]
      cases hpid : s.pcbTable pid with
      | none => exact ⟨pid, Nat.le_refl _, by omega, .inr (.inl ⟨by omega, hpid, rfl⟩)⟩
      | some id =>
        have hused : s.pcbTable pid ≠ none := by simp [hpid]
        by_cases hlast : pid = s.lastPid
        · exact ⟨pid, Nat.le_refl _, by omega, .inr (.inr ⟨by omega, hused, hlast, if_pos hlast⟩)⟩
        · simp only [if_neg hlast]
          obtain ⟨q, hle, hpassed, hfound⟩ := ih (pid + 1) (by omega)
          refine ⟨q, by omega, fun r hr hrq ↦ ?_, hfound⟩
          rcases Nat.eq_or_lt_of_le hr with rfl | hr
          · exact ⟨by omega, hused, hlast⟩
          · exact hpassed r hr hrq

omit hinv in
theorem threadCreate_spec {result : Option ℕ} (h : threadCreate s = .ok (result, s')) :
    (result = none ∧ s' = s) ∨
      ∃ pid, result = some pid ∧ pid < maxProc ∧ s.pcbTable pid = none ∧ s' = s.created pid := by
  obtain ⟨found, hfind, h⟩ := of_bind_eq_ok h
  cases found with
  | none =>
    cases h
    exact .inl ⟨rfl, rfl⟩
  | some pid =>
    cases h
    obtain ⟨q, -, -, ⟨-, hq⟩ | ⟨hlt, hnone, hq⟩ | ⟨-, -, -, hq⟩⟩ :=
      findPid_spec s _ (Nat.lt_add_right _ (Nat.lt_succ_self maxProc)) <;> cases hq.symm.trans hfind
    exact .inr ⟨_, rfl, hlt, hnone, rfl⟩

theorem SchedInv.enters {a : Act} (hcontext : s.context = []) (hsafe : f.Safe)
    (hfits : f.Fits s.current) (hentered : f.EnteredBy a) :
    ∃ leaving', Effect s leaving a (s.resume (f :: s.context)) leaving' := by
  have hstack := hinv.stack
  rw [hcontext] at hstack
  cases hstack
  exact ⟨_, .enters (SafeStack.cons hsafe hfits (by rw [hcontext]; exact nofun)) hentered⟩

theorem Act.effect {a : Act} (henabled : a.Enabled s) (htimer : TimerAtSafePoint s a)
    (hrun : a.run s = .ok s') : ∃ leaving', Effect s leaving a s' leaving' := by
  cases a with
  | step =>
    cases hcontext : s.context with
    | nil => exact absurd hcontext henabled
    | cons f rest =>
      rw [Act.run, hcontext] at hrun
      exact frame_effect hinv hcontext hrun
  | timerInt =>
    obtain ⟨rfl, hsafe⟩ := hinv.stack.safe_of_all htimer
    cases hrun
    rw [Sched.schedule]
    split
    · exact ⟨_, .stays⟩
    · exact ⟨_, .enters (hsafe.cons trivial trivial) trivial⟩
  | ioInt e =>
    cases hrun
    rw [Sched.ioInt]
    split
    · exact ⟨_, .stays⟩
    · exact ⟨_, .interrupts⟩
  | schedule =>
    cases hrun
    rw [Sched.schedule]
    split
    · exact ⟨_, .stays⟩
    · exact hinv.enters henabled trivial trivial trivial
  | wait e data =>
    cases hrun
    exact hinv.enters henabled.1 trivial ⟨rfl, henabled.2⟩ rfl
  | exit =>
    obtain ⟨p, hp, hrun⟩ := of_bind_eq_ok hrun
    cases hrun
    split
    · exact ⟨_, .stays⟩
    · exact hinv.enters henabled.1 trivial ⟨rfl, henabled.2⟩ trivial
  | kill pid =>
    rw [Act.run, Sched.kill] at hrun
    split at hrun
    · cases hrun
    · split at hrun
      · cases hrun
        exact ⟨_, .stays⟩
      · next id hid =>
        cases hrun
        exact hinv.enters henabled.1 trivial (fun heq ↦ henabled.2.2 (heq ▸ hid)) trivial
  | threadCreate =>
    obtain ⟨⟨result, t⟩, hcreate, hrun⟩ := of_bind_eq_ok hrun
    cases hrun
    rcases threadCreate_spec hcreate with ⟨-, rfl⟩ | ⟨pid, -, hlt, hnone, rfl⟩
    · exact ⟨_, .stays⟩
    · have hstack := hinv.stack
      rw [henabled.1] at hstack
      cases hstack
      exact ⟨_, .creates hnone hlt henabled.1 fun _ _ ↦ rfl⟩
  | fork =>
    obtain ⟨⟨result, t⟩, hcreate, hrun⟩ := of_bind_eq_ok hrun
    rcases threadCreate_spec hcreate with ⟨rfl, -⟩ | ⟨pid, rfl, hlt, hnone, rfl⟩
    · cases hrun
    · cases hrun
      have hstack := hinv.stack
      rw [henabled.1] at hstack
      cases hstack
      exact ⟨_, .creates hnone hlt henabled.1 fun id hid ↦ update_of_ne hid _ _⟩
  | killZombies =>
    cases hrun
    exact hinv.enters henabled.1 trivial trivial trivial

end Step

end CapstoneKernel.Sched
