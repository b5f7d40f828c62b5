import CapstoneKernel.Lib.Places
import CapstoneKernel.Lib.Writes
import CapstoneKernel.Sched.Machine

/-!
# The invariant of the scheduler

Where a PCB belongs follows from its state.  At a point in the middle of a kernel function a PCB may
have been taken off its list, and the current process may have given up the state `RUN` without
having been replaced; the invariant says which of this can be the case on which stack of frames.
-/

namespace CapstoneKernel.Sched

open Places Execution List Option

variable {id : ℕ} {f : Frame} {rest : List Frame} {q : Queue} {s s' : State} {p : Pcb}

/-- The list the state of a PCB says it is on. -/
def Pcb.home (p : Pcb) : Option Queue :=
  match p.state with
  | .run => none
  | .ready => some .ready
  | .wait => p.waitQ.map .wait
  | .dead => some .dead

namespace State

def home (s : State) (id : ℕ) : Option Queue := (s.pcbs id).bind Pcb.home

end State

namespace Frame

/-- The PCB that code has taken off a list, and the list. -/
def taken : Frame → Option (Queue × ℕ)
  | .switchTo _ (some next) => some (.ready, next)
  | .reap pcb => some (.dead, pcb)
  | .wakeReady e pcb => some (.wait e, pcb)
  | _ => none

/-- Points at which nothing has been changed yet that has to be completed. -/
def Safe : Frame → Prop
  | .schedule => True
  | .exit _ => True
  | .wait _ _ _ => True
  | .kill _ => True
  | .killZombies => True
  | .wakePop _ => True
  | _ => False

/-- Points at which the current process is on a list and the next one has not been chosen. -/
def Leaves : Frame → Prop
  | .switchNext _ => True
  | .switchTo _ _ => True
  | .checkReady _ => True
  | _ => False

/-- Points in interrupts of the serial port. -/
def Wakes : Frame → Prop
  | .wakePop _ => True
  | .wakeReady _ _ => True
  | _ => False

/-- The local variables on the stack of the process `id`. -/
def Fits (id : ℕ) : Frame → Prop
  | .switchNext prev => prev = id
  | .switchTo prev _ => prev = id
  | .checkReady pcb => pcb = id
  | .exit pcb => pcb = id ∧ id ≠ idlePcb
  | .wait pcb _ _ => pcb = id ∧ id ≠ idlePcb
  | .kill pcb => pcb ≠ idlePcb
  | _ => True

instance (f : Frame) : Decidable f.Safe := by cases f <;> unfold Safe <;> infer_instance

end Frame

/-- All points of the stack are safe ones of the process. -/
def SafeStack (id : ℕ) (frames : List Frame) : Prop := ∀ f ∈ frames, f.Safe ∧ f.Fits id

/-- The running stack; the flag says whether the current process is about to be replaced. -/
inductive Stack (current : ℕ) : Bool → List Frame → Prop
  | safe {frames : List Frame} : SafeStack current frames → Stack current false frames
  | leaves {f : Frame} {rest : List Frame} : f.Leaves → f.Fits current → SafeStack current rest →
      Stack current true (f :: rest)
  | regs {prev : ℕ} {rest : List Frame} : SafeStack prev rest →
      Stack current false (.switchRegs prev current :: rest)
  | reap {pcb : ℕ} {rest : List Frame} : SafeStack current rest → Stack current false (.reap pcb :: rest)
  | wakes {f : Frame} {rest : List Frame} {leaving : Bool} : f.Wakes → Stack current leaving rest →
      Stack current leaving (f :: rest)

/-- The PCBs by themselves. -/
structure PcbsWf (s : State) : Prop where
  table : ∀ pid id, s.pcbTable pid = some id ↔ ∃ p, s.pcbs id = some p ∧ p.pid = pid
  pid_lt : ∀ id p, s.pcbs id = some p → p.pid < maxProc
  waiting : ∀ id p, s.pcbs id = some p → p.state = .wait → p.waitQ ≠ none
  fresh : ∀ id, s.nextPcb ≤ id → s.pcbs id = none
  idle : ∃ p, s.pcbs idlePcb = some p ∧ (p.state = .run ∨ p.state = .ready)

structure SchedInv (s : State) (leaving : Bool) : Prop where
  pcbs : PcbsWf s
  placed : Placed s.queue (s.context.filterMap Frame.taken) s.home
  stack : Stack s.current leaving s.context
  saved : ∀ id, SafeStack id (s.saved id)
  current : leaving = false → s.pcbs s.current ≠ none
  run : ∀ id p, s.pcbs id = some p → (p.state = .run ↔ id = s.current ∧ leaving = false)

/-! ## Stacks -/

theorem SafeStack.cons (hsafe : f.Safe) (hfits : f.Fits id)
    (h : SafeStack id rest) : SafeStack id (f :: rest) := by
  intro g hg
  rcases mem_cons.1 hg with rfl | hg
  · exact ⟨hsafe, hfits⟩
  · exact h g hg

theorem SafeStack.tail (h : SafeStack id (f :: rest)) : SafeStack id rest :=
  fun g hg ↦ h g (mem_cons_of_mem f hg)

variable {frames : List Frame} {leaving : Bool}

theorem SafeStack.taken (h : SafeStack id frames) : frames.filterMap Frame.taken = [] := by
  rw [filterMap_eq_nil_iff]
  intro f hf
  have hsafe := (h f hf).1
  cases f <;> first | rfl | exact hsafe.elim

theorem filterMap_taken (h : f.taken = some (q, id)) :
    (f :: rest).filterMap Frame.taken = (q, id) :: rest.filterMap Frame.taken :=
  filterMap_cons_some h

theorem Stack.safe_of_all {current : ℕ} (h : Stack current leaving frames)
    (hsafe : ∀ f ∈ frames, f.Safe) :
    leaving = false ∧ SafeStack current frames := by
  induction h with
  | safe h => exact ⟨rfl, h⟩
  | @leaves f rest hleaves =>
    have hf := hsafe f mem_cons_self
    cases f <;> first | exact hleaves.elim | exact hf.elim
  | regs | reap => exact (hsafe _ mem_cons_self).elim
  | @wakes f rest leaving hwakes _ ih =>
    obtain ⟨hfalse, hrest⟩ := ih fun g hg ↦ hsafe g (mem_cons_of_mem f hg)
    refine ⟨hfalse, hrest.cons (hsafe f mem_cons_self) ?_⟩
    cases f <;> first | exact hwakes.elim | exact trivial

/-! ## One PCB changes -/

theorem home_setPcb (s : State) (id : ℕ) (p : Pcb) :
    (s.setPcb id p).home = Function.update s.home id p.home := by
  funext id'
  by_cases hid : id' = id
  · subst hid
    simp [State.home, State.setPcb]
  · simp [State.home, State.setPcb, hid]

theorem pcb_eq_ok : s.pcb id = .ok p ↔ s.pcbs id = some p := by
  rw [State.pcb]
  cases s.pcbs id <;> simp

/-- The PCBs change, but none comes or goes, and they keep their pids. -/
theorem PcbsWf.map (h : PcbsWf s) (f : ℕ → Pcb → Pcb)
    (hpcbs : ∀ id, s'.pcbs id = (s.pcbs id).map (f id))
    (hpid : ∀ id p, s.pcbs id = some p → (f id p).pid = p.pid)
    (hwait : ∀ id p, s.pcbs id = some p → (f id p).state = .wait → (f id p).waitQ ≠ none)
    (hidle : ∀ p, s.pcbs idlePcb = some p → p.state = .run ∨ p.state = .ready →
      (f idlePcb p).state = .run ∨ (f idlePcb p).state = .ready)
    (htable : s'.pcbTable = s.pcbTable) (hnext : s'.nextPcb = s.nextPcb) : PcbsWf s' := by
  have hsome (id : ℕ) (q : Pcb) (hq : s'.pcbs id = some q) : ∃ p, s.pcbs id = some p ∧ f id p = q :=
    by
    rw [hpcbs] at hq
    exact map_eq_some_iff.1 hq
  refine ⟨fun pid id ↦ ?_, fun id q hq ↦ ?_, fun id q hq hstate ↦ ?_, fun id hid ↦ ?_, ?_⟩
  · rw [htable, h.table]
    constructor
    · rintro ⟨p, hp, rfl⟩
      exact ⟨f id p, by rw [hpcbs, hp, map_some], hpid id p hp⟩
    · rintro ⟨q, hq, rfl⟩
      obtain ⟨p, hp, rfl⟩ := hsome id q hq
      exact ⟨p, hp, (hpid id p hp).symm⟩
  · obtain ⟨p, hp, rfl⟩ := hsome id q hq
    rw [hpid id p hp]
    exact h.pid_lt id p hp
  · obtain ⟨p, hp, rfl⟩ := hsome id q hq
    exact hwait id p hp hstate
  · rw [hpcbs, h.fresh id (hnext ▸ hid), map_none]
  · obtain ⟨p, hp, hstate⟩ := h.idle
    exact ⟨f idlePcb p, by rw [hpcbs, hp, map_some], hidle p hp hstate⟩

theorem PcbsWf.congr (h : PcbsWf s) (hpcbs : s'.pcbs = s.pcbs)
    (htable : s'.pcbTable = s.pcbTable) (hnext : s'.nextPcb = s.nextPcb) : PcbsWf s' :=
  h.map (fun _ p ↦ p) (fun id ↦ by rw [hpcbs, Option.map_id']) (fun _ _ _ ↦ rfl) h.waiting
    (fun _ _ hstate ↦ hstate) htable hnext

theorem PcbsWf.setPcb (h : PcbsWf s) (p' : Pcb) (hp : s.pcbs id = some p)
    (hpid : p'.pid = p.pid) (hwait : p'.state = .wait → p'.waitQ ≠ none)
    (hidle : id = idlePcb → p'.state = .run ∨ p'.state = .ready)
    (hpcbs : s'.pcbs = Function.update s.pcbs id (some p')) (htable : s'.pcbTable = s.pcbTable)
    (hnext : s'.nextPcb = s.nextPcb) : PcbsWf s' := by
  refine h.map (fun id' q ↦ if id' = id then p' else q) (fun id' ↦ ?_) (fun id' q hq ↦ ?_)
    (fun id' q hq ↦ ?_) (fun q hq hstate ↦ ?_) htable hnext
  · rw [hpcbs]
    by_cases hid : id' = id
    · rw [hid, Function.update_self, hp, map_some, if_pos rfl]
    · simp [hid]
  · split
    · next hid =>
      rw [hid, hp] at hq
      rw [hpid, some.inj hq]
    · rfl
  · split
    · exact hwait
    · exact h.waiting id' q hq
  · split
    · next hid => exact hidle hid.symm
    · exact hstate

theorem Pcb.state_of_home (h : p.home = some q) :
    (q = .ready → p.state = .ready) ∧ (q = .dead → p.state = .dead) ∧
      (∀ e, q = .wait e → p.state = .wait ∧ p.waitQ = some e) := by
  unfold Pcb.home at h
  split at h
  · cases h
  · next hstate =>
    cases h
    exact ⟨fun _ ↦ hstate, nofun, nofun⟩
  · next hstate =>
    obtain ⟨e, he, rfl⟩ := map_eq_some_iff.1 h
    refine ⟨nofun, nofun, ?_⟩
    rintro e' heq
    obtain rfl := Queue.wait.inj heq
    exact ⟨hstate, he⟩
  · next hstate =>
    cases h
    exact ⟨nofun, fun _ ↦ hstate, nofun⟩

theorem home_eq_some (h : s.home id = some q) : ∃ p, s.pcbs id = some p ∧ p.home = some q :=
  bind_eq_some_iff.1 h

theorem home_of_pcb (h : s.pcbs id = some p) : s.home id = p.home := by
  rw [State.home, h, bind_some]

/-- A PCB that has been taken off a list still has the state of those on it. -/
theorem SchedInv.home_top (hinv : SchedInv s leaving) (hcontext : s.context = f :: rest)
    (htaken : f.taken = some (q, id)) (hp : s.pcbs id = some p) : p.home = some q := by
  have hplaced := hinv.placed
  rw [hcontext, filterMap_taken htaken] at hplaced
  exact (home_of_pcb hp).symm.trans (hplaced.home_of_taken mem_cons_self)

end CapstoneKernel.Sched
