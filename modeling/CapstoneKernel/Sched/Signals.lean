import CapstoneKernel.Lib.Execution

/-!
# Signals

The signals of one process, as the code that switches to it delivers them.  While the process runs,
its registers change in any way; `schedule` and `wait` save them in its PCB.  When it is resumed
with a signal in its queue, `switch_to_next` copies the saved registers and starts the handler, and
`sigreturn` restores the copy.  There is one copy, and none of the program counter and of the
processor state.

The process continues as if there had been no signal in the runs in which signals are delivered
while no handler is active, a handler is preempted only in a process that has been switched out
before, and `sigreturn` is not preempted.
-/

namespace CapstoneKernel.Sched.Signals

open Execution List

/-! ## Data -/

/-- The addresses of labels and functions. -/
structure Symbols where
  /-- The label `out` of `switch_to_next`. -/
  out : ℕ
  sigreturn : ℕ
  usrSigreturn : ℕ
  exit : ℕ
  usrExit : ℕ

/-- `EL0_W_DAIF` and `EL1H_W_DAIF`. -/
def el0WDaif : ℕ := 0x0

@[inherit_doc el0WDaif]
def el1hWDaif : ℕ := 0x5

def usrCodeStart : ℕ := 0x0

def usrStackEnd : ℕ := 0xfffffffff000

/-- The registers from x19 to x31. -/
abbrev Regs : Type := Fin 13 → ℕ

/-- The index of the link register. -/
def lr : Fin 13 := 30 - 19

/-- An entry of `sig_handler`. -/
inductive SigHandler
  | dfl
  | ign
  | user (handler : ℕ)
  deriving DecidableEq, Repr

/-- What a process continues with. -/
@[ext]
structure Context where
  reg : Regs
  spEl0 : ℕ
  pc : ℕ
  pstate : ℕ

structure Pcb where
  el : ℕ
  reg : Regs
  regBackup : Regs
  spEl0 : ℕ
  spEl0Backup : ℕ
  pc : ℕ
  pstate : ℕ
  sigHandler : ℕ → SigHandler
  signalQueue : List ℕ

def Pcb.context (p : Pcb) : Context := ⟨p.reg, p.spEl0, p.pc, p.pstate⟩

/-- A handler that has not returned. -/
structure Activation where
  /-- What the process would have continued with when the signal was delivered. -/
  resume : Context
  /-- It is in `sigreturn`, before `load_regs`. -/
  returning : Bool

structure State where
  pcb : Pcb
  running : Bool
  /-- The registers while the process runs. -/
  cpu : Context
  /-- The handlers that have not returned, latest first. -/
  active : List Activation

/-- `default_sig_handler`: `exit` for `SIGKILL`, `NULL` otherwise. -/
def defaultSigHandler (syms : Symbols) (signo : ℕ) : ℕ := if signo = 9 then syms.exit else 0

/-! ## Switching -/

/-- `schedule` or `wait`, up to the exchange of the registers. -/
def switchOut (syms : Symbols) (s : State) : State :=
  { s with
    pcb := { s.pcb with
      reg := s.cpu.reg
      spEl0 := if s.pcb.el = 0 then s.cpu.spEl0 else s.pcb.spEl0
      pc := syms.out
      pstate := el1hWDaif }
    running := false }

/-- The registers after `switch_to` or `load_regs`, and the stack pointer of a user process. -/
def loadContext (s : State) (pcb : Pcb) (reg : Regs) (pc pstate : ℕ) : State :=
  { s with
    pcb := pcb
    cpu := ⟨reg, if pcb.el = 0 then pcb.spEl0 else s.cpu.spEl0, pc, pstate⟩
    running := true }

/-- `switch_to_next` with a handler to start: `ret` is where it returns to. -/
def startHandler (s : State) (pcb : Pcb) (ret handler pstate : ℕ) : State :=
  let reg := Function.update pcb.reg lr ret
  { loadContext s { pcb with reg := reg } reg handler pstate with
    active := ⟨s.pcb.context, false⟩ :: s.active }

/-- `switch_to_next` with a signal in the queue. -/
def deliver (syms : Symbols) (s : State) (signo : ℕ) (rest : List ℕ) : State :=
  let pcb := { s.pcb with signalQueue := rest, regBackup := s.pcb.reg, spEl0Backup := s.pcb.spEl0 }
  match s.pcb.sigHandler signo with
  | .dfl => startHandler s pcb syms.sigreturn (defaultSigHandler syms signo) el1hWDaif
  | .ign => loadContext s pcb pcb.reg pcb.pc pcb.pstate
  | .user handler => startHandler s pcb syms.usrSigreturn handler el0WDaif

/-- `switch_to_next`, which resumes the process. -/
def switchIn (syms : Symbols) (s : State) : State :=
  match s.pcb.signalQueue with
  | [] => loadContext s s.pcb s.pcb.reg s.pcb.pc s.pcb.pstate
  | signo :: rest => deliver syms s signo rest

/-- `sigreturn` up to `load_regs`. -/
def sigreturn (s : State) : State :=
  { s with
    pcb := { s.pcb with reg := s.pcb.regBackup, spEl0 := s.pcb.spEl0Backup }
    cpu := { s.cpu with spEl0 := s.pcb.spEl0Backup }
    active := s.active.modifyHead fun a ↦ { a with returning := true } }

/-- The `load_regs` of `sigreturn`. -/
def loadRegs (s : State) : State :=
  { s with
    cpu := ⟨s.pcb.reg, s.cpu.spEl0, s.pcb.pc, s.pcb.pstate⟩
    active := s.active.tail }

/-- `exec`, up to the first instruction of the program. -/
def exec (syms : Symbols) (s : State) : State :=
  { s with
    pcb := { s.pcb with
      el := 0
      pstate := el0WDaif
      reg := Function.update s.pcb.reg lr syms.usrExit
      spEl0 := usrStackEnd }
    cpu := { s.cpu with spEl0 := usrStackEnd, pc := usrCodeStart, pstate := el0WDaif } }

/-! ## Steps -/

inductive Act
  /-- The process goes on, and has changed its registers. -/
  | run (cpu : Context)
  /-- `signal_kill` of any process. -/
  | signalKill (signo : ℕ)
  /-- `signal` of this process. -/
  | signal (signo : ℕ) (handler : SigHandler)
  | switchOut
  | switchIn
  /-- A handler returns. -/
  | sigreturn
  | loadRegs
  | exec

variable (syms : Symbols)

def Act.apply (s : State) : Act → State
  | .run cpu => { s with cpu := cpu }
  | .signalKill signo =>
    { s with pcb := { s.pcb with signalQueue := s.pcb.signalQueue ++ [signo] } }
  | .signal signo handler =>
    { s with pcb := { s.pcb with sigHandler := Function.update s.pcb.sigHandler signo handler } }
  | .switchOut => Signals.switchOut syms s
  | .switchIn => Signals.switchIn syms s
  | .sigreturn => Signals.sigreturn s
  | .loadRegs => Signals.loadRegs s
  | .exec => Signals.exec syms s

/-- The process is in `sigreturn`. -/
def State.Returning (s : State) : Prop := ∃ a ∈ s.active.head?, a.returning = true
deriving Decidable

/-- Code of the process is what it runs outside of `sigreturn`; a process that runs another program
does not return from its handlers. -/
def Act.Enabled (s : State) : Act → Prop
  | .run _ => s.running = true ∧ ¬ s.Returning
  | .signalKill _ => True
  | .signal _ _ => s.running = true
  | .switchOut => s.running = true
  | .switchIn => s.running = false
  | .sigreturn => s.running = true ∧ s.active ≠ [] ∧ ¬ s.Returning
  | .loadRegs => s.running = true ∧ s.Returning
  | .exec => s.running = true ∧ s.active = []

/-- Signals are delivered while no handler is active; a handler is preempted if the process has been
switched out before, and not in `sigreturn`. -/
def DeliveryAllowed (s : State) : Act → Prop
  | .switchIn => s.pcb.signalQueue ≠ [] → s.active = []
  | .switchOut => s.active ≠ [] → s.pcb.pc = syms.out ∧ ¬ s.Returning
  | _ => True

instance (s : State) (a : Act) : Decidable (a.Enabled s) := by
  cases a <;> unfold Act.Enabled <;> infer_instance

instance (s : State) (a : Act) : Decidable (DeliveryAllowed syms s a) := by
  cases a <;> unfold DeliveryAllowed <;> infer_instance

/-- After `thread_create`, `fork` or `init_pcb`. -/
def Created (s : State) : Prop := s.active = [] ∧ s.pcb.signalQueue = [] ∧ s.pcb.pstate = el1hWDaif

def SigStep (allowed : State → Act → Prop) (s s' : State) : Prop :=
  ∃ a : Act, a.Enabled s ∧ allowed s a ∧ a.apply syms s = s'

/-- The states of the runs whose acts all meet the condition. -/
def SigReachable (allowed : State → Act → Prop) : State → Prop :=
  Reachable Created (SigStep syms allowed)

theorem SigReachable.exists_run (allowed : State → Act → Prop) [∀ s a, Decidable (allowed s a)]
    {s₀ : State} (hcreated : Created s₀) (acts : List Act) (Q : State → Prop) [DecidablePred Q]
    (h : ((runAll (fun s a ↦ Act.Enabled s a ∧ allowed s a) (ε := Unit)
      (fun s a ↦ .ok (a.apply syms s)) acts s₀).any
      fun s ↦ decide (Q s)) = true) : ∃ s, SigReachable syms allowed s ∧ Q s := by
  refine Reachable.exists_runAll Created (SigStep syms allowed) ?_ hcreated acts Q h
  exact fun _ a _ hcan hrun ↦ ⟨a, hcan.1, hcan.2, Except.ok.inj hrun⟩

/-! ## The invariant -/

/-- At most one handler is active.  The backups are those of its start, and the program counter and
the processor state have not changed since. -/
structure Inv (s : State) : Prop where
  pstate : s.pcb.pstate = el1hWDaif ∨ (s.active = [] ∧ s.running = true)
  single : s.active.tail = []
  saved : ∀ a ∈ s.active, s.pcb.regBackup = a.resume.reg ∧ s.pcb.spEl0Backup = a.resume.spEl0 ∧
    s.pcb.pc = a.resume.pc ∧ a.resume.pstate = el1hWDaif
  returning : ∀ a ∈ s.active, a.returning = true →
    s.running = true ∧ s.pcb.reg = s.pcb.regBackup ∧ s.cpu.spEl0 = s.pcb.spEl0Backup

variable {syms} {s : State}

section

variable (h : Inv s)
include h

theorem Inv.el1h_of_active {a : Activation} (ha : a ∈ s.active) : s.pcb.pstate = el1hWDaif := by
  refine h.pstate.resolve_right fun hidle ↦ ?_
  rw [hidle.1] at ha
  exact absurd ha not_mem_nil

/-- The only active handler is the first of the list. -/
theorem Inv.isReturning {a : Activation} (ha : a ∈ s.active) (hreturning : a.returning = true) :
    s.Returning := by
  obtain ⟨b, rest, hactive⟩ := exists_cons_of_ne_nil (ne_nil_of_mem ha)
  have hsingle := h.single
  rw [hactive, tail_cons] at hsingle
  rw [hactive, hsingle, mem_singleton] at ha
  refine ⟨a, ?_, hreturning⟩
  rw [hactive, ha]
  rfl

theorem Inv.el1h_of_suspended (hsuspended : s.running = false) : s.pcb.pstate = el1hWDaif := by
  refine h.pstate.resolve_right fun hidle ↦ ?_
  rw [hsuspended] at hidle
  exact absurd hidle.2 Bool.false_ne_true

omit h in
/-- No handler is active after a step. -/
theorem Inv.idle {s' : State} (hactive : s'.active = [])
    (hpstate : s'.pcb.pstate = el1hWDaif ∨ s'.running = true) : Inv s' := by
  refine ⟨hpstate.imp_right (⟨hactive, ·⟩), by rw [hactive, tail_nil], ?_, ?_⟩
  all_goals
    rw [hactive]
    exact fun _ ha ↦ absurd ha not_mem_nil

theorem Inv.switchOut (hallowed : DeliveryAllowed syms s .switchOut) : Inv (switchOut syms s) := by
  refine ⟨.inl rfl, h.single, fun a ha ↦ ?_, fun a ha hreturning ↦ ?_⟩
  · obtain ⟨hreg, hsp, hpc, hpstate⟩ := h.saved a ha
    obtain ⟨hout, -⟩ := hallowed (ne_nil_of_mem ha)
    exact ⟨hreg, hsp, hout.symm.trans hpc, hpstate⟩
  · obtain ⟨-, hnot⟩ := hallowed (ne_nil_of_mem ha)
    exact absurd (h.isReturning ha hreturning) hnot

theorem Inv.startHandler (hsuspended : s.running = false) (hactive : s.active = []) {pcb : Pcb}
    {ret handler pstate : ℕ} (hbackup : pcb.regBackup = s.pcb.reg)
    (hsp : pcb.spEl0Backup = s.pcb.spEl0) (hpc : pcb.pc = s.pcb.pc)
    (hpstate : pcb.pstate = s.pcb.pstate) : Inv (startHandler s pcb ret handler pstate) := by
  have hel1h := h.el1h_of_suspended hsuspended
  refine ⟨.inl (hpstate.trans hel1h), hactive, ?_, ?_⟩
  all_goals
    intro a ha
    change a ∈ ⟨s.pcb.context, false⟩ :: s.active at ha
    rw [hactive, mem_singleton] at ha
    subst ha
  · exact ⟨hbackup, hsp, hpc, hel1h⟩
  · exact fun hreturning ↦ absurd hreturning Bool.false_ne_true

theorem Inv.switchIn (hsuspended : s.running = false) (hallowed : DeliveryAllowed syms s .switchIn) :
    
    Inv (switchIn syms s) := by
  have hel1h := h.el1h_of_suspended hsuspended
  unfold Signals.switchIn
  split
  · refine ⟨.inl hel1h, h.single, h.saved, fun a ha hreturning ↦ ?_⟩
    rw [(h.returning a ha hreturning).1] at hsuspended
    exact absurd hsuspended.symm Bool.false_ne_true
  · next signo rest hqueue =>
    have hactive : s.active = [] := hallowed (hqueue ▸ cons_ne_nil signo rest)
    unfold deliver
    split
    · exact h.startHandler hsuspended hactive rfl rfl rfl rfl
    · exact Inv.idle hactive (.inl hel1h)
    · exact h.startHandler hsuspended hactive rfl rfl rfl rfl

theorem Inv.sigreturn (hrunning : s.running = true) : Inv (sigreturn s) := by
  have hmem {a : Activation} (ha : a ∈ (Signals.sigreturn s).active) : ∃ b ∈ s.active,
    a.resume = b.resume := by
    change a ∈ s.active.modifyHead _ at ha
    cases hactive : s.active with
    | nil =>
      rw [hactive] at ha
      exact absurd ha not_mem_nil
    | cons b rest =>
      rw [hactive, modifyHead_cons] at ha
      rcases mem_cons.1 ha with rfl | ha
      · exact ⟨b, mem_cons_self, rfl⟩
      · exact ⟨a, mem_cons_of_mem b ha, rfl⟩
  refine ⟨?_, ?_, fun a ha ↦ ?_, fun a ha _ ↦ ⟨hrunning, rfl, rfl⟩⟩
  · refine h.pstate.imp_right fun ⟨hactive, hrun⟩ ↦ ⟨?_, hrun⟩
    change s.active.modifyHead _ = []
    rw [hactive, modifyHead_nil]
  · change (s.active.modifyHead _).tail = []
    rw [tail_modifyHead]
    exact h.single
  · obtain ⟨b, hb, hresume⟩ := hmem ha
    rw [hresume]
    exact h.saved b hb

theorem Inv.act {act : Act} (henabled : act.Enabled s) (hallowed : DeliveryAllowed syms s act) :
    Inv (act.apply syms s) := by
  cases act with
  | run cpu =>
    exact ⟨h.pstate, h.single, h.saved, fun a ha hreturning ↦
      absurd (h.isReturning ha hreturning) henabled.2⟩
  | signalKill | signal => exact ⟨h.pstate, h.single, h.saved, h.returning⟩
  | switchOut => exact h.switchOut hallowed
  | switchIn => exact h.switchIn henabled hallowed
  | sigreturn => exact h.sigreturn henabled.1
  | loadRegs => exact Inv.idle h.single (.inr henabled.1)
  | exec => exact Inv.idle henabled.2 (.inr henabled.1)

end

theorem SigReachable.inv (h : SigReachable syms (DeliveryAllowed syms) s) : Inv s := by
  refine Reachable.invariant (P := Inv) (fun _ hcreated ↦
    Inv.idle hcreated.1 (.inl hcreated.2.2)) ?_ h
  rintro s s' hinv ⟨act, henabled, hallowed, rfl⟩
  exact hinv.act henabled hallowed

/-- When the last handler returns, the process continues with what it had when the first was
started. -/
theorem signal_transparent (h : SigReachable syms (DeliveryAllowed syms) s)
    (henabled : Act.loadRegs.Enabled s)
    {a : Activation} (hactive : s.active = [a]) : (Act.loadRegs.apply syms s).cpu = a.resume := by
  have ha : a ∈ s.active := hactive ▸ mem_singleton.2 rfl
  obtain ⟨b, hb, hreturning⟩ := henabled.2
  rw [hactive] at hb
  obtain rfl : a = b := Option.some.inj hb
  obtain ⟨hreg, hsp, hpc, hpstate⟩ := h.inv.saved a ha
  obtain ⟨-, hreg', hsp'⟩ := h.inv.returning a ha hreturning
  exact Context.ext (hreg'.trans hreg) (hsp'.trans hsp) hpc
    ((h.inv.el1h_of_active ha).trans hpstate.symm)

/-- Addresses of the labels and functions, and a new user process with handlers for all signals. -/
def someSymbols : Symbols := ⟨0x1000, 0x2000, 0x3000, 0x4000, 0x5000⟩

@[inherit_doc someSymbols]
def someProcess : State where
  pcb := ⟨0, fun _ ↦ 0, fun _ ↦ 0, usrStackEnd, 0, 0x6000, el1hWDaif, fun _ ↦ .user 0x100, []⟩
  running := false
  cpu := ⟨fun _ ↦ 0, 0, 0, 0⟩
  active := []

/-- A handler that is preempted once. -/
theorem signal_transparent_preempted : ∃ s a,
    SigReachable someSymbols (DeliveryAllowed someSymbols) s ∧
    Act.loadRegs.Enabled s ∧ s.active = [a] ∧ a.resume.reg 0 = 7 ∧
    (Act.loadRegs.apply someSymbols s).cpu = a.resume := by
  obtain ⟨s, hreach, henabled, hregs⟩ := SigReachable.exists_run someSymbols
    (DeliveryAllowed someSymbols)
    (⟨rfl, rfl, rfl⟩ : Created someProcess)
    [.switchIn, .run ⟨fun _ ↦ 7, 8, 9, el1hWDaif⟩, .switchOut, .signalKill 10, .switchIn,
      .run ⟨fun _ ↦ 17, 18, 19, el0WDaif⟩, .switchOut, .switchIn, .sigreturn]
    (fun s ↦ Act.loadRegs.Enabled s ∧ s.active.map (·.resume.reg 0) = [7]) (by decide +kernel)
  obtain ⟨a, hactive, ha⟩ := map_eq_singleton_iff.1 hregs
  exact ⟨s, a, hreach, henabled, hactive, ha, signal_transparent hreach henabled hactive⟩

/-- A second signal is delivered while the handler of the first is active: the process continues in
the handler. -/
theorem second_signal_not_transparent : ∃ s a, SigReachable someSymbols (fun _ _ ↦ True) s ∧
    Act.loadRegs.Enabled s ∧ s.active = [a] ∧ a.resume.reg 0 = 7 ∧
    (Act.loadRegs.apply someSymbols s).cpu.reg 0 = 17 := by
  obtain ⟨s, hreach, henabled, hregs, hcpu⟩ := SigReachable.exists_run someSymbols (fun _ _ ↦ True)
    (⟨rfl, rfl, rfl⟩ : Created someProcess)
    [.switchIn, .run ⟨fun _ ↦ 7, 8, 9, el1hWDaif⟩, .switchOut, .signalKill 10, .signalKill 10,
      .switchIn,
      .run ⟨fun _ ↦ 17, 18, 19, el0WDaif⟩, .switchOut, .switchIn, .sigreturn, .loadRegs, .sigreturn]
    (fun s ↦ Act.loadRegs.Enabled s ∧ s.active.map (·.resume.reg 0) = [7] ∧
      (Act.loadRegs.apply someSymbols s).cpu.reg 0 = 17) (by decide +kernel)
  obtain ⟨a, hactive, ha⟩ := map_eq_singleton_iff.1 hregs
  exact ⟨s, a, hreach, henabled, hactive, ha, hcpu⟩

end CapstoneKernel.Sched.Signals
