import CapstoneKernel.Irq.RingBuf
import CapstoneKernel.Lib.Places

/-!
# Processes that wait for the serial port

`uart_read` and `uart_write` of any number of processes, and the interrupts of the serial port with
their tasks, as a machine that goes from one point where interrupts are enabled to the next.  A call
tests its buffer, and waits in a queue if there are too few characters or too little space; the test
and the entry into the queue are separate steps.  A task wakes the first process of the queue of its
interrupt, and only that one.

A process may thus wait for what is already there, or for more than the buffer can hold.  It does
not in the runs in which requests fit into the buffer, the first process of a queue enters it while
its test still holds, and a process is taken off a queue while there is too little for the next one.
-/

namespace CapstoneKernel.Irq.Uart

open Execution Places Function List

/-- The events `R` and `W`. -/
inductive Event
  | r
  | w
  deriving DecidableEq, Repr

/-- A call of `uart_read` with its size, or of `uart_write` with its characters. -/
inductive Request
  | read (size : ℕ)
  | write (buf : List UInt8)
  deriving DecidableEq

/-- What is left of the loop of `uart_read` or `uart_write`. -/
inductive Job
  | reading (left : ℕ) (buf : List UInt8)
  | writing (rest : List UInt8)
  deriving DecidableEq

namespace Request

def event : Request → Event
  | read _ => .r
  | write _ => .w

def size : Request → ℕ
  | read size => size
  | write buf => buf.length

def job : Request → Job
  | read size => .reading size []
  | write buf => .writing buf

end Request

/-- Points of a process. -/
inductive Phase
  | idle
  /-- Before the test of the buffer. -/
  | testing (req : Request)
  /-- In `wait`, before it disables interrupts. -/
  | enqueueing (req : Request)
  /-- In `wait`, on the queue of the event or taken off it. -/
  | waiting (req : Request)
  /-- In the loop of `ring_buf_consume` or `ring_buf_produce`. -/
  | looping (job : Job)
  /-- Before the critical section of these. -/
  | committing (job : Job)
  /-- Before `enable_write_int`. -/
  | enabling (rest : List UInt8)
  deriving DecidableEq

/-- Points of `rx_int_task` and `tx_int_task`. -/
inductive Task (Proc : Type)
  /-- `rx_int_task`, in the loop of `ring_buf_produce` and before its critical section. -/
  | looping (c : UInt8)
  | committing (c : UInt8)
  /-- `tx_int_task`, before it writes the register. -/
  | sending (c : UInt8)
  /-- Before the test of the first process that waits. -/
  | testing (e : Event)
  /-- Before `list_pop`. -/
  | popping (e : Event)
  /-- Before `wait_to_ready`. -/
  | waking (e : Event) (pcb : Proc)
  /-- After these. -/
  | ending (e : Event)
  /-- `tx_int_task`, before `enable_write_int`. -/
  | enabling
  deriving DecidableEq

inductive Fault
  /-- `wait_to_ready(NULL)`. -/
  | nullPointer
  /-- `tx_int` waits for a character with interrupts disabled. -/
  | emptyBuffer
  deriving DecidableEq, Repr

structure State (Proc : Type) where
  rBuf : RingBuf UInt8
  wBuf : RingBuf UInt8
  waitQueue : Event → List Proc
  waitData : Proc → ℕ
  phase : Proc → Phase
  /-- The tasks of interrupts that have not ended, in no particular order. -/
  tasks : List (Task Proc)
  rxEnabled : Bool
  txEnabled : Bool
  /-- The characters that have been written to `AUX_MU_IO_REG`. -/
  sent : List UInt8

variable {Proc : Type}

/-- What `uart_read` and `uart_write` compare with their sizes. -/
def State.available (s : State Proc) : Event → ℕ
  | .r => s.rBuf.numE
  | .w => s.wBuf.remainE

section Run

variable [DecidableEq Proc]

def State.setPhase (s : State Proc) (pcb : Proc) (p : Phase) : State Proc :=
  { s with phase := update s.phase pcb p }

/-- `uart_read` or `uart_write` of a process from a point to the next one. -/
def Phase.run (s : State Proc) (pcb : Proc) : Phase → State Proc
  | .idle => s
  | .testing req =>
    s.setPhase pcb (if s.available req.event < req.size then .enqueueing req else .looping req.job)
  | .enqueueing req =>
    { s.setPhase pcb (.waiting req) with
      waitData := update s.waitData pcb req.size
      waitQueue := update s.waitQueue req.event (s.waitQueue req.event ++ [pcb]) }
  | .waiting _ => s
  | .looping (.reading 0 _) => { s.setPhase pcb .idle with rxEnabled := false }
  | .looping (.reading (left + 1) buf) =>
    if s.rBuf.Empty then s else s.setPhase pcb (.committing (.reading (left + 1) buf))
  | .looping (.writing []) => s.setPhase pcb .idle
  | .looping (.writing (c :: rest)) =>
    if s.wBuf.Full then s else s.setPhase pcb (.committing (.writing (c :: rest)))
  | .committing (.reading left buf) =>
    { s.setPhase pcb (.looping (.reading (left - 1) (buf ++ [s.rBuf.consume.1]))) with rBuf :=
      s.rBuf.consume.2 }
  | .committing (.writing []) => s
  | .committing (.writing (c :: rest)) =>
    { s.setPhase pcb (.enabling rest) with wBuf := s.wBuf.produce c }
  | .enabling rest => { s.setPhase pcb (.looping (.writing rest)) with txEnabled := true }

/-- A task from a point to the next one; `others` are the other tasks. -/
def Task.run (s : State Proc) (others : List (Task Proc)) : Task Proc → Except Fault (State Proc)
  | .looping c => .ok { s with tasks := (if s.rBuf.Full then .looping c else .committing c) ::
    others }
  | .committing c => .ok { s with rBuf := s.rBuf.produce c, tasks := .testing .r :: others }
  | .sending c => .ok { s with sent := s.sent ++ [c], tasks := .testing .w :: others }
  | .testing e =>
    match s.waitQueue e with
    | [] => .ok { s with tasks := .ending e :: others }
    | pcb :: _ =>
      .ok { s with tasks := (if s.waitData pcb ≤
        s.available e then .popping e else .ending e) :: others }
  | .popping e =>
    match s.waitQueue e with
    | [] => .error .nullPointer
    | pcb :: rest =>
      .ok { s with waitQueue := update s.waitQueue e rest, tasks := .waking e pcb ::
        others }
  | .waking e pcb =>
    .ok { s with
      waitData := update s.waitData pcb 0
      phase :=
        match s.phase pcb with
        | .waiting req => update s.phase pcb (.looping req.job)
        | _ => s.phase
      tasks := .ending e :: others }
  | .ending .r => .ok { s with rxEnabled := true, tasks := others }
  | .ending .w => .ok { s with tasks := if s.wBuf.Empty then others else .enabling :: others }
  | .enabling => .ok { s with txEnabled := true, tasks := others }

end Run

def rxInt (s : State Proc) (c : UInt8) : State Proc :=
  { s with rxEnabled := false, tasks := .looping c :: s.tasks }

def txInt (s : State Proc) : Except Fault (State Proc) :=
  if s.wBuf.Empty then .error .emptyBuffer
  else .ok { s with
    txEnabled := false
    wBuf := s.wBuf.consume.2
    tasks := .sending s.wBuf.consume.1 :: s.tasks }

inductive Act (Proc : Type)
  | call (pcb : Proc) (req : Request)
  | step (pcb : Proc)
  | rxInt (c : UInt8)
  | txInt
  | task (i : ℕ)

def Act.run [DecidableEq Proc] (s : State Proc) : Act Proc → Except Fault (State Proc)
  | .call pcb req =>
    .ok { s.setPhase pcb (.testing req) with rxEnabled := s.rxEnabled || req.event = .r }
  | .step pcb => .ok ((s.phase pcb).run s pcb)
  | .rxInt c => .ok (Uart.rxInt s c)
  | .txInt => Uart.txInt s
  | .task i =>
    match s.tasks[i]? with
    | none => .ok s
    | some t => t.run s (s.tasks.eraseIdx i)

/-- Calls are made by processes that are not in one; a process that waits does not go on. -/
def Act.Enabled (s : State Proc) : Act Proc → Prop
  | .call pcb _ => s.phase pcb = .idle
  | .step pcb => s.phase pcb ≠ .idle
  | .rxInt _ => s.rxEnabled = true
  | .txInt => s.txEnabled = true
  | .task i => i < s.tasks.length

/-- The condition for a step of a process: a request that waits fits into the buffer, and is still
to wait if it is the first on its queue; the critical sections find what their loops have seen. -/
def Phase.Allowed (s : State Proc) : Phase → Prop
  | .enqueueing req =>
    req.size ≤ bufLen - 1 ∧ (s.waitQueue req.event = [] → s.available req.event < req.size)
  | .committing (.reading _ _) => ¬ s.rBuf.Empty
  | .committing (.writing _) => ¬ s.wBuf.Full
  | _ => True

/-- The condition for a step of a task: there is too little for the second process of a queue when
the first is taken off. -/
def Task.Allowed (s : State Proc) : Task Proc → Prop
  | .popping e => ∀ pcb ∈ (s.waitQueue e).tail.head?, s.available e < s.waitData pcb
  | _ => True

def WaitsAllowed (s : State Proc) : Act Proc → Prop
  | .step pcb => (s.phase pcb).Allowed s
  | .task i => ∀ t ∈ s.tasks[i]?, t.Allowed s
  | _ => True

/-- The first process of each queue waits for more than there is, and for no more than the buffer
holds. -/
def NoStuckWaiters (s : State Proc) : Prop :=
  ∀ e, ∀ pcb ∈ (s.waitQueue e).head?, s.available e < s.waitData pcb ∧ s.waitData pcb ≤ bufLen - 1

instance [DecidableEq Proc] (s : State Proc) (a : Act Proc) : Decidable (a.Enabled s) := by
  cases a <;> unfold Act.Enabled <;> infer_instance

instance (s : State Proc) (p : Phase) : Decidable (p.Allowed s) := by
  unfold Phase.Allowed
  split <;> infer_instance

instance (s : State Proc) (t : Task Proc) : Decidable (t.Allowed s) := by
  unfold Task.Allowed
  split <;> infer_instance

instance (s : State Proc) (a : Act Proc) : Decidable (WaitsAllowed s a) := by
  unfold WaitsAllowed
  split <;> infer_instance

/-- After `enable_uart_int`. -/
def initial : State Proc where
  rBuf := .init fun _ ↦ 0
  wBuf := .init fun _ ↦ 0
  waitQueue := fun _ ↦ []
  waitData := fun _ ↦ 0
  phase := fun _ ↦ .idle
  tasks := []
  rxEnabled := false
  txEnabled := false
  sent := []

section Reach

variable [DecidableEq Proc]

def UartStep (allowed : State Proc → Act Proc → Prop) (s s' : State Proc) : Prop :=
  ∃ a : Act Proc, a.Enabled s ∧ allowed s a ∧ a.run s = .ok s'

/-- The states of the runs whose acts all meet the condition. -/
def UartReachable (allowed : State Proc → Act Proc → Prop) : State Proc → Prop :=
  Reachable (· = initial) (UartStep allowed)

theorem UartReachable.exists_run (allowed : State Proc → Act Proc → Prop)
    [∀ s a, Decidable (allowed s a)]
    (acts : List (Act Proc)) (Q : State Proc → Prop) [DecidablePred Q]
    (h : ((runAll (fun (s : State Proc) a ↦ Act.Enabled s a ∧ allowed s a) Act.run acts initial).any
      fun s ↦ decide (Q s)) = true) : ∃ s, UartReachable allowed s ∧ Q s := by
  refine Reachable.exists_runAll (· = initial) (UartStep allowed) ?_ rfl acts Q h
  exact fun _ a _ hcan hrun ↦ ⟨a, hcan.1, hcan.2, hrun⟩

end Reach

/-! ## The invariant -/

/-- The queue that a process in this phase is on, or has been taken off. -/
def Phase.home : Phase → Option Event
  | .waiting req => some req.event
  | _ => none

def State.home (s : State Proc) (pcb : Proc) : Option Event := (s.phase pcb).home

/-- The process that a task has taken off a queue. -/
def Task.taken : Task Proc → Option (Event × Proc)
  | .waking e pcb => some (e, pcb)
  | _ => none

/-- The task has still to look at the queue. -/
def Task.WillTest (e : Event) : Task Proc → Prop
  | .sending _ => e = .w
  | .testing e' => e = e'
  | .popping e' => e = e'
  | _ => False

variable [DecidableEq Proc] {s s' : State Proc}

/-- Where the first process of a queue has what it waits for, a task has still to look at the
queue. -/
structure Inv (s : State Proc) : Prop where
  rBounds : s.rBuf.InBounds
  wBounds : s.wBuf.InBounds
  placed : Placed s.waitQueue (s.tasks.filterMap Task.taken) s.home
  fits : ∀ e, ∀ pcb ∈ s.waitQueue e, s.waitData pcb ≤ bufLen - 1
  head : ∀ e, ∀ pcb ∈ (s.waitQueue e).head?, s.available e < s.waitData pcb ∨ ∃ t ∈ s.tasks,
    t.WillTest e

theorem Inv.noStuckWaiters (h : Inv s) (htasks : s.tasks = []) : NoStuckWaiters s := by
  intro e pcb hpcb
  refine ⟨(h.head e pcb hpcb).resolve_right ?_, h.fits e pcb (mem_of_mem_head? hpcb)⟩
  rintro ⟨t, ht, -⟩
  rw [htasks] at ht
  exact absurd ht not_mem_nil

theorem inv_initial : Inv (initial : State Proc) where
  rBounds := RingBuf.init_inBounds _
  wBounds := RingBuf.init_inBounds _
  placed := Placed.empty
  fits := fun _ _ hpcb ↦ absurd hpcb not_mem_nil
  head := fun _ _ hpcb ↦ absurd hpcb nofun

variable {others : List (Task Proc)} {pcb : Proc} {p : Phase}

/-- Some tasks are replaced by others, while the queues stay as they are. -/
theorem Inv.replace (h : Inv s) (old new : List (Task Proc)) (hold : (old ++ others).Perm s.tasks)
    (hnew : s'.tasks = new ++ others) (hqueue : s'.waitQueue = s.waitQueue)
    (hdata : s'.waitData = s.waitData) (hhome : s'.home = s.home) (hr : s'.rBuf.InBounds)
    (hw : s'.wBuf.InBounds) (htaken : new.filterMap Task.taken = old.filterMap Task.taken)
    (hcovers : ∀ e, (∃ t ∈ new, t.WillTest e) ∨ s'.available e ≤ s.available e ∧
      ((∃ t ∈ old, t.WillTest e) → ∀ pcb ∈ (s.waitQueue e).head?, s.available e < s.waitData pcb)) :
        Inv s' := by
  refine ⟨hr, hw, ?_, ?_, ?_⟩
  · rw [hqueue, hhome, hnew, filterMap_append, htaken, ← filterMap_append]
    exact h.placed.congr_taken (hold.symm.filterMap _)
  · rw [hqueue, hdata]
    exact h.fits
  · intro e pcb hpcb
    rw [hqueue] at hpcb
    rw [hdata, hnew]
    obtain ⟨t, ht, htest⟩ | ⟨hle, htested⟩ := hcovers e
    · exact .inr ⟨t, mem_append_left _ ht, htest⟩
    · rcases h.head e pcb hpcb with hless | ⟨t, ht, htest⟩
      · exact .inl (hle.trans_lt hless)
      · rcases mem_append.1 (hold.mem_iff.2 ht) with hmem | hmem
        · exact .inl (hle.trans_lt (htested ⟨t, hmem, htest⟩ pcb hpcb))
        · exact .inr ⟨t, mem_append_right _ hmem, htest⟩

/-- The first process of a queue that neither the replaced task nor the new one looks at. -/
theorem Inv.head_replace (h : Inv s) {e : Event} {t t' : Task Proc}
    (hperm : (t :: others).Perm s.tasks) (ht : ¬ t.WillTest e) (hpcb : pcb ∈ (s.waitQueue e).head?) :
    
    s.available e < s.waitData pcb ∨ ∃ u ∈ t' :: others, u.WillTest e := by
  refine (h.head e pcb hpcb).imp_right ?_
  rintro ⟨u, hu, htest⟩
  rcases mem_cons.1 (hperm.mem_iff.2 hu) with rfl | hmem
  · exact absurd htest ht
  · exact ⟨u, mem_cons_of_mem _ hmem, htest⟩

/-- A process that neither starts nor ends to wait. -/
theorem Inv.process (h : Inv s) (htasks : s'.tasks = s.tasks) (hqueue : s'.waitQueue = s.waitQueue)
    (hdata : s'.waitData = s.waitData) (hhome : s'.home = s.home) (hr : s'.rBuf.InBounds)
    (hw : s'.wBuf.InBounds)
    (havailable : ∀ e, s'.available e ≤ s.available e) : Inv s' := by
  refine h.replace [] [] (List.Perm.refl s.tasks) htasks hqueue hdata hhome hr hw rfl fun e ↦ ?_
  exact .inr ⟨havailable e, fun ⟨_, ht, _⟩ ↦ absurd ht not_mem_nil⟩

/-! ## Steps of processes -/

theorem home_setPhase : (s.setPhase pcb p).home = update s.home pcb p.home := by
  exact comp_update Phase.home s.phase pcb p

theorem home_setPhase_eq (hold : (s.phase pcb).home = none) (hnew : p.home = none) :
    (s.setPhase pcb p).home = s.home := by
  rw [home_setPhase, hnew, ← hold]
  exact update_eq_self pcb s.home

theorem Inv.setPhase (h : Inv s) (hold : (s.phase pcb).home = none) (hnew : p.home = none)
    {rBuf wBuf : RingBuf UInt8} {rxEnabled txEnabled : Bool} (hr : rBuf.InBounds)
    (hw : wBuf.InBounds) (hread : rBuf.numE ≤ s.rBuf.numE) (hwrite : wBuf.remainE ≤ s.wBuf.remainE) :
    
    Inv { s.setPhase pcb p with rBuf := rBuf, wBuf := wBuf, rxEnabled := rxEnabled, txEnabled :=
      txEnabled } := by
  refine h.process rfl rfl rfl (home_setPhase_eq hold hnew) hr hw fun e ↦ ?_
  cases e with
  | r => exact hread
  | w => exact hwrite

/-- A process joins its queue. -/
theorem Inv.enqueue (h : Inv s) {req : Request} (hphase : s.phase pcb = .enqueueing req)
    (hallowed : (Phase.enqueueing req).Allowed s) : Inv ((Phase.enqueueing req).run s pcb) := by
  obtain ⟨hsize, hfirst⟩ := hallowed
  have hhome : s.home pcb = none := by rw [State.home, hphase]; rfl
  have hdata {e : Event} {pcb' : Proc} (hmem : pcb' ∈ s.waitQueue e) :
      update s.waitData pcb req.size pcb' = s.waitData pcb' := by
    refine update_of_ne ?_ _ _
    rintro rfl
    exact absurd (hhome.symm.trans (h.placed.home_of_mem hmem)) nofun
  refine ⟨h.rBounds, h.wBounds, ?_, fun e pcb' hpcb' ↦ ?_, fun e pcb' hpcb' ↦ ?_⟩
  · change Placed _ _ (s.setPhase pcb (.waiting req)).home
    rw [home_setPhase]
    exact h.placed.push hhome req.event
  · change pcb' ∈ update s.waitQueue req.event (s.waitQueue req.event ++ [pcb]) e at hpcb'
    change update s.waitData pcb req.size pcb' ≤ _
    have hcases : pcb' = pcb ∨ pcb' ∈ s.waitQueue e := by
      by_cases he : e = req.event
      · rw [he, update_self, mem_append, mem_singleton] at hpcb'
        exact he ▸ hpcb'.symm
      · rw [update_of_ne he] at hpcb'
        exact .inr hpcb'
    rcases hcases with rfl | hmem
    · rwa [update_self]
    · rw [hdata hmem]
      exact h.fits e pcb' hmem
  · change pcb' ∈ (update s.waitQueue req.event (s.waitQueue req.event ++ [pcb]) e).head? at hpcb'
    change s.available e < update s.waitData pcb req.size pcb' ∨ ∃ t ∈ s.tasks, t.WillTest e
    have hold (hhead : pcb' ∈ (s.waitQueue e).head?) :
        s.available e < update s.waitData pcb req.size pcb' ∨ ∃ t ∈ s.tasks, t.WillTest e := by
      rw [hdata (mem_of_mem_head? hhead)]
      exact h.head e pcb' hhead
    by_cases he : e = req.event
    · subst he
      rw [update_self] at hpcb'
      -- The process is first only on an empty queue.
      cases hqueue : s.waitQueue req.event with
      | nil =>
        rw [hqueue, nil_append] at hpcb'
        obtain rfl : pcb = pcb' := Option.some.inj hpcb'
        rw [update_self]
        exact .inl (hfirst hqueue)
      | cons x rest =>
        rw [hqueue, cons_append] at hpcb'
        refine hold ?_
        rw [hqueue]
        exact hpcb'
    · rw [update_of_ne he] at hpcb'
      exact hold hpcb'

theorem Inv.phase (h : Inv s) (hallowed : (s.phase pcb).Allowed s) :
    Inv ((s.phase pcb).run s pcb) := by
  have hr := h.rBounds
  have hw := h.wBounds
  cases hphase : s.phase pcb with
  | idle | waiting => exact h
  | testing req =>
    refine h.setPhase (by rw [hphase]; rfl) ?_ hr hw le_rfl le_rfl
    split <;> rfl
  | enqueueing req => exact h.enqueue hphase (hphase ▸ hallowed)
  | looping job =>
    have hhome : (s.phase pcb).home = none := by rw [hphase]; rfl
    cases job with
    | reading left buf =>
      cases left with
      | zero => exact h.setPhase hhome rfl hr hw le_rfl le_rfl
      | succ left =>
        rw [Phase.run]
        split
        · exact h
        · exact h.setPhase hhome rfl hr hw le_rfl le_rfl
    | writing rest =>
      cases rest with
      | nil => exact h.setPhase hhome rfl hr hw le_rfl le_rfl
      | cons c rest =>
        rw [Phase.run]
        split
        · exact h
        · exact h.setPhase hhome rfl hr hw le_rfl le_rfl
  | committing job =>
    have hhome : (s.phase pcb).home = none := by rw [hphase]; rfl
    rw [hphase] at hallowed
    cases job with
    | reading left buf =>
      exact h.setPhase hhome rfl hr.consume hw (hr.numE_consume_le hallowed) le_rfl
    | writing rest =>
      cases rest with
      | nil => exact h
      | cons c rest =>
        exact h.setPhase hhome rfl hr (hw.produce c) le_rfl (hw.remainE_produce_le c hallowed)
  | enabling rest => exact h.setPhase (by rw [hphase]; rfl) rfl hr hw le_rfl le_rfl

/-! ## Steps of tasks -/

section Tasks

variable {t : Task Proc} {others : List (Task Proc)}

/-- A task that neither takes a process off a queue nor has done so. -/
theorem Inv.goOn (h : Inv s) (hperm : (t :: others).Perm s.tasks) (new : List (Task Proc))
    {rBuf : RingBuf UInt8} {rxEnabled txEnabled : Bool} {sent : List UInt8} (hr : rBuf.InBounds)
    (htaken : new.filterMap Task.taken = [t].filterMap Task.taken)
    (hcovers : ∀ e, (∃ t' ∈ new, t'.WillTest e) ∨ (e = .r → rBuf = s.rBuf) ∧
      (t.WillTest e → ∀ pcb ∈ (s.waitQueue e).head?, s.available e < s.waitData pcb)) :
    Inv { s with
      rBuf := rBuf, rxEnabled := rxEnabled, txEnabled := txEnabled, sent := sent, tasks :=
        new ++ others } := by
  refine h.replace [t] new hperm rfl rfl rfl rfl hr h.wBounds htaken fun e ↦
    (hcovers e).imp_right ?_
  rintro ⟨hsame, htested⟩
  refine ⟨?_, fun ⟨t', ht', htest⟩ ↦ htested (mem_singleton.1 ht' ▸ htest)⟩
  cases e with
  | r => exact (congrArg RingBuf.numE (hsame rfl)).le
  | w => exact le_rfl

variable {e : Event} {pcb : Proc}

/-- The first process of a queue is taken off. -/
theorem Inv.pop (h : Inv s) {rest : List Proc} (hperm : (.popping e :: others).Perm s.tasks)
    (hallowed : (Task.popping e).Allowed s) (hqueue : s.waitQueue e = pcb :: rest) :
    Inv { s with waitQueue := update s.waitQueue e rest, tasks := .waking e pcb :: others
      } := by
  have hsub {e' : Event} {pcb' : Proc} (hmem : pcb' ∈ update s.waitQueue e rest e') :
      pcb' ∈ s.waitQueue e' := by
    by_cases he : e' = e
    · rw [he, update_self] at hmem
      rw [he, hqueue]
      exact mem_cons_of_mem pcb hmem
    · rwa [update_of_ne he] at hmem
  refine ⟨h.rBounds, h.wBounds, ?_, fun e' pcb' hmem ↦ h.fits e' pcb' (hsub hmem),
    fun e' pcb' hpcb' ↦ ?_⟩
  · have hold := h.placed.congr_taken (hperm.symm.filterMap Task.taken)
    rw [filterMap_cons_none rfl] at hold
    exact hold.pop hqueue
  · change pcb' ∈ (update s.waitQueue e rest e').head? at hpcb'
    change s.available e' < s.waitData pcb' ∨ ∃ t ∈ .waking e pcb :: others, t.WillTest e'
    by_cases he : e' = e
    · subst he
      rw [update_self] at hpcb'
      refine .inl (hallowed pcb' ?_)
      rw [hqueue]
      exact hpcb'
    · rw [update_of_ne he] at hpcb'
      exact h.head_replace hperm he hpcb'

/-- `wait_to_ready` of a process that was taken off its queue. -/
theorem Inv.wake (h : Inv s) (hperm : (.waking e pcb :: others).Perm s.tasks) {req : Request}
    (hphase : s.phase pcb = .waiting req) :
    Inv { s.setPhase pcb (.looping req.job) with
      waitData := update s.waitData pcb 0, tasks := .ending e :: others } := by
  have hold := h.placed.congr_taken (hperm.symm.filterMap Task.taken)
  rw [filterMap_cons_some (f := Task.taken) (b := (e, pcb)) rfl] at hold
  have hdata {e' : Event} {pcb' : Proc} (hmem : pcb' ∈ s.waitQueue e') :
      update s.waitData pcb 0 pcb' = s.waitData pcb' := by
    refine update_of_ne ?_ _ _
    rintro rfl
    exact hold.notMem_of_taken mem_cons_self e' hmem
  refine ⟨h.rBounds, h.wBounds, ?_, fun e' pcb' hmem ↦ ?_, fun e' pcb' hpcb' ↦ ?_⟩
  · change Placed _ _ (s.setPhase pcb (.looping req.job)).home
    rw [home_setPhase]
    exact hold.drop
  · exact (hdata hmem).trans_le (h.fits e' pcb' hmem)
  · change s.available e' < update s.waitData pcb 0 pcb' ∨ ∃ t ∈ .ending e :: others, t.WillTest e'
    rw [hdata (mem_of_mem_head? hpcb')]
    exact h.head_replace hperm id hpcb'

theorem Inv.task (h : Inv s) (hperm : (t :: others).Perm s.tasks) (hallowed : t.Allowed s)
    (hrun : t.run s others = .ok s') : Inv s' := by
  have hr := h.rBounds
  cases t with
  | looping c =>
    cases hrun
    exact h.goOn hperm [_] hr (by split <;> rfl) fun e ↦ .inr ⟨fun _ ↦ rfl, False.elim⟩
  | committing c =>
    cases hrun
    refine h.goOn hperm [_] (hr.produce c) rfl fun e ↦ ?_
    cases e with
    | r => exact .inl ⟨_, mem_singleton.2 rfl, rfl⟩
    | w => exact .inr ⟨nofun, False.elim⟩
  | sending c =>
    cases hrun
    refine h.goOn hperm [_] hr rfl fun e ↦ ?_
    cases e with
    | r => exact .inr ⟨fun _ ↦ rfl, nofun⟩
    | w => exact .inl ⟨_, mem_singleton.2 rfl, rfl⟩
  | testing e =>
    rw [Task.run] at hrun
    split at hrun
    · next hqueue =>
      cases hrun
      refine h.goOn hperm [_] hr rfl fun e' ↦ .inr ⟨fun _ ↦ rfl, ?_⟩
      rintro rfl pcb hpcb
      rw [hqueue] at hpcb
      cases hpcb
    · next pcb rest hqueue =>
      cases hrun
      split
      · refine h.goOn hperm [_] hr rfl fun e' ↦ ?_
        by_cases he : e' = e
        · exact .inl ⟨_, mem_singleton.2 rfl, he⟩
        · exact .inr ⟨fun _ ↦ rfl, fun htest ↦ absurd htest he⟩
      · next hless =>
        refine h.goOn hperm [_] hr rfl fun e' ↦ .inr ⟨fun _ ↦ rfl, ?_⟩
        rintro rfl pcb' hpcb'
        rw [hqueue] at hpcb'
        exact Option.some.inj hpcb' ▸ Nat.lt_of_not_le hless
  | popping e =>
    rw [Task.run] at hrun
    split at hrun
    · cases hrun
    · next pcb rest hqueue =>
      cases hrun
      exact h.pop hperm hallowed hqueue
  | waking e pcb =>
    have hhome : s.home pcb = some e :=
      h.placed.home_of_taken (mem_filterMap.2 ⟨_, hperm.mem_iff.1 mem_cons_self, rfl⟩)
    cases hphase : s.phase pcb with
    | waiting req =>
      cases hrun
      simp only [hphase]
      exact h.wake hperm hphase
    | _ =>
      rw [State.home, hphase] at hhome
      cases hhome
  | ending e =>
    cases e with
    | r =>
      cases hrun
      exact h.goOn hperm [] hr rfl fun e ↦ .inr ⟨fun _ ↦ rfl, False.elim⟩
    | w =>
      cases hrun
      split
      · exact h.goOn hperm [] hr rfl fun e ↦ .inr ⟨fun _ ↦ rfl, False.elim⟩
      · exact h.goOn hperm [_] hr rfl fun e ↦ .inr ⟨fun _ ↦ rfl, False.elim⟩
  | enabling =>
    cases hrun
    exact h.goOn hperm [] hr rfl fun e ↦ .inr ⟨fun _ ↦ rfl, False.elim⟩

end Tasks

/-! ## Runs -/

theorem Inv.act (h : Inv s) {a : Act Proc} (henabled : a.Enabled s) (hallowed : WaitsAllowed s a)
    (hrun : a.run s = .ok s') : Inv s' := by
  cases a with
  | call pcb req =>
    cases hrun
    have hidle : s.phase pcb = .idle := henabled
    exact h.setPhase (by rw [hidle]; rfl) rfl h.rBounds h.wBounds le_rfl le_rfl
  | step pcb =>
    cases hrun
    exact h.phase hallowed
  | rxInt c =>
    cases hrun
    exact h.replace [] [_] (List.Perm.refl s.tasks) rfl rfl rfl rfl h.rBounds h.wBounds rfl
      fun e ↦ .inr ⟨le_rfl, fun ⟨_, ht, _⟩ ↦ absurd ht not_mem_nil⟩
  | txInt =>
    change Uart.txInt s = .ok s' at hrun
    unfold Uart.txInt at hrun
    split at hrun
    · cases hrun
    · cases hrun
      refine h.replace [] [_] (List.Perm.refl s.tasks) rfl rfl rfl rfl h.rBounds h.wBounds.consume
        rfl fun e ↦ ?_
      cases e with
      | r => exact .inr ⟨le_rfl, fun ⟨_, ht, _⟩ ↦ absurd ht not_mem_nil⟩
      | w => exact .inl ⟨_, mem_singleton.2 rfl, rfl⟩
  | task i =>
    have hi : i < s.tasks.length := henabled
    have hsome := getElem?_eq_getElem hi
    rw [Act.run, hsome] at hrun
    exact h.task (getElem_cons_eraseIdx_perm hi) (hallowed _ hsome) hrun

/-- In the runs that meet the condition no process waits for what is there or can never be there, in
any state without an active task. -/
theorem no_stuck_waiters (h : UartReachable WaitsAllowed s) (htasks : s.tasks = []) :
    NoStuckWaiters s := by
  refine Inv.noStuckWaiters ?_ htasks
  refine Reachable.invariant (fun s hs ↦ hs ▸ inv_initial) ?_ h
  rintro s s' hinv ⟨a, henabled, hallowed, hrun⟩
  exact hinv.act henabled hallowed hrun

/-- A process waits for two characters, and one has come. -/
theorem no_stuck_waiters_one_char : ∃ s :
    State Bool, UartReachable WaitsAllowed s ∧ s.waitQueue .r = [true] ∧
    s.waitData true = 2 ∧ s.rBuf.numE = 1 ∧ s.tasks = [] ∧ NoStuckWaiters s := by
  obtain ⟨s, hreach, hqueue, hdata, hnum, htasks⟩ := UartReachable.exists_run WaitsAllowed
    [.call true (.read 2), .step true, .step true, .rxInt 97, .task 0, .task 0, .task 0, .task 0]
    (fun s : State Bool ↦ s.waitQueue .r = [true] ∧ s.waitData true = 2 ∧ s.rBuf.numE = 1 ∧
      s.tasks = [])
    (by decide +kernel)
  exact ⟨s, hreach, hqueue, hdata, hnum, htasks, no_stuck_waiters hreach htasks⟩

/-- `uart_read` of 512 characters waits for more than the buffer can hold. -/
theorem read_of_512_waits_forever : ∃ s :
    State Bool, UartReachable (fun _ _ ↦ True) s ∧ s.tasks = [] ∧
    s.waitQueue .r = [true] ∧ s.waitData true = 512 ∧ ¬ NoStuckWaiters s := by
  obtain ⟨s, hreach, htasks, hqueue, hdata⟩ := UartReachable.exists_run (fun _ _ ↦ True)
    [.call true (.read 512), .step true, .step true]
    (fun s : State Bool ↦ s.tasks = [] ∧ s.waitQueue .r = [true] ∧ s.waitData true = 512)
      (by decide +kernel)
  refine ⟨s, hreach, htasks, hqueue, hdata, fun hstuck ↦ ?_⟩
  have hle := (hstuck .r true (by rw [hqueue]; rfl)).2
  rw [hdata] at hle
  exact absurd hle (by decide)

end CapstoneKernel.Irq.Uart
