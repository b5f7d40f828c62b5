import CapstoneKernel.Lib.Execution

/-!
# Interrupts

The interrupt routines and the task queue of `interrupt.c`, with the serial port of `uart.c`, as a
machine that goes from one point where interrupts are enabled to the next.  Code between them is one
step.  The routines run with interrupts disabled up to the handler that `process_task` calls, so the
points of an interrupt routine are those of the handlers, and `schedule` at the end of `timer_int`.

Every process has a kernel stack; the frames of a stack, topmost first, are the points at which it
has been interrupted.  Hardware may raise an interrupt whenever its enable bit is set.
-/

namespace CapstoneKernel.Irq

open List

/-! ## Data -/

/-- `enum prio`. -/
def writePrio : ℕ := 0

@[inherit_doc writePrio]
def timerPrio : ℕ := 1

@[inherit_doc writePrio]
def readPrio : ℕ := 2

@[inherit_doc writePrio]
def initPrio : ℕ := 2 ^ 31 - 1

def bufLen : ℕ := 512

/-- The callbacks of `add_timer`. -/
inductive TimerHandler
  | elaspedTime
  | printMsg
  deriving DecidableEq, Repr

/-- `struct timer_queue_element`, with the sum of its two numbers of ticks. -/
structure Timer where
  handler : TimerHandler
  expires : ℕ
  deriving DecidableEq, Repr

/-- The local variable of an interrupt routine whose address it passes to `add_task`. -/
inductive Local
  | timerData (timer : Timer)
  | writeData (c : UInt8)
  | readData (c : UInt8)
  deriving DecidableEq

/-- A call of `timer_int`, `tx_int` or `rx_int`, with its local variable. -/
structure Activation where
  id : ℕ
  data : Local
  deriving DecidableEq

inductive Handler
  | processTimer
  | txIntTask
  | rxIntTask
  deriving DecidableEq, Repr

/-- `struct task_queue_element`; `data` is the call whose local variable it points to. -/
structure Task where
  handler : Handler
  priority : ℕ
  data : ℕ
  deriving DecidableEq, Repr

/-- The points of a handler: before its work, before it enables its interrupt again, and before
`process_task` disables interrupts. -/
inductive Point
  | start
  | enabling
  | done
  deriving DecidableEq, Repr

inductive Frame
  /-- `uart_write_char`, between `ring_buf_produce` and `enable_write_int`. -/
  | uartWriteChar
  /-- `process_task` in the given routine, called by `add_task` or by the routine itself, while it
  runs the handler of a task; `tmp` is the priority it restores. -/
  | task (a : Activation) (fromAdd : Bool) (t : Task) (tmp : ℕ) (point : Point)
  /-- `timer_int`, in `schedule`. -/
  | scheduling (a : Activation)
  deriving DecidableEq

inductive Fault
  /-- `ring_buf_consume` waits for an element with interrupts disabled. -/
  | emptyBuffer
  /-- `add_task` waits for space with interrupts disabled. -/
  | fullQueue
  /-- A handler reads a local variable of a call that has returned. -/
  | danglingPointer
  deriving DecidableEq, Repr

structure State where
  /-- The kernel stack of the running process, and those of the others. -/
  stack : List Frame
  others : List (List Frame)
  taskQueue : List Task
  timerQueue : List Timer
  curPriority : ℕ
  needSchedule : Bool
  txEnabled : Bool
  rxEnabled : Bool
  timerEnabled : Bool
  wBuf : List UInt8
  rBuf : List UInt8
  /-- The characters that have been written to `AUX_MU_IO_REG`. -/
  sent : List UInt8
  /-- The registers `cntpct_el0` and `cntfrq_el0`. -/
  count : ℕ
  freq : ℕ
  nextId : ℕ
  /-- The routines whose tasks have been started and not been finished, latest first, with the
  priorities of the tasks. -/
  active : List (ℕ × ℕ)

/-! ## The queues -/

section Queue

variable {α : Type} (key : α → ℕ) (x : α)

/-- The loop of `add_task` and `add_timer`, which moves the new element forward from the end; the
list is in reverse. -/
def moveForward : List α → List α
  | [] => [x]
  | y :: rest => if key x < key y then y :: moveForward rest else x :: y :: rest

def insertByKey (queue : List α) : List α := (moveForward key x queue.reverse).reverse

end Queue

/-- `add_timer`. -/
def addTimer (s : State) (handler : TimerHandler) (duration : ℕ) : State :=
  { s with timerQueue := insertByKey Timer.expires ⟨handler, s.count + duration⟩ s.timerQueue }

/-! ## `process_task` -/

/-- The test and the `ring_buf_consume` of `process_task(NULL)`. -/
def takeTask (s : State) : Option (Task × State) :=
  match s.taskQueue with
  | [] => none
  | t :: rest => if s.curPriority < t.priority then none else some (t, { s with taskQueue := rest })

/-- `process_task` up to the handler. -/
def startTask (s : State) (a : Activation) (fromAdd : Bool) (t : Task) : State :=
  { s with
    curPriority := t.priority
    stack := .task a fromAdd t s.curPriority .start :: s.stack
    active := (a.id, t.priority) :: s.active }

/-- The rest of an interrupt routine after its tasks. -/
def endRoutine (s : State) (a : Activation) : State :=
  match a.data with
  | .timerData _ =>
    if s.needSchedule then { s with needSchedule := false, stack := .scheduling a :: s.stack } else s
  | _ => s

/-- An interrupt routine from its call of `process_task(NULL)` on. -/
def drain (s : State) (a : Activation) : State :=
  match takeTask s with
  | some (t, s') => startTask s' a false t
  | none => endRoutine s a

/-- `process_task` from its call of itself on. -/
def processNext (s : State) (a : Activation) (fromAdd : Bool) : State :=
  match takeTask s with
  | some (t, s') => startTask s' a fromAdd t
  | none => if fromAdd then drain s a else endRoutine s a

/-- An interrupt routine from its call of `add_task` on. -/
def addTask (s : State) (a : Activation) (t : Task) : Except Fault State :=
  if t.priority < s.curPriority then .ok (startTask s a true t)
  else if bufLen - 1 ≤ s.taskQueue.length then .error .fullQueue
  else .ok (drain { s with taskQueue := insertByKey Task.priority t s.taskQueue } a)

/-! ## The interrupt routines -/

def txInt (s : State) : Except Fault State :=
  match s.wBuf with
  | [] => .error .emptyBuffer
  | c :: rest =>
    addTask { s with txEnabled := false, wBuf := rest, nextId := s.nextId + 1 } ⟨s.nextId, .writeData c⟩
      ⟨.txIntTask, writePrio, s.nextId⟩

def rxInt (s : State) (c : UInt8) : Except Fault State :=
  addTask { s with rxEnabled := false, nextId := s.nextId + 1 } ⟨s.nextId, .readData c⟩
    ⟨.rxIntTask, readPrio, s.nextId⟩

def timerInt (s : State) : Except Fault State :=
  match s.timerQueue with
  | [] => .ok { s with timerEnabled := false }
  | timer :: rest =>
    addTask { s with timerEnabled := false, timerQueue := rest, nextId := s.nextId + 1 }
      ⟨s.nextId, .timerData timer⟩ ⟨.processTimer, timerPrio, s.nextId⟩

/-! ## The handlers -/

/-- The call of an interrupt routine that a frame belongs to. -/
def Frame.activation : Frame → Option Activation
  | .uartWriteChar => none
  | .task a _ _ _ _ => some a
  | .scheduling a => some a

/-- The frames of all kernel stacks. -/
def State.frames (s : State) : List Frame := s.stack ++ s.others.flatten

/-- The calls of interrupt routines that have not returned. -/
def State.activations (s : State) : List Activation := s.frames.filterMap Frame.activation

/-- The variable that the data pointer of a task points to. -/
def State.deref (s : State) (data : ℕ) : Except Fault Local :=
  match s.activations.find? (·.id = data) with
  | none => .error .danglingPointer
  | some a => .ok a.data

/-- The work of a handler before it enables its interrupt again, and the point it gets to.
`rx_int_task` waits at its start while the buffer is full.  A handler that is given the variable of
another routine has a stale pointer. -/
def Handler.work (s : State) : Handler → Local → Except Fault (State × Point)
  | .txIntTask, .writeData c =>
    .ok ({ s with sent := s.sent ++ [c] }, if s.wBuf = [] then .done else .enabling)
  | .rxIntTask, .readData c =>
    .ok (if bufLen - 1 ≤ s.rBuf.length then (s, .start) else ({ s with rBuf := s.rBuf ++ [c] }, .enabling))
  | .processTimer, .timerData ⟨.elaspedTime, _⟩ =>
    .ok ({ addTimer s .elaspedTime (s.freq >>> 5) with needSchedule := true }, .enabling)
  | .processTimer, .timerData ⟨.printMsg, _⟩ => .ok (s, .enabling)
  | _, _ => .error .danglingPointer

def Handler.enable (s : State) : Handler → State
  | .txIntTask => { s with txEnabled := true }
  | .rxIntTask => { s with rxEnabled := true }
  | .processTimer => { s with timerEnabled := true }

/-- The code from a point to the next one; `rest` is below it on the stack. -/
def Frame.run (s : State) (rest : List Frame) : Frame → Except Fault State
  | .uartWriteChar => .ok { s with txEnabled := true, stack := rest }
  | .task a fromAdd t tmp .start => do
      let data ← s.deref t.data
      let (s, point) ← t.handler.work s data
      return { s with stack := .task a fromAdd t tmp point :: rest }
  | .task a fromAdd t tmp .enabling =>
    .ok { t.handler.enable s with stack := .task a fromAdd t tmp .done :: rest }
  | .task a fromAdd t tmp .done =>
    .ok (processNext { s with
      curPriority := tmp, stack := rest, active := s.active.erase (a.id, t.priority) } a fromAdd)
  | .scheduling _ => .ok { s with stack := rest }

/-! ## Steps -/

inductive Act
  /-- The running process goes on to the next point. -/
  | step
  | txInt
  | rxInt (c : UInt8)
  | timerInt
  /-- A process, or a timer that prints, calls `uart_write_char`. -/
  | writeChar (c : UInt8)
  /-- `uart_read` and `uart_read_string` of a process. -/
  | enableRead
  | disableRead
  | readChar
  /-- `add_timer` of a process. -/
  | addTimer (handler : TimerHandler) (duration : ℕ)
  /-- `schedule` runs another process. -/
  | switch (other : ℕ)
  | threadCreate
  | tick

def Act.run (s : State) : Act → Except Fault State
  | .step =>
    match s.stack with
    | [] => .ok s
    | f :: rest => f.run s rest
  | .txInt => Irq.txInt s
  | .rxInt c => Irq.rxInt s c
  | .timerInt => Irq.timerInt s
  | .writeChar c => .ok { s with wBuf := s.wBuf ++ [c], stack := .uartWriteChar :: s.stack }
  | .enableRead => .ok { s with rxEnabled := true }
  | .disableRead => .ok { s with rxEnabled := false }
  | .readChar => .ok { s with rBuf := s.rBuf.tail }
  | .addTimer handler duration => .ok (Irq.addTimer s handler duration)
  | .switch other => .ok { s with stack := s.others.getD other [], others := s.others.set other s.stack }
  | .threadCreate => .ok { s with others := s.others ++ [[]] }
  | .tick => .ok { s with count := s.count + 1 }

/-- Code of a timer that may print. -/
def Frame.Prints : Frame → Prop
  | .task _ _ t _ .start => t.handler = .processTimer
  | _ => False

def Frame.Schedules : Frame → Prop
  | .scheduling _ => True
  | _ => False

/-- Interrupts come at any point if they are enabled; the empty stack is code of a process. -/
def Act.Enabled (s : State) : Act → Prop
  | .step => s.stack ≠ []
  | .txInt => s.txEnabled = true
  | .rxInt _ => s.rxEnabled = true
  | .timerInt => s.timerEnabled = true
  | .writeChar _ => s.wBuf.length < bufLen - 1 ∧ ∀ f ∈ s.stack.head?, f.Prints
  | .readChar => s.stack = [] ∧ s.rBuf ≠ []
  | .switch other => other < s.others.length ∧ ∀ f ∈ s.stack.head?, f.Schedules
  | .tick => True
  | .enableRead | .disableRead | .addTimer _ _ | .threadCreate => s.stack = []

instance (f : Frame) : Decidable f.Prints := by
  unfold Frame.Prints
  split <;> infer_instance

instance (f : Frame) : Decidable f.Schedules := by
  unfold Frame.Schedules
  split <;> infer_instance

instance (s : State) (a : Act) : Decidable (a.Enabled s) := by
  cases a <;> unfold Act.Enabled <;> infer_instance

/-- After `enable_uart_int` and `core_timer_enable`, on a machine with the given timer frequency. -/
def boot (freq : ℕ) : State where
  stack := []
  others := []
  taskQueue := []
  timerQueue := [⟨.elaspedTime, freq / 1000 * 10⟩]
  curPriority := initPrio
  needSchedule := false
  txEnabled := false
  rxEnabled := false
  timerEnabled := true
  wBuf := []
  rBuf := []
  sent := []
  count := 0
  freq := freq
  nextId := 0
  active := []

/-- One enabled act that meets the condition. -/
def IrqStep (allowed : State → Act → Prop) (s s' : State) : Prop :=
  ∃ a : Act, a.Enabled s ∧ allowed s a ∧ a.run s = .ok s'

/-- The states of the runs whose acts all meet the condition. -/
def IrqReachable (allowed : State → Act → Prop) : State → Prop :=
  Execution.Reachable (fun s ↦ ∃ freq, s = boot freq) (IrqStep allowed)

/-- What every act keeps holds along the runs. -/
theorem IrqReachable.invariant {allowed : State → Act → Prop} {P : State → Prop}
    (hboot : ∀ freq, P (boot freq))
    (hact : ∀ s a s', P s → Act.Enabled s a → allowed s a → a.run s = .ok s' → P s') {s : State}
    (h : IrqReachable allowed s) : P s := by
  refine Execution.Reachable.invariant ?_ ?_ h
  · rintro s ⟨freq, rfl⟩
    exact hboot freq
  · rintro s s' hs ⟨a, henabled, hallowed, hrun⟩
    exact hact s a s' hs henabled hallowed hrun

/-- A state of a run from boot, found by evaluation. -/
theorem IrqReachable.exists_run (allowed : State → Act → Prop) [∀ s a, Decidable (allowed s a)]
    (acts : List Act) (Q : State → Prop) [DecidablePred Q]
    (h : ((Execution.runAll (fun s a ↦ Act.Enabled s a ∧ allowed s a) Act.run acts (boot 19200000)).any
      fun s ↦ decide (Q s)) = true) : ∃ s, IrqReachable allowed s ∧ Q s := by
  refine Execution.Reachable.exists_runAll _ (IrqStep allowed) ?_ ⟨_, rfl⟩ acts Q h
  exact fun _ a _ hcan hrun ↦ ⟨a, hcan.1, hcan.2, hrun⟩

/-- The priority of the task of an interrupt. -/
def Act.priority? : Act → Option ℕ
  | .txInt => some writePrio
  | .rxInt _ => some readPrio
  | .timerInt => some timerPrio
  | _ => none

/-! ## The parts of a routine -/

section Cases

variable {s s' : State} {a : Activation} {P : State → Prop} {t : Task} {fromAdd : Bool}

/-- What `process_task(NULL)` can find in the queue. -/
theorem takeTask_eq_some (h : takeTask s = some (t, s')) :
    ∃ rest, s.taskQueue = t :: rest ∧ t.priority ≤ s.curPriority ∧ s' = { s with taskQueue := rest } := by
  unfold takeTask at h
  split at h
  · cases h
  · next u rest hqueue =>
    split at h
    · cases h
    · next hle =>
      cases h
      exact ⟨rest, hqueue, by omega, rfl⟩

theorem takeTask_eq_none (h : takeTask s = none) : ∀ t ∈ s.taskQueue.head?, s.curPriority < t.priority := by
  unfold takeTask at h
  split at h
  · next hqueue =>
    rw [hqueue]
    exact fun _ ht ↦ absurd ht nofun
  · next u rest hqueue =>
    split at h
    · next hlt =>
      rw [hqueue]
      rintro t ht
      exact Option.some.inj ht ▸ hlt
    · cases h

/-- A routine starts a task of the queue, ends, or goes on in `schedule`. -/
theorem drain_cases (hstart : ∀ t s', takeTask s = some (t, s') → P (startTask s' a false t))
    (hend : takeTask s = none → P s)
    (hschedule : takeTask s = none → P { s with needSchedule := false, stack := .scheduling a :: s.stack }) :
    P (drain s a) := by
  unfold drain
  split
  · next t s' heq => exact hstart t s' heq
  · next heq =>
    unfold endRoutine
    split
    · split
      · exact hschedule heq
      · exact hend heq
    · exact hend heq

theorem processNext_cases
    (hstart : ∀ t s' fromAdd, takeTask s = some (t, s') → P (startTask s' a fromAdd t))
    (hend : takeTask s = none → P s)
    (hschedule : takeTask s = none → P { s with needSchedule := false, stack := .scheduling a :: s.stack }) :
    
    P (processNext s a fromAdd) := by
  have hdrain := drain_cases (a := a) (fun t s' ↦ hstart t s' false) hend hschedule
  unfold processNext
  split
  · next t s' heq => exact hstart t s' fromAdd heq
  · next heq =>
    split
    · exact hdrain
    · rwa [drain, heq] at hdrain

/-- A routine runs its task at once or queues it. -/
theorem addTask_cases (h : addTask s a t = .ok s')
    (hstart : t.priority < s.curPriority → P (startTask s a true t))
    (hqueue : s.curPriority ≤ t.priority →
      P (drain { s with taskQueue := insertByKey Task.priority t s.taskQueue } a)) : P s' := by
  unfold addTask at h
  split at h
  · next hlt => exact Except.ok.inj h ▸ hstart hlt
  · next hge =>
    split at h
    · cases h
    · exact Except.ok.inj h ▸ hqueue (by omega)

/-- An interrupt routine hands its local variable over to a task of its priority; `timer_int`
returns if there is no timer. -/
theorem interrupt_cases {act : Act} {priority : ℕ} (hact : act.priority? = some priority)
    (hrun : act.run s = .ok s') :
    (act = .timerInt ∧ s' = { s with timerEnabled := false }) ∨
      ∃ tx rx timer wBuf timers data handler,
        addTask { s with
            txEnabled := tx, rxEnabled := rx, timerEnabled := timer, wBuf := wBuf, timerQueue :=
              timers
            nextId := s.nextId + 1 } ⟨s.nextId, data⟩ ⟨handler, priority, s.nextId⟩ = .ok s' ∧
          (act = .txInt → tx = false ∧ ∃ c, s.wBuf = c :: wBuf) ∧
          (act ≠ .txInt → tx = s.txEnabled ∧ wBuf = s.wBuf) := by
  cases act with
  | txInt =>
    cases hact
    cases hbuf : s.wBuf with
    | nil =>
      rw [Act.run, txInt, hbuf] at hrun
      cases hrun
    | cons c rest =>
      simp only [Act.run, txInt, hbuf] at hrun
      exact .inr ⟨_, _, _, _, _, _, _, hrun, fun _ ↦ ⟨rfl, c, rfl⟩, fun hne ↦ absurd rfl hne⟩
  | rxInt c =>
    cases hact
    exact .inr ⟨_, _, _, _, _, _, _, hrun, nofun, fun _ ↦ ⟨rfl, rfl⟩⟩
  | timerInt =>
    cases hact
    cases hqueue : s.timerQueue with
    | nil =>
      simp only [Act.run, timerInt, hqueue] at hrun
      exact .inl ⟨rfl, hqueue ▸ (Except.ok.inj hrun).symm⟩
    | cons timer rest =>
      simp only [Act.run, timerInt, hqueue] at hrun
      exact .inr ⟨_, _, _, _, _, _, _, hrun, nofun, fun _ ↦ ⟨rfl, rfl⟩⟩
  | _ => cases hact

theorem enable_cases (handler : Handler) (s : State) :
    ∃ tx rx timer, handler.enable s = { s with txEnabled := tx, rxEnabled := rx, timerEnabled := timer } ∧
      (handler ≠ .txIntTask → tx = s.txEnabled) := by
  cases handler with
  | txIntTask => exact ⟨_, _, _, rfl, fun hne ↦ absurd rfl hne⟩
  | rxIntTask | processTimer => exact ⟨_, _, _, rfl, fun _ ↦ rfl⟩

/-- The work of a handler changes none of the stacks, and neither the task queue nor the buffer of
the transmitter. -/
theorem work_cases {handler : Handler} {data : Local} {point : Point}
    (h : handler.work s data = .ok (s', point)) :
    ∃ timers needSchedule rBuf sent,
      s' = { s with timerQueue := timers, needSchedule := needSchedule, rBuf := rBuf, sent := sent } ∧
        (handler = .txIntTask → point = if s.wBuf = [] then .done else .enabling) := by
  unfold Handler.work at h
  split at h
  · cases h
    exact ⟨_, _, _, _, rfl, fun _ ↦ rfl⟩
  · have h := Except.ok.inj h
    split at h <;> obtain ⟨rfl, rfl⟩ := Prod.mk.inj h <;> exact ⟨_, _, _, _, rfl, nofun⟩
  · cases h
    exact ⟨_, _, _, _, rfl, nofun⟩
  · cases h
    exact ⟨_, _, _, _, rfl, nofun⟩
  · cases h

/-- The work of a task, as a step of its frame. -/
theorem run_start_cases {a : Activation} {tmp : ℕ} {rest : List Frame}
    (hrun : (Frame.task a fromAdd t tmp .start).run s rest = .ok s') :
    ∃ timers needSchedule rBuf sent point,
      s' = { s with
        timerQueue := timers, needSchedule := needSchedule, rBuf := rBuf, sent := sent,
        stack := .task a fromAdd t tmp point :: rest } ∧
      (t.handler = .txIntTask → point = if s.wBuf = [] then .done else .enabling) := by
  obtain ⟨data, -, hrun⟩ := Execution.of_bind_eq_ok hrun
  obtain ⟨⟨s₁, point⟩, hwork, hrun⟩ := Execution.of_bind_eq_ok hrun
  obtain ⟨timers, needSchedule, rBuf, sent, rfl, hpoint⟩ := work_cases hwork
  exact ⟨timers, needSchedule, rBuf, sent, point, (Except.ok.inj hrun).symm, hpoint⟩

/-- Running another process exchanges two of the stacks. -/
theorem mem_frames_switch {other : ℕ} {f : Frame}
    (h : f ∈ s.others.getD other [] ++ (s.others.set other s.stack).flatten) : f ∈ s.frames := by
  rw [State.frames, mem_append]
  rcases mem_append.1 h with h | h
  · rw [getD_eq_getElem?_getD] at h
    cases hget : s.others[other]? with
    | none =>
      rw [hget] at h
      exact absurd h not_mem_nil
    | some frames =>
      rw [hget] at h
      exact .inr (mem_flatten.2 ⟨frames, mem_of_getElem? hget, h⟩)
  · obtain ⟨frames, hframes, hf⟩ := mem_flatten.1 h
    rcases mem_or_eq_of_mem_set hframes with hframes | rfl
    · exact .inr (mem_flatten.2 ⟨frames, hframes, hf⟩)
    · exact .inl hf

end Cases

end CapstoneKernel.Irq
