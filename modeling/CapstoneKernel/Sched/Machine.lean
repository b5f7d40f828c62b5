import CapstoneKernel.Lib.Execution

/-!
# The scheduler

`process.c`, and `fork`, `exit` and `kill` of `syscall.c`, as a machine that goes from one point
where interrupts are enabled to the next.  Code between `disable_int` and `enable_int` is one step.
A `Frame` is such a point inside a kernel function together with the local variables that are read
after it; the frames of a kernel stack, topmost first, are what is left to do on it.  The empty
stack of frames is code that calls none of these functions.

A timer interrupt calls `schedule` on top of whatever is running, and an interrupt of the serial
port may wake the first process that waits for it.
-/

namespace CapstoneKernel.Sched

open Function

inductive Event
  | proc
  | r
  | w
  deriving DecidableEq, Repr

inductive Stat
  | run
  | ready
  | wait
  | dead
  deriving DecidableEq, Repr

/-- The lists a PCB can be on. -/
inductive Queue
  | ready
  | dead
  | wait (e : Event)
  deriving DecidableEq, Repr

structure Pcb where
  pid : ℕ
  state : Stat
  waitQ : Option Event
  waitData : ℕ
  deriving DecidableEq, Repr

/-- Points inside the kernel functions.  PCBs are named by their addresses. -/
inductive Frame
  /-- `schedule`, after the test of the ready queue. -/
  | schedule
  /-- `switch_to_next`, before `list_pop`. -/
  | switchNext (prev : ℕ)
  /-- `switch_to_next`, after `list_pop`. -/
  | switchTo (prev : ℕ) (next : Option ℕ)
  /-- `switch_to_next`, before `switch_to` exchanges the registers. -/
  | switchRegs (prev next : ℕ)
  /-- `exit` and `wait`, before the test of the ready queue. -/
  | checkReady (pcb : ℕ)
  /-- `exit`, after the test of the state. -/
  | exit (pcb : ℕ)
  /-- `wait`, after `get_current`. -/
  | wait (pcb : ℕ) (e : Event) (data : ℕ)
  /-- `kill`, after the access to `pcb_table`. -/
  | kill (pcb : ℕ)
  /-- `kill_zombies`, before `list_pop`. -/
  | killZombies
  /-- `kill_zombies`, after `list_pop`. -/
  | reap (pcb : ℕ)
  /-- `rx_int_task` and `tx_int_task`, before `list_pop`. -/
  | wakePop (e : Event)
  /-- The same, after `list_pop` and before `wait_to_ready`. -/
  | wakeReady (e : Event) (pcb : ℕ)
  deriving DecidableEq, Repr

inductive Fault
  | nullPointer
  | useAfterFree
  | outOfBounds
  deriving DecidableEq, Repr

def maxProc : ℕ := 1024

structure State where
  /-- The PCBs that have been allocated and not been freed. -/
  pcbs : ℕ → Option Pcb
  pcbTable : ℕ → Option ℕ
  queue : Queue → List ℕ
  current : ℕ
  /-- What is left to do on the stack that is running, and on the stacks of the others. -/
  context : List Frame
  saved : ℕ → List Frame
  lastPid : ℕ
  /-- The address of the PCB that is allocated next. -/
  nextPcb : ℕ
  /-- The children that `fork` has returned to a process, by their pids. -/
  forked : ℕ → ℕ → Option ℕ

namespace State

def pcb (s : State) (id : ℕ) : Except Fault Pcb :=
  match s.pcbs id with
  | none => .error .useAfterFree
  | some p => .ok p

def setPcb (s : State) (id : ℕ) (p : Pcb) : State := { s with pcbs := update s.pcbs id (some p) }

/-- `list_push`. -/
def push (s : State) (q : Queue) (id : ℕ) : State :=
  { s with queue := update s.queue q (s.queue q ++ [id]) }

/-- `list_delete`, which prints a message if the PCB is not on the list. -/
def delete (s : State) (q : Queue) (id : ℕ) : State :=
  { s with queue := update s.queue q ((s.queue q).erase id) }

/-- The list after `list_pop`. -/
def popped (s : State) (q : Queue) : State := { s with queue := update s.queue q (s.queue q).tail }

def resume (s : State) (context : List Frame) : State := { s with context := context }

end State

/-! ## The functions -/

def waitToReady (s : State) (id : ℕ) : Except Fault State := do
  let p ← s.pcb id
  return (s.setPcb id { p with waitData := 0, state := .ready, waitQ := none }).push .ready id

/-- The loop of `list_rm_and_process` with `match_pid` and `wait_to_ready`: the nodes it leaves on
the list, and the state. -/
def rmAndProcess (pid : ℕ) : List ℕ → State → Except Fault (List ℕ × State)
  | [], s => .ok ([], s)
  | id :: rest, s => do
      let p ← s.pcb id
      if p.waitData % 2 ^ 32 = pid then
        let s ← waitToReady s id
        rmAndProcess pid rest s
      else
        let (kept, s) ← rmAndProcess pid rest s
        return (id :: kept, s)

def wakeWaiters (s : State) (pid : ℕ) : Except Fault State := do
  let (kept, s) ← rmAndProcess pid (s.queue (.wait .proc)) s
  return { s with queue := update s.queue (.wait .proc) kept }

/-- What `exit` and `kill` do to a PCB that is on no list. -/
def die (s : State) (id : ℕ) (p : Pcb) : Except Fault State :=
  wakeWaiters ((s.setPcb id { p with state := .dead }).push .dead id) p.pid

/-- The loop of `thread_create` that looks for a pid; `none` is the error. -/
def findPid (s : State) : ℕ → ℕ → Except Fault (Option ℕ)
  | 0, _ => .error .outOfBounds
  | fuel + 1, pid =>
    if maxProc ≤ pid then .error .outOfBounds
    else
      match s.pcbTable pid with
      | none => .ok (some pid)
      | some _ => if pid = s.lastPid then .ok none else findPid s fuel (pid + 1)

/-- The state after `thread_create` has found a pid. -/
def State.created (s : State) (pid : ℕ) : State :=
  { s with
    pcbs := update s.pcbs s.nextPcb (some ⟨pid, .ready, none, 0⟩)
    pcbTable := update s.pcbTable pid (some s.nextPcb)
    queue := update s.queue .ready (s.queue .ready ++ [s.nextPcb])
    saved := update s.saved s.nextPcb []
    lastPid := pid
    nextPcb := s.nextPcb + 1 }

/-- `thread_create`, and the pid it returns. -/
def threadCreate (s : State) : Except Fault (Option ℕ × State) := do
  match ← findPid s (maxProc + 1) ((s.lastPid + 1) % maxProc) with
  | none => return (none, s)
  | some pid => return (some pid, s.created pid)

/-- `fork`.  Without a free pid it reads `pcb_table[-1]`. -/
def fork (s : State) : Except Fault State := do
  match ← threadCreate s with
  | (none, _) => throw .outOfBounds
  | (some pid, s') =>
    return { s' with
      forked := update s'.forked s.current
        (update (s'.forked s.current) pid (some s.nextPcb)) }

def schedule (s : State) : State :=
  if s.queue .ready = [] then s else s.resume (.schedule :: s.context)

def exit (s : State) : Except Fault State := do
  let p ← s.pcb s.current
  return if p.state = .dead then s else s.resume (.exit s.current :: s.context)

def kill (s : State) (pid : ℕ) : Except Fault State :=
  if maxProc ≤ pid then .error .outOfBounds
  else
    match s.pcbTable pid with
    | none => .ok s
    | some id => .ok (s.resume (.kill id :: s.context))

/-- An interrupt after which the first of the waiting processes has what it waits for. -/
def ioInt (s : State) (e : Event) : State :=
  if s.queue (.wait e) = [] then s else s.resume (.wakePop e :: s.context)

/-- The part of `kill` with interrupts disabled. -/
def killBody (s : State) (id : ℕ) : Except Fault State := do
  let p ← s.pcb id
  match p.state with
  | .run => exit s
  | .ready => die (s.delete .ready id) id p
  | .wait =>
    match p.waitQ with
    | none => throw .nullPointer
    | some e => die (s.delete (.wait e) id) id p
  | .dead => return s

/-- The code from a point to the next one; `rest` is below it on the stack. -/
def Frame.run (s : State) (rest : List Frame) : Frame → Except Fault State
  | .schedule => do
      let p ← s.pcb s.current
      return ((s.setPcb s.current { p with state := .ready }).push .ready s.current).resume
        (.switchNext s.current :: rest)
  | .switchNext prev =>
    return (s.popped .ready).resume (.switchTo prev (s.queue .ready).head? :: rest)
  | .switchTo _ none => throw .nullPointer
  | .switchTo prev (some next) => do
      let p ← s.pcb next
      return { (s.setPcb next { p with state := .run }).resume (.switchRegs prev next :: rest) with
        current := next }
  | .switchRegs prev next =>
    return { s.resume (update s.saved prev rest next) with saved := update s.saved prev rest }
  | .checkReady pcb =>
    return s.resume (if s.queue .ready = [] then rest else .switchNext pcb :: rest)
  | .exit pcb => do
      let p ← s.pcb pcb
      die (s.resume (.checkReady pcb :: rest)) pcb p
  | .wait pcb e data => do
      let p ← s.pcb pcb
      return ((s.setPcb pcb { p with waitData := data, state := .wait, waitQ := some e }).push (.wait e) pcb).resume
        (.checkReady pcb :: rest)
  | .kill pcb => killBody (s.resume rest) pcb
  | .killZombies =>
    match (s.queue .dead).head? with
    | none => return s.resume rest
    | some id => return (s.popped .dead).resume (.reap id :: rest)
  | .reap pcb => do
      let p ← s.pcb pcb
      return { s.resume (.killZombies :: rest) with
        pcbs := update s.pcbs pcb none
        pcbTable := update s.pcbTable p.pid none }
  | .wakePop e =>
    match (s.queue (.wait e)).head? with
    | none => throw .nullPointer
    | some id => return (s.popped (.wait e)).resume (.wakeReady e id :: rest)
  | .wakeReady _ pcb => waitToReady (s.resume rest) pcb

/-! ## Steps -/

inductive Act
  /-- The running stack goes on to the next point. -/
  | step
  | timerInt
  | ioInt (e : Event)
  | schedule
  | wait (e : Event) (data : ℕ)
  | exit
  | kill (pid : ℕ)
  | threadCreate
  | fork
  | killZombies

def Act.run (s : State) : Act → Except Fault State
  | .step =>
    match s.context with
    | [] => return s
    | f :: rest => f.run s rest
  | .timerInt => return Sched.schedule s
  | .ioInt e => return Sched.ioInt s e
  | .schedule => return Sched.schedule s
  | .wait e data => return s.resume (.wait s.current e data :: s.context)
  | .exit => Sched.exit s
  | .kill pid => Sched.kill s pid
  | .threadCreate => do
      let (_, s) ← Sched.threadCreate s
      return s
  | .fork => Sched.fork s
  | .killZombies => return s.resume (.killZombies :: s.context)

/-- The PCB of the thread that runs `idle`. -/
def idlePcb : ℕ := 1

/-- Interrupts come at any point, calls from code outside of these functions.  `idle` calls
`kill_zombies` and `schedule` only, and nobody kills it. -/
def Act.Enabled (s : State) : Act → Prop
  | .step => s.context ≠ []
  | .timerInt => True
  | .ioInt e => e ≠ .proc
  | .schedule => s.context = []
  | .killZombies => s.context = [] ∧ s.current = idlePcb
  | .kill pid => s.context = [] ∧ s.current ≠ idlePcb ∧ s.pcbTable pid ≠ some idlePcb
  | .wait _ _ => s.context = [] ∧ s.current ≠ idlePcb
  | .exit => s.context = [] ∧ s.current ≠ idlePcb
  | .threadCreate => s.context = [] ∧ s.current ≠ idlePcb
  | .fork => s.context = [] ∧ s.current ≠ idlePcb

/-- After `init_pcb`: the shell runs. -/
def initPcb : State where
  pcbs := fun id ↦ if id = 0 then some ⟨0, .run, none, 0⟩ else none
  pcbTable := fun pid ↦ if pid = 0 then some 0 else none
  queue := fun _ ↦ []
  current := 0
  context := []
  saved := fun _ ↦ []
  lastPid := 0
  nextPcb := 1
  forked := fun _ _ ↦ none

/-- The state in which `main` enters its loop, after `thread_create(idle, NULL)`. -/
def boot : Except Fault State := (threadCreate initPcb).map Prod.snd

end CapstoneKernel.Sched
