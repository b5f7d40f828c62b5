import CapstoneKernel.Irq.Machine

/-!
# Tasks that outlive their routines

`add_task` stores the address of a local variable of the interrupt routine.  If the task is less
urgent than the one that runs, it stays in the queue when the routine returns, and is run later with
a pointer to a variable that is gone.  In runs in which no interrupt is less urgent than the task
it interrupts, every task is run by its own routine.
-/

namespace CapstoneKernel.Irq

open Execution List

/-- The data pointers of the tasks that run or wait point to variables of routines that have not
returned. -/
structure DataAlive (s : State) : Prop where
  running : ∀ a fromAdd t tmp point, .task a fromAdd t tmp point ∈ s.frames →
    ∃ owner ∈ s.activations, owner.id = t.data
  queued : ∀ t ∈ s.taskQueue, ∃ owner ∈ s.activations, owner.id = t.data

/-- No interrupt is less urgent than the task that runs. -/
def DeferAllowed (s : State) (act : Act) : Prop := ∀ priority ∈ act.priority?, priority ≤ s.curPriority
deriving Decidable

/-- The task of a frame is that of its own routine. -/
def Frame.RunsOwn : Frame → Prop
  | .task a _ t _ _ => t.data = a.id
  | _ => True

/-- No task waits, and every routine runs its own. -/
structure OwnTasks (s : State) : Prop where
  queue : s.taskQueue = []
  frames : ∀ f ∈ s.frames, f.RunsOwn

section Step

variable {s s' : State} {a : Activation}

section

variable (h : OwnTasks s)
include h

theorem OwnTasks.congr (hqueue : s'.taskQueue = s.taskQueue)
    (hframes : ∀ f ∈ s'.frames, f ∈ s.frames) : OwnTasks s' :=
  ⟨hqueue.trans h.queue, fun f hf ↦ h.frames f (hframes f hf)⟩

variable {f : Frame} {rest : List Frame} {act : Act}

theorem OwnTasks.cons (hstack : s'.stack = f :: rest) (hothers : s'.others = s.others)
    (hqueue : s'.taskQueue = s.taskQueue) (hf : f.RunsOwn) (hrest : ∀ g ∈ rest, g ∈ s.stack) :
    OwnTasks s' := by
  refine ⟨hqueue.trans h.queue, fun g hg ↦ ?_⟩
  rw [State.frames, hstack, hothers, cons_append] at hg
  rcases mem_cons.1 hg with rfl | hg
  · exact hf
  · refine h.frames g ?_
    rcases mem_append.1 hg with hg | hg
    · exact mem_append_left _ (hrest g hg)
    · exact mem_append_right _ hg

theorem OwnTasks.processNext {fromAdd : Bool} : OwnTasks (processNext s a fromAdd) := by
  refine processNext_cases (fun t t₀ _ htake ↦ ?_) (fun _ ↦ h) fun _ ↦ ?_
  · obtain ⟨rest, hqueue, -⟩ := takeTask_eq_some htake
    rw [h.queue] at hqueue
    cases hqueue
  · exact h.cons rfl rfl rfl trivial fun _ hg ↦ hg

theorem OwnTasks.addTask {t : Task} (hown : t.data = a.id) (hle : t.priority ≤ s.curPriority)
    (hadd : addTask s a t = .ok s') : OwnTasks s' := by
  have hqueue : insertByKey Task.priority t s.taskQueue = [t] := by rw [h.queue]; rfl
  refine addTask_cases hadd (fun _ ↦ h.cons rfl rfl rfl hown fun _ hg ↦ hg) fun _ ↦ ?_
  rw [hqueue]
  -- the routine finds its own task in the queue, which is as urgent as the one it interrupts
  have hnone (htake : takeTask { s with taskQueue := [t] } = none) : False :=
    absurd (takeTask_eq_none htake t rfl) (Nat.not_lt.2 hle)
  refine drain_cases (fun u t₀ htake ↦ ?_) (fun htake ↦ (hnone htake).elim) fun htake ↦
    (hnone htake).elim
  obtain ⟨rest, heq, -, rfl⟩ := takeTask_eq_some htake
  obtain ⟨rfl, rfl⟩ := List.cons.inj heq
  exact h.cons rfl rfl h.queue.symm hown fun _ hg ↦ hg

theorem OwnTasks.frame (hstack : s.stack = f :: rest) (hrun : f.run s rest = .ok s') :
    OwnTasks s' := by
  have hrest (g : Frame) (hg : g ∈ rest) : g ∈ s.stack := hstack ▸ mem_cons_of_mem f hg
  have hframes (g : Frame) (hg : g ∈ rest ++ s.others.flatten) : g ∈ s.frames := by
    rw [State.frames, hstack, cons_append]
    exact mem_cons_of_mem f hg
  have hown : f.RunsOwn := h.frames f (by rw [State.frames, hstack]; exact mem_cons_self)
  cases f with
  | uartWriteChar | scheduling =>
    cases hrun
    exact h.congr rfl hframes
  | task a fromAdd t tmp point =>
    cases point with
    | start =>
      obtain ⟨timers, needSchedule, rBuf, sent, point, rfl, -⟩ := run_start_cases hrun
      exact h.cons rfl rfl rfl hown hrest
    | enabling =>
      obtain ⟨tx, rx, timer, heq, -⟩ := enable_cases t.handler s
      cases hrun
      rw [heq]
      exact h.cons rfl rfl rfl hown hrest
    | done =>
      cases hrun
      have hpopped : OwnTasks { s with
          curPriority := tmp, stack := rest, active := s.active.erase (a.id, t.priority) } :=
        h.congr rfl hframes
      exact hpopped.processNext

theorem OwnTasks.interrupt {priority : ℕ} (hact : act.priority? = some priority)
    (hle : priority ≤ s.curPriority) (hrun : act.run s = .ok s') : OwnTasks s' := by
  obtain ⟨-, rfl⟩ | ⟨tx, rx, timer, wBuf, timers, data, handler, hadd, -⟩ :=
    interrupt_cases hact hrun
  · exact h.congr rfl fun _ hf ↦ hf
  · refine OwnTasks.addTask ?_ rfl hle hadd
    exact h.congr rfl fun _ hf ↦ hf

theorem OwnTasks.step (hallowed : DeferAllowed s act) (hrun : act.run s = .ok s') :
    OwnTasks s' := by
  cases act with
  | step =>
    cases hstack : s.stack with
    | nil =>
      rw [Act.run, hstack] at hrun
      exact Except.ok.inj hrun ▸ h
    | cons f rest =>
      rw [Act.run, hstack] at hrun
      exact h.frame hstack hrun
  | txInt | rxInt | timerInt => exact h.interrupt rfl (hallowed _ rfl) hrun
  | writeChar c =>
    cases hrun
    exact h.cons rfl rfl rfl trivial fun _ hg ↦ hg
  | switch other =>
    cases hrun
    exact h.congr rfl fun _ hf ↦ mem_frames_switch hf
  | threadCreate =>
    cases hrun
    refine h.congr rfl fun f hf ↦ ?_
    simpa [State.frames] using hf
  | enableRead | disableRead | readChar | addTimer | tick =>
    cases hrun
    exact h.congr rfl fun _ hf ↦ hf

end

end Step

/-- In every run in which no interrupt is less urgent than the task that runs, the tasks are given
variables of routines that have not returned. -/
theorem deferred_data_alive {s : State} (h : IrqReachable DeferAllowed s) : DataAlive s := by
  have hinv : OwnTasks s := h.invariant (fun _ ↦ ⟨rfl, fun _ hf ↦ absurd hf not_mem_nil⟩)
    fun _ _ _ hinv _ hallowed hrun ↦ hinv.step hallowed hrun
  refine ⟨fun a fromAdd t tmp point hf ↦ ⟨a, ?_, (hinv.frames _ hf).symm⟩, fun t ht ↦ ?_⟩
  · exact mem_filterMap.2 ⟨_, hf, rfl⟩
  · rw [hinv.queue] at ht
    exact absurd ht not_mem_nil

/-- A transmit interrupt inside of the task of a receive interrupt. -/
theorem deferred_data_alive_nested : ∃ s, IrqReachable DeferAllowed s ∧ s.active = [(1, writePrio), (0, readPrio)] ∧
    DataAlive s := by
  obtain ⟨s, hreach, hactive⟩ := IrqReachable.exists_run DeferAllowed
    [.writeChar 97, .step, .enableRead, .rxInt 98, .txInt]
    (fun s ↦ s.active = [(1, writePrio), (0, readPrio)]) (by decide +kernel)
  exact ⟨s, hreach, hactive, deferred_data_alive hreach⟩

/-- A timer interrupt during the task of a transmit interrupt returns with its task in the queue;
`process_task` in the outer routine runs it with a pointer to the variable of a call that is
over. -/
theorem deferred_data_dead : ∃ s, IrqReachable (fun _ _ ↦ True) s ∧ s.activations.map (·.id) = [0] ∧
    s.stack.head? = some (.task ⟨0, .writeData 97⟩ true ⟨.processTimer, timerPrio, 1⟩ initPrio .start) ∧
    Act.step.run s = .error .danglingPointer ∧ ¬ DataAlive s := by
  obtain ⟨s, hreach, hids, hhead, hdead⟩ := IrqReachable.exists_run (fun _ _ ↦ True)
    [.writeChar 97, .step, .txInt, .timerInt, .step, .step]
    (fun s ↦ s.activations.map (·.id) = [0] ∧ s.stack.head? = some (.task ⟨0, .writeData 97⟩ true
        ⟨.processTimer, timerPrio, 1⟩ initPrio .start) ∧
      s.activations.find? (·.id = 1) = none) (by decide +kernel)
  refine ⟨s, hreach, hids, hhead, ?_, fun halive ↦ ?_⟩
  · cases hstack : s.stack with
    | nil =>
      rw [hstack] at hhead
      cases hhead
    | cons f rest =>
      rw [hstack] at hhead
      cases hhead
      rw [Act.run, hstack]
      dsimp only [Frame.run, State.deref]
      rw [hdead]
      rfl
  · have hmem := mem_of_mem_head? hhead
    obtain ⟨owner, howner, hid⟩ := halive.running _ _ _ _ _ (mem_append_left _ hmem)
    have hzero : owner.id ∈ s.activations.map (·.id) := mem_map_of_mem howner
    rw [hids, hid] at hzero
    exact absurd hzero (by decide)

end CapstoneKernel.Irq
