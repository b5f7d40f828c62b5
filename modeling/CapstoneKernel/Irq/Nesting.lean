import CapstoneKernel.Irq.Machine

/-!
# Nested tasks

`add_task` preempts a task only for a more urgent one, but `process_task` also runs tasks of the
queue that are as urgent as the one that has been interrupted.  In runs in which no interrupt comes
while a task of its priority is active or waits, and processes are switched outside of the tasks of
the transmitter and the timer only, the active tasks are strictly ordered and `cur_priority` is the
priority of the innermost one.
-/

namespace CapstoneKernel.Irq

open Execution List

variable {act : Act} {fromAdd : Bool} {t : Task} {other priority : ℕ}

/-- The active tasks are strictly more urgent from the outermost to the innermost, and
`cur_priority` is the priority of the innermost. -/
structure BoundedPreemption (s : State) : Prop where
  strict : (s.active.map Prod.snd).Pairwise (· < ·)
  length_le : s.active.length ≤ 3
  current : s.curPriority = (s.active.map Prod.snd).headD initPrio

/-- No task of the priority of an interrupt is active or waits when it comes, and `schedule` does
not switch processes inside of tasks that are more urgent than those of the receiver. -/
def NestingAllowed (s : State) (act : Act) : Prop :=
  (∀ priority ∈ act.priority?, priority ∉ s.active.map Prod.snd ∧ priority ∉ s.taskQueue.map Task.priority) ∧
    match act with
    | .switch _ => readPrio ≤ s.curPriority
    | _ => True

instance (s : State) (act : Act) : Decidable (NestingAllowed s act) := by
  unfold NestingAllowed
  refine @instDecidableAnd _ _ inferInstance ?_
  induction act using Act.casesOn <;> infer_instance

/-! ## Insertion -/

section Insertion

variable {α : Type} {key : α → ℕ} {x : α}

theorem moveForward_perm (queue : List α) : (moveForward key x queue).Perm (x :: queue) := by
  induction queue with
  | nil => exact .refl _
  | cons y rest ih =>
    rw [moveForward]
    split
    · exact (ih.cons y).trans (.swap x y rest)
    · exact .refl _

theorem insertByKey_perm (queue : List α) : (insertByKey key x queue).Perm (x :: queue) :=
  (reverse_perm _).trans ((moveForward_perm _).trans ((reverse_perm queue).cons x))

variable {queue : List α}

theorem mem_insertByKey {y : α} : y ∈ insertByKey key x queue ↔ y = x ∨ y ∈ queue := by
  rw [(insertByKey_perm queue).mem_iff, mem_cons]

theorem moveForward_strict (hstrict : queue.Pairwise fun y z ↦ key z < key y)
    (hnew : ∀ y ∈ queue, key y ≠ key x) :
    (moveForward key x queue).Pairwise fun y z ↦ key z < key y := by
  induction queue with
  | nil => exact pairwise_singleton _ _
  | cons y rest ih =>
    obtain ⟨hy, hrest⟩ := pairwise_cons.1 hstrict
    rw [moveForward]
    split
    · next hlt =>
      refine pairwise_cons.2 ⟨fun z hz ↦ ?_, ih hrest fun z hz ↦
        hnew z (mem_cons_of_mem y hz)⟩
      rcases mem_cons.1 ((moveForward_perm rest).mem_iff.1 hz) with rfl | hz
      · exact hlt
      · exact hy z hz
    · next hge =>
      have hne := hnew y mem_cons_self
      refine pairwise_cons.2 ⟨fun z hz ↦ ?_, hstrict⟩
      rcases mem_cons.1 hz with rfl | hz
      · omega
      · have hlt := hy z hz
        omega

theorem insertByKey_strict (hstrict : (queue.map key).Pairwise (· < ·))
    (hnew : key x ∉ queue.map key) : ((insertByKey key x queue).map key).Pairwise (· < ·) := by
  rw [insertByKey, pairwise_map, pairwise_reverse]
  refine moveForward_strict (pairwise_reverse.2 (pairwise_map.1 hstrict)) fun y hy heq ↦
    hnew ?_
  exact mem_map.2 ⟨y, mem_reverse.1 hy, heq⟩

end Insertion

/-! ## The invariant -/

/-- The routine of a frame, the priority of the task it runs and the one it restores. -/
def Frame.running : Frame → Option (ℕ × ℕ × ℕ)
  | .task a _ t tmp _ => some (a.id, t.priority, tmp)
  | _ => none

def State.running (s : State) : List (ℕ × ℕ × ℕ) := s.frames.filterMap Frame.running

/-- Every task restores the priority of the one around it. -/
def Restores : List (ℕ × ℕ × ℕ) → ℕ → Prop
  | [], priority => priority = initPrio
  | r :: rest, priority => priority = r.2.1 ∧ Restores rest r.2.2

structure NestInv (s : State) : Prop where
  active : s.active = s.running.map fun r ↦ (r.1, r.2.1)
  restores : Restores s.running s.curPriority
  strict : (s.running.map (·.2.1)).Pairwise (· < ·)
  le_read : ∀ r ∈ s.running, r.2.1 ≤ readPrio
  /-- Processes have been switched in tasks of the receiver only. -/
  suspended : ∀ f ∈ s.others.flatten, ∀ r ∈ f.running, r.2.1 = readPrio
  queue_strict : (s.taskQueue.map Task.priority).Pairwise (· < ·)
  queue_le : ∀ t ∈ s.taskQueue, t.priority ≤ readPrio
  queue_new : ∀ t ∈ s.taskQueue, ∀ r ∈ s.running, t.priority ≠ r.2.1

/-- The tasks that wait are less urgent than the one that runs. -/
def Drained (s : State) : Prop := ∀ t ∈ s.taskQueue, s.curPriority < t.priority

section Step

variable {s s' : State} {a : Activation} {running : List (ℕ × ℕ × ℕ)}

theorem Restores.le (h : Restores running priority)
    (hstrict : (running.map (·.2.1)).Pairwise (· < ·)) : ∀ r ∈ running, priority ≤ r.2.1 := by
  cases running with
  | nil => exact fun _ hr ↦ absurd hr not_mem_nil
  | cons r rest =>
    intro r' hr'
    rw [h.1]
    rcases mem_cons.1 hr' with rfl | hr'
    · exact Nat.le_refl _
    · exact Nat.le_of_lt ((pairwise_cons.1 hstrict).1 _ (mem_map_of_mem hr'))

/-- A priority that no active task has is not the current one. -/
theorem Restores.ne {p : ℕ} (h : Restores running priority) (hle : p ≤ readPrio)
    (hnew : ∀ r ∈ running, p ≠ r.2.1) : p ≠ priority := by
  cases running with
  | nil =>
    rw [h]
    have hread : readPrio < initPrio := by decide
    omega
  | cons r rest =>
    rw [h.1]
    exact hnew r mem_cons_self

section

variable (h : NestInv s)
include h

theorem NestInv.of_running (hrunning : s'.running = s.running)
    (hsuspended : ∀ f ∈ s'.others.flatten, ∀ r ∈ f.running, r.2.1 = readPrio)
    (hactive : s'.active = s.active) (hcur : s'.curPriority = s.curPriority)
    (hqueue : s'.taskQueue = s.taskQueue) : NestInv s' := by
  refine ⟨?_, ?_, ?_, ?_, hsuspended, ?_, ?_, ?_⟩ <;> simp only [hrunning, hactive, hcur, hqueue]
  · exact h.active
  · exact h.restores
  · exact h.strict
  · exact h.le_read
  · exact h.queue_strict
  · exact h.queue_le
  · exact h.queue_new

theorem NestInv.congr (hrunning : s'.running = s.running) (hothers : s'.others = s.others)
    (hactive : s'.active = s.active) (hcur : s'.curPriority = s.curPriority)
    (hqueue : s'.taskQueue = s.taskQueue) : NestInv s' :=
  h.of_running hrunning (hothers ▸ h.suspended) hactive hcur hqueue

theorem NestInv.start (hlt : t.priority < s.curPriority) (hle : t.priority ≤ readPrio)
    (hqueue : ∀ u ∈ s.taskQueue, t.priority < u.priority) :
    NestInv (startTask s a fromAdd t) ∧ Drained (startTask s a fromAdd t) := by
  have hrunning : (startTask s a fromAdd t).running = (a.id, t.priority, s.curPriority) ::
    s.running := rfl
  refine ⟨⟨?_, ?_, ?_, ?_, h.suspended, h.queue_strict, h.queue_le, ?_⟩, hqueue⟩ <;> rw [hrunning]
  · exact congrArg _ h.active
  · exact ⟨rfl, h.restores⟩
  · refine pairwise_cons.2 ⟨fun p hp ↦ ?_, h.strict⟩
    obtain ⟨r, hr, rfl⟩ := mem_map.1 hp
    exact Nat.lt_of_lt_of_le hlt (h.restores.le h.strict r hr)
  · intro r hr
    rcases mem_cons.1 hr with rfl | hr
    · exact hle
    · exact h.le_read r hr
  · intro u hu r hr
    rcases mem_cons.1 hr with rfl | hr
    · exact Nat.ne_of_gt (hqueue u hu)
    · exact h.queue_new u hu r hr

/-- `process_task(NULL)` starts the most urgent task that waits if it is more urgent than the
current one. -/
theorem NestInv.take {t₀ : State} (htake : takeTask s = some (t, t₀)) :
    NestInv (startTask t₀ a fromAdd t) ∧ Drained (startTask t₀ a fromAdd t) := by
  obtain ⟨rest, hqueue, hle, rfl⟩ := takeTask_eq_some htake
  have hmem : t ∈ s.taskQueue := hqueue ▸ mem_cons_self
  have hsub (u : Task) (hu : u ∈ rest) : u ∈ s.taskQueue := hqueue ▸ mem_cons_of_mem t hu
  have hstrict := h.queue_strict
  rw [hqueue, map_cons, pairwise_cons] at hstrict
  have hinv : NestInv { s with taskQueue := rest } := by
    refine ⟨h.active, h.restores, h.strict, h.le_read, h.suspended, hstrict.2, ?_, ?_⟩
    · exact fun u hu ↦ h.queue_le u (hsub u hu)
    · exact fun u hu ↦ h.queue_new u (hsub u hu)
  have hne : t.priority ≠ s.curPriority := h.restores.ne (h.queue_le t hmem) (h.queue_new t hmem)
  refine hinv.start (Nat.lt_of_le_of_ne hle hne) (h.queue_le t hmem) fun u hu ↦ ?_
  exact hstrict.1 _ (mem_map_of_mem hu)

theorem NestInv.drained (htake : takeTask s = none) : Drained s := by
  have hhead := takeTask_eq_none htake
  intro t ht
  cases hqueue : s.taskQueue with
  | nil =>
    rw [hqueue] at ht
    exact absurd ht not_mem_nil
  | cons u rest =>
    have hu : s.curPriority < u.priority := hhead u (by rw [hqueue]; rfl)
    have hstrict := h.queue_strict
    rw [hqueue, map_cons, pairwise_cons] at hstrict
    rw [hqueue] at ht
    rcases mem_cons.1 ht with rfl | ht
    · exact hu
    · exact Nat.lt_trans hu (hstrict.1 _ (mem_map_of_mem ht))

theorem NestInv.processNext :
    NestInv (processNext s a fromAdd) ∧ Drained (processNext s a fromAdd) :=
  processNext_cases (P := fun s ↦ NestInv s ∧ Drained s) (fun _ _ _ ↦ h.take)
    (fun htake ↦ ⟨h, h.drained htake⟩) (fun htake ↦ ⟨h.congr rfl rfl rfl rfl rfl, h.drained htake⟩)

theorem NestInv.drain : NestInv (drain s a) ∧ Drained (drain s a) :=
  drain_cases (P := fun s ↦ NestInv s ∧ Drained s) (fun _ _ ↦ h.take)
    (fun htake ↦ ⟨h, h.drained htake⟩) (fun htake ↦ ⟨h.congr rfl rfl rfl rfl rfl, h.drained htake⟩)

theorem NestInv.addTask (hdrained : Drained s) (hadd : addTask s a t = .ok s')
    (hle : t.priority ≤ readPrio) (hnew : ∀ r ∈ s.running, t.priority ≠ r.2.1)
    (hwait : t.priority ∉ s.taskQueue.map Task.priority) : NestInv s' ∧ Drained s' := by
  refine addTask_cases (P := fun s ↦ NestInv s ∧ Drained s) hadd (fun hlt ↦ ?_) fun _ ↦
    NestInv.drain ?_
  · exact h.start hlt hle fun u hu ↦ Nat.lt_trans hlt (hdrained u hu)
  · refine ⟨h.active, h.restores, h.strict, h.le_read, h.suspended, ?_, fun u hu ↦ ?_, fun u hu ↦
      ?_⟩
    · exact insertByKey_strict h.queue_strict hwait
    · rcases mem_insertByKey.1 hu with rfl | hu
      · exact hle
      · exact h.queue_le u hu
    · rcases mem_insertByKey.1 hu with rfl | hu
      · exact hnew
      · exact h.queue_new u hu

theorem NestInv.frame (hdrained : Drained s) {f : Frame} {rest : List Frame}
    (hstack : s.stack = f :: rest) (hrun : f.run s rest = .ok s') : NestInv s' ∧ Drained s' := by
  have hframes : s.frames = f :: (rest ++ s.others.flatten) :=
    by rw [State.frames, hstack, cons_append]
  cases f with
  | uartWriteChar | scheduling =>
    cases hrun
    refine ⟨h.congr ?_ rfl rfl rfl rfl, hdrained⟩
    rw [State.running, State.running, hframes]
    rfl
  | task a fromAdd t tmp point =>
    have hrunning : s.running = (a.id, t.priority, tmp) ::
      (rest ++ s.others.flatten).filterMap Frame.running := by
      rw [State.running, hframes]
      rfl
    cases point with
    | start =>
      obtain ⟨timers, needSchedule, rBuf, sent, point, rfl, -⟩ := run_start_cases hrun
      exact ⟨h.congr hrunning.symm rfl rfl rfl rfl, hdrained⟩
    | enabling =>
      obtain ⟨tx, rx, timer, heq, -⟩ := enable_cases t.handler s
      cases hrun
      rw [heq]
      exact ⟨h.congr hrunning.symm rfl rfl rfl rfl, hdrained⟩
    | done =>
      cases hrun
      have hactive := h.active
      have hrestores := h.restores
      have hstrict := h.strict
      rw [hrunning] at hactive hrestores hstrict
      have hpopped : NestInv { s with
          curPriority := tmp, stack := rest, active := s.active.erase (a.id, t.priority) } := by
        have hsub (r : ℕ × ℕ × ℕ) (hr : r ∈ (rest ++ s.others.flatten).filterMap Frame.running) :
            r ∈ s.running := hrunning ▸ mem_cons_of_mem _ hr
        refine ⟨?_, hrestores.2, (pairwise_cons.1 hstrict).2, fun r hr ↦
          h.le_read r (hsub r hr),
          h.suspended, h.queue_strict, h.queue_le, fun u hu r hr ↦
            h.queue_new u hu r (hsub r hr)⟩
        change s.active.erase (a.id, t.priority) = _
        rw [hactive, map_cons, erase_cons_head]
        rfl
      exact hpopped.processNext

omit h in
theorem frames_switch_perm (h : other < s.others.length) :
    (s.others.getD other [] ++ (s.others.set other s.stack).flatten).Perm s.frames := by
  have hothers : s.others = s.others.take other ++ s.others.getD other [] :: s.others.drop
    (other + 1) := by
    rw [getD_eq_getElem _ _ h, getElem_cons_drop, take_append_drop]
  have hsplit := congrArg List.flatten hothers
  rw [flatten_append, flatten_cons] at hsplit
  rw [State.frames, hsplit, set_eq_take_append_cons_drop, if_pos h, flatten_append, flatten_cons]
  generalize s.others.getD other [] = new
  generalize (s.others.take other).flatten = before
  generalize (s.others.drop (other + 1)).flatten = after
  have hnew : (new ++ (before ++ (s.stack ++ after))).Perm
    (new ++ (s.stack ++ (before ++ after))) :=
    (perm_append_comm_assoc ..).append_left _
  have hstack : (new ++ (s.stack ++ (before ++ after))).Perm
    (s.stack ++ (new ++ (before ++ after))) :=
    perm_append_comm_assoc ..
  exact hnew.trans (hstack.trans ((perm_append_comm_assoc ..).append_left _))

theorem NestInv.switch (hother : other < s.others.length) (hread : readPrio ≤ s.curPriority) :
    NestInv { s with stack := s.others.getD other [], others := s.others.set other s.stack } := by
  have hall (r : ℕ × ℕ × ℕ) (hr : r ∈ s.running) : r.2.1 = readPrio :=
    Nat.le_antisymm (h.le_read r hr) (Nat.le_trans hread (h.restores.le h.strict r hr))
  -- at most the task of the receiver is active, so that there is nothing to reorder
  have hlength : s.running.length ≤ 1 := by
    cases hrunning : s.running with
    | nil => exact Nat.zero_le 1
    | cons r rest =>
      cases rest with
      | nil => exact Nat.le_refl 1
      | cons r' rest =>
        have hstrict := h.strict
        rw [hrunning, map_cons, map_cons, pairwise_cons] at hstrict
        have hlt := hstrict.1 _ mem_cons_self
        have hr := hall r (hrunning ▸ mem_cons_self)
        have hr' := hall r' (hrunning ▸ mem_cons_of_mem _ mem_cons_self)
        omega
  have hperm := (frames_switch_perm (s := s) hother).filterMap Frame.running
  have hrunning : (s.others.getD other [] ++ (s.others.set other s.stack).flatten).filterMap
    Frame.running = s.running := by
    change (_ : List (ℕ × ℕ × ℕ)).Perm s.running at hperm
    cases hcase : s.running with
    | nil =>
      rw [hcase] at hperm
      exact hperm.eq_nil
    | cons r rest =>
      have hrest : rest = [] := by
        rw [hcase, length_cons] at hlength
        exact eq_nil_of_length_eq_zero (by omega)
      rw [hcase, hrest] at hperm
      rw [hrest]
      exact perm_singleton.1 hperm
  refine h.of_running hrunning (fun f hf r hr ↦ ?_) rfl rfl rfl
  exact hall r (hrunning ▸ mem_filterMap.2 ⟨f, mem_append_right _ hf, hr⟩)

theorem NestInv.interrupt (hdrained : Drained s) (hact : act.priority? = some priority)
    (hle : priority ≤ readPrio) (hallowed : NestingAllowed s act) (hrun : act.run s = .ok s') :
    NestInv s' ∧ Drained s' := by
  obtain ⟨hnew, hwait⟩ := hallowed.1 priority hact
  have hnew' (r : ℕ × ℕ × ℕ) (hr : r ∈ s.running) : priority ≠ r.2.1 := by
    rintro rfl
    rw [h.active, map_map] at hnew
    exact hnew (mem_map_of_mem (f := Prod.snd ∘ fun r ↦ (r.1, r.2.1)) hr)
  obtain ⟨-, rfl⟩ | ⟨tx, rx, timer, wBuf, timers, data, handler, hadd, -⟩ :=
    interrupt_cases hact hrun
  · exact ⟨h.congr rfl rfl rfl rfl rfl, hdrained⟩
  · have hinv : NestInv { s with
        txEnabled := tx, rxEnabled := rx, timerEnabled := timer, wBuf := wBuf, timerQueue := timers
        nextId := s.nextId + 1 } := h.congr rfl rfl rfl rfl rfl
    exact hinv.addTask hdrained hadd hle hnew' hwait

theorem NestInv.step (hdrained : Drained s) (henabled : act.Enabled s)
    (hallowed : NestingAllowed s act) (hrun : act.run s = .ok s') : NestInv s' ∧ Drained s' := by
  cases act with
  | step =>
    cases hstack : s.stack with
    | nil =>
      rw [Act.run, hstack] at hrun
      exact Except.ok.inj hrun ▸ ⟨h, hdrained⟩
    | cons f rest =>
      rw [Act.run, hstack] at hrun
      exact h.frame hdrained hstack hrun
  | txInt | rxInt | timerInt => exact h.interrupt hdrained rfl (by decide) hallowed hrun
  | switch other =>
    cases hrun
    exact ⟨h.switch henabled.1 hallowed.2, hdrained⟩
  | threadCreate =>
    cases hrun
    have hflatten : (s.others ++ [[]]).flatten = s.others.flatten := by simp
    have hframes : State.frames { s with others := s.others ++ [[]] } = s.frames :=
      congrArg (s.stack ++ ·) hflatten
    have hrunning := congrArg (List.filterMap Frame.running) hframes
    exact ⟨h.of_running hrunning (fun f hf ↦ h.suspended f (hflatten ▸ hf)) rfl rfl rfl, hdrained⟩
  | writeChar | enableRead | disableRead | readChar | addTimer | tick =>
    cases hrun
    exact ⟨h.congr rfl rfl rfl rfl rfl, hdrained⟩

end

end Step

theorem NestInv.bounded {s : State} (h : NestInv s) : BoundedPreemption s := by
  have hactive : s.active.map Prod.snd = s.running.map (·.2.1) := by
    rw [h.active, map_map]
    rfl
  refine ⟨hactive ▸ h.strict, ?_, ?_⟩
  · have hnodup : (s.active.map Prod.snd).Nodup := by
      rw [hactive]
      exact h.strict.imp Nat.ne_of_lt
    have hsub : s.active.map Prod.snd ⊆ [writePrio, timerPrio, readPrio] := by
      intro p hp
      rw [hactive] at hp
      obtain ⟨r, hr, rfl⟩ := mem_map.1 hp
      have hle := h.le_read r hr
      simp only [mem_cons, not_mem_nil, or_false]
      unfold readPrio at hle
      unfold writePrio timerPrio readPrio
      omega
    have hlength := (subperm_of_subset hnodup hsub).length_le
    rwa [length_map] at hlength
  · rw [hactive]
    have hrestores := h.restores
    cases hrunning : s.running with
    | nil =>
      rw [hrunning] at hrestores
      exact hrestores
    | cons r rest =>
      rw [hrunning] at hrestores
      exact hrestores.1

end CapstoneKernel.Irq
