import CapstoneKernel.Sched.Queues

/-!
# What `kill` does

A call of `kill` that no interrupt comes into.  The process leaves its queue for the dead queue, and
those that wait for its pid leave theirs for the ready queue, in their order.
-/

namespace CapstoneKernel.Sched

open Places Execution Function List Writes

/-- `kill` from its call to its return, for a process that is not running. -/
def killCall (s : State) (pid : ℕ) : Except Fault State := do
  let s' ← kill s pid
  if s.pcbTable pid = none then return s' else Act.run s' .step

/-- The values of a `pid_t` as a `size_t`. -/
def IsPid (data : ℕ) : Prop := data < 2 ^ 31 ∨ 2 ^ 64 - 2 ^ 31 ≤ data ∧ data < 2 ^ 64

/-- The PCBs are in the queues that their states say, and `wait(PROC, pid)` has got a `pid_t`. -/
structure QueueInvariant (s : State) : Prop where
  table : ∀ pid id, s.pcbTable pid = some id ↔ ∃ p, s.pcbs id = some p ∧ p.pid = pid
  waiting : ∀ id p, s.pcbs id = some p → p.state = .wait → p.waitQ ≠ none
  placed : Placed s.queue [] s.home
  isPid : ∀ id p, s.pcbs id = some p → p.waitQ = some .proc → IsPid p.waitData

/-- The processes other than `id` that wait for the pid, in their order. -/
def State.waiters (s : State) (pid id : ℕ) : List ℕ :=
  (s.queue (.wait .proc)).filter fun x ↦ x ≠ id ∧ (s.pcbs x).any fun p ↦ p.waitData = pid

/-- The process `id` with the given pid has been killed. -/
structure Retired (s s' : State) (pid id : ℕ) : Prop where
  dead : s'.pcbs id = (s.pcbs id).map fun p ↦ { p with state := .dead }
  dead_queue : s'.queue .dead = s.queue .dead ++ [id]
  once : ∀ q, (s'.queue q).count id = if q = .dead then 1 else 0
  ready_queue : s'.queue .ready = (s.queue .ready).erase id ++ s.waiters pid id
  woken : ∀ x ∈ s.waiters pid id, ∃ p, s.pcbs x = some p ∧
    s'.pcbs x = some { p with state := .ready, waitData := 0, waitQ := none }
  proc_queue : s'.queue (.wait .proc) =
    (s.queue (.wait .proc)).filter fun x ↦ x ≠ id ∧ x ∉ s.waiters pid id
  other_queues : ∀ e, e ≠ .proc → s'.queue (.wait e) = (s.queue (.wait e)).erase id
  pcbs : ∀ x, x ≠ id → x ∉ s.waiters pid id → s'.pcbs x = s.pcbs x
  rest : s' = { s with pcbs := s'.pcbs, queue := s'.queue }

/-! ## The queues -/

section Killed

variable {s : State} {pid id : ℕ} {p : Pcb} {q : Queue}

/-- The process has left its queue, and nobody has been woken yet. -/
def State.buried (s : State) (q : Queue) (id : ℕ) (p : Pcb) : State :=
  ((s.delete q id).setPcb id { p with state := .dead }).push .dead id

theorem isPid_mod_iff {data : ℕ} (hpid : pid < maxProc) (h : IsPid data) :
    data % 2 ^ 32 = pid ↔ data = pid := by
  unfold IsPid at h
  unfold maxProc at hpid
  omega

namespace QueueInvariant

variable (h : QueueInvariant s) (hp : s.pcbs id = some p) (hhome : p.home = some q)

include h

theorem pcb_of_mem_proc {x : ℕ} (hx : x ∈ s.queue (.wait .proc)) :
    ∃ p, s.pcbs x = some p ∧ IsPid p.waitData := by
  obtain ⟨p, hp, hhome⟩ := home_eq_some (h.placed.home_of_mem hx)
  exact ⟨p, hp, h.isPid x p hp ((Pcb.state_of_home hhome).2.2 .proc rfl).2⟩

include hp hhome

theorem mem_home : id ∈ s.queue q :=
  (h.placed.mem_of_home ((home_of_pcb hp).trans hhome)).resolve_right not_mem_nil

theorem notMem_of_ne {q' : Queue} (hne : q' ≠ q) : id ∉ s.queue q' := by
  intro hmem
  have heq := (h.placed.home_of_mem hmem).symm.trans ((home_of_pcb hp).trans hhome)
  exact hne (Option.some.inj heq)

theorem delete_queue (q' : Queue) : (s.delete q id).queue q' = (s.queue q').erase id := by
  by_cases hq : q' = q
  · subst hq
    exact update_self ..
  · rw [erase_of_not_mem (h.notMem_of_ne hp hhome hq)]
    exact update_of_ne hq ..

theorem buried_queue {q' : Queue} (hdead : q' ≠ .dead) :
    (s.buried q id p).queue q' = (s.queue q').erase id := by
  rw [← h.delete_queue hp hhome q']
  exact update_of_ne hdead ..

theorem buried_dead (hdead : q ≠ .dead) :
    (s.buried q id p).queue .dead = s.queue .dead ++ [id] := by
  have hqueue := h.delete_queue hp hhome .dead
  rw [erase_of_not_mem (h.notMem_of_ne hp hhome hdead.symm)] at hqueue
  rw [← hqueue]
  rfl

omit h hp hhome in
theorem buried_pcbs_of_ne {x : ℕ} (hx : x ≠ id) : (s.buried q id p).pcbs x = s.pcbs x :=
  update_of_ne hx ..

theorem filter_buried (hpid : pid < maxProc) :
    ((s.buried q id p).queue (.wait .proc)).filter ((s.buried q id p).waitsFor pid) =
      s.waiters pid id := by
  have hproc : Queue.wait .proc ≠ .dead := nofun
  rw [h.buried_queue hp hhome hproc, (h.placed.nodup _).erase_eq_filter, filter_filter,
    State.waiters]
  refine filter_congr fun x hx ↦ ?_
  by_cases hne : x = id
  · simp [hne]
  · obtain ⟨p', hp', hdata⟩ := h.pcb_of_mem_proc hx
    rw [State.waitsFor, buried_pcbs_of_ne hne, hp']
    simp only [Option.any_some, isPid_mod_iff hpid hdata]
    simp [hne]

theorem filter_not_buried (hpid : pid < maxProc) :
    ((s.buried q id p).queue (.wait .proc)).filter (fun x ↦ !(s.buried q id p).waitsFor pid x) =
      (s.queue (.wait .proc)).filter fun x ↦ x ≠ id ∧ x ∉ s.waiters pid id := by
  have hproc : Queue.wait .proc ≠ .dead := nofun
  rw [← h.filter_buried hp hhome hpid, h.buried_queue hp hhome hproc,
    (h.placed.nodup _).erase_eq_filter, filter_filter]
  refine filter_congr fun x hx ↦ ?_
  by_cases hne : x = id
  · simp [hne]
  · simp [hne, hx]

/-- The death of a process that is not dead. -/
theorem retired (hpid : pid < maxProc) (hpcb : p.pid = pid) (hdead : q ≠ .dead) :
    ∃ s', die (s.delete q id) id p = .ok s' ∧ Retired s s' pid id := by
  have herased := h.placed.erase (h.mem_home hp hhome)
  have hdied : die (s.delete q id) id p = .ok ((s.delete q id).died id p) := die_eq herased
  have hplaced : Placed ((s.delete q id).died id p).queue [] ((s.delete q id).died id p).home :=
    died_placed herased
  have hstate : (s.delete q id).died id p = (s.buried q id p).wakeFor pid := by
    rw [← hpcb]
    rfl
  have hwaiters := h.filter_buried hp hhome hpid
  have hself : id ∉ s.waiters pid id := by simp [State.waiters]
  have hpcbs (x : ℕ) : ((s.buried q id p).wakeFor pid).pcbs x =
      if x ∈ s.waiters pid id then ((s.buried q id p).pcbs x).map Pcb.woken
      else (s.buried q id p).pcbs x := by
    rw [← hwaiters]
    rfl
  have hdeadPcb : ((s.buried q id p).wakeFor pid).pcbs id = some { p with state := .dead } := by
    rw [hpcbs, if_neg hself]
    exact update_self ..
  rw [hstate] at hdied hplaced
  refine ⟨_, hdied, ?_, ?_, fun q' ↦ ?_, ?_, fun x hx ↦ ?_, ?_, fun e he ↦ ?_,
    fun x hne hx ↦ ?_, rfl⟩
  · rw [hdeadPcb, hp]
    rfl
  · exact h.buried_dead hp hhome hdead
  · have hcount := hplaced q' id
    rw [home_of_pcb hdeadPcb, count_nil, Nat.add_zero] at hcount
    rw [hcount]
    simp [Pcb.home, eq_comm]
  · rw [← hwaiters, ← h.buried_queue hp hhome (by simp : Queue.ready ≠ .dead)]
    rfl
  · obtain ⟨hmem, hne⟩ := mem_filter.1 hx
    obtain ⟨p', hp', -⟩ := h.pcb_of_mem_proc hmem
    refine ⟨p', hp', ?_⟩
    rw [hpcbs, if_pos hx, buried_pcbs_of_ne (by simpa using (of_decide_eq_true hne).1), hp']
    rfl
  · rw [← h.filter_not_buried hp hhome hpid]
    rfl
  · rw [← h.buried_queue hp hhome (by simp : Queue.wait e ≠ .dead)]
    change update (update _ _ _) _ _ (Queue.wait e) = _
    rw [update_of_ne (by simpa using he), update_of_ne (by simp : Queue.wait e ≠ .ready)]
  · rw [hpcbs, if_neg hx]
    exact buried_pcbs_of_ne hne

end QueueInvariant

theorem killCall_eq (hpid : pid < maxProc) (htable : s.pcbTable pid = some id) :
    killCall s pid = killBody s id := by
  rw [killCall, kill, if_neg (Nat.not_le.2 hpid), htable]
  rfl

end Killed

/-! ## Runs -/

/-- `wait(PROC, pid)` gets a `pid_t`. -/
def WaitsForPids (s : State) (a : Act) : Prop :=
  TimerAtSafePoint s a ∧
    match a with
    | .wait .proc data => IsPid data
    | _ => True

/-- The data of a call of `wait`. -/
def Frame.PidData : Frame → Prop
  | .wait _ .proc data => IsPid data
  | _ => True

/-- All processes that wait for others wait for a `pid_t`, or will. -/
structure PidData (s : State) : Prop where
  context : ∀ f ∈ s.context, f.PidData
  saved : ∀ id, ∀ f ∈ s.saved id, f.PidData
  pcbs : ∀ id p, s.pcbs id = some p → p.waitQ = some .proc → IsPid p.waitData

namespace PidData

variable {s s' : State} (h : PidData s)

include h

variable {frames : List Frame} {p : Pcb}

theorem resume (hframes : ∀ f ∈ frames, f.PidData) :
    PidData (s.resume frames) := ⟨hframes, h.saved, h.pcbs⟩

theorem push_frame {f : Frame} (hf : f.PidData) : PidData (s.resume (f :: s.context)) :=
  h.resume (forall_mem_cons.2 ⟨hf, h.context⟩)

theorem setPcb (id : ℕ) (hp : p.waitQ = some .proc → IsPid p.waitData) :
    PidData (s.setPcb id p) := by
  refine ⟨h.context, h.saved, fun id' p' hp' hwait ↦ ?_⟩
  rcases update_apply_eq_iff.1 hp' with ⟨-, ⟨⟩⟩ | ⟨-, hp'⟩
  · exact hp hwait
  · exact h.pcbs id' p' hp' hwait

theorem queue (queue : Queue → List ℕ) : PidData { s with queue := queue } :=
  ⟨h.context, h.saved, h.pcbs⟩

theorem died {id : ℕ} (hp : s.pcbs id = some p) {t : State} (hcontext : ∀ f ∈ t.context, f.PidData)
    (hsaved : t.saved = s.saved) (hpcbs : t.pcbs = s.pcbs) :
    PidData (t.died id p) := by
  have ht : PidData t := ⟨hcontext, hsaved ▸ h.saved, hpcbs ▸ h.pcbs⟩
  have hset : PidData (t.setPcb id { p with state := .dead }) := ht.setPcb id (h.pcbs id p hp :)
  have hdead : PidData ((t.setPcb id { p with state := .dead }).push .dead id) := hset.queue _
  refine ⟨hdead.context, hdead.saved, fun id' p' hp' hwait ↦ ?_⟩
  obtain ⟨p₀, hp₀, ⟨-, rfl⟩ | ⟨-, rfl⟩⟩ := wakeFor_pcbs hp'
  · exact hdead.pcbs id' p' hp₀ hwait
  · cases hwait

theorem saved_update (id : ℕ) (hframes : ∀ f ∈ frames, f.PidData) :
    ∀ id', ∀ f ∈ update s.saved id frames id', f.PidData :=
  (forall_update_iff s.saved fun _ frames ↦ ∀ f ∈ frames, f.PidData).2
    ⟨hframes, fun id _ ↦ h.saved id⟩

theorem created (pid : ℕ) : PidData (s.created pid) := by
  have hset : PidData (s.setPcb s.nextPcb ⟨pid, .ready, none, 0⟩) :=
    h.setPcb s.nextPcb fun hwait ↦ absurd hwait nofun
  exact ⟨h.context, h.saved_update _ nofun, hset.pcbs⟩

theorem effect {a : Act} {leaving leaving' : Bool} (hallowed : WaitsForPids s a)
    (heffect : Effect s leaving a s' leaving') : PidData s' := by
  have htop {f : Frame} {rest : List Frame} (hcontext : s.context = f :: rest) :
      f.PidData ∧ ∀ g ∈ rest, g.PidData := forall_mem_cons.1 (hcontext ▸ h.context)
  have hcons {f g : Frame} {rest : List Frame} (hcontext : s.context = f :: rest)
      (hg : g.PidData) : ∀ f ∈ g :: rest, f.PidData := forall_mem_cons.2 ⟨hg, (htop hcontext).2⟩
  cases heffect with
  | stays => exact h
  | @enters _ f _ hentered =>
    refine h.push_frame ?_
    cases f with
    | wait pcb e data =>
      obtain rfl := hentered
      cases e with
      | proc => exact hallowed.2
      | r | w => trivial
    | _ => trivial
  | interrupts => exact h.push_frame trivial
  | @creates _ pid =>
    have hcreated := h.created pid
    exact ⟨hcreated.context, hcreated.saved, hcreated.pcbs⟩
  | @schedules p _ hcontext _ hp =>
    have hset : PidData (s.setPcb s.current { p with state := .ready }) :=
      h.setPcb s.current (h.pcbs _ p hp :)
    exact (hset.queue _).resume (hcons hcontext trivial)
  | picks hcontext | finds hcontext | takes hcontext =>
    exact (h.queue _).resume (hcons hcontext trivial)
  | @switches next p _ hcontext _ hp =>
    have hset : PidData (s.setPcb next { p with state := .run }) :=
      h.setPcb next (h.pcbs next p hp :)
    exact ⟨hcons hcontext trivial, hset.saved, hset.pcbs⟩
  | @loads prev _ hcontext =>
    have hsaved := h.saved_update prev (htop hcontext).2
    exact ⟨hsaved s.current, hsaved, h.pcbs⟩
  | checks hcontext | killsSelf hcontext => exact h.resume (hcons hcontext trivial)
  | exits hcontext _ _ hp => exact h.died hp (hcons hcontext trivial) rfl rfl
  | @waits e data p _ hcontext =>
    have hset :
        PidData (s.setPcb s.current { p with waitData := data, state := .wait, waitQ := some e }) :=
      h.setPcb s.current fun he ↦ by
        cases he
        exact (htop hcontext).1
    exact (hset.queue _).resume (hcons hcontext trivial)
  | kills hcontext _ _ hp => exact h.died hp (htop hcontext).2 rfl rfl
  | returns hcontext => exact h.resume (htop hcontext).2
  | reaps hcontext =>
    refine ⟨hcons hcontext trivial, h.saved, fun id' p' hp' ↦ ?_⟩
    rcases update_apply_eq_iff.1 hp' with ⟨-, ⟨⟩⟩ | ⟨-, hp'⟩
    exact h.pcbs id' p' hp'
  | @wakes _ _ id p rest hcontext =>
    have hset : PidData ((s.resume rest).setPcb id p.woken) :=
      (h.resume (htop hcontext).2).setPcb id fun hwait ↦ absurd hwait nofun
    exact hset.queue _

end PidData

/-- The queues are in order whenever the running stack is at safe points. -/
theorem SchedReachable.queueInvariant {s : State} (h : SchedReachable WaitsForPids s)
    (hsafe : ∀ f ∈ s.context, f.Safe) : QueueInvariant s := by
  have hboot : PidData initPcb := by
    refine ⟨fun _ hf ↦ absurd hf not_mem_nil, fun _ _ hf ↦ absurd hf not_mem_nil, fun id p hp ↦ ?_⟩
    change (if id = 0 then _ else _) = _ at hp
    split at hp
    · exact Option.some.inj hp ▸ nofun
    · cases hp
  obtain ⟨⟨leaving, hinv⟩, hdata⟩ := h.of_effect (fun _ _ hallowed ↦ hallowed.1) (hboot.created 1)
    fun _ _ _ _ _ _ hdata hallowed heffect ↦ hdata.effect hallowed heffect
  obtain ⟨-, hstack⟩ := hinv.stack.safe_of_all hsafe
  exact ⟨hinv.pcbs.table, hinv.pcbs.waiting, hstack.taken ▸ hinv.placed, hdata.pcbs⟩

instance (s : State) (a : Act) : Decidable (WaitsForPids s a) := by
  unfold WaitsForPids IsPid
  refine @instDecidableAnd _ _ inferInstance ?_
  split <;> infer_instance

/-- In every state in which the queues are in order, `kill` retires a process that is ready or waits
and does nothing to a dead one or an empty slot. -/
theorem kill_retires {s : State} (h : QueueInvariant s) {pid : ℕ} (hpid : pid < maxProc) :
    (∀ id p, s.pcbTable pid = some id → s.pcbs id = some p → p.state = .ready ∨ p.state = .wait →
      ∃ s', killCall s pid = .ok s' ∧ Retired s s' pid id) ∧
    (∀ id p, s.pcbTable pid = some id → s.pcbs id = some p → p.state = .dead →
      killCall s pid = .ok s) ∧
    (s.pcbTable pid = none → killCall s pid = .ok s) := by
  refine ⟨fun id p htable hp hstate ↦ ?_, fun id p htable hp hstate ↦ ?_, fun htable ↦ ?_⟩
  · have hpcb : p.pid = pid := by
      obtain ⟨p', hp', hpid'⟩ := (h.table pid id).1 htable
      obtain rfl := Option.mem_unique hp hp'
      exact hpid'
    rw [killCall_eq hpid htable, killBody, pcb_eq_ok.2 hp, ok_bind]
    rcases hstate with hstate | hstate
    · rw [hstate]
      exact h.retired hp (by rw [Pcb.home, hstate]) hpid hpcb (by rintro ⟨⟩)
    · rw [hstate]
      obtain ⟨e, he⟩ := Option.ne_none_iff_exists'.1 (h.waiting id p hp hstate)
      simp only [he]
      exact h.retired hp (by rw [Pcb.home, hstate, he]; rfl) hpid hpcb (by rintro ⟨⟩)
  · rw [killCall_eq hpid htable, killBody, pcb_eq_ok.2 hp, ok_bind, hstate]
    rfl
  · rw [killCall, kill, if_neg (Nat.not_le.2 hpid), htable]
    rfl

/-- A process waits for another one, which is killed. -/
theorem kill_retires_waiter : ∃ s s', QueueInvariant s ∧ s.pcbTable 3 = some 3 ∧
    s.waiters 3 3 = [2] ∧ killCall s 3 = .ok s' ∧ Retired s s' 3 3 := by
  obtain ⟨s, hreach, hsafe, htable, hpcb, hwaiters⟩ := SchedReachable.exists_run WaitsForPids
    [.threadCreate, .threadCreate, .schedule, .step, .step, .step, .step, .schedule, .step, .step,
      .step, .step, .wait .proc 3, .step, .step, .step, .step, .step, .schedule, .step, .step,
      .step, .step]
    (fun s ↦ (∀ f ∈ s.context, f.Safe) ∧ s.pcbTable 3 = some 3 ∧
      s.pcbs 3 = some ⟨3, .ready, none, 0⟩ ∧ s.waiters 3 3 = [2])
    (by decide +kernel)
  have hinv := hreach.queueInvariant hsafe
  obtain ⟨s', hkill, hretired⟩ := (kill_retires hinv (by decide)).1 3 _ htable hpcb (.inl rfl)
  exact ⟨s, s', hinv, htable, hwaiters, hkill, hretired⟩

end CapstoneKernel.Sched
