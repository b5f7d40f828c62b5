import CapstoneKernel.Irq.RingBuf

/-!
# Concurrent users of a ring buffer

Any number of producers and consumers of one ring buffer.  A call of `ring_buf_produce` or
`ring_buf_consume` tests the buffer until it is not full or not empty, and then enters its critical
section; between the two other users may run.  The buffer is a queue as long as every critical
section still finds what its test has seen, and not after the first that does not.
-/

namespace CapstoneKernel.Irq.RingUsers

open Execution RingBuf Function List

inductive Op (α : Type)
  | produce (data : α)
  | consume
  deriving DecidableEq

/-- Where a user is: outside of the functions, in the loop before the critical section, or about to
enter it. -/
inductive Phase (α : Type)
  | idle
  | testing (op : Op α)
  | committing (op : Op α)
  deriving DecidableEq

structure System (User α : Type) where
  rb : RingBuf α
  phase : User → Phase α
  /-- The elements of all calls of `ring_buf_produce`, and of all calls of `ring_buf_consume`, in
  the order of their critical sections. -/
  produced : List α
  consumed : List α

inductive Act (User α : Type)
  | call (u : User) (op : Op α)
  | test (u : User)
  | commit (u : User)

/-- The condition of the loop that waits. -/
def Op.Waits {α : Type} (rb : RingBuf α) : Op α → Prop
  | .produce _ => rb.Full
  | .consume => rb.Empty

instance {α : Type} (rb : RingBuf α) (op : Op α) : Decidable (op.Waits rb) := by
  cases op <;> unfold Op.Waits <;> infer_instance

variable {User α : Type}

/-- The critical section. -/
def Op.commit (s : System User α) : Op α → System User α
  | .produce data => { s with rb := s.rb.produce data, produced := s.produced ++ [data] }
  | .consume => { s with rb := s.rb.consume.2, consumed := s.consumed ++ [s.rb.consume.1] }

section Acts

variable [DecidableEq User]

def System.setPhase (s : System User α) (u : User) (p : Phase α) : System User α :=
  { s with phase := update s.phase u p }

def Act.run (s : System User α) : Act User α → System User α
  | .call u op => s.setPhase u (.testing op)
  | .test u =>
    match s.phase u with
    | .testing op => if op.Waits s.rb then s else s.setPhase u (.committing op)
    | _ => s
  | .commit u =>
    match s.phase u with
    | .committing op => (op.commit s).setPhase u .idle
    | _ => s

end Acts

def Act.Enabled (s : System User α) : Act User α → Prop
  | .call u _ => s.phase u = .idle
  | .test u => ∃ op, s.phase u = .testing op
  | .commit u => ∃ op, s.phase u = .committing op

/-- A critical section finds what its test has seen. -/
def CommitsInTime (s : System User α) : Act User α → Prop
  | .commit u => ∀ op, s.phase u = .committing op → ¬ op.Waits s.rb
  | _ => True

instance (s : System User α) (a : Act User α) : Decidable (a.Enabled s) := by
  unfold Act.Enabled
  cases a with
  | call u op => exact decidable_of_iff (s.phase u matches .idle) (by split <;> simp_all)
  | test u => exact decidable_of_iff (s.phase u matches .testing _) (by split <;> simp_all)
  | commit u => exact decidable_of_iff (s.phase u matches .committing _) (by split <;> simp_all)

instance (s : System User α) (a : Act User α) : Decidable (CommitsInTime s a) := by
  cases a with
  | commit u =>
    refine decidable_of_iff
      ((match s.phase u with
        | .committing op => !decide (op.Waits s.rb)
        | _ => true) = true) ?_
    unfold CommitsInTime
    split <;> simp_all
  | call | test => exact .isTrue trivial

/-- The number of elements that have been produced and not been consumed. -/
def System.stored (s : System User α) : ℕ := s.produced.length - s.consumed.length

/-- The buffer is a queue of at most `BUFLEN - 1` elements that reports their number. -/
def Fifo (s : System User α) : Prop :=
  s.stored ≤ bufLen - 1 ∧ s.consumed <+: s.produced ∧ s.rb.numE = s.stored ∧
    s.rb.remainE = bufLen - 1 - s.stored

/-- After `ring_buf_init`. -/
def initial (buf : ℕ → α) : System User α := ⟨.init buf, fun _ ↦ .idle, [], []⟩

/-! ## The queue -/

/-- The buffer holds the elements that have been produced and not been consumed. -/
def System.Queued (s : System User α) : Prop :=
  ∃ queue, s.rb.Stores queue ∧ s.produced = s.consumed ++ queue

variable {s : System User α}

theorem System.Queued.fifo (h : s.Queued) : Fifo s := by
  obtain ⟨queue, hstores, hproduced⟩ := h
  have hstored : s.stored = queue.length := by
    rw [System.stored, hproduced, length_append, Nat.add_sub_cancel_left]
  rw [Fifo, hstored]
  exact ⟨hstores.length_le, ⟨queue, hproduced.symm⟩, hstores.numE_eq, hstores.remainE_eq⟩

theorem System.Queued.commit (h : s.Queued) {op : Op α} (hop : ¬ op.Waits s.rb) :
    (op.commit s).Queued := by
  obtain ⟨queue, hstores, hproduced⟩ := h
  cases op with
  | produce data =>
    refine ⟨queue ++ [data], hstores.produce hop data, ?_⟩
    rw [Op.commit, hproduced, append_assoc]
  | consume =>
    obtain ⟨x, rest, rfl⟩ := exists_cons_of_ne_nil (mt hstores.empty_iff.2 hop)
    obtain ⟨hx, hrest⟩ := hstores.consume
    refine ⟨rest, hrest, ?_⟩
    rw [Op.commit, hproduced, hx, append_assoc]
    rfl

theorem System.Queued.not_fifo_commit (h : s.Queued) {op : Op α} (hop : op.Waits s.rb) :
    ¬ Fifo (op.commit s) := by
  obtain ⟨queue, hstores, hproduced⟩ := h
  rintro ⟨hle, hprefix, -⟩
  cases op with
  | produce data =>
    have hfull := hstores.full_iff.1 hop
    have hlength := congrArg List.length hproduced
    simp only [System.stored, Op.commit, length_append, length_singleton] at hle hlength
    omega
  | consume =>
    have hlength := hprefix.length_le
    rw [hstores.empty_iff.1 hop, append_nil] at hproduced
    simp only [Op.commit, hproduced, length_append, length_singleton] at hlength
    omega

/-! ## Acts -/

variable [DecidableEq User]

def UsersStep (allowed : System User α → Act User α → Prop) (s s' : System User α) : Prop :=
  ∃ a : Act User α, a.Enabled s ∧ allowed s a ∧ a.run s = s'

/-- The states of the runs whose acts all meet the condition. -/
def UsersReachable (allowed : System User α → Act User α → Prop) : System User α → Prop :=
  Reachable (fun s ↦ ∃ buf, s = initial buf) (UsersStep allowed)

/-- Acts other than critical sections change the phases only. -/
theorem run_cases (s : System User α) {a : Act User α} (henabled : a.Enabled s) :
    (CommitsInTime s a ∧ ∃ phase, a.run s = { s with phase := phase }) ∨
      ∃ u op, a = .commit u ∧ s.phase u = .committing op ∧
        a.run s = (op.commit s).setPhase u .idle := by
  cases a with
  | call u op => exact .inl ⟨trivial, _, rfl⟩
  | test u =>
    obtain ⟨op, hop⟩ := henabled
    refine .inl ⟨trivial, ?_⟩
    rw [Act.run, hop]
    simp only
    split
    · exact ⟨s.phase, rfl⟩
    · exact ⟨_, rfl⟩
  | commit u =>
    obtain ⟨op, hop⟩ := henabled
    exact .inr ⟨u, op, rfl, hop, by rw [Act.run, hop]⟩

/-- One act keeps the queue if and only if it is in time. -/
theorem System.Queued.step (h : s.Queued) {a : Act User α} (henabled : a.Enabled s) :
    (CommitsInTime s a → (a.run s).Queued) ∧ (Fifo (a.run s) → CommitsInTime s a) := by
  obtain ⟨hintime, phase, heq⟩ | ⟨u, op, rfl, hop, heq⟩ := run_cases s henabled
  · rw [heq]
    exact ⟨fun _ ↦ h, fun _ ↦ hintime⟩
  · rw [heq]
    refine ⟨fun hintime ↦ h.commit (hintime op hop), fun hfifo op' hop' hwaits ↦ ?_⟩
    obtain rfl : op = op' := Phase.committing.inj (hop.symm.trans hop')
    exact h.not_fifo_commit hwaits hfifo

theorem UsersReachable.queued (h : UsersReachable CommitsInTime s) : s.Queued := by
  refine Reachable.invariant ?_ ?_ h
  · rintro s ⟨buf, rfl⟩
    exact ⟨[], init_stores buf, rfl⟩
  · rintro s s' hqueued ⟨a, henabled, hintime, rfl⟩
    exact (hqueued.step henabled).1 hintime

/-! ## Runs -/

theorem UsersReachable.exists_run (allowed : System User α → Act User α → Prop)
    [∀ s a, Decidable (allowed s a)]
    (buf : ℕ → α) (acts : List (Act User α)) (Q : System User α → Prop) [DecidablePred Q]
    (h : ((runAll (fun (s : System User α) a ↦ Act.Enabled s a ∧ allowed s a) (ε := Unit)
      (fun s a ↦ .ok (Act.run s a)) acts
      (initial buf)).any fun s ↦ decide (Q s)) = true) : ∃ s, UsersReachable allowed s ∧ Q s := by
  refine Reachable.exists_runAll _ (UsersStep allowed) ?_ ⟨buf, rfl⟩ acts Q h
  exact fun _ a _ hcan hrun ↦ ⟨a, hcan.1, hcan.2, Except.ok.inj hrun⟩

/-- In every run whose critical sections are in time the buffer is a queue in every state, and the
first critical section that is not in time ends this. -/
theorem ring_buf_fifo (h : UsersReachable CommitsInTime s) :
    Fifo s ∧ ∀ a : Act User α, a.Enabled s → (Fifo (a.run s) ↔ CommitsInTime s a) :=
  ⟨h.queued.fifo, fun _ henabled ↦
    ⟨(h.queued.step henabled).2, fun hintime ↦ ((h.queued.step henabled).1 hintime).fifo⟩⟩

/-- A producer and a consumer at the same time. -/
theorem ring_buf_fifo_two_users :
    ∃ s : System Bool ℕ, UsersReachable CommitsInTime s ∧ s.produced = [7, 8] ∧ s.consumed = [7] ∧
      Fifo s := by
  obtain ⟨s, hreach, hproduced, hconsumed⟩ := UsersReachable.exists_run CommitsInTime (fun _ ↦ 0)
    [.call true (.produce 7), .test true, .commit true, .call false .consume,
      .call true (.produce 8), .test false,
      .test true, .commit false, .commit true]
    (fun s ↦ s.produced = [7, 8] ∧ s.consumed = [7]) (by decide +kernel)
  exact ⟨s, hreach, hproduced, hconsumed, (ring_buf_fifo hreach).1⟩

/-- Two consumers see the same element in the buffer: the second consumes what nobody has
produced. -/
theorem two_consumers_of_one_element :
    ∃ s : System Bool ℕ, UsersReachable (fun _ _ ↦ True) s ∧ s.produced = [7] ∧
      s.consumed = [7, 0] ∧ ¬ Fifo s := by
  obtain ⟨s, hreach, hproduced, hconsumed⟩ := UsersReachable.exists_run (fun _ _ ↦ True) (fun _ ↦ 0)
    [.call true (.produce 7), .test true, .commit true, .call false .consume, .call true .consume,
      .test false,
      .test true, .commit false, .commit true]
    (fun s ↦ s.produced = [7] ∧ s.consumed = [7, 0]) (by decide +kernel)
  refine ⟨s, hreach, hproduced, hconsumed, fun hfifo ↦ ?_⟩
  have hlength := hfifo.2.1.length_le
  rw [hproduced, hconsumed] at hlength
  exact absurd hlength (by decide)

end CapstoneKernel.Irq.RingUsers
