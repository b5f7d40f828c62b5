import CapstoneKernel.Irq.Machine

/-!
# The transmit interrupt

The transmit interrupt is meant to be enabled only while there is something to transmit, since
`tx_int` waits for a character with interrupts disabled.  Between the test or the `ring_buf_produce`
that shows the buffer not to be empty and `enable_write_int`, interrupts may empty it.  If they do
not, `tx_int` finds a character.
-/

namespace CapstoneKernel.Irq

open Execution List

/-- Points at which code has seen a character in the buffer and is about to enable the interrupt. -/
def Frame.AboutToEnable : Frame → Prop
  | .uartWriteChar => True
  | .task _ _ t _ .enabling => t.handler = .txIntTask
  | _ => False

instance (f : Frame) : Decidable f.AboutToEnable := by
  unfold Frame.AboutToEnable
  split <;> infer_instance

/-- A transmit interrupt that comes while code is about to enable it leaves a character in the
buffer. -/
def TransmitAllowed (s : State) : Act → Prop
  | .txInt => (∀ f ∈ s.frames, ¬ f.AboutToEnable) ∨ 2 ≤ s.wBuf.length
  | _ => True

instance (s : State) (a : Act) : Decidable (TransmitAllowed s a) := by
  induction a using Act.casesOn <;> unfold TransmitAllowed <;> infer_instance

/-- If the interrupt is enabled, or about to be, there is something to transmit. -/
def TxInv (s : State) : Prop :=
  (s.txEnabled = true ∨ ∃ f ∈ s.frames, f.AboutToEnable) → s.wBuf ≠ []

section Step

variable {s s' : State} {a : Activation}

section

variable (h : TxInv s)
include h

theorem TxInv.mono (hbuf : s'.wBuf = s.wBuf) (henabled : s'.txEnabled = true → s.txEnabled = true)
    (hframes : ∀ f ∈ s'.frames, f.AboutToEnable → f ∈ s.frames) : TxInv s' := by
  intro hcase
  rw [hbuf]
  refine h (hcase.imp henabled ?_)
  rintro ⟨f, hf, habout⟩
  exact ⟨f, hframes f hf habout, habout⟩

variable {f : Frame} {t : Task} {fromAdd : Bool}

theorem TxInv.cons (hstack : s'.stack = f :: s.stack) (hothers : s'.others = s.others)
    (hf : ¬ f.AboutToEnable) (hbuf : s'.wBuf = s.wBuf) (henabled : s'.txEnabled = s.txEnabled) :
    TxInv s' := by
  refine h.mono hbuf (fun heq ↦ henabled ▸ heq) fun g hg habout ↦ ?_
  rw [State.frames, hstack, hothers, cons_append] at hg
  rcases mem_cons.1 hg with rfl | hg
  · exact absurd habout hf
  · exact hg

theorem TxInv.start {t₀ : State} (htake : takeTask s = some (t, t₀)) :
    TxInv (startTask t₀ a fromAdd t) := by
  obtain ⟨rest, -, -, rfl⟩ := takeTask_eq_some htake
  exact h.cons rfl rfl id rfl rfl

theorem TxInv.drain : TxInv (drain s a) :=
  drain_cases (fun _ _ ↦ h.start) (fun _ ↦ h) (fun _ ↦ h.cons rfl rfl id rfl rfl)

theorem TxInv.processNext : TxInv (processNext s a fromAdd) :=
  processNext_cases (fun _ _ _ ↦ h.start) (fun _ ↦ h) (fun _ ↦ h.cons rfl rfl id rfl rfl)

theorem TxInv.addTask (hadd : addTask s a t = .ok s') : TxInv s' := by
  refine addTask_cases hadd (fun _ ↦ h.cons rfl rfl id rfl rfl) fun _ ↦ TxInv.drain ?_
  exact h.mono rfl id fun _ hf _ ↦ hf

theorem TxInv.frame {rest : List Frame} (hstack : s.stack = f :: rest)
    (hrun : f.run s rest = .ok s') : TxInv s' := by
  have hrest (g : Frame) (hg : g ∈ rest ++ s.others.flatten) : g ∈ s.frames := by
    rw [State.frames, hstack, cons_append]
    exact mem_cons_of_mem f hg
  have hmem : f ∈ s.frames := by
    rw [State.frames, hstack, cons_append]
    exact mem_cons_self
  -- a frame that enables the interrupt finds a character in the buffer
  have hgoes {g : Frame} (hstack' : s'.stack = g :: rest) (hothers : s'.others = s.others)
    (hbuf : s'.wBuf = s.wBuf)
      (henabled : s'.txEnabled = s.txEnabled) (hg : g.AboutToEnable → s.wBuf ≠ []) : TxInv s' := by
    rintro hcase
    rw [hbuf]
    rcases hcase with htx | ⟨g', hg', habout⟩
    · exact h (.inl (henabled ▸ htx))
    · rw [State.frames, hstack', hothers, cons_append] at hg'
      rcases mem_cons.1 hg' with rfl | hg'
      · exact hg habout
      · exact h (.inr ⟨g', hrest g' hg', habout⟩)
  cases f with
  | uartWriteChar =>
    cases hrun
    exact fun _ ↦ h (.inr ⟨_, hmem, trivial⟩)
  | scheduling =>
    cases hrun
    exact h.mono rfl id fun g hg _ ↦ hrest g hg
  | task a fromAdd t tmp point =>
    cases point with
    | start =>
      obtain ⟨timers, needSchedule, rBuf, sent, point, rfl, hpoint⟩ := run_start_cases hrun
      refine hgoes rfl rfl rfl rfl fun habout hempty ↦ ?_
      cases point with
      | start | done => exact habout
      | enabling =>
        have heq := hpoint habout
        rw [if_pos hempty] at heq
        cases heq
    | enabling =>
      obtain ⟨tx, rx, timer, heq, htx⟩ := enable_cases t.handler s
      cases hrun
      by_cases hhandler : t.handler = .txIntTask
      · intro _
        rw [heq]
        exact h (.inr ⟨_, hmem, hhandler⟩)
      · rw [heq] at hgoes ⊢
        exact hgoes rfl rfl rfl (htx hhandler) False.elim
    | done =>
      cases hrun
      have hpopped : TxInv { s with
          curPriority := tmp, stack := rest, active := s.active.erase (a.id, t.priority) } :=
        h.mono rfl id fun g hg _ ↦ hrest g hg
      exact hpopped.processNext

theorem TxInv.step {act : Act} (hallowed : TransmitAllowed s act) (hrun : act.run s = .ok s') :
    TxInv s' := by
  cases act with
  | step =>
    cases hstack : s.stack with
    | nil =>
      rw [Act.run, hstack] at hrun
      exact Except.ok.inj hrun ▸ h
    | cons f rest =>
      rw [Act.run, hstack] at hrun
      exact h.frame hstack hrun
  | txInt =>
    obtain ⟨hact, -⟩ | ⟨tx, rx, timer, wBuf, timers, data, handler, hadd, htx, -⟩ :=
      interrupt_cases rfl hrun
    · cases hact
    · obtain ⟨rfl, c, hbuf⟩ := htx rfl
      refine TxInv.addTask ?_ hadd
      rintro (htx | ⟨f, hf, habout⟩)
      · exact absurd htx Bool.false_ne_true
      · rcases hallowed with hnone | htwo
        · exact absurd habout (hnone f hf)
        · rw [hbuf, length_cons] at htwo
          exact ne_nil_of_length_pos (Nat.succ_le_succ_iff.1 htwo)
  | rxInt | timerInt =>
    obtain ⟨-, rfl⟩ | ⟨tx, rx, timer, wBuf, timers, data, handler, hadd, -, htx⟩ :=
      interrupt_cases rfl hrun
    · exact h.mono rfl id fun _ hf _ ↦ hf
    · obtain ⟨rfl, rfl⟩ := htx (by rintro ⟨⟩)
      refine TxInv.addTask ?_ hadd
      exact h.mono rfl id fun _ hf _ ↦ hf
  | writeChar c =>
    cases hrun
    exact fun _ ↦ append_ne_nil_of_right_ne_nil _ (cons_ne_nil c [])
  | switch other =>
    cases hrun
    exact h.mono rfl id fun _ hf _ ↦ mem_frames_switch hf
  | threadCreate =>
    cases hrun
    refine h.mono rfl id fun f hf _ ↦ ?_
    simpa [State.frames] using hf
  | enableRead | disableRead | readChar | addTimer | tick =>
    cases hrun
    exact h.mono rfl id fun _ hf _ ↦ hf

end

end Step

/-- In every run in which transmit interrupts leave a character for the code that is about to enable
them, `tx_int` never waits for one. -/
theorem tx_int_finds_char {s : State} (h : IrqReachable TransmitAllowed s) (henabled : Act.txInt.Enabled s) :
    txInt s ≠ .error .emptyBuffer := by
  have hboot (freq : ℕ) : TxInv (boot freq) := by
    rintro (htx | ⟨f, hf, -⟩)
    · exact absurd htx Bool.false_ne_true
    · exact absurd hf not_mem_nil
  have hbuf := h.invariant hboot (fun _ _ _ hinv _ hallowed hrun ↦ hinv.step hallowed hrun)
    (.inl henabled)
  intro herror
  unfold txInt at herror
  split at herror
  · next hempty => exact hbuf hempty
  · unfold addTask at herror
    split at herror
    · cases herror
    · split at herror
      · exact absurd (Except.error.inj herror) (by decide)
      · cases herror

/-- A process writes two characters, and the first is transmitted while it writes the second. -/
theorem tx_int_finds_char_two : ∃ s, IrqReachable TransmitAllowed s ∧ Act.txInt.Enabled s ∧ s.wBuf = [98] ∧
    s.sent = [97] ∧ txInt s ≠ .error .emptyBuffer := by
  obtain ⟨s, hreach, henabled, hbuf, hsent⟩ := IrqReachable.exists_run TransmitAllowed
    [.writeChar 97, .step, .writeChar 98, .txInt, .step, .step, .step]
    (fun s ↦ Act.txInt.Enabled s ∧ s.wBuf = [98] ∧ s.sent = [97]) (by decide +kernel)
  exact ⟨s, hreach, henabled, hbuf, hsent, tx_int_finds_char hreach henabled⟩

/-- Two transmit interrupts empty the buffer between `ring_buf_produce` and `enable_write_int`: the
next one waits forever. -/
theorem tx_int_waits_forever : ∃ s, IrqReachable (fun _ _ ↦ True) s ∧ Act.txInt.Enabled s ∧ s.sent = [97, 98] ∧
    txInt s = .error .emptyBuffer :=
  have ⟨s, hreach, henabled, hsent, hbuf⟩ := IrqReachable.exists_run (fun _ _ ↦ True)
    [.writeChar 97, .step, .writeChar 98, .txInt, .step, .step, .step, .txInt, .step, .step, .step]
    (fun s ↦ Act.txInt.Enabled s ∧ s.sent = [97, 98] ∧ s.wBuf = []) (by decide +kernel)
  ⟨s, hreach, henabled, hsent, by rw [txInt, hbuf]⟩

end CapstoneKernel.Irq
