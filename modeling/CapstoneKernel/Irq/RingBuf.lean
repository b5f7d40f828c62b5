import CapstoneKernel.Irq.Machine
import CapstoneKernel.Lib.RingQueue

/-!
# Ring buffers

`struct ring_buf` with its indices, for elements of any type.  The critical sections of
`ring_buf_produce` and `ring_buf_consume` are functions of their own; the loops before them that
wait for space or for an element are steps of the caller.  As long as the buffer has space for what
is produced, it is a queue.
-/

namespace CapstoneKernel.Irq

open RingQueue Execution

structure RingBuf (α : Type) where
  producerIdx : ℕ
  consumerIdx : ℕ
  buf : ℕ → α

namespace RingBuf

variable {α : Type}

def init (buf : ℕ → α) : RingBuf α := ⟨0, 0, buf⟩

def Full (rb : RingBuf α) : Prop := (rb.producerIdx + 1) % bufLen = rb.consumerIdx
deriving Decidable

def Empty (rb : RingBuf α) : Prop := rb.producerIdx = rb.consumerIdx
deriving Decidable

/-- `ring_buf_num_e`; `int` arithmetic, as the remainder of a truncated division. -/
def numE (rb : RingBuf α) : ℕ :=
  (((rb.producerIdx : ℤ) - rb.consumerIdx + bufLen).tmod bufLen).toNat

/-- `ring_buf_remain_e`. -/
def remainE (rb : RingBuf α) : ℕ :=
  ((bufLen : ℤ) - 1 - ((rb.producerIdx : ℤ) - rb.consumerIdx + bufLen).tmod bufLen).toNat

/-- `ring_buf_produce` between `disable_int` and `enable_int`. -/
def produce (rb : RingBuf α) (data : α) : RingBuf α :=
  { rb with
    buf := Function.update rb.buf rb.producerIdx data
    producerIdx := (rb.producerIdx + 1) % bufLen }

/-- `ring_buf_consume` between `disable_int` and `enable_int`, with the element it returns. -/
def consume (rb : RingBuf α) : α × RingBuf α :=
  (rb.buf rb.consumerIdx, { rb with consumerIdx := (rb.consumerIdx + 1) % bufLen })

/-- The elements in the buffer, in the order in which they will be consumed. -/
def Stores (rb : RingBuf α) (queue : List α) : Prop :=
  Holds bufLen rb.producerIdx rb.consumerIdx rb.buf queue

theorem init_stores (buf : ℕ → α) : (init buf).Stores [] := holds_nil (by decide) buf

section Queue

variable {rb : RingBuf α} {queue : List α} (h : rb.Stores queue)

include h

theorem Stores.length_le : queue.length ≤ bufLen - 1 := Nat.le_pred_of_lt h.length_lt

theorem Stores.full_iff : rb.Full ↔ queue.length = bufLen - 1 := by
  rw [Full, Holds.full_iff h]
  exact Nat.succ_inj

theorem Stores.empty_iff : rb.Empty ↔ queue = [] := Holds.empty_iff h

theorem Stores.numE_eq : rb.numE = queue.length := by
  rw [numE, Holds.length_eq h, Int.toNat_natCast]

theorem Stores.remainE_eq : rb.remainE = bufLen - 1 - queue.length := by
  have hle := h.length_le
  rw [remainE, Holds.length_eq h]
  omega

theorem Stores.produce (hspace : ¬ rb.Full) (data : α) :
    (rb.produce data).Stores (queue ++ [data]) := by
  have hle := h.length_le
  have hlt := mt h.full_iff.2 hspace
  exact h.push (by omega) data

omit h in
theorem Stores.consume {x : α} (h : rb.Stores (x :: queue)) :
    rb.consume.1 = x ∧ rb.consume.2.Stores queue :=
  h.pop

end Queue

/-! ## The indices -/

/-- The indices are those of slots. -/
def InBounds (rb : RingBuf α) : Prop := rb.producerIdx < bufLen ∧ rb.consumerIdx < bufLen

theorem init_inBounds (buf : ℕ → α) : (init buf).InBounds :=
  ⟨(by decide : 0 < bufLen), (by decide : 0 < bufLen)⟩

section Indices

variable {rb : RingBuf α} (h : rb.InBounds)

include h

theorem InBounds.produce (data : α) : (rb.produce data).InBounds := ⟨Nat.mod_lt _ (by decide), h.2⟩

theorem InBounds.consume : rb.consume.2.InBounds := ⟨h.1, Nat.mod_lt _ (by decide)⟩

theorem InBounds.tmod_eq : ((rb.producerIdx : ℤ) - rb.consumerIdx + bufLen).tmod bufLen =
    ((rb.producerIdx + bufLen - rb.consumerIdx) % bufLen : ℕ) := by
  have hlt := h.2
  have hdiff : (rb.producerIdx : ℤ) - rb.consumerIdx + bufLen =
      ((rb.producerIdx + bufLen - rb.consumerIdx : ℕ) : ℤ) := by omega
  rw [hdiff, ← Int.ofNat_tmod]

theorem InBounds.numE_consume_le (hne : ¬ rb.Empty) : rb.consume.2.numE ≤ rb.numE := by
  have hconsume := h.consume.tmod_eq
  obtain ⟨hp, hc⟩ := h
  rw [numE, numE, hconsume, InBounds.tmod_eq ⟨hp, hc⟩]
  simp only [Empty, RingBuf.consume, bufLen, Int.toNat_natCast] at *
  omega

theorem InBounds.remainE_produce_le (data : α) (hspace : ¬ rb.Full) :
    (rb.produce data).remainE ≤ rb.remainE := by
  have hproduce := (h.produce data).tmod_eq
  obtain ⟨hp, hc⟩ := h
  rw [remainE, remainE, hproduce, InBounds.tmod_eq ⟨hp, hc⟩]
  simp only [Full, RingBuf.produce, bufLen] at *
  omega

end Indices

end RingBuf

end CapstoneKernel.Irq
