import CapstoneKernel.Irq.Nesting
import CapstoneKernel.Irq.RingBuf

/-!
# Ordered insertion

`add_timer` and `add_task` append an element to a ring buffer and then move it forward by swaps,
from `producer_idx` towards `consumer_idx` and around the end of the array.  On the ring this is the
insertion by key of the machine's lists; on a sorted queue the new element comes to stand behind
those with the same key.
-/

namespace CapstoneKernel.Irq

open RingQueue List

namespace RingBuf

variable {α : Type}

/-- The three assignments with `tmp`. -/
def swap (rb : RingBuf α) (idx cmpIdx : ℕ) : RingBuf α :=
  { rb with
    buf := Function.update (Function.update rb.buf idx (rb.buf cmpIdx)) cmpIdx (rb.buf idx) }

@[simp]
theorem swap_consumerIdx (rb : RingBuf α) (idx cmpIdx : ℕ) :
    (rb.swap idx cmpIdx).consumerIdx = rb.consumerIdx := rfl

/-- The loops of `add_timer` and `add_task`, where `before y` says that the new element comes before
`y`.  The result says whether the loop has ended at `consumer_idx`. -/
def moveForward (before : α → Bool) : ℕ → RingBuf α → ℕ → Option (RingBuf α × Bool)
  | 0, _, _ => none
  | fuel + 1, rb, idx =>
    let cmpIdx := (idx + bufLen - 1) % bufLen
    if idx = rb.consumerIdx then some (rb, true)
    else if before (rb.buf cmpIdx) then
      moveForward before fuel (rb.swap idx cmpIdx) ((if idx = 0 then idx + bufLen else idx) - 1)
    else some (rb, false)

/-- `ring_buf_produce` and the loop after it; `none` while the caller waits for space. -/
def insert (rb : RingBuf α) (before : α → Bool) (element : α) : Option (RingBuf α × Bool) :=
  if rb.Full then none else moveForward before bufLen (rb.produce element) rb.producerIdx

end RingBuf

/-- `struct timer_queue_element`. -/
structure TimerElement where
  handler : TimerHandler
  curTicks : UInt64
  durationTicks : UInt64
  data : UInt64
  deriving DecidableEq

/-- The time of an element without the wraparound of 64 bits. -/
def TimerElement.expires (element : TimerElement) : ℕ :=
  element.curTicks.toNat + element.durationTicks.toNat

/-- The machine's view of an element. -/
def TimerElement.toTimer (element : TimerElement) : Timer := ⟨element.handler, element.expires⟩

/-- `add_timer` when `cntpct_el0` is `count`, with the value it may write to `cntp_tval_el0`. -/
def RingBuf.addTimer (timerQueue : RingBuf TimerElement) (count : UInt64) (handler : TimerHandler)
    (duration data : UInt64) : Option (RingBuf TimerElement × Option UInt64) :=
  (timerQueue.insert (fun y ↦ count + duration < y.curTicks + y.durationTicks)
    ⟨handler, count, duration, data⟩).map fun r ↦ (r.1, if r.2 then some duration else none)

/-- `add_task` with a task that does not preempt. -/
def RingBuf.addTask (taskQueue : RingBuf Task) (element : Task) : Option (RingBuf Task) :=
  (taskQueue.insert (fun y ↦ element.priority < y.priority) element).map Prod.fst

/-! ## Insertion into a list -/

section Lists

variable {α : Type} {key : α → ℕ} {x : α}

theorem insertByKey_nil : insertByKey key x [] = [x] := rfl

theorem insertByKey_concat_of_lt {y : α} (h : key x < key y) (front : List α) :
    insertByKey key x (front ++ [y]) = insertByKey key x front ++ [y] := by
  rw [insertByKey, reverse_concat, Irq.moveForward, if_pos h, reverse_cons]
  rfl

theorem insertByKey_concat_of_le {y : α} (h : key y ≤ key x) (front : List α) :
    insertByKey key x (front ++ [y]) = front ++ [y] ++ [x] := by
  rw [insertByKey, reverse_concat, Irq.moveForward, if_neg (Nat.not_lt.2 h), reverse_cons,
    reverse_cons, reverse_reverse]

/-- In a sorted queue the new element stands between those that come before it or have the same key
and those that come after it. -/
theorem insertByKey_split {queue : List α} (hsorted : (queue.map key).Pairwise (· ≤ ·)) :
    ∃ earlier later, queue = earlier ++ later ∧ insertByKey key x queue = earlier ++ x :: later ∧
      (∀ y ∈ earlier, key y ≤ key x) ∧ ∀ y ∈ later, key x < key y := by
  induction queue using List.reverseRecOn with
  | nil => exact ⟨[], [], rfl, insertByKey_nil, by simp, by simp⟩
  | append_singleton front y ih =>
    have hparts := pairwise_append.1 (map_append ▸ hsorted)
    by_cases hlt : key x < key y
    · obtain ⟨earlier, later, hfront, hinsert, hearlier, hlater⟩ := ih hparts.1
      refine ⟨earlier, later ++ [y], ?_, ?_, hearlier, ?_⟩
      · rw [hfront, append_assoc]
      · rw [insertByKey_concat_of_lt hlt, hinsert, append_assoc, cons_append]
      · intro z hz
        rcases mem_append.1 hz with hz | hz
        · exact hlater z hz
        · rwa [mem_singleton.1 hz]
    · have hle := Nat.le_of_not_lt hlt
      refine ⟨front ++ [y], [], (append_nil _).symm, insertByKey_concat_of_le hle front, ?_,
        by simp⟩
      intro z hz
      rcases mem_append.1 hz with hz | hz
      · exact (hparts.2.2 _ (mem_map_of_mem hz) _ (by simp)).trans hle
      · rwa [mem_singleton.1 hz]

theorem pairwise_insert {earlier later : List α}
    (hsorted : ((earlier ++ later).map key).Pairwise (· ≤ ·))
    (hearlier : ∀ y ∈ earlier, key y ≤ key x) (hlater : ∀ y ∈ later, key x < key y) :
    ((earlier ++ x :: later).map key).Pairwise (· ≤ ·) := by
  rw [map_append, pairwise_append] at hsorted ⊢
  obtain ⟨hfirst, hlast, hacross⟩ := hsorted
  rw [map_cons, pairwise_cons]
  refine ⟨hfirst, ⟨?_, hlast⟩, ?_⟩
  · intro k hk
    obtain ⟨y, hy, rfl⟩ := mem_map.1 hk
    exact (hlater y hy).le
  · intro k hk k' hk'
    rcases mem_cons.1 hk' with rfl | hk'
    · obtain ⟨y, hy, rfl⟩ := mem_map.1 hk
      exact hearlier y hy
    · exact hacross k hk k' hk'

end Lists

/-! ## Insertion into a ring -/

namespace RingBuf

section Loop

variable {α : Type} {key : α → ℕ} {x : α} {before : α → Bool}

/-- The index of the place before another one, as the loops compute it for `cmp_idx` and for the
next round. -/
theorem previous_idx (consumer i : ℕ) :
    ((consumer + (i + 1)) % bufLen + bufLen - 1) % bufLen = (consumer + i) % bufLen ∧
      (if (consumer + (i + 1)) % bufLen = 0 then (consumer + (i + 1)) % bufLen + bufLen
        else (consumer + (i + 1)) % bufLen) - 1 = (consumer + i) % bufLen := by
  rw [bufLen]
  split <;> omega

/-- The loop with the new element behind `front`. -/
theorem moveForward_spec {front back : List α} {rb : RingBuf α} {fuel : ℕ}
    (hbefore : ∀ y ∈ front, before y = decide (key x < key y))
    (hstores : rb.Stores (front ++ x :: back)) (hfuel : front.length < fuel) :
    ∃ rb', moveForward before fuel rb ((rb.consumerIdx + front.length) % bufLen) =
        some (rb', front.all before) ∧
      rb'.consumerIdx = rb.consumerIdx ∧ rb'.Stores (insertByKey key x front ++ back) := by
  -- by induction on the elements before the new one, the last one first
  induction front using List.reverseRecOn generalizing back rb fuel with
  | nil =>
    obtain ⟨fuel, rfl⟩ := Nat.exists_eq_add_one_of_ne_zero (Nat.ne_zero_of_lt hfuel)
    refine ⟨rb, ?_, rfl, hstores⟩
    rw [moveForward, if_pos (by simpa using Nat.mod_eq_of_lt hstores.consumer_lt), all_nil]
  | append_singleton front y ih =>
    obtain ⟨fuel, rfl⟩ := Nat.exists_eq_add_one_of_ne_zero (Nat.ne_zero_of_lt hfuel)
    have hlt := hstores.length_lt
    rw [append_assoc, singleton_append] at hstores
    simp only [length_append, length_cons, length_nil, Nat.zero_add] at hfuel hlt ⊢
    obtain ⟨hcmp, hnext⟩ := previous_idx rb.consumerIdx front.length
    have hy : rb.buf ((rb.consumerIdx + front.length) % bufLen) = y :=
      hstores.slot front.length y (by simp)
    have hne : (rb.consumerIdx + (front.length + 1)) % bufLen ≠ rb.consumerIdx := fun heq ↦ by
      have hzero := eq_of_slot_eq (by omega) (by omega)
        (heq.trans (Nat.mod_eq_of_lt hstores.consumer_lt).symm : _ = (rb.consumerIdx + 0) % bufLen)
      omega
    have hbeforeY := hbefore y (by simp)
    rw [moveForward, if_neg hne, hcmp, hnext, hy, hbeforeY]
    by_cases hkey : key x < key y
    · have hswap : (rb.swap ((rb.consumerIdx + (front.length + 1)) % bufLen)
          ((rb.consumerIdx + front.length) % bufLen)).Stores (front ++ x :: y :: back) :=
        hstores.swap
      obtain ⟨rb', hrun, hconsumer, hstores'⟩ := ih
        (fun z hz ↦ hbefore z (mem_append_left _ hz)) hswap (Nat.lt_of_succ_lt_succ hfuel)
      refine ⟨rb', ?_, hconsumer, ?_⟩
      · rw [if_pos (decide_eq_true hkey)]
        simpa [hbeforeY, hkey] using hrun
      · rw [insertByKey_concat_of_lt hkey, append_assoc]
        exact hstores'
    · refine ⟨rb, ?_, rfl, ?_⟩
      · rw [if_neg (by simpa using hkey)]
        simp [hbeforeY, hkey]
      · rw [insertByKey_concat_of_le (Nat.le_of_not_lt hkey)]
        simpa using hstores

theorem Stores.insert {rb : RingBuf α} {queue : List α} (hstores : rb.Stores queue)
    (hbefore : ∀ y ∈ queue, before y = decide (key x < key y))
    (hspace : queue.length < bufLen - 1) :
    ∃ rb', rb.insert before x = some (rb', queue.all before) ∧ rb'.consumerIdx = rb.consumerIdx ∧
      rb'.Stores (insertByKey key x queue) := by
  have hfull : ¬ rb.Full := mt hstores.full_iff.1 hspace.ne
  obtain ⟨rb', hrun, hconsumer, hstores'⟩ :=
    moveForward_spec hbefore (hstores.produce hfull x) hstores.length_lt
  refine ⟨rb', ?_, hconsumer, by simpa using hstores'⟩
  rw [RingBuf.insert, if_neg hfull, hstores.producer_eq]
  exact hrun

end Loop

/-- From a ring with a sorted queue the insertion of `x` has made another one: the new element
stands behind those of the same key, and the others keep their order. -/
structure Inserted {α : Type} (key : α → ℕ) (x : α) (rb rb' : RingBuf α)
    (queue earlier later : List α) : Prop where
  queue_eq : queue = earlier ++ later
  consumer : rb'.consumerIdx = rb.consumerIdx
  stores : rb'.Stores (earlier ++ x :: later)
  sorted : ((earlier ++ x :: later).map key).Pairwise (· ≤ ·)
  earlier_le : ∀ y ∈ earlier, key y ≤ key x
  later_gt : ∀ y ∈ later, key x < key y

/-- The loop ends at the consumer's index if and only if nothing stays before the new element. -/
theorem Stores.insert_sorted {α : Type} {key : α → ℕ} {x : α} {before : α → Bool}
    {rb : RingBuf α} {queue : List α}
    (hbefore : ∀ y ∈ queue, before y = decide (key x < key y)) (hstores : rb.Stores queue)
    (hspace : queue.length < bufLen - 1) (hsorted : (queue.map key).Pairwise (· ≤ ·)) :
    ∃ rb' earlier later, rb.insert before x = some (rb', decide (earlier = [])) ∧
      Inserted key x rb rb' queue earlier later := by
  obtain ⟨rb', hrun, hconsumer, hstores'⟩ := hstores.insert hbefore hspace
  obtain ⟨earlier, later, hqueue, hinsert, hearlier, hlater⟩ := insertByKey_split hsorted
  have hall : queue.all before = decide (earlier = []) := by
    cases earlier with
    | nil =>
      rw [decide_eq_true rfl, hqueue, nil_append, all_eq_true]
      intro y hy
      rw [hbefore y (hqueue ▸ hy)]
      exact decide_eq_true (hlater y hy)
    | cons y rest =>
      have hle := hearlier y mem_cons_self
      have hy : before y = false := by
        rw [hbefore y (hqueue ▸ by simp)]
        exact decide_eq_false (Nat.not_lt.2 hle)
      rw [hqueue, cons_append, all_cons, hy]
      simp
  exact ⟨rb', earlier, later, hall ▸ hrun, hqueue, hconsumer, hinsert ▸ hstores',
    pairwise_insert (hqueue ▸ hsorted) hearlier hlater, hearlier, hlater⟩

end RingBuf

/-! ## The two queues -/

/-- Without overflow `add_timer` compares the times. -/
theorem decide_ticks_lt {x y : TimerElement} (hx : x.expires < 2 ^ 64) (hy : y.expires < 2 ^ 64) :
    decide (x.curTicks + x.durationTicks < y.curTicks + y.durationTicks) =
      decide (x.expires < y.expires) := by
  rw [decide_eq_decide, UInt64.lt_iff_toNat_lt, UInt64.toNat_add, UInt64.toNat_add]
  exact Iff.of_eq (congrArg₂ _ (Nat.mod_eq_of_lt hx) (Nat.mod_eq_of_lt hy))

theorem moveForward_map {α β : Type} (f : α → β) (key : β → ℕ) (x : α) (queue : List α) :
    (moveForward (key ∘ f) x queue).map f = moveForward key (f x) (queue.map f) := by
  induction queue with
  | nil => rfl
  | cons y rest ih =>
    rw [map_cons, moveForward, moveForward, Function.comp_apply, Function.comp_apply]
    split
    · rw [map_cons, ih]
    · rfl

theorem insertByKey_map {α β : Type} (f : α → β) (key : β → ℕ) (x : α) (queue : List α) :
    (insertByKey (key ∘ f) x queue).map f = insertByKey key (f x) (queue.map f) := by
  rw [insertByKey, insertByKey, map_reverse, moveForward_map, map_reverse]

/-- The timer queue in the ring and that of the machine, after the same calls of `add_timer` and of
the `ring_buf_consume` in `timer_int`. -/
inductive TimerRun : RingBuf TimerElement → List Timer → Prop
  | init (buf : ℕ → TimerElement) : TimerRun (.init buf) []
  | addTimer {rb rb' : RingBuf TimerElement} {queue : List Timer} {x : TimerElement}
      {tval : Option UInt64} (h : TimerRun rb queue) (hticks : x.expires < 2 ^ 64)
      (hadd : rb.addTimer x.curTicks x.handler x.durationTicks x.data = some (rb', tval)) :
      TimerRun rb' (insertByKey Timer.expires x.toTimer queue)
  | consume {rb : RingBuf TimerElement} {t : Timer} {queue : List Timer}
      (h : TimerRun rb (t :: queue)) : TimerRun rb.consume.2 queue

/-- What the ring stores is the machine's queue, sorted. -/
theorem TimerRun.stores {rb : RingBuf TimerElement} {queue : List Timer} (h : TimerRun rb queue) :
    ∃ elements, rb.Stores elements ∧ queue = elements.map TimerElement.toTimer ∧
      (elements.map TimerElement.expires).Pairwise (· ≤ ·) ∧
      ∀ y ∈ elements, y.expires < 2 ^ 64 := by
  induction h with
  | init buf => exact ⟨[], RingBuf.init_stores buf, rfl, .nil, nofun⟩
  | @addTimer rb rb' queue x tval _ hticks hadd ih =>
    obtain ⟨elements, hstores, rfl, hsorted, hlt⟩ := ih
    obtain ⟨r, hinsert, hr⟩ := Option.map_eq_some_iff.1 hadd
    have hspace : elements.length < bufLen - 1 := by
      refine Nat.lt_of_le_of_ne hstores.length_le fun hfull ↦ ?_
      rw [RingBuf.insert, if_pos (hstores.full_iff.2 hfull)] at hinsert
      cases hinsert
    obtain ⟨r', hrun, -, hstores'⟩ := hstores.insert
      (fun y hy ↦ decide_ticks_lt hticks (hlt y hy)) hspace
    obtain ⟨earlier, later, hsplit, hqueue, hearlier, hlater⟩ := insertByKey_split (x := x) hsorted
    cases hrun.symm.trans hinsert
    cases hr
    refine ⟨_, hstores', (insertByKey_map TimerElement.toTimer Timer.expires x elements).symm, ?_,
      fun y hy ↦ ?_⟩
    · rw [hqueue]
      exact pairwise_insert (hsplit ▸ hsorted) hearlier hlater
    · rw [hqueue, mem_append, mem_cons] at hy
      rcases hy with hy | rfl | hy
      · exact hlt y (hsplit ▸ mem_append_left _ hy)
      · exact hticks
      · exact hlt y (hsplit ▸ mem_append_right _ hy)
  | consume _ ih =>
    obtain ⟨elements, hstores, hqueue, hsorted, hlt⟩ := ih
    obtain ⟨y, rest, rfl, -, rfl⟩ := map_eq_cons_iff.1 hqueue.symm
    exact ⟨rest, hstores.consume.2, rfl, (pairwise_cons.1 hsorted).2,
      fun z hz ↦ hlt z (mem_cons_of_mem _ hz)⟩

/-- `add_timer` and `add_task` keep their queues sorted and the order of equal keys, wherever in the
ring they lie, and `add_timer` programs the timer if and only if the new element is the first. -/
theorem ordered_insertion :
    (∀ (timerQueue : RingBuf TimerElement) (queue : List TimerElement) (count : UInt64)
        (handler : TimerHandler) (duration data : UInt64),
      timerQueue.Stores queue → queue.length ≤ 510 →
      (queue.map TimerElement.expires).Pairwise (· ≤ ·) →
      (∀ y ∈ queue, y.expires < 2 ^ 64) → count.toNat + duration.toNat < 2 ^ 64 →
      ∃ timerQueue' earlier later, timerQueue.addTimer count handler duration data =
          some (timerQueue', if earlier = [] then some duration else none) ∧
        RingBuf.Inserted TimerElement.expires ⟨handler, count, duration, data⟩ timerQueue
          timerQueue' queue earlier later) ∧
    ∀ (taskQueue : RingBuf Task) (queue : List Task) (t : Task),
      taskQueue.Stores queue → queue.length ≤ 510 →
      (queue.map Task.priority).Pairwise (· ≤ ·) →
      ∃ taskQueue' earlier later, taskQueue.addTask t = some taskQueue' ∧
        RingBuf.Inserted Task.priority t taskQueue taskQueue' queue earlier later := by
  constructor
  · intro timerQueue queue count handler duration data hstores hlength hsorted hticks hnew
    let x : TimerElement := ⟨handler, count, duration, data⟩
    have hbefore : ∀ y ∈ queue, decide (count + duration < y.curTicks + y.durationTicks) =
        decide (x.expires < y.expires) := fun y hy ↦
      decide_ticks_lt (x := x) hnew (hticks y hy)
    obtain ⟨timerQueue', earlier, later, hrun, hinserted⟩ :=
      RingBuf.Stores.insert_sorted hbefore hstores (Nat.lt_succ_of_le hlength) hsorted
    refine ⟨timerQueue', earlier, later, ?_, hinserted⟩
    rw [RingBuf.addTimer, hrun]
    simp
  · intro taskQueue queue t hstores hlength hsorted
    obtain ⟨taskQueue', earlier, later, hrun, hinserted⟩ :=
      RingBuf.Stores.insert_sorted (x := t) (fun _ _ ↦ rfl) hstores (Nat.lt_succ_of_le hlength)
        hsorted
    exact ⟨taskQueue', earlier, later, congrArg (Option.map Prod.fst) hrun, hinserted⟩

/-- Two timers around the end of the array, and a third one that comes between them. -/
def wrappedTimers : RingBuf TimerElement :=
  ⟨1, 511, fun i ↦ if i = 511 then ⟨.elaspedTime, 10, 5, 0⟩ else ⟨.printMsg, 10, 30, 0⟩⟩

theorem wrappedTimers_stores :
    wrappedTimers.Stores [⟨.elaspedTime, 10, 5, 0⟩, ⟨.printMsg, 10, 30, 0⟩] where
  consumer_lt := by decide
  length_lt := by decide
  producer_eq := rfl
  slot
    | 0, _, h => Option.some.inj h
    | 1, _, h => Option.some.inj h

theorem ordered_insertion_wrapped : ∃ timerQueue' earlier later,
    wrappedTimers.addTimer 12 .printMsg 8 0 =
      some (timerQueue', if earlier = [] then some 8 else none) ∧
    RingBuf.Inserted TimerElement.expires ⟨.printMsg, 12, 8, 0⟩ wrappedTimers timerQueue'
      [⟨.elaspedTime, 10, 5, 0⟩, ⟨.printMsg, 10, 30, 0⟩] earlier later :=
  ordered_insertion.1 _ _ _ _ _ _ wrappedTimers_stores (by decide) (by decide) (by decide)
    (by decide)

end CapstoneKernel.Irq
