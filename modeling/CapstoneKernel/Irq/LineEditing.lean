import CapstoneKernel.Irq.RingBuf

/-!
# Line editing

`uart_read_string` takes characters out of the receive buffer while the receive interrupt puts more
into it.  Its index is a 64-bit number that goes below zero at a backspace and comes back with the
increment of the loop.  On the string this is a stack: an ordinary character is pushed, a backspace
pops one, and the line ends at a terminator or when there is no more room.
-/

namespace CapstoneKernel.Irq.LineEditing

open Execution RingQueue List

/-! ## The source -/

inductive Fault
  | outOfBounds
  deriving DecidableEq, Repr

/-- The variables of `uart_read_string`: the array from `str` on and the index, with what has been
written back to the terminal. -/
structure Reader where
  str : ℕ → UInt8
  i : UInt64
  echo : List UInt8

/-- The call waits for a character, or it has returned its index. -/
inductive Call
  | waiting (r : Reader)
  | returned (r : Reader)

section Source

variable (size : UInt64)

/-- `str[i] = c`. -/
def Reader.store (r : Reader) (c : UInt8) : Except Fault Reader :=
  if r.i < size then .ok { r with str := Function.update r.str r.i.toNat c } else .error .outOfBounds

def Reader.write (r : Reader) (bytes : List UInt8) : Reader := { r with echo := r.echo ++ bytes }

/-- What follows the loop. -/
def Reader.finish (r : Reader) : Except Fault Call := do
  let r ← r.store size 0
  return .returned r

/-- The test of the loop. -/
def Reader.test (r : Reader) : Except Fault Call :=
  if r.i < size - 1 then .ok (.waiting r) else r.finish size

/-- The body of the loop for a character, with its increment. -/
def Reader.body (r : Reader) (c : UInt8) : Except Fault Call :=
  if c = 0x7f ∨ c = 8 then
    if 0 < r.i then ({ r with i := r.i - 2 + 1 }.write [8, 32, 8]).test size
    else { r with i := r.i - 1 + 1 }.test size
  else if c = 13 then (r.write [13, 10]).finish size
  else if c = 0 ∨ c = 10 then (r.write [c]).finish size
  else do
    let r ← (r.write [c]).store size c
    { r with i := r.i + 1 }.test size

/-- `uart_read_string` up to its first `ring_buf_consume`. -/
def uartReadString (str : ℕ → UInt8) : Except Fault Call := Reader.test size ⟨str, 0, []⟩

end Source

/-! ## The system -/

/-- The receive buffer and the call, with all that has been received. -/
structure System where
  rBuf : RingBuf UInt8
  call : Call
  received : List UInt8

inductive Act
  /-- `rx_int_task` puts a character into the buffer. -/
  | receive (c : UInt8)
  /-- The call takes one out of it. -/
  | consume

/-- Both wait in the loops of `ring_buf_produce` and `ring_buf_consume`. -/
def Act.Enabled (s : System) : Act → Prop
  | .receive _ => ¬ s.rBuf.Full
  | .consume => ¬ s.rBuf.Empty ∧ ∃ r, s.call = .waiting r

def Act.run (size : UInt64) (s : System) : Act → Except Fault System
  | .receive c => .ok { s with rBuf := s.rBuf.produce c, received := s.received ++ [c] }
  | .consume =>
    match s.call with
    | .waiting r => do
        let call ← r.body size s.rBuf.consume.1
        return { s with rBuf := s.rBuf.consume.2, call := call }
    | .returned _ => .ok s

/-- The call begins with any characters in the buffer. -/
def Begins (size : UInt64) (s : System) : Prop :=
  ∃ str, uartReadString size str = .ok s.call ∧ s.rBuf.Stores s.received

def Step (size : UInt64) (s s' : System) : Prop :=
  ∃ a : Act, a.Enabled s ∧ a.run size s = .ok s'

/-! ## The reference -/

/-- A line that is being edited, or has been entered. -/
inductive Line
  | editing (held : List UInt8)
  | entered (held : List UInt8)
  deriving DecidableEq

namespace Line

/-- A line with room for `limit` characters ends when it is full. -/
def hold (limit : ℕ) (held : List UInt8) : Line :=
  if held.length < limit then .editing held else .entered held

def key (limit : ℕ) : Line → UInt8 → Line
  | .entered held, _ => .entered held
  | .editing held, c =>
    if c = 0x7f ∨ c = 8 then .editing held.dropLast
    else if c = 13 ∨ c = 10 ∨ c = 0 then .entered held
    else hold limit (held ++ [c])

/-- The line after the characters of a stream. -/
def edit (limit : ℕ) (stream : List UInt8) : Line := stream.foldl (key limit) (hold limit [])

end Line

/-- The array begins with the characters that are held. -/
structure Reader.Holds (r : Reader) (held : List UInt8) : Prop where
  index : r.i.toNat = held.length
  str : ∀ k c, held[k]? = some c → r.str k = c

/-- The call stands where the reference does; the string of a call that has returned is terminated.
-/
def Call.Agrees (call : Call) (line : Line) : Prop :=
  match line with
  | .editing held => ∃ r, call = .waiting r ∧ r.Holds held
  | .entered held => ∃ r, call = .returned r ∧ r.Holds held ∧ r.str held.length = 0

/-! ## The body of the loop -/

section Body

variable {size : UInt64} {r : Reader} {held : List UInt8}

theorem toNat_sub_one (hsize : 0 < size) : (size - 1).toNat = size.toNat - 1 := by
  rw [UInt64.lt_iff_toNat_lt] at hsize
  exact UInt64.toNat_sub_of_le _ _ (UInt64.le_iff_toNat_le.2 hsize)

section

variable (h : r.Holds held)
include h

theorem Reader.Holds.write (bytes : List UInt8) : (r.write bytes).Holds held :=
  ⟨h.index, h.str⟩

theorem Reader.Holds.store (hlt : held.length < size.toNat) (c : UInt8) :
    Returns (r.store size c) fun r' ↦ r'.Holds held ∧ r'.i = r.i ∧ r'.str held.length = c := by
  have hi : r.i < size := by rwa [UInt64.lt_iff_toNat_lt, h.index]
  refine .of_eq (if_pos hi) ⟨⟨h.index, fun k x hk ↦ ?_⟩, rfl, ?_⟩
  · obtain ⟨hk', -⟩ := List.getElem?_eq_some_iff.1 hk
    have hne : k ≠ r.i.toNat := by
      rw [h.index]
      exact hk'.ne
    exact (Function.update_of_ne hne ..).trans (h.str k x hk)
  · rw [← h.index]
    exact Function.update_self ..

theorem Reader.Holds.finish (hlt : held.length < size.toNat) :
    Returns (r.finish size) fun call ↦ call.Agrees (.entered held) := by
  refine (h.store hlt 0).bind fun r' ⟨hheld, _, hzero⟩ ↦ ?_
  exact .ok ⟨r', rfl, hheld, hzero⟩

theorem Reader.Holds.test (hlt : held.length < size.toNat) :
    Returns (r.test size) fun call ↦ call.Agrees (.hold (size.toNat - 1) held) := by
  have hsub := toNat_sub_one (UInt64.lt_iff_toNat_lt.2 (Nat.zero_lt_of_lt hlt))
  have hiff : r.i < size - 1 ↔ held.length < size.toNat - 1 := by
    rw [UInt64.lt_iff_toNat_lt, hsub, h.index]
  unfold Reader.test Line.hold
  by_cases hroom : held.length < size.toNat - 1
  · rw [if_pos (hiff.2 hroom), if_pos hroom]
    exact .ok ⟨r, rfl, h⟩
  · rw [if_neg (mt hiff.1 hroom), if_neg hroom]
    exact h.finish hlt

theorem Reader.Holds.backspace :
    { r with i := if 0 < r.i then r.i - 2 + 1 else r.i - 1 + 1 }.Holds held.dropLast where
  index := by
    have hindex := h.index
    rw [length_dropLast, ← hindex]
    have hback : r.i - 2 + 1 = r.i - 1 := by grind
    dsimp only
    split
    · next hpos =>
      rw [hback, toNat_sub_one hpos]
    · next hzero =>
      have hzero' : r.i.toNat = 0 := by
        rw [UInt64.lt_iff_toNat_lt] at hzero
        exact Nat.eq_zero_of_not_pos hzero
      rw [UInt64.sub_add_cancel, hzero']
  str := by
    intro k c hk
    rw [getElem?_dropLast] at hk
    split at hk
    · exact h.str k c hk
    · cases hk

/-- One round of the loop is one key. -/
theorem Reader.Holds.body (hroom : held.length < size.toNat - 1) (c : UInt8) :
    Returns (r.body size c) fun call ↦
      call.Agrees (Line.key (size.toNat - 1) (.editing held) c) := by
  have hlt : held.length < size.toNat := by omega
  rw [Reader.body, Line.key]
  by_cases hback : c = 0x7f ∨ c = 8
  · have hshort : held.dropLast.length < size.toNat - 1 := by
      rw [length_dropLast]
      omega
    have hpop := h.backspace
    have hhold : Line.hold (size.toNat - 1) held.dropLast = .editing held.dropLast := if_pos hshort
    rw [if_pos hback, if_pos hback, ← hhold]
    split at hpop
    · next hpos =>
      rw [if_pos hpos]
      exact (hpop.write _).test (by omega)
    · next hpos =>
      rw [if_neg hpos]
      exact hpop.test (by omega)
  · rw [if_neg hback, if_neg hback]
    by_cases hreturn : c = 13
    · rw [if_pos hreturn, if_pos (.inl hreturn)]
      exact (h.write _).finish hlt
    · rw [if_neg hreturn]
      by_cases hend : c = 0 ∨ c = 10
      · rw [if_pos hend, if_pos (.inr hend.symm)]
        exact (h.write _).finish hlt
      · have hordinary : ¬ (c = 13 ∨ c = 10 ∨ c = 0) := by tauto
        rw [if_neg hend, if_neg hordinary]
        refine ((h.write [c]).store hlt c).bind fun r' ⟨hheld, hi, hc⟩ ↦ ?_
        have hnext : { r' with i := r'.i + 1 }.Holds (held ++ [c]) := by
          constructor
          · have hsize := size.toNat_lt
            have hi' : r'.i.toNat = held.length := by rw [hi]; exact h.index
            rw [UInt64.toNat_add, hi', length_append]
            exact Nat.mod_eq_of_lt (by simp; omega)
          · intro k x hk
            rcases Nat.lt_or_ge k held.length with hk' | hk'
            · rw [getElem?_append_left hk'] at hk
              exact hheld.str k x hk
            · obtain ⟨hlen, hx⟩ := List.getElem?_eq_some_iff.1 hk
              obtain rfl : k = held.length := by simp at hlen; omega
              rw [getElem_concat_length rfl] at hx
              exact hc.trans hx
        exact hnext.test (by simp; omega)

end

end Body

/-! ## Runs -/

section Runs

variable {size : UInt64} {s s' : System} {limit : ℕ} {line : Line} {held : List UInt8}

/-- A line that is being edited is not full. -/
def Line.HasRoom (limit : ℕ) : Line → Prop
  | .editing held => held.length < limit
  | .entered _ => True

theorem Line.hasRoom_hold (limit : ℕ) (held : List UInt8) : (hold limit held).HasRoom limit := by
  unfold hold
  split
  · next hlt => exact hlt
  · trivial

theorem Line.HasRoom.key (h : line.HasRoom limit) (c : UInt8) : (line.key limit c).HasRoom limit := by
  cases line with
  | entered held => trivial
  | editing held =>
    rw [Line.key]
    split
    · have hlt : held.length < limit := h
      change held.dropLast.length < limit
      rw [length_dropLast]
      omega
    · split
      · trivial
      · exact hasRoom_hold limit _

theorem Line.edit_append (limit : ℕ) (front back : List UInt8) :
    edit limit (front ++ back) = back.foldl (key limit) (edit limit front) := foldl_append

theorem Line.hasRoom_edit (limit : ℕ) (stream : List UInt8) : (edit limit stream).HasRoom limit := by
  induction stream using List.reverseRecOn with
  | nil => exact hasRoom_hold limit []
  | append_singleton stream c ih =>
    rw [edit_append]
    exact ih.key c

/-- Nothing is read after a line has been entered. -/
theorem Line.foldl_entered (limit : ℕ) (held stream : List UInt8) :
    stream.foldl (key limit) (.entered held) = .entered held := by
  induction stream with
  | nil => rfl
  | cons c stream ih => exact ih

/-- What the call has taken out of the buffer, and what is still in it. -/
structure Edits (size : UInt64) (s : System) (consumed queue : List UInt8) : Prop where
  received : s.received = consumed ++ queue
  stores : s.rBuf.Stores queue
  agrees : s.call.Agrees (Line.edit (size.toNat - 1) consumed)

variable {consumed queue : List UInt8}

theorem Edits.consume {c : UInt8} {r : Reader} (h : Edits size s consumed (c :: queue))
    (hcall : s.call = .waiting r) :
    Returns (Act.consume.run size s) fun s' ↦ Edits size s' (consumed ++ [c]) queue := by
  obtain ⟨hc, hstores⟩ := h.stores.consume
  have hroom := Line.hasRoom_edit (size.toNat - 1) consumed
  have hagrees := h.agrees
  have hedit := Line.edit_append (size.toNat - 1) consumed [c]
  cases hline : Line.edit (size.toNat - 1) consumed with
  | entered held =>
    rw [hline] at hagrees
    obtain ⟨r', hcall', -⟩ := hagrees
    exact absurd (hcall.symm.trans hcall') nofun
  | editing held =>
    rw [hline] at hagrees hroom hedit
    obtain ⟨r', hcall', hheld⟩ := hagrees
    obtain rfl := Call.waiting.inj (hcall.symm.trans hcall')
    rw [Act.run, hcall, hc]
    refine (hheld.body hroom c).bind fun call hcall ↦ .ok ⟨?_, hstores, ?_⟩
    · rw [h.received, append_assoc]
      rfl
    · rw [hedit]
      exact hcall

/-- Every act that can happen does, and keeps the reader and the reference together. -/
theorem Edits.run (h : Edits size s consumed queue) {a : Act} (henabled : a.Enabled s) :
    Returns (a.run size s) fun s' ↦ ∃ consumed' queue', Edits size s' consumed' queue' := by
  cases a with
  | receive c =>
    refine .ok ⟨consumed, queue ++ [c], ?_, h.stores.produce henabled c, h.agrees⟩
    rw [← append_assoc, ← h.received]
  | consume =>
    obtain ⟨hne, r, hcall⟩ := henabled
    cases queue with
    | nil => exact absurd (h.stores.empty_iff.2 rfl) hne
    | cons c queue => exact (h.consume hcall).mono fun s' h' ↦ ⟨_, _, h'⟩

theorem uartReadString_agrees (hsize : 0 < size) (str : ℕ → UInt8) :
    Returns (uartReadString size str) fun call ↦ call.Agrees (.hold (size.toNat - 1) []) := by
  have hstart : Reader.Holds ⟨str, 0, []⟩ [] := ⟨rfl, nofun⟩
  exact hstart.test (UInt64.lt_iff_toNat_lt.1 hsize)

theorem edits_of_reachable (hsize : 0 < size) (h : Reachable (Begins size) (Step size) s) :
    ∃ consumed queue, Edits size s consumed queue := by
  refine h.invariant (P := fun s ↦ ∃ consumed queue, Edits size s consumed queue) ?_ ?_
  · rintro s ⟨str, hcall, hstores⟩
    exact ⟨[], s.received, rfl, hstores, (uartReadString_agrees hsize str).post_of_eq hcall⟩
  · rintro s s' ⟨consumed, queue, hs⟩ ⟨a, henabled, hrun⟩
    exact (hs.run henabled).post_of_eq hrun

/-- The call goes on. -/
def Consumes (size : UInt64) (s s' : System) : Prop :=
  Act.consume.Enabled s ∧ Act.consume.run size s = .ok s'

/-- The call returns when the line that has been received is complete. -/
theorem Edits.returns (h : Edits size s consumed queue)
    (hentered : Line.edit (size.toNat - 1) s.received = .entered held) :
    ∃ s', Relation.ReflTransGen (Consumes size) s s' ∧ s'.call.Agrees (.entered held) := by
  induction queue generalizing s consumed with
  | nil =>
    refine ⟨s, .refl, ?_⟩
    rw [← hentered, h.received, append_nil]
    exact h.agrees
  | cons c queue ih =>
    have hagrees := h.agrees
    cases hline : Line.edit (size.toNat - 1) consumed with
    | entered held' =>
      have hsame : Line.edit (size.toNat - 1) s.received = .entered held' := by
        rw [h.received, Line.edit_append, hline, Line.foldl_entered]
      refine ⟨s, .refl, ?_⟩
      rw [← hentered, hsame, ← hline]
      exact hagrees
    | editing held' =>
      rw [hline] at hagrees
      obtain ⟨r, hcall, -⟩ := hagrees
      obtain ⟨s₁, hrun, h₁⟩ := h.consume hcall
      have hne : ¬ s.rBuf.Empty := mt h.stores.empty_iff.1 (cons_ne_nil c queue)
      have hreceived : s₁.received = s.received := by
        rw [h₁.received, h.received, append_assoc]
        rfl
      obtain ⟨s', hsteps, hs'⟩ := ih h₁ (hreceived ▸ hentered)
      exact ⟨s', .head ⟨⟨hne, r, hcall⟩, hrun⟩ hsteps, hs'⟩

/-- However receiving and reading alternate, the call edits the line as the reference does, no store
is out of bounds, and it returns when the line is complete. -/
theorem uart_read_string_edits (hsize : 0 < size) :
    (∀ str, ∃ call, uartReadString size str = .ok call) ∧
    ∀ s, Reachable (Begins size) (Step size) s →
      (∃ consumed queue, s.received = consumed ++ queue ∧ s.rBuf.Stores queue ∧
        s.call.Agrees (Line.edit (size.toNat - 1) consumed)) ∧
      (∀ a : Act, a.Enabled s → ∃ s', a.run size s = .ok s') ∧
      ∀ held, Line.edit (size.toNat - 1) s.received = .entered held →
        ∃ s', Relation.ReflTransGen (Consumes size) s s' ∧ s'.call.Agrees (.entered held) := by
  refine ⟨fun str ↦ ?_, fun s hreach ↦ ?_⟩
  · obtain ⟨call, hcall, -⟩ := uartReadString_agrees hsize str
    exact ⟨call, hcall⟩
  · obtain ⟨consumed, queue, h⟩ := edits_of_reachable hsize hreach
    refine ⟨⟨consumed, queue, h.received, h.stores, h.agrees⟩, fun a henabled ↦ ?_,
      fun held hentered ↦ h.returns hentered⟩
    obtain ⟨s', hrun, -⟩ := h.run henabled
    exact ⟨s', hrun⟩

end Runs

/-- A line is typed with a mistake, and one backspace too many. -/
theorem uart_read_string_edits_mistake : ∃ s s' : System,
    Reachable (Begins 4) (Step 4) s ∧ s.received = [97, 8, 127, 98, 99, 13] ∧
      Relation.ReflTransGen (Consumes 4) s s' ∧ s'.call.Agrees (.entered [98, 99]) := by
  obtain ⟨hcalls, hruns⟩ := uart_read_string_edits (by decide : (0 : UInt64) < 4)
  obtain ⟨call, hcall⟩ := hcalls fun _ ↦ 0
  have hstores : RingBuf.Stores (α := UInt8) ⟨6, 0, fun i ↦ [97, 8, 127, 98, 99, 13].getD i 0⟩
      [97, 8, 127, 98, 99, 13] := by
    refine ⟨by decide, by decide, rfl, fun i c hi ↦ ?_⟩
    obtain ⟨hlt, -⟩ := List.getElem?_eq_some_iff.1 hi
    rw [Nat.zero_add, Nat.mod_eq_of_lt (hlt.trans (by decide))]
    exact congrArg (Option.getD · 0) hi
  have hreach : Reachable (Begins 4) (Step 4) ⟨_, call, _⟩ := .start ⟨_, hcall, hstores⟩
  have hline : Line.edit 3 [97, 8, 127, 98, 99, 13] = .entered [98, 99] := by decide
  obtain ⟨s', hsteps, hagrees⟩ := (hruns _ hreach).2.2 [98, 99] hline
  exact ⟨_, s', hreach, rfl, hsteps, hagrees⟩

end CapstoneKernel.Irq.LineEditing
