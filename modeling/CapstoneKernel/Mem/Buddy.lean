import CapstoneKernel.Lib.IntrusiveList

/-!
# The buddy page allocator of `mem.c`

This module embeds the page allocator function by function.  The state keeps the three
representations of the source side by side: the signed order array `arr`, the intrusive free
lists threaded through `buddy_node_arr`, and their heads `free_blocks_list`.  Null pointers are
`none`, a pointer into `buddy_node_arr` is the index of its node, and every access to an array is
checked, so that an access outside an array, a loop that never ends or a negative shift shows up
as a `Fault` instead of a value.

`num_pages_exp` is at most 20 on the real machine, because `usable_memory` is filled from 32-bit
device-tree cells; the shifts `1 << k` of the source therefore stay inside `int` and are written
as powers of two.
-/

namespace CapstoneKernel.Mem

open IntrusiveList

/-- Ways in which a run of the C code can leave its defined behaviour. -/
inductive Fault
  | outOfBounds
  | nullPointer
  | diverges
  | negativeShift
  deriving DecidableEq, Repr

/-- The texts `mem.c` prints. -/
inductive Msg
  | nodeNotFound
  | noEnoughSpace
  | invalidPointer
  | pageNotInUse
  | notStartOfBlock
  | notAligned
  | chunkNotInUse
  | notStartOfPage
  deriving DecidableEq, Repr

def intMax : ℤ := 2147483647

def pageSize : ℕ := 4096

/-- The `arr` value of a page that is not the head of a block. -/
def empty : ℤ := intMax

/-- The `arr` value of the head of a used block of order 0. -/
def negZero : ℤ := -intMax

/-- The `arr` value of the head of a used block of the given order. -/
def usedMark (order : ℕ) : ℤ := if order = 0 then negZero else -(order : ℤ)

/-- `buddy_data` with `buddy_node_arr`, the messages printed so far and `irq_nested_count`. -/
structure Buddy where
  numPagesExp : ℕ
  endAddr : ℕ
  arr : ℕ → ℤ
  nodes : Links ℕ
  freeBlocksList : ℕ → Option ℕ
  console : List Msg
  irqNestedCount : ℤ

namespace Buddy

def numPages (s : Buddy) : ℕ := 2 ^ s.numPagesExp

def disableInt (s : Buddy) : Buddy := { s with irqNestedCount := s.irqNestedCount + 1 }

def enableInt (s : Buddy) : Buddy := { s with irqNestedCount := s.irqNestedCount - 1 }

def print (s : Buddy) (msg : Msg) : Buddy := { s with console := s.console ++ [msg] }

/-! ## Checked array accesses -/

def readArr (s : Buddy) (idx : ℕ) : Except Fault ℤ :=
  if idx < s.numPages then .ok (s.arr idx) else .error .outOfBounds

def writeArr (s : Buddy) (idx : ℕ) (value : ℤ) : Except Fault Buddy :=
  if idx < s.numPages then .ok { s with arr := Function.update s.arr idx value }
  else .error .outOfBounds

def readPrev (s : Buddy) (node : ℕ) : Except Fault (Option ℕ) :=
  if node < s.numPages then .ok (s.nodes.prev node) else .error .outOfBounds

def readNext (s : Buddy) (node : ℕ) : Except Fault (Option ℕ) :=
  if node < s.numPages then .ok (s.nodes.next node) else .error .outOfBounds

def writePrev (s : Buddy) (node : ℕ) (target : Option ℕ) : Except Fault Buddy :=
  if node < s.numPages then .ok { s with nodes := s.nodes.setPrev node target }
  else .error .outOfBounds

def writeNext (s : Buddy) (node : ℕ) (target : Option ℕ) : Except Fault Buddy :=
  if node < s.numPages then .ok { s with nodes := s.nodes.setNext node target }
  else .error .outOfBounds

def readList (s : Buddy) (listIdx : ℕ) : Except Fault (Option ℕ) :=
  if listIdx ≤ s.numPagesExp then .ok (s.freeBlocksList listIdx) else .error .outOfBounds

def writeList (s : Buddy) (listIdx : ℕ) (head : Option ℕ) : Except Fault Buddy :=
  if listIdx ≤ s.numPagesExp then
    .ok { s with freeBlocksList := Function.update s.freeBlocksList listIdx head }
  else .error .outOfBounds

end Buddy

/-! ## Free lists -/

def buddyDeleteFreeBlock (s : Buddy) (idx listIdx : ℕ) : Except Fault Buddy := do
  let s := s.disableInt
  if (← s.readArr idx) ≠ listIdx then
    return s.enableInt.print .nodeNotFound
  let s ← match ← s.readPrev idx with
    | some before => s.writeNext before (← s.readNext idx)
    | none => pure s
  let s ← match ← s.readNext idx with
    | some after => s.writePrev after (← s.readPrev idx)
    | none => pure s
  -- The node is the head of its list.
  let s ← if (← s.readList listIdx) = some idx then s.writeList listIdx (← s.readNext idx) else pure s
  let s ← s.writePrev idx none
  let s ← s.writeNext idx none
  let s ← s.writeArr idx (if listIdx = 0 then negZero else -(listIdx : ℤ))
  return s.enableInt

def buddyInsertFreeBlock (s : Buddy) (idx listIdx : ℕ) : Except Fault Buddy := do
  let s := s.disableInt
  let head ← s.readList listIdx
  let s ← match head with
    | some old => s.writePrev old (some idx)
    | none => pure s
  let s ← s.writeNext idx head
  let s ← s.writeList listIdx (some idx)
  let s ← s.writeArr idx listIdx
  return s.enableInt

/-! ## Initialisation -/

/-- The loop of `buddy_init`: `int_ptr` is doubled in a 64-bit register until it reaches the end
of the usable memory.  After 52 doublings the register is zero and stays so. -/
def numPagesLoop (usableEnd : ℕ) : ℕ → ℕ → ℕ → Except Fault (ℕ × ℕ)
  | 0, _, _ => .error .diverges
  | fuel + 1, intPtr, exp =>
    if intPtr < usableEnd then numPagesLoop usableEnd fuel (intPtr * 2 % 2 ^ 64) (exp + 1)
    else .ok (intPtr, exp)

/-- `buddy_init`, with `usable_memory[1] = usableEnd`. -/
def buddyInit (usableEnd : ℕ) : Except Fault Buddy := do
  let (endAddr, exp) ← numPagesLoop usableEnd 64 pageSize 0
  buddyInsertFreeBlock
    { numPagesExp := exp
      endAddr := endAddr
      arr := fun _ ↦ empty
      nodes := ⟨fun _ ↦ none, fun _ ↦ none⟩
      freeBlocksList := fun _ ↦ none
      console := []
      irqNestedCount := 0 } 0 exp

/-! ## Allocation -/

def buddyCutBlock (idx requiredSize : ℕ) : ℕ → Buddy → Except Fault Buddy
  | 0, s => .ok s.disableInt.enableInt
  | exp + 1, s => do
      let s := s.disableInt
      if 2 ^ exp < requiredSize then
        return s.enableInt
      -- The value is negative, so one more means one order less.
      let value := (← s.readArr idx) + 1
      let s ← s.writeArr idx value
      let s ← if value = 0 then s.writeArr idx negZero else pure s
      let s ← buddyInsertFreeBlock s (idx + 2 ^ exp) exp
      let s ← buddyCutBlock idx requiredSize exp s
      return s.enableInt

/-- The search loop of `buddy_malloc`; `none` is the exit with `list_idx > num_pages_exp`. -/
def buddyMallocSearch (s : Buddy) (size : ℕ) : ℕ → ℕ → Except Fault (Option ℕ)
  | 0, _ => .error .diverges
  | fuel + 1, listIdx => do
      if 2 ^ listIdx < size ∨ (← s.readList listIdx) = none then
        if s.numPagesExp < listIdx + 1 then return none
        buddyMallocSearch s size fuel (listIdx + 1)
      else
        return some listIdx

/-- `buddy_malloc`.  The block is reported by its head page, and `none` stands for the two exits
that return `NULL`; `blockPtr` is the address the caller sees. -/
def buddyMalloc (s : Buddy) (size : ℕ) : Except Fault (Option ℕ × Buddy) := do
  let s := s.disableInt
  if size = 0 then
    return (none, s.enableInt)
  match ← buddyMallocSearch s size (s.numPagesExp + 1) 0 with
  | none => return (none, s.enableInt.print .noEnoughSpace)
  | some listIdx =>
    match ← s.readList listIdx with
    | none => throw .nullPointer
    | some idx =>
      let s ← buddyDeleteFreeBlock s idx listIdx
      let s ← buddyCutBlock idx size listIdx s
      return (some idx, s.enableInt)

/-- The pointer `buddy_malloc` returns: `NULL` is the physical address 0. -/
def blockPtr : Option ℕ → ℕ
  | none => 0
  | some idx => idx * pageSize

/-! ## Release -/

def buddyMergeLoop : ℕ → ℕ → ℕ → Buddy → Except Fault Buddy
  | 0, _, _, _ => .error .diverges
  | fuel + 1, idx, exp, s => do
      let s := s.disableInt
      if exp = s.numPagesExp then
        return s.enableInt
      let buddyIdx ←
        if idx % 2 ^ (exp + 1) = 0 then pure (idx + 2 ^ exp)
        else if 2 ^ exp ≤ idx then pure (idx - 2 ^ exp)
        else throw .outOfBounds
      if (← s.readArr buddyIdx) ≠ exp then
        return s.enableInt
      let smallIdx := min idx buddyIdx
      let bigIdx := max idx buddyIdx
      let s ← buddyDeleteFreeBlock s idx exp
      let s ← buddyDeleteFreeBlock s buddyIdx exp
      let s ← buddyInsertFreeBlock s smallIdx (exp + 1)
      let s ← s.writeArr bigIdx empty
      let s ← buddyMergeLoop fuel smallIdx (exp + 1) s
      return s.enableInt

/-- `buddy_merge_block`; the recursion climbs at most to `num_pages_exp`. -/
def buddyMergeBlock (s : Buddy) (idx exp : ℕ) : Except Fault Buddy :=
  buddyMergeLoop (s.numPagesExp - exp + 1) idx exp s

def buddyFree (s : Buddy) (ptr : ℕ) : Except Fault Buddy := do
  let s := s.disableInt
  if s.endAddr ≤ ptr ∨ ptr % pageSize ≠ 0 then
    return s.enableInt.print .invalidPointer
  let idx := ptr / pageSize
  let value ← s.readArr idx
  if 0 ≤ value then
    return s.enableInt.print .pageNotInUse
  else if value = empty then
    return s.enableInt.print .notStartOfBlock
  let listIdx := if value = negZero then 0 else (-value).toNat
  let s ← buddyInsertFreeBlock s idx listIdx
  let s ← buddyMergeBlock s idx listIdx
  return s.enableInt

/-! ## Reservation -/

/-- The exits of `buddy_clear_block` before its recursion; `none` goes on to the two halves. -/
def buddyClearWhole (exp idx : ℕ) (s : Buddy) : Except Fault (Option Buddy) := do
  if idx % 2 ^ exp ≠ 0 then
    return some (s.print .notAligned)
  let value ← s.readArr idx
  if (exp : ℤ) ≤ value then
    return some s
  if (value ≠ negZero ∧ value ≤ -(exp : ℤ)) ∨ (value = negZero ∧ exp = 0) then
    return some (← buddyInsertFreeBlock s idx exp)
  return none

def buddyClearBlock : ℕ → ℕ → Buddy → Except Fault Buddy
  | 0, idx, s => do
      match ← buddyClearWhole 0 idx s with
      | some s => return s
      | none => throw .negativeShift
  | exp + 1, idx, s => do
      match ← buddyClearWhole (exp + 1) idx s with
      | some s => return s
      | none =>
        let buddyIdx := idx + 2 ^ exp
        let s ← buddyClearBlock exp idx s
        let s ← buddyClearBlock exp buddyIdx s
        let s ← buddyDeleteFreeBlock s idx exp
        let s ← buddyDeleteFreeBlock s buddyIdx exp
        let s ← buddyInsertFreeBlock s idx (exp + 1)
        s.writeArr buddyIdx empty

/-- The first loop of `memory_reserve`: the smallest aligned block, as its start address and its
order in pages, that covers `[start, stop)`.  The 64-bit loop variable is zero after 52 rounds. -/
def coverBlock (start stop : ℕ) : ℕ → ℕ → Except Fault (ℕ × ℕ)
  | 0, _ => .error .diverges
  | fuel + 1, exp =>
    let i := pageSize * 2 ^ exp
    let blockStart := start - start % i
    if i < (stop + 2 ^ 64 - start) % 2 ^ 64 then coverBlock start stop fuel (exp + 1)
    else if (blockStart + i) % 2 ^ 64 < stop then coverBlock start stop fuel (exp + 1)
    else .ok (blockStart, exp)

/-- `x & -x` on a 32-bit `int`. -/
def lowBit (x : ℕ) : ℕ := x &&& (2 ^ 32 - x)

/-- The second loop of `memory_reserve`: clear low bits until the head of a block is found. -/
def findHead (s : Buddy) : ℕ → ℕ → Except Fault ℕ
  | 0, _ => .error .diverges
  | fuel + 1, parentIdx => do
      if (← s.readArr parentIdx) = empty then
        findHead s fuel (parentIdx - lowBit parentIdx)
      else
        return parentIdx

/-- The third loop of `memory_reserve`: `i` runs down from `reserveLenExp + rounds`. -/
def reserveSplit (idx reserveLenExp : ℕ) : ℕ → ℕ → Buddy → Except Fault Buddy
  | 0, _, s => .ok s
  | rounds + 1, parentIdx, s => do
      let idx1 := parentIdx
      let idx2 := parentIdx + 2 ^ (reserveLenExp + rounds)
      let s ← buddyDeleteFreeBlock s parentIdx (reserveLenExp + rounds + 1)
      let s ← buddyInsertFreeBlock s idx1 (reserveLenExp + rounds)
      let s ← buddyInsertFreeBlock s idx2 (reserveLenExp + rounds)
      reserveSplit idx reserveLenExp rounds (if idx < idx2 then idx1 else idx2) s

def memoryReserve (s : Buddy) (start stop : ℕ) : Except Fault Buddy := do
  let (reserveStart, reserveLenExp) ← coverBlock start stop 52 0
  let idx := reserveStart / pageSize
  let parentIdx ← findHead s (idx + 1) idx
  let value ← s.readArr parentIdx
  if value ≤ -(reserveLenExp : ℤ) ∧ value ≠ negZero then
    return s
  else if (reserveLenExp : ℤ) ≤ value then
    let s ← reserveSplit idx reserveLenExp (value - reserveLenExp).toNat parentIdx s
    buddyDeleteFreeBlock s idx reserveLenExp
  else
    let s ← buddyClearBlock reserveLenExp idx s
    buddyDeleteFreeBlock s idx reserveLenExp

end CapstoneKernel.Mem
